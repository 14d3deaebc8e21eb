import Mathlib
import WhatsappTester.Jobs.Probe
import WhatsappTester.Jobs.Settling

namespace WhatsappTester.Jobs.Occurrences

open Schema State Atomic Atomic.Program Atomic.Runs Statements JobService Claiming Worker
  Ledger Custody
open Process Solo Standing Registry Uniqueness Settling Scheduler

theorem colon_digits (n : Nat) : ':' ∉ (toString n).toList := by
  intro h
  rw [show (toString n : String) = Nat.repr n from rfl, Nat.repr, String.toList_ofList] at h
  exact absurd (Nat.isDigit_of_mem_toDigits (by decide) (by decide) h) (by decide)

theorem colon_integer (t : Int) : ':' ∉ (toString t).toList := by
  cases t with
  | ofNat n => exact colon_digits n
  | negSucc n =>
    have hrepr : (toString (Int.negSucc n)).toList = '-' :: (toString (n + 1)).toList := by
      rw [show toString (Int.negSucc n) = "-" ++ toString (n + 1) from rfl, String.toList_append]
      rfl
    rw [hrepr, List.mem_cons]
    rintro (hdash | hdigit)
    · exact absurd hdash (by decide)
    · exact colon_digits (n + 1) hdigit

/-- What stands on both sides of the last separator. -/
theorem append_cons_inj_last {α : Type} {a : α} {l l' r r' : List α} (hr : a ∉ r) (hr' : a ∉ r')
    (h : l ++ a :: r = l' ++ a :: r') : l = l' ∧ r = r' := by
  have hcut {l l' r r' : List α} (hr : a ∉ r) {c : List α} (hl : l' = l ++ c)
      (hc : a :: r = c ++ a :: r') : l = l' ∧ r = r' := by
    cases c with
    | nil => exact ⟨(hl.trans (List.append_nil l)).symm, (List.cons.inj hc).2⟩
    | cons x c =>
      have hmem : a ∈ r := by simp [(List.cons.inj hc).2]
      exact absurd hmem hr
  obtain ⟨c, hl, hc⟩ | ⟨c, hl, hc⟩ := List.append_eq_append_iff.mp h
  · exact hcut hr hl hc
  · have hsame := hcut hr' hl hc
    exact ⟨hsame.1.symm, hsame.2.symm⟩

/-- Whatever its id looks like, a schedule and its occurrence can be told from the key. -/
theorem occurrenceKey_inj {id id' : String} {t u : Ms}
    (h : occurrenceKey id t = occurrenceKey id' u) : id = id' ∧ t = u := by
  have hlist := congrArg String.toList h
  have hcolon : ":".toList = [':'] := rfl
  simp only [occurrenceKey, String.toList_append, List.append_assoc, hcolon, List.singleton_append,
    List.append_cancel_left_eq] at hlist
  obtain ⟨hid, htime⟩ := append_cons_inj_last (colon_integer t) (colon_integer u) hlist
  exact ⟨String.toList_inj.mp hid, Int.repr_injective (String.toList_inj.mp htime)⟩

theorem occurrenceKey_ne (id : String) (t : Ms) : occurrenceKey id t ≠ "" := by
  intro heq
  have hlist := congrArg String.toList heq
  simp [occurrenceKey] at hlist

def currentKey (row : Schedule) : Option String := some (occurrenceKey row.id row.nextRunAt)

/-- A job as the scheduler creates it for occurrence `t` of schedule `n`. -/
structure Occurs (n : Nat) (t : Ms) (o : JobOrigin) : Prop where
  key : o.idempotencyKey = some (occurrenceKey (toString n) t)
  type : o.sourceType = some "schedule"
  source : o.sourceId = some (toString n)

/-- What is not created under the name of a schedule. -/
def Foreign (key sourceType : Option String) : Prop :=
  (∀ k ∈ key, ¬ "schedule:".toList <+: k.toList) ∧ sourceType ≠ some "schedule"

instance (key sourceType : Option String) : Decidable (Foreign key sourceType) :=
  inferInstanceAs (Decidable (_ ∧ _))

theorem foreign_ne {key sourceType : Option String} (h : Foreign key sourceType) (row : Schedule) :
    key ≠ currentKey row := by
  intro heq
  refine h.1 _ heq ?_
  simp only [occurrenceKey, String.toList_append, List.append_assoc]
  exact List.prefix_append _ _

/-- A job that has nothing to do with schedules, or one for an occurrence that its
schedule has come to. -/
def Reached (bound : Id) (s : Shared) (o : JobOrigin) : Prop :=
  Foreign o.idempotencyKey o.sourceType ∨ ∃ n < bound, ∃ t, Occurs n t o ∧
    ∀ row ∈ s.db.schedules, row.id = toString n → t ≤ row.nextRunAt

/-- Every schedule is well formed, and no job is ahead of its schedule. Ids are below `bound`. -/
structure Dated (bound : Id) (s : Shared) : Prop where
  named : ∀ row ∈ s.db.schedules, ∃ n < bound, row.id = toString n
  distinct : (s.db.schedules.map (·.id)).Nodup
  addressed : ∀ row ∈ s.db.schedules, row.recipients ≠ []
  forward : ∀ row ∈ s.db.schedules, ∀ value, row.repeatEveryValue = some value → 1 ≤ value
  jobs : ∀ j ∈ s.db.jobs, Reached bound s (jobOrigin j)

/-- A job that is still to be settled, by one of its items. -/
structure Live (j : Job) (s : Shared) : Prop where
  unsettled : j.status.terminal = false
  item : ∃ r ∈ s.db.items, r.jobId = j.id ∧ r.status.terminal = false

def Fired (s : Shared) : Prop :=
  ∀ row ∈ s.db.schedules, row.status = .sending → ∃ j ∈ s.db.jobs, j.idempotencyKey = currentKey row

/-- The job for the occurrence of a schedule that is not done is live, unless it is exempt. -/
def Served (exempt : Id → Prop) (s : Shared) : Prop :=
  ∀ row ∈ s.db.schedules, row.status ≠ .done → ∀ j ∈ s.db.jobs, j.idempotencyKey = currentKey row →
    ¬ exempt j.id → Live j s

structure OnTime (exempt : Id → Prop) (s : Shared) : Prop where
  dated : Dated s.uuid s
  fired : Fired s
  served : Served exempt s

section Standing

variable {s s' : Shared} {exempt : Id → Prop} {bound bound' : Id}

theorem live_standing {j j' : Job} (h : Live j s) (heq : standing s' = standing s)
    (hid : j'.id = j.id) (hterminal : j'.status.terminal = j.status.terminal) : Live j' s' := by
  obtain ⟨r, hr, hjob, hopen⟩ := h.item
  obtain ⟨r', hr', horigin, hterminal'⟩ := item_standing heq hr
  have hjob' : r'.jobId = r.jobId := congrArg ItemOrigin.jobId horigin
  exact ⟨hterminal.trans h.unsettled, r', hr', hjob'.trans (hjob.trans hid.symm),
    hterminal'.trans hopen⟩

theorem dated_le (h : Dated bound s) (hle : bound ≤ bound') : Dated bound' s := by
  refine ⟨fun row hrow => ?_, h.distinct, h.addressed, h.forward, fun j hj => ?_⟩
  · obtain ⟨n, hn, hid⟩ := h.named row hrow
    exact ⟨n, Nat.lt_of_lt_of_le hn hle, hid⟩
  · exact (h.jobs j hj).imp id (fun ⟨n, hn, rest⟩ => ⟨n, Nat.lt_of_lt_of_le hn hle, rest⟩)

theorem dated_of (h : Dated bound s) (hschedules : s'.db.schedules = s.db.schedules)
    (hjobs : s'.db.jobs.map jobOrigin = s.db.jobs.map jobOrigin) : Dated bound s' := by
  refine ⟨?_, ?_, ?_, ?_, fun j hj => ?_⟩
  · rw [hschedules]
    exact h.named
  · rw [hschedules]
    exact h.distinct
  · rw [hschedules]
    exact h.addressed
  · rw [hschedules]
    exact h.forward
  · obtain ⟨j₀, hj₀, horigin⟩ := List.mem_map.mp (hjobs ▸ List.mem_map_of_mem hj)
    rw [Reached, hschedules, ← horigin]
    exact h.jobs j₀ hj₀

theorem origins_standing (heq : standing s' = standing s) :
    s'.db.jobs.map jobOrigin = s.db.jobs.map jobOrigin := by
  have hjobs : s'.db.jobs.map jobStanding = s.db.jobs.map jobStanding := congrArg Progress.jobs heq
  have hfst := congrArg (List.map Prod.fst) hjobs
  simpa only [List.map_map, Function.comp_def, jobStanding] using hfst

theorem onTime_standing (h : OnTime exempt s) (heq : standing s' = standing s)
    (huuid : s.uuid ≤ s'.uuid) :
    OnTime exempt s' := by
  have hschedules : s'.db.schedules = s.db.schedules := congrArg Progress.schedules heq
  refine ⟨dated_le (dated_of h.dated hschedules (origins_standing heq)) huuid,
    fun row hrow hsending => ?_, fun row hrow hdone j hj hkey hexempt => ?_⟩
  · rw [hschedules] at hrow
    obtain ⟨j, hj, hkey⟩ := h.fired row hrow hsending
    obtain ⟨j', hj', horigin, _⟩ := job_standing heq hj
    have hkey' : j'.idempotencyKey = j.idempotencyKey := congrArg JobOrigin.idempotencyKey horigin
    exact ⟨j', hj', hkey'.trans hkey⟩
  · rw [hschedules] at hrow
    obtain ⟨j₀, hj₀, horigin, hterminal⟩ := job_standing heq.symm hj
    have hkey₀ : j₀.idempotencyKey = j.idempotencyKey := congrArg JobOrigin.idempotencyKey horigin
    have hid₀ : j₀.id = j.id := congrArg JobOrigin.id horigin
    exact live_standing (h.served row hrow hdone j₀ hj₀ (hkey₀.trans hkey) (hid₀ ▸ hexempt)) heq
      hid₀.symm
      hterminal.symm

end Standing

variable {v v' : World}

def Punctual (v v' : World) : Prop := OnTime (fun _ => False) v.shared →
    OnTime (fun _ => False) v'.shared

theorem punctual_even (h : Even v v') :
    Punctual v v' := fun ht => onTime_standing ht h.standing h.uuid

theorem punctual_aside : Lenient Punctual := fun v v' h => punctual_even (even_aside v v' h)

def slots (s : Shared) : List (String × Ms × Bool) :=
  s.db.schedules.map (fun row => (row.id, row.nextRunAt, decide (row.status = .done)))

structure Slotted (L : List (String × Ms × Bool)) (v : World) : Prop where
  onTime : OnTime (fun _ => False) v.shared
  slots : slots v.shared = L

structure Later (row row' : Schedule) : Prop where
  id : row'.id = row.id
  recipients : row'.recipients = row.recipients
  value : row'.repeatEveryValue = row.repeatEveryValue
  nextRunAt : row.nextRunAt ≤ row'.nextRunAt

theorem dated_update {bound : Id} {s : Shared} (h : Dated bound s) {p : Schedule → Bool}
    {f : Schedule → Schedule} (hf : ∀ row ∈ s.db.schedules, p row → Later row (f row)) :
    Dated bound { s with db.schedules := Table.update p f s.db.schedules } := by
  have hlater : ∀ row ∈ s.db.schedules, Later row (if p row then f row else row) := by
    intro row hrow
    split
    · exact hf row hrow ‹_›
    · exact ⟨rfl, rfl, rfl, le_refl _⟩
  refine ⟨Table.forall_update.mpr (fun row hrow => ?_), ?_,
    Table.forall_update.mpr (fun row hrow => ?_), Table.forall_update.mpr (fun row hrow => ?_),
    fun j hj => ?_⟩
  · rw [(hlater row hrow).id]
    exact h.named row hrow
  · rw [Table.map_update_mem (fun row hrow hp => (hf row hrow hp).id)]
    exact h.distinct
  · rw [(hlater row hrow).recipients]
    exact h.addressed row hrow
  · rw [(hlater row hrow).value]
    exact h.forward row hrow
  · refine (h.jobs j hj).imp id (fun ⟨n, hn, t, hoccurs, hreached⟩ => ⟨n, hn, t, hoccurs, ?_⟩)
    refine Table.forall_update.mpr (fun row hrow hid => ?_)
    rw [(hlater row hrow).id] at hid
    exact le_trans (hreached row hrow hid) (hlater row hrow).nextRunAt

theorem newItems_ne (jobId : Id) (now : Ms) (first : Id) {items : List NewItem} (h : items ≠ []) :
    ∃ r, r ∈ newItems jobId now first 0 items := by
  cases items with
  | nil => exact absurd rfl h
  | cons item rest => exact ⟨_, List.mem_cons_self⟩

theorem dated_insert {bound : Id} {s : Shared} {id : Id} {now : Ms} {a : CreateJobArgs}
    {db : Db} (uuid : Id) (t : List Event) (h : Dated bound s)
    (htransaction : createTransaction id now a s.uuid s.db = .ok db)
    (hreached : Reached bound s (jobOrigin (newJob id now a))) :
    Dated bound { s with db := db, uuid := uuid, trace := t } := by
  obtain ⟨rfl, _⟩ := createTransaction_ok htransaction
  refine ⟨h.named, h.distinct, h.addressed, h.forward, List.forall_mem_append.mpr ⟨h.jobs, ?_⟩⟩
  exact List.forall_mem_singleton.mpr hreached

theorem onTime_insert {s : Shared} {id : Id} {now : Ms} {a : CreateJobArgs} {db : Db} {uuid : Id}
    {t : List Event} (h : OnTime (fun _ => False) s)
    (htransaction : createTransaction id now a s.uuid s.db = .ok db) (huuid : s.uuid ≤ uuid)
    (hreached : Reached s.uuid s (jobOrigin (newJob id now a)))
    (hitems : ∀ row, a.idempotencyKey = currentKey row → a.items ≠ []) :
    OnTime (fun _ => False) { s with db := db, uuid := uuid, trace := t } := by
  have hdated := dated_le (dated_insert uuid t h.dated htransaction hreached) huuid
  obtain ⟨rfl, _⟩ := createTransaction_ok htransaction
  refine ⟨hdated, fun row hrow hsending => ?_, fun row hrow hdone j hj hkey hexempt => ?_⟩
  · obtain ⟨j, hj, hkey⟩ := h.fired row hrow hsending
    exact ⟨j, List.mem_append_left _ hj, hkey⟩
  · obtain hj | hj := List.mem_append.mp hj
    · obtain ⟨hopen, r, hr, hr'⟩ := h.served row hrow hdone j hj hkey hexempt
      exact ⟨hopen, r, List.mem_append_left _ hr, hr'⟩
    · rw [List.mem_singleton] at hj
      subst hj
      obtain ⟨r, hr⟩ := newItems_ne id now s.uuid (hitems row hkey)
      refine ⟨rfl, r, List.mem_append_right _ hr, (mem_newItems hr).1, ?_⟩
      rw [(mem_newItems hr).2]
      rfl

section Fire

variable {row : Schedule} {L : List (String × Ms × Bool)}

theorem slot_row {s : Shared} (hslot : (row.id, row.nextRunAt, false) ∈ slots s) :
    ∃ row' ∈ s.db.schedules, row'.id = row.id ∧ row'.nextRunAt = row.nextRunAt ∧
    row'.status ≠ .done := by
  obtain ⟨row', hrow', heq⟩ := List.mem_map.mp hslot
  exact ⟨row', hrow', by simpa using heq⟩

theorem reached_fire {bound : Id} {s : Shared} (h : Dated bound s)
    (hslot : (row.id, row.nextRunAt, false) ∈ slots s) (id : Id) (now : Ms) :
    Reached bound s (jobOrigin (newJob id now (fireArgs row))) := by
  obtain ⟨row', hrow', hid, hnext, _⟩ := slot_row hslot
  obtain ⟨n, hn, hname⟩ := h.named row' hrow'
  have hname' : row.id = toString n := hid.symm.trans hname
  refine Or.inr ⟨n, hn, row.nextRunAt, ⟨?_, rfl, congrArg some hname'⟩,
    fun row'' hrow'' hname'' => ?_⟩
  · rw [← hname']
    rfl
  · rw [Table.eq_of_key h.distinct hrow'' hrow' (hname''.trans hname.symm), hnext]

theorem slotted_even (h : Slotted L v) (he : Even v v') : Slotted L v' := by
  refine ⟨onTime_standing h.onTime he.standing he.uuid, ?_⟩
  have hschedules : v'.shared.db.schedules = v.shared.db.schedules :=
    congrArg Progress.schedules he.standing
  rw [slots, hschedules]
  exact h.slots

theorem slotted_callCreateJob (hslot : (row.id, row.nextRunAt, false) ∈ L)
    (hrecipients : row.recipients ≠ []) :
    Always (fun v v' => Slotted L v → Slotted L v') (callCreateJob (fireArgs row)) := by
  have haside : Lenient (fun v v' => Slotted L v → Slotted L v') :=
    fun v v' he h => slotted_even h (even_aside v v' he)
  refine always_callCreateJob haside.tolerant _ (fun id now => always_update _ (fun v h => ?_)) ?_
  · have huuid := Nat.le_add_right v.shared.uuid (fireArgs row).items.length
    cases htransaction : createTransaction id now (fireArgs row) v.shared.uuid v.shared.db with
    | error err =>
      exact ⟨onTime_standing h.onTime rfl huuid, h.slots⟩
    | ok db =>
      refine ⟨onTime_insert h.onTime htransaction huuid
        (reached_fire h.onTime.dated (h.slots ▸ hslot) id now) (fun _ _ => ?_), ?_⟩
      · simpa [fireArgs] using hrecipients
      obtain ⟨rfl, _⟩ := createTransaction_ok htransaction
      exact h.slots
  · intro result v h
    cases result with
    | error err => exact h
    | ok r => exact ⟨onTime_standing h.onTime rfl (le_refl _), h.slots⟩

def Keyed (k : String) (v : World) : Prop := ∃ j ∈ v.shared.db.jobs, j.idempotencyKey = some k

theorem ends_keyed {α : Type} {p : Code α} {k : String} (hp : Always Aside p) (h : Keyed k v) :
    Ends p (fun _ u => Keyed k u) v := by
  refine ends_always (fun a b ha hab => ?_) hp h
  obtain ⟨j, hj, hkey⟩ := ha
  exact ⟨j, hab.jobs ▸ hj, hkey⟩

theorem ends_selectKey {k : String} (hk : k ≠ "") (v : World) :
    Ends (selectKey (some k)) (fun existing u => u = v ∧ (existing ≠ none → Keyed k v)) v := by
  simp only [Ends, selectKey, hk, ↓reduceIte, wp_query, forall_eq', true_and]
  intro hfound
  cases hfind : v.shared.db.jobs.find? (fun j => decide (j.idempotencyKey = some k)) with
  | none => simp [hfind] at hfound
  | some j => exact ⟨j, List.mem_of_find?_eq_some hfind, by simpa using List.find?_some hfind⟩

theorem ends_insertJobAndItems (id : Id) (now : Ms) {a : CreateJobArgs} {k : String}
    (hkey : a.idempotencyKey = some k) (v : World) :
    Ends (insertJobAndItems id now a) (fun result u => ∀ x, result = .ok x → Keyed k u) v := by
  simp only [Ends, insertJobAndItems, wp_update, forall_eq', true_and]
  intro x hx
  cases htransaction : createTransaction id now a v.shared.uuid v.shared.db with
  | error err => simp [htransaction, Except.map] at hx
  | ok db =>
    obtain ⟨rfl, _⟩ := createTransaction_ok htransaction
    exact ⟨newJob id now a, List.mem_append_right _ (List.mem_singleton_self _), hkey⟩

theorem ends_callCreateJob {a : CreateJobArgs} {k : String} (hkey : a.idempotencyKey = some k)
    (hk : k ≠ "") :
    Ends (callCreateJob a) (fun result u => ∀ r, result = .ok r → Keyed k u) v := by
  have haside : Lenient Aside := fun _ _ h => h
  have hget : ∀ (id : Id) (created : Bool) (u : World), Keyed k u → Ends (do
      let job ← getJob id
      pure (.ok ⟨job, created⟩ : Except SqlError CreateResult)) (fun result u => ∀ r,
        result = .ok r → Keyed k u) u :=
    fun id created u hu => wp_mono (fun _ _ ht _ _ => ht)
      (ends_keyed (always_bind (always_getJob haside.tolerant id) (fun _ => always_pure _)) hu)
  have hcreate : Ends (createJob a) (fun result u => ∀ r, result = .ok r → Keyed k u) v := by
    simp only [createJob, hkey]
    refine wp_seq (ends_selectKey hk v) ?_
    rintro existing u ⟨rfl, hfound⟩
    cases existing with
    | some existing => exact hget existing false _ (hfound (by simp))
    | none =>
      refine wp_seq (Q := fun _ _ => True) (ends_iff.mpr trivial) (fun id u _ => ?_)
      refine wp_seq (Q := fun _ _ => True) (ends_iff.mpr trivial) (fun now u _ => ?_)
      refine wp_seq (ends_insertJobAndItems id now hkey u) (fun result u hu => ?_)
      cases result with
      | ok x =>
        refine wp_seq (ends_keyed (always_recordEvent haside _ _) (hu x rfl))
          (fun _ u hu => hget id true u hu)
      | error err =>
        simp only
        split
        · refine wp_seq (ends_selectKey hk u) ?_
          rintro existing u ⟨rfl, hfound⟩
          cases existing with
          | some existing => exact hget existing false _ (hfound (by simp))
          | none => exact fun r hr => by cases hr
        · exact fun r hr => by cases hr
  refine wp_seq hcreate (fun result u hu => ?_)
  rintro _ rfl
  refine ⟨trivial, fun r hr => ?_⟩
  subst hr
  exact hu r rfl

def sendingRow (now : Ms) (row : Schedule) : Schedule :=
  { row with status := .sending, updatedAt := now }

theorem slots_sending (s : Shared) (id : String) (now : Ms) :
    slots { s with
      db.schedules :=
        Table.update (fun s => decide (s.id = id ∧ s.status = .scheduled)) (sendingRow now)
        s.db.schedules } = slots s := by
  refine Table.map_update (fun row hrow => ?_) s.db.schedules
  rw [sendingRow, (of_decide_eq_true hrow).2]
  rfl

theorem slotted_sending (h : Slotted L v) (hslot : (row.id, row.nextRunAt, false) ∈ L)
    (hkeyed : Keyed (occurrenceKey row.id row.nextRunAt) v) (now : Ms) :
    Slotted L { v with
      shared.db.schedules := Table.update (fun s => decide (s.id = row.id ∧ s.status = .scheduled))
        (sendingRow now) v.shared.db.schedules } := by
  obtain ⟨⟨hdated, hfired, hserved⟩, hslots⟩ := h
  refine ⟨⟨?_, Table.forall_update.mpr (fun row' hrow' hsending => ?_),
    Table.forall_update.mpr (fun row' hrow' hdone j hj hkey hexempt => ?_)⟩, ?_⟩
  · exact dated_update hdated (fun row' _ _ => ⟨rfl, rfl, rfl, le_refl _⟩)
  · split at hsending
    case isTrue hmarked =>
      rw [if_pos hmarked]
      have hid : row'.id = row.id := (of_decide_eq_true hmarked).1
      obtain ⟨row'', hrow'', hid'', hnext, _⟩ := slot_row (hslots ▸ hslot)
      have hsame := Table.eq_of_key hdated.distinct hrow' hrow'' (hid.trans hid''.symm)
      obtain ⟨j, hj, hkey⟩ := hkeyed
      refine ⟨j, hj, hkey.trans ?_⟩
      rw [currentKey, sendingRow, hid, hsame, hnext]
    case isFalse hother =>
      rw [if_neg hother]
      exact hfired row' hrow' hsending
  · split at hdone
    case isTrue hmarked =>
      rw [if_pos hmarked] at hkey
      have hstatus : row'.status ≠ .done := by
        rw [(of_decide_eq_true hmarked).2]
        simp
      obtain ⟨hopen, hitem⟩ := hserved row' hrow' hstatus j hj hkey hexempt
      exact ⟨hopen, hitem⟩
    case isFalse hother =>
      rw [if_neg hother] at hkey
      obtain ⟨hopen, hitem⟩ := hserved row' hrow' hdone j hj hkey hexempt
      exact ⟨hopen, hitem⟩
  · rw [slots_sending]
    exact hslots

theorem wp_fireDue (hslot : (row.id, row.nextRunAt, false) ∈ L) (hrecipients : row.recipients ≠ [])
    (h : Slotted L v) :
    Wp Eq (fun _ t => OnTime (fun _ => False) t.shared) (fireDue row)
      (fun _ t => Slotted L t) v := by
  have hcreate : Wp Eq (fun _ t => OnTime (fun _ => False) t.shared) (callCreateJob (fireArgs row))
      (fun _ t => Slotted L t) v := by
    refine wp_alone (slotted_callCreateJob hslot hrecipients) (fun a b ha hab => ?_) h
    exact ⟨(hab ha).onTime, hab ha⟩
  have hkey := occurrenceKey_ne row.id row.nextRunAt
  refine wp_seq (wp_and hcreate (ends_callCreateJob (a := fireArgs row) rfl hkey)) ?_
  rintro result u ⟨hslotted, hkeyed⟩
  cases result with
  | error err => exact hslotted
  | ok r =>
    simp only [dateNow, updateSchedules, wp_bind, wp_query, wp_update, wp_pure, forall_eq',
      hslotted.onTime, true_and]
    have hsending := slotted_sending hslotted hslot (hkeyed r rfl) u.shared.now
    exact ⟨hsending.onTime, hsending⟩

theorem slot_due {s : Shared} {now : Ms} (hrow : row ∈ s.db.schedules.filter (due now)) :
    (row.id, row.nextRunAt, false) ∈ slots s := by
  obtain ⟨hmem, hdue⟩ := List.mem_filter.mp hrow
  refine List.mem_map.mpr ⟨row, hmem, ?_⟩
  rw [(of_decide_eq_true hdue).1]
  rfl

theorem wp_runTickIfReady (ready : Bool) (h : OnTime (fun _ => False) v.shared) :
    Wp Eq (fun _ t => OnTime (fun _ => False) t.shared) (runTickIfReady ready)
      (fun _ t => OnTime (fun _ => False) t.shared) v := by
  simp only [runTickIfReady]
  split
  · exact h
  · simp only [dateNow, wp_bind, wp_query, forall_eq', h, true_and]
    refine wp_mono (fun _ t ht => ht.onTime) (wp_each (P := Slotted (slots v.shared)) _ ?_ ⟨h, rfl⟩)
    intro row hrow u hu
    exact wp_fireDue (slot_due hrow) (h.dated.addressed row (List.mem_filter.mp hrow).1) hu

end Fire

theorem punctual_callCreateJob {a : CreateJobArgs} (h : Foreign a.idempotencyKey a.sourceType) :
    Always Punctual (callCreateJob a) := by
  refine always_callCreateJob punctual_aside.tolerant a
    (fun id now => always_update _ (fun v ht => ?_)) ?_
  · have huuid := Nat.le_add_right v.shared.uuid a.items.length
    cases htransaction : createTransaction id now a v.shared.uuid v.shared.db with
    | error err => exact onTime_standing ht rfl huuid
    | ok db =>
      exact onTime_insert ht htransaction huuid (Or.inl h)
        (fun row hkey => absurd hkey (foreign_ne h row))
  · intro result v ht
    cases result with
    | error err => exact ht
    | ok r => exact onTime_standing ht rfl (le_refl _)

theorem name_ne {m n : Nat} (h : m ≠ n) :
    toString m ≠ toString n := fun heq => h (Nat.repr_injective heq)

theorem dated_create {s : Shared} (h : Dated s.uuid s) (now : Ms) (args : CreateArgs) :
    Dated (s.uuid + 1) { s with
      uuid := s.uuid + 1
      db.schedules := s.db.schedules ++ [newSchedule s.uuid now args] } := by
  have hle := dated_le h (Nat.le_succ s.uuid)
  refine ⟨?_, ?_, ?_, ?_, fun j hj => ?_⟩
  · exact List.forall_mem_append.mpr ⟨hle.named, by simp [newSchedule]⟩
  · rw [List.map_append]
    refine List.nodup_append.mpr ⟨h.distinct, List.nodup_singleton _, ?_⟩
    rintro _ hold _ hnew rfl
    obtain ⟨row, hrow, hid⟩ := List.mem_map.mp hold
    obtain ⟨n, hn, hname⟩ := h.named row hrow
    have hnew' : row.id = toString s.uuid := hid.trans (List.mem_singleton.mp hnew)
    exact name_ne (Nat.ne_of_gt hn) (hnew'.symm.trans hname)
  · exact List.forall_mem_append.mpr ⟨hle.addressed, by simpa [newSchedule] using args.nonempty⟩
  · refine List.forall_mem_append.mpr ⟨hle.forward, ?_⟩
    simp only [List.forall_mem_singleton, newSchedule, Option.map_eq_some_iff]
    rintro _ ⟨rule, _, rfl⟩
    exact rule.positive
  · refine (h.jobs j hj).imp id (fun ⟨n, hn, t, hoccurs, hreached⟩ => ?_)
    refine ⟨n, Nat.lt_succ_of_lt hn, t, hoccurs, List.forall_mem_append.mpr ⟨hreached, ?_⟩⟩
    exact List.forall_mem_singleton.mpr (fun hid => absurd hid (name_ne (Nat.ne_of_gt hn)))

theorem wp_create (input : CreateInput) (h : OnTime (fun _ => False) v.shared) :
    Wp Eq (fun _ t => OnTime (fun _ => False) t.shared) (create input)
      (fun _ t => OnTime (fun _ => False) t.shared) v := by
  simp only [create]
  cases normalize input with
  | error err => exact h
  | ok args =>
    have huuid : OnTime (fun _ => False) { v.shared with uuid := v.shared.uuid + 1 } :=
      onTime_standing h rfl (Nat.le_succ _)
    suffices hnew : OnTime (fun _ => False) { v.shared with
        uuid := v.shared.uuid + 1
        db.schedules := v.shared.db.schedules ++ [newSchedule v.shared.uuid v.shared.now args] } by
      simp only [randomUUID, dateNow, wp_bind, wp_update, wp_query, wp_exec, forall_eq',
        huuid, true_and]
      exact ⟨hnew, hnew⟩
    refine ⟨dated_create h.dated v.shared.now args, ?_, ?_⟩
    · refine List.forall_mem_append.mpr ⟨h.fired,
        List.forall_mem_singleton.mpr (fun hsending => ?_)⟩
      cases hsending
    · refine List.forall_mem_append.mpr ⟨fun row hrow hdone j hj hkey hexempt => ?_,
        List.forall_mem_singleton.mpr (fun _ j hj hkey => ?_)⟩
      · obtain ⟨hopen, hitem⟩ := h.served row hrow hdone j hj hkey hexempt
        exact ⟨hopen, hitem⟩
      · obtain hforeign | ⟨n, hn, t, hoccurs, _⟩ := h.dated.jobs j hj
        · exact absurd hkey (foreign_ne hforeign _)
        · have hsame := Option.some.inj (hoccurs.key.symm.trans hkey)
          exact absurd (Nat.repr_injective (occurrenceKey_inj hsame).1) (Nat.ne_of_lt hn)

theorem dated_remove {bound : Id} {s : Shared} (h : Dated bound s) (id : String) :
    Dated bound { s with db.schedules := s.db.schedules.filter (fun s => decide (s.id ≠ id)) } := by
  have hrow : ∀ {row : Schedule}, row ∈ s.db.schedules.filter (fun s => decide (s.id ≠ id)) →
      row ∈ s.db.schedules := fun h => (List.mem_filter.mp h).1
  refine ⟨fun row hr => h.named row (hrow hr), h.distinct.sublist (List.filter_sublist.map _),
    fun row hr => h.addressed row (hrow hr), fun row hr => h.forward row (hrow hr), fun j hj => ?_⟩
  refine (h.jobs j hj).imp (fun hforeign => hforeign) (fun ⟨n, hn, t, hoccurs, hreached⟩ => ?_)
  exact ⟨n, hn, t, hoccurs, fun row hr => hreached row (hrow hr)⟩

theorem punctual_remove (id : String) : Always Punctual (Scheduler.remove id) := by
  refine always_exec (fun v h => ?_)
  have hrow : ∀ {row : Schedule}, row ∈ v.shared.db.schedules.filter (fun s => decide (s.id ≠ id)) →
      row ∈ v.shared.db.schedules := fun h => (List.mem_filter.mp h).1
  refine ⟨dated_remove h.dated id, fun row hr => h.fired row (hrow hr),
    fun row hr hdone j hj hkey hexempt => ?_⟩
  obtain ⟨hopen, hitem⟩ := h.served row (hrow hr) hdone j hj hkey hexempt
  exact ⟨hopen, hitem⟩

end WhatsappTester.Jobs.Occurrences
