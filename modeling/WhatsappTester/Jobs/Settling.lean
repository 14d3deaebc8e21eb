import WhatsappTester.Jobs.Standing
import WhatsappTester.Jobs.Uniqueness

namespace WhatsappTester.Jobs.Settling

open Schema State Atomic Atomic.Program Statements JobService Claiming Worker Ledger
  Process Standing
open Solo Registry Uniqueness

def rowsBeside (i : Id) (s : Shared) : List JobItem :=
  s.db.items.filter (fun r => decide (r.id ≠ i))

def verdicts (s : Shared) : List (Id × Bool) := s.db.jobs.map (fun j => (j.id, j.status.terminal))

structure Beside (i : Id) (v v' : World) : Prop extends Write v v' where
  rows : rowsBeside i v'.shared = rowsBeside i v.shared
  verdicts : verdicts v'.shared = verdicts v.shared
  schedules : v'.shared.db.schedules = v.shared.db.schedules
  flight : v'.mem.inFlight = v.mem.inFlight

variable {i : Id} {u v w : World}

theorem beside_refl (i : Id) (v : World) :
    Beside i v v := ⟨(itemless_refl v).toWrite, rfl, rfl, rfl, rfl⟩

theorem beside_trans (h : Beside i u v) (h' : Beside i v w) : Beside i u w :=
  ⟨write_trans h.toWrite h'.toWrite, h'.rows.trans h.rows, h'.verdicts.trans h.verdicts,
    h'.schedules.trans h.schedules, h'.flight.trans h.flight⟩

theorem beside_aside (i : Id) : Lenient (Beside i) := by
  intro v v' h
  have hitems : v'.shared.db.items = v.shared.db.items := congrArg Custody.items h.custody
  exact ⟨write_of_aside h,
    by
      simp only [rowsBeside, hitems], by
        simp only [Settling.verdicts, h.jobs], h.schedules, congrArg (·.inFlight) h.mem⟩

theorem beside_memo (i : Id) (h : Memo v w) : Beside i v w :=
  ⟨write_of_memo h,
    by rw [h.shared], by rw [h.shared], by rw [h.shared], congrArg Custody.inFlight h.custody⟩

theorem rows_updateOne (i : Id) (f : JobItem → JobItem) (hid : ∀ r, (f r).id = r.id)
    (rows : List JobItem) :
    (Table.update (fun r => decide (r.id = i)) f rows).filter (fun r => decide (r.id ≠ i)) =
      rows.filter (fun r => decide (r.id ≠ i)) := by
  refine Table.filter_update (fun r _ hr => ?_)
  simp [of_decide_eq_true hr, hid]

theorem beside_updateItems (i : Id) {f : JobItem → JobItem}
    (hf : ∀ r, itemOrigin (f r) = itemOrigin r) :
    Always (Beside i) (updateItems (fun r => decide (r.id = i)) f) := by
  refine always_update _ (fun v => ⟨⟨⟨⟨rfl, rfl, rfl, le_refl _⟩, rfl⟩, ?_⟩, ?_, rfl, rfl, rfl⟩)
  · simp only [origins, originsOf, items_origin _ hf]
  · exact rows_updateOne i f (fun r => congrArg ItemOrigin.id (hf r)) _

theorem beside_updateItemsRecord (i : Id) {f : JobItem → JobItem} {e : World → Event}
    (hf : ∀ r, itemOrigin (f r) = itemOrigin r) (hweb : ∀ w, isWeb (e w) = false)
    (hcreation : ∀ w, isCreation (e w) = false) :
    Always (Beside i) (updateItemsRecord (fun r => decide (r.id = i)) f e) := by
  have hwrite := write_updateItemsRecord (fun r => decide (r.id = i)) hf hweb hcreation
  refine always_update _ (fun v => ⟨(hwrite v).1, ?_, rfl, rfl, rfl⟩)
  exact rows_updateOne i f (fun r => congrArg ItemOrigin.id (hf r)) _

theorem beside_updateJobs (i : Id) {p : Job → Bool} {f : Job → Job}
    (hf : ∀ j, jobOrigin (f j) = jobOrigin j)
    (hverdict : ∀ j, p j → (f j).status.terminal = j.status.terminal) :
    Always (Beside i) (updateJobs p f) := by
  have hwrite := write_updateJobs p hf
  refine always_update _ (fun v => ⟨(hwrite v).1, rfl, ?_, rfl, rfl⟩)
  refine Table.map_update (fun j hj => ?_) _
  rw [hverdict j hj, show (f j).id = j.id from congrArg JobOrigin.id (hf j)]

theorem beside_markItemRunning (i : Id) : Always (Beside i) (markItemRunning i) :=
  always_markItemRunning (beside_aside i).tolerant i
    (fun _ => beside_updateItems i (fun _ => rfl))
    (fun _ _ => beside_updateJobs i (fun _ => rfl) (fun j hj => by
      rw [startedJob, (of_decide_eq_true hj).2]
      rfl))

theorem beside_recordAttemptStart (i : Id) (n : Nat) : Always (Beside i) (recordAttemptStart i n) :=
  always_recordAttemptStart (beside_aside i) i n
    (fun _ => beside_updateItemsRecord i (fun _ => rfl) (fun _ => rfl) (fun _ => rfl))

theorem addCounter_status (status : ItemStatus) (now : Ms) (j : Job) :
    (addCounter status now j).status = j.status := by
  cases status <;> rfl

theorem beside_recordOutcome (task : Task) (outcome : SendOutcome) (random : Nat) :
    Always (Beside task.item.id) (recordOutcome task outcome random) := by
  have haside := beside_aside task.item.id
  refine always_recordOutcome haside (fun _ _ h => beside_memo _ h) task outcome random ?_ ?_
  · exact fun _ _ _ => always_scheduleRetry haside.tolerant _ _ _ _
      (fun _ => beside_updateItemsRecord _ (fun _ => rfl) (fun _ => rfl) (fun _ => rfl))
  · exact fun status _ _ _ => always_markItemTerminal haside.tolerant _
      (fun _ => beside_updateItemsRecord _ (fun _ => rfl) (fun _ => rfl) (fun _ => rfl))
      (fun _ now => beside_updateJobs _ (addCounter_origin status now)
        (fun j _ => by rw [addCounter_status]))

theorem item_origin (heq : origins w = origins v) {r : JobItem} (hr : r ∈ w.shared.db.items) :
    ∃ r₀ ∈ v.shared.db.items, itemOrigin r₀ = itemOrigin r := by
  have hitems : w.shared.db.items.map itemOrigin = v.shared.db.items.map itemOrigin :=
    congrArg Origins.items heq
  exact List.mem_map.mp (hitems ▸ List.mem_map_of_mem hr)

theorem mem_beside (h : Beside i v w) {r : JobItem} (hne : r.id ≠ i) :
    r ∈ w.shared.db.items ↔ r ∈ v.shared.db.items := by
  have hrows : ∀ s : Shared, r ∈ rowsBeside i s ↔ r ∈ s.db.items := fun s => by
    simp [rowsBeside, hne]
  rw [← hrows, ← hrows, h.rows]

theorem job_beside (h : Beside i v w) {j' : Job} (hj' : j' ∈ w.shared.db.jobs) :
    ∃ j ∈ v.shared.db.jobs, j.id = j'.id ∧ j.status.terminal = j'.status.terminal := by
  have hmem : (j'.id, j'.status.terminal) ∈ verdicts v.shared := by
    rw [← h.verdicts]
    exact List.mem_map_of_mem hj'
  obtain ⟨j, hj, heq⟩ := List.mem_map.mp hmem
  exact ⟨j, hj, congrArg Prod.fst heq, congrArg Prod.snd heq⟩

def flightJobs (v : World) (id : Id) : Prop := ∃ t ∈ v.mem.inFlight, t.item.jobId = id

theorem row_of_task {s : Server} (h : Kept s) (hup : s.up) :
    ∀ t ∈ s.world.mem.inFlight, ∀ r ∈ s.world.shared.db.items, r.id = t.item.id →
    r.jobId = t.item.jobId := by
  intro t ht r hr hid
  obtain ⟨e, hentry, hgroup, _⟩ := ((h.idle hup).known t ht).2
  rw [← hid, entry_of_mem h.inv.1 hr] at hentry
  cases hentry
  exact hgroup

def settleJob (jobId : Id) (status : JobStatus) (v : World) : World :=
  { v with
    shared.db.jobs := Table.update (fun j => decide (j.id = jobId ∧ j.status ≠ .cancelled))
      (settledJob status v.shared.now) v.shared.db.jobs }

theorem terminal_eq_total {s : Shared} (h : Register (originsOf s)) {j : Job} (hj : j ∈ s.db.jobs) :
    (terminalItemStatuses.map (tally s.db j.id)).sum < j.total ↔
      ∃ r ∈ s.db.items, r.jobId = j.id ∧ r.status.terminal = false := by
  rw [sum_tally, total_eq h hj]
  refine ⟨fun hlt => ?_, ?_⟩
  · by_contra hnone
    refine absurd (List.countP_eq_length.mpr ?_) (Nat.ne_of_lt hlt)
    intro r hr
    obtain ⟨hr, hid⟩ := List.mem_filter.mp hr
    by_contra hopen
    exact hnone ⟨r, hr, of_decide_eq_true hid, by simpa using hopen⟩
  · rintro ⟨r, hr, hid, hopen⟩
    refine Nat.lt_of_le_of_ne List.countP_le_length (fun heq => ?_)
    have := List.countP_eq_length.mp heq r (List.mem_filter.mpr ⟨hr, decide_eq_true hid⟩)
    rw [hopen] at this
    cases this

def itemsInOrder (id : Id) (s : Shared) : List JobItem :=
  (s.db.itemsOf id).insertionSort (fun r r' => r.seq ≤ r'.seq)

theorem wp_getJob {I : World → Prop} {Q : Option JobView → World → Prop} {id : Id} {job : Job}
    (hfind : v.shared.db.job id = some job) (hI : I v)
    (hQ : Q (some ⟨job, itemsInOrder id v.shared⟩) v) :
    Wp Eq (fun _ t => I t) (getJob id) Q v := by
  simp only [getJob, selectJob, selectItemsOf, wp_bind, wp_query, forall_eq', hI, hfind, true_and]
  exact hQ

theorem trace_recordEvent (jobId : Id) (kind : JobEventKind) :
    Always (fun v w : World => w.shared.trace = v.shared.trace) (recordEvent jobId kind) :=
  always_bind (always_query _ (fun _ => rfl)) (fun _ => always_exec (fun _ => rfl))

theorem wp_settleJob {I : World → Prop} {Q : Option JobView → World → Prop} {j : Job}
    (hnodup : (v.shared.db.jobs.map (·.id)).Nodup) (hj : j ∈ v.shared.db.jobs)
    (hopen : j.status.terminal = false) (status : JobStatus) (kind : JobEventKind) (hI : I v)
    (hafter : ∀ w, Aside (settleJob j.id status v) w → w.shared.trace = v.shared.trace →
      I w ∧ Q (some ⟨settledJob status v.shared.now j, itemsInOrder j.id w.shared⟩) w) :
    Wp Eq (fun _ t => I t) (do
      let now ← dateNow
      let _ ← updateJobs (fun j' => decide (j'.id = j.id ∧ j'.status ≠ .cancelled))
          (settledJob status now)
      recordEvent j.id kind
      getJob j.id) Q v := by
  simp only [dateNow, updateJobs, wp_bind, wp_query, wp_update, forall_eq', hI, true_and]
  refine ⟨(hafter _ (aside_refl _) rfl).1, wp_mono (fun _ w hw => ?_)
    (wp_alone (P := fun w => Aside (settleJob j.id status v) w ∧ w.shared.trace = v.shared.trace)
      (always_and (always_recordEvent (fun _ _ h => h) j.id _) (trace_recordEvent j.id _))
      (fun a b ha hab => ?_) ⟨aside_refl _, rfl⟩)⟩
  · obtain ⟨hw, htrace⟩ := hw
    obtain ⟨hI', hQ⟩ := hafter w hw htrace
    refine wp_getJob ?_ hI' hQ
    have hjobs : w.shared.db.jobs = (settleJob j.id status v).shared.db.jobs := hw.jobs
    have hne : j.status ≠ .cancelled := by
      intro hcancelled
      rw [hcancelled] at hopen
      cases hopen
    rw [Db.job, hjobs, settleJob, Table.find_update (by exact fun _ _ => rfl),
      Table.find_eq_some hnodup hj]
    simp [hne]
  · have haside := aside_trans ha.1 hab.1
    have htrace := hab.2.trans ha.2
    exact ⟨(hafter b haside htrace).1, haside, htrace⟩

theorem wp_checkJobCompletion {I : World → Prop} {Q : Option JobView → World → Prop} {jobId : Id}
    (hregister : Register (originsOf v.shared)) (hI : I v)
    (hnone : (∀ j ∈ v.shared.db.jobs, j.id = jobId → j.status.terminal = false →
      ∃ r ∈ v.shared.db.items, r.jobId = j.id ∧ r.status.terminal = false) → Q none v)
    (hsome : ∀ j ∈ v.shared.db.jobs, j.id = jobId → j.status.terminal = false →
      (∀ r ∈ v.shared.db.items, r.jobId = j.id → r.status.terminal = true) →
      let status := finalStatus (tally v.shared.db jobId .succeeded) j.total
      status.terminal = true → ∀ w, Aside (settleJob jobId status v) w →
        w.shared.trace = v.shared.trace →
        I w ∧ Q (some ⟨settledJob status v.shared.now j, itemsInOrder j.id w.shared⟩) w) :
    Wp Eq (fun _ t => I t) (checkJobCompletion jobId) Q v := by
  simp only [checkJobCompletion, selectJob, wp_bind, wp_query, forall_eq', hI, true_and]
  cases hfind : v.shared.db.job jobId with
  | none =>
    refine hnone (fun j hj hid => ?_)
    exact absurd hid (Table.find_none.mp hfind j hj)
  | some j =>
    obtain ⟨hj, rfl⟩ := Table.find_mem hfind
    have hnodup := jobs_nodup hregister
    have hone : ∀ j' ∈ v.shared.db.jobs, j'.id = j.id → j' = j :=
      fun j' hj' hid => Table.eq_of_key hnodup hj' hj hid
    simp only
    split
    case isTrue hterminal =>
      refine hnone (fun j' hj' hid hopen => ?_)
      rw [hone j' hj' hid, hterminal] at hopen
      cases hopen
    case isFalse hopen =>
      simp only [selectCounts, wp_bind, wp_query, forall_eq', hI, true_and]
      split
      case isTrue hlt =>
        refine hnone (fun j' hj' hid _ => ?_)
        rw [hid]
        exact (terminal_eq_total hregister hj).mp hlt
      case isFalse hge =>
        have hall : ∀ r ∈ v.shared.db.items, r.jobId = j.id → r.status.terminal = true := by
          intro r hr hid
          by_contra hne
          exact hge ((terminal_eq_total hregister hj).mpr ⟨r, hr, hid, by simpa using hne⟩)
        exact wp_settleJob hnodup hj (by simpa using hopen) _ _ hI
          (hsome j hj rfl (by simpa using hopen) hall (finalStatus_terminal _ _))

theorem wp_settle_finish {I : World → Prop} {Q : Shared → Prop} {jobId i : Id}
    (hfull : ∀ t : World, Q t.shared → I t) (hregister : Register (originsOf v.shared)) (hI : I v)
    (hopen : (∀ j ∈ v.shared.db.jobs, j.id = jobId → j.status.terminal = false →
      ∃ r ∈ v.shared.db.items, r.jobId = j.id ∧ r.status.terminal = false) → Q v.shared)
    (hsettled : ∀ j ∈ v.shared.db.jobs, j.id = jobId → j.status.terminal = false →
      (∀ r ∈ v.shared.db.items, r.jobId = j.id → r.status.terminal = true) →
      let status := finalStatus (tally v.shared.db jobId .succeeded) j.total
      status.terminal = true → ∀ w, Aside (settleJob jobId status v) w →
        I w ∧ Wp Eq (fun _ t => I t) (Scheduler.onJobSettled
          ⟨settledJob status v.shared.now j, itemsInOrder j.id w.shared⟩)
          (fun _ t => Q t.shared) w) :
    Wp Eq (fun _ t => I t) (do settle jobId; finish i) (fun _ t => Q t.shared) v := by
  have hfinish : ∀ t : World, Q t.shared →
      Wp Eq (fun _ t => I t) (finish i) (fun _ t => Q t.shared) t := by
    rintro t ht _ rfl
    exact ⟨hfull _ ht, ht⟩
  refine (wp_bind ..).mpr ((wp_bind ..).mpr (wp_checkJobCompletion hregister hI ?_ ?_))
  · exact fun hnone => hfinish v (hopen hnone)
  · intro j hj hid hnot hitems status hterminal w hw _
    obtain ⟨hIw, htold⟩ := hsettled j hj hid hnot hitems hterminal w hw
    exact ⟨hIw, wp_mono (fun _ t ht => hfinish t ht) htold⟩

theorem ends_scheduleRetry (i : Id) (nextAttemptAt : Ms) (category : Category)
    (detail : Option String) :
    Ends (scheduleRetry i nextAttemptAt category detail)
      (fun _ u => ∀ r ∈ u.shared.db.items, r.id = i → r.status = .queued) v := by
  simp only [Ends, scheduleRetry, dateNow, updateItemsRecord, wp_bind, wp_query, wp_update,
    wp_pure, forall_eq', true_and]
  intro r hr hid
  obtain ⟨r₀, _, rfl⟩ := Table.mem_update.mp hr
  by_cases hitem : r₀.id = i
  · simp [hitem, retriedItem]
  · simp [hitem] at hid

theorem ends_markItemTerminal (i : Id) {status : ItemStatus} (hstatus : status.terminal = true)
    (category : Option Category) (detail : Option String) :
    Ends (markItemTerminal i status category detail)
      (fun _ u => ∀ r ∈ u.shared.db.items, r.id = i → r.status = status) v := by
  simp only [Ends, markItemTerminal, dateNow, selectItem, wp_bind, wp_query, forall_eq', true_and]
  cases hfind : v.shared.db.item i with
  | none => exact fun r hr hid => absurd hid (Table.find_none.mp hfind r hr)
  | some row =>
    simp only [updateItemsRecord, updateJobs, hstatus, ↓reduceIte, wp_bind, wp_update,
      wp_pure, forall_eq', true_and]
    intro r hr hid
    obtain ⟨r₀, _, rfl⟩ := Table.mem_update.mp hr
    by_cases hitem : r₀.id = i
    · simp [hitem, terminalItem]
    · simp [hitem] at hid

theorem ends_recordOutcome (task : Task) (outcome : SendOutcome) (random : Nat) :
    Ends (recordOutcome task outcome random) (fun _ u => ∀ r ∈ u.shared.db.items,
      r.id = task.item.id → r.status.terminal = true ∨ r.status = .queued ∧
      (classify outcome).2.1 ≠ none) v := by
  have hterminal : ∀ status category detail (u : World), status.terminal = true →
      Ends (markItemTerminal task.item.id status category detail)
        (fun _ u => ∀ r ∈ u.shared.db.items, r.id = task.item.id → r.status.terminal = true) u := by
    intro status category detail u hstatus
    refine wp_mono (fun _ t ht r hr hid => ?_)
      (ends_markItemTerminal task.item.id hstatus category detail)
    rw [ht r hr hid]
    exact hstatus
  simp only [recordOutcome]
  generalize classify outcome = result
  obtain ⟨status, category, detail⟩ := result
  refine wp_seq (Q := fun _ _ => True) (ends_iff.mpr trivial) (fun _ u _ => ?_)
  cases category with
  | none =>
    refine wp_seq (Q := fun _ _ => True) (ends_iff.mpr trivial) (fun _ u _ => ?_)
    exact wp_mono (fun _ t ht r hr hid => Or.inl (ht r hr hid)) (hterminal _ _ _ u rfl)
  | some category =>
    refine wp_seq (Q := fun _ _ => True) (ends_iff.mpr trivial) (fun _ u _ => ?_)
    split
    · refine wp_seq (Q := fun _ _ => True) (ends_iff.mpr trivial) (fun now u _ => ?_)
      exact wp_mono (fun _ t ht r hr hid => Or.inr ⟨ht r hr hid, by simp⟩)
        (ends_scheduleRetry _ _ _ _)
    · exact wp_mono (fun _ t ht r hr hid => Or.inl (ht r hr hid))
        (hterminal _ _ _ u (failureStatus_terminal category))

end WhatsappTester.Jobs.Settling
