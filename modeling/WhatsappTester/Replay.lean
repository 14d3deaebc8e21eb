import WhatsappTester.Statements

namespace WhatsappTester.Replay

open Schema State Atomic.Program Atomic.Runs Statements Jobs KillSwitch Routes Process

/-- The events from which one can tell what became of a request with a key. -/
def isKeyed : Event → Bool
  | .arrived .. | .sendStarted .. | .stored .. => true
  | _ => false

def isStartOf (id : Id) : Event → Bool
  | .sendStarted request .. => decide (request = id)
  | _ => false

def started (id : Id) (t : List Event) : Bool := t.any (isStartOf id)

/-- A request that has begun to send, or still may. -/
def Active (id : Id) (v : World) : Prop :=
  started id v.shared.trace ∨ ∃ h ∈ v.mem.handlers, h.request = id

/-- No other request with the key of a request is active within the lifetime of a stored answer. -/
def Sole (id : Id) (v : World) : Prop :=
  ∀ key t, .arrived id key t ∈ v.shared.trace → ∀ id' t', id' ≠ id → Active id' v →
    .arrived id' key t' ∈ v.shared.trace → ¬ (t < t' + ttlMs ∧ t' < t + ttlMs)

def Filed (h : Handler) (t : List Event) : Prop :=
  ∀ key arrivedAt, h.cache = some (key, arrivedAt) ↔ .arrived h.request key arrivedAt ∈ t

structure Ordered (v : World) : Prop where
  arrived : ∀ id key t, .arrived id key t ∈ v.shared.trace → id < v.shared.uuid ∧ t ≤ v.shared.now
  once : ∀ id key t key' t', .arrived id key t ∈ v.shared.trace →
    .arrived id key' t' ∈ v.shared.trace → key = key' ∧ t = t'
  active : ∀ id, Active id v → id < v.shared.uuid
  filed : ∀ h ∈ v.mem.handlers, Filed h v.shared.trace
  sole : ∀ id, Active id v → Sole id v
  answered : ∀ id, .stored id ∈ v.shared.trace → id < v.shared.uuid
  kept : ∀ id key t, .stored id ∈ v.shared.trace → .arrived id key t ∈ v.shared.trace →
    t + ttlMs < v.shared.now ∨ ∃ row ∈ v.shared.db.idempotencyKeys, row.key = key ∧
    row.expiresAt = t + ttlMs

structure Calm (v v' : World) : Prop where
  now : v'.shared.now = v.shared.now
  uuid : v.shared.uuid ≤ v'.shared.uuid
  events : v'.shared.trace.filter isKeyed = v.shared.trace.filter isKeyed
  keys : v'.shared.db.idempotencyKeys = v.shared.db.idempotencyKeys
  handlers : v'.mem.handlers ⊆ v.mem.handlers

structure Running (h : Handler) (v : World) : Prop where
  fresh : h.request < v.shared.uuid
  filed : Filed h v.shared.trace
  sole : Sole h.request v

variable {v v' : World} {h : Handler}

section Calm

theorem calm_refl (v : World) : Calm v v := ⟨rfl, le_refl _, rfl, rfl, List.Subset.refl _⟩

theorem mem_calm (hc : Calm v v') {e : Event} (he : isKeyed e = true) :
    e ∈ v'.shared.trace ↔ e ∈ v.shared.trace := by
  have hmem : ∀ t : List Event, e ∈ t ↔ e ∈ t.filter isKeyed := fun t => by simp [he]
  rw [hmem, hc.events, ← hmem]

theorem started_iff {id : Id} {t : List Event} :
    started id t ↔ ∃ recipient message, .sendStarted id recipient message ∈ t := by
  simp only [started, List.any_eq_true]
  constructor
  · rintro ⟨e, he, hid⟩
    cases e with
    | sendStarted request recipient message =>
      rw [isStartOf, decide_eq_true_eq] at hid
      subst hid
      exact ⟨recipient, message, he⟩
    | _ => cases hid
  · rintro ⟨recipient, message, he⟩
    exact ⟨_, he, decide_eq_true rfl⟩

theorem active_calm (hc : Calm v v') {id : Id} (ha : Active id v') : Active id v := by
  refine ha.imp (fun hstarted => ?_) (fun ⟨h, hh, hid⟩ => ⟨h, hc.handlers hh, hid⟩)
  obtain ⟨recipient, message, he⟩ := started_iff.mp hstarted
  exact started_iff.mpr ⟨recipient, message, (mem_calm hc rfl).mp he⟩

theorem sole_calm (hc : Calm v v') {id : Id} (hs : Sole id v) : Sole id v' := by
  intro key t ht id' t' hne ha ht'
  exact hs key t ((mem_calm hc rfl).mp ht) id' t' hne (active_calm hc ha) ((mem_calm hc rfl).mp ht')

theorem filed_calm (hc : Calm v v') (hf : Filed h v.shared.trace) : Filed h v'.shared.trace :=
  fun key arrivedAt => (hf key arrivedAt).trans (mem_calm hc rfl).symm

theorem running_calm (hc : Calm v v') (hr : Running h v) : Running h v' :=
  ⟨Nat.lt_of_lt_of_le hr.fresh hc.uuid, filed_calm hc hr.filed, sole_calm hc hr.sole⟩

theorem ordered_calm (hc : Calm v v') (ho : Ordered v) : Ordered v' := by
  refine ⟨?_, ?_, ?_, ?_, ?_, ?_, ?_⟩
  · intro id key t ht
    obtain ⟨hid, hnow⟩ := ho.arrived id key t ((mem_calm hc rfl).mp ht)
    exact ⟨Nat.lt_of_lt_of_le hid hc.uuid, hc.now ▸ hnow⟩
  · intro id key t key' t' ht ht'
    exact ho.once id key t key' t' ((mem_calm hc rfl).mp ht) ((mem_calm hc rfl).mp ht')
  · exact fun id ha => Nat.lt_of_lt_of_le (ho.active id (active_calm hc ha)) hc.uuid
  · exact fun h hh => filed_calm hc (ho.filed h (hc.handlers hh))
  · exact fun id ha => sole_calm hc (ho.sole id (active_calm hc ha))
  · exact fun id hid => Nat.lt_of_lt_of_le (ho.answered id ((mem_calm hc rfl).mp hid)) hc.uuid
  · intro id key t hid ht
    rw [hc.now, hc.keys]
    exact ho.kept id key t ((mem_calm hc rfl).mp hid) ((mem_calm hc rfl).mp ht)

theorem calm_back (hb : Back v v') : Calm v v' := by
  have hevents : v'.shared.trace.filter isWeb = v.shared.trace.filter isWeb :=
    congrArg WebSide.events hb.webSide
  have hkeyed : ∀ t : List Event, t.filter isKeyed = (t.filter isWeb).filter isKeyed := by
    intro t
    rw [List.filter_filter]
    refine List.filter_congr (fun e _ => ?_)
    cases e <;> rfl
  refine ⟨hb.now, hb.uuid,
    by rw [hkeyed, hevents, ← hkeyed], congrArg WebSide.idempotencyKeys hb.webSide, ?_⟩
  rw [show v'.mem.handlers = v.mem.handlers from congrArg WebSide.handlers hb.webSide]
  exact List.Subset.refl _

theorem calm_record {e : World → Event} (he : ∀ w, isKeyed (e w) = false) :
    Always Calm (record e) :=
  always_exec (fun _ => ⟨rfl, le_refl _, by simp [he], rfl, List.Subset.refl _⟩)

theorem calm_recordAudit (row : Ms → AuditRow) : Always Calm (recordAudit row) :=
  always_bind (always_query _ calm_refl)
    (fun _ => always_exec (fun _ => ⟨rfl, le_refl _, rfl, rfl, List.Subset.refl _⟩))

theorem calm_setOutboundDisabled (disabled : Bool) (actor reason : Option String) :
    Always Calm (setOutboundDisabled disabled actor reason none) := by
  refine always_bind (always_query _ calm_refl)
    (fun _ => always_bind (always_exec (fun w => ?_)) (fun _ => ?_))
  · cases disabled <;> exact ⟨rfl, le_refl _, rfl, rfl, List.Subset.refl _⟩
  · refine always_bind (always_exec (fun w => ⟨rfl, le_refl _, rfl, rfl, List.Subset.refl _⟩))
      (fun _ => ?_)
    refine always_bind (calm_recordAudit _) (fun _ => ?_)
    split
    · exact calm_record (fun _ => rfl)
    · exact always_pure ()

end Calm

abbrev Keeps (p : Code Unit) (v : World) : Prop :=
  Wp Eq (fun _ t => Ordered t) p (fun _ t => Ordered t) v

theorem keeps_calm {p : Code Unit} (hp : Always Calm p) (ho : Ordered v) : Keeps p v :=
  wp_alone hp (fun _ _ ha hab => ⟨ordered_calm hab ha, ordered_calm hab ha⟩) ho

theorem keeps_ahead {p q : Code Unit} (hp : Always Calm p) (ho : Ordered v) (hr : Running h v)
    (hq : ∀ u, Ordered u → Running h u → Keeps q u) : Keeps (do p; q) v := by
  refine wp_seq (Q := fun _ u => Ordered u ∧ Running h u) ?_ (fun _ u hu => hq u hu.1 hu.2)
  refine wp_alone hp (fun a b ha hab => ?_) ⟨ho, hr⟩
  exact ⟨ordered_calm hab ha.1, ordered_calm hab ha.1, running_calm hab ha.2⟩

theorem keeps_query {α : Type} {f : World → α} {k : α → Code Unit} (ho : Ordered v)
    (hk : Keeps (k (f v)) v) :
    Keeps (query f >>= k) v := by
  refine (wp_bind ..).mpr ?_
  rintro _ rfl
  exact ⟨ho, hk⟩

section Respond

theorem ordered_stored {key : String} {arrivedAt : Ms} (hcache : h.cache = some (key, arrivedAt))
    (ho : Ordered v) (hr : Running h v) (row : IdempotencyRow) (hkey : row.key = key)
    (hexpires : row.expiresAt = arrivedAt + ttlMs) :
    Ordered { v with
      shared.db.idempotencyKeys := v.shared.db.idempotencyKeys ++ [row]
      shared.trace := .stored h.request :: v.shared.trace } := by
  have hactive : ∀ id, Active id { v with
      shared.db.idempotencyKeys := v.shared.db.idempotencyKeys ++ [row]
      shared.trace := .stored h.request :: v.shared.trace } → Active id v := by
    refine fun id ha => ha.imp (fun hstarted => ?_) (fun hhandler => hhandler)
    simpa [started, isStartOf] using hstarted
  have harrived : ∀ {id k t}, Event.arrived id k t ∈ Event.stored h.request :: v.shared.trace →
      Event.arrived id k t ∈ v.shared.trace := fun ht => by simpa using ht
  refine ⟨?_, ?_, ?_, ?_, ?_, ?_, ?_⟩
  · exact fun id k t ht => ho.arrived id k t (harrived ht)
  · exact fun id k t k' t' ht ht' => ho.once id k t k' t' (harrived ht) (harrived ht')
  · exact fun id ha => ho.active id (hactive id ha)
  · exact fun x hx k t => (ho.filed x hx k t).trans (by simp)
  · exact fun id ha k t ht id' t' hne ha' ht' =>
      ho.sole id (hactive id ha) k t (harrived ht) id' t' hne (hactive id' ha') (harrived ht')
  · intro id hid
    obtain heq | hid := List.mem_cons.mp hid
    · cases heq
      exact hr.fresh
    · exact ho.answered id hid
  · intro id k t hid ht
    obtain heq | hid := List.mem_cons.mp hid
    · cases heq
      have hsame := hcache.symm.trans ((hr.filed k t).mpr (harrived ht))
      cases hsame
      exact Or.inr ⟨row, List.mem_append_right _ List.mem_cons_self, hkey, hexpires⟩
    · refine (ho.kept id k t hid (harrived ht)).imp (fun hold => hold)
        (fun ⟨row', hrow', rest⟩ => ?_)
      exact ⟨row', List.mem_append_left _ hrow', rest⟩

theorem keeps_respond (status : Nat) (response : Response) (ho : Ordered v) (hr : Running h v) :
    Keeps (respond h status response) v := by
  have hanswer : Always Calm (do
      record (fun _ => .answered h.request status)
      updateMemory (fun m =>
        { m with handlers := m.handlers.filter (fun x => decide (x.request ≠ h.request)) })) :=
    always_bind (calm_record (fun _ => rfl))
      (fun _ => always_exec (fun _ => ⟨rfl, le_refl _, rfl, rfl, List.filter_subset_self _⟩))
  simp only [respond]
  split
  case h_1 key arrivedAt hcache =>
    split
    · refine (wp_bind ..).mpr ?_
      rintro _ rfl
      have hstored : Ordered ((fun w : World =>
          if w.shared.db.idempotencyKeys.any (fun row => decide (row.key = key)) then w
          else
            { w with
              shared.db.idempotencyKeys := w.shared.db.idempotencyKeys ++
                [⟨key, (routeName h.route).getD "", response, arrivedAt, arrivedAt + ttlMs⟩]
              shared.trace := .stored h.request :: w.shared.trace }) v) := by
        simp only
        split
        · exact ho
        · exact ordered_stored hcache ho hr _ rfl rfl
      exact ⟨hstored, keeps_calm hanswer hstored⟩
    · exact keeps_calm hanswer ho
  · exact keeps_calm hanswer ho

end Respond

section Proceed

theorem ordered_started (recipient label message : String) (ho : Ordered v) (hr : Running h v) :
    Ordered { v with
      shared.trace := .sendStarted h.request recipient message :: v.shared.trace
      mem.handlers := v.mem.handlers.filter (fun x => decide (x.request ≠ h.request)) ++
        [{ h with current := some (recipient, label) }] } := by
  have hactive : ∀ id, Active id { v with
      shared.trace := .sendStarted h.request recipient message :: v.shared.trace
      mem.handlers := v.mem.handlers.filter (fun x => decide (x.request ≠ h.request)) ++
        [{ h with current := some (recipient, label) }] } → id = h.request ∨ Active id v := by
    rintro id (hstarted | ⟨x, hx, hid⟩)
    · simp only [started, List.any_cons, Bool.or_eq_true, isStartOf, decide_eq_true_eq] at hstarted
      exact hstarted.imp Eq.symm Or.inl
    · obtain hx | hx := List.mem_append.mp hx
      · exact Or.inr (Or.inr ⟨x, (List.mem_filter.mp hx).1, hid⟩)
      · rw [List.mem_singleton.mp hx] at hid
        exact Or.inl hid.symm
  have harrived : ∀ {id k t}, Event.arrived id k t ∈
      Event.sendStarted h.request recipient message :: v.shared.trace →
      Event.arrived id k t ∈ v.shared.trace := fun ht => by simpa using ht
  have hstored : ∀ {id}, Event.stored id ∈ Event.sendStarted h.request recipient message ::
      v.shared.trace → Event.stored id ∈ v.shared.trace := fun hid => by simpa using hid
  refine ⟨?_, ?_, ?_, ?_, ?_, ?_, ?_⟩
  · exact fun id k t ht => ho.arrived id k t (harrived ht)
  · exact fun id k t k' t' ht ht' => ho.once id k t k' t' (harrived ht) (harrived ht')
  · intro id ha
    obtain rfl | ha := hactive id ha
    · exact hr.fresh
    · exact ho.active id ha
  · intro x hx k t
    have hmem : Event.arrived x.request k t ∈ Event.sendStarted h.request recipient message ::
        v.shared.trace ↔ Event.arrived x.request k t ∈ v.shared.trace := by simp
    rw [hmem]
    obtain hx | hx := List.mem_append.mp hx
    · exact ho.filed x (List.mem_filter.mp hx).1 k t
    · rw [List.mem_singleton.mp hx]
      exact hr.filed k t
  · intro id ha k t ht id' t' hne ha' ht'
    obtain rfl | ha := hactive id ha
    · obtain heq | ha' := hactive id' ha'
      · exact absurd heq hne
      · exact hr.sole k t (harrived ht) id' t' hne ha' (harrived ht')
    · obtain rfl | ha' := hactive id' ha'
      · exact fun hnear => hr.sole k t' (harrived ht') id t (Ne.symm hne) ha
          (harrived ht) hnear.symm
      · exact ho.sole id ha k t (harrived ht) id' t' hne ha' (harrived ht')
  · exact fun id hid => ho.answered id (hstored hid)
  · exact fun id k t hid ht => ho.kept id k t (hstored hid) (harrived ht)

theorem running_same {h' : Handler} (hr : Running h v) (hrequest : h'.request = h.request)
    (hcache : h'.cache = h.cache) : Running h' v :=
  ⟨hrequest ▸ hr.fresh, fun k t => by rw [hrequest, hcache]; exact hr.filed k t, hrequest ▸ hr.sole⟩

theorem keeps_proceed (ready : Bool) (todo : List Todo) (ho : Ordered v) (hr : Running h v) :
    Keeps (proceed ready h todo) v := by
  induction todo generalizing h with
  | nil =>
    have hrunning : Running { h with todo := [] } v := running_same hr rfl rfl
    refine keeps_ahead (calm_recordAudit _) ho hrunning ?_
    exact fun u hu hr' => keeps_respond _ _ hu hr'
  | cons x rest ih =>
    cases x with
    | skip result => exact ih (running_same hr rfl rfl)
    | send recipient label message =>
      simp only [proceed]
      split
      · exact keeps_respond _ _ ho hr
      · have hrunning : Running { h with todo := rest } v := running_same hr rfl rfl
        have hstarted := ordered_started recipient label message ho hrunning
        rintro _ rfl
        exact ⟨hstarted, hstarted⟩

end Proceed

section Handlers

theorem running_handler (ho : Ordered v) (hh : h ∈ v.mem.handlers) : Running h v :=
  have hactive : Active h.request v := Or.inr ⟨h, hh, rfl⟩
  ⟨ho.active _ hactive, ho.filed h hh, ho.sole _ hactive⟩

theorem keeps_selectHandler {id : Id} {k : Option Handler → Code Unit} (ho : Ordered v)
    (hnone : Keeps (k none) v)
    (hsome : ∀ h, h ∈ v.mem.handlers → Running h v → Keeps (k (some h)) v) :
    Keeps (selectHandler id >>= k) v := by
  refine keeps_query ho ?_
  cases hfind : v.mem.handlers.find? (fun h => decide (h.request = id)) with
  | none => exact hnone
  | some h =>
    have hmem := List.mem_of_find?_eq_some hfind
    exact hsome h hmem (running_handler ho hmem)

theorem ordered_save (h' : Handler) (hh : h ∈ v.mem.handlers) (hrequest : h'.request = h.request)
    (hcache : h'.cache = h.cache) (ho : Ordered v) :
    Ordered { v with
      mem.handlers :=
        v.mem.handlers.filter (fun x => decide (x.request ≠ h'.request)) ++ [h'] } := by
  have hactive : ∀ id, Active id { v with
      mem.handlers := v.mem.handlers.filter (fun x => decide (x.request ≠ h'.request)) ++ [h'] } →
      Active id v := by
    refine fun id ha => ha.imp (fun hstarted => hstarted) (fun ⟨x, hx, hid⟩ => ?_)
    obtain hx | hx := List.mem_append.mp hx
    · exact ⟨x, (List.mem_filter.mp hx).1, hid⟩
    · rw [List.mem_singleton.mp hx] at hid
      exact ⟨h, hh, hrequest.symm.trans hid⟩
  refine ⟨ho.arrived, ho.once, fun id ha => ho.active id (hactive id ha), fun x hx => ?_, ?_,
    ho.answered, ho.kept⟩
  · obtain hx | hx := List.mem_append.mp hx
    · exact ho.filed x (List.mem_filter.mp hx).1
    · rw [List.mem_singleton.mp hx]
      exact (running_same (running_handler ho hh) hrequest hcache).filed
  · exact fun id ha k t ht id' t' hne ha' ht' =>
      ho.sole id (hactive id ha) k t ht id' t' hne (hactive id' ha') ht'

theorem keeps_chatAnswered (chatId : String) (answer : Answer) (ho : Ordered v) (hr : Running h v) :
    Keeps (chatAnswered h chatId answer) v := by
  have hrespond : ∀ status response u, Ordered u → Running h u →
      Keeps (respond h status response) u :=
    fun _ _ _ hu hr' => keeps_respond _ _ hu hr'
  cases answer with
  | result status detail => exact keeps_ahead (calm_recordAudit _) ho hr (hrespond _ _)
  | threw err =>
    simp only [chatAnswered]
    split
    · exact keeps_respond _ _ ho hr
    · exact keeps_ahead (calm_recordAudit _) ho hr (hrespond _ _)

theorem keeps_answered (id : Id) (answer : Answer) (ready : Bool) (ho : Ordered v) :
    Keeps (answered id answer ready) v := by
  refine keeps_selectHandler ho ho (fun h hh hr => ?_)
  simp only
  split
  · exact ho
  · split
    · exact keeps_chatAnswered _ _ ho hr
    · split
      · rintro _ rfl
        have hsaved := fun h' hrequest hcache => ordered_save h' hh hrequest hcache ho
        exact ⟨hsaved _ rfl rfl, hsaved _ rfl rfl⟩
      · exact keeps_proceed ready _ ho (running_same hr rfl rfl)

theorem keeps_delayOver (id : Id) (ready : Bool) (ho : Ordered v) :
    Keeps (delayOver id ready) v := by
  refine keeps_selectHandler ho ho (fun h hh hr => ?_)
  simp only
  split
  · exact keeps_proceed ready _ ho hr
  · exact ho

end Handlers

section Request

def requestKey (r : Request) : Option String :=
  match routeName r.body.route, r.idempotencyKey.filter (· ≠ "") with
  | some name, some key => some (name ++ ":" ++ key)
  | _, _ => none

/-- No handler with the key is at work, and whoever else with the key began to send within the
lifetime of a stored answer has stored its answer. -/
def Apart (key : String) (v : World) : Prop :=
  (∀ h ∈ v.mem.handlers, h.cache.map Prod.fst ≠ some key) ∧
    ∀ e ∈ v.shared.trace, match e with
      | .arrived id k t => k = key → v.shared.now < t + ttlMs → started id v.shared.trace →
        .stored id ∈ v.shared.trace
      | _ => True

theorem ordered_arrived {id : Id} (key : String) (ho : Ordered v) (hid : id = v.shared.uuid) :
    Ordered { v with
      shared.uuid := v.shared.uuid + 1
      shared.trace := .arrived id key v.shared.now :: v.shared.trace } := by
  have hactive : ∀ id', Active id' { v with
      shared.uuid := v.shared.uuid + 1
      shared.trace := .arrived id key v.shared.now :: v.shared.trace } → Active id' v := by
    refine fun id' ha => ha.imp (fun hstarted => ?_) (fun hhandler => hhandler)
    simpa [started, isStartOf] using hstarted
  have harrived : ∀ {id' k t}, Event.arrived id' k t ∈ Event.arrived id key v.shared.now ::
      v.shared.trace → id' < v.shared.uuid → Event.arrived id' k t ∈ v.shared.trace := by
    intro id' k t ht hlt
    obtain heq | ht := List.mem_cons.mp ht
    · cases heq
      exact absurd (hid ▸ hlt) (Nat.lt_irrefl _)
    · exact ht
  refine ⟨?_, ?_, ?_, ?_, ?_, ?_, ?_⟩
  · intro id' k t ht
    obtain heq | ht := List.mem_cons.mp ht
    · cases heq
      exact ⟨hid ▸ Nat.lt_succ_self _, le_refl _⟩
    · exact (ho.arrived id' k t ht).imp Nat.lt_succ_of_lt (fun hnow => hnow)
  · intro id' k t k' t' ht ht'
    obtain heq | hold := List.mem_cons.mp ht
    · obtain heq' | hold' := List.mem_cons.mp ht'
      · cases heq
        cases heq'
        exact ⟨rfl, rfl⟩
      · cases heq
        exact absurd (ho.arrived _ _ _ hold').1 (by simp [hid])
    · exact ho.once id' k t k' t' hold (harrived ht' (ho.arrived _ _ _ hold).1)
  · exact fun id' ha => Nat.lt_succ_of_lt (ho.active id' (hactive id' ha))
  · intro x hx k t
    have hlt := ho.active x.request (Or.inr ⟨x, hx, rfl⟩)
    exact (ho.filed x hx k t).trans ⟨List.mem_cons_of_mem _, fun ht => harrived ht hlt⟩
  · intro id₁ ha k t ht id₂ t' hne ha' ht'
    have hold := ho.active id₁ (hactive id₁ ha)
    have hold' := ho.active id₂ (hactive id₂ ha')
    exact ho.sole id₁ (hactive id₁ ha) k t (harrived ht hold) id₂ t' hne (hactive id₂ ha')
      (harrived ht' hold')
  · intro id' hstored
    exact Nat.lt_succ_of_lt (ho.answered id' (by simpa using hstored))
  · intro id' k t hstored ht
    have hstored' : Event.stored id' ∈ v.shared.trace := by simpa using hstored
    exact ho.kept id' k t hstored' (harrived ht (ho.answered id' hstored'))

theorem sole_arrived {id : Id} {key : String} (ho : Ordered v) (hid : id = v.shared.uuid)
    (hapart : Apart key v) (hcached : v.shared.db.idempotencyKeys.find?
      (fun row => decide (row.key = key ∧ row.expiresAt > v.shared.now)) = none) :
    Sole id { v with
      shared.uuid := v.shared.uuid + 1
      shared.trace := .arrived id key v.shared.now :: v.shared.trace } := by
  have hfresh : ∀ {k t}, Event.arrived id k t ∉ v.shared.trace :=
    fun ht => absurd (ho.arrived _ _ _ ht).1 (by simp [hid])
  rintro k t ht id' t' hne ha ht' ⟨_, hnear⟩
  obtain heq | ht := List.mem_cons.mp ht
  case inr => exact hfresh ht
  cases heq
  obtain heq | ht' := List.mem_cons.mp ht'
  · cases heq
    exact hne rfl
  have ha' : Active id' v := by
    refine ha.imp (fun hstarted => ?_) (fun hhandler => hhandler)
    simpa [started, isStartOf] using hstarted
  obtain hstarted | ⟨h, hh, rfl⟩ := ha'
  · have hstored := hapart.2 _ ht' rfl ‹_› hstarted
    obtain hgone | ⟨row, hrow, hkey, hexpires⟩ := ho.kept id' key t' hstored ht'
    · exact absurd hgone (not_lt.mpr (le_of_lt ‹_›))
    · refine List.find?_eq_none.mp hcached row hrow (decide_eq_true ⟨hkey, ?_⟩)
      rw [hexpires]
      assumption
  · refine hapart.1 h hh ?_
    rw [(ho.filed h hh key t').mpr ht']
    rfl

theorem keeps_validateAndHandle (ready : Bool) (r : Request) (ho : Ordered v) (hr : Running h v) :
    Keeps (validateAndHandle ready r h) v := by
  simp only [validateAndHandle, handle]
  split
  · split
    · exact keeps_respond _ _ ho hr
    · exact keeps_proceed ready _ ho hr
  · exact keeps_respond _ _ ho hr

theorem keeps_request (r : Request) (ready : Bool) (ho : Ordered v)
    (hapart : ∀ key, requestKey r = some key → outboundDisabled v.shared.db = false → Apart key v) :
    Keeps (request r ready) v := by
  have hdrawn : Calm v { v with shared.uuid := v.shared.uuid + 1 } :=
    ⟨rfl, Nat.le_succ _, rfl, rfl, List.Subset.refl _⟩
  have ho' := ordered_calm hdrawn ho
  refine (wp_bind ..).mpr ?_
  rintro _ rfl
  refine ⟨ho', keeps_query ho' ?_⟩
  split
  case isTrue => exact keeps_calm (calm_record (fun _ => rfl)) ho'
  case isFalse henabled =>
    have henabled' : outboundDisabled v.shared.db = false := by simpa using henabled
    simp only [idempotent]
    split
    case h_1 name key hname hkey =>
      have hsome : requestKey r = some (name ++ ":" ++ key) := by rw [requestKey, hname, hkey]
      have harrived := ordered_arrived (name ++ ":" ++ key) ho rfl
      refine keeps_query ho' ((wp_bind ..).mpr ?_)
      rintro _ rfl
      refine ⟨harrived, keeps_query harrived ?_⟩
      split
      · exact keeps_calm (calm_record (fun _ => rfl)) harrived
      case h_2 hcached =>
        refine keeps_validateAndHandle ready r harrived ⟨Nat.lt_succ_self _, fun k t => ?_, ?_⟩
        · refine ⟨fun hcache => ?_, fun ht => ?_⟩
          · cases hcache
            exact List.mem_cons_self
          · obtain heq | hold := List.mem_cons.mp ht
            · cases heq
              rfl
            · exact absurd (ho.arrived _ _ _ hold).1 (Nat.lt_irrefl _)
        · exact sole_arrived (v := v) ho rfl (hapart _ hsome henabled') hcached
    case h_2 =>
      have hfresh : ∀ {k t}, Event.arrived v.shared.uuid k t ∉ v.shared.trace :=
        fun ht => absurd (ho.arrived _ _ _ ht).1 (Nat.lt_irrefl _)
      refine keeps_validateAndHandle ready r ho' ⟨Nat.lt_succ_self _, fun k t => ?_, ?_⟩
      · exact ⟨fun hcache => absurd hcache (by simp [newHandler]), fun ht => absurd ht hfresh⟩
      · exact fun k t ht => absurd ht hfresh

theorem keeps_sweepExpiredIdempotencyKeys (ho : Ordered v) :
    Keeps sweepExpiredIdempotencyKeys v := by
  refine keeps_query ho ?_
  have hswept : Ordered { v with
      shared.db.idempotencyKeys := v.shared.db.idempotencyKeys.filter
        (fun row => decide (¬ row.expiresAt < v.shared.now)) } := by
    refine ⟨ho.arrived, ho.once, ho.active, ho.filed, ho.sole, ho.answered, fun id k t hid ht => ?_⟩
    obtain hgone | ⟨row, hrow, hkey, hexpires⟩ := ho.kept id k t hid ht
    · exact Or.inl hgone
    · by_cases hgone : t + ttlMs < v.shared.now
      · exact Or.inl hgone
      · exact Or.inr ⟨row, List.mem_filter.mpr ⟨hrow, decide_eq_true (hexpires ▸ hgone)⟩,
          hkey, hexpires⟩
  rintro _ rfl
  exact ⟨hswept, hswept⟩

end Request

def Arrives (v : World) : Call → Prop
  | .request r _ => ∀ key ∈ requestKey r, outboundDisabled v.shared.db = false → Apart key v
  | _ => True

def Careful (s : Server) (a : Action) : Prop :=
  s.up → match a with
    | .call c | .crash c _ => Arrives s.world c
    | _ => True

instance (key : String) (v : World) : Decidable (Apart key v) := by
  have (e : Event) : Decidable (match e with
      | .arrived id k t => k = key → v.shared.now < t + ttlMs → started id v.shared.trace →
        .stored id ∈ v.shared.trace
      | _ => True) := by split <;> infer_instance
  exact inferInstanceAs (Decidable (_ ∧ _))

instance (v : World) (c : Call) : Decidable (Arrives v c) := by
  unfold Arrives
  split <;> infer_instance

instance (s : Server) : (a : Action) → Decidable (Careful s a)
  | .call c | .crash c _ => inferInstanceAs (Decidable (_ → Arrives _ c))
  | .advance _ | .restart => inferInstanceAs (Decidable (_ → True))

theorem keeps_call {c : Call} (ho : Ordered v) (hc : Arrives v c) : Keeps c.code v := by
  have hback : ∀ {p : Code Unit}, Always Back p → Keeps p v :=
    fun hp => keeps_calm (always_mono (fun _ _ => calm_back) hp) ho
  have hwrite : ∀ {p : Code Unit}, Always Write p → Keeps p v :=
    fun hp => hback (always_mono (fun _ _ hw => hw.toBack) hp)
  have hitemless : ∀ {p : Code Unit}, Always Itemless p → Keeps p v :=
    fun hp => hwrite (always_mono (fun _ _ hi => hi.toWrite) hp)
  cases c with
  | tick => exact hwrite write_tick
  | complete i outcome random => exact hwrite (write_complete i outcome random)
  | createJob args => exact hback (always_bind (back_callCreateJob args) (fun _ => always_pure ()))
  | cancelJob id actor =>
    exact hwrite (always_bind (write_cancelJob id actor) (fun _ => always_pure ()))
  | pauseJob id actor =>
    exact hitemless (always_bind (itemless_pauseJob id actor) (fun _ => always_pure ()))
  | resumeJob id actor =>
    exact hitemless (always_bind (itemless_resumeJob id actor) (fun _ => always_pure ()))
  | createSchedule input => exact hitemless (itemless_create input)
  | removeSchedule id => exact hitemless (itemless_remove id)
  | runTickIfReady ready => exact hback (back_runTickIfReady ready)
  | setOutboundDisabled disabled actor reason =>
    exact keeps_calm (calm_setOutboundDisabled disabled actor reason) ho
  | drainAndStop => exact hitemless itemless_drainAndStop
  | request r ready => exact keeps_request r ready ho hc
  | answered id answer ready => exact keeps_answered id answer ready ho
  | delayOver id ready => exact keeps_delayOver id ready ho
  | sweepExpiredIdempotencyKeys => exact keeps_sweepExpiredIdempotencyKeys ho

theorem ordered_step {s : Server} {a : Action} (ho : Ordered s.world) (ha : Careful s a) :
    Ordered (step s a).world := by
  cases a with
  | advance ms =>
    have hnow : s.world.shared.now ≤ s.world.shared.now + ms :=
      Int.le_add_of_nonneg_right (Int.natCast_nonneg ms)
    refine ⟨?_, ho.once, ho.active, ho.filed, ho.sole, ho.answered, ?_⟩
    · exact fun id key t ht =>
        (ho.arrived id key t ht).imp (fun hlt => hlt) (fun hle => le_trans hle hnow)
    · exact fun id key t hid ht =>
        (ho.kept id key t hid ht).imp (fun hlt => lt_of_lt_of_le hlt hnow) (fun hrow => hrow)
  | call c =>
    simp only [step]
    split
    case isTrue hup => exact wp_run (keeps_call ho (ha hup))
    case isFalse => exact ho
  | crash c n =>
    simp only [step]
    split
    case isTrue hup =>
      have hcut := wp_cut (I := Ordered) ho (keeps_call ho (ha hup)) n
      exact ordered_calm (v := c.code.cut n s.world)
        ⟨rfl, le_refl _, rfl, rfl, List.Subset.refl _⟩ hcut
    case isFalse => exact ho
  | restart =>
    simp only [step]
    split
    · exact ho
    · have hfresh : Ordered { s.world with mem := fresh s.world.mem.pid s.world.mem } :=
        ordered_calm (v := s.world) ⟨rfl, le_refl _, rfl, rfl, List.nil_subset _⟩ ho
      exact wp_run (keeps_calm (p := Claiming.recoverStaleClaims >>= fun _ => pure ()) (always_bind
        (always_mono (fun _ _ hw => calm_back hw.toBack) write_recoverStaleClaims)
        (fun _ => always_pure ())) hfresh)

theorem ordered_initial (concurrency : Nat) (now : Ms) :
    Ordered (initial concurrency now).world where
  arrived := fun _ _ _ ht => absurd ht List.not_mem_nil
  once := fun _ _ _ _ _ ht => absurd ht List.not_mem_nil
  active := fun _ ha => by
    obtain hstarted | ⟨h, hh, _⟩ := ha
    · cases hstarted
    · exact absurd hh List.not_mem_nil
  filed := fun _ hh => absurd hh List.not_mem_nil
  sole := fun _ _ _ _ ht => absurd ht List.not_mem_nil
  answered := fun _ hid => absurd hid List.not_mem_nil
  kept := fun _ _ _ hid => absurd hid List.not_mem_nil

theorem ordered_run {concurrency : Nat} {now : Ms} {as : List Action}
    (h : Along Careful step (initial concurrency now) as) :
    Ordered (run (initial concurrency now) as).world :=
  play_invariant (fun s : Server => Ordered s.world) (fun _ _ => ordered_step)
    (ordered_initial concurrency now) h

/-- As long as requests with the same key arrive apart, at most one of those that arrive within
the lifetime of a stored answer sends anything. -/
theorem one_dispatch_per_key (concurrency : Nat) (now : Ms) (as : List Action)
    (h : Along Careful step (initial concurrency now) as) :
    let t := (run (initial concurrency now) as).world.shared.trace
    ∀ id id' key arrivedAt arrivedAt', .arrived id key arrivedAt ∈ t →
      .arrived id' key arrivedAt' ∈ t → arrivedAt ≤ arrivedAt' → arrivedAt' < arrivedAt + ttlMs →
      started id t → started id' t → id = id' := by
  intro t id id' key arrivedAt arrivedAt' ht ht' hle hnear hstarted hstarted'
  by_contra hne
  have hlater : arrivedAt < arrivedAt' + ttlMs :=
    lt_of_le_of_lt hle (Int.lt_add_of_pos_right _ (by decide))
  exact (ordered_run h).sole id (Or.inl hstarted) key arrivedAt ht id' arrivedAt' (Ne.symm hne)
    (Or.inl hstarted')
    ht' ⟨hlater, hnear⟩

def keyed : Request :=
  { user := "u", idempotencyKey := some "order", body := .send ["1"] "hello" 0 }

/-- A second request with the key arrives while the first is still sending. -/
theorem one_dispatch_per_key_fails :
    let t :=
      (run (initial 1 0) [.call (.request keyed true), .advance 1000,
        .call (.request keyed true)]).world.shared.trace
    .arrived 0 "send:order" 0 ∈ t ∧ .arrived 1 "send:order" 1000 ∈ t ∧ started 0 t ∧
      started 1 t := by
  decide +kernel

/-- A second request that arrives after the answer is replayed, and a third one is sent after the
answer has expired and was swept. -/
theorem one_dispatch_per_key_replay :
    let as : List Action :=
      [.call (.request keyed true), .call (.answered 0 (.result .sent none) true), .advance 1000,
        .call (.request keyed true), .advance 300000, .call .sweepExpiredIdempotencyKeys,
        .call (.request keyed true)]
    let t := (run (initial 1 0) as).world.shared.trace
    ∀ id id' key arrivedAt arrivedAt', .arrived id key arrivedAt ∈ t →
      .arrived id' key arrivedAt' ∈ t → arrivedAt ≤ arrivedAt' → arrivedAt' < arrivedAt + ttlMs →
      started id t → started id' t → id = id' :=
  one_dispatch_per_key 1 0 _ (by decide +kernel)

end WhatsappTester.Replay
