import WhatsappTester.Jobs.Handover
import WhatsappTester.Jobs.Uniqueness
import WhatsappTester.Jobs.Verdict

namespace WhatsappTester.Jobs.Settlement

open Schema State Atomic Atomic.Program Atomic.Runs Atomic.Interleaving Atomic.Watch Statements
  JobService Claiming Worker
open Scheduler Process Custody Cluster Retirement Handover Registry Uniqueness Verdict

def completions (id : Id) (s : Shared) : Nat :=
  s.db.events.countP (fun e => isCompletion e && decide (e.jobId = id))

def dueTimes (s : Shared) : List (String × Ms) :=
  s.db.schedules.map (fun row => (row.id, row.nextRunAt))

def jobOf (e : Errand Work Memory) : Option Id :=
  match e.work with
  | .call (.complete i ..) =>
    (e.mem.inFlight.find? (fun t => decide (t.item.id = i))).map (·.item.jobId)
  | _ => none

def completes : Work → Bool
  | .call (.complete ..) => true
  | _ => false

/-- The tables as they would be if a job were running. -/
def reopened (id : Id) (s : Shared) : Shared :=
  { s with
    db.jobs := Table.update (fun j => decide (j.id = id))
      (fun j => { j with status := .running }) s.db.jobs }

/-- The statement would give the job its final status if the job were running. -/
def Settles (id : Id) (act : World → World) (v : World) : Prop :=
  ∃ j ∈ (act { v with shared := reopened id v.shared }).shared.db.jobs, j.id = id ∧
  j.status.terminal = true

instance (id : Id) (act : World → World) (v : World) : Decidable (Settles id act v) := by
  unfold Settles
  infer_instance

def Next (S : (World → World) → World → Prop) (w : Nat) (C : Processes) : Prop :=
  match (C.process w).code with
  | .ret _ => False
  | .stmt act _ => S act (C.view w)

instance (S : (World → World) → World → Prop) [∀ act v, Decidable (S act v)] (w : Nat)
    (C : Processes) :
    Decidable (Next S w C) := by
  unfold Next
  split <;> infer_instance

/-- A process that completes an item executes the update that settles the job, of a job that is
terminal already. -/
def Overtaken (W : Watching) (a : Step) : Prop :=
  ∃ x ∈ W.errands, executes x.1 a = true ∧ completes x.2.work = true ∧
    ∃ j ∈ W.cluster.shared.db.jobs, j.status.terminal = true ∧ Next (Settles j.id) x.1 W.cluster

instance (W : Watching) (a : Step) : Decidable (Overtaken W a) := by
  unfold Overtaken
  infer_instance

def advances (key : String) (W : Watching) (a : Step) : Bool :=
  decide ((∃ x ∈ W.errands, executes x.1 a = true ∧
    ∃ j ∈ jobsWith key W.cluster.shared, jobOf x.2 = some j.id) ∧
    dueTimes (watch rules W a).cluster.shared ≠ dueTimes W.cluster.shared)

def moves (id : Id) (W : Watching) (a : Step) : Bool :=
  decide ((∃ x ∈ W.errands, executes x.1 a = true ∧ jobOf x.2 = some id) ∧
    dueTimes (watch rules W a).cluster.shared ≠ dueTimes W.cluster.shared)

structure Silent (v v' : World) : Prop where
  events : v'.shared.db.events.filter isCompletion = v.shared.db.events.filter isCompletion
  trace : v'.shared.trace.filter isSettled = v.shared.trace.filter isSettled

structure Calm (v v' : World) : Prop extends Silent v v' where
  schedules : v'.shared.db.schedules = v.shared.db.schedules

section Silent

variable {v v' : World}

theorem silent_mute : Tolerant Silent := fun _ _ h => ⟨h.completions, by rw [h.trace]⟩

theorem calm_mute : Tolerant Calm := fun _ _ h => ⟨silent_mute _ _ h, h.schedules⟩

theorem calm_memo (h : Memo v v') :
    Calm v v' := ⟨⟨by rw [h.shared], by rw [h.shared]⟩, by rw [h.shared]⟩

theorem silent_web (h : Web v v') : Silent v v' := by
  have hevents : v'.shared.db.events = v.shared.db.events := congrArg JobSide.jobEvents h.jobSide
  refine ⟨by rw [hevents], ?_⟩
  refine filter_of_notWeb (fun e he => ?_) (congrArg JobSide.events h.jobSide)
  cases e <;> first | rfl | cases he

theorem calm_updateJobs (q : Job → Bool) (f : Job → Job) : Always Calm (updateJobs q f) :=
  always_update _ (fun _ => ⟨⟨rfl, rfl⟩, rfl⟩)

theorem calm_updateItems (q : JobItem → Bool) (f : JobItem → JobItem) :
    Always Calm (updateItems q f) :=
  always_update _ (fun _ => ⟨⟨rfl, rfl⟩, rfl⟩)

theorem calm_updateItemsRecord (q : JobItem → Bool) (f : JobItem → JobItem) {e : World → Event}
    (he : ∀ w, isSettled (e w) = false) : Always Calm (updateItemsRecord q f e) :=
  always_update _ (fun w =>
    ⟨⟨rfl, List.filter_cons_of_neg (by rw [he w]; exact Bool.false_ne_true)⟩, rfl⟩)

theorem silent_updateSchedules (q : Schedule → Bool) (f : Schedule → Schedule) :
    Always Silent (updateSchedules q f) := always_update _ (fun _ => ⟨rfl, rfl⟩)

theorem silent_callCreateJob (a : CreateJobArgs) : Always Silent (callCreateJob a) := by
  refine always_callCreateJob silent_mute a (fun id now => always_update _ (fun v => ?_))
    (fun result v => ?_)
  · cases htransaction : createTransaction id now a v.shared.uuid v.shared.db with
    | error err => exact ⟨rfl, rfl⟩
    | ok db =>
      obtain ⟨rfl, _⟩ := createTransaction_ok htransaction
      exact ⟨rfl, List.filter_cons_of_neg (by simp [isSettled])⟩
  · cases result
    · exact ⟨rfl, rfl⟩
    · exact ⟨rfl, List.filter_cons_of_neg (by simp [isSettled])⟩

theorem calm_tick : Always Calm tick := by
  refine always_tick calm_mute (always_tickLoop (fun _ _ => calm_memo) ?_ (fun item => ?_))
  · refine always_claimNextItem calm_mute (fun now => always_update _ (fun v => ?_))
    cases nextClaimable v.shared.db now with
    | none => exact ⟨⟨rfl, rfl⟩, rfl⟩
    | some row => exact ⟨⟨rfl, List.filter_cons_of_neg (by simp [isSettled])⟩, rfl⟩
  · refine always_processItem item ?_ (fun n => ?_) (fun n => always_exec (fun _ => ?_))
    · exact always_markItemRunning calm_mute _ (fun _ => calm_updateItems _ _)
        (fun _ _ => calm_updateJobs _ _)
    · exact tolerant_recordAttemptStart calm_mute _ n
        (fun _ => always_exec (fun _ => ⟨⟨rfl, rfl⟩, rfl⟩))
        (fun _ => calm_updateItemsRecord _ _ (fun _ => rfl))
    · exact ⟨⟨rfl, List.filter_cons_of_neg (by simp [isSettled])⟩, rfl⟩

theorem calm_recordOutcome (task : Task) (outcome : SendOutcome) (random : Nat) :
    Always Calm (recordOutcome task outcome random) := by
  refine tolerant_recordOutcome calm_mute (fun _ _ => calm_memo) task outcome random
    (fun _ _ _ => ?_)
    (fun _ _ _ => ?_) (fun _ _ _ _ => ?_)
  · exact always_bind (always_read calm_mute _) (fun _ => always_exec (fun _ => ⟨⟨rfl, rfl⟩, rfl⟩))
  · exact always_scheduleRetry calm_mute _ _ _ _
      (fun _ => calm_updateItemsRecord _ _ (fun _ => rfl))
  · exact always_markItemTerminal calm_mute _ (fun _ => calm_updateItemsRecord _ _ (fun _ => rfl))
      (fun _ _ => calm_updateJobs _ _)

theorem calm_cancelJob (id : Id) (actor : Option String) : Always Calm (cancelJob id actor) :=
  always_cancelJob calm_mute id actor (fun _ => calm_updateJobs _ _)
    (fun _ => calm_updateItemsRecord _ _ (fun _ => rfl))

theorem silent_work {work : Work} (h : completes work = false) : Always Silent work.code := by
  have hcalm : ∀ {α : Type} {q : Code α}, Always Calm q → Always Silent q :=
    fun h => always_mono (fun _ _ h => h.toSilent) h
  have hweb : ∀ {q : Code Unit}, Always Web q → Always Silent q :=
    fun h => always_mono (fun _ _ => silent_web) h
  cases work with
  | recover =>
    exact always_bind (hcalm (always_recoverStaleClaims calm_mute (fun _ => calm_updateItems _ _)))
      (fun _ => always_pure ())
  | call c =>
    cases c with
    | tick => exact hcalm calm_tick
    | complete i outcome random => cases h
    | createJob args => exact always_bind (silent_callCreateJob args) (fun _ => always_pure ())
    | cancelJob id actor => exact always_bind (hcalm (calm_cancelJob id actor)) (fun _ => always_pure ())
    | pauseJob id actor =>
      exact always_bind (hcalm (always_changeStatus calm_mute id _ (movedJob .paused) (fun _ => rfl)
        (fun _ => calm_updateJobs _ _))) (fun _ => always_pure ())
    | resumeJob id actor =>
      exact always_bind (hcalm (always_changeStatus calm_mute id _ (movedJob .queued) (fun _ => rfl)
        (fun _ => calm_updateJobs _ _))) (fun _ => always_pure ())
    | createSchedule input =>
      exact always_create silent_mute input (fun _ _ _ => always_exec (fun _ => ⟨rfl, rfl⟩))
    | removeSchedule id => exact always_exec (fun _ => ⟨rfl, rfl⟩)
    | runTickIfReady ready =>
      exact always_runTickIfReady silent_mute silent_callCreateJob silent_updateSchedules ready
    | setOutboundDisabled disabled actor reason => exact hweb (web_setOutboundDisabled _ _ _ _)
    | drainAndStop => exact always_exec (fun _ => ⟨rfl, rfl⟩)
    | request r ready => exact hweb (web_request r ready)
    | answered id answer ready => exact hweb (web_answered id answer ready)
    | delayOver id ready => exact hweb (web_delayOver id ready)
    | sweepExpiredIdempotencyKeys => exact hweb web_sweepExpiredIdempotencyKeys

end Silent

def Rely (id : Id) (v v' : World) : Prop :=
  v'.mem = v.mem ∧ (id ∈ jobIds v.shared → id ∈ jobIds v'.shared)

structure Crosses (T : World → World → Prop) (id : Id) (act : World → World) (v : World) :
    Prop where
  kept : T v (act v)
  settles : Settles id act v
  retired : Retired JobStatus.terminal id (act v).shared

def report (id : Id) (kind : JobEventKind) : Code Unit := do
  match ← (do
    recordEvent id kind
    getJob id) with
  | none => pure ()
  | some job => onJobSettled job

/-- Completions break `T` at most once for the job, and not at all for another job. -/
structure Measured (T U : World → World → Prop) (id : Id) : Prop where
  calm : ∀ v v', Calm v v' → T v v'
  own : ∀ kind, Once T U (report id kind)

def Indifferent (T : World → World → Prop) (id : Id) : Prop :=
  (∀ kind, Always T (recordEvent id kind)) ∧ ∀ view, view.job.id = id → Always T (onJobSettled view)

section Completion

variable {T U : World → World → Prop} {id : Id} {v : World}

theorem until_checkJobCompletion (hT : Measured T U id) : Until (Rely id) T (Crosses T id)
    (fun q => ∃ kind, q = (do recordEvent id kind; getJob id)) (fun job => job = none)
    (checkJobCompletion id) v := by
  have hmute : Tolerant T := fun v v' h => hT.calm v v' (calm_mute v v' h)
  have hread : ∀ v, T v v := fun v => hmute v v (mute_refl v)
  refine until_seq (P := fun job u => job.isSome → id ∈ jobIds u.shared)
    (fun u _ => ⟨hread u, fun hjob => ?_⟩) ?_
  · obtain ⟨j, hj⟩ := Option.isSome_iff_exists.mp hjob
    obtain ⟨hj, hid⟩ := Table.find_mem hj
    exact List.mem_map.mpr ⟨j, hj, hid⟩
  rintro (_ | job) u hknown
  · rfl
  simp only
  split
  · rfl
  have hkeep : ∀ {α : Type} (f : World → α), ∀ u, id ∈ jobIds u.shared →
      Wp (Rely id) T (query f) (fun _ u => id ∈ jobIds u.shared) u :=
    fun f u hu u' hr => ⟨hread u', hr.2 hu⟩
  refine until_seq (hkeep _ u (hknown rfl)) (fun byStatus u hu => ?_)
  split
  · rfl
  refine until_seq (hkeep _ u hu) (fun now u hu => ?_)
  intro u' hr
  refine Or.inr ⟨⟨hT.calm _ _ ⟨⟨rfl, rfl⟩, rfl⟩, ?_, ?_⟩, _, rfl⟩
  · obtain ⟨j, hj, hid⟩ := List.mem_map.mp (hr.2 hu)
    refine ⟨_, Table.mem_update.mpr ⟨_, Table.mem_update.mpr ⟨j, hj, rfl⟩, rfl⟩, ?_⟩
    simp [hid, settledJob, finalStatus_terminal]
  · refine retired_updateJobs (fun _ => rfl) (fun j hid => ?_) (hr.2 hu)
    split
    case isTrue => exact finalStatus_terminal _ _
    case isFalse hcancelled =>
      have : j.status = .cancelled := by simpa [hid] using hcancelled
      rw [this]
      rfl

theorem wp_of_always {R : World → World → Prop} {α : Type} {q : Code α} (h : Always T q) :
    Wp R T q (fun _ _ => True) v :=
  wp_always h (fun _ _ _ _ => trivial) (fun _ _ _ hT => ⟨hT, trivial⟩) trivial

theorem wp_getJob {R : World → World → Prop} (hread : ∀ v, T v v) (k : Id) :
    Wp R T (getJob k) (fun view _ => ∀ x, view = some x → x.job.id = k) v := by
  refine wp_seq (Q := fun job _ => ∀ j, job = some j → j.id = k)
    (fun u _ => ⟨hread u, fun j hj => (Table.find_mem hj).2⟩) ?_
  rintro (_ | job) u hid
  · exact fun _ hx => nomatch hx
  · refine fun u' _ => ⟨hread u', fun x hx => ?_⟩
    obtain rfl := Option.some.inj hx
    exact hid job rfl

theorem wp_settle {R : World → World → Prop} (hT : ∀ v v', Calm v v' → T v v') {k : Id}
    (h : Indifferent T k) :
    Wp R T (settle k) (fun _ _ => True) v := by
  have hmute : Tolerant T := fun v v' h => hT v v' (calm_mute v v' h)
  have hread : ∀ v, T v v := fun v => hmute v v (mute_refl v)
  have hnone : ∀ u, Wp R T (pure none) (fun view _ => ∀ x : JobView, view = some x →
      x.job.id = k) u :=
    fun _ _ hx => nomatch hx
  have hcheck : Wp R T (checkJobCompletion k) (fun view _ => ∀ x, view = some x →
      x.job.id = k) v := by
    refine wp_seq (wp_of_always (always_read hmute _)) ?_
    rintro (_ | job) u -
    · exact hnone u
    simp only
    split
    · exact hnone u
    refine wp_seq (wp_of_always (always_read hmute _)) (fun byStatus u _ => ?_)
    split
    · exact hnone u
    refine wp_seq (wp_of_always (always_read hmute _)) (fun now u _ => ?_)
    refine wp_seq (wp_of_always (always_mono hT (calm_updateJobs _ _))) (fun _ u _ => ?_)
    exact wp_seq (wp_of_always (h.1 _)) (fun _ u _ => wp_getJob hread k)
  refine wp_seq hcheck ?_
  rintro (_ | view) u hid
  · trivial
  · exact wp_of_always (h.2 view (hid view rfl))

/-- A completion keeps to `T` until it settles the job; after that it may break it once. -/
theorem until_complete (hT : Measured T U id) {i : Id} (outcome : SendOutcome) (random : Nat)
    (hother : ∀ task, v.mem.inFlight.find? (fun t => decide (t.item.id = i)) = some task →
      task.item.jobId ≠ id → Indifferent T task.item.jobId) :
    Until (Rely id) T (Crosses T id) (Once T U) (fun _ => True) (complete i outcome random) v := by
  have hmute : Tolerant T := fun v v' h => hT.calm v v' (calm_mute v v' h)
  have hread : ∀ v, T v v := fun v => hmute v v (mute_refl v)
  refine until_seq (P := fun task _ =>
    task = v.mem.inFlight.find? (fun t => decide (t.item.id = i)))
    (fun u hr => ⟨hread u, ?_⟩) ?_
  · exact congrArg (fun m : Memory => m.inFlight.find? (fun t => decide (t.item.id = i))) hr.1
  rintro (_ | task) u htask
  · trivial
  have hfinish : Always T (finish i) := always_exec (fun _ => hT.calm _ _ ⟨⟨rfl, rfl⟩, rfl⟩)
  refine until_seq (wp_of_always (always_mono hT.calm (calm_recordOutcome task outcome random)))
    (fun _ u _ => ?_)
  by_cases hjob : task.item.jobId = id
  · rw [hjob]
    refine until_bind (Z := Once T U) (Q := fun _ => True) ?_
      (fun q hq => once_after hq (fun _ => hfinish))
      (fun _ _ _ => until_always hfinish (fun _ => trivial))
    refine until_bind (until_checkJobCompletion hT) ?_ ?_
    · rintro _ ⟨kind, rfl⟩
      exact hT.own kind
    · rintro _ rfl _
      trivial
  · exact until_seq (wp_settle hT.calm (hother task htask.symm hjob))
      (fun _ _ _ => until_always hfinish (fun _ => trivial))

end Completion

def Same {β : Type} (m : Shared → β) (v v' : World) : Prop := m v'.shared = m v.shared

def OneMore (m : Shared → Nat) (v v' : World) : Prop := m v'.shared ≤ m v.shared + 1

section Measures

variable {T : World → World → Prop} {id k : Id} {v v' : World}

theorem completions_silent (h : Silent v v') : Same (completions id) v v' := by
  have hcount : ∀ l : List JobEvent, l.countP (fun e => isCompletion e && decide (e.jobId = id)) =
      (l.filter isCompletion).countP (fun e => decide (e.jobId = id)) := by
    intro l
    rw [List.countP_filter]
    exact List.countP_congr (fun e _ => by simp [and_comm])
  rw [Same, completions, hcount, h.events, ← hcount, completions]

theorem settlements_silent (h : Silent v v') :
    Same (settlements id) v v' := settlements_eq h.trace id

theorem dueTimes_calm (h : Calm v v') :
    Same dueTimes v v' := by rw [Same, dueTimes, h.schedules, dueTimes]

theorem measured_completions (id : Id) :
    Measured (Same (completions id)) (OneMore (completions id)) id := by
  have hmute : Tolerant (Same (completions id)) :=
    fun v v' h => completions_silent (silent_mute v v' h)
  refine ⟨fun _ _ h => completions_silent h.toSilent, fun kind => ?_⟩
  refine once_after
    (once_after (once_before (always_read hmute _) (fun ts => once_exec (fun v => ?_)))
    (fun _ => always_getJob hmute id)) (fun job => ?_)
  · simp only [OneMore, completions, List.countP_append, List.countP_singleton]
    split <;> omega
  · cases job with
    | none => exact always_pure ()
    | some job =>
      exact tolerant_onJobSettled hmute job (always_exec (fun _ => rfl))
        (fun _ _ _ => always_update _ (fun _ => rfl))

theorem indifferent_completions (hk : k ≠ id) : Indifferent (Same (completions id)) k := by
  have hmute : Tolerant (Same (completions id)) :=
    fun v v' h => completions_silent (silent_mute v v' h)
  refine ⟨fun kind => always_bind (always_read hmute _) (fun ts => always_exec (fun v => ?_)),
    fun view _ => ?_⟩
  · simp [Same, completions, List.countP_append, hk]
  · exact tolerant_onJobSettled hmute view (always_exec (fun _ => rfl))
      (fun _ _ _ => always_update _ (fun _ => rfl))

theorem measured_settlements (id : Id) :
    Measured (Same (settlements id)) (OneMore (settlements id)) id := by
  have hmute : Tolerant (Same (settlements id)) :=
    fun v v' h => settlements_silent (silent_mute v v' h)
  refine ⟨fun _ _ h => settlements_silent h.toSilent, fun kind => ?_⟩
  refine once_before
    (always_bind (always_bind (always_read hmute _) (fun ts => always_exec (fun _ => rfl)))
    (fun _ => always_getJob hmute id)) (fun job => ?_)
  cases job with
  | none => trivial
  | some job =>
    refine once_after (once_exec (fun v => ?_)) (fun _ => ?_)
    · simp only [OneMore, settlements, List.countP_cons]
      split <;> omega
    · split
      · refine always_bind (always_read hmute _) (fun row => ?_)
        cases row with
        | none => exact always_pure ()
        | some row =>
          refine always_bind (always_read hmute _) (fun now => ?_)
          exact always_bind (always_update _ (fun _ => rfl)) (fun _ => always_pure ())
      · exact always_pure ()

theorem indifferent_settlements (hk : k ≠ id) : Indifferent (Same (settlements id)) k := by
  have hmute : Tolerant (Same (settlements id)) :=
    fun v v' h => settlements_silent (silent_mute v v' h)
  refine ⟨fun kind => always_bind (always_read hmute _) (fun ts => always_exec (fun _ => rfl)),
    fun view hview => ?_⟩
  refine tolerant_onJobSettled hmute view (always_exec (fun v => ?_))
    (fun _ _ _ => always_update _ (fun _ => rfl))
  simp [Same, settlements, settles, hview, hk]

theorem measured_dueTimes (id : Id) : Measured (Same dueTimes) (fun _ _ => True) id := by
  have hmute : Tolerant (Same dueTimes) := fun v v' h => dueTimes_calm (calm_mute v v' h)
  refine ⟨fun _ _ => dueTimes_calm, fun kind => ?_⟩
  refine once_before
    (always_bind (always_bind (always_read hmute _) (fun ts => always_exec (fun _ => rfl)))
    (fun _ => always_getJob hmute id)) (fun job => ?_)
  cases job with
  | none => trivial
  | some job =>
    refine once_before (always_exec (fun _ => rfl)) (fun _ => ?_)
    split
    · refine once_before (always_read hmute _) (fun row => ?_)
      cases row with
      | none => trivial
      | some row =>
        refine once_before (always_read hmute _) (fun now => ?_)
        exact once_after (once_update _ (fun _ => trivial)) (fun _ => always_pure ())
    · trivial

end Measures

/-- A statement that keeps the jobs known, and a final status final. -/
def Loyal (id : Id) (v v' : World) : Prop :=
  Grown v.shared v'.shared ∧ Stays JobStatus.terminal id v v'

/-- A process has nothing to report of the job, or has yet to settle it, or has done so alone. -/
def Right (T : Errand Work Memory → World → World → Prop) (U : World → World → Prop)
    (id : Id) (n o w : Nat) (e : Errand Work Memory) (code : Code Unit) (v : World) : Prop :=
  Always (T e) code ∨
  completes e.work = true ∧
  Until (Rely id) (T e) (Crosses (T e) id) (Once (T e) U) (fun _ => True) code v ∨ n = 0 ∧ w = o ∧
  Retired JobStatus.terminal id v.shared ∧ Once (T e) U code

/-- What breaks `T` was done at most once, and by the one process that settled the job. -/
structure Guarded (T : Errand Work Memory → World → World → Prop) (U : World → World → Prop)
    (id : Id) (n : Nat) (W : Watching) : Prop where
  covered : Covered W
  single : Single W
  loyal : Keeping (fun _ _ code _ => Always (Loyal id) code) W
  fresh : ¬ Retired JobStatus.terminal id W.cluster.shared → n = 0
  atMost : n ≤ 1
  rights : ∃ o, Keeping (Right T U id n o) W

section Guarded

variable {T : Errand Work Memory → World → World → Prop} {U : World → World → Prop} {id : Id}
    {n n' o o' w : Nat}
  {W : Watching} {e : Errand Work Memory} {code : Code Unit} {s s' : Shared} {m : Memory}

theorem eq_of_completes {work : Work} (h : completes work = true) :
    ∃ i outcome random, work = .call (.complete i outcome random) := by
  obtain c | _ := work
  · cases c <;> first | exact ⟨_, _, _, rfl⟩ | cases h
  · cases h

theorem eq_of_executes {a : Step} (h : executes w a = true) : a = .exec w := by
  cases a with
  | exec u => rw [of_decide_eq_true h]
  | start | kill | wait => cases h

theorem loyal_work (id : Id) (work : Work) : Always (Loyal id) work.code := by
  refine always_and ?_ (stays_work inactive_terminal work (Or.inl rfl))
  cases work with
  | recover =>
    refine always_bind (always_mono (fun _ _ h => grown_of_origins h.origins)
      write_recoverStaleClaims) (fun _ => ?_)
    exact always_pure ()
  | call c => exact grown_call c

theorem right_others (h : Right T U id n o w e code ⟨s, m⟩) (hgrown : Grown s s')
    (hheld : n = 0 → w = o → Retired JobStatus.terminal id s →
      n' = 0 ∧ w = o' ∧ Retired JobStatus.terminal id s') :
    Right T U id n' o' w e code ⟨s', m⟩ := by
  obtain h | ⟨hcompletes, h⟩ | ⟨hn, hw, hretired, h⟩ := h
  · exact Or.inl h
  · refine Or.inr (Or.inl ⟨hcompletes, until_rely (fun t ht => ?_) h⟩)
    exact ⟨ht.1, fun hid => ht.2 (known_grown hgrown hid)⟩
  · obtain ⟨hn', hw', hretired'⟩ := hheld hn hw hretired
    exact Or.inr (Or.inr ⟨hn', hw', hretired', h⟩)

theorem open_of_crosses {act : World → World} {next : World → Code Unit} (hmem : (w, e) ∈ W.errands)
    (hcompletes : completes e.work = true) (hcode : (W.cluster.process w).code = .stmt act next)
    (hcrosses : Settles id act (W.cluster.view w)) (hnot : ¬ Overtaken W (.exec w)) :
    ¬ Retired JobStatus.terminal id W.cluster.shared := by
  intro hretired
  obtain ⟨j, hj, hid⟩ := List.mem_map.mp hretired.known
  refine hnot ⟨(w, e), hmem, decide_eq_true rfl, hcompletes, j, hj, hretired.status j hj hid, ?_⟩
  simp only [Next, hcode]
  rwa [hid]

theorem guarded_idle (h : Guarded T U id n W) {a : Unit}
    (hcode : (W.cluster.process w).code = .ret a) : Guarded T U id n (watch rules W (.exec w)) := by
  obtain ⟨o, hrights⟩ := h.rights
  have hsame : Rules.exec W.cluster w = W.cluster := by simp only [Rules.exec, hcode]
  refine ⟨covered_step h.covered _, single_step h.single _, ?_, ?_, h.atMost, o, ?_⟩
  · refine keeping_exec h.loyal (fun e act next _ hstmt _ => ?_) (fun _ _ _ _ hold => hold)
    rw [hcode] at hstmt
    cases hstmt
  · simp only [watch, Rules.step, hsame]
    exact h.fresh
  · refine keeping_exec hrights (fun e act next _ hstmt _ => ?_) (fun _ _ _ _ hold => ?_)
    · rw [hcode] at hstmt
      cases hstmt
    · rw [hsame]
      exact hold

theorem loyal_next (h : Guarded T U id n W) {act : World → World} {next : World → Code Unit}
    (he : (w, e) ∈ W.errands) (hcode : (W.cluster.process w).code = .stmt act next) :
    Loyal id (W.cluster.view w) (act (W.cluster.view w)) := by
  have hloyal := h.loyal w e he
  rw [hcode] at hloyal
  exact (hloyal (W.cluster.view w)).1

theorem guarded_stmt (holder : Nat) (h : Guarded T U id n W)
    (hrights : Keeping (Right T U id n o) W)
    {act : World → World} {next : World → Code Unit} (he : (w, e) ∈ W.errands)
    (hcode : (W.cluster.process w).code = .stmt act next) (hatMost : n' ≤ 1)
    (hfresh : ¬ Retired JobStatus.terminal id (act (W.cluster.view w)).shared → n' = 0)
    (hown : Right T U id n' holder w e (next (W.cluster.view w)) (act (W.cluster.view w)))
    (hheld : ∀ u, u ≠ w → n = 0 → u = o → Retired JobStatus.terminal id W.cluster.shared →
      n' = 0 ∧ u = holder) : Guarded T U id n' (watch rules W (.exec w)) := by
  have hshared : (Rules.exec W.cluster w).shared = (act (W.cluster.view w)).shared := by
    simp only [Rules.exec, hcode]
  obtain ⟨hgrown, hstays⟩ := loyal_next h he hcode
  refine ⟨covered_step h.covered _, single_step h.single _, ?_, ?_, hatMost, holder, ?_⟩
  · refine keeping_exec h.loyal (fun _ _ _ _ _ hold => ?_) (fun _ _ _ _ hold => hold)
    exact (hold (W.cluster.view w)).2
  · simp only [watch, Rules.step, hshared]
    exact hfresh
  · refine keeping_exec hrights (fun e' act' next' he' hstmt _ => ?_) (fun u e' _ hne hold => ?_)
    · rw [hcode] at hstmt
      cases hstmt
      rwa [h.single w e' e he' he]
    · rw [hshared]
      refine right_others hold hgrown (fun hn hu hretired => ?_)
      obtain ⟨hn', hu'⟩ := hheld u hne hn hu hretired
      exact ⟨hn', hu', hstays hretired⟩

theorem guarded_exec (h : Guarded T U id n W) (hnot : ¬ Overtaken W (.exec w))
    (hquiet : (∀ e act next, (w, e) ∈ W.errands → (W.cluster.process w).code = .stmt act next →
      T e (W.cluster.view w) (act (W.cluster.view w))) → n' = n)
    (hbreak : ∀ act next, (W.cluster.process w).code = .stmt act next →
      U (W.cluster.view w) (act (W.cluster.view w)) → n' ≤ n + 1) :
    Guarded T U id n' (watch rules W (.exec w)) := by
  obtain ⟨o, hrights⟩ := h.rights
  cases hcode : (W.cluster.process w).code with
  | ret a =>
    have hn : n' = n := hquiet (fun e act next _ hstmt => by rw [hcode] at hstmt; cases hstmt)
    exact hn ▸ guarded_idle h hcode
  | stmt act next =>
    obtain ⟨e, he⟩ := h.covered w (by simp [Watch.idle, hcode])
    obtain ⟨_, hstays⟩ := loyal_next h he hcode
    have hquiet' : T e (W.cluster.view w) (act (W.cluster.view w)) → n' = n := by
      refine fun hT => hquiet (fun e' act' next' he' hstmt => ?_)
      rw [hcode] at hstmt
      cases hstmt
      rwa [h.single w e' e he' he]
    have hfresh : n' = n →
        ¬ Retired JobStatus.terminal id (act (W.cluster.view w)).shared → n' = 0 :=
      fun hn hnot => hn.trans (h.fresh (fun hretired => hnot (hstays hretired)))
    have hright := hrights w e he
    rw [hcode] at hright
    obtain hT | ⟨hcompletes, huntil⟩ | ⟨hn, hw, hretired, honce⟩ := hright
    · obtain ⟨hT, hrest⟩ := hT (W.cluster.view w)
      have hsame := hquiet' hT
      exact guarded_stmt o h hrights he hcode (hsame ▸ h.atMost) (hfresh hsame) (Or.inl hrest)
        (fun _ _ hn hu _ => ⟨hsame.trans hn, hu⟩)
    · obtain ⟨hT, hrest⟩ | ⟨hcrosses, hrest⟩ := huntil (W.cluster.view w) ⟨rfl, fun hid => hid⟩
      · have hsame := hquiet' hT
        exact guarded_stmt o h hrights he hcode (hsame ▸ h.atMost) (hfresh hsame)
          (Or.inr (Or.inl ⟨hcompletes, hrest⟩)) (fun _ _ hn hu _ => ⟨hsame.trans hn, hu⟩)
      · have hopen := open_of_crosses he hcompletes hcode hcrosses.settles hnot
        have hn' : n' = 0 := (hquiet' hcrosses.kept).trans (h.fresh hopen)
        exact guarded_stmt w h hrights he hcode (by omega) (fun _ => hn')
          (Or.inr (Or.inr ⟨hn', rfl, hcrosses.retired, hrest⟩))
          (fun _ _ _ _ hretired => absurd hretired hopen)
    · obtain ⟨hT, hrest⟩ | ⟨hU, hrest⟩ := honce (W.cluster.view w)
      · have hn' : n' = 0 := (hquiet' hT).trans hn
        exact guarded_stmt o h hrights he hcode (by omega) (fun _ => hn')
          (Or.inr (Or.inr ⟨hn', hw, hstays hretired, hrest⟩)) (fun _ _ _ hu _ => ⟨hn', hu⟩)
      · have hn' := hbreak act next hcode hU
        exact guarded_stmt o h hrights he hcode (by omega)
          (fun hnot => absurd (hstays hretired) hnot) (Or.inl hrest)
          (fun u hne _ hu _ => absurd (hu.trans hw.symm) hne)

def Conforms (T : Errand Work Memory → World → World → Prop) (U : World → World → Prop) (id : Id) :
    Prop :=
  ∀ e v, v.mem = e.mem → Always (T e) e.work.code ∨ completes e.work = true ∧
    Until (Rely id) (T e) (Crosses (T e) id) (Once (T e) U) (fun _ => True) e.work.code v

theorem guarded_step (hT : Conforms T U id) (h : Guarded T U id n W) {a : Step}
    (hnot : ¬ Overtaken W a)
    (hquiet : (∀ w e act next, a = .exec w → (w, e) ∈ W.errands →
      (W.cluster.process w).code = .stmt act next →
      T e (W.cluster.view w) (act (W.cluster.view w))) → n' = n)
    (hbreak : ∀ w act next, a = .exec w → (W.cluster.process w).code = .stmt act next →
      U (W.cluster.view w) (act (W.cluster.view w)) →
      n' ≤ n + 1) : Guarded T U id n' (watch rules W a) := by
  obtain ⟨o, hrights⟩ := h.rights
  cases a with
  | start w work =>
    obtain rfl : n' = n := hquiet (by rintro _ _ _ _ ⟨⟩)
    have hshared : (rules.start W.cluster w work).shared = W.cluster.shared := by
      simp only [Rules.start]
      split <;> rfl
    refine ⟨covered_step h.covered _, single_step h.single _, ?_, ?_, h.atMost, o, ?_⟩
    · exact keeping_start h.loyal (fun _ => loyal_work id work)
    · simp only [watch, Rules.step, hshared]
      exact h.fresh
    · exact keeping_start hrights
        (fun _ => (hT ⟨work, (W.cluster.process w).mem⟩ _ rfl).imp_right Or.inl)
  | exec w =>
    refine guarded_exec h hnot (fun hall => hquiet (fun u e act next hu => ?_))
      (fun act next => hbreak w act next rfl)
    cases hu
    exact hall e act next
  | kill w =>
    obtain rfl : n' = n := hquiet (by rintro _ _ _ _ ⟨⟩)
    have hretired : Retired JobStatus.terminal id W.cluster.shared →
        Retired JobStatus.terminal id (rules.die w W.cluster.shared) := retired_of_jobs rfl
    refine ⟨covered_step h.covered _, single_step h.single _, ?_, ?_, h.atMost, o, ?_⟩
    · exact keeping_kill h.loyal (fun _ _ _ _ hold => hold)
    · exact fun hnot => h.fresh (fun hold => hnot (hretired hold))
    · exact keeping_kill hrights (fun u e _ _ hold => right_others hold (grown_of_tables rfl rfl)
        (fun hn hu hold => ⟨hn, hu, hretired hold⟩))
  | wait ms =>
    obtain rfl : n' = n := hquiet (by rintro _ _ _ _ ⟨⟩)
    have hretired : Retired JobStatus.terminal id W.cluster.shared →
        Retired JobStatus.terminal id (rules.wait ms W.cluster.shared) := retired_of_jobs rfl
    refine ⟨covered_step h.covered _, single_step h.single _, ?_, ?_, h.atMost, o, ?_⟩
    · exact keeping_wait h.loyal (fun _ _ _ hold => hold)
    · exact fun hnot => h.fresh (fun hold => hnot (hretired hold))
    · exact keeping_wait hrights (fun u e _ hold => right_others hold (grown_of_tables rfl rfl)
        (fun hn hu hold => ⟨hn, hu, hretired hold⟩))

theorem guarded_initial (concurrency : Nat → Nat) (now : Ms) :
    Guarded T U id 0 ⟨Cluster.initial concurrency now, []⟩ where
  covered := fun _ hbusy => Bool.noConfusion hbusy
  single := fun _ _ _ he => absurd he List.not_mem_nil
  loyal := fun _ _ he => absurd he List.not_mem_nil
  fresh := fun _ => rfl
  atMost := Nat.zero_le 1
  rights := ⟨0, fun _ _ he => absurd he List.not_mem_nil⟩

/-- What is measured in the tables. -/
theorem measure_le_one {m : Shared → Nat} {concurrency : Nat → Nat} {now : Ms} {as : List Step}
    (hsilent : ∀ v v', Silent v v' → Same m v v') (hT : Measured (Same m) (OneMore m) id)
    (hother : ∀ k, k ≠ id → Indifferent (Same m) k)
    (htables : ∀ s s' : Shared, s'.db.events = s.db.events →
      s'.trace.filter isSettled = s.trace.filter isSettled →
      m s' = m s) (hzero : m { now := now } = 0)
    (h : Along (fun W a => ¬ Overtaken W a) (watch rules)
      ⟨Cluster.initial concurrency now, []⟩ as) :
    m (Cluster.run (Cluster.initial concurrency now) as).shared ≤ 1 := by
  have hconforms : Conforms (fun _ => Same m) (OneMore m) id := by
    rintro ⟨work, mem⟩ v -
    cases hcompletes : completes work with
    | false => exact Or.inl (always_mono hsilent (silent_work hcompletes))
    | true =>
      obtain ⟨i, outcome, random, rfl⟩ := eq_of_completes hcompletes
      exact Or.inr ⟨rfl, until_complete hT _ _ (fun task _ hne => hother _ hne)⟩
  have hrun : Guarded (fun _ => Same m) (OneMore m) id
      (m (Cluster.run (Cluster.initial concurrency now) as).shared)
      (play (watch rules) ⟨Cluster.initial concurrency now, []⟩ as) := by
    rw [Cluster.run, ← watch_cluster (W := ⟨Cluster.initial concurrency now, []⟩)]
    refine play_invariant (fun W => Guarded (fun _ => Same m) (OneMore m) id (m W.cluster.shared) W)
      ?_ ?_ h
    · intro W a hW ha
      refine guarded_step hconforms hW ha (fun hall => ?_) (fun w act next hexec hcode hU => ?_)
      · cases a with
        | start w work =>
          simp only [watch, Rules.step, Rules.start]
          split <;> rfl
        | exec w =>
          cases hcode : (W.cluster.process w).code with
          | ret a => simp only [watch, Rules.step, Rules.exec, hcode]
          | stmt act next =>
            obtain ⟨e, he⟩ := hW.covered w (by simp [Watch.idle, hcode])
            simp only [watch, Rules.step, Rules.exec, hcode]
            exact hall w e act next rfl he hcode
        | kill w => exact htables _ _ rfl (List.filter_cons_of_neg (by simp [isSettled]))
        | wait ms => exact htables _ _ rfl rfl
      · subst hexec
        simp only [watch, Rules.step, Rules.exec, hcode]
        exact hU
    · change Guarded (fun _ => Same m) (OneMore m) id (m { now := now }) _
      rw [hzero]
      exact guarded_initial concurrency now
  exact hrun.atMost

theorem moves_le_one (id : Id) {concurrency : Nat → Nat} {now : Ms} {as : List Step}
    (h : Along (fun W a => ¬ Overtaken W a) (watch rules) ⟨Cluster.initial concurrency now,
      []⟩ as) :
    count (moves id) (watch rules) ⟨Cluster.initial concurrency now, []⟩ as ≤ 1 := by
  let T : Errand Work Memory → World → World → Prop :=
    fun e v v' => jobOf e = some id → Same dueTimes v v'
  have hconforms : Conforms T (fun _ _ => True) id := by
    rintro ⟨work, mem⟩ v hmem
    by_cases hjob : jobOf ⟨work, mem⟩ = some id
    · have hcompletes : completes work = true := by
        obtain c | _ := work
        · cases c <;> first | rfl | cases hjob
        · cases hjob
      obtain ⟨i, outcome, random, rfl⟩ := eq_of_completes hcompletes
      have hT : T ⟨.call (.complete i outcome random), mem⟩ = Same dueTimes := by
        funext v v'
        exact propext ⟨fun h => h hjob, fun h _ => h⟩
      rw [hT]
      refine Or.inr ⟨rfl, until_complete (measured_dueTimes id) _ _ (fun task htask hne => ?_)⟩
      rw [hmem] at htask
      simp [jobOf, htask] at hjob
      exact absurd hjob hne
    · exact Or.inl (always_mono (fun _ _ _ h => absurd h hjob) (loyal_work id work))
  have hrun : Guarded T (fun _ _ => True) id
      (0 + count (moves id) (watch rules) ⟨Cluster.initial concurrency now, []⟩ as)
      (play (watch rules) ⟨Cluster.initial concurrency now, []⟩ as) := by
    refine play_counted (fun n W => Guarded T (fun _ _ => True) id n W) (fun n W a hW ha => ?_)
      (guarded_initial concurrency now) h
    refine guarded_step hconforms hW ha (fun hall => ?_) (fun _ _ _ _ _ _ => ?_)
    · have hstill : moves id W a = false := by
        refine decide_eq_false ?_
        rintro ⟨⟨⟨w, e⟩, he, hexec, hjob⟩, hchanged⟩
        obtain rfl := eq_of_executes hexec
        cases hcode : (W.cluster.process w).code with
        | ret a => simp [watch, Rules.step, Rules.exec, hcode] at hchanged
        | stmt act next =>
          refine hchanged ?_
          simp only [watch, Rules.step, Rules.exec, hcode]
          exact hall w e act next rfl he hcode hjob
      rw [hstill]
      rfl
    · cases moves id W a <;> simp
  rw [Nat.zero_add] at hrun
  exact hrun.atMost

theorem advances_le {key : String} {id : Id} {as : List Step}
    (h : Handover.contract.Honoured W.cluster)
    (hkey : ∀ j ∈ jobsWith key (Cluster.run W.cluster as).shared, j.id = id) :
    count (advances key) (watch rules) W as ≤ count (moves id) (watch rules) W as := by
  induction as generalizing W with
  | nil => exact le_refl 0
  | cons a as ih =>
    refine Nat.add_le_add ?_ (ih (Handover.honoured_step h a).1 hkey)
    cases hadvances : advances key W a with
    | false => exact Nat.zero_le _
    | true =>
      obtain ⟨⟨x, hx, hexec, j, hj, hjob⟩, hchanged⟩ := of_decide_eq_true hadvances
      obtain ⟨hj, hjkey⟩ := List.mem_filter.mp hj
      obtain ⟨j', hj', horigin⟩ := job_grown (grown_run h (a :: as)) hj
      have hkey' : j'.idempotencyKey = some key :=
        (congrArg JobOrigin.idempotencyKey horigin).trans (of_decide_eq_true hjkey)
      have hid : j.id = id := (congrArg JobOrigin.id horigin).symm.trans
        (hkey j' (List.mem_filter.mpr ⟨hj', decide_eq_true hkey'⟩))
      rw [show moves id W a = true from decide_eq_true ⟨⟨x, hx, hexec, hid ▸ hjob⟩, hchanged⟩]

end Guarded

/-- As long as no process settles a job that is terminal already, each job is recorded as completed once
and reported once, and each occurrence of a schedule moves it on once. -/
theorem settled_once (concurrency : Nat → Nat) (now : Ms) (as : List Step)
    (h : Along (fun W a => ¬ Overtaken W a) (watch rules) ⟨Cluster.initial concurrency now,
      []⟩ as) :
    let s := (Cluster.run (Cluster.initial concurrency now) as).shared
    (∀ id, completions id s ≤ 1 ∧ settlements id s ≤ 1) ∧
      ∀ (i : String) (t : Ms), (jobsWith (occurrenceKey i t) s).length ≤ 1 ∧
        count (advances (occurrenceKey i t)) (watch rules) ⟨Cluster.initial concurrency now,
          []⟩ as ≤ 1 := by
  intro s
  refine ⟨fun id => ⟨?_, ?_⟩, fun i t => ?_⟩
  · exact measure_le_one (fun _ _ => completions_silent) (measured_completions id)
      (fun _ => indifferent_completions)
      (fun _ _ hevents _ => by rw [completions, hevents, completions]) rfl h
  · exact measure_le_one (fun _ _ => settlements_silent) (measured_settlements id)
      (fun _ => indifferent_settlements)
      (fun _ _ _ htrace => settlements_eq htrace id) rfl h
  · have hlength := jobsWith_le_one (register_run concurrency now as) (occurrenceKey i t)
    refine ⟨hlength, ?_⟩
    obtain ⟨id, hid⟩ : ∃ id, ∀ j ∈ jobsWith (occurrenceKey i t) s, j.id = id := by
      match hjobs : jobsWith (occurrenceKey i t) s with
      | [] => exact ⟨0, fun _ hj => absurd hj List.not_mem_nil⟩
      | [j] => exact ⟨j.id, fun _ hj => by rw [List.mem_singleton.mp hj]⟩
      | _ :: _ :: _ =>
        rw [hjobs] at hlength
        simp at hlength
    exact (advances_le (Handover.honoured_initial concurrency now) hid).trans (moves_le_one id h)

def fired : List Step :=
  steps 0
    (.call (.createSchedule ⟨[⟨some "1", none⟩, ⟨some "2", none⟩], "hello", some 0, 0,
    some ⟨1, .minutes, none⟩, none⟩)) 3 ++ steps 0 (.call (.runTickIfReady true)) 20 ++
    steps 0 (.call .tick) 20 ++ steps 1 (.call .tick) 20

def finishing (n : Nat) : List Step :=
  fired ++ steps 0 (.call (.complete 2 (.results [(.sent, none)]) 0)) 8 ++
    steps 1 (.call (.complete 3 (.results [(.sent, none)]) 0)) n ++ List.replicate 15 (.exec 0) ++
    List.replicate 15 (.exec 1)

/-- The other process finds the job settled. -/
theorem settled_once_late :
    let s := (Cluster.run (Cluster.initial (fun _ => 1) 0) (finishing 12)).shared
    (∀ id, completions id s ≤ 1 ∧ settlements id s ≤ 1) ∧
      ∀ (i : String) (t : Ms), (jobsWith (occurrenceKey i t) s).length ≤ 1 ∧
        count (advances (occurrenceKey i t)) (watch rules) ⟨Cluster.initial (fun _ => 1) 0, []⟩
          (finishing 12) ≤ 1 :=
  settled_once (fun _ => 1) 0 (finishing 12) (by decide +kernel)

/-- Both processes find the job open with all its items done with. -/
theorem settled_once_fails :
    let s := (Cluster.run (Cluster.initial (fun _ => 1) 0) (finishing 11)).shared
    completions 1 s = 2 ∧ settlements 1 s = 2 ∧
      count (advances (occurrenceKey "0" 0)) (watch rules) ⟨Cluster.initial (fun _ => 1) 0, []⟩
        (finishing 11) = 2 ∧
      s.now = 0 ∧ s.db.schedules.map (·.nextRunAt) = [120000] := by
  decide +kernel

end WhatsappTester.Jobs.Settlement
