import WhatsappTester.Cluster
import WhatsappTester.Jobs.Custody

namespace WhatsappTester.Jobs.Retirement

open Schema State Atomic Atomic.Program Statements JobService Claiming Worker Process
  Custody Cluster

structure Retired (p : JobStatus → Bool) (id : Id) (s : Shared) : Prop where
  known : id ∈ jobIds s
  status : ∀ j ∈ s.db.jobs, j.id = id → p j.status = true

/-- Neither queued nor running, and all that is terminal. -/
structure Inactive (p : JobStatus → Bool) : Prop where
  queued : p .queued = false
  running : p .running = false
  terminal : ∀ status, status.terminal = true → p status = true

theorem not_going {p : JobStatus → Bool} (hp : Inactive p) {status : JobStatus}
    (h : p status = true) : status ∉ [JobStatus.queued, .running] := by
  intro hstatus
  simp only [List.mem_cons, List.not_mem_nil, or_false] at hstatus
  obtain rfl | rfl := hstatus
  · exact Bool.eq_false_iff.mp hp.queued h
  · exact Bool.eq_false_iff.mp hp.running h

def Stays (p : JobStatus → Bool) (id : Id) (v v' : World) : Prop :=
  Retired p id v.shared → Retired p id v'.shared

section Stays

variable {p : JobStatus → Bool} {id : Id} {v v' : World}

theorem inactive_terminal : Inactive JobStatus.terminal := ⟨rfl, rfl, fun _ h => h⟩

theorem retired_of_jobs {s s' : Shared} (hjobs : s'.db.jobs = s.db.jobs) (h : Retired p id s) :
    Retired p id s' := by
  refine ⟨?_, ?_⟩
  · rw [jobIds, hjobs]
    exact h.known
  · rw [hjobs]
    exact h.status

theorem stays_of_jobs (hjobs : v'.shared.db.jobs = v.shared.db.jobs) :
    Stays p id v v' := retired_of_jobs hjobs

theorem stays_aside : Lenient (Stays p id) := fun _ _ h => stays_of_jobs h.jobs

theorem stays_memo (h : Memo v v') : Stays p id v v' := stays_of_jobs (by rw [h.shared])

theorem stays_web (h : Web v v') :
    Stays p id v v' := stays_of_jobs (congrArg JobSide.jobs h.jobSide)

theorem retired_updateJobs {q : Job → Bool} {f : Job → Job} (hid : ∀ j, (f j).id = j.id)
    (hp : ∀ j, j.id = id → p (if q j then f j else j).status = true) (h : id ∈ jobIds v.shared) :
    Retired p id { v.shared with db.jobs := Table.update q f v.shared.db.jobs } := by
  refine ⟨?_, Table.forall_update.mpr (fun j _ hj => hp j ?_)⟩
  · rw [jobIds, Table.map_update (fun j _ => hid j)]
    exact h
  · split at hj
    · exact (hid j).symm.trans hj
    · exact hj

theorem stays_updateJobs {q : Job → Bool} {f : Job → Job} (hid : ∀ j, (f j).id = j.id)
    (hf : ∀ j, j.id = id → q j = true → p j.status = true → p (f j).status = true) :
    Always (Stays p id) (updateJobs q f) := by
  refine always_update _ (fun v h => ⟨?_, fun j' hj' hid' => ?_⟩)
  · rw [jobIds, Table.map_update (fun j _ => hid j)]
    exact h.known
  · obtain ⟨j, hj, rfl⟩ := Table.mem_update.mp hj'
    split
    case isTrue hq =>
      rw [if_pos hq, hid] at hid'
      exact hf j hid' hq (h.status j hj hid')
    case isFalse hq =>
      rw [if_neg hq] at hid'
      exact h.status j hj hid'

theorem stays_insertJobAndItems (id' : Id) (now : Ms) (a : CreateJobArgs) :
    Always (Stays p id) (insertJobAndItems id' now a) := by
  refine always_update _ (fun v h => ?_)
  cases htransaction : createTransaction id' now a v.shared.uuid v.shared.db with
  | error err => exact ⟨h.known, h.status⟩
  | ok db =>
    obtain ⟨rfl, hfresh, _⟩ := createTransaction_ok htransaction
    refine ⟨?_, fun j hj hid => ?_⟩
    · simp only [jobIds, List.map_append, List.mem_append]
      exact Or.inl h.known
    · obtain hj | hj := List.mem_append.mp hj
      · exact h.status j hj hid
      · obtain rfl := List.mem_singleton.mp hj
        obtain ⟨j', hj', hid'⟩ := List.mem_map.mp h.known
        exact absurd (hid'.trans hid.symm) (hfresh j' hj')

theorem stays_callCreateJob (a : CreateJobArgs) : Always (Stays p id) (callCreateJob a) := by
  refine always_callCreateJob stays_aside.tolerant a
    (fun id' now => stays_insertJobAndItems id' now a) ?_
  intro result v
  cases result <;> exact stays_of_jobs rfl

theorem stays_settledJob (hp : Inactive p) (q : Job → Bool) {status : JobStatus}
    (h : status.terminal = true) (now : Ms) :
    Always (Stays p id) (updateJobs q (settledJob status now)) :=
  stays_updateJobs (fun _ => rfl) (fun _ _ _ _ => hp.terminal status h)

theorem stays_updateSchedules (q : Schedule → Bool) (f : Schedule → Schedule) :
    Always (Stays p id) (updateSchedules q f) := always_update _ (fun _ => stays_of_jobs rfl)

theorem stays_updateItemsRecord (q : JobItem → Bool) (f : JobItem → JobItem) (e : World → Event) :
    Always (Stays p id) (updateItemsRecord q f e) := always_update _ (fun _ => stays_of_jobs rfl)

theorem stays_tick (hp : Inactive p) : Always (Stays p id) tick := by
  refine always_tick stays_aside.tolerant
    (always_tickLoop (fun _ _ => stays_memo) ?_ (fun item => ?_))
  · refine always_claimNextItem stays_aside.tolerant (fun now => always_update _ (fun v => ?_))
    cases nextClaimable v.shared.db now <;> exact stays_of_jobs rfl
  · refine always_processItem item ?_ (fun n => ?_)
      (fun n => always_exec (fun _ => stays_of_jobs rfl))
    · refine always_markItemRunning stays_aside.tolerant _
        (fun now => always_update _ (fun _ => stays_of_jobs rfl))
        (fun id' now => stays_updateJobs (fun _ => rfl) (fun j _ hq hretired => ?_))
      rw [(of_decide_eq_true hq).2, hp.queued] at hretired
      cases hretired
    · exact always_recordAttemptStart stays_aside _ n (fun now => stays_updateItemsRecord _ _ _)

theorem stays_recordOutcome (task : Task) (outcome : SendOutcome) (random : Nat) :
    Always (Stays p id) (recordOutcome task outcome random) := by
  refine always_recordOutcome stays_aside (fun _ _ => stays_memo) task outcome random
    (fun _ _ _ => ?_) (fun status _ _ _ => ?_)
  · exact always_scheduleRetry stays_aside.tolerant _ _ _ _ (fun _ => stays_updateItemsRecord _ _ _)
  · refine always_markItemTerminal stays_aside.tolerant _ (fun _ => stays_updateItemsRecord _ _ _)
      (fun _ now => stays_updateJobs
        (fun j => congrArg JobOrigin.id (addCounter_origin status now j))
        (fun j _ _ hretired => ?_))
    cases status <;> exact hretired

theorem stays_checkJobCompletion (hp : Inactive p) (jobId : Id) :
    Always (Stays p id) (checkJobCompletion jobId) :=
  always_checkJobCompletion stays_aside jobId (fun _ now hstatus =>
    stays_settledJob hp _ hstatus now)

theorem stays_complete (hp : Inactive p) (i : Id) (outcome : SendOutcome) (random : Nat) :
    Always (Stays p id) (complete i outcome random) := by
  refine always_bind (always_read stays_aside.tolerant _) (fun task => ?_)
  cases task with
  | none => exact always_pure ()
  | some task =>
    refine always_bind (stays_recordOutcome task outcome random) (fun _ => ?_)
    refine always_bind (always_settle _ (stays_checkJobCompletion hp _) (fun view => ?_))
      (fun _ => always_exec (fun _ => stays_of_jobs rfl))
    exact always_onJobSettled stays_aside view stays_updateSchedules

theorem stays_cancelJob (hp : Inactive p) (id' : Id) (actor : Option String) :
    Always (Stays p id) (cancelJob id' actor) :=
  always_cancelJob stays_aside.tolerant id' actor (fun now => stays_settledJob hp _ rfl now)
    (fun _ => stays_updateItemsRecord _ _ _)

theorem stays_pauseJob (hp : Inactive p) (id' : Id) (actor : Option String) :
    Always (Stays p id) (pauseJob id' actor) := by
  refine always_changeStatus stays_aside.tolerant id' _ (movedJob .paused) (fun _ => rfl)
    (fun now => stays_updateJobs (fun _ => rfl) (fun j _ hq hretired => ?_))
  exact absurd (of_decide_eq_true hq).2 (not_going hp hretired)

theorem stays_resumeJob {id' : Id} (actor : Option String) (h : p .paused = false ∨ id' ≠ id) :
    Always (Stays p id) (resumeJob id' actor) := by
  refine always_changeStatus stays_aside.tolerant id' _ (movedJob .queued) (fun _ => rfl)
    (fun now => stays_updateJobs (fun _ => rfl) (fun j hid hq hretired => ?_))
  obtain ⟨hid', hstatus⟩ := of_decide_eq_true hq
  obtain hpaused | hne := h
  · rw [hstatus, hpaused] at hretired
    cases hretired
  · exact absurd (hid'.symm.trans hid) hne

def resumes (id : Id) : Work → Bool
  | .call (.resumeJob id' _) => decide (id' = id)
  | _ => false

theorem stays_work (hp : Inactive p) (work : Work)
    (h : p .paused = false ∨ resumes id work = false) :
    Always (Stays p id) work.code := by
  have hweb : ∀ {q : Code Unit}, Always Web q → Always (Stays p id) q :=
    fun h => always_mono (fun _ _ => stays_web) h
  cases work with
  | recover =>
    exact always_bind (always_recoverStaleClaims stays_aside.tolerant
      (fun _ => always_update _ (fun _ => stays_of_jobs rfl))) (fun _ => always_pure ())
  | call c =>
    cases c with
    | tick => exact stays_tick hp
    | complete i outcome random => exact stays_complete hp i outcome random
    | createJob args => exact always_bind (stays_callCreateJob args) (fun _ => always_pure ())
    | cancelJob id' actor => exact always_bind (stays_cancelJob hp id' actor) (fun _ => always_pure ())
    | pauseJob id' actor => exact always_bind (stays_pauseJob hp id' actor) (fun _ => always_pure ())
    | resumeJob id' actor =>
      refine always_bind (stays_resumeJob actor (h.imp_right (fun hother => ?_)))
        (fun _ => always_pure ())
      simpa [resumes] using hother
    | createSchedule input =>
      exact always_create stays_aside.tolerant input
        (fun _ _ _ => always_exec (fun _ => stays_of_jobs rfl))
    | removeSchedule id' => exact always_exec (fun _ => stays_of_jobs rfl)
    | runTickIfReady ready =>
      exact always_runTickIfReady stays_aside.tolerant stays_callCreateJob
        stays_updateSchedules ready
    | setOutboundDisabled disabled actor reason => exact hweb (web_setOutboundDisabled _ _ _ _)
    | drainAndStop => exact always_exec (fun _ => stays_of_jobs rfl)
    | request r ready => exact hweb (web_request r ready)
    | answered id' answer ready => exact hweb (web_answered id' answer ready)
    | delayOver id' ready => exact hweb (web_delayOver id' ready)
    | sweepExpiredIdempotencyKeys => exact hweb web_sweepExpiredIdempotencyKeys

end Stays

end WhatsappTester.Jobs.Retirement
