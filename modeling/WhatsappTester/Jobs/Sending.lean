import WhatsappTester.Jobs.Standing

namespace WhatsappTester.Jobs.Sending

open Schema State Atomic.Program Statements JobService Claiming Worker Process Standing

def sentItem : Event → Option Id
  | .sent _ item _ => some item
  | _ => none

def sends (s : Shared) : List Id := s.trace.filterMap sentItem

def isHandoff : Event → Bool
  | .claimed .. | .sent .. | .died .. => true
  | _ => false

def Handless (v v' : World) : Prop :=
  v'.shared.trace.filter isHandoff = v.shared.trace.filter isHandoff

def Unsent (v v' : World) : Prop := sends v'.shared = sends v.shared

theorem sends_cons {e : Event} (he : sentItem e = none) (s : Shared) :
    sends { s with trace := e :: s.trace } = sends s := List.filterMap_cons_none he

theorem unsent_trans {u v w : World} (h : Unsent u v) (h' : Unsent v w) :
    Unsent u w := Eq.trans h' h

theorem sends_handoffs (s : Shared) : sends s = (s.trace.filter isHandoff).filterMap sentItem := by
  rw [sends, List.filterMap_filter]
  refine List.filterMap_congr (fun e _ => ?_)
  cases e <;> rfl

theorem unsent_handless {v v' : World} (h : Handless v v') : Unsent v v' := by
  rw [Unsent, sends_handoffs, h, sends_handoffs]

theorem handless_itemless {v v' : World} (h : Itemless v v') : Handless v v' :=
  filter_of_custody (by intro e he; cases e <;> first | rfl | cases he) h.custody

theorem handless_aside : Lenient Handless := fun _ _ h => handless_itemless h.toItemless

theorem handless_memo {v v' : World} (h : Memo v v') :
    Handless v v' := handless_itemless h.toItemless

theorem handless_web {v v' : World} (h : Web v v') : Handless v v' :=
  filter_of_notWeb (by intro e he; cases e <;> first | rfl | cases he)
    (congrArg JobSide.events h.jobSide)

theorem handless_updateJobs (p : Job → Bool) (f : Job → Job) : Always Handless (updateJobs p f) :=
  always_update _ (fun _ => rfl)

theorem handless_updateItems (p : JobItem → Bool) (f : JobItem → JobItem) :
    Always Handless (updateItems p f) :=
  always_update _ (fun _ => rfl)

theorem handless_updateItemsRecord (p : JobItem → Bool) (f : JobItem → JobItem) {e : World → Event}
    (he : ∀ w, isHandoff (e w) = false) : Always Handless (updateItemsRecord p f e) :=
  always_update _ (fun w => List.filter_cons_of_neg (by simp [he w]))

theorem handless_updateSchedules (p : Schedule → Bool) (f : Schedule → Schedule) :
    Always Handless (updateSchedules p f) := always_update _ (fun _ => rfl)

theorem handless_callCreateJob (a : CreateJobArgs) : Always Handless (callCreateJob a) := by
  refine always_callCreateJob handless_aside.tolerant a
    (fun id now => always_update _ (fun v => ?_)) ?_
  · cases createTransaction id now a v.shared.uuid v.shared.db <;> rfl
  · intro result v
    cases result <;> rfl

theorem handless_markItemRunning (i : Id) : Always Handless (markItemRunning i) :=
  always_markItemRunning handless_aside.tolerant i (fun _ => handless_updateItems _ _)
    (fun _ _ => handless_updateJobs _ _)

theorem handless_recordAttemptStart (i : Id) (n : Nat) : Always Handless (recordAttemptStart i n) :=
  always_recordAttemptStart handless_aside i n
    (fun _ => handless_updateItemsRecord _ _ (fun _ => rfl))

theorem unsent_markItemRunning (i : Id) : Always Unsent (markItemRunning i) :=
  always_mono (fun _ _ => unsent_handless) (handless_markItemRunning i)

theorem unsent_recordAttemptStart (i : Id) (n : Nat) : Always Unsent (recordAttemptStart i n) :=
  always_mono (fun _ _ => unsent_handless) (handless_recordAttemptStart i n)

theorem unsent_claimRow (row : JobItem) (now : Ms) (v : World) : Unsent v (claimRow row now v) :=
  List.filterMap_cons_none rfl

theorem handless_recoverStaleClaims : Always Handless recoverStaleClaims :=
  always_recoverStaleClaims handless_aside.tolerant (fun _ => handless_updateItems _ _)

theorem unsent_recoverStaleClaims : Always Unsent recoverStaleClaims :=
  always_mono (fun _ _ => unsent_handless) handless_recoverStaleClaims

theorem unsent_boot (v : World) : Unsent { v with mem := fresh v.mem.pid v.mem } (boot v) :=
  boot_respects (T := Unsent) (fun _ => rfl) (fun _ _ _ => unsent_trans) unsent_recoverStaleClaims v

theorem handless_complete (i : Id) (outcome : SendOutcome) (random : Nat) :
    Always Handless (complete i outcome random) := by
  refine always_bind (always_read handless_aside.tolerant _) (fun task => ?_)
  cases task with
  | none => exact always_pure ()
  | some task =>
    refine always_bind (always_recordOutcome handless_aside (fun _ _ => handless_memo) task
      outcome random
      (fun _ _ _ => ?_) (fun _ _ _ _ => ?_)) (fun _ => ?_)
    · exact always_scheduleRetry handless_aside.tolerant _ _ _ _
        (fun _ => handless_updateItemsRecord _ _ (fun _ => rfl))
    · exact always_markItemTerminal handless_aside.tolerant _
        (fun _ => handless_updateItemsRecord _ _ (fun _ => rfl))
        (fun _ _ => handless_updateJobs _ _)
    · exact always_bind (always_mono (fun _ _ => handless_itemless) (itemless_settle _))
        (fun _ => always_exec (fun _ => rfl))

theorem handless_call {c : Call} (htick : c ≠ .tick) : Always Handless c.code := by
  have hweb : ∀ {p : Code Unit}, Always Web p → Always Handless p :=
    fun h => always_mono (fun _ _ => handless_web) h
  have hitemless : ∀ {α : Type} {p : Code α}, Always Itemless p → Always Handless p :=
    fun h => always_mono (fun _ _ => handless_itemless) h
  cases c with
  | tick => exact absurd rfl htick
  | complete i outcome random => exact handless_complete i outcome random
  | createJob args => exact always_bind (handless_callCreateJob args) (fun _ => always_pure ())
  | cancelJob id actor =>
    exact always_bind (always_cancelJob handless_aside.tolerant id actor
      (fun _ => handless_updateJobs _ _)
      (fun _ => handless_updateItemsRecord _ _ (fun _ => rfl))) (fun _ => always_pure ())
  | pauseJob id actor => exact always_bind (hitemless (itemless_pauseJob id actor)) (fun _ => always_pure ())
  | resumeJob id actor => exact always_bind (hitemless (itemless_resumeJob id actor)) (fun _ => always_pure ())
  | createSchedule input => exact hitemless (itemless_create input)
  | removeSchedule id => exact hitemless (itemless_remove id)
  | runTickIfReady ready =>
    exact always_runTickIfReady handless_aside.tolerant handless_callCreateJob
      handless_updateSchedules ready
  | setOutboundDisabled disabled actor reason => exact hweb (web_setOutboundDisabled _ _ _ _)
  | drainAndStop => exact hitemless itemless_drainAndStop
  | request r ready => exact hweb (web_request r ready)
  | answered id answer ready => exact hweb (web_answered id answer ready)
  | delayOver id ready => exact hweb (web_delayOver id ready)
  | sweepExpiredIdempotencyKeys => exact hweb web_sweepExpiredIdempotencyKeys

theorem unsent_call {c : Call} (htick : c ≠ .tick) : Always Unsent c.code :=
  always_mono (fun _ _ => unsent_handless) (handless_call htick)

def Further (v v' : World) : Prop := ∃ new, sends v'.shared = new ++ sends v.shared

theorem further_refl (v : World) : Further v v := ⟨[], rfl⟩

theorem further_trans {u v w : World} (h : Further u v) (h' : Further v w) : Further u w := by
  obtain ⟨new, hnew⟩ := h
  obtain ⟨new', hnew'⟩ := h'
  exact ⟨new' ++ new, by rw [hnew', hnew, List.append_assoc]⟩

theorem further_unsent {v v' : World} (h : Unsent v v') : Further v v' := ⟨[], h⟩

theorem further_aside : Lenient Further := fun v v' h =>
    further_unsent (unsent_handless (handless_aside v v' h))

theorem further_tickLoop (rounds : Nat) : Always Further (tickLoop rounds) := by
  refine always_tickLoop (fun _ _ h => further_unsent (unsent_handless (handless_memo h))) ?_
    (fun item => ?_) rounds
  · refine always_claimNextItem further_aside.tolerant (fun now => always_update _ (fun v => ?_))
    cases nextClaimable v.shared.db now with
    | none => exact further_refl v
    | some row => exact further_unsent (unsent_claimRow row now v)
  · have hunsent : ∀ {p : Code Unit}, Always Unsent p → Always Further p :=
      fun h => always_mono (fun _ _ => further_unsent) h
    refine always_processItem item (hunsent (unsent_markItemRunning _))
      (fun n => hunsent (unsent_recordAttemptStart _ n)) (fun n => always_exec (fun v => ?_))
    exact ⟨[item.id], List.filterMap_cons_some rfl⟩

theorem further_call (c : Call) : Always Further c.code := by
  by_cases htick : c = .tick
  · subst htick
    exact always_tick further_aside.tolerant further_tickLoop
  · exact always_mono (fun _ _ => further_unsent) (unsent_call htick)

def started (s s' : Shared) : List Id := (sends s').take ((sends s').length - (sends s).length)

theorem started_eq {s s' : Shared} {new : List Id} (h : sends s' = new ++ sends s) :
    started s s' = new := by
  rw [started, h, List.length_append, Nat.add_sub_cancel, List.take_left]

theorem started_of_unsent {s s' : Shared} (h : sends s' = sends s) : started s s' = [] :=
  started_eq (h.trans (List.nil_append _).symm)

theorem sends_cut {c : Call} {n : Nat} {v : World} {new : List Id}
    (h : sends (c.code.run v).2.shared = new ++ sends v.shared) :
    ∃ new', new' <:+ new ∧ sends (c.code.cut n v).shared = new' ++ sends v.shared := by
  obtain ⟨new', hnew'⟩ := always_cut further_refl (fun _ _ _ => further_trans) (further_call c) v n
  obtain ⟨rest, hrest⟩ := always_rest further_refl (fun _ _ _ => further_trans) (further_call c) v n
  have hparts : (rest ++ new') ++ sends v.shared = new ++ sends v.shared := by
    rw [← h, hrest, hnew', List.append_assoc]
  exact ⟨new', ⟨rest, List.append_cancel_right hparts⟩, hnew'⟩

theorem started_cut (c : Call) (n : Nat) (v : World) :
    started v.shared (c.code.cut n v).shared <:+ started v.shared (c.code.run v).2.shared := by
  obtain ⟨new, hnew⟩ := always_run further_refl (fun _ _ _ => further_trans) (further_call c) v
  obtain ⟨new', hsuffix, hnew'⟩ := sends_cut (n := n) hnew
  rwa [started_eq hnew, started_eq hnew']

end WhatsappTester.Jobs.Sending
