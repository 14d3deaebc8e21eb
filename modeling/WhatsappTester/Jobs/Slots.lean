import WhatsappTester.Atomic.Failing
import WhatsappTester.Statements

namespace WhatsappTester.Jobs.Slots

open Schema State Atomic.Program Atomic.Failing Atomic.Runs Statements Worker

/-- The statements at which the calls of one round of a tick throw, if they do. -/
structure Faults where
  claim : Option Nat
  process : Option Nat

/-- `_processItem` up to its `await`; it tells whether it came there. -/
def launch (item : JobItem) (fault : Option Nat) : Code Bool := do
  let attemptNumber := item.attemptCount + 1
  match ← failing fault (do
      JobService.markItemRunning item.id
      JobService.recordAttemptStart item.id attemptNumber) with
  | some _ => do
    startSend item attemptNumber
    pure true
  | none => do
    updateMemory (fun m => { m with inFlight := m.inFlight ++ [⟨item, attemptNumber⟩] })
    pure false

/-- How `_tick` comes to its end. -/
inductive Exit
  | returned | switchThrew | claimThrew
  deriving DecidableEq

/-- The `for (;;)` loop of a tick with the faults of its rounds. It also gives the items whose
processing has been rejected. -/
def tickLoop (faults : Nat → Faults) : Nat → Code (Exit × List Id)
  | 0 => pure (.returned, [])
  | rounds + 1 => do
    if ← tryAcquire then
      if ← canAttempt then do
        match ← failing (faults rounds).claim Claiming.claimNextItem with
        | none => pure (.claimThrew, [])
        | some none => do
          release
          pure (.returned, [])
        | some (some item) => do
          let sent ← launch item (faults rounds).process
          let rest ← tickLoop faults rounds
          pure (if sent then rest else (rest.1, item.id :: rest.2))
      else do
        release
        pure (.returned, [])
    else pure (.returned, [])

/-- A tick. The promises that it rejects are settled before the next step of the event loop. -/
def tick (switch : Option Nat) (faults : Nat → Faults) : Code Exit := do
  if ← query (·.mem.draining) then pure .returned
  else do
    match ← failing switch KillSwitch.isOutboundDisabled with
    | none => pure .switchThrew
    | some true => pure .returned
    | some false => do
      let free ← query (fun w => w.mem.semaphore.maxConcurrent - w.mem.semaphore.active)
      let (exit, rejected) ← tickLoop faults (free + 1)
      each finish rejected
      pure exit

/-- `_processItem` from its `await` on, `onJobSettled` included, whatever of it throws. -/
def complete (itemId : Id) (outcome : SendOutcome) (random : Nat) (fault : Option Nat) :
    Code Unit := do
  match ← query (fun w => w.mem.inFlight.find? (fun t => decide (t.item.id = itemId))) with
  | none => pure ()
  | some task => do
    let _ ← failing fault (do
      recordOutcome task outcome random
      settle task.item.jobId)
    finish itemId

inductive Action
  | tick (switch : Option Nat) (faults : Nat → Faults)
  | complete (itemId : Id) (outcome : SendOutcome) (random : Nat) (fault : Option Nat)
  | drainAndStop
  /-- Time passes, or others write to the database. -/
  | others (change : Shared → Shared)

def step (w : World) : Action → World
  | .tick switch faults => ((tick switch faults).run w).2
  | .complete itemId outcome random fault => ((complete itemId outcome random fault).run w).2
  | .drainAndStop => (drainAndStop.run w).2
  | .others change => { w with shared := change w.shared }

def initial (pid concurrency : Nat) (shared : Shared) : World :=
  ⟨shared, { pid := pid, semaphore := { maxConcurrent := concurrency } }⟩

def ClaimThrows (w : World) : Action → Prop
  | .tick switch faults => ((tick switch faults).run w).1 = .claimThrew
  | _ => False

/-- Every slot that is taken is that of an item in flight. -/
structure Balanced (concurrency : Nat) (w : World) : Prop where
  active : w.mem.semaphore.active = w.mem.inFlight.length
  bounded : w.mem.semaphore.active ≤ concurrency

def Elsewhere (v v' : World) : Prop := v'.mem = v.mem

theorem elsewhere_lenient : Lenient Elsewhere := fun _ _ h => h.mem

theorem elsewhere_claimNextItem : Always Elsewhere Claiming.claimNextItem := by
  refine always_claimNextItem elsewhere_lenient.tolerant (fun now => always_update _ (fun w => ?_))
  cases Claiming.nextClaimable w.shared.db now <;> rfl

theorem elsewhere_prepare (item : JobItem) (n : Nat) : Always Elsewhere (do
    JobService.markItemRunning item.id
    JobService.recordAttemptStart item.id n) := by
  refine always_bind (always_markItemRunning elsewhere_lenient.tolerant item.id
    (fun _ => always_update _ (fun _ => rfl)) (fun _ _ => always_update _ (fun _ => rfl))) ?_
  exact fun _ => always_recordAttemptStart elsewhere_lenient item.id n
    (fun _ => always_update _ (fun _ => rfl))

structure Slotless (v v' : World) : Prop where
  semaphore : v'.mem.semaphore = v.mem.semaphore
  inFlight : v'.mem.inFlight = v.mem.inFlight

theorem slotless_lenient : Lenient Slotless := fun _ _ h => ⟨congrArg _ h.mem, congrArg _ h.mem⟩

theorem slotless_updateJobs (p : Job → Bool) (f : Job → Job) : Always Slotless (updateJobs p f) :=
  always_update _ (fun _ => ⟨rfl, rfl⟩)

theorem slotless_canAttempt : Always Slotless canAttempt := always_update _ (fun _ => ⟨rfl, rfl⟩)

theorem slotless_record (task : Task) (outcome : SendOutcome) (random : Nat) : Always Slotless (do
    recordOutcome task outcome random
    settle task.item.jobId) := by
  have hrow : ∀ p f e, Always Slotless (updateItemsRecord p f e) :=
    fun _ _ _ => always_update _ (fun _ => ⟨rfl, rfl⟩)
  have hfinish : ∀ itemId n outcome category detail, Always Slotless
      (JobService.recordAttemptFinish itemId n outcome category detail) :=
    always_recordAttemptFinish slotless_lenient
  have hretry : ∀ itemId at' category detail, Always Slotless
      (JobService.scheduleRetry itemId at' category detail) :=
    fun _ _ _ _ => always_scheduleRetry slotless_lenient.tolerant _ _ _ _ (fun _ => hrow _ _ _)
  have hterminal : ∀ itemId status category detail, Always Slotless
      (JobService.markItemTerminal itemId status category detail) :=
    fun _ _ _ _ => always_markItemTerminal slotless_lenient.tolerant _ (fun _ => hrow _ _ _)
      (fun _ _ => slotless_updateJobs _ _)
  refine always_bind ?_ (fun _ => ?_)
  · simp only [recordOutcome]
    refine always_bind (hfinish _ _ _ _ _) (fun _ => ?_)
    split
    · exact always_bind (always_exec (fun _ => ⟨rfl, rfl⟩)) (fun _ => hterminal _ _ _ _)
    · refine always_bind (always_exec (fun _ => ⟨rfl, rfl⟩)) (fun _ => ?_)
      split
      · exact always_bind (always_read slotless_lenient.tolerant _) (fun _ => hretry _ _ _ _)
      · exact hterminal _ _ _ _
  · exact always_settle _
      (always_checkJobCompletion slotless_lenient _ (fun _ _ _ => slotless_updateJobs _ _))
      (fun view => always_onJobSettled slotless_lenient view
        (fun _ _ => always_update _ (fun _ => ⟨rfl, rfl⟩)))

/-- The slots of a worker with its items in flight, and some slots more. -/
structure Taken (concurrency : Nat) (flight : List Task) (more : Nat) (w : World) : Prop where
  inFlight : w.mem.inFlight = flight
  slots : w.mem.semaphore.maxConcurrent = concurrency
  active : w.mem.semaphore.active = flight.length + more
  bounded : w.mem.semaphore.active ≤ concurrency

section Taken

variable {concurrency more : Nat} {flight : List Task} {w : World}

theorem balanced_iff (h : Taken concurrency flight more w) : Balanced concurrency w ↔ more = 0 := by
  constructor
  · intro hbalanced
    have := h.active.symm.trans hbalanced.active
    rw [h.inFlight] at this
    omega
  · rintro rfl
    exact ⟨by rw [h.active, h.inFlight, Nat.add_zero], h.bounded⟩

theorem ends_slotless {α : Type} {p : Code α} (hp : Always Slotless p)
    (h : Taken concurrency flight more w) :
    Ends p (fun _ t => Taken concurrency flight more t) w := by
  refine ends_always (fun s t hs hst => ?_) hp h
  exact ⟨hst.inFlight.trans hs.inFlight, by rw [hst.semaphore, hs.slots],
    by rw [hst.semaphore, hs.active], by rw [hst.semaphore]; exact hs.bounded⟩

theorem slotless_elsewhere {α : Type} {p : Code α} (hp : Always Elsewhere p) :
    Always Slotless p :=
  always_mono (fun _ _ h => ⟨congrArg _ h, congrArg _ h⟩) hp

theorem ends_tryAcquire (h : Taken concurrency flight 0 w) :
    Ends tryAcquire (fun acquired t =>
      Taken concurrency flight (if acquired then 1 else 0) t) w := by
  rw [Ends, tryAcquire, wp_update]
  rintro _ rfl
  refine ⟨trivial, ?_⟩
  by_cases hroom : w.mem.semaphore.active < w.mem.semaphore.maxConcurrent
  · rw [Breaker.tryAcquire_granted hroom]
    exact ⟨h.inFlight, h.slots, by rw [h.active]; rfl, by rw [← h.slots]; exact hroom⟩
  · rw [Breaker.tryAcquire_refused (Nat.le_of_not_lt hroom)]
    exact h

theorem ends_release (h : Taken concurrency flight 1 w) :
    Ends release (fun _ t => Taken concurrency flight 0 t) w := by
  rw [Ends, release, updateMemory, wp_exec]
  rintro _ rfl
  refine ⟨trivial, h.inFlight, h.slots, ?_, Nat.le_trans (Nat.sub_le _ _) h.bounded⟩
  simp only [Breaker.release, h.active, Nat.add_sub_cancel, Nat.add_zero]

theorem taken_launched (h : Taken concurrency flight 1 w) (task : Task) {t : World}
    (hflight : t.mem.inFlight = w.mem.inFlight ++ [task])
    (hsemaphore : t.mem.semaphore = w.mem.semaphore) :
    Taken concurrency (flight ++ [task]) 0 t := by
  refine ⟨by rw [hflight, h.inFlight], by rw [hsemaphore, h.slots], ?_,
    by rw [hsemaphore]; exact h.bounded⟩
  rw [hsemaphore, h.active, List.length_append, List.length_singleton, Nat.add_zero]

theorem ends_launch (item : JobItem) (fault : Option Nat) (h : Taken concurrency flight 1 w) :
    Ends (launch item fault) (fun _ t =>
      Taken concurrency (flight ++ [⟨item, item.attemptCount + 1⟩]) 0 t) w := by
  refine wp_seq (ends_slotless (always_failing (slotless_elsewhere
    (elsewhere_prepare item _)) fault) h) (fun prepared t ht => ?_)
  cases prepared with
  | none =>
    rintro _ rfl
    exact ⟨trivial, taken_launched ht _ rfl rfl⟩
  | some u =>
    rintro _ rfl
    exact ⟨trivial, taken_launched ht _ rfl rfl⟩

/-- What the loop leaves: the items it has launched, and a slot to which no item belongs if
`claimNextItem` threw. -/
def Left (concurrency : Nat) (flight : List Task) (r : Exit × List Id) (w : World) : Prop :=
  ∃ new, r.2.Sublist (new.map (·.item.id)) ∧
    Taken concurrency (flight ++ new) (if r.1 = .claimThrew then 1 else 0) w

theorem ends_tickLoop (faults : Nat → Faults) (rounds : Nat) (h : Taken concurrency flight 0 w) :
    Ends (tickLoop faults rounds) (Left concurrency flight) w := by
  have hnothing : ∀ v, Taken concurrency flight 0 v →
      Left concurrency flight (.returned, []) v := by
    intro v hv
    exact ⟨[], List.Sublist.refl [], by simpa using hv⟩
  induction rounds generalizing flight w with
  | zero => exact hnothing w h
  | succ rounds ih =>
    refine wp_seq (ends_tryAcquire h) (fun acquired v hv => ?_)
    cases acquired with
    | false => exact hnothing v hv
    | true =>
      refine wp_seq (ends_slotless slotless_canAttempt hv) (fun granted v hv => ?_)
      cases granted with
      | false => exact wp_seq (ends_release hv) (fun _ v hv => hnothing v hv)
      | true =>
        refine wp_seq (ends_slotless (always_failing (slotless_elsewhere elsewhere_claimNextItem)
          (faults rounds).claim) hv) (fun claimed v hv => ?_)
        match claimed with
        | none => exact ⟨[], List.Sublist.refl [], by simpa using hv⟩
        | some none => exact wp_seq (ends_release hv) (fun _ v hv => hnothing v hv)
        | some (some item) =>
          refine wp_seq (ends_launch item (faults rounds).process hv) (fun sent v hv => ?_)
          refine wp_seq (ih hv (fun v hv => ⟨[], List.Sublist.refl [], by simpa using hv⟩))
            (fun rest v hrest => ?_)
          obtain ⟨new, hrejected, htaken⟩ := hrest
          rw [List.append_assoc] at htaken
          cases sent with
          | true =>
            exact ⟨⟨item, item.attemptCount + 1⟩ :: new, List.Sublist.cons _ hrejected, htaken⟩
          | false =>
            exact ⟨⟨item, item.attemptCount + 1⟩ :: new, List.Sublist.cons_cons _ hrejected, htaken⟩

theorem map_eraseP (i : Id) (flight : List Task) :
    (flight.eraseP (fun t => decide (t.item.id = i))).map (·.item.id) =
      (flight.map (·.item.id)).erase i := by
  induction flight with
  | nil => rfl
  | cons t flight ih =>
    by_cases hi : t.item.id = i
    · simp [hi]
    · simp [hi, ih]

theorem ends_finish {i : Id} (hi : i ∈ flight.map (·.item.id))
    (h : Taken concurrency flight more w) : Ends (finish i) (fun _ t =>
      Taken concurrency (flight.eraseP (fun t => decide (t.item.id = i))) more t) w := by
  rw [Ends, finish, updateMemory, wp_exec]
  rintro _ rfl
  have hlength : (flight.eraseP (fun t => decide (t.item.id = i))).length + 1 = flight.length := by
    have hpos := List.length_pos_of_mem hi
    rw [List.length_map] at hpos
    rw [← List.length_map (·.item.id), map_eraseP, List.length_erase_of_mem hi, List.length_map]
    omega
  refine ⟨trivial, by simp only [h.inFlight], h.slots, ?_,
    Nat.le_trans (Nat.sub_le _ _) h.bounded⟩
  simp only [Breaker.release, h.active]
  omega

theorem ends_finishAll {rejected : List Id} (hrejected : rejected.Subperm (flight.map (·.item.id)))
    (h : Taken concurrency flight more w) : Ends (each finish rejected) (fun _ t =>
      ∃ flight', Taken concurrency flight' more t) w := by
  induction rejected generalizing flight w with
  | nil => exact ⟨flight, h⟩
  | cons i rejected ih =>
    refine wp_seq (ends_finish (hrejected.subset List.mem_cons_self) h) (fun _ t ht => ?_)
    refine ih ?_ ht
    rw [map_eraseP]
    simpa using hrejected.erase i

theorem ends_tick (switch : Option Nat) (faults : Nat → Faults) (h : Taken concurrency flight 0 w) :
    Ends (tick switch faults) (fun exit t =>
      ∃ flight', Taken concurrency flight' (if exit = .claimThrew then 1 else 0) t) w := by
  refine wp_seq (ends_slotless (always_read slotless_lenient.tolerant _) h)
    (fun draining v hv => ?_)
  cases draining with
  | true => exact ⟨flight, hv⟩
  | false =>
    have hread : Always Slotless KillSwitch.isOutboundDisabled :=
      always_read slotless_lenient.tolerant _
    refine wp_seq (ends_slotless (always_failing hread switch) hv) (fun disabled v hv => ?_)
    match disabled with
    | none | some true => exact ⟨flight, hv⟩
    | some false =>
      refine wp_seq (ends_slotless (always_read slotless_lenient.tolerant _) hv)
        (fun free v hv => ?_)
      refine wp_seq (ends_tickLoop faults (free + 1) hv) (fun r v hleft => ?_)
      obtain ⟨new, hrejected, htaken⟩ := hleft
      have hsub : r.2.Subperm ((flight ++ new).map (·.item.id)) := by
        rw [List.map_append]
        exact (hrejected.trans (List.sublist_append_right _ _)).subperm
      exact wp_seq (ends_finishAll hsub htaken) (fun _ v hv => hv)

theorem ends_complete (itemId : Id) (outcome : SendOutcome) (random : Nat) (fault : Option Nat)
    (h : Taken concurrency flight more w) : Ends (complete itemId outcome random fault) (fun _ t =>
      ∃ flight', Taken concurrency flight' more t) w := by
  rw [Ends, complete, wp_bind, wp_query]
  rintro _ rfl
  refine ⟨trivial, ?_⟩
  cases hfind : w.mem.inFlight.find? (fun t => decide (t.item.id = itemId)) with
  | none => exact ⟨flight, h⟩
  | some task =>
    have hmem : itemId ∈ flight.map (·.item.id) := by
      rw [← h.inFlight]
      exact List.mem_map.mpr ⟨task, List.mem_of_find?_eq_some hfind,
        by simpa using List.find?_some hfind⟩
    refine wp_seq (ends_slotless (always_failing (slotless_record task outcome random) fault) h)
      (fun _ v hv => ?_)
    exact wp_mono (fun _ _ hv => ⟨_, hv⟩) (ends_finish hmem hv)

end Taken

section Faultless

def faultless : Nat → Faults := fun _ => ⟨none, none⟩

theorem launch_faultless (item : JobItem) (w : World) :
    (launch item none).run w = (true, ((processItem item).run w).2) := by
  simp only [launch, processItem, run_bind, run_faultless]
  rfl

theorem tickLoop_faultless (rounds : Nat) (w : World) :
    (tickLoop faultless rounds).run w =
      ((.returned, []), ((Worker.tickLoop rounds).run w).2) := by
  induction rounds generalizing w with
  | zero => rfl
  | succ rounds ih =>
    simp only [tickLoop, Worker.tickLoop, run_bind, faultless]
    cases (tryAcquire.run w).1 with
    | false => rfl
    | true =>
      simp only [↓reduceIte, run_bind]
      cases (canAttempt.run (tryAcquire.run w).2).1 with
      | false => rfl
      | true =>
        simp only [↓reduceIte, run_bind, run_faultless]
        cases (Claiming.claimNextItem.run (canAttempt.run (tryAcquire.run w).2).2).1 with
        | none => rfl
        | some item =>
          simp only [run_bind, launch_faultless, ↓reduceIte]
          exact ih _

/-- With no faults this is the tick of the worker. -/
theorem tick_faultless (w : World) :
    (tick none faultless).run w = (.returned, (Worker.tick.run w).2) := by
  simp only [tick, Worker.tick, run_bind, run_query]
  by_cases hdraining : w.mem.draining
  · simp only [hdraining, ↓reduceIte, run_pure]
  · simp only [hdraining, Bool.false_eq_true, ↓reduceIte, run_bind, run_faultless]
    cases hdisabled : (KillSwitch.isOutboundDisabled.run w).1 with
    | true => rfl
    | false =>
      simp only [Bool.false_eq_true, ↓reduceIte, run_bind, run_query, tickLoop_faultless]
      rfl

theorem complete_faultless (itemId : Id) (outcome : SendOutcome) (random : Nat) (w : World) :
    (complete itemId outcome random none).run w =
      (Worker.complete itemId outcome random).run w := by
  simp only [complete, Worker.complete, run_bind, run_query]
  cases w.mem.inFlight.find? (fun t => decide (t.item.id = itemId)) with
  | none => rfl
  | some task => simp only [run_bind, run_faultless]

end Faultless

theorem taken_initial (pid concurrency : Nat) (shared : Shared) :
    Taken concurrency [] 0 (initial pid concurrency shared) := ⟨rfl, rfl, rfl, Nat.zero_le _⟩

theorem taken_step {concurrency : Nat} {flight : List Task} {w : World}
    (h : Taken concurrency flight 0 w) (a : Action) :
    ∃ flight' more, Taken concurrency flight' more (step w a) ∧ (more = 0 ↔ ¬ ClaimThrows w a) := by
  cases a with
  | tick switch faults =>
    obtain ⟨flight', htaken⟩ := wp_run (ends_tick switch faults h)
    refine ⟨flight', _, htaken, ?_⟩
    simp [ClaimThrows]
  | complete itemId outcome random fault =>
    obtain ⟨flight', htaken⟩ := wp_run (ends_complete itemId outcome random fault h)
    exact ⟨flight', 0, htaken, by simp [ClaimThrows]⟩
  | drainAndStop =>
    exact ⟨flight, 0, ⟨h.inFlight, h.slots, h.active, h.bounded⟩, by simp [ClaimThrows]⟩
  | others change =>
    exact ⟨flight, 0, ⟨h.inFlight, h.slots, h.active, h.bounded⟩, by simp [ClaimThrows]⟩

/-- The slots of a worker are those of its items in flight all along if and only if
`claimNextItem` never throws out of a tick. -/
theorem balanced_iff_calm (pid concurrency : Nat) (shared : Shared) (as : List Action) :
    Along (fun w a => Balanced concurrency (step w a)) step (initial pid concurrency shared) as ↔
      Along (fun w a => ¬ ClaimThrows w a) step (initial pid concurrency shared) as := by
  have hall : Along (fun _ _ => True) step (initial pid concurrency shared) as :=
    along_all (fun _ _ => trivial) _
  refine along_iff (fun w => ∃ flight, Taken concurrency flight 0 w) ?_ ?_
    ⟨[], taken_initial pid concurrency shared⟩ hall
  · rintro w a ⟨flight, h⟩ _
    obtain ⟨flight', more, htaken, hmore⟩ := taken_step h a
    exact (balanced_iff htaken).trans hmore
  · rintro w a ⟨flight, h⟩ _ hcalm
    obtain ⟨flight', more, htaken, hmore⟩ := taken_step h a
    obtain rfl := hmore.mpr hcalm
    exact ⟨flight', htaken⟩

/-- `BEGIN IMMEDIATE` finds the database locked: the slot is taken, and nothing is in flight. -/
theorem slot_leaked :
    ¬ Along (fun w a => Balanced 5 (step w a)) step (initial 0 5 { now := 0 })
      [.tick none (fun _ => ⟨some 1, none⟩)] :=
  fun h => absurd h.1.active (by decide +kernel)

end WhatsappTester.Jobs.Slots
