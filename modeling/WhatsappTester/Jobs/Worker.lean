import WhatsappTester.Jobs.Claiming
import WhatsappTester.KillSwitch
import WhatsappTester.Scheduler

namespace WhatsappTester.Jobs.Worker

open Schema State Atomic.Program Retry Breaker JobService Claiming

def tryAcquire : Code Bool :=
  update (fun w => { w with mem.semaphore := (Breaker.tryAcquire w.mem.semaphore).2 })
    (fun w => (Breaker.tryAcquire w.mem.semaphore).1)

def release : Code Unit :=
  updateMemory (fun m => { m with semaphore := Breaker.release m.semaphore })

def canAttempt : Code Bool :=
  update (fun w => { w with mem.breaker := (Breaker.canAttempt w.shared.now w.mem.breaker).2 })
    (fun w => (Breaker.canAttempt w.shared.now w.mem.breaker).1)

def recordSuccess : Code Unit :=
  updateMemory (fun m => { m with breaker := Breaker.recordSuccess m.breaker })

def recordFailure (category : Category) : Code Unit :=
  exec
    (fun w => { w with mem.breaker := Breaker.recordFailure category w.shared.now w.mem.breaker })

/-- The call of the transport, whose answer `_processItem` then awaits. -/
def startSend (item : JobItem) (attemptNumber : Nat) : Code Unit :=
  exec (fun w =>
    { w with
      shared.trace := .sent w.mem.pid item.id attemptNumber :: w.shared.trace
      mem.inFlight := w.mem.inFlight ++ [⟨item, attemptNumber⟩] })

/-- `_processItem` up to its `await`. -/
def processItem (item : JobItem) : Code Unit := do
  markItemRunning item.id
  let attemptNumber := item.attemptCount + 1
  recordAttemptStart item.id attemptNumber
  startSend item attemptNumber

/-- The `for (;;)` loop of a tick. A round that does not return takes a slot of
the semaphore, which bounds the number of rounds. -/
def tickLoop : Nat → Code Unit
  | 0 => pure ()
  | rounds + 1 => do
    if ← tryAcquire then
      if ← canAttempt then do
        match ← claimNextItem with
        | none => release
        | some item => do
          processItem item
          tickLoop rounds
      else release
    else pure ()

def tick : Code Unit := do
  if ← query (·.mem.draining) then pure ()
  else if ← KillSwitch.isOutboundDisabled then pure ()
  else do
    let free ← query (fun w => w.mem.semaphore.maxConcurrent - w.mem.semaphore.active)
    tickLoop (free + 1)

/-- How the awaited `sendToNumbers` of one recipient ends. -/
inductive SendOutcome
  | results (results : List (SendStatus × Option String))
  | threw (err : SendError)
  deriving DecidableEq, Repr

/-- Reading `status` of a missing first result. -/
def typeError : SendError := ⟨"TypeError", "Cannot read properties of undefined (reading 'status')"⟩

/-- Outcome status, error category and detail, as the `try`/`catch` leaves them. -/
def classify : SendOutcome → SendStatus × Option Category × Option String
  | .results ((status, detail) :: _) => (status, classifyOutcome status, detail.filter (· ≠ ""))
  | .results [] => (.error, some (classifyException typeError), some typeError.message)
  | .threw err => (.error, some (classifyException err), some err.message)

/-- `category === 'VALIDATION' ? 'skipped' : 'failed'` -/
def failureStatus (category : Category) : ItemStatus :=
  if category = .validation then .skipped else .failed

/-- From the answer of the transport to the item's new status. -/
def recordOutcome (task : Task) (outcome : SendOutcome) (random : Nat) : Code Unit := do
  let (status, category, detail) := classify outcome
  recordAttemptFinish task.item.id task.attemptNumber status category detail
  match category with
  | none => do
    recordSuccess
    markItemTerminal task.item.id .succeeded none none
  | some category => do
    recordFailure category
    if isRetryable category && decide (task.attemptNumber < maxAttempts) then do
      let now ← dateNow
      scheduleRetry task.item.id (now + computeBackoffMs task.attemptNumber random) category detail
    else markItemTerminal task.item.id (failureStatus category) (some category) detail

def settle (jobId : Id) : Code Unit := do
  match ← checkJobCompletion jobId with
  | none => pure ()
  | some job => Scheduler.onJobSettled job

def finish (itemId : Id) : Code Unit :=
  updateMemory (fun m =>
    { m with
      semaphore := Breaker.release m.semaphore
      inFlight := m.inFlight.eraseP (fun t => decide (t.item.id = itemId)) })

/-- `_processItem` from its `await` on. -/
def complete (itemId : Id) (outcome : SendOutcome) (random : Nat) : Code Unit := do
  match ← query (fun w => w.mem.inFlight.find? (fun t => decide (t.item.id = itemId))) with
  | none => pure ()
  | some task => do
    recordOutcome task outcome random
    settle task.item.jobId
    finish itemId

def drainAndStop : Code Unit := updateMemory (fun m => { m with draining := true })

end WhatsappTester.Jobs.Worker
