import Mathlib.Algebra.Order.Ring.Unbundled.Rat
import WhatsappTester.Jobs.JobService

namespace WhatsappTester.Scheduler

open Schema State Atomic.Program Jobs

/-- `REPEAT_UNIT_MS[unit] || REPEAT_UNIT_MS.minutes` -/
def repeatUnitMs : Option RepeatUnit → Int
  | some .hours => 60 * 60 * 1000
  | some .days => 24 * 60 * 60 * 1000
  | some .weeks => 7 * 24 * 60 * 60 * 1000
  | _ => 60 * 1000

def occurrenceKey (id : String) (nextRunAt : Ms) : String :=
  "schedule:" ++ id ++ ":" ++ toString nextRunAt

/-- What `create` is called with. `runAt` and `endAt` are the parsed dates, with
`none` for an invalid `runAt` and a missing `endAt`, and `delaySeconds` is a number. -/
structure RepeatInput where
  everyValue : Int
  everyUnit : RepeatUnit
  endAt : Option Ms

structure RecipientInput where
  number : Option String
  name : Option String

structure CreateInput where
  recipients : List RecipientInput
  message : String
  runAt : Option Ms
  delaySeconds : Rat
  rule : Option RepeatInput
  createdBy : Option String := none

/-- A repeat rule as it is stored: the number is at least one. -/
structure Repeat where
  everyValue : Int
  everyUnit : RepeatUnit
  endAt : Option Ms
  positive : 1 ≤ everyValue

/-- The values that `create` inserts: there is a recipient. -/
structure CreateArgs where
  recipients : List Recipient
  message : String
  runAt : Ms
  delaySeconds : Rat
  rule : Option Repeat
  createdBy : Option String
  nonempty : recipients ≠ []

def knownUnit : RepeatUnit → RepeatUnit
  | .other _ => .minutes
  | unit => unit

/-- A missing or zero `everyValue` means no repetition. -/
def normalizeRepeat (rule : Option RepeatInput) : Option Repeat :=
  (rule.filter (fun r => r.everyValue ≠ 0)).map (fun r =>
    ⟨max 1 r.everyValue, knownUnit r.everyUnit, r.endAt, le_max_left 1 r.everyValue⟩)

def normalizeRecipients (recipients : List RecipientInput) : List Recipient :=
  (recipients.map (fun r => (⟨digits (r.number.getD ""), r.name.getD ""⟩ : Recipient))).filter
    (fun r => r.number ≠ "")

/-- The checks of `create`, with the messages of its validation errors. -/
def normalize (a : CreateInput) : Except String CreateArgs :=
  match a.runAt with
  | none => .error "A valid runAt date/time is required"
  | some runAt =>
    if h : normalizeRecipients a.recipients = [] then .error "No valid recipient numbers"
    else .ok ⟨normalizeRecipients a.recipients, a.message, runAt, max 0 a.delaySeconds,
      normalizeRepeat a.rule, a.createdBy, h⟩

def newSchedule (id : Id) (now : Ms) (a : CreateArgs) : Schedule where
  id := toString id
  message := a.message
  recipients := a.recipients
  delaySeconds := a.delaySeconds
  repeatEveryValue := a.rule.map (·.everyValue)
  repeatEveryUnit := a.rule.map (·.everyUnit)
  repeatEndAt := a.rule.bind (·.endAt)
  status := .scheduled
  nextRunAt := a.runAt
  lastRunAt := none
  lastResult := none
  createdBy := a.createdBy
  createdAt := now
  updatedAt := now

def create (a : CreateInput) : Code Unit :=
  match normalize a with
  | .error _ => pure ()
  | .ok args => do
    let id ← randomUUID
    let now ← dateNow
    exec (fun w =>
      { w with shared.db.schedules := w.shared.db.schedules ++ [newSchedule id now args] })

def remove (id : String) : Code Unit :=
  exec (fun w =>
    { w with shared.db.schedules := w.shared.db.schedules.filter (fun s => decide (s.id ≠ id)) })

def fireArgs (row : Schedule) : CreateJobArgs where
  type := "schedule_fire"
  idempotencyKey := some (occurrenceKey row.id row.nextRunAt)
  items := row.recipients.map (fun r => ⟨some r.number, some r.name, some row.message⟩)
  sourceType := some "schedule"
  sourceId := some row.id
  createdBy := row.createdBy
  metadata := some ⟨row.delaySeconds⟩

/-- An error of `createJob` leaves the schedule as it is; the tick logs it. -/
def fireDue (row : Schedule) : Code Unit := do
  match ← JobService.callCreateJob (fireArgs row) with
  | .error _ => pure ()
  | .ok _ => do
    let now ← dateNow
    let _ ← updateSchedules (fun s => decide (s.id = row.id ∧ s.status = .scheduled))
      (fun s => { s with status := .sending, updatedAt := now })

def due (now : Ms) (s : Schedule) : Bool := decide (s.status = .scheduled ∧ s.nextRunAt ≤ now)

/-- `ready` is the connection state that the tick reads from the transport. -/
def runTickIfReady (ready : Bool) : Code Unit :=
  if !ready then pure ()
  else do
    let now ← dateNow
    let rows ← query (fun w => w.shared.db.schedules.filter (due now))
    each fireDue rows

/-- The `do { next += stepMs } while (next <= now)` loop, cut off after `fuel`
further rounds. -/
def advance (stepMs now : Int) : Nat → Int → Int
  | 0, next => next + stepMs
  | fuel + 1, next =>
    if next + stepMs ≤ now then advance stepMs now fuel (next + stepMs) else next + stepMs

/-- Each round of the loop gains at least a millisecond when the step is positive. -/
def nextOccurrence (stepMs now next : Int) : Int := advance stepMs now (now - next).toNat next

def resultStatus (item : JobItem) : SendStatus :=
  if item.status = .succeeded then .sent
  else if item.status = .skipped then .skipped
  else if item.lastErrorCategory = some .permanent then .notOnWhatsapp
  else .error

def resultOf (item : JobItem) : RecipientResult :=
  ⟨item.recipientNumber, item.recipientName, resultStatus item, item.lastErrorMessage⟩

def settledRow (now : Ms) (lastResult : LastResult) (row : Schedule) : Schedule :=
  let s := { row with lastRunAt := some now, lastResult := some lastResult, updatedAt := now }
  match row.repeatEveryValue with
  | none => { s with status := .done }
  | some value =>
    if value = 0 then { s with status := .done }
    else
      let next := nextOccurrence (repeatUnitMs row.repeatEveryUnit * value) now row.nextRunAt
      -- a missing or zero end date is no end date
      if row.repeatEndAt.any (fun endAt => decide (endAt ≠ 0 ∧ next > endAt)) then
        { s with status := .done }
      else { s with status := .scheduled, nextRunAt := next }

/-- The `UPDATE` with which `after` is written: it leaves the time of a schedule that is done. -/
def writeSettled (after s : Schedule) : Schedule :=
  { s with
    status := after.status
    nextRunAt := if after.status = .done then s.nextRunAt else after.nextRunAt
    lastRunAt := after.lastRunAt
    lastResult := after.lastResult
    updatedAt := after.updatedAt }

theorem writeSettled_self (now : Ms) (lastResult : LastResult) (row : Schedule) :
    writeSettled (settledRow now lastResult row) row = settledRow now lastResult row := by
  unfold settledRow
  split
  · rfl
  · split
    · rfl
    · dsimp only
      split <;> rfl

def onJobSettled (view : JobView) : Code Unit := do
  record (fun w => .settled w.mem.pid view.job.id)
  if view.job.sourceType = some "schedule" then do
    match ← selectSchedule (view.job.sourceId.getD "") with
    | none => pure ()
    | some row => do
      let now ← dateNow
      let lastResult : LastResult := ⟨view.job.completedAt.getD now, view.items.map resultOf⟩
      let _ ← updateSchedules (fun s => decide (s.id = row.id))
        (writeSettled (settledRow now lastResult row))
  else pure ()

end WhatsappTester.Scheduler
