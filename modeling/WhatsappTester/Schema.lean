import WhatsappTester.Atomic.Table

namespace WhatsappTester.Schema

/-- Values of `crypto.randomUUID()`. Only their being new matters. -/
abbrev Id := Nat

/-- Milliseconds since the epoch, as `Date.now()` gives them. -/
abbrev Ms := Int

inductive ItemStatus
  | queued | claimed | running | succeeded | failed | skipped | cancelled
  deriving DecidableEq, Repr

inductive JobStatus
  | queued | running | paused | completed | partiallyCompleted | failed | cancelled
  deriving DecidableEq, Repr

inductive ScheduleStatus
  | scheduled | sending | done
  deriving DecidableEq, Repr

inductive Category
  | transient | permanent | validation | authorization | cancelled | unknown
  deriving DecidableEq, Repr

inductive SendStatus
  | sent | notOnWhatsapp | error | skipped | other (name : String)
  deriving DecidableEq, Repr

inductive RepeatUnit
  | minutes | hours | days | weeks | other (name : String)
  deriving DecidableEq, Repr

def terminalItemStatuses : List ItemStatus := [.succeeded, .failed, .skipped, .cancelled]

def terminalJobStatuses : List JobStatus := [.completed, .partiallyCompleted, .failed, .cancelled]

def ItemStatus.terminal (s : ItemStatus) : Bool := terminalItemStatuses.contains s

def JobStatus.terminal (s : JobStatus) : Bool := terminalJobStatuses.contains s

structure JobMetadata where
  delaySeconds : Rat
  deriving DecidableEq, Repr

structure Job where
  id : Id
  type : String
  status : JobStatus
  createdBy : Option String
  createdAt : Ms
  startedAt : Option Ms
  completedAt : Option Ms
  updatedAt : Ms
  total : Nat
  succeeded : Nat
  failed : Nat
  skipped : Nat
  cancelled : Nat
  idempotencyKey : Option String
  sourceType : Option String
  sourceId : Option String
  metadata : Option JobMetadata
  deriving DecidableEq, Repr

structure JobItem where
  id : Id
  jobId : Id
  seq : Nat
  recipientNumber : String
  recipientName : String
  message : String
  status : ItemStatus
  attemptCount : Nat
  nextAttemptAt : Ms
  claimedBy : Option String
  claimedAt : Option Ms
  leaseExpiresAt : Option Ms
  lastErrorCategory : Option Category
  lastErrorMessage : Option String
  updatedAt : Ms
  deriving DecidableEq, Repr

structure JobAttempt where
  jobItemId : Id
  attemptNumber : Nat
  startedAt : Ms
  finishedAt : Option Ms
  outcome : Option SendStatus
  errorCategory : Option Category
  errorMessage : Option String
  deriving DecidableEq, Repr

/-- The `type` of a job event together with its JSON `detail`. -/
inductive JobEventKind
  | created (total : Nat) (sourceType sourceId : Option String)
  | started
  | completed (finalStatus : JobStatus) (succeeded failed skipped : Nat)
  | cancelled (actor : Option String)
  | paused (actor : Option String)
  | resumed (actor : Option String)
  deriving DecidableEq, Repr

structure JobEvent where
  jobId : Id
  ts : Ms
  kind : JobEventKind
  deriving DecidableEq, Repr

structure Recipient where
  number : String
  name : String
  deriving DecidableEq, Repr

structure RecipientResult where
  number : String
  name : String
  status : SendStatus
  detail : Option String
  deriving DecidableEq, Repr

structure LastResult where
  ranAt : Ms
  results : List RecipientResult
  deriving DecidableEq, Repr

structure Schedule where
  id : String
  message : String
  recipients : List Recipient
  delaySeconds : Rat
  repeatEveryValue : Option Int
  repeatEveryUnit : Option RepeatUnit
  repeatEndAt : Option Ms
  status : ScheduleStatus
  nextRunAt : Ms
  lastRunAt : Option Ms
  lastResult : Option LastResult
  createdBy : Option String
  createdAt : Ms
  updatedAt : Ms
  deriving DecidableEq, Repr

structure Setting where
  key : String
  value : String
  updatedAt : Ms
  updatedBy : Option String
  deriving DecidableEq, Repr

structure AuditRow where
  ts : Ms
  actor : Option String
  action : String
  target : Option String
  result : String
  requestId : Option Id
  metadata : Option (String × String)
  deriving DecidableEq, Repr

structure SendResult where
  recipient : String
  name : Option String
  status : SendStatus
  detail : Option String
  deriving DecidableEq, Repr

inductive Response
  | results (results : List SendResult)
  | ok
  | failure (error category : String)
  deriving DecidableEq, Repr

structure IdempotencyRow where
  key : String
  route : String
  response : Response
  createdAt : Ms
  expiresAt : Ms
  deriving DecidableEq, Repr

/-- `s.replace(/[^\d]/g, '')` -/
def digits (s : String) : String := String.ofList (s.toList.filter Char.isDigit)

structure Db where
  jobs : List Job := []
  items : List JobItem := []
  attempts : List JobAttempt := []
  events : List JobEvent := []
  schedules : List Schedule := []
  settings : List Setting := []
  auditLog : List AuditRow := []
  idempotencyKeys : List IdempotencyRow := []

def Db.job (db : Db) (id : Id) : Option Job := Atomic.Table.find (·.id) id db.jobs

def Db.item (db : Db) (id : Id) : Option JobItem := Atomic.Table.find (·.id) id db.items

def Db.schedule (db : Db) (id : String) : Option Schedule :=
  Atomic.Table.find (·.id) id db.schedules

def Db.itemsOf (db : Db) (jobId : Id) : List JobItem :=
  db.items.filter (fun r => decide (r.jobId = jobId))

/-- What `getJob` returns: the row of a job and the rows of its items in `seq` order. -/
structure JobView where
  job : Job
  items : List JobItem
  deriving DecidableEq

/-- One element of `createJob`'s `items` argument; `none` is a field left
`undefined` or `null`. -/
structure NewItem where
  number : Option String
  name : Option String
  message : Option String
  deriving DecidableEq, Repr

structure CreateJobArgs where
  type : String
  idempotencyKey : Option String := none
  items : List NewItem
  sourceType : Option String := none
  sourceId : Option String := none
  createdBy : Option String := none
  metadata : Option JobMetadata := none
  deriving DecidableEq, Repr

structure CreateResult where
  job : Option JobView
  created : Bool
  deriving DecidableEq

inductive SqlError
  | unique (column : String)
  | notNull (column : String)
  deriving DecidableEq, Repr

/-- `/UNIQUE/i.test(String(err.message))` -/
def SqlError.isUnique : SqlError → Bool
  | .unique _ => true
  | .notNull _ => false

end WhatsappTester.Schema
