import WhatsappTester.Atomic.Program
import WhatsappTester.Atomic.Interleaving
import WhatsappTester.Jobs.Retry
import WhatsappTester.Jobs.Breaker

namespace WhatsappTester.State

open Schema Jobs.Breaker Atomic.Program Atomic.Interleaving

/-- What happened so far, newest first. The program writes this history and
never reads it: it is what the statements about runs speak of. -/
inductive Event
  /-- A worker's claim of an item was committed. -/
  | claimed (worker : Nat) (item : Id) (leaseExpiresAt : Ms)
  /-- A worker counted a new attempt of an item. -/
  | attempted (worker : Nat) (item : Id)
  /-- A worker called the transport for an item. -/
  | sent (worker : Nat) (item : Id) (attempt : Nat)
  /-- A worker wrote the outcome of an attempt into the item's status. -/
  | recorded (worker : Nat) (item : Id)
  /-- A process died. -/
  | died (worker : Nat)
  /-- The transaction of a `createJob` call was committed. -/
  | jobInserted (worker : Nat) (job : Id) (args : CreateJobArgs)
  /-- A `createJob` call returned. -/
  | createReturned (worker : Nat) (args : CreateJobArgs) (result : CreateResult)
  /-- `cancelJob` cancelled the open items of a job. -/
  | itemsCancelled (job : Id)
  /-- `onJobSettled` was called. -/
  | settled (worker : Nat) (job : Id)
  /-- `setOutboundDisabled(true)` returned, or `setOutboundDisabled(false)` was called. -/
  | outbound (disabled : Bool)
  /-- A request with an idempotency key reached the look-up of its key. -/
  | arrived (request : Id) (key : String) (arrivedAt : Ms)
  /-- A send route handed one recipient's message to the WhatsApp client. -/
  | sendStarted (request : Id) (recipient message : String)
  /-- The answer to a request was stored under its idempotency key. -/
  | stored (request : Id)
  /-- A request was answered. -/
  | answered (request : Id) (status : Nat)
  deriving DecidableEq

/-- What all processes share: the clock, the database, the supply of fresh
ids, and the history. -/
structure Shared where
  now : Ms
  db : Db := {}
  uuid : Id := 0
  trace : List Event := []

structure Task where
  item : JobItem
  attemptNumber : Nat

/-- What a send route has still to do, for one recipient or one row. -/
inductive Todo
  | send (recipient label message : String)
  | skip (result : SendResult)

inductive SendRoute
  | send | sendGroups | sendBulk | chatSend
  deriving DecidableEq, Repr

structure Handler where
  request : Id
  user : String
  route : SendRoute
  /-- The composite idempotency key and the arrival time, when there is a key. -/
  cache : Option (String × Ms)
  delaySeconds : Rat
  recipientCount : Nat
  todo : List Todo
  /-- The recipient whose send is awaited; `none` during the delay after it. -/
  current : Option (String × String)
  results : List SendResult

/-- The memory of one process: the fields of its `JobWorker` and the handlers
it is running. It is lost when the process dies. -/
structure Memory where
  pid : Nat
  breaker : CircuitBreaker := {}
  semaphore : Semaphore
  draining : Bool := false
  inFlight : List Task := []
  handlers : List Handler := []

abbrev World := View Shared Memory

abbrev Code := Prog World

def dateNow : Code Ms := query (·.shared.now)

def randomUUID : Code Id :=
  update (fun w => { w with shared.uuid := w.shared.uuid + 1 }) (·.shared.uuid)

def record (e : World → Event) : Code Unit :=
  exec (fun w => { w with shared.trace := e w :: w.shared.trace })

def updateItems (p : JobItem → Bool) (f : JobItem → JobItem) : Code Nat :=
  update (fun w => { w with shared.db.items := Atomic.Table.update p f w.shared.db.items })
    (fun w => Atomic.Table.changes p w.shared.db.items)

/-- An update of `job_items` that the history records. -/
def updateItemsRecord (p : JobItem → Bool) (f : JobItem → JobItem) (e : World → Event) : Code Nat :=
  update
    (fun w =>
      { w with
        shared.db.items := Atomic.Table.update p f w.shared.db.items
        shared.trace := e w :: w.shared.trace })
    (fun w => Atomic.Table.changes p w.shared.db.items)

def updateJobs (p : Job → Bool) (f : Job → Job) : Code Nat :=
  update (fun w => { w with shared.db.jobs := Atomic.Table.update p f w.shared.db.jobs })
    (fun w => Atomic.Table.changes p w.shared.db.jobs)

def updateSchedules (p : Schedule → Bool) (f : Schedule → Schedule) : Code Nat :=
  update (fun w => { w with shared.db.schedules := Atomic.Table.update p f w.shared.db.schedules })
    (fun w => Atomic.Table.changes p w.shared.db.schedules)

def updateMemory (f : Memory → Memory) : Code Unit := exec (fun w => { w with mem := f w.mem })

def selectItem (id : Id) : Code (Option JobItem) := query (·.shared.db.item id)

def selectJob (id : Id) : Code (Option Job) := query (·.shared.db.job id)

def selectSchedule (id : String) : Code (Option Schedule) := query (·.shared.db.schedule id)

end WhatsappTester.State
