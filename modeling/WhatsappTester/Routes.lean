import Mathlib.Algebra.GroupWithZero.Nat
import WhatsappTester.KillSwitch

namespace WhatsappTester.Routes

open Schema State Atomic.Program KillSwitch Jobs.Retry

/-- A row of a bulk request. `resolved` is its message after `resolveTemplate`
has filled the columns in. -/
structure BulkRow where
  name : Option String
  number : Option String
  message : Option String
  resolved : String
  deriving DecidableEq, Repr

/-- What a send route is called with: its parameters and its parsed body. -/
inductive Body
  | send (numbers : List String) (message : String) (delaySeconds : Rat)
  | sendGroups (groupIds : List String) (message : String) (delaySeconds : Rat)
  | sendBulk (rows : List BulkRow) (defaultMessage : String) (delaySeconds : Rat)
  | chatSend (chatId message : String)
  deriving DecidableEq, Repr

structure Request where
  user : String
  idempotencyKey : Option String
  body : Body
  deriving DecidableEq, Repr

def Body.route : Body → SendRoute
  | .send .. => .send
  | .sendGroups .. => .sendGroups
  | .sendBulk .. => .sendBulk
  | .chatSend .. => .chatSend

/-- The name under which a route keeps its idempotency keys; `/:id/send` has none. -/
def routeName : SendRoute → Option String
  | .send => some "send"
  | .sendGroups => some "send-groups"
  | .sendBulk => some "send-bulk"
  | .chatSend => none

/-- The length of a JavaScript string, in UTF-16 units. -/
def length (s : String) : Nat := (s.toList.map (fun c => if c.toNat < 0x10000 then 1 else 2)).sum

def maxMessageLen : Nat := 4096
def maxRecipients : Nat := 500
def maxGroups : Nat := 200
def maxBulkRows : Nat := 5000
def maxDelaySeconds : Rat := 300

def lengthIn (low high : Nat) (s : String) : Bool := decide (low ≤ length s ∧ length s ≤ high)

def bulkRowValid (row : BulkRow) : Bool :=
  row.name.all (lengthIn 0 200) && row.number.all (lengthIn 0 40) &&
    row.message.all (lengthIn 0 maxMessageLen)

/-- The schemas `sendBody`, `sendGroupsBody`, `sendBulkBody`, and `idParam` with `messageBody`. -/
def Body.valid : Body → Bool
  | .send numbers message delaySeconds =>
    numbers.all (lengthIn 1 40) && decide (1 ≤ numbers.length ∧ numbers.length ≤ maxRecipients) &&
      lengthIn 1 maxMessageLen message && decide (0 ≤ delaySeconds ∧ delaySeconds ≤ maxDelaySeconds)
  | .sendGroups groupIds message delaySeconds =>
    groupIds.all (lengthIn 1 300) && decide (1 ≤ groupIds.length ∧ groupIds.length ≤ maxGroups) &&
      lengthIn 1 maxMessageLen message && decide (0 ≤ delaySeconds ∧ delaySeconds ≤ maxDelaySeconds)
  | .sendBulk rows defaultMessage delaySeconds =>
    rows.all bulkRowValid && decide (1 ≤ rows.length ∧ rows.length ≤ maxBulkRows) &&
      lengthIn 0 maxMessageLen defaultMessage &&
      decide (0 ≤ delaySeconds ∧ delaySeconds ≤ maxDelaySeconds)
  | .chatSend chatId message => lengthIn 1 300 chatId && lengthIn 1 maxMessageLen message

/-- The white space that `String.prototype.trim` removes. -/
def isSpace (c : Char) : Bool :=
  (9 ≤ c.toNat && c.toNat ≤ 13) || (0x2000 ≤ c.toNat && c.toNat ≤ 0x200a) ||
    [0x20, 0xa0, 0x1680, 0x2028, 0x2029, 0x202f, 0x205f, 0x3000, 0xfeff].contains c.toNat

def trim (s : String) : String :=
  String.ofList (((s.toList.dropWhile isSpace).reverse.dropWhile isSpace).reverse)

/-- The first half of the bulk loop's body: the row is skipped, or it is sent. -/
def planRow (row : BulkRow) : Todo :=
  let number := digits (row.number.getD "")
  let message := trim row.resolved
  let label := (row.name.filter (· ≠ "")).getD number
  if number = "" ∨ message = "" then
    .skip ⟨row.number.getD "", some label, .skipped, some "missing number or message"⟩
  else .send number label message

def Body.todo : Body → List Todo
  | .send numbers message _ => numbers.map (fun n => .send n "" message)
  | .sendGroups groupIds message _ => groupIds.map (fun g => .send g "" message)
  | .sendBulk rows _ _ => rows.map planRow
  | .chatSend chatId message => [.send chatId "" message]

def Body.delaySeconds : Body → Rat
  | .send _ _ d | .sendGroups _ _ d | .sendBulk _ _ d => d
  | .chatSend .. => 0

def ttlMs : Ms := 5 * 60 * 1000

def newHandler (id : Id) (r : Request) (cache : Option (String × Ms)) : Handler where
  request := id
  user := r.user
  route := r.body.route
  cache := cache
  delaySeconds := r.body.delaySeconds
  recipientCount := r.body.todo.length
  todo := r.body.todo
  current := none
  results := []

/-- The `INSERT … ON CONFLICT(key) DO NOTHING` of the wrapped `res.json`. -/
def storeResponse (request : Id) (key : String) (arrivedAt : Ms) (route : SendRoute)
    (response : Response) : Code Unit :=
  exec (fun w =>
    if w.shared.db.idempotencyKeys.any (fun row => decide (row.key = key)) then w
    else
      { w with
        shared.db.idempotencyKeys := w.shared.db.idempotencyKeys ++
          [⟨key, (routeName route).getD "", response, arrivedAt, arrivedAt + ttlMs⟩]
        shared.trace := .stored request :: w.shared.trace })

/-- `res.status(status).json(response)` behind the idempotency middleware: a 2xx
answer is stored under the key first. -/
def respond (h : Handler) (status : Nat) (response : Response) : Code Unit := do
  match h.cache with
  | some (key, arrivedAt) =>
    if 200 ≤ status ∧ status < 300 then storeResponse h.request key arrivedAt h.route response
    else pure ()
  | none => pure ()
  record (fun _ => .answered h.request status)
  updateMemory (fun m =>
    { m with handlers := m.handlers.filter (fun x => decide (x.request ≠ h.request)) })

def transportUnavailable : Response :=
  .failure "WhatsApp is not connected yet" "TRANSPORT_UNAVAILABLE"

def outboundDisabledError : Response :=
  .failure "Outbound messaging is currently disabled by an administrator." "OUTBOUND_DISABLED"

def internalError : Response := .failure "Something went wrong." "INTERNAL_ERROR"

def auditAction : SendRoute → String × String
  | .send => ("send", "recipientCount")
  | .sendGroups => ("send_groups", "groupCount")
  | .sendBulk => ("bulk_send", "rowCount")
  | .chatSend => ("chat_send", "")

def succeed (h : Handler) : Code Unit := do
  let (action, count) := auditAction h.route
  recordAudit (fun ts =>
    ⟨ts, some h.user, action, none, "success", some h.request,
      some (count, toString h.recipientCount)⟩)
  respond h 200 (.results h.results)

/-- The WhatsApp client is handed a message; the handler awaits the answer. -/
def startRecipient (h : Handler) (recipient label message : String) : Code Unit :=
  exec (fun w =>
    { w with
      shared.trace := .sendStarted h.request recipient message :: w.shared.trace
      mem.handlers := w.mem.handlers.filter (fun x => decide (x.request ≠ h.request)) ++
        [{ h with current := some (recipient, label) }] })

/-- The loop over recipients up to its next `await`. Only the bulk route calls
the transport anew for each row, and with it the check of the connection. -/
def proceed (ready : Bool) (h : Handler) : List Todo → Code Unit
  | [] => succeed { h with todo := [] }
  | .skip result :: rest => proceed ready { h with results := h.results ++ [result] } rest
  | .send recipient label message :: rest =>
    if h.route = .sendBulk ∧ !ready then respond h 409 transportUnavailable
    else startRecipient { h with todo := rest } recipient label message

def handle (ready : Bool) (h : Handler) : Code Unit :=
  if h.route ≠ .sendBulk ∧ !ready then respond h 409 transportUnavailable
  else proceed ready h h.todo

def validateAndHandle (ready : Bool) (r : Request) (h : Handler) : Code Unit :=
  if r.body.valid then handle ready h
  else respond h 400 (.failure "Invalid request." "VALIDATION_ERROR")

/-- `idempotent(routeName)`: a live stored answer is replayed. -/
def idempotent (ready : Bool) (r : Request) (id : Id) : Code Unit :=
  match routeName r.body.route, r.idempotencyKey.filter (· ≠ "") with
  | some name, some key => do
    let compositeKey := name ++ ":" ++ key
    let now ← dateNow
    record (fun _ => .arrived id compositeKey now)
    let cached ← query (fun w => w.shared.db.idempotencyKeys.find?
      (fun row => decide (row.key = compositeKey ∧ row.expiresAt > now)))
    match cached with
    | some _ => record (fun _ => .answered id 200)
    | none => validateAndHandle ready r (newHandler id r (some (compositeKey, now)))
  | _, _ => validateAndHandle ready r (newHandler id r none)

/-- A request's way through the middleware of its route. `ready` is the
connection state at that moment. -/
def request (r : Request) (ready : Bool) : Code Unit := do
  let id ← randomUUID
  if ← isOutboundDisabled then record (fun _ => .answered id 423)
  else idempotent ready r id

inductive Answer
  | result (status : SendStatus) (detail : Option String)
  | threw (err : SendError)
  deriving DecidableEq, Repr

/-- An exception of the client becomes an `error` result inside the transport's loop. -/
def resultOf (route : SendRoute) (recipient label : String) : Answer → SendResult
  | .result status detail =>
    ⟨recipient, if route = .sendBulk then some label else none, status, detail⟩
  | .threw err =>
    ⟨recipient, if route = .sendBulk then some label else none, .error, some err.message⟩

def chatAnswered (h : Handler) (chatId : String) (answer : Answer) : Code Unit := do
  match answer with
  | .result _ _ => do
    recordAudit (fun ts => ⟨ts, some h.user, "chat_send", some chatId, "success",
      some h.request, none⟩)
    respond h 200 .ok
  | .threw err =>
    if err.name = "TransportNotReadyError" then respond h 409 transportUnavailable
    else do
      recordAudit (fun ts => ⟨ts, some h.user, "chat_send", some chatId, "failure",
        some h.request, none⟩)
      respond h 500 internalError

def save (h : Handler) : Code Unit :=
  updateMemory (fun m =>
    { m with handlers := m.handlers.filter (fun x => decide (x.request ≠ h.request)) ++ [h] })

def selectHandler (id : Id) : Code (Option Handler) :=
  query (fun w => w.mem.handlers.find? (fun h => decide (h.request = id)))

def answered (id : Id) (answer : Answer) (ready : Bool) : Code Unit := do
  match ← selectHandler id with
  | none => pure ()
  | some h =>
    match h.current with
    | none => pure ()
    | some (recipient, label) =>
      if h.route = .chatSend then chatAnswered h recipient answer
      else
        let h' : Handler :=
          { h with current := none, results := h.results ++
            [resultOf h.route recipient label answer] }
        if h.delaySeconds > 0 then save h' else proceed ready h' h'.todo

def delayOver (id : Id) (ready : Bool) : Code Unit := do
  match ← selectHandler id with
  | none => pure ()
  | some h =>
    match h.current with
    | none => proceed ready h h.todo
    | some _ => pure ()

def sweepExpiredIdempotencyKeys : Code Unit := do
  let now ← dateNow
  exec (fun w =>
    { w with
      shared.db.idempotencyKeys := w.shared.db.idempotencyKeys.filter
        (fun row => decide (¬ row.expiresAt < now)) })

end WhatsappTester.Routes
