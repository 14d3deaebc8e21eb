import Mathlib.Data.Nat.Find
import WhatsappTester.Routes

namespace WhatsappTester.Dispatch

open Schema State Jobs.Retry Routes

/-- What `getNumberId` comes to: the id of a WhatsApp account, none, or an exception. -/
inductive Lookup
  | found (numberId : String)
  | missing
  | threw (err : SendError)
  deriving DecidableEq, Repr

/-- The WhatsApp client towards one request. Whether the connection is ready, how
a number is looked up and whether the client then takes a message (`none`) or
throws depends on the recipient's place in the request. -/
structure Client where
  ready : Nat → Bool
  getNumberId : Nat → Lookup
  sendMessage : Nat → Option SendError

inductive Effect
  | handed (recipient message : String)
  | audited (row : AuditRow)
  | answered (status : Nat) (response : Response)
  deriving DecidableEq, Repr

abbrev Outcome (α : Type) := List Effect × Except SendError α

def notReadyError : SendError := ⟨"TransportNotReadyError", "WhatsApp is not connected yet"⟩

/-- The `sendMessage` of a loop, whose exceptions become results. -/
def deliver (c : Client) (k : Nat) (chatId recipient message : String) : List Effect × SendResult :=
  match c.sendMessage k with
  | none => ([.handed chatId message], ⟨recipient, none, .sent, none⟩)
  | some err => ([.handed chatId message], ⟨recipient, none, .error, some err.message⟩)

def sendToNumber (c : Client) (k : Nat) (raw message : String) : List Effect × SendResult :=
  match c.getNumberId k with
  | .found numberId => deliver c k numberId raw message
  | .missing => ([], ⟨raw, none, .notOnWhatsapp, none⟩)
  | .threw err => ([], ⟨raw, none, .error, some err.message⟩)

def eachRecipient (body : Nat → String → List Effect × SendResult) :
    Nat → List String → List Effect × List SendResult
  | _, [] => ([], [])
  | k, r :: rest =>
    let first := body k r
    let others := eachRecipient body (k + 1) rest
    (first.1 ++ others.1, first.2 :: others.2)

def sendToNumbers (c : Client) (k : Nat) (numbers : List String) (message : String) :
    Outcome (List SendResult) :=
  if !c.ready k then ([], .error notReadyError)
  else
    let done := eachRecipient (fun k raw => sendToNumber c k raw message) k numbers
    (done.1, .ok done.2)

def sendToGroups (c : Client) (groupIds : List String) (message : String) :
    Outcome (List SendResult) :=
  if !c.ready 0 then ([], .error notReadyError)
  else
    let done := eachRecipient (fun k groupId => deliver c k groupId groupId message) 0 groupIds
    (done.1, .ok done.2)

def sendChatMessage (c : Client) (chatId message : String) : Outcome Unit :=
  if !c.ready 0 then ([], .error notReadyError)
  else
    match c.sendMessage 0 with
    | none => ([.handed chatId message], .ok ())
    | some err => ([.handed chatId message], .error err)

structure Ticket where
  user : String
  id : Id
  now : Ms

def Ticket.row (t : Ticket) (action : String) (target : Option String) (result : String)
    (metadata : Option (String × String)) : Effect :=
  .audited ⟨t.now, some t.user, action, target, result, some t.id, metadata⟩

/-- The `catch` of the four handlers. -/
def failed (t : Ticket) (action : String) (target : Option String) (err : SendError) :
    List Effect :=
  if err.name = "TransportNotReadyError" then [.answered 409 transportUnavailable]
  else [t.row action target "failure" none, .answered 500 internalError]

def afterLoop (t : Ticket) (action count : String) (recipientCount : Nat) :
    Outcome (List SendResult) → List Effect
  | (log, .ok results) =>
    log ++ [t.row action none "success" (some (count, toString recipientCount)),
      .answered 200 (.results results)]
  | (log, .error err) => log ++ failed t action none err

def send (t : Ticket) (c : Client) (numbers : List String) (message : String) : List Effect :=
  afterLoop t "send" "recipientCount" numbers.length (sendToNumbers c 0 numbers message)

def sendGroups (t : Ticket) (c : Client) (groupIds : List String) (message : String) :
    List Effect :=
  afterLoop t "send_groups" "groupCount" groupIds.length (sendToGroups c groupIds message)

def eachRow (c : Client) : Nat → List Todo → Outcome (List SendResult)
  | _, [] => ([], .ok [])
  | k, .skip result :: rest =>
    let others := eachRow c (k + 1) rest
    (others.1, others.2.map (result :: ·))
  | k, .send number label message :: rest =>
    match sendToNumbers c k [number] message with
    | (log, .error err) => (log, .error err)
    | (log, .ok sent) =>
      let others := eachRow c (k + 1) rest
      (log ++ others.1, others.2.map (sent.map (fun r => { r with name := some label }) ++ ·))

def sendBulk (t : Ticket) (c : Client) (rows : List BulkRow) : List Effect :=
  afterLoop t "bulk_send" "rowCount" rows.length (eachRow c 0 (rows.map planRow))

def chatSend (t : Ticket) (c : Client) (chatId message : String) : List Effect :=
  match sendChatMessage c chatId message with
  | (log, .ok _) => log ++ [t.row "chat_send" (some chatId) "success" none, .answered 200 .ok]
  | (log, .error err) => log ++ failed t "chat_send" (some chatId) err

def handle (t : Ticket) (c : Client) : Body → List Effect
  | .send numbers message _ => send t c numbers message
  | .sendGroups groupIds message _ => sendGroups t c groupIds message
  | .sendBulk rows _ _ => sendBulk t c rows
  | .chatSend chatId message => chatSend t c chatId message

/-- A request on its way through the kill switch, the look-up of its idempotency
key, the validation of its body and its handler. -/
def serve (t : Ticket) (disabled : Bool) (cached : Option Response) (c : Client) (body : Body) :
    List Effect :=
  if disabled then [.answered 423 outboundDisabledError]
  else
    match cached with
    | some response => [.answered 200 response]
    | none =>
      if body.valid then handle t c body
      else [.answered 400 (.failure "Invalid request." "VALIDATION_ERROR")]

def isHanded : Effect → Bool
  | .handed .. => true
  | _ => false

def isAnswer : Effect → Bool
  | .answered .. => true
  | _ => false

def names (t : Ticket) : Effect → Bool
  | .audited row => decide (row.actor = some t.user ∧ row.requestId = some t.id)
  | _ => false

/-- If a message was handed to the client, the request was audited before it was answered. -/
def Accounted (t : Ticket) (log : List Effect) : Prop :=
  log.any isHanded = true → (log.takeWhile (fun e => !isAnswer e)).any (names t) = true

instance (t : Ticket) (log : List Effect) : Decidable (Accounted t log) :=
  inferInstanceAs (Decidable (_ → _))

def sends : Todo → Bool
  | .send .. => true
  | .skip .. => false

/-- The connection is gone at a row that is to be sent, and the client took a message before. -/
def Lost (c : Client) (rows : List Todo) : Prop :=
  ∃ j, rows[j]?.any sends = true ∧ c.ready j = false ∧
    (∀ h < j, rows[h]?.any sends = true → c.ready h = true) ∧ ∃ i < j, rows[i]?.any sends = true ∧
    ∃ numberId, c.getNumberId i = .found numberId

/-- A bulk request loses its connection on the way, or the client itself throws
the transport's exception at a chat message. -/
def Lapses (c : Client) : Body → Prop
  | .sendBulk rows _ _ => Lost c (rows.map planRow)
  | .chatSend .. => c.ready 0 = true ∧ ∃ err, c.sendMessage 0 = some err ∧
      err.name = "TransportNotReadyError"
  | .send .. | .sendGroups .. => False

variable {t : Ticket} {c : Client} {log : List Effect}

def Plain (log : List Effect) : Prop := ∀ e ∈ log, isHanded e = true

theorem plain_append {log' : List Effect} (h : Plain log) (h' : Plain log') :
    Plain (log ++ log') := by
  intro e he
  obtain he | he := List.mem_append.mp he
  · exact h e he
  · exact h' e he

theorem plain_deliver (c : Client) (k : Nat) (chatId recipient message : String) :
    Plain (deliver c k chatId recipient message).1 := by
  unfold deliver
  split <;> simp [Plain, isHanded]

theorem plain_sendToNumber (c : Client) (k : Nat) (raw message : String) :
    Plain (sendToNumber c k raw message).1 := by
  unfold sendToNumber
  split
  · exact plain_deliver c k _ raw message
  · simp [Plain]
  · simp [Plain]

/-- What holds of all that one pass of a loop does holds of all that the loop does. -/
theorem eachRecipient_all {P : Effect → Prop} {body : Nat → String → List Effect × SendResult}
    (h : ∀ k r, ∀ e ∈ (body k r).1, P e) (k : Nat) (recipients : List String) :
    ∀ e ∈ (eachRecipient body k recipients).1, P e := by
  induction recipients generalizing k with
  | nil => simp [eachRecipient]
  | cons r rest ih => exact List.forall_mem_append.mpr ⟨h k r, ih (k + 1)⟩

theorem plain_eachRecipient {body : Nat → String → List Effect × SendResult}
    (h : ∀ k r, Plain (body k r).1) (k : Nat) (recipients : List String) :
    Plain (eachRecipient body k recipients).1 :=
  eachRecipient_all h k recipients

theorem plain_sendToNumbers (c : Client) (k : Nat) (numbers : List String) (message : String) :
    Plain (sendToNumbers c k numbers message).1 := by
  unfold sendToNumbers
  split
  · simp [Plain]
  · exact plain_eachRecipient (fun k raw => plain_sendToNumber c k raw message) k numbers

theorem plain_sendToGroups (c : Client) (groupIds : List String) (message : String) :
    Plain (sendToGroups c groupIds message).1 := by
  unfold sendToGroups
  split
  · simp [Plain]
  · exact plain_eachRecipient (fun k groupId => plain_deliver c k groupId groupId message) 0
      groupIds

theorem plain_eachRow (c : Client) (k : Nat) (rows : List Todo) : Plain (eachRow c k rows).1 := by
  induction rows generalizing k with
  | nil => simp [Plain, eachRow]
  | cons row rest ih =>
    cases row with
    | skip result => exact ih (k + 1)
    | send number label message =>
      have hfirst := plain_sendToNumbers c k [number] message
      simp only [eachRow]
      split
      case h_1 log err heq => simpa [heq] using hfirst
      case h_2 log sent heq => exact plain_append (by simpa [heq] using hfirst) (ih (k + 1))

theorem takeWhile_plain (h : Plain log) (rest : List Effect) :
    (log ++ rest).takeWhile (fun e => !isAnswer e) = log ++
    rest.takeWhile (fun e => !isAnswer e) := by
  induction log with
  | nil => rfl
  | cons e log ih =>
    have hfirst : isHanded e = true := h e List.mem_cons_self
    have hrest := ih (fun e he => h e (List.mem_cons_of_mem _ he))
    cases e <;> simp_all [isHanded, isAnswer]

theorem accounted_audited (h : Plain log) (action : String) (target : Option String)
    (result : String) (metadata : Option (String × String)) (status : Nat) (response : Response) :
    Accounted t (log ++ [t.row action target result metadata, .answered status response]) := by
  intro _
  rw [takeWhile_plain h]
  simp [Ticket.row, isAnswer, names]

theorem accounted_answered (h : Plain log) (status : Nat) (response : Response) :
    Accounted t (log ++ [.answered status response]) ↔ log = [] := by
  constructor
  · intro hacc
    cases log with
    | nil => rfl
    | cons e log =>
      have hnone : ((e :: log) ++ [Effect.answered status response]).any isHanded = true := by
        simp [h e List.mem_cons_self]
      have hnamed := hacc hnone
      rw [takeWhile_plain h, List.any_append, Bool.or_eq_true] at hnamed
      obtain hnamed | hnamed := hnamed
      · obtain ⟨e', he', hname⟩ := List.any_eq_true.mp hnamed
        have hhanded := h e' he'
        cases e' <;> simp_all [isHanded, names]
      · simp [isAnswer] at hnamed
  · rintro rfl
    simp [Accounted, isHanded]

theorem accounted_failed (h : Plain log) (action : String) (target : Option String)
    (err : SendError) :
    Accounted t (log ++ failed t action target err) ↔
    (err.name = "TransportNotReadyError" → log = []) := by
  unfold failed
  split
  case isTrue hname => simp [accounted_answered h, hname]
  case isFalse hname => simp [hname, accounted_audited h]

theorem accounted_afterLoop {outcome : Outcome (List SendResult)} (h : Plain outcome.1)
    (action count : String) (n : Nat) : Accounted t (afterLoop t action count n outcome) ↔
      ∀ err, outcome.2 = .error err → err.name = "TransportNotReadyError" → outcome.1 = [] := by
  obtain ⟨log, result⟩ := outcome
  cases result with
  | ok results => simp [afterLoop, accounted_audited h]
  | error err => simp [afterLoop, accounted_failed h]

/-- Whether row `j` of the rest, whose first row has number `k`, is to be sent and finds the
connection gone. -/
def stops (c : Client) (k : Nat) (rows : List Todo) (j : Nat) : Prop :=
  rows[j]?.any sends = true ∧ c.ready (k + j) = false

/-- Whether the client takes the message of row `i`, given that the loop comes to it. -/
def takes (c : Client) (k : Nat) (rows : List Todo) (i : Nat) : Prop :=
  rows[i]?.any sends = true ∧ ∃ numberId, c.getNumberId (k + i) = .found numberId

theorem stops_cons (c : Client) (k : Nat) (row : Todo) (rest : List Todo) (j : Nat) :
    stops c k (row :: rest) (j + 1) ↔ stops c (k + 1) rest j := by
  simp [stops, Nat.add_right_comm k 1 j, Nat.add_assoc]

theorem takes_cons (c : Client) (k : Nat) (row : Todo) (rest : List Todo) (i : Nat) :
    takes c k (row :: rest) (i + 1) ↔ takes c (k + 1) rest i := by
  simp [takes, Nat.add_right_comm k 1 i, Nat.add_assoc]

theorem sendToNumbers_one (c : Client) (k : Nat) (number message : String)
    (hready : c.ready k = true) :
    ∃ r, sendToNumbers c k [number] message = ((sendToNumber c k number message).1, .ok [r]) := by
  exact ⟨(sendToNumber c k number message).2, by simp [sendToNumbers, eachRecipient, hready]⟩

theorem sendToNumber_takes (c : Client) (k : Nat) (number message : String) :
    (sendToNumber c k number message).1 ≠ [] ↔ ∃ numberId, c.getNumberId k = .found numberId := by
  unfold sendToNumber deliver
  cases hlookup : c.getNumberId k with
  | found numberId => cases c.sendMessage k <;> simp
  | missing => simp
  | threw err => simp

theorem eachRow_error (c : Client) (k : Nat) (rows : List Todo) :
    (∃ j, stops c k rows j) ↔ (eachRow c k rows).2 = .error notReadyError := by
  induction rows generalizing k with
  | nil => simp [stops, eachRow]
  | cons row rest ih =>
    have hshift : (∃ j, stops c k (row :: rest) j) ↔
        stops c k (row :: rest) 0 ∨ ∃ j, stops c (k + 1) rest j := by
      constructor
      · rintro ⟨j, hj⟩
        cases j with
        | zero => exact .inl hj
        | succ j => exact .inr ⟨j, (stops_cons c k row rest j).mp hj⟩
      · rintro (h | ⟨j, hj⟩)
        · exact ⟨0, h⟩
        · exact ⟨j + 1, (stops_cons c k row rest j).mpr hj⟩
    rw [hshift, ih (k + 1)]
    cases row with
    | skip result =>
      cases hrest : (eachRow c (k + 1) rest).2 <;> simp [stops, sends, eachRow, hrest, Except.map]
    | send number label message =>
      cases hready : c.ready k with
      | false => simp [stops, sends, eachRow, sendToNumbers, hready]
      | true =>
        obtain ⟨r, hsend⟩ := sendToNumbers_one c k number message hready
        cases hrest : (eachRow c (k + 1) rest).2 <;>
          simp [stops, sends, eachRow, hsend, hready, hrest, Except.map]

theorem eachRow_notReady {k : Nat} {rows : List Todo} {err : SendError}
    (h : (eachRow c k rows).2 = .error err) :
    err = notReadyError := by
  induction rows generalizing k with
  | nil => simp [eachRow] at h
  | cons row rest ih =>
    have hmap : ∀ f : List SendResult → List SendResult,
        (eachRow c (k + 1) rest).2.map f = .error err → err = notReadyError := by
      intro f hf
      cases hrest : (eachRow c (k + 1) rest).2 with
      | ok results => simp [hrest, Except.map] at hf
      | error err' =>
        rw [hrest] at hf
        exact ih (hrest.trans hf)
    cases row with
    | skip result => exact hmap _ h
    | send number label message =>
      cases hready : c.ready k with
      | false =>
        simp only [eachRow, sendToNumbers, hready, Bool.not_false, if_true, Except.error.injEq] at h
        exact h.symm
      | true =>
        obtain ⟨r, hsend⟩ := sendToNumbers_one c k number message hready
        simp only [eachRow, hsend] at h
        exact hmap _ h

theorem eachRow_takes (c : Client) (k : Nat) (rows : List Todo) :
    (∃ i, takes c k rows i ∧ ∀ h ≤ i, ¬ stops c k rows h) ↔ (eachRow c k rows).1 ≠ [] := by
  induction rows generalizing k with
  | nil => simp [takes, eachRow]
  | cons row rest ih =>
    have hshift : (∃ i, takes c k (row :: rest) i ∧ ∀ h ≤ i, ¬ stops c k (row :: rest) h) ↔
        ¬ stops c k (row :: rest) 0 ∧
          (takes c k (row :: rest) 0 ∨ ∃ i, takes c (k + 1) rest i ∧
            ∀ h ≤ i, ¬ stops c (k + 1) rest h) := by
      constructor
      · rintro ⟨i, htakes, hgo⟩
        refine ⟨hgo 0 (Nat.zero_le i), ?_⟩
        cases i with
        | zero => exact .inl htakes
        | succ i =>
          refine .inr ⟨i, (takes_cons c k row rest i).mp htakes, fun h hi hstop => ?_⟩
          exact hgo (h + 1) (Nat.succ_le_succ hi) ((stops_cons c k row rest h).mpr hstop)
      · rintro ⟨hgo, htakes | ⟨i, htakes, hrest⟩⟩
        · refine ⟨0, htakes, fun h hh => ?_⟩
          rwa [Nat.le_zero.mp hh]
        · refine ⟨i + 1, (takes_cons c k row rest i).mpr htakes, fun h hi hstop => ?_⟩
          cases h with
          | zero => exact hgo hstop
          | succ h => exact hrest h (Nat.le_of_succ_le_succ hi) ((stops_cons c k row rest h).mp hstop)
    rw [hshift, ih (k + 1)]
    cases row with
    | skip result => simp [stops, takes, sends, eachRow]
    | send number label message =>
      cases hready : c.ready k with
      | false => simp [stops, sends, eachRow, sendToNumbers, hready]
      | true =>
        obtain ⟨r, hsend⟩ := sendToNumbers_one c k number message hready
        have hgo : ¬ stops c k (.send number label message :: rest) 0 := by simp [stops, hready]
        have htakes : takes c k (.send number label message :: rest) 0 ↔
            (sendToNumber c k number message).1 ≠ [] := by
          rw [sendToNumber_takes]
          simp [takes, sends]
        have hlog : (eachRow c k (.send number label message :: rest)).1 =
            (sendToNumber c k number message).1 ++ (eachRow c (k + 1) rest).1 := by
          simp [eachRow, hsend]
        rw [htakes, hlog, ne_eq, ne_eq, ne_eq, List.append_eq_nil_iff, not_and_or]
        simp only [hgo, not_false_eq_true, true_and]

theorem accounted_send (t : Ticket) (c : Client) (numbers : List String) (message : String) :
    Accounted t (send t c numbers message) := by
  refine (accounted_afterLoop (plain_sendToNumbers c 0 numbers message) _ _ _).mpr
    (fun err herr _ => ?_)
  unfold sendToNumbers at herr ⊢
  split at herr
  case isTrue hgone => rw [if_pos hgone]
  case isFalse => cases herr

theorem accounted_sendGroups (t : Ticket) (c : Client) (groupIds : List String) (message : String) :
    Accounted t (sendGroups t c groupIds message) := by
  refine (accounted_afterLoop (plain_sendToGroups c groupIds message) _ _ _).mpr
    (fun err herr _ => ?_)
  unfold sendToGroups at herr ⊢
  split at herr
  case isTrue hgone => rw [if_pos hgone]
  case isFalse => cases herr

theorem lost_iff (c : Client) (rows : List Todo) :
    Lost c rows ↔ (eachRow c 0 rows).2 = .error notReadyError ∧ (eachRow c 0 rows).1 ≠ [] := by
  rw [← eachRow_error, ← eachRow_takes]
  simp only [Lost, stops, takes, Nat.zero_add]
  constructor
  · rintro ⟨j, hsend, hgone, hbefore, i, hij, hi, hfound⟩
    refine ⟨⟨j, hsend, hgone⟩, i, ⟨hi, hfound⟩, fun h hle hstop => ?_⟩
    have hready := hbefore h (Nat.lt_of_le_of_lt hle hij) hstop.1
    simp [hready] at hstop
  · classical
    rintro ⟨hstop, i, ⟨hi, hfound⟩, hgo⟩
    have hleast := Nat.find_spec hstop
    refine ⟨Nat.find hstop, hleast.1, hleast.2, fun h hlt hsend => ?_, i, ?_, hi, hfound⟩
    · by_contra hgone
      exact Nat.find_min hstop hlt ⟨hsend, by simpa using hgone⟩
    · by_contra hle
      exact hgo _ (Nat.le_of_not_lt hle) hleast

theorem accounted_sendBulk (t : Ticket) (c : Client) (rows : List BulkRow) :
    Accounted t (sendBulk t c rows) ↔ ¬ Lost c (rows.map planRow) := by
  rw [lost_iff, sendBulk, accounted_afterLoop (plain_eachRow c 0 (rows.map planRow))]
  constructor
  · rintro h ⟨herr, hhanded⟩
    exact hhanded (h notReadyError herr rfl)
  · intro h err herr _
    obtain rfl := eachRow_notReady herr
    by_contra hhanded
    exact h ⟨herr, hhanded⟩

theorem accounted_chatSend (t : Ticket) (c : Client) (chatId message : String) :
    Accounted t (chatSend t c chatId message) ↔
      ¬ (c.ready 0 = true ∧ ∃ err, c.sendMessage 0 = some err ∧
        err.name = "TransportNotReadyError") := by
  unfold chatSend sendChatMessage
  cases hready : c.ready 0 with
  | false =>
    have hplain : Plain [] := by simp [Plain]
    have hfailed := accounted_failed (t := t) hplain "chat_send" (some chatId) notReadyError
    simpa using hfailed.mpr (fun _ => rfl)
  | true =>
    have hplain : Plain [.handed chatId message] := by simp [Plain, isHanded]
    cases hsend : c.sendMessage 0 with
    | none =>
      have haudited :=
        accounted_audited (t := t) hplain "chat_send" (some chatId) "success" none 200 .ok
      simpa using haudited
    | some err =>
      have hfailed := accounted_failed (t := t) hplain "chat_send" (some chatId) err
      simpa using hfailed

/-- A request that hands a message over is audited before it is answered, unless it
comes to its handler and lapses there. -/
theorem accounted_iff (t : Ticket) (disabled : Bool) (cached : Option Response) (c : Client)
    (body : Body) :
    Accounted t (serve t disabled cached c body) ↔
      ¬ (disabled = false ∧ cached = none ∧ body.valid = true ∧ Lapses c body) := by
  have hrefused (status : Nat) (response : Response) : Accounted t [.answered status response] := by
    simp [Accounted, isHanded]
  unfold serve
  cases disabled with
  | true => simp [hrefused]
  | false =>
    cases cached with
    | some response => simp [hrefused]
    | none =>
      cases hvalid : body.valid with
      | false => simp [hrefused]
      | true =>
        cases body with
        | send numbers message delaySeconds => simp [handle, Lapses, accounted_send]
        | sendGroups groupIds message delaySeconds => simp [handle, Lapses, accounted_sendGroups]
        | sendBulk rows defaultMessage delaySeconds => simp [handle, Lapses, accounted_sendBulk]
        | chatSend chatId message => simp [handle, Lapses, accounted_chatSend]

/-- The connection is lost between two rows of a bulk request. -/
theorem lost_unaudited : ¬ Accounted ⟨"owner", 1, 0⟩
    (serve ⟨"owner", 1, 0⟩ false none ⟨fun k => decide (k = 0), fun _ => .found "15550001@c.us",
      fun _ => none⟩
      (.sendBulk [⟨some "Ann", some "15550001", none, "Hello"⟩,
        ⟨some "Bob", some "15550002", none, "Hello"⟩]
        "Hello" 0)) := by
  decide +kernel

end WhatsappTester.Dispatch
