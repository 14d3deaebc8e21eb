import WhatsappTester.Jobs.Messages
import WhatsappTester.Spreadsheet

namespace WhatsappTester.Limits

open Schema State Atomic.Trimming Scheduler Process Routes Dispatch Spreadsheet

def units (c : Char) : Nat := if c.toNat < 0x10000 then 1 else 2

def characters (texts : List String) : List (List Char) := texts.map String.toList

def maxRepeatValue : Int := 1000

def repeatValid (rule : RepeatInput) : Bool :=
  decide (1 ≤ rule.everyValue ∧ rule.everyValue ≤ maxRepeatValue) &&
    decide (rule.everyUnit ∈ [.minutes, .hours, .days, .weeks])

/-- The schema `createScheduleBody`. -/
def createScheduleBody (a : CreateInput) : Bool :=
  a.recipients.all (fun r => r.number.any (lengthIn 1 40) && r.name.all (lengthIn 0 200)) &&
    decide (1 ≤ a.recipients.length ∧ a.recipients.length ≤ maxRecipients) &&
    lengthIn 1 maxMessageLen a.message &&
    decide (0 ≤ a.delaySeconds ∧ a.delaySeconds ≤ maxDelaySeconds) && a.rule.all repeatValid

def Accepted : Call → Prop
  | .createSchedule input => createScheduleBody input = true
  | .createJob _ => False
  | _ => True

variable (toLowerCase : String → String)

/-- The texts of every row that is to be sent, white space at both ends apart, are
not longer in all than a message may be. Only the rows before one with a column
that is no text come to be sent. -/
def Fits (defaultMessage : String) : List SheetRow → Prop
  | [] => True
  | row :: rest =>
    ∀ texts : List String, cells toLowerCase (row.template defaultMessage) row.data =
      texts.map .ok → (digits (row.number.getD "") ≠ "" → (texts.map length).sum ≤
        maxMessageLen + leading isSpace (characters texts) + trailing isSpace (characters texts)) ∧
      Fits defaultMessage rest

def FormFits : Form → Prop
  | .sendBulk rows defaultMessage _ => Fits toLowerCase defaultMessage rows
  | .send .. | .sendGroups .. | .chatSend .. => True

variable {toLowerCase : String → String}

theorem length_eq (s : String) : length s = size units s.toList := rfl

theorem sum_length (texts : List String) :
    (texts.map length).sum = ((characters texts).map (size units)).sum := by
  rw [characters, List.map_map]
  rfl

theorem units_isSpace (c : Char) (h : isSpace c = true) : units c = 1 := by
  have hsmall : c.toNat < 0x10000 := by
    simp [isSpace] at h
    omega
  exact if_pos hsmall

theorem length_pos {s : String} (h : s ≠ "") : 1 ≤ length s := by
  cases hs : s.toList with
  | nil => exact absurd (String.toList_injective (hs.trans rfl)) h
  | cons c rest =>
    have hunit : 1 ≤ units c := by
      unfold units
      split <;> simp
    rw [length_eq, hs, size_cons]
    exact le_trans hunit (Nat.le_add_right _ _)

/-- A joined text without its white space at both ends is within the limit if its parts are. -/
theorem length_trim_le {texts : List String} {s : String}
    (hs : s.toList = (characters texts).flatten) :
    length (Routes.trim s) ≤ maxMessageLen ↔ (texts.map length).sum ≤
      maxMessageLen + leading isSpace (characters texts) + trailing isSpace (characters texts) := by
  rw [sum_length, length_eq, toList_trim, hs]
  by_cases hblank : ∀ c ∈ (characters texts).flatten, isSpace c = true
  · have hle := size_le_of_all units_isSpace hblank
    simp only [trim_eq_nil.mpr hblank, size_nil]
    omega
  · have hkept : ∃ c ∈ (characters texts).flatten, isSpace c = false := by
      push Not at hblank
      simpa only [Bool.not_eq_true] using hblank
    have hsize := size_trim units_isSpace hkept
    omega

theorem planRow_send {row : BulkRow} {number label message : String}
    (h : planRow row = .send number label message) :
    digits (row.number.getD "") ≠ "" ∧ message = Routes.trim row.resolved ∧ message ≠ "" := by
  simp only [planRow] at h
  split at h
  · cases h
  case isFalse hgiven =>
    cases h
    exact ⟨fun hnumber => hgiven (.inl hnumber), rfl, fun hmessage => hgiven (.inr hmessage)⟩

theorem planRow_long {row : BulkRow} (hnumber : digits (row.number.getD "") ≠ "")
    (hlong : maxMessageLen < length (Routes.trim row.resolved)) :
    ∃ number label, planRow row = .send number label (Routes.trim row.resolved) := by
  have hmessage : Routes.trim row.resolved ≠ "" := by
    intro hempty
    rw [hempty] at hlong
    exact absurd hlong (by decide)
  exact ⟨_, _, if_neg (not_or.mpr ⟨hnumber, hmessage⟩)⟩

theorem handed_deliver {c : Client} {k : Nat} {chatId recipient message : String} {e : Effect}
    (he : e ∈ (deliver c k chatId recipient message).1) : e = .handed chatId message := by
  unfold deliver at he
  cases hsend : c.sendMessage k <;> simpa [hsend] using he

theorem handed_sendToNumbers {c : Client} {k : Nat} {numbers : List String}
    {recipient message message' : String}
    (h : .handed recipient message' ∈ (sendToNumbers c k numbers message).1) :
    message' = message := by
  have hone : ∀ k raw, ∀ e ∈ (sendToNumber c k raw message).1, ∀ r m, e = .handed r m →
      m = message := by
    rintro k raw e he r m rfl
    unfold sendToNumber at he
    cases hlookup : c.getNumberId k with
    | found numberId =>
      rw [hlookup] at he
      exact (Effect.handed.inj (handed_deliver he)).2
    | missing => simp [hlookup] at he
    | threw err => simp [hlookup] at he
  unfold sendToNumbers at h
  split at h
  · cases h
  · exact eachRecipient_all (P := fun e => ∀ r m, e = .handed r m →
      m = message) hone k numbers _ h _ _ rfl

theorem handed_eachRow {c : Client} {k : Nat} {row : Todo} {recipient message : String}
    (h : .handed recipient message ∈ (eachRow c k [row]).1) :
    ∃ number label, row = .send number label message := by
  cases row with
  | skip result => cases h
  | send number label message' =>
    refine ⟨number, label, ?_⟩
    have hlog : (eachRow c k [.send number label message']).1 =
        (sendToNumbers c k [number] message').1 := by
      simp only [eachRow]
      split <;> simp_all
    rw [hlog] at h
    rw [handed_sendToNumbers h]

def taking : Client := ⟨fun _ => true, fun _ => .found "", fun _ => none⟩

theorem eachRow_taking (k : Nat) (number label message : String) :
    ∃ results, eachRow taking k [.send number label message] =
    ([.handed "" message], .ok results) := ⟨_, rfl⟩

theorem eachRow_taking_ok (k : Nat) (row : Todo) :
    ∃ log results, eachRow taking k [row] = (log, .ok results) := by
  cases row with
  | skip result => exact ⟨[], [result], rfl⟩
  | send number label message => exact ⟨_, _, rfl⟩

theorem length_resolved {texts : List String} :
    length (Routes.trim (String.ofList (texts.map String.toList).flatten)) ≤ maxMessageLen ↔
    (texts.map length).sum ≤
      maxMessageLen + leading isSpace (characters texts) + trailing isSpace (characters texts) :=
  length_trim_le String.toList_ofList

theorem within_of_fits {defaultMessage : String} {rows : List SheetRow}
    (h : Fits toLowerCase defaultMessage rows) {c : Client} {k : Nat} {recipient message : String}
    (hhanded : .handed recipient message ∈ (eachSheetRow toLowerCase c defaultMessage k rows).1) :
    lengthIn 1 maxMessageLen message = true := by
  induction rows generalizing k with
  | nil => cases hhanded
  | cons row rest ih =>
    rw [eachSheetRow] at hhanded
    cases hresolve : row.resolve toLowerCase defaultMessage with
    | error err => simp [hresolve] at hhanded
    | ok resolved =>
      obtain ⟨texts, htexts, hresolved⟩ := resolve_eq_ok.mp hresolve
      obtain ⟨hrow, hrest⟩ := h texts htexts
      have hsplit : .handed recipient message ∈ (eachRow c k [planRow resolved]).1 ∨
          .handed recipient message ∈
          (eachSheetRow toLowerCase c defaultMessage (k + 1) rest).1 := by
        simp only [hresolve] at hhanded
        split at hhanded
        case h_1 log err heq => exact .inl (by rwa [heq])
        case h_2 log results heq =>
          rw [heq]
          exact List.mem_append.mp hhanded
      obtain hfirst | hothers := hsplit
      · obtain ⟨number, label, hplan⟩ := handed_eachRow hfirst
        obtain ⟨hnumber, hmessage, hnonempty⟩ := planRow_send hplan
        rw [hresolved] at hnumber hmessage
        have hlength := length_resolved.mpr (hrow hnumber)
        rw [← hmessage] at hlength
        exact decide_eq_true ⟨length_pos hnonempty, hlength⟩
      · exact ih hrest hothers

theorem fits_of_within {defaultMessage : String} {rows : List SheetRow} {k : Nat}
    (h : ∀ recipient message, .handed recipient message ∈
      (eachSheetRow toLowerCase taking defaultMessage k rows).1 →
      lengthIn 1 maxMessageLen message = true) : Fits toLowerCase defaultMessage rows := by
  induction rows generalizing k with
  | nil => trivial
  | cons row rest ih =>
    intro texts htexts
    have hresolve := resolve_eq_ok.mpr ⟨texts, htexts, rfl⟩
    generalize hresolved : (⟨row.name, row.number, row.message,
      String.ofList (texts.map String.toList).flatten⟩ : BulkRow) = resolved at hresolve
    obtain ⟨log, results, hfirst⟩ := eachRow_taking_ok k (planRow resolved)
    have hlog : (eachSheetRow toLowerCase taking defaultMessage k (row :: rest)).1 =
        log ++ (eachSheetRow toLowerCase taking defaultMessage (k + 1) rest).1 := by
      simp only [eachSheetRow, hresolve, hfirst]
    rw [hlog] at h
    refine ⟨fun hnumber => ?_, ih (fun r m hm => h r m (List.mem_append_right _ hm))⟩
    by_contra hlong
    rw [← length_resolved, not_le] at hlong
    have hnumber' : digits (resolved.number.getD "") ≠ "" := by rwa [← hresolved]
    have hlong' : maxMessageLen < length (Routes.trim resolved.resolved) := by rwa [← hresolved]
    obtain ⟨number, label, hplan⟩ := planRow_long hnumber' hlong'
    obtain ⟨results', htaken⟩ := eachRow_taking k number label (Routes.trim resolved.resolved)
    rw [hplan, htaken] at hfirst
    have hhanded : .handed "" (Routes.trim resolved.resolved) ∈ log := by
      rw [← (Prod.mk.inj hfirst).1]
      exact List.mem_cons_self
    have hwithin := h _ _ (List.mem_append_left _ hhanded)
    exact absurd (of_decide_eq_true hwithin).2 (Nat.not_le_of_lt hlong')

theorem handed_afterLoop {t : Ticket} {action count : String} {recipientCount : Nat}
    {outcome : Outcome (List SendResult)} {recipient message : String} :
    .handed recipient message ∈ afterLoop t action count recipientCount outcome ↔
      .handed recipient message ∈ outcome.1 := by
  obtain ⟨log, result⟩ := outcome
  cases result with
  | ok results => simp [afterLoop, Ticket.row]
  | error err =>
    simp only [afterLoop, failed, List.mem_append]
    split <;> simp [Ticket.row]

theorem handed_sendToGroups {c : Client} {groupIds : List String}
    {recipient message message' : String}
    (h : .handed recipient message' ∈ (sendToGroups c groupIds message).1) :
    message' = message := by
  have hone : ∀ k r, ∀ e ∈ (deliver c k r r message).1, ∀ r' m, e = .handed r' m → m = message := by
    rintro k r e he r' m rfl
    exact (Effect.handed.inj (handed_deliver he)).2
  unfold sendToGroups at h
  split at h
  · cases h
  · exact eachRecipient_all (P := fun e => ∀ r m, e = .handed r m →
      m = message) hone 0 groupIds _ h _ _ rfl

theorem handed_chatSend {t : Ticket} {c : Client} {chatId message recipient message' : String}
    (h : .handed recipient message' ∈ chatSend t c chatId message) : message' = message := by
  unfold chatSend sendChatMessage failed at h
  cases hready : c.ready 0 with
  | false => simp [hready, notReadyError] at h
  | true =>
    cases hsend : c.sendMessage 0 with
    | none => simp_all [Ticket.row]
    | some err =>
      by_cases hname : err.name = "TransportNotReadyError" <;> simp_all [Ticket.row]

theorem form_within {form : Form} (hvalid : form.valid = true) :
    (∀ t c recipient message, .handed recipient message ∈ Spreadsheet.handle toLowerCase t c form →
      lengthIn 1 maxMessageLen message = true) ↔ FormFits toLowerCase form := by
  cases form with
  | send numbers message delaySeconds =>
    simp only [Form.valid, Form.body, Body.valid, Bool.and_eq_true] at hvalid
    refine ⟨fun _ => trivial, fun _ t c recipient message' h => ?_⟩
    exact handed_sendToNumbers (handed_afterLoop.mp h) ▸ hvalid.1.2
  | sendGroups groupIds message delaySeconds =>
    simp only [Form.valid, Form.body, Body.valid, Bool.and_eq_true] at hvalid
    refine ⟨fun _ => trivial, fun _ t c recipient message' h => ?_⟩
    exact handed_sendToGroups (handed_afterLoop.mp h) ▸ hvalid.1.2
  | sendBulk rows defaultMessage delaySeconds =>
    constructor
    · exact fun h =>
        fits_of_within (fun r m hm => h ⟨"", 0, 0⟩ taking r m (handed_afterLoop.mpr hm))
    · exact fun h t c recipient message hm => within_of_fits h (handed_afterLoop.mp hm)
  | chatSend chatId message =>
    simp only [Form.valid, Form.body, Body.valid, Bool.and_eq_true] at hvalid
    refine ⟨fun _ => trivial, fun _ t c recipient message' h => ?_⟩
    exact handed_chatSend h ▸ hvalid.2

theorem schedule_within {concurrency : Nat} {now : Ms} {as : List Action}
    (has : ∀ a ∈ as, ∀ c, a.calls = some c → Accepted c) {task : Task}
    (htask : task ∈ (run (initial concurrency now) as).world.mem.inFlight) :
    lengthIn 1 maxMessageLen task.item.message = true := by
  have hkept : Jobs.Messages.Kept (fun m => lengthIn 1 maxMessageLen m = true)
      (run (initial concurrency now) as).world := by
    refine Jobs.Messages.kept_run (fun a ha c hc m hm => ?_)
    have haccepted := has a ha c hc
    cases c with
    | createSchedule input =>
      simp only [Accepted, createScheduleBody, Bool.and_eq_true] at haccepted
      obtain rfl := List.mem_singleton.mp hm
      exact haccepted.1.1.2
    | createJob args => cases haccepted
    | _ => cases hm
  exact hkept _ (.inr (.inr ⟨task, htask, rfl⟩))

/-- Whatever a route or a schedule hands over is within the limit, if what is filled into the rows of a
bulk request leaves them within it. -/
theorem within_limits (toLowerCase : String → String) :
    (∀ form : Form, form.valid = true →
      ((∀ t c recipient message, .handed recipient message ∈
        Spreadsheet.handle toLowerCase t c form → lengthIn 1 maxMessageLen message = true) ↔
        FormFits toLowerCase form)) ∧
    ∀ (concurrency : Nat) (now : Ms) (as : List Action),
      (∀ a ∈ as, ∀ c, a.calls = some c → Accepted c) →
        ∀ task ∈ (run (initial concurrency now) as).world.mem.inFlight,
        lengthIn 1 maxMessageLen task.item.message = true :=
  ⟨fun _ hvalid => form_within hvalid, fun _ _ _ has _ htask => schedule_within has htask⟩

theorem within_limits_hello :
    ((∀ t c recipient message, .handed recipient message ∈ Spreadsheet.handle id t c
        (.sendBulk [⟨none, some "15550001", some "Hello {Name}", [("name", .ok "Ann")]⟩] "" 0) →
      lengthIn 1 maxMessageLen message = true) ↔
        FormFits id
          (.sendBulk [⟨none, some "15550001", some "Hello {Name}", [("name", .ok "Ann")]⟩] "" 0)) ∧
    ∀ task ∈ (run (initial 4 0)
      [.call (.createSchedule ⟨[⟨some "15550001", some "Ann"⟩], "Hello", some 0, 0, none, none⟩),
        .call (.runTickIfReady true), .call .tick]).world.mem.inFlight,
      lengthIn 1 maxMessageLen task.item.message = true :=
  ⟨(within_limits id).1 _ (by decide +kernel), (within_limits id).2 4 0 _ (by
    simp only [List.forall_mem_cons, List.not_mem_nil, Action.calls, Option.some.injEq,
      forall_eq', Accepted, and_true, false_implies, implies_true]
    decide +kernel)⟩

/-- A column that is longer than any message, as the one placeholder of a row. -/
theorem beyond_limit : ¬ ∀ form : Form, form.valid = true → ∀ t c recipient message,
    .handed recipient message ∈ Spreadsheet.handle id t c form →
    lengthIn 1 maxMessageLen message = true := by
  intro h
  have hvalid : Form.valid (.sendBulk [⟨none, some "15550001", some "{A}",
      [("A", .ok (String.ofList (List.replicate 4097 'a')))]⟩] "" 0) = true := by decide +kernel
  have hfits := (@form_within id _ hvalid).mp (h _ hvalid)
  have hcells : cells id (SheetRow.template "" ⟨none, some "15550001", some "{A}",
      [("A", .ok (String.ofList (List.replicate 4097 'a')))]⟩) [("A",
      .ok (String.ofList (List.replicate 4097 'a')))] =
      [String.ofList (List.replicate 4097 'a')].map .ok := by
    have hsegments : segments (SheetRow.template "" ⟨none, some "15550001", some "{A}",
        [("A", .ok (String.ofList (List.replicate 4097 'a')))]⟩) = [.placeholder ['A']] := by
      decide +kernel
    have hnamed : isNamed id ['A'] ("A", .ok (String.ofList (List.replicate 4097 'a'))) = true := by
      decide +kernel
    rw [cells, hsegments, List.map_singleton, substitute, List.find?_cons_of_pos hnamed]
    rfl
  have hle := (hfits _ hcells).1 (by decide +kernel)
  have hword : isSpace 'a' = false := by decide
  have hunits : units 'a' = 1 := by decide
  have hlength : ∀ n, ([String.ofList (List.replicate n 'a')].map length).sum = n := by
    intro n
    simp [length_eq, size, hunits]
  have hleading : ∀ n, leading isSpace (characters [String.ofList (List.replicate n 'a')]) = 0 := by
    intro n
    simp [leading_eq, characters, hword]
  have htrailing : ∀ n, trailing isSpace (characters [String.ofList (List.replicate n 'a')]) =
      0 := by
    intro n
    simp [trailing_eq, characters, hword]
  rw [hlength, hleading, htrailing] at hle
  exact absurd hle (by decide)

end WhatsappTester.Limits
