import WhatsappTester.Atomic.Trimming
import WhatsappTester.Dispatch

namespace WhatsappTester.Spreadsheet

open Schema State Jobs.Retry Routes Dispatch

inductive Segment
  | literal (text : List Char)
  | placeholder (key : List Char)
  deriving DecidableEq, Repr

/-- The scan for `/\{([^{}]+)\}/g`, outside of braces or with the characters that
follow an opening brace. -/
def scan : Option (List Char) → List Char → List Segment
  | none, [] => []
  | none, c :: rest => if c = '{' then scan (some []) rest else .literal [c] :: scan none rest
  | some key, [] => [.literal ('{' :: key)]
  | some key, c :: rest =>
    if c = '{' then .literal ('{' :: key) :: scan (some []) rest
    else if c = '}' then
      (if key = [] then .literal ['{', '}'] else .placeholder key) :: scan none rest
    else scan (some (key ++ [c])) rest

def segments (template : String) : List Segment := scan none template.toList

/-- What `String(value ?? '')` comes to for the value of a column. -/
abbrev Cell := Except SendError String

/-- The columns of a row, in the order of `Object.keys`. -/
abbrev Columns := List (String × Cell)

def braced (key : List Char) : String := String.ofList ('{' :: key ++ ['}'])

section Template

variable (toLowerCase : String → String)

def isNamed (key : List Char) (column : String × Cell) : Bool :=
  decide (toLowerCase (trim column.1) = toLowerCase (trim (String.ofList key)))

def substitute (data : Columns) : Segment → Cell
  | .literal text => .ok (String.ofList text)
  | .placeholder key => ((data.find? (isNamed toLowerCase key)).map (·.2)).getD (.ok (braced key))

/-- The replacements are made one after the other, up to the first exception. -/
def join : List Cell → Cell
  | [] => .ok ""
  | cell :: rest => do
    let text ← cell
    let others ← join rest
    pure (text ++ others)

def cells (template : String) (data : Columns) : List Cell :=
  (segments template).map (substitute toLowerCase data)

def resolveTemplate (template : String) (data : Columns) : Cell :=
  if template = "" then .ok "" else join (cells toLowerCase template data)

/-- A row of the body of `/send-bulk` as it arrives. -/
structure SheetRow where
  name : Option String
  number : Option String
  message : Option String
  data : Columns

/-- `String(row.message || defaultMessage || '').trim()` -/
def SheetRow.template (defaultMessage : String) (row : SheetRow) : String :=
  trim ((row.message.filter (· ≠ "")).getD defaultMessage)

def SheetRow.resolve (defaultMessage : String) (row : SheetRow) : Except SendError BulkRow :=
  (resolveTemplate toLowerCase (row.template defaultMessage) row.data).map
    (fun text => ⟨row.name, row.number, row.message, text⟩)

/-- The body of a send route as it arrives. -/
inductive Form
  | send (numbers : List String) (message : String) (delaySeconds : Rat)
  | sendGroups (groupIds : List String) (message : String) (delaySeconds : Rat)
  | sendBulk (rows : List SheetRow) (defaultMessage : String) (delaySeconds : Rat)
  | chatSend (chatId message : String)

def Form.body (text : SheetRow → String) : Form → Body
  | .send numbers message delaySeconds => .send numbers message delaySeconds
  | .sendGroups groupIds message delaySeconds => .sendGroups groupIds message delaySeconds
  | .sendBulk rows defaultMessage delaySeconds =>
    .sendBulk (rows.map (fun row => ⟨row.name, row.number, row.message, text row⟩))
      defaultMessage delaySeconds
  | .chatSend chatId message => .chatSend chatId message

/-- The schemas do not look at the columns of a row. -/
def Form.valid (form : Form) : Bool := (form.body (fun _ => "")).valid

def eachSheetRow (c : Client) (defaultMessage : String) :
    Nat → List SheetRow → Outcome (List SendResult)
  | _, [] => ([], .ok [])
  | k, row :: rest =>
    match row.resolve toLowerCase defaultMessage with
    | .error err => ([], .error err)
    | .ok resolved =>
      match eachRow c k [planRow resolved] with
      | (log, .error err) => (log, .error err)
      | (log, .ok results) =>
        let others := eachSheetRow c defaultMessage (k + 1) rest
        (log ++ others.1, others.2.map (results ++ ·))

def handle (t : Ticket) (c : Client) : Form → List Effect
  | .send numbers message _ => send t c numbers message
  | .sendGroups groupIds message _ => sendGroups t c groupIds message
  | .sendBulk rows defaultMessage _ =>
    afterLoop t "bulk_send" "rowCount" rows.length
      (eachSheetRow toLowerCase c defaultMessage 0 rows)
  | .chatSend chatId message => chatSend t c chatId message

end Template

variable {toLowerCase : String → String}

theorem join_eq_ok {row : List Cell} {s : String} :
    join row = .ok s ↔ ∃ texts : List String, row = texts.map .ok ∧
    s.toList = (texts.map String.toList).flatten := by
  constructor
  · intro h
    induction row generalizing s with
    | nil =>
      cases h
      exact ⟨[], rfl, rfl⟩
    | cons cell rest ih =>
      cases cell with
      | error err => cases h
      | ok text =>
        cases hrest : join rest with
        | error err =>
          rw [join, hrest] at h
          cases h
        | ok others =>
          rw [join, hrest] at h
          cases h
          obtain ⟨texts, htexts, hothers⟩ := ih hrest
          exact ⟨text :: texts, by rw [htexts, List.map_cons], by simp [hothers]⟩
  · rintro ⟨texts, rfl, hs⟩
    induction texts generalizing s with
    | nil => simp_all [join]
    | cons text texts ih =>
      have hrest := ih (s := String.ofList (texts.map String.toList).flatten) String.toList_ofList
      have hwhole : s = text ++ String.ofList (texts.map String.toList).flatten :=
        String.toList_injective (by simp [hs])
      rw [List.map_cons, join, hrest, hwhole]
      rfl

def source : Segment → List Char
  | .literal text => text
  | .placeholder key => '{' :: key ++ ['}']

theorem source_scan (key : Option (List Char)) (rest : List Char) :
    ((scan key rest).map source).flatten = (key.map ('{' :: ·)).getD [] ++ rest := by
  induction rest generalizing key with
  | nil => cases key <;> simp [scan, source]
  | cons c rest ih =>
    cases key with
    | none =>
      rw [scan]
      split
      case isTrue hopen => simp [ih, hopen]
      case isFalse => simp [ih, source]
    | some key =>
      rw [scan]
      split
      case isTrue hopen => simp [ih, source, hopen]
      case isFalse =>
        split
        case isTrue hclose => by_cases hkey : key = [] <;> simp [ih, source, hkey, hclose]
        case isFalse => simp [ih]

theorem scan_key {key : Option (List Char)} {rest : List Char} {name : List Char}
    (hkey : ∀ k ∈ key, '{' ∉ k ∧ '}' ∉ k) (h : .placeholder name ∈ scan key rest) :
    name ≠ [] ∧ '{' ∉ name ∧ '}' ∉ name := by
  have hempty : ∀ k ∈ some ([] : List Char), '{' ∉ k ∧ '}' ∉ k := by simp
  have hnone : ∀ k ∈ (none : Option (List Char)), '{' ∉ k ∧ '}' ∉ k := by simp
  induction rest generalizing key with
  | nil => cases key <;> simp [scan] at h
  | cons c rest ih =>
    cases key with
    | none =>
      rw [scan] at h
      split at h
      · exact ih hempty h
      · exact ih hnone (by simpa using h)
    | some key =>
      have hbefore := hkey key rfl
      rw [scan] at h
      split at h
      · exact ih hempty (by simpa using h)
      case isFalse hopen =>
        split at h
        case isTrue hclose =>
          by_cases hkey : key = []
          · exact ih hnone (by simpa [hkey] using h)
          · obtain hname | hrest := List.mem_cons.mp h
            · simp only [hkey, if_false, Segment.placeholder.injEq] at hname
              exact hname ▸ ⟨hkey, hbefore⟩
            · exact ih hnone hrest
        case isFalse hclose =>
          have hlonger : ∀ k ∈ some (key ++ [c]), '{' ∉ k ∧ '}' ∉ k := by
            simp [hbefore, Ne.symm hopen, Ne.symm hclose]
          exact ih hlonger h

theorem resolveTemplate_eq (template : String) (data : Columns) :
    resolveTemplate toLowerCase template data = join (cells toLowerCase template data) := by
  unfold resolveTemplate
  split
  case isTrue hempty =>
    rw [hempty]
    rfl
  case isFalse => rfl

theorem resolve_eq_ok {row : SheetRow} {defaultMessage : String} {resolved : BulkRow} :
    row.resolve toLowerCase defaultMessage = .ok resolved ↔
      ∃ texts : List String, cells toLowerCase (row.template defaultMessage) row.data =
        texts.map .ok ∧ resolved =
        ⟨row.name, row.number, row.message, String.ofList (texts.map String.toList).flatten⟩ := by
  rw [SheetRow.resolve, resolveTemplate_eq]
  constructor
  · intro h
    cases hjoin : join (cells toLowerCase (row.template defaultMessage) row.data) with
    | error err =>
      rw [hjoin] at h
      cases h
    | ok text =>
      rw [hjoin] at h
      cases h
      obtain ⟨texts, htexts, htext⟩ := join_eq_ok.mp hjoin
      exact ⟨texts, htexts, by rw [← htext, String.ofList_toList]⟩
  · rintro ⟨texts, htexts, rfl⟩
    rw [join_eq_ok.mpr ⟨texts, htexts, String.toList_ofList⟩]
    rfl

section Space

theorem toList_trim (s : String) : (trim s).toList = Atomic.Trimming.trim isSpace s.toList :=
  String.toList_ofList

theorem trim_eq_empty {s : String} : trim s = "" ↔ ∀ c ∈ s.toList, isSpace c = true := by
  rw [← Atomic.Trimming.trim_eq_nil, ← toList_trim, String.toList_eq_nil_iff]

theorem trim_append {w w' : List Char} (hw : ∀ c ∈ w, isSpace c = true)
    (hw' : ∀ c ∈ w', isSpace c = true) (s : String) :
    trim (String.ofList w ++ s ++ String.ofList w') = trim s := by
  apply String.toList_injective
  rw [toList_trim, toList_trim, String.toList_append, String.toList_append, String.toList_ofList,
    String.toList_ofList, Atomic.Trimming.trim_append hw hw']

theorem isSpace_brace {c : Char} (h : isSpace c = true) : c ≠ '{' ∧ c ≠ '}' := by
  constructor <;> rintro rfl <;> exact absurd h (by decide)

theorem join_append (row row' : List Cell) :
    join (row ++ row') = (join row).bind (fun s => (join row').map (s ++ ·)) := by
  induction row with
  | nil => cases hrest : join row' <;> simp [join, hrest, Except.bind, Except.map]
  | cons cell rest ih =>
    rw [List.cons_append, join, join, ih]
    cases cell with
    | error err => rfl
    | ok text =>
      cases join rest with
      | error err => rfl
      | ok others =>
        cases join row' <;> simp [Except.bind, Except.map, bind, pure, Except.pure,
          String.append_assoc]

variable (data : Columns)

abbrev rendered (toLowerCase : String → String) (data : Columns) (key : Option (List Char))
    (rest : List Char) : Cell :=
  join ((scan key rest).map (substitute toLowerCase data))

theorem scan_cons (key : Option (List Char)) (c : Char) :
    ∃ parts key', ∀ rest, scan key (c :: rest) = parts ++ scan key' rest := by
  cases key with
  | none =>
    by_cases hopen : c = '{'
    · exact ⟨[], some [], fun rest => by simp [scan, hopen]⟩
    · exact ⟨[.literal [c]], none, fun rest => by simp [scan, hopen]⟩
  | some key =>
    by_cases hopen : c = '{'
    · exact ⟨[.literal ('{' :: key)], some [], fun rest => by simp [scan, hopen]⟩
    · by_cases hclose : c = '}'
      · exact ⟨[if key = [] then .literal ['{', '}'] else .placeholder key], none,
          fun rest => by simp [scan, hclose]⟩
      · exact ⟨[], some (key ++ [c]), fun rest => by simp [scan, hopen, hclose]⟩

theorem rendered_space {w : List Char} (hw : ∀ c ∈ w, isSpace c = true)
    (key : Option (List Char)) : rendered toLowerCase data key w =
      .ok (String.ofList ((key.map ('{' :: ·)).getD [] ++ w)) := by
  induction w generalizing key with
  | nil =>
    cases key with
    | none => rfl
    | some key => simp [rendered, scan, substitute, join, pure, bind, Except.bind, Except.pure]
  | cons c w ih =>
    obtain ⟨hc, hrest⟩ := List.forall_mem_cons.mp hw
    obtain ⟨hopen, hclose⟩ := isSpace_brace hc
    cases key with
    | none =>
      have hcons : rendered toLowerCase data none (c :: w) =
          (rendered toLowerCase data none w).map (String.ofList [c] ++ ·) := by
        simp only [rendered, scan, if_neg hopen, List.map_cons, join, substitute]
        rfl
      rw [hcons, ih hrest none]
      simp [Except.map]
    | some key =>
      have hcons : rendered toLowerCase data (some key) (c :: w) =
          rendered toLowerCase data (some (key ++ [c])) w := by
        simp only [rendered, scan, if_neg hopen, if_neg hclose]
      rw [hcons, ih hrest (some (key ++ [c]))]
      simp

theorem rendered_append {w : List Char} (hw : ∀ c ∈ w, isSpace c = true)
    (key : Option (List Char)) (rest : List Char) :
    rendered toLowerCase data key (rest ++ w) =
      (rendered toLowerCase data key rest).map (· ++ String.ofList w) := by
  induction rest generalizing key with
  | nil =>
    rw [List.nil_append, rendered_space data hw, rendered_space data (by simp)]
    simp [Except.map, ← String.ofList_append]
  | cons c rest ih =>
    obtain ⟨parts, key', hparts⟩ := scan_cons key c
    rw [rendered, rendered, List.cons_append, hparts, hparts, List.map_append, List.map_append,
      join_append, join_append]
    cases join (parts.map (substitute toLowerCase data)) with
    | error err => rfl
    | ok text =>
      have hrest := ih key'
      simp only [rendered] at hrest
      rw [Except.bind, hrest]
      cases join ((scan key' rest).map (substitute toLowerCase data)) <;>
        simp [Except.map, Except.bind, String.append_assoc]

theorem rendered_prepend {w : List Char} (hw : ∀ c ∈ w, isSpace c = true) (rest : List Char) :
    rendered toLowerCase data none (w ++ rest) =
      (rendered toLowerCase data none rest).map (String.ofList w ++ ·) := by
  induction w with
  | nil => cases hrest : rendered toLowerCase data none rest <;> simp [hrest, Except.map]
  | cons c w ih =>
    obtain ⟨hc, hspaces⟩ := List.forall_mem_cons.mp hw
    have hcons : rendered toLowerCase data none (c :: (w ++ rest)) =
        (rendered toLowerCase data none (w ++ rest)).map (String.ofList [c] ++ ·) := by
      simp only [rendered, scan, if_neg (isSpace_brace hc).1, List.map_cons, join, substitute]
      rfl
    rw [List.cons_append, hcons, ih hspaces]
    cases rendered toLowerCase data none rest <;>
      simp [Except.map, ← String.append_assoc]

/-- White space around a template is white space around the text. -/
theorem resolveTemplate_trim (template : String) :
    (resolveTemplate toLowerCase (trim template) data).map trim =
      (resolveTemplate toLowerCase template data).map trim := by
  obtain ⟨w, w', hsplit, hw, hw'⟩ := Atomic.Trimming.exists_trim isSpace template.toList
  have hwhole : resolveTemplate toLowerCase template data =
      (resolveTemplate toLowerCase (trim template) data).map
        (fun s => String.ofList w ++ s ++ String.ofList w') := by
    rw [resolveTemplate_eq, resolveTemplate_eq, cells, cells, segments, segments, toList_trim]
    conv_lhs => rw [hsplit]
    have hend := @rendered_append toLowerCase data _ hw' none
      (w ++ Atomic.Trimming.trim isSpace template.toList)
    rw [rendered_prepend data hw] at hend
    refine hend.trans ?_
    change _ = Except.map _ (rendered toLowerCase data none _)
    cases rendered toLowerCase data none (Atomic.Trimming.trim isSpace template.toList) <;> rfl
  rw [hwhole]
  cases resolveTemplate toLowerCase (trim template) data with
  | error err => rfl
  | ok s => simp [Except.map, trim_append hw hw']

end Space

theorem eachRow_cons (c : Client) (k : Nat) (row : Todo) (rest : List Todo) :
    eachRow c k (row :: rest) =
      match eachRow c k [row] with
      | (log, .error err) => (log, .error err)
      | (log, .ok results) =>
        (log ++ (eachRow c (k + 1) rest).1, (eachRow c (k + 1) rest).2.map (results ++ ·)) := by
  cases row with
  | skip result => rfl
  | send number label message =>
    simp only [eachRow]
    cases sendToNumbers c k [number] message with
    | mk log result =>
      cases result with
      | error err => rfl
      | ok sent => simp [Except.map]

/-- Where every column is at hand, the rows are sent as if they had come with their messages. -/
theorem eachSheetRow_resolved (c : Client) (defaultMessage : String) (k : Nat)
    {rows : List SheetRow} {resolved : List BulkRow}
    (h : rows.map (SheetRow.resolve toLowerCase defaultMessage) = resolved.map .ok) :
    eachSheetRow toLowerCase c defaultMessage k rows = eachRow c k (resolved.map planRow) := by
  induction rows generalizing k resolved with
  | nil =>
    obtain rfl : resolved = [] := by simpa using h.symm
    rfl
  | cons row rest ih =>
    cases resolved with
    | nil => cases h
    | cons first others =>
      obtain ⟨hfirst, hothers⟩ := List.cons.inj h
      rw [List.map_cons, eachRow_cons, eachSheetRow, hfirst, ← ih (k + 1) hothers]

theorem handle_resolved (t : Ticket) (c : Client) (defaultMessage : String) (delaySeconds : Rat)
    {rows : List SheetRow} {resolved : List BulkRow}
    (h : rows.map (SheetRow.resolve toLowerCase defaultMessage) = resolved.map .ok) :
    handle toLowerCase t c (.sendBulk rows defaultMessage delaySeconds) =
      Dispatch.handle t c (.sendBulk resolved defaultMessage delaySeconds) := by
  have hlength : rows.length = resolved.length := by simpa using congrArg List.length h
  rw [handle, Dispatch.handle, sendBulk, eachSheetRow_resolved c defaultMessage 0 h, hlength]

end WhatsappTester.Spreadsheet
