import WhatsappTester.Spreadsheet

namespace WhatsappTester.Upload

open Schema Routes Spreadsheet

def nameKeys : List String := ["name", "contactname", "fullname", "contact"]

def numberKeys : List String :=
  ["number", "phone", "mobile", "phonenumber", "contactnumber", "whatsapp", "whatsappnumber"]

def messageKeys : List String := ["message", "msg", "text", "content"]

def maxRows : Nat := 5000
def maxColumns : Nat := 100
def maxCellLen : Nat := 4096

/-- A row of `sheet_to_json`: its columns in the order of `Object.keys`, with `none`
for `null`. -/
abbrev RawRow := List (String × Option String)

/-- `String(value)` -/
def text (value : Option String) : String := value.getD "null"

structure ParsedRow where
  name : String
  number : String
  message : String
  data : RawRow
  deriving DecidableEq, Repr

structure ParsedSheet where
  rows : List ParsedRow
  fields : List String
  deriving DecidableEq, Repr

def enforceRowLimits (row : RawRow) : Except String Unit :=
  if row.length > maxColumns then
    .error s!"A row has {row.length} columns, which exceeds the {maxColumns} column limit."
  else if row.any (fun column => decide (length (text column.2) > maxCellLen)) then
    .error s!"A cell exceeds the {maxCellLen} character limit."
  else .ok ()

def enforceSheetLimits (rawRows : List RawRow) : Except String Unit :=
  if rawRows.length > maxRows then
    .error s!"Sheet has {rawRows.length} rows, which exceeds the {maxRows} row limit."
  else rawRows.forM enforceRowLimits

section Picking

variable (toLowerCase : String → String)

/-- `String(key).toLowerCase().replace(/[^a-z0-9]/g, '')` -/
def normalizeKey (key : String) : String :=
  String.ofList ((toLowerCase key).toList.filter (fun c => c.isLower || c.isDigit))

/-- The leftmost column whose normalised header is `key`: its text, trimmed. -/
def hit (row : RawRow) (key : String) : Option String :=
  (row.find? (fun column => decide (normalizeKey toLowerCase column.1 = key))).map
    (fun column => trim (text column.2))

def pickField (row : RawRow) : List String → String
  | [] => ""
  | candidate :: rest =>
    match hit toLowerCase row candidate with
    | some value => if value ≠ "" then value else pickField row rest
    | none => pickField row rest

def parseRow (row : RawRow) : ParsedRow where
  name := pickField toLowerCase row nameKeys
  number := digits (pickField toLowerCase row numberKeys)
  message := pickField toLowerCase row messageKeys
  data := row

/-- The handler of `/parse-sheet` once the file is read, with the texts of its errors. -/
def parseSheet (rawRows : List RawRow) : Except String ParsedSheet := do
  enforceSheetLimits rawRows
  let fields := (rawRows.flatMap (fun row => row.map (·.1))).eraseDups
  let rows := (rawRows.map (parseRow toLowerCase)).filter (fun row => decide (row.number ≠ ""))
  if rows = [] then
    .error "No usable rows found. Make sure the sheet has Name, Number and Message columns."
  else pure ⟨rows, fields⟩

def columnsOf (keys : List String) (row : RawRow) : List (String × Option String) :=
  row.filter (fun column => decide (normalizeKey toLowerCase column.1 ∈ keys))

def hasNumber (row : RawRow) : Bool :=
  (columnsOf toLowerCase numberKeys row).any (fun column => decide (digits (text column.2) ≠ ""))

/-- The sheet is answered with all rows that have a number, and with a number of theirs each. -/
def Kept (rawRows : List RawRow) : Prop :=
  rawRows.any (hasNumber toLowerCase) = true → ∃ sheet, parseSheet toLowerCase rawRows = .ok sheet ∧
    sheet.rows.map (·.data) = rawRows.filter (hasNumber toLowerCase) ∧
    ∀ row ∈ sheet.rows, row.number ≠ "" ∧
      ∃ column ∈ columnsOf toLowerCase numberKeys row.data, row.number = digits (text column.2)

def Found (row : RawRow) (candidates : List String) : Prop :=
  pickField toLowerCase row candidates = "" →
    ∀ column ∈ columnsOf toLowerCase candidates row, trim (text column.2) = ""

/-- If a column for the candidates is not blank, the leftmost column of one of them is not. -/
def Led (row : RawRow) (candidates : List String) : Prop :=
  (∃ column ∈ columnsOf toLowerCase candidates row, trim (text column.2) ≠ "") →
    ∃ key ∈ candidates, ∃ value ∈ hit toLowerCase row key, value ≠ ""

/-- The first key whose leftmost column is not blank has this text there. -/
def Leads (row : RawRow) (keys : List String) (value : String) : Prop :=
  ∃ before key after, keys = before ++ key :: after ∧ hit toLowerCase row key = some value ∧
    value ≠ "" ∧ ∀ k ∈ before, ∀ v ∈ hit toLowerCase row k, v = ""

/-- If some column for numbers has a digit in it, so has the one that comes first. -/
def Reached (row : RawRow) : Prop :=
  hasNumber toLowerCase row = true →
    ∃ value, Leads toLowerCase row numberKeys value ∧ digits value ≠ ""

end Picking

variable {toLowerCase : String → String} {row : RawRow} {keys : List String}

theorem pickField_of_leads {value : String} (h : Leads toLowerCase row keys value) :
    pickField toLowerCase row keys = value := by
  obtain ⟨before, key, after, rfl, hhit, hvalue, hblank⟩ := h
  induction before with
  | nil => simp [pickField, hhit, hvalue]
  | cons k before ih =>
    obtain ⟨hk, hbefore⟩ := List.forall_mem_cons.mp hblank
    have hrest := ih hbefore
    rw [List.cons_append, pickField]
    cases hfirst : hit toLowerCase row k with
    | none => exact hrest
    | some v => simpa [hk v hfirst] using hrest

theorem leads_pickField (h : pickField toLowerCase row keys ≠ "") :
    Leads toLowerCase row keys (pickField toLowerCase row keys) := by
  induction keys with
  | nil => exact absurd rfl h
  | cons k keys ih =>
    have hlater : (∀ v ∈ hit toLowerCase row k, v = "") →
        pickField toLowerCase row (k :: keys) = pickField toLowerCase row keys →
        Leads toLowerCase row (k :: keys) (pickField toLowerCase row (k :: keys)) := by
      intro hblank heq
      rw [heq] at h ⊢
      obtain ⟨before, key, after, hkeys, hhit, hvalue, hbefore⟩ := ih h
      exact ⟨k :: before, key, after, by rw [hkeys, List.cons_append], hhit, hvalue,
        List.forall_mem_cons.mpr ⟨hblank, hbefore⟩⟩
    cases hfirst : hit toLowerCase row k with
    | none => exact hlater (by simp [hfirst]) (by simp [pickField, hfirst])
    | some v =>
      by_cases hv : v = ""
      · exact hlater (by simp [hfirst, hv]) (by simp [pickField, hfirst, hv])
      · have hpick : pickField toLowerCase row (k :: keys) = v := by simp [pickField, hfirst, hv]
        rw [hpick]
        exact ⟨[], k, keys, rfl, hfirst, hv, by simp⟩

/-- What is picked is the text of a column for the keys. -/
theorem column_of_leads {value : String} (h : Leads toLowerCase row keys value) :
    ∃ column ∈ columnsOf toLowerCase keys row, trim (text column.2) = value := by
  obtain ⟨before, key, after, rfl, hhit, -, -⟩ := h
  obtain ⟨column, hfind, hvalue⟩ := Option.map_eq_some_iff.mp hhit
  have hkey : normalizeKey toLowerCase column.1 = key := by simpa using List.find?_some hfind
  exact ⟨column, List.mem_filter.mpr ⟨List.mem_of_find?_eq_some hfind, by simp [hkey]⟩, hvalue⟩

theorem pickField_eq_empty :
    pickField toLowerCase row keys = "" ↔ ∀ key ∈ keys, ∀ v ∈ hit toLowerCase row key, v = "" := by
  constructor
  · intro h key hkey v hv
    by_contra hne
    induction keys with
    | nil => cases hkey
    | cons k keys ih =>
      rw [pickField] at h
      obtain rfl | hkey := List.mem_cons.mp hkey
      · simp [Option.mem_def.mp hv, hne] at h
      · refine ih ?_ hkey
        split at h
        · split at h
          · contradiction
          · exact h
        · exact h
  · intro h
    by_contra hne
    obtain ⟨before, key, after, hkeys, hhit, hvalue, -⟩ := leads_pickField hne
    exact hvalue (h key (by simp [hkeys]) _ hhit)

theorem found_iff (row : RawRow) (candidates : List String) :
    Found toLowerCase row candidates ↔ Led toLowerCase row candidates := by
  rw [Found, Led, pickField_eq_empty]
  constructor
  · rintro h ⟨column, hcolumn, hne⟩
    by_contra hblank
    push Not at hblank
    exact hne (h hblank column hcolumn)
  · intro h hblank column hcolumn
    by_contra hne
    obtain ⟨key, hkey, v, hv, hvalue⟩ := h ⟨column, hcolumn, hne⟩
    exact hvalue (hblank key hkey v hv)

theorem isSpace_of_isDigit {c : Char} (h : c.isDigit = true) : isSpace c = false := by
  have hrange : 48 ≤ c.toNat ∧ c.toNat ≤ 57 := by
    rw [Char.isDigit, Bool.and_eq_true, decide_eq_true_iff, decide_eq_true_iff] at h
    exact ⟨UInt32.le_iff_toNat_le.mp h.1, UInt32.le_iff_toNat_le.mp h.2⟩
  simp [isSpace]
  omega

theorem digits_trim (s : String) : digits (trim s) = digits s := by
  obtain ⟨w, w', hsplit, hw, hw'⟩ := Atomic.Trimming.exists_trim isSpace s.toList
  have hspaces : ∀ l : List Char, (∀ c ∈ l, isSpace c = true) → l.filter Char.isDigit = [] := by
    intro l hl
    refine List.filter_eq_nil_iff.mpr (fun c hc hdigit => ?_)
    have hspace := isSpace_of_isDigit hdigit
    rw [hl c hc] at hspace
    cases hspace
  rw [digits, digits, toList_trim]
  conv_rhs => rw [hsplit]
  simp [hspaces w hw, hspaces w' hw']

theorem picked_of_number (h : (parseRow toLowerCase row).number ≠ "") :
    pickField toLowerCase row numberKeys ≠ "" := by
  intro hempty
  rw [parseRow, hempty] at h
  exact h rfl

/-- A row with a number is kept because of a column for numbers. -/
theorem column_of_number (h : (parseRow toLowerCase row).number ≠ "") :
    ∃ column ∈ columnsOf toLowerCase numberKeys row,
      (parseRow toLowerCase row).number = digits (text column.2) := by
  obtain ⟨column, hcolumn, hvalue⟩ := column_of_leads (leads_pickField (picked_of_number h))
  exact ⟨column, hcolumn, by rw [parseRow, ← hvalue, digits_trim]⟩

theorem number_iff :
    (parseRow toLowerCase row).number ≠ "" ↔
      hasNumber toLowerCase row = true ∧ Reached toLowerCase row := by
  constructor
  · intro h
    obtain ⟨column, hcolumn, hvalue⟩ := column_of_number h
    exact ⟨List.any_eq_true.mpr ⟨column, hcolumn, by simpa [← hvalue] using h⟩,
      fun _ => ⟨_, leads_pickField (picked_of_number h), h⟩⟩
  · rintro ⟨hnumber, hreached⟩
    obtain ⟨value, hleads, hdigits⟩ := hreached hnumber
    rwa [parseRow, pickField_of_leads hleads]

theorem parseSheet_eq {rawRows : List RawRow} (hlimits : enforceSheetLimits rawRows = .ok ()) :
    parseSheet toLowerCase rawRows =
      if rawRows.filter (fun row => decide ((parseRow toLowerCase row).number ≠ "")) = [] then
        .error "No usable rows found. Make sure the sheet has Name, Number and Message columns."
      else .ok
        ⟨(rawRows.filter (fun row => decide ((parseRow toLowerCase row).number ≠ ""))).map
          (parseRow toLowerCase), (rawRows.flatMap (fun row => row.map (·.1))).eraseDups⟩ := by
  have hfilter : (rawRows.map (parseRow toLowerCase)).filter (fun row => decide (row.number ≠ "")) =
      (rawRows.filter (fun row => decide ((parseRow toLowerCase row).number ≠ ""))).map
        (parseRow toLowerCase) := by
    rw [List.filter_map]
    rfl
  simp only [parseSheet, hlimits, hfilter, List.map_eq_nil_iff]
  rfl

theorem kept_iff {rawRows : List RawRow} (hlimits : enforceSheetLimits rawRows = .ok ()) :
    Kept toLowerCase rawRows ↔ ∀ row ∈ rawRows, Reached toLowerCase row := by
  have hdata : ∀ rows : List RawRow,
      (rows.map (parseRow toLowerCase)).map (fun row => row.data) = rows := by
    intro rows
    rw [List.map_map]
    exact List.map_id rows
  rw [Kept, parseSheet_eq hlimits]
  constructor
  · intro h row hrow hnumber
    obtain ⟨sheet, hsheet, hrows, -⟩ := h (List.any_eq_true.mpr ⟨row, hrow, hnumber⟩)
    split at hsheet
    · cases hsheet
    · obtain rfl := Except.ok.inj hsheet
      rw [hdata] at hrows
      have hmem : row ∈ rawRows.filter (hasNumber toLowerCase) :=
        List.mem_filter.mpr ⟨hrow, hnumber⟩
      rw [← hrows, List.mem_filter] at hmem
      exact (number_iff.mp (of_decide_eq_true hmem.2)).2 hnumber
  · intro h hany
    have hfilter : rawRows.filter (fun row => decide ((parseRow toLowerCase row).number ≠ "")) =
        rawRows.filter (hasNumber toLowerCase) := by
      refine List.filter_congr (fun row hrow => ?_)
      have hiff : (parseRow toLowerCase row).number ≠ "" ↔ hasNumber toLowerCase row = true :=
        ⟨fun hnumber => (number_iff.mp hnumber).1,
          fun hnumber => number_iff.mpr ⟨hnumber, h row hrow⟩⟩
      exact Bool.eq_iff_iff.mpr (by rw [decide_eq_true_iff, hiff])
    have hsome : rawRows.filter (hasNumber toLowerCase) ≠ [] := by
      obtain ⟨row, hrow, hnumber⟩ := List.any_eq_true.mp hany
      exact List.ne_nil_of_mem (List.mem_filter.mpr ⟨hrow, hnumber⟩)
    rw [hfilter, if_neg hsome]
    refine ⟨_, rfl, hdata _, fun parsed hparsed => ?_⟩
    obtain ⟨row, hrow, rfl⟩ := List.mem_map.mp hparsed
    rw [← hfilter, List.mem_filter] at hrow
    have hnumber := of_decide_eq_true hrow.2
    exact ⟨hnumber, column_of_number hnumber⟩

/-- The rows with a number are kept if and only if no column without a digit comes before
the one with the number, and something is picked if and only if the leftmost column of
some key is not blank. -/
theorem recovered_iff (toLowerCase : String → String) :
    (∀ rawRows, enforceSheetLimits rawRows = .ok () →
      (Kept toLowerCase rawRows ↔ ∀ row ∈ rawRows, Reached toLowerCase row)) ∧
    ∀ row candidates, Found toLowerCase row candidates ↔ Led toLowerCase row candidates :=
  ⟨fun _ hlimits => kept_iff hlimits, found_iff⟩

theorem recovered_iff_ann :
    Kept id [[("name", some "Ann"), ("number", some ""), ("phone", some "+1 555 0001")]] := by
  refine ((recovered_iff id).1 _ (by decide +kernel)).mpr (List.forall_mem_singleton.mpr ?_)
  exact fun _ => ⟨"+1 555 0001", ⟨["number"], "phone", _, rfl, by decide +kernel, by decide,
    by decide +kernel⟩, by decide⟩

/-- A note in the one column hides the number in the other. -/
theorem note_hides_number :
    ¬ ((∀ rawRows, enforceSheetLimits rawRows = .ok () → Kept id rawRows) ∧
      ∀ row candidates, Found id row candidates) := by
  rintro ⟨h, -⟩
  have hlimits : enforceSheetLimits [[("number", some "15550002"), ("phone", some "")],
      [("number", some "n/a"), ("phone", some "15550001")]] = .ok () := by decide +kernel
  obtain ⟨sheet, hsheet, hrows, -⟩ := h _ hlimits (by decide +kernel)
  have hanswer : parseSheet id [[("number", some "15550002"), ("phone", some "")],
      [("number", some "n/a"), ("phone", some "15550001")]] =
      .ok ⟨[⟨"", "15550002", "", [("number", some "15550002"), ("phone", some "")]⟩],
        ["number", "phone"]⟩ := by
    decide +kernel
  rw [hanswer] at hsheet
  obtain rfl := Except.ok.inj hsheet
  exact absurd hrows (by decide +kernel)

end WhatsappTester.Upload
