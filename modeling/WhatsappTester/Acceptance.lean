import WhatsappTester.Upload

namespace WhatsappTester.Acceptance

open Schema Routes Spreadsheet Upload

def sentBack (row : ParsedRow) : SheetRow where
  name := some row.name
  number := some row.number
  message := some row.message
  data := row.data.map (fun column => (column.1, .ok (column.2.getD "")))

/-- The schema `buildSheetBody`, which does not look at the columns of a row. -/
def buildSheetBody (rows : List SheetRow) (defaultMessage : String) : Bool :=
  rows.all (fun row => bulkRowValid ⟨row.name, row.number, row.message, ""⟩) &&
    decide (1 ≤ rows.length ∧ rows.length ≤ maxBulkRows) && lengthIn 0 maxMessageLen defaultMessage

def Accepted (rows : List ParsedRow) (defaultMessage : String) (delaySeconds : Rat) : Prop :=
  (Form.sendBulk (rows.map sentBack) defaultMessage delaySeconds).valid = true ∧
    buildSheetBody (rows.map sentBack) defaultMessage = true

/-- The row has no number, or a number and a name that the schema takes. -/
def Sendable (toLowerCase : String → String) (row : RawRow) : Prop :=
  ∀ number, Leads toLowerCase row numberKeys number → digits number ≠ "" →
    length (digits number) ≤ 40 ∧
      ∀ name, Leads toLowerCase row nameKeys name → length name ≤ 200

variable {toLowerCase : String → String}

theorem length_trim_le (s : String) : length (trim s) ≤ length s := by
  obtain ⟨w, w', hsplit, -, -⟩ := Atomic.Trimming.exists_trim isSpace s.toList
  rw [length, length, toList_trim]
  conv_rhs => rw [hsplit]
  simp only [List.map_append, List.sum_append]
  omega

/-- What the limits of the upload leave. -/
theorem limits_ok {rawRows : List RawRow} (h : enforceSheetLimits rawRows = .ok ()) :
    rawRows.length ≤ maxRows ∧
      ∀ row ∈ rawRows, ∀ column ∈ row, length (text column.2) ≤ maxCellLen := by
  unfold enforceSheetLimits at h
  split at h
  case isTrue => cases h
  case isFalse hrows =>
    refine ⟨Nat.le_of_not_lt hrows, ?_⟩
    clear hrows
    induction rawRows with
    | nil => simp
    | cons row rest ih =>
      rw [List.forM_eq_forM, List.forM_cons] at h
      cases hrow : enforceRowLimits row with
      | error message =>
        rw [hrow] at h
        cases h
      | ok _ =>
        rw [hrow] at h
        refine List.forall_mem_cons.mpr ⟨fun column hcolumn => ?_, ih h⟩
        unfold enforceRowLimits at hrow
        split at hrow
        · cases hrow
        · split at hrow
          · cases hrow
          case isFalse hcells =>
            by_contra hlong
            exact hcells (List.any_eq_true.mpr ⟨column, hcolumn, by simpa using hlong⟩)

/-- What is picked is no longer than a cell. -/
theorem length_pickField {row : RawRow} (keys : List String)
    (h : ∀ column ∈ row, length (text column.2) ≤ maxCellLen) :
    length (pickField toLowerCase row keys) ≤ maxCellLen := by
  by_cases hpick : pickField toLowerCase row keys = ""
  · rw [hpick]
    decide
  · obtain ⟨column, hcolumn, hvalue⟩ := column_of_leads (leads_pickField hpick)
    rw [← hvalue]
    exact (length_trim_le _).trans (h column (List.mem_filter.mp hcolumn).1)

theorem parseSheet_ok {rawRows : List RawRow} {sheet : ParsedSheet}
    (h : parseSheet toLowerCase rawRows = .ok sheet) :
    enforceSheetLimits rawRows = .ok () ∧ sheet.rows ≠ [] ∧
      sheet.rows = (rawRows.filter (fun row =>
        decide ((parseRow toLowerCase row).number ≠ ""))).map (parseRow toLowerCase) := by
  cases hlimits : enforceSheetLimits rawRows with
  | error message =>
    rw [parseSheet, hlimits] at h
    cases h
  | ok _ =>
    rw [parseSheet_eq hlimits] at h
    split at h
    · cases h
    case isFalse hsome =>
      obtain rfl := Except.ok.inj h
      exact ⟨rfl, by simpa using hsome, rfl⟩

theorem sendable_iff {row : RawRow} (h : (parseRow toLowerCase row).number ≠ "") :
    Sendable toLowerCase row ↔ length (parseRow toLowerCase row).number ≤ 40 ∧
      length (parseRow toLowerCase row).name ≤ 200 := by
  constructor
  · intro hsendable
    obtain ⟨hnumber, hname⟩ := hsendable _ (leads_pickField (picked_of_number h)) h
    refine ⟨hnumber, ?_⟩
    by_cases hnone : pickField toLowerCase row nameKeys = ""
    · have hempty : (parseRow toLowerCase row).name = "" := hnone
      rw [hempty]
      decide
    · exact hname _ (leads_pickField hnone)
  · rintro ⟨hnumber, hname⟩ number hleads -
    rw [← pickField_of_leads hleads]
    refine ⟨hnumber, fun name hleads' => ?_⟩
    rw [← pickField_of_leads hleads']
    exact hname

theorem bulkRowValid_sentBack (row : ParsedRow) (resolved : String) :
    bulkRowValid ⟨(sentBack row).name, (sentBack row).number, (sentBack row).message, resolved⟩ =
        true ↔
      length row.name ≤ 200 ∧ length row.number ≤ 40 ∧ length row.message ≤ maxMessageLen := by
  simp [bulkRowValid, sentBack, lengthIn, and_assoc]

/-- The row count, the default message and the delay apart, the schema of `/api/send-bulk` looks at
the three fields of each row. -/
theorem valid_sentBack {rows : List ParsedRow} {defaultMessage : String} {delaySeconds : Rat}
    (hlength : 1 ≤ rows.length ∧ rows.length ≤ maxBulkRows)
    (hdefault : length defaultMessage ≤ maxMessageLen)
    (hdelay : 0 ≤ delaySeconds ∧ delaySeconds ≤ maxDelaySeconds) :
    (Form.sendBulk (rows.map sentBack) defaultMessage delaySeconds).valid = true ↔
      ∀ row ∈ rows, length row.name ≤ 200 ∧ length row.number ≤ 40 ∧
        length row.message ≤ maxMessageLen := by
  have hdefault' : lengthIn 0 maxMessageLen defaultMessage = true :=
    decide_eq_true ⟨Nat.zero_le _, hdefault⟩
  simp only [Form.valid, Form.body, Body.valid, hdefault', hlength, hdelay, List.length_map,
    List.all_map, List.all_eq_true, Function.comp_apply, bulkRowValid_sentBack, Bool.and_eq_true,
    decide_eq_true_eq, and_self, and_true]

/-- The rows of an accepted sheet are accepted again if and only if the numbers and the
names in it are not too long. -/
theorem accepted_iff (toLowerCase : String → String) {rawRows : List RawRow} {sheet : ParsedSheet}
    {defaultMessage : String} {delaySeconds : Rat}
    (hsheet : parseSheet toLowerCase rawRows = .ok sheet)
    (hdefault : length defaultMessage ≤ maxMessageLen)
    (hdelay : 0 ≤ delaySeconds ∧ delaySeconds ≤ maxDelaySeconds) :
    Accepted sheet.rows defaultMessage delaySeconds ↔
      ∀ row ∈ rawRows, Sendable toLowerCase row := by
  obtain ⟨hlimits, hsome, hrows⟩ := parseSheet_ok hsheet
  obtain ⟨hcount, hcells⟩ := limits_ok hlimits
  have hlength : 1 ≤ sheet.rows.length ∧ sheet.rows.length ≤ maxBulkRows := by
    refine ⟨List.length_pos_iff.mpr hsome, ?_⟩
    rw [hrows, List.length_map]
    exact (List.length_filter_le _ _).trans hcount
  have hvalid : Accepted sheet.rows defaultMessage delaySeconds ↔
      ∀ row ∈ sheet.rows, length row.name ≤ 200 ∧ length row.number ≤ 40 ∧
        length row.message ≤ maxMessageLen := by
    have hdefault' : lengthIn 0 maxMessageLen defaultMessage = true :=
      decide_eq_true ⟨Nat.zero_le _, hdefault⟩
    simp only [Accepted, valid_sentBack hlength hdefault hdelay, buildSheetBody, hdefault',
      hlength, List.length_map, List.all_map, List.all_eq_true, Function.comp_apply,
      bulkRowValid_sentBack, Bool.and_eq_true, decide_eq_true_eq, and_self, and_true]
  rw [hvalid, hrows]
  constructor
  · intro h row hrow
    by_cases hnumber : (parseRow toLowerCase row).number = ""
    · intro number hleads hdigits
      rw [parseRow, pickField_of_leads hleads] at hnumber
      exact absurd hnumber hdigits
    · have hkept := h _ (List.mem_map_of_mem (List.mem_filter.mpr ⟨hrow, decide_eq_true hnumber⟩))
      exact (sendable_iff hnumber).mpr ⟨hkept.2.1, hkept.1⟩
  · intro h parsed hparsed
    obtain ⟨row, hrow, rfl⟩ := List.mem_map.mp hparsed
    obtain ⟨hrow, hnumber⟩ := List.mem_filter.mp hrow
    obtain ⟨hshort, hname⟩ := (sendable_iff (of_decide_eq_true hnumber)).mp (h row hrow)
    exact ⟨hname, hshort, length_pickField messageKeys (hcells row hrow)⟩

theorem accepted_iff_ann :
    Accepted [⟨"Ann", "15550001", "", [("name", some "Ann"), ("number", some "+1 5550001")]⟩]
        "Hello" 2 ↔
      ∀ row ∈ [[("name", some "Ann"), ("number", some "+1 5550001")]], Sendable id row := by
  have hsheet : parseSheet id [[("name", some "Ann"), ("number", some "+1 5550001")]] =
      .ok ⟨[⟨"Ann", "15550001", "", [("name", some "Ann"), ("number", some "+1 5550001")]⟩],
        ["name", "number"]⟩ := by decide +kernel
  exact accepted_iff id hsheet (by decide) (by decide +kernel)

/-- A name of 201 characters passes for a cell, but not for a name. -/
theorem long_name_refused :
    ¬ ∀ rawRows sheet defaultMessage delaySeconds, parseSheet id rawRows = .ok sheet →
      length defaultMessage ≤ maxMessageLen → 0 ≤ delaySeconds ∧ delaySeconds ≤ maxDelaySeconds →
      Accepted sheet.rows defaultMessage delaySeconds := by
  intro h
  have hsheet : parseSheet id
      [[("name", some (String.ofList (List.replicate 201 'a'))), ("number", some "15550001")]] =
      .ok ⟨[⟨String.ofList (List.replicate 201 'a'), "15550001", "",
        [("name", some (String.ofList (List.replicate 201 'a'))), ("number", some "15550001")]⟩],
        ["name", "number"]⟩ := by decide +kernel
  exact absurd (h _ _ "Hello" 2 hsheet (by decide) (by decide +kernel)).2 (by decide +kernel)

end WhatsappTester.Acceptance
