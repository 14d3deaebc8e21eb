import WhatsappTester.Spreadsheet

namespace WhatsappTester.Rendering

open Schema State Jobs.Retry Routes Dispatch Spreadsheet

/-- `['=', '+', '-', '@']` -/
def dangerousPrefixes : List Char := ['=', '+', '-', '@']

/-- A leading apostrophe forces a spreadsheet program to take the value as text. -/
def neutralizeFormula (value : String) : String :=
  if dangerousPrefixes.any (fun p => decide (value.toList.head? = some p)) then "'" ++ value
  else value

theorem neutralizeFormula_safe (value : String) :
    ∀ p ∈ dangerousPrefixes, (neutralizeFormula value).toList.head? ≠ some p := by
  unfold neutralizeFormula
  split
  case isTrue =>
    have hhead : ("'" ++ value).toList.head? = some '\'' := by rw [String.toList_append]; rfl
    rw [hhead]
    simp [dangerousPrefixes]
  case isFalse hsafe => simpa using hsafe

/-- `(r.message && String(r.message).trim()) || String(defaultMessage || '').trim()` -/
def exportTemplate (defaultMessage : String) (row : SheetRow) : String :=
  ((row.message.map trim).filter (· ≠ "")).getD (trim defaultMessage)

/-- `(row.message && row.message.trim()) || defaultMessage` -/
def previewTemplate (defaultMessage : String) (row : SheetRow) : String :=
  ((row.message.map trim).filter (· ≠ "")).getD defaultMessage

structure ExportedRow where
  name : String
  number : String
  message : String
  deriving DecidableEq, Repr

def emptyNotice : String := "(empty — add a message template above)"

section Renderings

variable (toLowerCase : String → String) (defaultMessage : String) (row : SheetRow)

/-- The `message` that the loop of `/send-bulk` comes to for a row. -/
def dispatchedText : Cell :=
  (resolveTemplate toLowerCase (row.template defaultMessage) row.data).map trim

/-- The text of the `Message` cell of `/build-sheet`, before `neutralizeFormula`. -/
def messageCell : Cell :=
  (resolveTemplate toLowerCase (exportTemplate defaultMessage row) row.data).map trim

def exportRow : Except SendError ExportedRow :=
  (messageCell toLowerCase defaultMessage row).map (fun message =>
    ⟨neutralizeFormula (row.name.getD ""), neutralizeFormula (row.number.getD ""),
      neutralizeFormula message⟩)

/-- The text in a row of the browser's table. The browser has the same
`resolveTemplate` as the server. -/
def previewText : Cell :=
  (resolveTemplate toLowerCase (previewTemplate defaultMessage row) row.data).map
    (fun resolved => if resolved = "" then emptyNotice else resolved)

/-- The three renderings of a row agree. The preview announces a text that is empty. -/
structure Agree : Prop where
  exported : dispatchedText toLowerCase defaultMessage row =
    messageCell toLowerCase defaultMessage row
  previewed : (previewText toLowerCase defaultMessage row).map trim =
      dispatchedText toLowerCase defaultMessage row ∨
    previewText toLowerCase defaultMessage row = .ok emptyNotice ∧
      dispatchedText toLowerCase defaultMessage row = .ok ""

/-- The row has no message, or an empty one, or one that is not all white space, or else
the default message comes to nothing but white space for the row. -/
def Filled : Prop :=
  (∀ message, row.message = some message → message ≠ "" → trim message ≠ "") ∨
    ∃ texts : List String,
      cells toLowerCase (trim defaultMessage) row.data = texts.map .ok ∧
        ∀ text ∈ texts, trim text = ""

end Renderings

variable {toLowerCase : String → String} {defaultMessage : String} {row : SheetRow}

/-- The loop of `/send-bulk` sends that text, or skips the row when the text is empty or
there is no number. -/
theorem map_planRow :
    (row.resolve toLowerCase defaultMessage).map planRow =
      (dispatchedText toLowerCase defaultMessage row).map (fun message =>
        let number := digits (row.number.getD "")
        let label := (row.name.filter (· ≠ "")).getD number
        if number = "" ∨ message = "" then
          .skip ⟨row.number.getD "", some label, .skipped, some "missing number or message"⟩
        else .send number label message) := by
  unfold SheetRow.resolve dispatchedText
  cases resolveTemplate toLowerCase (row.template defaultMessage) row.data <;> rfl

/-- No cell of an exported row is taken for a formula. -/
theorem exportRow_safe {exported : ExportedRow}
    (h : exportRow toLowerCase defaultMessage row = .ok exported) :
    ∀ cell ∈ [exported.name, exported.number, exported.message],
      ∀ p ∈ dangerousPrefixes, cell.toList.head? ≠ some p := by
  unfold exportRow at h
  cases hcell : messageCell toLowerCase defaultMessage row with
  | error err =>
    rw [hcell] at h
    cases h
  | ok message =>
    rw [hcell] at h
    obtain rfl := Except.ok.inj h
    simp only [List.forall_mem_cons, List.not_mem_nil, false_implies, implies_true, and_true]
    exact ⟨neutralizeFormula_safe _, neutralizeFormula_safe _, neutralizeFormula_safe _⟩

/-- The preview and the export fall back to the default message alike. -/
theorem messageCell_eq :
    messageCell toLowerCase defaultMessage row =
      (resolveTemplate toLowerCase (previewTemplate defaultMessage row) row.data).map trim := by
  unfold messageCell exportTemplate previewTemplate
  cases (row.message.map trim).filter (· ≠ "") with
  | none => exact resolveTemplate_trim row.data defaultMessage
  | some message => rfl

theorem previewText_trim :
    (previewText toLowerCase defaultMessage row).map trim =
        messageCell toLowerCase defaultMessage row ∨
      previewText toLowerCase defaultMessage row = .ok emptyNotice ∧
        messageCell toLowerCase defaultMessage row = .ok "" := by
  rw [messageCell_eq, previewText]
  cases resolveTemplate toLowerCase (previewTemplate defaultMessage row) row.data with
  | error err => exact .inl rfl
  | ok resolved =>
    by_cases hempty : resolved = ""
    · exact .inr ⟨by simp [Except.map, hempty], by rw [hempty]; rfl⟩
    · exact .inl (by simp [Except.map, hempty])

theorem join_blank {cells : List Cell} :
    (join cells).map trim = .ok "" ↔
      ∃ texts : List String, cells = texts.map .ok ∧ ∀ text ∈ texts, trim text = "" := by
  constructor
  · intro h
    cases hjoin : join cells with
    | error err =>
      rw [hjoin] at h
      cases h
    | ok s =>
      rw [hjoin] at h
      obtain ⟨texts, htexts, hs⟩ := join_eq_ok.mp hjoin
      have hblank : ∀ c ∈ s.toList, isSpace c = true := trim_eq_empty.mp (Except.ok.inj h)
      refine ⟨texts, htexts, fun text htext => trim_eq_empty.mpr (fun c hc => hblank c ?_)⟩
      rw [hs]
      exact List.mem_flatten_of_mem (List.mem_map_of_mem htext) hc
  · rintro ⟨texts, htexts, hblank⟩
    have hjoin := join_eq_ok.mpr ⟨texts, htexts, String.toList_ofList⟩
    have hall : trim (String.ofList (texts.map String.toList).flatten) = "" := by
      refine trim_eq_empty.mpr (fun c hc => ?_)
      rw [String.toList_ofList] at hc
      obtain ⟨piece, hpiece, hc⟩ := List.mem_flatten.mp hc
      obtain ⟨text, htext, rfl⟩ := List.mem_map.mp hpiece
      exact trim_eq_empty.mp (hblank text htext) c hc
    rw [hjoin]
    exact congrArg Except.ok hall

theorem dispatchedText_eq :
    dispatchedText toLowerCase defaultMessage row = messageCell toLowerCase defaultMessage row ↔
      Filled toLowerCase defaultMessage row := by
  have htrim : trim "" = "" := by decide
  have htemplate : row.template defaultMessage = exportTemplate defaultMessage row →
      (dispatchedText toLowerCase defaultMessage row =
        messageCell toLowerCase defaultMessage row) :=
    fun heq => by rw [dispatchedText, heq, messageCell]
  unfold Filled
  cases hmessage : row.message with
  | none =>
    have heq : row.template defaultMessage = exportTemplate defaultMessage row := by
      simp [SheetRow.template, exportTemplate, hmessage]
    exact iff_of_true (htemplate heq) (.inl (fun _ h => nomatch h))
  | some message =>
    by_cases hempty : message = ""
    · have heq : row.template defaultMessage = exportTemplate defaultMessage row := by
        simp [SheetRow.template, exportTemplate, hmessage, hempty, htrim, Option.filter]
      refine iff_of_true (htemplate heq) (.inl (fun m hm hne => absurd hempty ?_))
      exact Option.some.inj hm ▸ hne
    · by_cases hblank : trim message = ""
      · -- the loop takes the blank message for the template, the other two the default
        have hloop : dispatchedText toLowerCase defaultMessage row = .ok "" := by
          have hnothing : row.template defaultMessage = "" := by
            simp [SheetRow.template, hmessage, hempty, hblank, Option.filter]
          rw [dispatchedText, hnothing]
          exact congrArg Except.ok htrim
        have hexport : messageCell toLowerCase defaultMessage row =
            (join (cells toLowerCase (trim defaultMessage) row.data)).map trim := by
          rw [messageCell, ← resolveTemplate_eq]
          simp [exportTemplate, hmessage, hblank, Option.filter]
        rw [hloop, hexport, eq_comm, join_blank]
        exact ⟨.inr, fun h => h.resolve_left (fun hgiven => hgiven message rfl hempty hblank)⟩
      · have heq : row.template defaultMessage = exportTemplate defaultMessage row := by
          simp [SheetRow.template, exportTemplate, hmessage, hempty, hblank, Option.filter]
        refine iff_of_true (htemplate heq) (.inl (fun m hm _ => ?_))
        exact Option.some.inj hm ▸ hblank

/-- The three renderings of a row agree if and only if the row has no message that is all
white space, unless the default message comes to nothing for the row. -/
theorem agree_iff_filled (toLowerCase : String → String) (defaultMessage : String)
    (row : SheetRow) :
    Agree toLowerCase defaultMessage row ↔ Filled toLowerCase defaultMessage row := by
  rw [← dispatchedText_eq]
  constructor
  · exact fun h => h.exported
  · intro h
    exact ⟨h, by rw [h]; exact previewText_trim⟩

/-- The loop skips a row whose message is a space, and the sheet has the default in it. -/
theorem blank_message_apart :
    ¬ Agree id "Hello" ⟨none, some "15550001", some " ", []⟩ := by
  intro h
  have hloop : dispatchedText id "Hello" ⟨none, some "15550001", some " ", []⟩ = .ok "" := by
    decide
  have hexport : messageCell id "Hello" ⟨none, some "15550001", some " ", []⟩ = .ok "Hello" := by
    decide +kernel
  have hsame := h.exported
  rw [hloop, hexport] at hsame
  exact absurd (Except.ok.inj hsame) (by decide)

end WhatsappTester.Rendering
