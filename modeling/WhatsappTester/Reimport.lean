import Mathlib.Algebra.Order.BigOperators.Group.List
import Mathlib.Algebra.Order.Ring.Nat
import WhatsappTester.Acceptance
import WhatsappTester.Placeholders
import WhatsappTester.Rendering

namespace WhatsappTester.Reimport

open Schema Routes Spreadsheet Rendering Upload Placeholders Acceptance

def sends (rows : List BulkRow) : List (String × String) :=
  (rows.map planRow).filterMap (fun
    | .send number _ message => some (number, message)
    | .skip _ => none)

variable {toLowerCase : String → String} {row : SheetRow} {exported : ExportedRow}
variable {defaultMessage : String}

section Columns

end Columns

section Rows

theorem sends_cons (first : BulkRow) (rest : List BulkRow) :
    sends (first :: rest) =
      if digits (first.number.getD "") = "" ∨ trim first.resolved = "" then sends rest
      else (digits (first.number.getD ""), trim first.resolved) :: sends rest := by
  by_cases hskip : digits (first.number.getD "") = "" ∨ trim first.resolved = ""
  · simp only [sends, List.map_cons, List.filterMap_cons, planRow, if_pos hskip]
  · simp only [sends, List.map_cons, List.filterMap_cons, planRow, if_neg hskip]

end Rows

section Limits

end Limits

def lower (s : String) : String := String.ofList (s.toList.map Char.toLower)

end WhatsappTester.Reimport
