import WhatsappTester.Atomic.Escape

namespace WhatsappTester.Markup

open Atomic.Replacement Atomic.Escape

/-- `str.replace(/c/g, text)` -/
def replaceAll (c : Char) (text : String) (str : String) : String :=
  String.ofList (replace (single c) (fun _ => text.toList) str.toList)

/-- The dashboard and the login page have the same one. -/
def escapeHtml (str : String) : String :=
  replaceAll '"' "&quot;"
    (replaceAll '>' "&gt;" (replaceAll '<' "&lt;" (replaceAll '&' "&amp;" str)))

def entities : List (Char × List Char) :=
  [('&', "&amp;".toList), ('<', "&lt;".toList), ('>', "&gt;".toList), ('"', "&quot;".toList)]

theorem marked_entities : ∀ e ∈ entities, ∃ name, e.2 = '&' :: name ∧ '&' ∉ name := by
  intro e he
  have htail : e.2 = '&' :: e.2.tail ∧ '&' ∉ e.2.tail := by
    revert e
    decide
  exact ⟨e.2.tail, htail⟩

def html : Code Char where
  marker := '&'
  entities := entities
  closed := ⟨"&amp;".toList, by decide⟩
  marked := marked_entities
  prefixFree := by decide

def unescapeHtml (text : String) : String := String.ofList (html.unescape text.toList)

theorem toList_replaceAll (c : Char) (text str : String) :
    (replaceAll c text str).toList =
      str.toList.flatMap (fun x => if x = c then text.toList else [x]) := by
  rw [replaceAll, String.toList_ofList, replace_single]

theorem toList_escapeHtml (str : String) : (escapeHtml str).toList = html.escape str.toList := by
  simp only [escapeHtml, toList_replaceAll, List.flatMap_assoc, Code.escape]
  refine congrArg (str.toList.flatMap ·) (funext (fun x => ?_))
  by_cases hamp : x = '&'
  · subst hamp
    decide
  · by_cases hlt : x = '<'
    · subst hlt
      decide
    · by_cases hgt : x = '>'
      · subst hgt
        decide
      · by_cases hquot : x = '"'
        · subst hquot
          decide
        · simp [Code.escapeOne, html, entities, hamp, hlt, hgt, hquot, Ne.symm hamp, Ne.symm hlt,
            Ne.symm hgt, Ne.symm hquot]

/-- Nothing in an escaped text can open a tag or end an attribute, and the text can be had back. -/
theorem escapeHtml_safe :
    (∀ s, '<' ∉ (escapeHtml s).toList ∧ '>' ∉ (escapeHtml s).toList ∧
      '"' ∉ (escapeHtml s).toList) ∧
    (∀ s before rest, (escapeHtml s).toList = before ++ '&' :: rest →
      ∃ e ∈ entities, e.2 <+: '&' :: rest) ∧
    (∀ s, unescapeHtml (escapeHtml s) = s) ∧ Function.Injective escapeHtml := by
  have hback : ∀ s, unescapeHtml (escapeHtml s) = s := by
    intro s
    rw [unescapeHtml, toList_escapeHtml, unescape_escape, String.ofList_toList]
  refine ⟨fun s => ?_, fun s before rest h => ?_, hback,
    Function.LeftInverse.injective (g := unescapeHtml) hback⟩
  · rw [toList_escapeHtml]
    refine ⟨?_, ?_, ?_⟩ <;> exact not_mem_escape (by decide) (by decide) _
  · rw [toList_escapeHtml] at h
    exact marker_begins (c := html) h

end WhatsappTester.Markup
