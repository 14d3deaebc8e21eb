import Mathlib.Data.List.TakeWhile
import WhatsappTester.Atomic.Reading
import WhatsappTester.Atomic.Rounding
import WhatsappTester.Auth.Passwords
import WhatsappTester.Migration

namespace WhatsappTester.JsonText

open Atomic.Reading Atomic.Floating Atomic.Hex Migration

/-- The characters with an escape of two characters, and its second one. -/
def shortEscapes : List (Char × Char) :=
  [('"', '"'), ('\\', '\\'), ('\x08', 'b'), ('\x0c', 'f'), ('\n', 'n'), ('\r', 'r'), ('\t', 't')]

/-- A character as it stands in a string of `JSON.stringify`. -/
def quoteOne (c : Char) : List Char :=
  match shortEscapes.find? (fun e => decide (e.1 = c)) with
  | some e => ['\\', e.2]
  | none =>
    if c.toNat < 0x20 then ['\\', 'u', '0', '0', digit (c.toNat / 16), digit (c.toNat % 16)]
    else [c]

def quote (s : String) : List Char := '"' :: (s.toList.flatMap quoteOne ++ ['"'])

def isBlank (c : Char) : Bool := c = ' ' || c = '\t' || c = '\n' || c = '\r'

def arrayMarks : Marks Char := ⟨isBlank, ',', ']', by decide, rfl, rfl⟩

def objectMarks : Marks Char := ⟨isBlank, ',', '}', by decide, rfl, rfl⟩

section Stringify

variable (print : Rat → List Char)

/-- A whole number is printed as it is, unless it has more than 53 binary digits; `print` is
for all others. -/
def numeral (x : Rat) : List Char :=
  if x.den = 1 ∧ |x.num| ≤ 2 ^ 53 then (toString x.num).toList else print x

mutual

def text : Json → List Char
  | .null => "null".toList
  | .bool b => (if b then "true" else "false").toList
  | .number x => numeral print x
  | .string s => quote s
  | .array elements => '[' :: arrayMarks.enclosed (texts elements)
  | .object fields => '{' :: objectMarks.enclosed (fieldTexts fields)

def texts : List Json → List (List Char)
  | [] => []
  | v :: rest => text v :: texts rest

def fieldTexts : List (String × Json) → List (List Char)
  | [] => []
  | (key, v) :: rest => (quote key ++ ':' :: text v) :: fieldTexts rest

end

def stringify (v : Json) : String := String.ofList (text print v)

end Stringify

section Parse

def isNumeral (c : Char) : Bool :=
  c.isDigit || c = '-' || c = '+' || c = '.' || c = 'e' || c = 'E'

/-- An unsigned number as JSON has it: no zero ahead of another digit, and a digit on both
sides of the point. -/
def unsigned (numeral : List Char) : Option Rat :=
  let mantissa := numeral.takeWhile (fun c => !Auth.Passwords.isExponentSign c)
  let whole := mantissa.takeWhile (· ≠ '.')
  if whole = [] ∨ whole.head? = some '0' ∧ 1 < whole.length ∨ mantissa.getLast? = some '.' then none
  else Auth.Passwords.decimal numeral

/-- The double that a number is read as; one that is too large stands for infinity. -/
def nearestDouble (x : Rat) : Rat :=
  match toDouble x with
  | .finite v => v
  | _ => x

def signed : List Char → Option Rat
  | '-' :: rest => (unsigned rest).map (fun x => -x)
  | numeral => unsigned numeral

def readNumber : Reader Char Rat := fun text =>
  (signed (text.takeWhile isNumeral)).map (fun x => (nearestDouble x, text.dropWhile isNumeral))

/-- The rest of a string after its first quotation mark, as code points and, where they
are escaped, UTF-16 code units. -/
def readUnits : Reader Char (List Nat)
  | [] => none
  | '"' :: rest => some ([], rest)
  | '\\' :: 'u' :: a :: b :: c :: d :: rest =>
    match value a, value b, value c, value d with
    | some a, some b, some c, some d =>
      (readUnits rest).map
        (fun (units, rest) => ((((a * 16 + b) * 16 + c) * 16 + d) :: units, rest))
    | _, _, _, _ => none
  | '\\' :: c :: rest =>
    match (('/', '/') :: shortEscapes).find? (fun e => decide (e.2 = c)) with
    | some e => (readUnits rest).map (fun (units, rest) => (e.1.toNat :: units, rest))
    | none => none
  | c :: rest =>
    if c.toNat < 0x20 then none
    else (readUnits rest).map (fun (units, rest) => (c.toNat :: units, rest))

/-- A code unit that is half of a pair is no character of its own. -/
def character (unit : Nat) : Char := if unit.isValidChar then Char.ofNat unit else '\uFFFD'

def characters : List Nat → List Char
  | [] => []
  | [unit] => [character unit]
  | high :: low :: rest =>
    if 0xD800 ≤ high ∧ high < 0xDC00 ∧ 0xDC00 ≤ low ∧ low < 0xE000 then
      Char.ofNat (0x10000 + (high - 0xD800) * 0x400 + (low - 0xDC00)) :: characters rest
    else character high :: characters (low :: rest)

def readString : Reader Char String := fun text =>
  (readUnits text).map (fun (units, rest) => (String.ofList (characters units), rest))

def keywords : List (List Char × Json) :=
  [("null".toList, .null), ("true".toList, .bool true), ("false".toList, .bool false)]

def readField (read : Reader Char Json) : Reader Char (String × Json) := fun text =>
  match text.dropWhile isBlank with
  | '"' :: rest =>
    (readString rest).bind (fun (key, rest) =>
      match rest.dropWhile isBlank with
      | ':' :: rest => (read rest).map (fun (v, rest) => ((key, v), rest))
      | _ => none)
  | _ => none

/-- A value whose text is no longer than `fuel`. -/
def readValue : Nat → Reader Char Json
  | 0, _ => none
  | fuel + 1, text =>
    match text.dropWhile isBlank with
    | '"' :: rest => (readString rest).map (fun (s, rest) => (.string s, rest))
    | '[' :: rest =>
      (arrayMarks.sequence (readValue fuel) fuel rest).map (fun (vs, rest) => (.array vs, rest))
    | '{' :: rest =>
      (objectMarks.sequence (readField (readValue fuel)) fuel rest).map
        (fun (fields, rest) => (.object fields, rest))
    | rest =>
      match keywords.find? (fun k => k.1.isPrefixOf rest) with
      | some k => some (k.2, rest.drop k.1.length)
      | none => (readNumber rest).map (fun (x, rest) => (.number x, rest))

def parse (s : String) : Option Json :=
  (readValue s.toList.length s.toList).bind (fun (v, rest) =>
    if rest.all isBlank then some v else none)

end Parse

section Strings

theorem readUnits_short {e : Char × Char} (h : e ∈ shortEscapes) (rest : List Char) :
    readUnits ('\\' :: e.2 :: rest) =
      (readUnits rest).map (fun (units, rest) => (e.1.toNat :: units, rest)) := by
  simp only [shortEscapes, List.mem_cons, List.not_mem_nil, or_false] at h
  rcases h with rfl | rfl | rfl | rfl | rfl | rfl | rfl <;> rfl

theorem readUnits_long {n : Nat} (h : n < 0x20) (rest : List Char) :
    readUnits ('\\' :: 'u' :: '0' :: '0' :: digit (n / 16) :: digit (n % 16) :: rest) =
      (readUnits rest).map (fun (units, rest) => (n :: units, rest)) := by
  have hhigh := value_digit (n / 16) (by omega)
  have hlow := value_digit (n % 16) (by omega)
  have hzero : value '0' = some 0 := rfl
  have hsum : ((0 * 16 + 0) * 16 + n / 16) * 16 + n % 16 = n := by omega
  simp only [readUnits, hzero, hhigh, hlow, hsum]

theorem readUnits_plain {c : Char} (hquote : c ≠ '"') (hslash : c ≠ '\\') (h : ¬ c.toNat < 0x20)
    (rest : List Char) :
    readUnits (c :: rest) =
      (readUnits rest).map (fun (units, rest) => (c.toNat :: units, rest)) := by
  rw [readUnits]
  · exact if_neg h
  all_goals simp [hquote, hslash]

theorem readUnits_quoteOne (c : Char) (rest : List Char) :
    readUnits (quoteOne c ++ rest) =
      (readUnits rest).map (fun (units, rest) => (c.toNat :: units, rest)) := by
  unfold quoteOne
  cases hfind : shortEscapes.find? (fun e => decide (e.1 = c)) with
  | some e =>
    have hc : e.1 = c := by simpa using List.find?_some hfind
    rw [← hc]
    exact readUnits_short (List.mem_of_find?_eq_some hfind) rest
  | none =>
    have hplain : ∀ e ∈ shortEscapes, e.1 ≠ c := by simpa using List.find?_eq_none.mp hfind
    by_cases hcontrol : c.toNat < 0x20
    · simp only [if_pos hcontrol]
      exact readUnits_long hcontrol rest
    · simp only [if_neg hcontrol]
      refine readUnits_plain ?_ ?_ hcontrol rest
      · exact (hplain ('"', '"') (by decide)).symm
      · exact (hplain ('\\', '\\') (by decide)).symm

theorem readUnits_quoted (cs rest : List Char) :
    readUnits (cs.flatMap quoteOne ++ '"' :: rest) = some (cs.map Char.toNat, rest) := by
  induction cs with
  | nil => rfl
  | cons c cs ih =>
    rw [List.flatMap_cons, List.append_assoc, readUnits_quoteOne, ih]
    rfl

theorem character_toNat (c : Char) : character c.toNat = c := by
  have hvalid : c.toNat.isValidChar := c.valid
  rw [character, if_pos hvalid, Char.ofNat_toNat]

theorem characters_toNat (cs : List Char) : characters (cs.map Char.toNat) = cs := by
  induction cs with
  | nil => rfl
  | cons c cs ih =>
    cases cs with
    | nil => exact congrArg (fun c => [c]) (character_toNat c)
    | cons c' cs =>
      have hvalid : c.toNat < 0xD800 ∨ 0xDFFF < c.toNat ∧ c.toNat < 0x110000 := c.valid
      simp only [List.map_cons] at ih ⊢
      rw [characters, if_neg (by omega), ih, character_toNat]

theorem readString_quoted (s : String) (rest : List Char) :
    readString (s.toList.flatMap quoteOne ++ '"' :: rest) = some (s, rest) := by
  simp only [readString, readUnits_quoted, Option.map_some, characters_toNat, String.ofList_toList]

end Strings

section Numbers

theorem isDigit_toDigits {n : Nat} {c : Char} (h : c ∈ Nat.toDigits 10 n) : c.isDigit = true :=
  Nat.isDigit_of_mem_toDigits (by decide) (by decide) h

theorem value_digitChar {d : Nat} (h : d < 10) : value d.digitChar = some d := by
  have hall : ∀ d < 10, value (Nat.digitChar d) = some d := by decide
  exact hall d h

theorem digitsIn_toDigits (n : Nat) : Auth.Passwords.digitsIn 10 (Nat.toDigits 10 n) = some n := by
  rw [Auth.Passwords.digitsIn, if_neg Nat.toDigits_ne_nil]
  induction n using Nat.strong_induction_on with
  | _ n ih =>
    by_cases h : n < 10
    · rw [Nat.toDigits_of_lt_base h]
      simp [value_digitChar h, Option.filter, h]
    · have hmod : n % 10 < 10 := Nat.mod_lt n (by decide)
      rw [Nat.toDigits_of_base_le (by decide) (not_lt.mp h), List.foldl_append,
        ih (n / 10) (by omega)]
      simp [value_digitChar hmod, Option.filter, hmod]
      omega

theorem head_toDigits {n : Nat} (h : 0 < n) : (Nat.toDigits 10 n).head? ≠ some '0' := by
  induction n using Nat.strong_induction_on with
  | _ n ih =>
    by_cases hlt : n < 10
    · have hall : ∀ d < 10, 0 < d → ([Nat.digitChar d] : List Char).head? ≠ some '0' := by decide
      rw [Nat.toDigits_of_lt_base hlt]
      exact hall n hlt h
    · rw [Nat.toDigits_of_base_le (by decide) (not_lt.mp hlt),
        List.head?_append_of_ne_nil _ Nat.toDigits_ne_nil]
      exact ih (n / 10) (by omega) (by omega)

theorem isNumeral_of_isDigit {c : Char} (h : c.isDigit = true) : isNumeral c = true := by
  simp [isNumeral, h]

theorem plain_toDigits (n : Nat) :
    ∀ c ∈ Nat.toDigits 10 n,
      (!Auth.Passwords.isExponentSign c) = true ∧ decide (c ≠ '.') = true := by
  intro c hc
  have hdigit := isDigit_toDigits hc
  constructor
  · rw [Bool.not_eq_true', Bool.eq_false_iff]
    intro hsign
    rw [Auth.Passwords.isExponentSign, Bool.or_eq_true, decide_eq_true_iff,
      decide_eq_true_iff] at hsign
    rcases hsign with rfl | rfl <;> exact absurd hdigit (by decide)
  · refine decide_eq_true ?_
    rintro rfl
    exact absurd hdigit (by decide)

theorem decimal_toDigits (n : Nat) :
    Auth.Passwords.decimal (Nat.toDigits 10 n) = some (n : Rat) := by
  have hsign := List.takeWhile_eq_self_iff.mpr (fun c hc => (plain_toDigits n c hc).1)
  have hpoint := List.takeWhile_eq_self_iff.mpr (fun c hc => (plain_toDigits n c hc).2)
  have hnosign := List.dropWhile_eq_nil_iff.mpr (fun c hc => (plain_toDigits n c hc).1)
  have hnopoint := List.dropWhile_eq_nil_iff.mpr (fun c hc => (plain_toDigits n c hc).2)
  simp only [Auth.Passwords.decimal, hsign, hnosign, hpoint, hnopoint, List.tail_nil,
    List.append_nil, digitsIn_toDigits]
  simp [Auth.Passwords.powerOfTen]

theorem unsigned_toDigits (n : Nat) : unsigned (Nat.toDigits 10 n) = some (n : Rat) := by
  have hsign := List.takeWhile_eq_self_iff.mpr (fun c hc => (plain_toDigits n c hc).1)
  have hpoint := List.takeWhile_eq_self_iff.mpr (fun c hc => (plain_toDigits n c hc).2)
  simp only [unsigned, hsign, hpoint]
  rw [if_neg, decimal_toDigits]
  rintro (hnil | ⟨hhead, hlength⟩ | hlast)
  · exact Nat.toDigits_ne_nil hnil
  · obtain rfl | hpos := Nat.eq_zero_or_pos n
    · rw [Nat.toDigits_zero] at hlength
      exact absurd hlength (by decide)
    · exact head_toDigits hpos hhead
  · exact absurd (isDigit_toDigits (List.mem_of_getLast? hlast)) (by decide)

def Stop (rest : List Char) : Prop := ∀ c ∈ rest.head?, isNumeral c = false

theorem takeWhile_numeral {numeral rest : List Char} (h : ∀ c ∈ numeral, isNumeral c = true)
    (hrest : Stop rest) : (numeral ++ rest).takeWhile isNumeral = numeral ∧
      (numeral ++ rest).dropWhile isNumeral = rest := by
  rw [List.takeWhile_append_of_pos h, List.dropWhile_append_of_pos h]
  cases rest with
  | nil => simp
  | cons c rest =>
    have hc : ¬ isNumeral c = true := Bool.eq_false_iff.mp (hrest c rfl)
    rw [List.takeWhile_cons_of_neg hc, List.dropWhile_cons_of_neg hc, List.append_nil]
    exact ⟨rfl, rfl⟩

theorem nearestDouble_int {z : Int} (h : |z| ≤ 2 ^ 53) : nearestDouble z = z := by
  rw [nearestDouble, exact_int h]

theorem toList_toString (z : Int) : (toString z).toList =
    if z < 0 then '-' :: Nat.toDigits 10 z.natAbs else Nat.toDigits 10 z.natAbs := by
  cases z with
  | ofNat n => exact (Nat.toList_repr (n := n))
  | negSucc n =>
    rw [if_pos (Int.negSucc_lt_zero n)]
    have hrepr : toString (Int.negSucc n) = "-" ++ Nat.repr (n + 1) := rfl
    rw [hrepr, String.toList_append, Nat.toList_repr]
    rfl

theorem signed_toString (z : Int) : signed (toString z).toList = some (z : Rat) := by
  have habs : (z.natAbs : Rat) = ((|z| : Int) : Rat) := Nat.cast_natAbs z
  rw [toList_toString]
  split
  case isTrue hneg =>
    rw [signed, unsigned_toDigits, habs, abs_of_neg hneg]
    simp
  case isFalse hpos =>
    unfold signed
    split
    case h_1 rest hdash =>
      have hmem : '-' ∈ Nat.toDigits 10 z.natAbs := by simp [hdash]
      exact absurd (isDigit_toDigits hmem) (by decide)
    case h_2 => rw [unsigned_toDigits, habs, abs_of_nonneg (not_lt.mp hpos)]

theorem isNumeral_toString (z : Int) : ∀ c ∈ (toString z).toList, isNumeral c = true := by
  have hdigits : ∀ c ∈ Nat.toDigits 10 z.natAbs, isNumeral c = true :=
    fun c hc => isNumeral_of_isDigit (isDigit_toDigits hc)
  rw [toList_toString]
  split
  case isTrue => exact List.forall_mem_cons.mpr ⟨rfl, hdigits⟩
  case isFalse => exact hdigits

theorem reads_number {z : Int} (h : |z| ≤ 2 ^ 53) :
    Reads Stop readNumber (toString z).toList z := by
  intro rest hrest
  obtain ⟨htake, hdrop⟩ := takeWhile_numeral (isNumeral_toString z) hrest
  rw [readNumber, htake, hdrop, signed_toString, Option.map_some, nearestDouble_int h]

end Numbers

/-- A value all of whose numbers are whole and have at most 53 binary digits. -/
inductive Plain : Json → Prop
  | null : Plain .null
  | bool (b : Bool) : Plain (.bool b)
  | number {z : Int} (h : |z| ≤ 2 ^ 53) : Plain (.number z)
  | string (s : String) : Plain (.string s)
  | array {elements : List Json} (h : ∀ v ∈ elements, Plain v) : Plain (.array elements)
  | object {fields : List (String × Json)} (h : ∀ f ∈ fields, Plain f.2) : Plain (.object fields)

section RoundTrip

variable {print : Rat → List Char}

theorem texts_eq (elements : List Json) : texts print elements = elements.map (text print) := by
  induction elements with
  | nil => rfl
  | cons v rest ih => rw [texts, ih, List.map_cons]

def fieldText (print : Rat → List Char) (f : String × Json) : List Char :=
  quote f.1 ++ ':' :: text print f.2

theorem fieldTexts_eq (fields : List (String × Json)) :
    fieldTexts print fields = fields.map (fieldText print) := by
  induction fields with
  | nil => rfl
  | cons f rest ih => rw [fieldTexts, ih, List.map_cons]; rfl

theorem numeral_int {z : Int} (h : |z| ≤ 2 ^ 53) : numeral print z = (toString z).toList :=
  if_pos ⟨Rat.den_intCast z, h⟩

def Start (c : Char) : Prop := isBlank c = false ∧ c ≠ ']' ∧ c ≠ '}'

instance (c : Char) : Decidable (Start c) := inferInstanceAs (Decidable (_ ∧ _ ∧ _))

theorem start_of_isNumeral {c : Char} (h : isNumeral c = true) : Start c := by
  refine ⟨Bool.eq_false_iff.mpr (fun hblank => ?_), ?_, ?_⟩
  · simp only [isBlank, Bool.or_eq_true, decide_eq_true_iff] at hblank
    rcases hblank with ((rfl | rfl) | rfl) | rfl <;> exact absurd h (by decide)
  all_goals rintro rfl; exact absurd h (by decide)

theorem toString_cons (z : Int) : ∃ c rest, (toString z).toList = c :: rest ∧
    isNumeral c = true := by
  cases htext : (toString z).toList with
  | nil =>
    rw [toList_toString] at htext
    split at htext
    · cases htext
    · exact absurd htext Nat.toDigits_ne_nil
  | cons c rest => exact ⟨c, rest, rfl, isNumeral_toString z c (htext ▸ List.mem_cons_self)⟩

theorem text_cons (print : Rat → List Char) {v : Json} (hv : Plain v) :
    ∃ c rest, text print v = c :: rest ∧ Start c := by
  cases hv with
  | null => exact ⟨'n', _, rfl, by decide⟩
  | bool b =>
    cases b with
    | false => exact ⟨'f', _, rfl, by decide⟩
    | true => exact ⟨'t', _, rfl, by decide⟩
  | @number z h =>
    obtain ⟨c, rest, htext, hc⟩ := toString_cons z
    exact ⟨c, rest, (numeral_int h).trans htext, start_of_isNumeral hc⟩
  | string s => exact ⟨'"', _, rfl, by decide⟩
  | array h => exact ⟨'[', _, rfl, by decide⟩
  | object h => exact ⟨'{', _, rfl, by decide⟩

theorem reads_mono {α : Type} {stop stop' : List Char → Prop} {read : Reader Char α}
    {t : List Char} {a : α} (hstop : ∀ rest, stop' rest → stop rest) (h : Reads stop read t a) :
    Reads stop' read t a := fun rest hrest => h rest (hstop rest hrest)

theorem stop_of_ends {m : Marks Char} (hcomma : isNumeral m.comma = false)
    (hclose : isNumeral m.close = false) (rest : List Char) (h : m.Ends rest) : Stop rest := by
  cases rest with
  | nil => exact h.elim
  | cons c rest =>
    rintro _ ⟨⟩
    obtain rfl | rfl := h
    · exact hcomma
    · exact hclose

/-- Numbers and keywords are what starts with no mark of its own. -/
theorem readValue_plain {c : Char} (hc : Start c) (hquote : c ≠ '"') (harray : c ≠ '[')
    (hobject : c ≠ '{') (fuel : Nat) (rest : List Char) :
    readValue (fuel + 1) (c :: rest) =
      match keywords.find? (fun k => k.1.isPrefixOf (c :: rest)) with
      | some k => some (k.2, (c :: rest).drop k.1.length)
      | none => (readNumber (c :: rest)).map (fun (x, rest) => (.number x, rest)) := by
  rw [readValue, List.dropWhile_cons_of_neg (by simp [hc.1])]
  split
  case h_1 h => exact absurd (List.cons.inj h).1 hquote
  case h_2 h => exact absurd (List.cons.inj h).1 harray
  case h_3 h => exact absurd (List.cons.inj h).1 hobject
  case h_4 => rfl

theorem keywords_none {c : Char} (hc : isNumeral c = true) (rest : List Char) :
    keywords.find? (fun k => k.1.isPrefixOf (c :: rest)) = none := by
  refine List.find?_eq_none.mpr (fun k hk hprefix => ?_)
  have hhead : ∀ k ∈ keywords, k.1.head?.any (fun d => !isNumeral d) = true := by decide
  obtain ⟨after, hafter⟩ := List.isPrefixOf_iff_prefix.mp hprefix
  have hfirst := hhead k hk
  cases hkey : k.1 with
  | nil => rw [hkey] at hfirst; cases hfirst
  | cons d ds =>
    rw [hkey, List.cons_append] at hafter
    rw [hkey, (List.cons.inj hafter).1, List.head?_cons, Option.any_some, hc] at hfirst
    cases hfirst

theorem reads_number_value {z : Int} (h : |z| ≤ 2 ^ 53) (fuel : Nat) :
    Reads Stop (readValue (fuel + 1)) (text print (.number z)) (.number z) := by
  intro rest hrest
  obtain ⟨c, cs, htext, hc⟩ := toString_cons z
  have hread := reads_number h rest hrest
  have hne {d : Char} (hd : isNumeral d = false) : c ≠ d := by
    rintro rfl
    rw [hd] at hc
    cases hc
  have htext' : text print (.number z) = c :: cs := (numeral_int h).trans htext
  rw [htext, List.cons_append] at hread
  rw [htext', List.cons_append, readValue_plain (start_of_isNumeral hc) (hne rfl) (hne rfl)
    (hne rfl), keywords_none hc, hread]
  rfl

theorem reads_string_value (s : String) (fuel : Nat) :
    Reads Stop (readValue (fuel + 1)) (text print (.string s)) (.string s) := by
  intro rest _
  have hread := readString_quoted s rest
  have htext : text print (.string s) ++ rest =
      '"' :: (s.toList.flatMap quoteOne ++ '"' :: rest) := by
    simp [text, quote]
  rw [htext, readValue, List.dropWhile_cons_of_neg (by decide)]
  simp only [hread, Option.map_some]

theorem reads_field {f : String × Json} {read : Reader Char Json}
    (h : Reads Stop read (text print f.2) f.2) :
    Reads Stop (readField read) (fieldText print f) f := by
  intro rest hrest
  have htext : fieldText print f ++ rest =
      '"' :: (f.1.toList.flatMap quoteOne ++ '"' :: ':' :: (text print f.2 ++ rest)) := by
    simp [fieldText, quote]
  have hread := readString_quoted f.1 (':' :: (text print f.2 ++ rest))
  have hcolon : (':' :: (text print f.2 ++ rest)).dropWhile isBlank =
      ':' :: (text print f.2 ++ rest) := List.dropWhile_cons_of_neg (by decide)
  rw [htext, readField, List.dropWhile_cons_of_neg (by decide)]
  simp only [hread, Option.bind_some, hcolon, h rest hrest, Option.map_some]

theorem reads_sequence {α : Type} {m : Marks Char} {read : Reader Char α} {item : α → List Char}
    {items : List α} {fuel : Nat} (hcomma : isNumeral m.comma = false)
    (hclose : isNumeral m.close = false)
    (hstart : ∀ a ∈ items, m.Starts (item a))
    (hread : ∀ a ∈ items, Reads Stop read (item a) a)
    (hfuel : (m.enclosed (items.map item)).length ≤ fuel) :
    Reads (fun _ => True) (m.sequence read fuel) (m.enclosed (items.map item)) items := by
  refine reads_enclosed ?_ (List.forall_mem_map.mpr hstart) ?_
  · rw [List.forall₂_map_left_iff, List.forall₂_same]
    exact fun a ha => reads_mono (stop_of_ends hcomma hclose) (hread a ha)
  · have hcount := count_le_enclosed (m := m) (items.map item)
    rw [List.length_map] at hcount
    exact le_trans hcount hfuel

theorem starts_of_start {m : Marks Char} {t : List Char} (hblank : m.blank = isBlank)
    (hclose : m.close = ']' ∨ m.close = '}') (h : ∃ c rest, t = c :: rest ∧ Start c) :
    m.Starts t := by
  obtain ⟨c, rest, rfl, hc⟩ := h
  refine ⟨hblank ▸ hc.1, ?_⟩
  rcases hclose with hclose | hclose
  · exact hclose ▸ hc.2.1
  · exact hclose ▸ hc.2.2

theorem reads_value (fuel : Nat) {v : Json} (hv : Plain v) (hfuel : (text print v).length ≤ fuel) :
    Reads Stop (readValue fuel) (text print v) v := by
  induction fuel generalizing v with
  | zero =>
    obtain ⟨c, rest, htext, -⟩ := text_cons print hv
    rw [htext] at hfuel
    exact absurd hfuel (by simp)
  | succ fuel ih =>
    cases hv with
    | null => exact fun rest _ => rfl
    | bool b => cases b <;> exact fun rest _ => rfl
    | number h => exact reads_number_value h fuel
    | string s => exact reads_string_value s fuel
    | @array elements h =>
      intro rest hrest
      rw [text, List.length_cons, texts_eq] at hfuel
      have hlength := Nat.le_of_succ_le_succ hfuel
      have hsequence : arrayMarks.sequence (readValue fuel) fuel
          (arrayMarks.enclosed (elements.map (text print)) ++ rest) = some (elements, rest) :=
        reads_sequence rfl rfl
          (fun v hv => starts_of_start rfl (.inl rfl) (text_cons print (h v hv)))
          (fun v hv => ih (h v hv) ((length_le_enclosed (List.mem_map_of_mem hv)).trans hlength))
          hlength rest trivial
      rw [text, texts_eq, List.cons_append, readValue, List.dropWhile_cons_of_neg (by decide)]
      simp only [hsequence, Option.map_some]
    | @object fields h =>
      intro rest hrest
      rw [text, List.length_cons, fieldTexts_eq] at hfuel
      have hlength := Nat.le_of_succ_le_succ hfuel
      have hshorter {f : String × Json} : (text print f.2).length ≤ (fieldText print f).length := by
        simp [fieldText]
        omega
      have hsequence : objectMarks.sequence (readField (readValue fuel)) fuel
          (objectMarks.enclosed (fields.map (fieldText print)) ++ rest) = some (fields, rest) :=
        reads_sequence rfl rfl (fun f hf => starts_of_start rfl (.inr rfl) ⟨'"', _, rfl, by decide⟩)
          (fun f hf => reads_field (ih (h f hf) (hshorter.trans
            ((length_le_enclosed (List.mem_map_of_mem hf)).trans hlength))))
          hlength rest trivial
      rw [text, fieldTexts_eq, List.cons_append, readValue, List.dropWhile_cons_of_neg (by decide)]
      simp only [hsequence, Option.map_some]

/-- `JSON.parse(JSON.stringify(v))` is `v`. -/
theorem parse_stringify {v : Json} (hv : Plain v) : parse (stringify print v) = some v := by
  have hread : readValue _ (text print v ++ []) = some (v, []) :=
    reads_value _ hv (le_refl _) [] (fun _ h => nomatch h)
  rw [List.append_nil] at hread
  rw [parse, stringify, String.toList_ofList, hread]
  rfl

end RoundTrip

end WhatsappTester.JsonText
