import Mathlib.Data.List.DropRight
import WhatsappTester.Atomic.Replacement
import WhatsappTester.Spreadsheet

namespace WhatsappTester.Placeholders

open Atomic.Replacement Spreadsheet

/-- `[^{}]` -/
def plain (c : Char) : Bool := decide (c ≠ '{' ∧ c ≠ '}')

/-- `/\{([^{}]+)\}/` at the start of a text. -/
def placeholderAt : Pattern Char (List Char)
  | [] => none
  | c :: rest =>
    let key := rest.takeWhile plain
    if c = '{' ∧ key ≠ [] ∧ (rest.dropWhile plain).head? = some '}' then some (key, key.length + 1)
    else none

variable (toLowerCase : String → String)

def filled (data : Columns) : Piece Char (List Char) → Cell
  | .kept c => .ok (String.ofList [c])
  | .found key => substitute toLowerCase data (.placeholder key)

def concat (a b : Cell) : Cell := do
  let s ← a
  let t ← b
  pure (s ++ t)

/-- No brace is open at the end of a text. -/
def Closed (template : String) : Prop := '{' ∉ template.toList.rtakeWhile (· ≠ '}')

def IsKey (key : List Char) : Prop := key ≠ [] ∧ ∀ c ∈ key, plain c = true

instance (template : String) : Decidable (Closed template) := inferInstanceAs (Decidable (¬ _))

instance (key : List Char) : Decidable (IsKey key) :=
  decidable_of_iff (key ≠ [] ∧ key.all plain = true) (and_congr_right' List.all_eq_true)

def Occurs (key : List Char) (template : String) : Prop :=
  IsKey key ∧ (braced key).toList <:+: template.toList

variable {toLowerCase : String → String}

theorem placeholderAt_eq {key : List Char} (hkey : IsKey key) (rest : List Char) :
    placeholderAt ('{' :: key ++ '}' :: rest) = some (key, key.length + 1) := by
  have htake : (key ++ '}' :: rest).takeWhile plain = key := by
    rw [List.takeWhile_append_of_pos hkey.2]
    simp [plain]
  have hdrop : (key ++ '}' :: rest).dropWhile plain = '}' :: rest := by
    rw [List.dropWhile_append_of_pos hkey.2]
    simp [plain]
  rw [List.cons_append, placeholderAt, htake, hdrop]
  exact if_pos ⟨rfl, hkey.1, rfl⟩

theorem placeholderAt_within {s key : List Char} {n : Nat} (h : placeholderAt s = some (key, n)) :
    n < s.length := by
  cases s with
  | nil => cases h
  | cons c rest =>
    rw [placeholderAt] at h
    split at h
    case isFalse => cases h
    case isTrue hmatch =>
      cases h
      have hsplit := congrArg List.length (List.takeWhile_append_dropWhile (p := plain) (l := rest))
      have hclose : (rest.dropWhile plain).length ≠ 0 := by
        intro hlength
        rw [List.length_eq_zero_iff.mp hlength] at hmatch
        simp at hmatch
      rw [List.length_append] at hsplit
      rw [List.length_cons]
      omega

theorem placeholderAt_append {c : Char} {s rest : List Char} (h : ∃ x ∈ s, plain x = false) :
    placeholderAt (c :: s ++ rest) = placeholderAt (c :: s) := by
  have hkept : s.dropWhile plain ≠ [] := by
    obtain ⟨x, hx, hplain⟩ := h
    intro hnil
    have := List.dropWhile_eq_nil_iff.mp hnil x hx
    simp [hplain] at this
  have hdrop : (s ++ rest).dropWhile plain = s.dropWhile plain ++ rest := by
    rw [List.dropWhile_append, if_neg (by simpa using hkept)]
  have htake : (s ++ rest).takeWhile plain = s.takeWhile plain := by
    rw [List.takeWhile_append, if_neg]
    intro hlength
    have hself := (List.takeWhile_prefix plain).eq_of_length hlength
    exact hkept (List.dropWhile_eq_nil_iff.mpr (List.takeWhile_eq_self_iff.mp hself))
  rw [List.cons_append, placeholderAt, placeholderAt, htake, hdrop,
    List.head?_append_of_ne_nil _ hkept]

/-- A brace that is open at the end of a text begins no placeholder, also if another
one follows. -/
theorem placeholderAt_open {c : Char} {s rest : List Char} (h : ∀ x ∈ s, plain x = true)
    (hrest : rest.head? ≠ some '}') (hbrace : ∀ x ∈ rest.head?, plain x = false) :
    placeholderAt (c :: s ++ rest) = none := by
  have hdrop : (s ++ rest).dropWhile plain = rest := by
    rw [List.dropWhile_append_of_pos h]
    cases rest with
    | nil => rfl
    | cons x rest => exact List.dropWhile_cons_of_neg (by simp [hbrace x rfl])
  rw [List.cons_append, placeholderAt, hdrop]
  exact if_neg (fun hmatch => hrest hmatch.2.2)

theorem placeholderAt_none {c : Char} {rest : List Char} (h : c ≠ '{') :
    placeholderAt (c :: rest) = none := by
  rw [placeholderAt]
  exact if_neg (fun hmatch => h hmatch.1)

theorem open_of_suffix {l s : List Char} (hs : '{' :: s <:+ l) (hplain : ∀ x ∈ s, plain x = true) :
    '{' ∈ l.rtakeWhile (· ≠ '}') := by
  obtain ⟨before, rfl⟩ := hs
  have hpos : ∀ x ∈ s.reverse ++ ['{'], decide (x ≠ '}') = true := by
    intro x hx
    obtain hx | hx := List.mem_append.mp hx
    · have := hplain x (List.mem_reverse.mp hx)
      simp_all [plain]
    · simp [List.mem_singleton.mp hx]
  have hreverse : (before ++ '{' :: s).reverse = s.reverse ++ ['{'] ++ before.reverse := by simp
  rw [List.rtakeWhile, hreverse, List.takeWhile_append_of_pos hpos]
  simp

theorem pieces_closed {l rest : List Char} (h : '{' ∉ l.rtakeWhile (· ≠ '}')) :
    pieces placeholderAt 0 (l ++ rest) =
      pieces placeholderAt 0 l ++ pieces placeholderAt 0 rest := by
  refine pieces_append (fun s hne hs => ?_) (fun s key n _ hat => placeholderAt_within hat)
  cases s with
  | nil => exact absurd rfl hne
  | cons c s =>
    by_cases hc : c = '{'
    · by_cases hbrace : ∃ x ∈ s, plain x = false
      · exact placeholderAt_append hbrace
      · have hplain : ∀ x ∈ s, plain x = true := by simpa using hbrace
        exact absurd (open_of_suffix (hc ▸ hs) hplain) h
    · rw [List.cons_append, placeholderAt_none hc, placeholderAt_none hc]

theorem pieces_open (l rest : List Char) :
    pieces placeholderAt 0 (l ++ '{' :: rest) =
      pieces placeholderAt 0 l ++ pieces placeholderAt 0 ('{' :: rest) := by
  refine pieces_append (fun s hne hs => ?_) (fun s key n _ hat => placeholderAt_within hat)
  cases s with
  | nil => exact absurd rfl hne
  | cons c s =>
    by_cases hbrace : ∃ x ∈ s, plain x = false
    · exact placeholderAt_append hbrace
    · have hplain : ∀ x ∈ s, plain x = true := by simpa using hbrace
      have hnone : placeholderAt (c :: s ++ []) = none :=
        placeholderAt_open hplain (by simp) (by simp)
      rw [List.append_nil] at hnone
      rw [hnone, placeholderAt_open hplain (by simp) (by simp [plain])]

def split : Segment → List (Piece Char (List Char))
  | .literal text => text.map .kept
  | .placeholder key => [.found key]

theorem pieces_plain {s : List Char} (h : ∀ x ∈ s, plain x = true) (rest : List Char) :
    pieces placeholderAt 0 (s ++ rest) = s.map .kept ++ pieces placeholderAt 0 rest := by
  induction s with
  | nil => rfl
  | cons c s ih =>
    obtain ⟨hc, hs⟩ := List.forall_mem_cons.mp h
    have hopen : c ≠ '{' := by
      rintro rfl
      simp [plain] at hc
    rw [List.cons_append, pieces_none (placeholderAt_none hopen), ih hs, List.map_cons,
      List.cons_append]

theorem pieces_unclosed {s : List Char} (h : ∀ x ∈ s, plain x = true) (rest : List Char)
    (hrest : rest.head? ≠ some '}') (hbrace : ∀ x ∈ rest.head?, plain x = false) :
    pieces placeholderAt 0 ('{' :: s ++ rest) =
      ('{' :: s).map .kept ++ pieces placeholderAt 0 rest := by
  have hnone := placeholderAt_open (c := '{') h hrest hbrace
  rw [List.cons_append] at hnone ⊢
  rw [pieces_none hnone, pieces_plain h, List.map_cons, List.cons_append]

/-- The scan finds the matches of the regular expression. -/
theorem split_scan (key : Option (List Char)) (rest : List Char)
    (hkey : ∀ k ∈ key, ∀ c ∈ k, plain c = true) :
    (scan key rest).flatMap split =
      pieces placeholderAt 0 ((key.map ('{' :: ·)).getD [] ++ rest) := by
  have hempty : ∀ k ∈ some ([] : List Char), ∀ c ∈ k, plain c = true := by simp
  induction rest generalizing key with
  | nil =>
    cases key with
    | none => rfl
    | some k =>
      have hkept := pieces_unclosed (hkey k rfl) [] (by simp) (by simp)
      simpa [scan, split] using hkept.symm
  | cons c rest ih =>
    cases key with
    | none =>
      by_cases hopen : c = '{'
      · simpa [scan, hopen] using ih (some []) hempty
      · have hrest := ih none (by simp)
        simp only [scan, if_neg hopen, List.flatMap_cons, hrest, split, List.map_cons,
          List.map_nil, List.singleton_append, Option.map_none, Option.getD_none, List.nil_append,
          pieces_none (placeholderAt_none hopen)]
    | some k =>
      by_cases hopen : c = '{'
      · have hkept := pieces_unclosed (hkey k rfl) (c :: rest) (by simp [hopen])
          (by simp [hopen, plain])
        have hrest := ih (some []) hempty
        simp only [Option.map_some, Option.getD_some, List.nil_append, List.cons_append] at hrest
        simp only [Option.map_some, Option.getD_some, hkept, scan, if_pos hopen,
          List.flatMap_cons, hrest, split]
        rw [hopen]
      · by_cases hclose : c = '}'
        · have hrest := ih none (by simp)
          simp only [Option.map_none, Option.getD_none, List.nil_append] at hrest
          by_cases hk : k = []
          · have hfirst : placeholderAt ('{' :: '}' :: rest) = none := rfl
            have hsecond : placeholderAt ('}' :: rest) = none := rfl
            simp [scan, hk, hclose, hrest, split, pieces_none hfirst, pieces_none hsecond]
          · have hfound := pieces_some (placeholderAt_eq ⟨hk, hkey k rfl⟩ rest)
            have hrest' : (k ++ '}' :: rest).drop (k.length + 1) = rest := by simp
            rw [List.append_eq, hrest'] at hfound
            simp [scan, hk, hclose, hrest, split, hfound]
        · have hlonger : ∀ k' ∈ some (k ++ [c]), ∀ x ∈ k', plain x = true := by
            rintro _ ⟨⟩ x hx
            obtain hx | hx := List.mem_append.mp hx
            · exact hkey k rfl x hx
            · simp [List.mem_singleton.mp hx, plain, hopen, hclose]
          simpa [scan, hopen, hclose] using ih (some (k ++ [c])) hlonger

theorem join_concat (row row' : List Cell) :
    join (row ++ row') = concat (join row) (join row') := by
  rw [join_append, concat]
  cases join row <;> cases join row' <;> rfl

theorem join_singleton (cell : Cell) : join [cell] = cell := by
  cases cell with
  | error err => rfl
  | ok text => exact congrArg Except.ok String.append_empty

theorem join_kept (data : Columns) (text : List Char) :
    join ((text.map Piece.kept).map (filled toLowerCase data)) = .ok (String.ofList text) := by
  induction text with
  | nil => rfl
  | cons c text ih =>
    rw [List.map_cons, List.map_cons, join, ih, filled, ← List.singleton_append (l := text),
      String.ofList_append]
    rfl

/-- The template is filled in match by match. -/
theorem resolveTemplate_pieces (template : String) (data : Columns) :
    resolveTemplate toLowerCase template data =
      join ((pieces placeholderAt 0 template.toList).map (filled toLowerCase data)) := by
  have hparts : ∀ parts : List Segment, join ((parts.flatMap split).map (filled toLowerCase data)) =
      join (parts.map (substitute toLowerCase data)) := by
    intro parts
    induction parts with
    | nil => rfl
    | cons part parts ih =>
      rw [List.flatMap_cons, List.map_append, join_concat, ih, List.map_cons,
        ← List.singleton_append, join_concat, join_singleton]
      cases part with
      | literal text => rw [split, join_kept]; rfl
      | placeholder key => rw [split, List.map_singleton, join_singleton]; rfl
  have hsplit := split_scan none template.toList (by simp)
  rw [Option.map_none, Option.getD_none, List.nil_append] at hsplit
  rw [resolveTemplate_eq, cells, segments, ← hparts, hsplit]

/-- A placeholder comes to the text of the column that it names. -/
theorem substitute_named {data : Columns} {key : List Char} {column : String × Cell}
    (h : data.find? (isNamed toLowerCase key) = some column) :
    substitute toLowerCase data (.placeholder key) = column.2 := by
  rw [substitute, h]
  rfl

theorem pieces_placeholder {key : List Char} (hkey : IsKey key) (before after : List Char) :
    pieces placeholderAt 0 (before ++ ('{' :: key ++ '}' :: after)) =
      pieces placeholderAt 0 before ++ .found key :: pieces placeholderAt 0 after := by
  have hfound := pieces_some (placeholderAt_eq hkey after)
  have hafter : (key ++ '}' :: after).drop (key.length + 1) = after := by simp
  rw [List.append_eq, hafter] at hfound
  rw [List.cons_append, pieces_open, hfound]

theorem toList_braced (key : List Char) : (braced key).toList = '{' :: key ++ ['}'] :=
  String.toList_ofList

theorem occurs_of_mem {key : List Char} {template : String}
    (h : .placeholder key ∈ segments template) : Occurs key template := by
  have hnone : ∀ k ∈ (none : Option (List Char)), '{' ∉ k ∧ '}' ∉ k := by simp
  have hbraces := scan_key hnone h
  refine ⟨⟨hbraces.1, fun c hc => ?_⟩, ?_⟩
  · have hopen : c ≠ '{' := fun heq => hbraces.2.1 (heq ▸ hc)
    have hclose : c ≠ '}' := fun heq => hbraces.2.2 (heq ▸ hc)
    simp [plain, hopen, hclose]
  · have hsource := source_scan none template.toList
    rw [Option.map_none, Option.getD_none, List.nil_append] at hsource
    rw [← hsource, toList_braced]
    exact List.infix_of_mem_flatten (List.mem_map_of_mem (f := source) h)

/-- Where no column is named, the template is left as it is. -/
theorem resolveTemplate_unnamed {template : String} {data : Columns}
    (h : ∀ key, Occurs key template → ∀ column ∈ data, isNamed toLowerCase key column = false) :
    resolveTemplate toLowerCase template data = .ok template := by
  have hcells : cells toLowerCase template data =
      ((segments template).map (fun part => String.ofList (source part))).map .ok := by
    rw [cells, List.map_map]
    refine List.map_congr_left (fun part hpart => ?_)
    cases part with
    | literal text => rfl
    | placeholder key =>
      have hnone : data.find? (isNamed toLowerCase key) = none := by
        refine List.find?_eq_none.mpr (fun column hcolumn => ?_)
        simp [h key (occurs_of_mem hpart) column hcolumn]
      rw [substitute, hnone]
      rfl
  rw [resolveTemplate_eq, join_eq_ok]
  refine ⟨_, hcells, ?_⟩
  have hsource := source_scan none template.toList
  simpa [segments, Function.comp_def] using hsource.symm

/-- Templates are filled in piece by piece: what a placeholder comes to is the text of
its column, and nothing else in the template depends on it. -/
theorem resolveTemplate_piecewise (toLowerCase : String → String) (data : Columns) :
    (∀ t₁ t₂, Closed t₁ → resolveTemplate toLowerCase (t₁ ++ t₂) data =
      concat (resolveTemplate toLowerCase t₁ data) (resolveTemplate toLowerCase t₂ data)) ∧
    (∀ key column, IsKey key → data.find? (isNamed toLowerCase key) = some column →
      resolveTemplate toLowerCase (braced key) data = column.2 ∧
      ∀ before after, resolveTemplate toLowerCase (before ++ braced key ++ after) data =
        concat (concat (resolveTemplate toLowerCase before data) column.2)
          (resolveTemplate toLowerCase after data)) ∧
    ∀ template,
      (∀ key, Occurs key template → ∀ column ∈ data, isNamed toLowerCase key column = false) →
        resolveTemplate toLowerCase template data = .ok template := by
  have haround : ∀ key column, IsKey key → data.find? (isNamed toLowerCase key) = some column →
      ∀ before after, resolveTemplate toLowerCase (before ++ braced key ++ after) data =
        concat (concat (resolveTemplate toLowerCase before data) column.2)
          (resolveTemplate toLowerCase after data) := by
    intro key column hkey hnamed before after
    have hlist : (before ++ braced key ++ after).toList =
        before.toList ++ ('{' :: key ++ '}' :: after.toList) := by
      simp [toList_braced]
    simp only [resolveTemplate_pieces, hlist, pieces_placeholder hkey, List.map_append,
      List.map_cons]
    rw [← List.singleton_append, ← List.append_assoc, join_concat, join_concat, join_singleton,
      filled, substitute_named hnamed]
  refine ⟨fun t₁ t₂ hclosed => ?_,
    fun key column hkey hnamed => ⟨?_, haround key column hkey hnamed⟩,
    fun template h => resolveTemplate_unnamed h⟩
  · simp only [resolveTemplate_pieces, String.toList_append]
    rw [pieces_closed hclosed, List.map_append, join_concat]
  · have hself := haround key column hkey hnamed "" ""
    rw [String.empty_append, String.append_empty] at hself
    rw [hself]
    cases column.2 with
    | error err => rfl
    | ok text => simp [resolveTemplate, concat, pure, Except.pure, bind, Except.bind]

theorem mem_of_mem_trim {c : Char} {s : String} (h : c ∈ (Routes.trim s).toList) :
    c ∈ s.toList := by
  obtain ⟨w, w', hsplit, -, -⟩ := Atomic.Trimming.exists_trim Routes.isSpace s.toList
  rw [toList_trim] at h
  rw [hsplit]
  simp [h]

theorem resolveTemplate_piecewise_name :
    resolveTemplate id ("Dear {x}, " ++ "{ name }") [("name", .ok "{x} $&")] =
        concat (resolveTemplate id "Dear {x}, " [("name", .ok "{x} $&")])
          (resolveTemplate id "{ name }" [("name", .ok "{x} $&")]) ∧
      resolveTemplate id (braced " name ".toList) [("name", .ok "{x} $&")] = .ok "{x} $&" ∧
      resolveTemplate id "Dear {x}, " [("name", .ok "{x} $&")] = .ok "Dear {x}, " := by
  refine ⟨(resolveTemplate_piecewise id _).1 _ _ (by decide +kernel),
    ((resolveTemplate_piecewise id _).2.1 _ ("name", .ok "{x} $&") (by decide)
      (by decide +kernel)).1, (resolveTemplate_piecewise id _).2.2 _ ?_⟩
  rintro key ⟨-, hinfix⟩ column hcolumn
  obtain rfl := List.mem_singleton.mp hcolumn
  refine decide_eq_false (fun hsame => ?_)
  have htrim : Routes.trim "name" = Routes.trim (String.ofList key) := hsame
  have hn : 'n' ∈ (Routes.trim (String.ofList key)).toList := by
    rw [← htrim]
    decide
  have hkey : 'n' ∈ key := by simpa using mem_of_mem_trim hn
  have htemplate : 'n' ∈ "Dear {x}, ".toList :=
    hinfix.subset (by rw [toList_braced]; simp [hkey])
  exact absurd htemplate (by decide)

end WhatsappTester.Placeholders
