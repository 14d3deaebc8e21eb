import Mathlib.Data.List.Forall2

namespace WhatsappTester.Atomic.Reading

variable {σ α : Type}

abbrev Reader (σ α : Type) := List σ → Option (α × List σ)

/-- The text is read as a value, whatever comes after it that `stop` allows. -/
def Reads (stop : List σ → Prop) (read : Reader σ α) (text : List σ) (a : α) : Prop :=
  ∀ rest, stop rest → read (text ++ rest) = some (a, rest)

/-- The punctuation of a sequence: values with commas between them and a bracket at the
end, with blanks around them. -/
structure Marks (σ : Type) where
  blank : σ → Bool
  comma : σ
  close : σ
  comma_ne_close : comma ≠ close
  blank_comma : blank comma = false
  blank_close : blank close = false

section Sequence

variable (m : Marks σ)

def Marks.further : List (List σ) → List σ
  | [] => [m.close]
  | text :: texts => m.comma :: (text ++ further texts)

def Marks.enclosed : List (List σ) → List σ
  | [] => [m.close]
  | text :: texts => text ++ m.further texts

def Marks.Ends : List σ → Prop
  | [] => False
  | c :: _ => c = m.comma ∨ c = m.close

/-- A text that is neither blank at its start nor a closing bracket. -/
def Marks.Starts : List σ → Prop
  | [] => False
  | c :: _ => m.blank c = false ∧ c ≠ m.close

variable {m}

theorem ends_further (texts : List (List σ)) (rest : List σ) :
    m.Ends (m.further texts ++ rest) := by
  cases texts with
  | nil => exact .inr rfl
  | cons text texts => exact .inl rfl

section Readers

variable [DecidableEq σ]

def Marks.items (m : Marks σ) (read : Reader σ α) : Nat → Reader σ (List α)
  | 0, _ => none
  | fuel + 1, text =>
    (read text).bind (fun (a, rest) =>
      match rest.dropWhile m.blank with
      | [] => none
      | c :: rest =>
        if c = m.close then some ([a], rest)
        else if c = m.comma then
          (items m read fuel rest).map (fun (as, rest) => (a :: as, rest))
        else none)

def Marks.sequence (m : Marks σ) (read : Reader σ α) (fuel : Nat) : Reader σ (List α) := fun text =>
  match text.dropWhile m.blank with
  | [] => none
  | c :: rest => if c = m.close then some ([], rest) else m.items read fuel text

theorem reads_further {read : Reader σ α} {text : List σ} {a : α} {texts : List (List σ)}
    {values : List α} {fuel : Nat} (h : Reads m.Ends read text a)
    (hall : List.Forall₂ (Reads m.Ends read) texts values) (hfuel : values.length ≤ fuel) :
    Reads (fun _ => True) (m.items read (fuel + 1)) (text ++ m.further texts) (a :: values) := by
  intro rest _
  rw [List.append_assoc, Marks.items, h _ (ends_further texts rest)]
  induction hall generalizing text a fuel with
  | nil =>
    simp only [Option.bind_some, Marks.further, List.cons_append, List.nil_append]
    rw [List.dropWhile_cons_of_neg (by simp [m.blank_close])]
    exact if_pos rfl
  | @cons t b texts values hb hall ih =>
    obtain _ | fuel := fuel
    · simp at hfuel
    have hnext := ih hb (Nat.le_of_succ_le_succ hfuel)
    simp only [Option.bind_some, Marks.further, List.cons_append, List.append_assoc] at hnext ⊢
    rw [List.dropWhile_cons_of_neg (by simp [m.blank_comma])]
    simp only [if_neg m.comma_ne_close, ↓reduceIte]
    rw [Marks.items, hb _ (ends_further texts rest)]
    simp only [Option.bind_some]
    rw [hnext]
    rfl

/-- A sequence of texts that are read as values is read as the sequence of the values. -/
theorem reads_enclosed {read : Reader σ α} {texts : List (List σ)} {values : List α} {fuel : Nat}
    (h : List.Forall₂ (Reads m.Ends read) texts values) (hstart : ∀ text ∈ texts, m.Starts text)
    (hfuel : values.length ≤ fuel) :
    Reads (fun _ => True) (m.sequence read fuel) (m.enclosed texts) values := by
  intro rest _
  cases h with
  | nil =>
    simp only [Marks.sequence, Marks.enclosed, List.cons_append, List.nil_append]
    rw [List.dropWhile_cons_of_neg (by simp [m.blank_close])]
    exact if_pos rfl
  | @cons text a texts values ha hall =>
    obtain _ | fuel := fuel
    · simp at hfuel
    have hitems := reads_further ha hall (Nat.le_of_succ_le_succ hfuel) rest trivial
    cases text with
    | nil => exact (hstart [] List.mem_cons_self).elim
    | cons c text =>
      obtain ⟨hblank, hclose⟩ := hstart _ List.mem_cons_self
      simp only [Marks.sequence, Marks.enclosed, List.cons_append] at hitems ⊢
      rw [List.dropWhile_cons_of_neg (by simp [hblank])]
      simp only [if_neg hclose]
      exact hitems

end Readers

theorem length_le_further {texts : List (List σ)} {text : List σ} (h : text ∈ texts) :
    text.length ≤ (m.further texts).length := by
  induction texts with
  | nil => cases h
  | cons t texts ih =>
    simp only [Marks.further, List.length_cons, List.length_append]
    obtain rfl | h := List.mem_cons.mp h
    · omega
    · have := ih h
      omega

theorem length_le_enclosed {texts : List (List σ)} {text : List σ} (h : text ∈ texts) :
    text.length ≤ (m.enclosed texts).length := by
  cases texts with
  | nil => cases h
  | cons t texts =>
    simp only [Marks.enclosed, List.length_append]
    obtain rfl | h := List.mem_cons.mp h
    · omega
    · have := length_le_further (m := m) h
      omega

theorem count_lt_further (texts : List (List σ)) : texts.length < (m.further texts).length := by
  induction texts with
  | nil => exact Nat.one_pos
  | cons text texts ih =>
    simp only [Marks.further, List.length_cons, List.length_append]
    omega

theorem count_le_enclosed (texts : List (List σ)) : texts.length ≤ (m.enclosed texts).length := by
  cases texts with
  | nil => exact Nat.zero_le _
  | cons text texts =>
    have := count_lt_further (m := m) texts
    simp only [Marks.enclosed, List.length_cons, List.length_append]
    omega

end Sequence

end WhatsappTester.Atomic.Reading
