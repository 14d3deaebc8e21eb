import Mathlib.Algebra.GroupWithZero.Nat
import Mathlib.Data.List.DropRight
import Mathlib.Data.List.TakeWhile

namespace WhatsappTester.Atomic.Trimming

variable {α : Type} (p : α → Bool)

def trim (l : List α) : List α := (l.dropWhile p).rdropWhile p

def leading : List (List α) → Nat
  | [] => 0
  | piece :: rest => if piece.all p then piece.length + leading rest else (piece.takeWhile p).length

def trailing (pieces : List (List α)) : Nat := leading p (pieces.reverse.map List.reverse)

def size (weight : α → Nat) (l : List α) : Nat := (l.map weight).sum

variable {p} {weight : α → Nat}

@[simp] theorem size_nil : size weight [] = 0 := rfl

@[simp] theorem size_cons (a : α) (l : List α) :
    size weight (a :: l) = weight a + size weight l := rfl

theorem size_append (l l' : List α) : size weight (l ++ l') = size weight l + size weight l' := by
  simp [size]

theorem size_reverse (l : List α) : size weight l.reverse = size weight l := by
  simp [size, List.sum_reverse]

theorem size_flatten (pieces : List (List α)) :
    size weight pieces.flatten = (pieces.map (size weight)).sum := by
  induction pieces with
  | nil => rfl
  | cons piece rest ih => simp [size_append, ih]

theorem takeWhile_all {l : List α} (h : l.all p = true) : l.takeWhile p = l :=
  List.takeWhile_eq_self_iff.mpr (List.all_eq_true.mp h)

theorem leading_eq (pieces : List (List α)) :
    leading p pieces = (pieces.flatten.takeWhile p).length := by
  induction pieces with
  | nil => rfl
  | cons piece rest ih =>
    rw [leading, List.flatten_cons, List.takeWhile_append]
    by_cases hall : piece.all p = true
    · simp [hall, takeWhile_all hall, ih]
    · have hshort : (piece.takeWhile p).length ≠ piece.length := by
        intro hlength
        have hself := (List.takeWhile_prefix p).eq_of_length hlength
        exact hall (List.all_eq_true.mpr (List.takeWhile_eq_self_iff.mp hself))
      simp [hall, hshort]

theorem trailing_eq (pieces : List (List α)) :
    trailing p pieces = (pieces.flatten.reverse.takeWhile p).length := by
  rw [trailing, leading_eq, List.reverse_flatten, List.map_reverse]

theorem size_of_all (hweight : ∀ a, p a = true → weight a = 1) {l : List α}
    (h : ∀ a ∈ l, p a = true) :
    size weight l = l.length := by
  induction l with
  | nil => rfl
  | cons a l ih =>
    obtain ⟨ha, hl⟩ := List.forall_mem_cons.mp h
    rw [size_cons, hweight a ha, ih hl, List.length_cons, Nat.add_comm]

theorem size_dropWhile (hweight : ∀ a, p a = true → weight a = 1) (l : List α) :
    (l.takeWhile p).length + size weight (l.dropWhile p) = size weight l := by
  have htake : size weight (l.takeWhile p) = (l.takeWhile p).length :=
    size_of_all hweight (fun a ha => List.mem_takeWhile_imp ha)
  rw [← htake, ← size_append, List.takeWhile_append_dropWhile]

/-- What is cut off at the start does not reach what is cut off at the end. -/
theorem takeWhile_reverse_dropWhile {l : List α} (h : ∃ a ∈ l, p a = false) :
    (l.dropWhile p).reverse.takeWhile p = l.reverse.takeWhile p := by
  have hsplit : l.takeWhile p ++ l.dropWhile p = l := List.takeWhile_append_dropWhile
  have hkept : ∃ a ∈ l.dropWhile p, p a = false := by
    obtain ⟨a, ha, hp⟩ := h
    rw [← hsplit, List.mem_append] at ha
    obtain ha | ha := ha
    · exact absurd (List.mem_takeWhile_imp ha) (by simp [hp])
    · exact ⟨a, ha, hp⟩
  have hshort : ((l.dropWhile p).reverse.takeWhile p).length ≠ (l.dropWhile p).reverse.length := by
    intro hlength
    obtain ⟨a, ha, hp⟩ := hkept
    have hself := (List.takeWhile_prefix p).eq_of_length hlength
    have htrue := List.takeWhile_eq_self_iff.mp hself a (List.mem_reverse.mpr ha)
    simp [hp] at htrue
  conv_rhs => rw [← hsplit, List.reverse_append, List.takeWhile_append, if_neg hshort]

/-- Trimming takes off what is counted at the two ends. -/
theorem size_trim (hweight : ∀ a, p a = true → weight a = 1) {pieces : List (List α)}
    (h : ∃ a ∈ pieces.flatten, p a = false) :
    size weight (trim p pieces.flatten) + leading p pieces + trailing p pieces =
      (pieces.map (size weight)).sum := by
  have hstart := size_dropWhile hweight pieces.flatten
  have hend := size_dropWhile hweight (pieces.flatten.dropWhile p).reverse
  rw [takeWhile_reverse_dropWhile h, size_reverse] at hend
  rw [trim, List.rdropWhile, size_reverse, leading_eq, trailing_eq, ← size_flatten]
  omega

theorem trim_eq_nil {l : List α} : trim p l = [] ↔ ∀ a ∈ l, p a = true := by
  have hsplit : l.takeWhile p ++ l.dropWhile p = l := List.takeWhile_append_dropWhile
  rw [trim, List.rdropWhile_eq_nil_iff]
  constructor
  · intro h a ha
    rw [← hsplit, List.mem_append] at ha
    obtain ha | ha := ha
    · exact List.mem_takeWhile_imp ha
    · exact h a ha
  · intro h a ha
    exact h a ((List.dropWhile_sublist p).subset ha)

/-- What `p` holds for at the two ends does not matter. -/
theorem trim_append {w w' : List α} (hw : ∀ a ∈ w, p a = true) (hw' : ∀ a ∈ w', p a = true)
    (l : List α) : trim p (w ++ l ++ w') = trim p l := by
  by_cases hall : ∀ a ∈ l, p a = true
  · have hwhole : ∀ a ∈ w ++ l ++ w', p a = true := by
      simp only [List.mem_append]
      rintro a ((ha | ha) | ha)
      · exact hw a ha
      · exact hall a ha
      · exact hw' a ha
    rw [trim_eq_nil.mpr hwhole, trim_eq_nil.mpr hall]
  · have hstart : (w ++ l ++ w').dropWhile p = l.dropWhile p ++ w' := by
      rw [List.append_assoc, List.dropWhile_append_of_pos hw, List.dropWhile_append, if_neg]
      rw [List.isEmpty_iff, List.dropWhile_eq_nil_iff]
      exact hall
    have hreverse : ∀ a ∈ w'.reverse, p a = true := fun a ha => hw' a (List.mem_reverse.mp ha)
    rw [trim, trim, hstart, List.rdropWhile, List.rdropWhile, List.reverse_append,
      List.dropWhile_append_of_pos hreverse]

/-- A list is what is left of it between what is cut off. -/
theorem exists_trim (p : α → Bool) (l : List α) :
    ∃ w w', l = w ++ trim p l ++ w' ∧ (∀ a ∈ w, p a = true) ∧ ∀ a ∈ w', p a = true := by
  refine ⟨l.takeWhile p, (l.dropWhile p).rtakeWhile p, ?_,
    fun a ha => List.mem_takeWhile_imp ha, fun a ha => List.mem_rtakeWhile_imp ha⟩
  rw [trim, List.append_assoc, List.rdropWhile_append_rtakeWhile, List.takeWhile_append_dropWhile]

/-- Where `p` holds throughout, more is counted at the two ends than there is. -/
theorem size_le_of_all (hweight : ∀ a, p a = true → weight a = 1) {pieces : List (List α)}
    (h : ∀ a ∈ pieces.flatten, p a = true) : (pieces.map (size weight)).sum ≤ leading p pieces := by
  rw [← size_flatten, size_of_all hweight h, leading_eq, List.takeWhile_eq_self_iff.mpr h]

end WhatsappTester.Atomic.Trimming
