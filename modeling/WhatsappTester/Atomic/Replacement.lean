import Mathlib.Data.List.Basic
import Mathlib.Data.List.Infix

namespace WhatsappTester.Atomic.Replacement

variable {α β : Type}

/-- How a pattern matches at the start of a list: what it finds there, and how many
elements after the first one the match takes up. -/
abbrev Pattern (α β : Type) := List α → Option (β × Nat)

inductive Piece (α β : Type)
  | kept (a : α)
  | found (b : β)
  deriving DecidableEq, Repr

/-- The matches of a pattern from left to right, none of which overlap. The first `n`
elements belong to a match that has begun before. -/
def pieces (m : Pattern α β) : Nat → List α → List (Piece α β)
  | _, [] => []
  | n + 1, _ :: rest => pieces m n rest
  | 0, a :: rest =>
    match m (a :: rest) with
    | some (b, n) => .found b :: pieces m n rest
    | none => .kept a :: pieces m 0 rest

def Piece.fill (f : β → List α) : Piece α β → List α
  | .kept a => [a]
  | .found b => f b

def replace (m : Pattern α β) (f : β → List α) (l : List α) : List α :=
  (pieces m 0 l).flatMap (Piece.fill f)

variable {m : Pattern α β} {f : β → List α}

@[simp] theorem pieces_nil (n : Nat) : pieces m n [] = [] := by
  cases n <;> rfl

@[simp] theorem replace_nil : replace m f [] = [] := rfl

theorem pieces_drop (n : Nat) (l : List α) : pieces m n l = pieces m 0 (l.drop n) := by
  induction n generalizing l with
  | zero => rfl
  | succ n ih =>
    cases l with
    | nil => simp
    | cons a rest => exact ih rest

theorem pieces_some {a : α} {rest : List α} {b : β} {n : Nat} (h : m (a :: rest) = some (b, n)) :
    pieces m 0 (a :: rest) = .found b :: pieces m 0 (rest.drop n) := by
  rw [pieces, h]
  exact congrArg _ (pieces_drop n rest)

theorem pieces_none {a : α} {rest : List α} (h : m (a :: rest) = none) :
    pieces m 0 (a :: rest) = .kept a :: pieces m 0 rest := by
  rw [pieces, h]

/-- What follows a list does not matter for the matches in it when it does not matter
for any that begins there. -/
theorem pieces_append {l rest : List α}
    (h : ∀ s, s ≠ [] → s <:+ l → m (s ++ rest) = m s)
    (hwithin : ∀ s b n, s <:+ l → m s = some (b, n) → n < s.length) :
    pieces m 0 (l ++ rest) = pieces m 0 l ++ pieces m 0 rest := by
  generalize hk : l.length = k
  induction k using Nat.strong_induction_on generalizing l with
  | _ k ih =>
    cases l with
    | nil => simp
    | cons a l =>
      have hhead : m (a :: (l ++ rest)) = m (a :: l) := h (a :: l) (by simp) (List.suffix_refl _)
      cases hat : m (a :: l) with
      | none =>
        have htail := ih l.length (by simp [← hk])
          (fun s hne hs => h s hne (hs.trans (List.suffix_cons a l)))
          (fun s b n hs => hwithin s b n (hs.trans (List.suffix_cons a l))) rfl
        rw [List.cons_append, pieces_none (hhead.trans hat), pieces_none hat, htail,
          List.cons_append]
      | some found =>
        obtain ⟨b, n⟩ := found
        have hn : n ≤ l.length := by
          simpa using Nat.lt_succ_iff.mp (hwithin _ b n (List.suffix_refl _) hat)
        have hsuffix : l.drop n <:+ a :: l := (List.drop_suffix n l).trans (List.suffix_cons a l)
        have hshorter : (l.drop n).length < k := by
          rw [List.length_drop, ← hk, List.length_cons]
          omega
        have htail := ih (l.drop n).length hshorter
          (fun s hne hs => h s hne (hs.trans hsuffix))
          (fun s b n hs => hwithin s b n (hs.trans hsuffix)) rfl
        rw [List.cons_append, pieces_some (hhead.trans hat), pieces_some hat,
          List.drop_append_of_le_length hn, htail, List.cons_append]

theorem replace_cons_some {a : α} {rest : List α} {b : β} {n : Nat}
    (h : m (a :: rest) = some (b, n)) :
    replace m f (a :: rest) = f b ++ replace m f (rest.drop n) := by
  rw [replace, pieces_some h, List.flatMap_cons]
  rfl

theorem replace_cons_none {a : α} {rest : List α} (h : m (a :: rest) = none) :
    replace m f (a :: rest) = a :: replace m f rest := by
  rw [replace, pieces_none h, List.flatMap_cons]
  rfl

section Single

variable [DecidableEq α]

def single (a : α) : Pattern α Unit
  | [] => none
  | x :: _ => if x = a then some ((), 0) else none

theorem replace_single (a : α) (text l : List α) :
    replace (single a) (fun _ => text) l = l.flatMap (fun x => if x = a then text else [x]) := by
  induction l with
  | nil => rfl
  | cons x rest ih =>
    by_cases hx : x = a
    · have hsome : single a (x :: rest) = some ((), 0) := if_pos hx
      rw [replace_cons_some hsome, List.drop_zero, ih, List.flatMap_cons, if_pos hx]
    · have hnone : single a (x :: rest) = none := if_neg hx
      rw [replace_cons_none hnone, ih, List.flatMap_cons, if_neg hx, List.singleton_append]

end Single

end WhatsappTester.Atomic.Replacement
