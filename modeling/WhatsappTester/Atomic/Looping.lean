import Mathlib.Logic.Function.Iterate
import Mathlib.Data.Nat.Find

namespace WhatsappTester.Atomic.Looping

variable {α : Type} (f : α → α) (again : α → Bool)

/-- `do { a = f(a) } while (again(a))`, cut off after `fuel` rounds. -/
def doWhile : Nat → α → Option α
  | 0, _ => none
  | fuel + 1, a => if again (f a) then doWhile fuel (f a) else some (f a)

def Returns (a b : α) : Prop := ∃ fuel, doWhile f again fuel a = some b

variable {f again} {a b c : α}

theorem doWhile_eq_some {fuel : Nat} : doWhile f again fuel a = some b ↔
    ∃ k < fuel, b = f^[k + 1] a ∧ again (f^[k + 1] a) = false ∧
      ∀ j < k, again (f^[j + 1] a) = true := by
  induction fuel generalizing a with
  | zero => simp [doWhile]
  | succ fuel ih =>
    by_cases h : again (f a) = true
    · rw [doWhile, if_pos h, ih]
      constructor
      · rintro ⟨k, hk, rfl, hstop, hgo⟩
        refine ⟨k + 1, Nat.succ_lt_succ hk, rfl, hstop, fun j hj => ?_⟩
        cases j with
        | zero => exact h
        | succ j => exact hgo j (Nat.lt_of_succ_lt_succ hj)
      · rintro ⟨k, hk, rfl, hstop, hgo⟩
        cases k with
        | zero => exact absurd h (Bool.eq_false_iff.mp hstop)
        | succ k =>
          exact ⟨k, Nat.lt_of_succ_lt_succ hk, rfl, hstop,
            fun j hj => hgo (j + 1) (Nat.succ_lt_succ hj)⟩
    · rw [doWhile, if_neg h, Option.some.injEq]
      constructor
      · rintro rfl
        exact ⟨0, Nat.succ_pos fuel, rfl, Bool.eq_false_iff.mpr h, by simp⟩
      · rintro ⟨k, -, rfl, -, hgo⟩
        cases k with
        | zero => rfl
        | succ k => exact absurd (hgo 0 (Nat.succ_pos k)) h

theorem returns_iff : Returns f again a b ↔
    ∃ k, b = f^[k + 1] a ∧ again (f^[k + 1] a) = false ∧ ∀ j < k, again (f^[j + 1] a) = true := by
  constructor
  · rintro ⟨fuel, h⟩
    obtain ⟨k, -, hk⟩ := doWhile_eq_some.mp h
    exact ⟨k, hk⟩
  · rintro ⟨k, hk⟩
    exact ⟨k + 1, doWhile_eq_some.mpr ⟨k, Nat.lt_succ_self k, hk⟩⟩

/-- The loop comes to an end if it ever comes to a value with which it does not go on. -/
theorem returns_of_stop (h : ∃ k, again (f^[k + 1] a) = false) :
    ∃ k, Returns f again a (f^[k + 1] a) ∧ again (f^[k + 1] a) = false ∧
      ∀ j < k, again (f^[j + 1] a) = true := by
  have hleast : ∀ j < Nat.find h, again (f^[j + 1] a) = true :=
    fun j hj => Bool.not_eq_false _ |>.mp (Nat.find_min h hj)
  exact ⟨Nat.find h, returns_iff.mpr ⟨Nat.find h, rfl, Nat.find_spec h, hleast⟩, Nat.find_spec h,
    hleast⟩

end WhatsappTester.Atomic.Looping
