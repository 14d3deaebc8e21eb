import Mathlib.Algebra.Order.Archimedean.Basic
import Mathlib.Logic.Function.Iterate
import WhatsappTester.Atomic.Rounding

namespace WhatsappTester.Atomic.Floating

def climb (s : Double) (k : Nat) (d : Double) : Double := (fun x => add x s)^[k] d

/-- Adding the step changes every number from `d` up to the bound. -/
def Moves (s d bound : Double) : Prop :=
  ∀ x, le d x = true → le x bound = true → add x s ≠ x

variable {s d x bound : Double}

theorem climb_succ (s : Double) (k : Nat) (d : Double) :
    climb s (k + 1) d = add (climb s k d) s := Function.iterate_succ_apply' _ k d

theorem climb_add (s : Double) (k : Nat) (d : Double) :
    climb s (k + 1) d = climb s k (add d s) := Function.iterate_succ_apply _ k d

theorem add_number (h : add d s ≠ .nan) : add (add d s) s ≠ .nan := by
  cases s with
  | nan => cases d <;> exact absurd rfl h
  | finite b =>
    cases hsum : add d (.finite b) with
    | nan => exact absurd hsum h
    | infinite t => exact fun h => nomatch h
    | finite a => exact toDouble_ne_nan _
  | infinite t => cases d <;> grind [add]

theorem climb_nan (s : Double) (k : Nat) : climb s k .nan = .nan := by
  induction k with
  | zero => rfl
  | succ k ih =>
    rw [climb_succ, ih]
    cases s <;> rfl

theorem climb_number (h : add d s ≠ .nan) (k : Nat) : climb s (k + 1) d ≠ .nan := by
  induction k with
  | zero => exact h
  | succ k ih =>
    rw [climb_succ] at ih
    rw [climb_succ, climb_succ]
    exact add_number ih

theorem exact_climb (hd : Exact d) (s : Double) (k : Nat) : Exact (climb s k d) := by
  cases k with
  | zero => exact hd
  | succ k =>
    rw [climb_succ]
    exact exact_add _ s

theorem number_of_le (h : le d x = true) : d ≠ .nan ∧ x ≠ .nan := by
  cases d <;> cases x <;> grind [le]

/-- A number that the step does not change is never passed. -/
theorem climb_le (h : add d s ≠ .nan) (hx : add x s = x) (hle : le d x = true) (k : Nat) :
    le (climb s k d) x = true := by
  induction k with
  | zero => exact hle
  | succ k ih =>
    have hsum := climb_number h k
    rw [climb_succ] at hsum ⊢
    have hmono := add_mono ih hsum (by rw [hx]; exact (number_of_le hle).2)
    rwa [hx] at hmono

theorem climb_up (hd : Exact d) (h : add d s ≠ .nan) (hs : le (.finite 0) s = true) (k : Nat) :
    le (climb s k d) (climb s (k + 1) d) = true := by
  have hsum := climb_number h k
  rw [climb_succ] at hsum ⊢
  exact le_add (exact_climb hd s k) hs hsum

theorem climb_down (hd : Exact d) (h : add d s ≠ .nan) (hs : le s (.finite 0) = true) (k : Nat) :
    le (climb s (k + 1) d) (climb s k d) = true := by
  have hsum := climb_number h k
  rw [climb_succ] at hsum ⊢
  exact add_le (exact_climb hd s k) hs hsum

theorem climb_mono (hd : Exact d) (h : add d s ≠ .nan) (hs : le (.finite 0) s = true) {j k : Nat}
    (hjk : j ≤ k) : le (climb s (j + 1) d) (climb s (k + 1) d) = true := by
  induction k, hjk using Nat.le_induction with
  | base => exact le_refl_of (climb_number h j)
  | succ k _ ih => exact le_trans_double ih (climb_up hd h hs (k + 1))

theorem climb_anti (hd : Exact d) (h : add d s ≠ .nan) (hs : le s (.finite 0) = true) {j k : Nat}
    (hjk : j ≤ k) : le (climb s (k + 1) d) (climb s (j + 1) d) = true := by
  induction k, hjk using Nat.le_induction with
  | base => exact le_refl_of (climb_number h j)
  | succ k _ ih => exact le_trans_double (climb_down hd h hs (k + 1)) ih

/-- A step that changes every number up to the bound takes a double nearer to it by at least
the least double. -/
theorem moves_gap {v b : Rat} (hv : Exact (.finite v)) (h : add (.finite v) s ≠ .nan)
    (hs : le (.finite 0) s = true) (hmoves : add (.finite v) s ≠ .finite v) :
    le (add (.finite v) s) (.finite b) = false ∨
      ∃ w, add (.finite v) s = .finite w ∧ v + power (-1074) ≤ w := by
  have hle := le_add hv hs h
  have hexact := exact_add (.finite v) s
  cases hsum : add (.finite v) s with
  | nan => exact absurd hsum h
  | infinite t =>
    rw [hsum] at hle
    cases t with
    | true => cases hle
    | false => exact .inl rfl
  | finite w =>
    rw [hsum] at hle hexact hmoves
    have hlt : v < w := lt_of_le_of_ne (of_decide_eq_true hle) (fun heq => hmoves (heq ▸ rfl))
    exact .inr ⟨w, rfl, exact_gap hv hexact hlt⟩

theorem escapes_finite {v b : Rat} (hv : Exact (.finite v)) (h : add (.finite v) s ≠ .nan)
    (hs : le (.finite 0) s = true) (hmoves : Moves s (.finite v) (.finite b)) (n : Nat)
    (hn : b - v < n * power (-1074)) : ∃ k, le (climb s k (.finite v)) (.finite b) = false := by
  induction n generalizing v with
  | zero => exact ⟨0, decide_eq_false (by simpa using hn)⟩
  | succ n ih =>
    by_cases hvb : v ≤ b
    · obtain hpast | ⟨w, hw, hgap⟩ := moves_gap hv h hs
        (hmoves _ (decide_eq_true (le_refl v)) (decide_eq_true hvb))
      · exact ⟨1, hpast⟩
      · have hexact := exact_add (.finite v) s
        have hnumber := add_number h
        rw [hw] at hexact hnumber
        have hvw : le (.finite v) (.finite w) = true :=
          decide_eq_true ((le_add_of_nonneg_right (power_pos _).le).trans hgap)
        obtain ⟨k, hk⟩ := ih hexact hnumber (fun x hx => hmoves x (le_trans_double hvw hx))
          (by push_cast at hn; linarith)
        refine ⟨k + 1, ?_⟩
        rw [climb_add, hw]
        exact hk
    · exact ⟨0, decide_eq_false hvb⟩

/-- A step upwards passes the bound if and only if it changes every number up to there. -/
theorem escapes_iff {b : Rat} (hd : Exact d) (h : add d s ≠ .nan)
    (hs : le (.finite 0) s = true) :
    (∃ k, le (climb s (k + 1) d) (.finite b) = false) ↔ Moves s d (.finite b) := by
  constructor
  · rintro ⟨k, hk⟩ x hdx hxb hx
    rw [le_trans_double (climb_le h hx hdx (k + 1)) hxb] at hk
    cases hk
  · intro hmoves
    obtain ⟨k, hk⟩ : ∃ k, le (climb s k d) (.finite b) = false := by
      cases d with
      | nan => cases s <;> exact absurd rfl h
      | infinite t =>
        cases t with
        | false => exact ⟨0, rfl⟩
        | true =>
          have hstay : add (.infinite true) s = .infinite true := by
            cases s <;> grind [add, le]
          exact absurd hstay (hmoves _ rfl rfl)
      | finite v =>
        obtain ⟨n, hn⟩ := exists_nat_gt ((b - v) / power (-1074))
        exact escapes_finite hd h hs hmoves n ((div_lt_iff₀ (power_pos _)).mp hn)
    refine ⟨k, Bool.eq_false_iff.mpr (fun hle => ?_)⟩
    rw [le_trans_double (climb_up hd h hs k) hle] at hk
    cases hk

end WhatsappTester.Atomic.Floating
