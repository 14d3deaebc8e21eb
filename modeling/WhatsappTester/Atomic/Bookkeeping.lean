import Mathlib.Data.List.Infix
import Mathlib.Logic.Basic

namespace WhatsappTester.Atomic.Bookkeeping

/-! Rows that are changed first and written up in a log afterwards. -/

variable {ε κ ν : Type} [DecidableEq κ] {key : ε → κ} {tell : ε → Option ν → Option ν}

def recount (key : ε → κ) (tell : ε → Option ν → Option ν) (log : List ε) (k : κ) : Option ν :=
  (log.filter (fun e => decide (key e = k))).foldl (fun row e => tell e row) none

/-- The log tells of every row but for at most `n`. -/
def Lag (key : ε → κ) (tell : ε → Option ν → Option ν) (n : Nat) (log : List ε)
    (rows : κ → Option ν) : Prop :=
  ∃ behind : List κ, behind.length ≤ n ∧ ∀ k, k ∉ behind → recount key tell log k = rows k

variable {n m : Nat} {log : List ε} {rows rows' : κ → Option ν} {e : ε} {k : κ}

theorem recount_same (log : List ε) (e : ε) :
    recount key tell (log ++ [e]) (key e) = tell e (recount key tell log (key e)) := by
  simp [recount]

theorem recount_other (h : k ≠ key e) :
    recount key tell (log ++ [e]) k = recount key tell log k := by
  simp [recount, h.symm]

theorem lag_mono (hnm : n ≤ m) (h : Lag key tell n log rows) : Lag key tell m log rows := by
  obtain ⟨behind, hlength, htold⟩ := h
  exact ⟨behind, le_trans hlength hnm, htold⟩

theorem lag_changed (h : Lag key tell n log rows) (hothers : ∀ k', k' ≠ k → rows' k' = rows k') :
    Lag key tell (n + 1) log rows' := by
  obtain ⟨behind, hlength, htold⟩ := h
  refine ⟨k :: behind, Nat.succ_le_succ hlength, fun k' hk' => ?_⟩
  rw [List.mem_cons, not_or] at hk'
  rw [hothers k' hk'.1]
  exact htold k' hk'.2

theorem lag_entered (h : Lag key tell n log rows)
    (hothers : ∀ k, k ≠ key e → rows' k = rows k) (hone : rows' (key e) = tell e (rows (key e))) :
    Lag key tell n (log ++ [e]) rows' := by
  obtain ⟨behind, hlength, htold⟩ := h
  refine ⟨behind, hlength, fun k hk => ?_⟩
  by_cases heq : k = key e
  · subst heq
    rw [recount_same, htold _ hk, hone]
  · rw [recount_other heq, htold k hk, hothers k heq]

theorem lag_empty (key : ε → κ) (tell : ε → Option ν → Option ν) :
    Lag key tell 0 [] (fun _ => none) := ⟨[], le_refl _, fun _ _ => rfl⟩

end WhatsappTester.Atomic.Bookkeeping
