import Mathlib.Data.List.Basic

namespace WhatsappTester.Atomic.Retrying

/-- Which outcomes of an attempt are final, and how many attempts there may be. -/
structure Policy (O : Type) where
  final : O → Bool
  limit : Nat

variable {O : Type} {p : Policy O} {σ : Nat → O} {os : List O}

/-- The number of attempts that the outcomes `σ 1`, `σ 2` and so on call for. -/
def Policy.attempts (p : Policy O) (σ : Nat → O) : Nat :=
  ((List.range' 1 (p.limit - 1)).find? (fun k => p.final (σ k))).getD p.limit

def Policy.Goes (p : Policy O) (os : List O) : Prop :=
  os.length < p.limit ∧ ∀ o ∈ os, p.final o = false

def Policy.Ends (p : Policy O) (os : List O) : Prop :=
  ∃ os' o, os = os' ++ [o] ∧ p.Goes os' ∧ (p.final o = true ∨ os.length = p.limit)

def Follows (σ : Nat → O) (os : List O) : Prop := ∀ k (h : k < os.length), os[k] = σ (k + 1)

instance [DecidableEq O] (σ : Nat → O) (os : List O) : Decidable (Follows σ os) :=
  inferInstanceAs (Decidable (∀ k (h : k < os.length), os[k] = σ (k + 1)))

theorem attempts_le (p : Policy O) (σ : Nat → O) : p.attempts σ ≤ p.limit := by
  unfold Policy.attempts
  cases hfind : (List.range' 1 (p.limit - 1)).find? (fun k => p.final (σ k)) with
  | none => exact Nat.le_refl _
  | some k =>
    obtain ⟨_, hk, _⟩ := List.find?_range'_eq_some.mp hfind
    simp only [List.mem_range'_1] at hk
    simp only [Option.getD_some]
    omega

theorem not_final {k : Nat} (hk : 1 ≤ k) (h : k < p.attempts σ) : p.final (σ k) = false := by
  have hle := attempts_le p σ
  unfold Policy.attempts at h
  cases hfind : (List.range' 1 (p.limit - 1)).find? (fun k => p.final (σ k)) with
  | none =>
    rw [hfind] at h
    have hnone := List.find?_eq_none.mp hfind k (List.mem_range'_1.mpr (by simp at h; omega))
    simpa using hnone
  | some n =>
    rw [hfind] at h
    obtain ⟨_, _, hbefore⟩ := List.find?_range'_eq_some.mp hfind
    simpa using hbefore k hk h

theorem final_attempts (h : p.attempts σ < p.limit) : p.final (σ (p.attempts σ)) = true := by
  unfold Policy.attempts at h ⊢
  cases hfind : (List.range' 1 (p.limit - 1)).find? (fun k => p.final (σ k)) with
  | none => simp [hfind] at h
  | some n => exact (List.find?_range'_eq_some.mp hfind).1

theorem attempts_pos (h : 0 < p.limit) : 1 ≤ p.attempts σ := by
  unfold Policy.attempts
  cases hfind : (List.range' 1 (p.limit - 1)).find? (fun k => p.final (σ k)) with
  | none => exact h
  | some n =>
    obtain ⟨_, hn, _⟩ := List.find?_range'_eq_some.mp hfind
    exact (List.mem_range'_1.mp hn).1

theorem goes_lt (hgoes : p.Goes os) (h : Follows σ os) : os.length < p.attempts σ := by
  obtain ⟨hlimit, hopen⟩ := hgoes
  by_contra hge
  have hpos := attempts_pos (σ := σ) (Nat.lt_of_le_of_lt (Nat.zero_le _) hlimit)
  have hfinal := final_attempts (p := p) (σ := σ) (by omega)
  have hk : p.attempts σ - 1 < os.length := by omega
  have hsame := h (p.attempts σ - 1) hk
  rw [Nat.sub_add_cancel hpos] at hsame
  have hnot := hopen _ (List.getElem_mem hk)
  rw [hsame, hfinal] at hnot
  cases hnot

theorem ends_eq (hends : p.Ends os) (h : Follows σ os) : os.length = p.attempts σ := by
  obtain ⟨os', o, rfl, hgoes, hlast⟩ := hends
  have hbefore : Follows σ os' := by
    intro k hk
    rw [← h k (by simp; omega), List.getElem_append_left hk]
  have hlt := goes_lt hgoes hbefore
  have hle := attempts_le p σ
  have ho : o = σ (os'.length + 1) := by
    rw [← h os'.length (by simp)]
    simp
  rw [List.length_append, List.length_singleton] at hlast ⊢
  obtain hfinal | hlimit := hlast
  · by_contra hne
    have hnot := not_final (p := p) (σ := σ) (k := os'.length + 1) (by omega) (by omega)
    rw [← ho, hfinal] at hnot
    cases hnot
  · omega

/-- What is made of the outcomes and their numbers is made of the sequence. -/
theorem follows_mapIdx {β : Type} (h : Follows σ os) (f : Nat → O → β) :
    os.mapIdx (fun k o => f (k + 1) o) = (List.range' 1 os.length).map (fun k => f k (σ k)) := by
  refine List.ext_getElem (by simp) (fun k hk hk' => ?_)
  rw [List.getElem_mapIdx, List.getElem_map, List.getElem_range', h k, Nat.one_mul,
    Nat.add_comm 1 k]

theorem follows_last (h : Follows σ os) {o : O} (ho : os.getLast? = some o) : o = σ os.length := by
  obtain ⟨os', rfl⟩ := List.getLast?_eq_some_iff.mp ho
  have hlast := h os'.length (by simp)
  rw [List.length_append, List.length_singleton, ← hlast]
  simp

end WhatsappTester.Atomic.Retrying
