import Mathlib.Data.List.Induction
import WhatsappTester.Atomic.Runs

namespace WhatsappTester.Atomic.History

open Runs

variable {S A : Type} {step : S → A → S} {s : S} {as : List A}

/-- After the first part of a run came an action of some kind. -/
def At (p : S → A → Prop) (step : S → A → S) (s : S) (as before : List A) (a : A) : Prop :=
  (∃ after, as = before ++ a :: after) ∧ p (play step s before) a

theorem at_append {p : S → A → Prop} {before : List A} {a : A} (h : At p step s as before a)
    (bs : List A) : At p step s (as ++ bs) before a := by
  obtain ⟨⟨after, has⟩, hp⟩ := h
  refine ⟨⟨after ++ bs, ?_⟩, hp⟩
  rw [has, List.append_assoc]
  rfl

theorem at_last {p : S → A → Prop} {a : A} (h : p (play step s as) a) :
    At p step s (as ++ [a]) as a := ⟨⟨[], rfl⟩, h⟩

/-- What every action keeps that may speak of all the actions before it. -/
theorem play_history (I : List A → S → Prop) (hs : I [] s)
    (hstep : ∀ as a, I as (play step s as) → I (as ++ [a]) (step (play step s as) a))
    (as : List A) : I as (play step s as) := by
  induction as using List.reverseRecOn with
  | nil => exact hs
  | append_singleton as a ih =>
    rw [play_append]
    exact hstep as a ih

/-- A count that never goes down is higher after an action that raises it. -/
theorem count_lt (n : S → Nat) (hmono : ∀ s a, n s ≤ n (step s a)) {p : S → A → Prop}
    (hraise : ∀ s a, p s a → n s < n (step s a)) {before before' : List A} {a a' : A}
    (h : At p step s as before a) (h' : At p step s as before' a')
    (hlt : before.length < before'.length) : n (play step s before) < n (play step s before') := by
  obtain ⟨⟨after, has⟩, hp⟩ := h
  obtain ⟨⟨after', has'⟩, -⟩ := h'
  have hfirst : before ++ [a] <+: as := ⟨after, by rw [has, List.append_assoc]; rfl⟩
  have hprefix : before ++ [a] <+: before' := by
    apply List.prefix_of_prefix_length_le hfirst ⟨a' :: after', has'.symm⟩
    rw [List.length_append]
    exact hlt
  obtain ⟨mid, rfl⟩ := hprefix
  rw [play_append, play_append]
  refine Nat.lt_of_lt_of_le (hraise _ a hp) ?_
  exact play_invariant_all (fun t => n (play step (play step s before) [a]) ≤ n t)
    (fun t b ht => Nat.le_trans ht (hmono t b)) (Nat.le_refl _) mid

/-- Two such actions that find the same count are one. -/
theorem count_inj (n : S → Nat) (hmono : ∀ s a, n s ≤ n (step s a)) {p : S → A → Prop}
    (hraise : ∀ s a, p s a → n s < n (step s a)) {before before' : List A} {a a' : A}
    (h : At p step s as before a) (h' : At p step s as before' a')
    (heq : n (play step s before) = n (play step s before')) : before = before' := by
  have hlength : before.length = before'.length := by
    obtain hlt | heq' | hgt := Nat.lt_trichotomy before.length before'.length
    · exact absurd heq (Nat.ne_of_lt (count_lt n hmono hraise h h' hlt))
    · exact heq'
    · exact absurd heq (Nat.ne_of_gt (count_lt n hmono hraise h' h hgt))
  obtain ⟨⟨after, has⟩, -⟩ := h
  obtain ⟨⟨after', has'⟩, -⟩ := h'
  exact (List.append_inj (has.symm.trans has') hlength).1

section Holding

variable {E : Type} {brings takes : S → A → E → Prop}

/-- No action of the list takes it away. -/
def Spares (takes : S → A → E → Prop) (step : S → A → S) (s : S) (as : List A) (e : E) : Prop :=
  Along (fun s a => ¬ takes s a e) step s as

/-- Some action has brought it, and none has taken it away since. -/
def Brought (brings takes : S → A → E → Prop) (step : S → A → S) (s : S) (as : List A) (e : E) :
    Prop :=
  ∃ before a after, as = before ++ a :: after ∧ brings (play step s before) a e ∧
    Spares takes step (step (play step s before) a) after e

theorem brought_append (as : List A) (b : A) (e : E) :
    Brought brings takes step s (as ++ [b]) e ↔
      brings (play step s as) b e ∨
        (Brought brings takes step s as e ∧ ¬ takes (play step s as) b e) := by
  constructor
  · rintro ⟨before, a, after, has, hbrings, hspares⟩
    obtain rfl | ⟨after, c, rfl⟩ := List.eq_nil_or_concat after
    · obtain ⟨rfl, ⟨⟩⟩ := List.append_inj' has rfl
      exact .inl hbrings
    · rw [List.concat_eq_append, ← List.cons_append, ← List.append_assoc] at has
      obtain ⟨rfl, ⟨⟩⟩ := List.append_inj' has rfl
      rw [List.concat_eq_append] at hspares
      obtain ⟨hbefore, hlast, -⟩ := (along_append _ after [b]).mp hspares
      rw [play_append]
      exact .inr ⟨⟨before, a, after, rfl, hbrings, hbefore⟩, hlast⟩
  · rintro (hbrings | ⟨⟨before, a, after, rfl, hbrings, hspares⟩, hkept⟩)
    · exact ⟨as, b, [], rfl, hbrings, trivial⟩
    · refine ⟨before, a, after ++ [b], by simp, hbrings, ?_⟩
      rw [play_append] at hkept
      exact (along_append _ after [b]).mpr ⟨hspares, hkept, trivial⟩

/-- If each action brings and takes, one holds what was brought and has not been taken since. -/
theorem holds_iff (holds : S → E → Prop) (I : S → Prop) (hI : ∀ s a, I s → I (step s a)) (hs : I s)
    (hstep : ∀ s a e, I s →
      (holds (step s a) e ↔ brings s a e ∨ (holds s e ∧ ¬ takes s a e)))
    (hstart : ∀ e, ¬ holds s e) (as : List A) (e : E) :
    holds (play step s as) e ↔ Brought brings takes step s as e := by
  induction as using List.reverseRecOn with
  | nil =>
    refine iff_of_false (hstart e) (fun hbrought => ?_)
    obtain ⟨before, a, after, has, -⟩ := hbrought
    simp at has
  | append_singleton as b ih =>
    rw [brought_append, ← ih, play_append]
    exact hstep _ b e (play_invariant_all I hI hs as)

end Holding

end WhatsappTester.Atomic.History
