import Mathlib.Algebra.Order.Group.Defs
import Mathlib.Data.List.Count
import Mathlib.Data.List.Forall2

namespace WhatsappTester.Atomic.Window

variable {τ : Type} [LinearOrder τ]

/-- Each of the times has an entry of its own in a log, which was made at that time or later. -/
def Logged (times log : List τ) : Prop :=
  ∃ entries, entries.Sublist log ∧ List.Forall₂ (· ≤ ·) times entries

variable {times log : List τ} {time entry : τ}

theorem logged_nil (log : List τ) : Logged [] log := ⟨[], List.nil_sublist log, .nil⟩

theorem logged_append (h : Logged times log) (more : List τ) : Logged times (log ++ more) := by
  obtain ⟨entries, hsub, hle⟩ := h
  exact ⟨entries, hsub.trans (List.sublist_append_left log more), hle⟩

theorem logged_concat (h : Logged times log) (hentry : time ≤ entry) :
    Logged (times ++ [time]) (log ++ [entry]) := by
  obtain ⟨entries, hsub, hle⟩ := h
  exact ⟨entries ++ [entry], hsub.append (List.Sublist.refl _),
    List.rel_append hle (.cons hentry .nil)⟩

/-- From any time on, the log has at least as many entries as there are times. -/
theorem count_le_count (h : Logged times log) (a : τ) :
    times.countP (fun t => decide (a ≤ t)) ≤ log.countP (fun t => decide (a ≤ t)) := by
  obtain ⟨entries, hsub, hle⟩ := h
  refine le_trans ?_ (hsub.countP_le)
  clear hsub
  induction hle with
  | nil => exact le_refl _
  | @cons t e times entries hte _ ih =>
    rw [List.countP_cons, List.countP_cons]
    by_cases ht : a ≤ t
    · simp only [ht, le_trans ht hte, decide_true, ↓reduceIte]
      exact Nat.add_le_add_right ih 1
    · simp only [ht, decide_false, Bool.false_eq_true, ↓reduceIte]
      exact le_trans ih (Nat.le_add_right _ _)

variable [AddCommGroup τ] {width now : τ} {limit : Nat}

/-- No window of length `width` holds more than `limit` of the times. -/
def Limited (width : τ) (limit : Nat) (times : List τ) : Prop :=
  ∀ a, times.countP (fun t => decide (a ≤ t ∧ t < a + width)) ≤ limit

theorem limited_nil (width : τ) (limit : Nat) : Limited width limit [] := fun _ => Nat.zero_le _

/-- A time may be added when the log has room in the window that ends just now. -/
theorem limited_concat [IsOrderedAddMonoid τ] (hlogged : Logged times log)
    (h : Limited width limit times) (hroom : log.countP (fun t => decide (now - width < t)) < limit)
    (htime : now ≤ time) :
    Limited width limit (times ++ [time]) := by
  intro a
  rw [List.countP_append, List.countP_singleton]
  by_cases hin : a ≤ time ∧ time < a + width
  · -- The times in the window of the new one have entries in the window that ends now.
    have hafter : now - width < a := sub_lt_iff_lt_add.mpr (lt_of_le_of_lt htime hin.2)
    have hold : times.countP (fun t => decide (a ≤ t ∧ t < a + width)) ≤
        times.countP (fun t => decide (a ≤ t)) :=
      List.countP_mono_left (fun t _ ht => decide_eq_true (of_decide_eq_true ht).1)
    have hentries : log.countP (fun t => decide (a ≤ t)) ≤
        log.countP (fun t => decide (now - width < t)) :=
      List.countP_mono_left (fun t _ ht =>
        decide_eq_true (lt_of_lt_of_le hafter (of_decide_eq_true ht)))
    rw [decide_eq_true hin]
    exact Nat.succ_le_of_lt (lt_of_le_of_lt (le_trans hold (le_trans (count_le_count hlogged a)
      hentries)) hroom)
  · rw [decide_eq_false hin]
    exact h a

end WhatsappTester.Atomic.Window
