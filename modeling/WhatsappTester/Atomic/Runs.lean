import Mathlib.Logic.Basic

namespace WhatsappTester.Atomic.Runs

variable {S A : Type}

def play (step : S → A → S) (s : S) (as : List A) : S := as.foldl step s

def Along (ok : S → A → Prop) (step : S → A → S) : S → List A → Prop
  | _, [] => True
  | s, a :: as => ok s a ∧ Along ok step (step s a) as

instance along_decidable (ok : S → A → Prop) (step : S → A → S) [∀ s a, Decidable (ok s a)] :
    (s : S) → (as : List A) → Decidable (Along ok step s as)
  | _, [] => inferInstanceAs (Decidable True)
  | s, a :: as =>
    have := along_decidable ok step (step s a) as
    inferInstanceAs (Decidable (ok s a ∧ Along ok step (step s a) as))

variable {ok : S → A → Prop} {step : S → A → S}

@[simp] theorem play_nil (s : S) : play step s [] = s := rfl

@[simp] theorem play_cons (s : S) (a : A) (as : List A) :
    play step s (a :: as) = play step (step s a) as := rfl

theorem play_append (s : S) (as bs : List A) :
    play step s (as ++ bs) = play step (play step s as) bs := List.foldl_append

theorem along_append (s : S) (as bs : List A) :
    Along ok step s (as ++ bs) ↔ Along ok step s as ∧ Along ok step (play step s as) bs := by
  induction as generalizing s with
  | nil => simp [Along]
  | cons a as ih => simp [Along, ih, and_assoc]

theorem along_mono {ok' : S → A → Prop} (hok : ∀ s a, ok s a → ok' s a) {s : S} {as : List A}
    (h : Along ok step s as) : Along ok' step s as := by
  induction as generalizing s with
  | nil => trivial
  | cons a as ih => exact ⟨hok s a h.1, ih h.2⟩

theorem along_and {ok' : S → A → Prop} {s : S} {as : List A} (h : Along ok step s as)
    (h' : Along ok' step s as) :
    Along (fun s a => ok s a ∧ ok' s a) step s as := by
  induction as generalizing s with
  | nil => trivial
  | cons a as ih => exact ⟨⟨h.1, h'.1⟩, ih h.2 h'.2⟩

theorem along_all {ok : A → Prop} {as : List A} (h : ∀ a ∈ as, ok a) (s : S) :
    Along (fun _ a => ok a) step s as := by
  induction as generalizing s with
  | nil => trivial
  | cons a as ih =>
    exact ⟨h a List.mem_cons_self, ih (fun b hb => h b (List.mem_cons_of_mem a hb)) (step s a)⟩

/-- What every allowed action keeps, every run of allowed actions keeps. -/
theorem play_invariant (I : S → Prop) (hstep : ∀ s a, I s → ok s a → I (step s a)) {s : S}
    {as : List A} (hs : I s) (ha : Along ok step s as) : I (play step s as) := by
  induction as generalizing s with
  | nil => exact hs
  | cons a as ih => exact ih (hstep s a hs ha.1) ha.2

/-- What every allowed action respects while an invariant holds, every run of
allowed actions respects. -/
theorem along_invariant {ok' : S → A → Prop} (I : S → Prop)
    (hstep : ∀ s a, I s → ok s a → ok' s a ∧ I (step s a)) {s : S} {as : List A} (hs : I s)
    (ha : Along ok step s as) : Along ok' step s as := by
  induction as generalizing s with
  | nil => trivial
  | cons a as ih =>
    have h := hstep s a hs ha.1
    exact ⟨h.1, ih h.2 ha.2⟩

/-- What every action respects while an invariant holds, every run respects. -/
theorem along_invariant_all {ok' : S → A → Prop} (I : S → Prop)
    (hstep : ∀ s a, I s → ok' s a ∧ I (step s a)) {s : S} (hs : I s) (as : List A) :
    Along ok' step s as := by
  induction as generalizing s with
  | nil => trivial
  | cons a as ih =>
    have h := hstep s a hs
    exact ⟨h.1, ih h.2⟩

/-- What every action keeps, every run keeps. -/
theorem play_invariant_all (I : S → Prop) (hstep : ∀ s a, I s → I (step s a)) {s : S} (hs : I s)
    (as : List A) : I (play step s as) := by
  induction as generalizing s with
  | nil => exact hs
  | cons a as ih => exact ih (hstep s a hs)

/-- Along a run that keeps an invariant, a preorder that every action respects
relates the two ends. -/
theorem play_relation (I : S → Prop) (T : S → S → Prop) (hrefl : ∀ s, T s s)
    (htrans : ∀ s t u, T s t → T t u → T s u)
    (hstep : ∀ s a, I s → ok s a → I (step s a) ∧ T s (step s a)) {s : S}
    {as : List A} (hs : I s) (ha : Along ok step s as) : T s (play step s as) := by
  induction as generalizing s with
  | nil => exact hrefl s
  | cons a as ih =>
    have h := hstep s a hs ha.1
    exact htrans _ _ _ h.2 (ih h.1 ha.2)

/-- Two properties of the allowed actions that agree while an invariant holds, which the
actions with the second one keep. -/
theorem along_iff {p q : S → A → Prop} (I : S → Prop)
    (h : ∀ s a, I s → ok s a → (p s a ↔ q s a))
    (hI : ∀ s a, I s → ok s a → q s a → I (step s a)) {s : S} {as : List A} (hs : I s)
    (ha : Along ok step s as) : Along p step s as ↔ Along q step s as := by
  induction as generalizing s with
  | nil => exact Iff.rfl
  | cons a as ih =>
    constructor
    · intro hp
      have hq := (h s a hs ha.1).mp hp.1
      exact ⟨hq, (ih (hI s a hs ha.1 hq) ha.2).mp hp.2⟩
    · intro hq
      exact ⟨(h s a hs ha.1).mpr hq.1, (ih (hI s a hs ha.1 hq.1) ha.2).mpr hq.2⟩

def count (p : S → A → Bool) (step : S → A → S) : S → List A → Nat
  | _, [] => 0
  | s, a :: as => (p s a).toNat + count p step (step s a) as

/-- An invariant that speaks of the number of such actions so far. -/
theorem play_counted {p : S → A → Bool} (I : Nat → S → Prop)
    (hstep : ∀ n s a, I n s → ok s a → I (n + (p s a).toNat) (step s a)) {n : Nat}
    {s : S} {as : List A} (hs : I n s) (ha : Along ok step s as) :
    I (n + count p step s as) (play step s as) := by
  induction as generalizing n s with
  | nil => exact hs
  | cons a as ih =>
    rw [count, ← Nat.add_assoc]
    exact ih (hstep n s a hs ha.1) ha.2

end WhatsappTester.Atomic.Runs
