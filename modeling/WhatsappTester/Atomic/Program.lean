import Mathlib.Logic.Basic

namespace WhatsappTester.Atomic.Program

/-- A sequential program over a state of type `σ`, cut into statements that
each happen at once. What follows a statement may depend on the state the
statement started in, which is how a statement returns a result. -/
inductive Prog (σ α : Type) : Type where
  | ret (a : α)
  | stmt (act : σ → σ) (next : σ → Prog σ α)

variable {σ α β : Type}

namespace Prog

def bind : Prog σ α → (α → Prog σ β) → Prog σ β
  | .ret a, k => k a
  | .stmt act next, k => .stmt act (fun s => (next s).bind k)

instance : Monad (Prog σ) where
  pure := .ret
  bind := bind

def run : Prog σ α → σ → α × σ
  | .ret a, s => (a, s)
  | .stmt act next, s => (next s).run (act s)

/-- The state in which the program stands after its first `n` statements. -/
def cut : Nat → Prog σ α → σ → σ
  | 0, _, s => s
  | _ + 1, .ret _, s => s
  | n + 1, .stmt act next, s => cut n (next s) (act s)

end Prog

def query (f : σ → α) : Prog σ α := .stmt id (fun s => .ret (f s))

def exec (f : σ → σ) : Prog σ Unit := .stmt f (fun _ => .ret ())

/-- A statement that changes the state and reports on the state it found. -/
def update (f : σ → σ) (report : σ → α) : Prog σ α := .stmt f (fun s => .ret (report s))

def each (f : β → Prog σ Unit) : List β → Prog σ Unit
  | [] => pure ()
  | b :: bs => do
    f b
    each f bs

@[simp] theorem run_pure (a : α) (s : σ) : (pure a : Prog σ α).run s = (a, s) := rfl

@[simp] theorem run_query (f : σ → α) (s : σ) : (query f).run s = (f s, s) := rfl

@[simp] theorem run_exec (f : σ → σ) (s : σ) : (exec f).run s = ((), f s) := rfl

@[simp] theorem run_update (f : σ → σ) (report : σ → α) (s : σ) :
    (update f report).run s = (report s, f s) := rfl

@[simp] theorem run_bind (p : Prog σ α) (k : α → Prog σ β) (s : σ) :
    (p >>= k).run s = (k (p.run s).1).run (p.run s).2 := by
  change (p.bind k).run s = _
  induction p generalizing s with
  | ret a => rfl
  | stmt act next ih => exact ih s (act s)

/-- From state `s` the program meets the postcondition `Q`, where between any
two statements others may take the state along `R`, and where each statement
itself takes it along `G`. -/
def Wp (R G : σ → σ → Prop) : Prog σ α → (α → σ → Prop) → σ → Prop
  | .ret a, Q, s => Q a s
  | .stmt act next, Q, s => ∀ s', R s s' → G s' (act s') ∧ Wp R G (next s') Q (act s')

variable {R G : σ → σ → Prop}

@[simp] theorem wp_pure (a : α) (Q : α → σ → Prop) (s : σ) :
    Wp R G (pure a : Prog σ α) Q s ↔ Q a s := Iff.rfl

@[simp] theorem wp_query (f : σ → α) (Q : α → σ → Prop) (s : σ) :
    Wp R G (query f) Q s ↔ ∀ s', R s s' → G s' s' ∧ Q (f s') s' := Iff.rfl

@[simp] theorem wp_exec (f : σ → σ) (Q : Unit → σ → Prop) (s : σ) :
    Wp R G (exec f) Q s ↔ ∀ s', R s s' → G s' (f s') ∧ Q () (f s') := Iff.rfl

@[simp] theorem wp_update (f : σ → σ) (report : σ → α) (Q : α → σ → Prop) (s : σ) :
    Wp R G (update f report) Q s ↔ ∀ s', R s s' → G s' (f s') ∧ Q (report s') (f s') := Iff.rfl

@[simp] theorem wp_bind (p : Prog σ α) (k : α → Prog σ β) (Q : β → σ → Prop) (s : σ) :
    Wp R G (p >>= k) Q s ↔ Wp R G p (fun a => Wp R G (k a) Q) s := by
  change Wp R G (p.bind k) Q s ↔ _
  induction p generalizing s with
  | ret a => rfl
  | stmt act next ih =>
    constructor
    · intro h s' hs
      exact ⟨(h s' hs).1, (ih s' _).mp (h s' hs).2⟩
    · intro h s' hs
      exact ⟨(h s' hs).1, (ih s' _).mpr (h s' hs).2⟩

theorem wp_mono {p : Prog σ α} {Q Q' : α → σ → Prop} {s : σ} (hQ : ∀ a t, Q a t → Q' a t)
    (h : Wp R G p Q s) : Wp R G p Q' s := by
  induction p generalizing s with
  | ret a => exact hQ a s h
  | stmt act next ih =>
    intro s' hs
    exact ⟨(h s' hs).1, ih s' (h s' hs).2⟩

theorem wp_weaken {G' : σ → σ → Prop} {p : Prog σ α} {Q Q' : α → σ → Prop} {s : σ}
    (hG : ∀ s t, G s t → G' s t) (hQ : ∀ a t, Q a t → Q' a t) (h : Wp R G p Q s) :
    Wp R G' p Q' s := by
  induction p generalizing s with
  | ret a => exact hQ a s h
  | stmt act next ih =>
    intro s' hs
    exact ⟨hG _ _ (h s' hs).1, ih s' (h s' hs).2⟩

theorem wp_and {G' : σ → σ → Prop} {p : Prog σ α} {Q Q' : α → σ → Prop} {s : σ} (h : Wp R G p Q s)
    (h' : Wp R G' p Q' s) : Wp R G p (fun a t => Q a t ∧ Q' a t) s := by
  induction p generalizing s with
  | ret a => exact ⟨h, h'⟩
  | stmt act next ih =>
    intro s' hs
    exact ⟨(h s' hs).1, ih s' (h s' hs).2 (h' s' hs).2⟩

theorem wp_seq {p : Prog σ α} {k : α → Prog σ β} {Q : α → σ → Prop} {Q' : β → σ → Prop} {s : σ}
    (hp : Wp R G p Q s) (hk : ∀ a t, Q a t → Wp R G (k a) Q' t) : Wp R G (p >>= k) Q' s :=
  (wp_bind p k Q' s).mpr (wp_mono hk hp)

theorem wp_each {f : β → Prog σ Unit} {P : σ → Prop} {s : σ} (bs : List β)
    (hf : ∀ b ∈ bs, ∀ s, P s → Wp R G (f b) (fun _ => P) s) (hs : P s) :
    Wp R G (each f bs) (fun _ => P) s := by
  induction bs generalizing s with
  | nil => exact hs
  | cons b bs ih =>
    refine wp_seq (hf b List.mem_cons_self s hs) (fun _ t ht => ?_)
    exact ih (fun c hc => hf c (List.mem_cons_of_mem b hc)) ht

/-- One of the elements turns one assertion into another, and the rest keep both. -/
theorem wp_each_turn {f : β → Prog σ Unit} {P Q : σ → Prop} {s : σ} {before after : List β} {b : β}
    (hbefore : ∀ c ∈ before, ∀ s, P s → Wp R G (f c) (fun _ => P) s)
    (hturn : ∀ s, P s → Wp R G (f b) (fun _ => Q) s)
    (hafter : ∀ c ∈ after, ∀ s, Q s → Wp R G (f c) (fun _ => Q) s) (hs : P s) :
    Wp R G (each f (before ++ b :: after)) (fun _ => Q) s := by
  induction before generalizing s with
  | nil => exact wp_seq (hturn s hs) (fun _ t ht => wp_each after hafter ht)
  | cons c before ih =>
    obtain ⟨hc, hrest⟩ := List.forall_mem_cons.mp hbefore
    exact wp_seq (hc s hs) (fun _ t ht => ih hrest ht)

/-- A step by others ahead of the program does no harm, as long as they could
have made it at the program's next statement as well. -/
theorem wp_rely {p : Prog σ α} {Q : α → σ → Prop} {s s' : σ} (hR : ∀ t, R s' t → R s t)
    (hQ : ∀ a, Q a s → Q a s') (h : Wp R G p Q s) : Wp R G p Q s' := by
  cases p with
  | ret a => exact hQ a h
  | stmt act next => exact fun t ht => h t (hR t ht)

/-- Uninterrupted, a program that meets its precondition meets its postcondition. -/
theorem wp_run {p : Prog σ α} {Q : α → σ → Prop} {s : σ} (h : Wp Eq G p Q s) :
    Q (p.run s).1 (p.run s).2 := by
  induction p generalizing s with
  | ret a => exact h
  | stmt act next ih => exact ih s (h s rfl).2

/-- What every statement of an uninterrupted program establishes holds at
every point where the program may be cut off. -/
theorem wp_cut {I : σ → Prop} {p : Prog σ α} {Q : α → σ → Prop} {s : σ} (hs : I s)
    (h : Wp Eq (fun _ t => I t) p Q s) (n : Nat) : I (p.cut n s) := by
  induction p generalizing s n with
  | ret a => cases n <;> exact hs
  | stmt act next ih =>
    cases n with
    | zero => exact hs
    | succ n => exact ih s (h s rfl).1 (h s rfl).2 n

/-- Every statement the program can come to takes every state along `T`. -/
def Always (T : σ → σ → Prop) : Prog σ α → Prop
  | .ret _ => True
  | .stmt act next => ∀ s, T s (act s) ∧ Always T (next s)

variable {T : σ → σ → Prop}

@[simp] theorem always_pure (a : α) : Always T (pure a : Prog σ α) := trivial

theorem always_query (f : σ → α) (h : ∀ s, T s s) : Always T (query f) := fun s => ⟨h s, trivial⟩

theorem always_exec {f : σ → σ} (h : ∀ s, T s (f s)) : Always T (exec f) := fun s => ⟨h s, trivial⟩

theorem always_update {f : σ → σ} (report : σ → α) (h : ∀ s, T s (f s)) :
    Always T (update f report) := fun s => ⟨h s, trivial⟩

theorem always_bind {p : Prog σ α} {k : α → Prog σ β} (hp : Always T p)
    (hk : ∀ a, Always T (k a)) : Always T (p >>= k) := by
  change Always T (p.bind k)
  induction p with
  | ret a => exact hk a
  | stmt act next ih => exact fun s => ⟨(hp s).1, ih s (hp s).2⟩

theorem always_each {f : β → Prog σ Unit} (hf : ∀ b, Always T (f b)) (bs : List β) :
    Always T (each f bs) := by
  induction bs with
  | nil => exact always_pure ()
  | cons b bs ih => exact always_bind (hf b) (fun _ => ih)

theorem always_mono {T' : σ → σ → Prop} {p : Prog σ α} (hT : ∀ s t, T s t → T' s t)
    (h : Always T p) : Always T' p := by
  induction p with
  | ret a => trivial
  | stmt act next ih => exact fun s => ⟨hT s _ (h s).1, ih s (h s).2⟩

theorem always_and {T' : σ → σ → Prop} {p : Prog σ α} (h : Always T p) (h' : Always T' p) :
    Always (fun s t => T s t ∧ T' s t) p := by
  induction p with
  | ret a => trivial
  | stmt act next ih => exact fun s => ⟨⟨(h s).1, (h' s).1⟩, ih s (h s).2 (h' s).2⟩

theorem always_forall {ι : Type} {T : ι → σ → σ → Prop} {p : Prog σ α}
    (h : ∀ i, Always (T i) p) : Always (fun s t => ∀ i, T i s t) p := by
  induction p with
  | ret a => trivial
  | stmt act next ih => exact fun s => ⟨fun i => (h i s).1, ih s (fun i => (h i s).2)⟩

/-- At most one of the statements that the program comes to breaks `T`, and that one keeps `U`. -/
def Once (T U : σ → σ → Prop) : Prog σ α → Prop
  | .ret _ => True
  | .stmt act next => ∀ s, T s (act s) ∧ Once T U (next s) ∨ U s (act s) ∧ Always T (next s)

theorem once_always {U : σ → σ → Prop} {p : Prog σ α} (h : Always T p) : Once T U p := by
  induction p with
  | ret a => trivial
  | stmt act next ih => exact fun s => Or.inl ⟨(h s).1, ih s (h s).2⟩

theorem once_exec {U : σ → σ → Prop} {f : σ → σ} (h : ∀ s, U s (f s)) : Once T U (exec f) :=
  fun s => Or.inr ⟨h s, trivial⟩

theorem once_update {U : σ → σ → Prop} {f : σ → σ} (report : σ → α) (h : ∀ s, U s (f s)) :
    Once T U (update f report) := fun s => Or.inr ⟨h s, trivial⟩

theorem once_before {U : σ → σ → Prop} {p : Prog σ α} {k : α → Prog σ β} (hp : Always T p)
    (hk : ∀ a, Once T U (k a)) : Once T U (p >>= k) := by
  change Once T U (p.bind k)
  induction p with
  | ret a => exact hk a
  | stmt act next ih => exact fun s => Or.inl ⟨(hp s).1, ih s (hp s).2⟩

theorem once_after {U : σ → σ → Prop} {p : Prog σ α} {k : α → Prog σ β} (hp : Once T U p)
    (hk : ∀ a, Always T (k a)) : Once T U (p >>= k) := by
  change Once T U (p.bind k)
  induction p with
  | ret a => exact once_always (hk a)
  | stmt act next ih =>
    intro s
    obtain ⟨hT, hrest⟩ | ⟨hU, hrest⟩ := hp s
    · exact Or.inl ⟨hT, ih s hrest⟩
    · exact Or.inr ⟨hU, always_bind hrest hk⟩

/-- The program keeps to `T` up to a statement that makes `B` true of itself, after which `Z` holds
of what is left, or to an end with `Q`; between any two statements others may take the state
along `R`. -/
def Until (R T : σ → σ → Prop) (B : (σ → σ) → σ → Prop) (Z : Prog σ α → Prop) (Q : α → Prop) :
    Prog σ α → σ → Prop
  | .ret a, _ => Q a
  | .stmt act next, s =>
    ∀ s', R s s' → T s' (act s') ∧ Until R T B Z Q (next s') (act s') ∨ B act s' ∧ Z (next s')

section Until

variable {B : (σ → σ) → σ → Prop} {Z : Prog σ α → Prop} {Z' : Prog σ β → Prop} {Q : α → Prop}
    {Q' : β → Prop}
  {s s' : σ}

theorem until_always {p : Prog σ α} (h : Always T p) (hQ : ∀ a, Q a) : Until R T B Z Q p s := by
  induction p generalizing s with
  | ret a => exact hQ a
  | stmt act next ih => exact fun s' _ => Or.inl ⟨(h s').1, ih s' (h s').2⟩

theorem until_seq {P : α → σ → Prop} {p : Prog σ α} {k : α → Prog σ β} (hp : Wp R T p P s)
    (hk : ∀ a t, P a t → Until R T B Z' Q' (k a) t) : Until R T B Z' Q' (p >>= k) s := by
  change Until R T B Z' Q' (p.bind k) s
  induction p generalizing s with
  | ret a => exact hk a s hp
  | stmt act next ih => exact fun s' hs => Or.inl ⟨(hp s' hs).1, ih s' (hp s' hs).2⟩

theorem until_bind {p : Prog σ α} {k : α → Prog σ β} (hp : Until R T B Z Q p s)
    (hZ : ∀ q : Prog σ α, Z q → Z' (q >>= k)) (hk : ∀ a, Q a → ∀ t, Until R T B Z' Q' (k a) t) :
    Until R T B Z' Q' (p >>= k) s := by
  change Until R T B Z' Q' (p.bind k) s
  induction p generalizing s with
  | ret a => exact hk a hp s
  | stmt act next ih =>
    intro s' hs
    obtain ⟨hT, hrest⟩ | ⟨hB, hrest⟩ := hp s' hs
    · exact Or.inl ⟨hT, ih s' hrest⟩
    · exact Or.inr ⟨hB, hZ _ hrest⟩

theorem until_rely {p : Prog σ α} (hR : ∀ t, R s' t → R s t) (h : Until R T B Z Q p s) :
    Until R T B Z Q p s' := by
  cases p with
  | ret a => exact h
  | stmt act next => exact fun t ht => h t (hR t ht)

end Until

/-- An assertion that the program may carry through: whatever others do, it
comes to each statement with `M`, and each of its statements restores `P`. -/
theorem wp_always {p : Prog σ α} {P M : σ → Prop} {s : σ} (h : Always T p)
    (hR : ∀ s t, P s → R s t → M t) (hT : ∀ s t, M s → T s t → G s t ∧ P t) (hs : P s) :
    Wp R G p (fun _ => P) s := by
  induction p generalizing s with
  | ret a => exact hs
  | stmt act next ih =>
    intro s' hs'
    have hact := hT s' (act s') (hR s s' hs hs') (h s').1
    exact ⟨hact.1, ih s' (h s').2 hact.2⟩

theorem wp_alone {p : Prog σ α} {P : σ → Prop} {s : σ} (h : Always T p)
    (hT : ∀ s t, P s → T s t → G s t ∧ P t) (hs : P s) : Wp Eq G p (fun _ => P) s :=
  wp_always h (fun _ _ hs hst => hst ▸ hs) hT hs

/-- Uninterrupted, with nothing asked of the single statements. -/
abbrev Ends (p : Prog σ α) (Q : α → σ → Prop) (s : σ) : Prop := Wp Eq (fun _ _ => True) p Q s

theorem ends_iff {p : Prog σ α} {Q : α → σ → Prop} {s : σ} :
    Ends p Q s ↔ Q (p.run s).1 (p.run s).2 := by
  refine ⟨wp_run, fun h => ?_⟩
  induction p generalizing s with
  | ret a => exact h
  | stmt act next ih =>
    rintro _ rfl
    exact ⟨trivial, ih s h⟩

theorem ends_always {P : σ → Prop} {p : Prog σ α} {s : σ} (hT : ∀ s t, P s → T s t → P t)
    (h : Always T p) (hs : P s) : Ends p (fun _ => P) s :=
  wp_alone h (fun s t hs hst => ⟨trivial, hT s t hs hst⟩) hs

/-- A preorder that all statements respect relates the ends of the whole program. -/
theorem always_run {p : Prog σ α} (hrefl : ∀ s, T s s)
    (htrans : ∀ s t u, T s t → T t u → T s u) (h : Always T p) (s : σ) : T s (p.run s).2 := by
  induction p generalizing s with
  | ret a => exact hrefl s
  | stmt act next ih => exact htrans s (act s) _ (h s).1 (ih s (h s).2 (act s))

theorem always_cut {p : Prog σ α} (hrefl : ∀ s, T s s)
    (htrans : ∀ s t u, T s t → T t u → T s u) (h : Always T p) (s : σ) (n : Nat) :
    T s (p.cut n s) := by
  induction p generalizing s n with
  | ret a => cases n <;> exact hrefl s
  | stmt act next ih =>
    cases n with
    | zero => exact hrefl s
    | succ n => exact htrans s (act s) _ (h s).1 (ih s (h s).2 (act s) n)

/-- The same for the point where a program is cut off and its end. -/
theorem always_rest {p : Prog σ α} (hrefl : ∀ s, T s s)
    (htrans : ∀ s t u, T s t → T t u → T s u) (h : Always T p) (s : σ) (n : Nat) :
    T (p.cut n s) (p.run s).2 := by
  induction p generalizing s n with
  | ret a => cases n <;> exact hrefl s
  | stmt act next ih =>
    cases n with
    | zero => exact always_run hrefl htrans h s
    | succ n => exact ih s (h s).2 (act s) n

end WhatsappTester.Atomic.Program
