import WhatsappTester.Atomic.Program

namespace WhatsappTester.Atomic.Embedding

open Program

/-- A part of a larger state, which can be read and replaced. -/
structure Part (τ σ : Type) where
  get : τ → σ
  set : σ → τ → τ
  get_set : ∀ s t, get (set s t) = s
  set_get : ∀ t, set (get t) t = t
  set_set : ∀ s s' t, set s (set s' t) = set s t

variable {σ τ α β : Type} {P : Part τ σ}

def within (P : Part τ σ) : Prog σ α → Prog τ α
  | .ret a => .ret a
  | .stmt act next =>
    .stmt (fun t => P.set (act (P.get t)) t) (fun t => within P (next (P.get t)))

@[simp] theorem run_within (p : Prog σ α) (t : τ) :
    (within P p).run t = ((p.run (P.get t)).1, P.set (p.run (P.get t)).2 t) := by
  induction p generalizing t with
  | ret a => simp [within, Prog.run, P.set_get]
  | stmt act next ih =>
    simp only [within, Prog.run]
    rw [ih, P.get_set, P.set_set]

/-- On its part of the state one program does what another does. -/
def Shadows (P : Part τ σ) (q : Prog τ α) (p : Prog σ α) : Prop :=
  ∀ t, (q.run t).1 = (p.run (P.get t)).1 ∧ P.get (q.run t).2 = (p.run (P.get t)).2

theorem shadows_within (p : Prog σ α) : Shadows P (within P p) p := by
  intro t
  rw [run_within]
  exact ⟨rfl, P.get_set _ _⟩

theorem shadows_bind {q : Prog τ α} {p : Prog σ α} {k : α → Prog τ β} {l : α → Prog σ β}
    (h : Shadows P q p) (hk : ∀ a, Shadows P (k a) (l a)) : Shadows P (q >>= k) (p >>= l) := by
  intro t
  obtain ⟨hresult, hstate⟩ := h t
  simp only [run_bind, hresult, ← hstate]
  exact hk _ _

theorem shadows_pure (a : α) : Shadows P (pure a) (pure a) := fun _ => ⟨rfl, rfl⟩

/-- What happens outside the part is not seen. -/
theorem shadows_after {q : Prog τ Unit} {k : Prog τ Unit} {p : Prog σ Unit} (h : Shadows P q p)
    (hk : Shadows P k (pure ())) : Shadows P (do q; k) p := by
  intro t
  obtain ⟨_, hstate⟩ := h t
  simp only [run_bind, ← hstate]
  exact ⟨trivial, (hk _).2⟩

theorem shadows_each {f : β → Prog τ Unit} {g : β → Prog σ Unit} (h : ∀ b, Shadows P (f b) (g b))
    (bs : List β) : Shadows P (each f bs) (each g bs) := by
  induction bs with
  | nil => exact shadows_pure ()
  | cons b bs ih => exact shadows_bind (h b) (fun _ => ih)

end WhatsappTester.Atomic.Embedding
