import Mathlib.Logic.Function.Basic
import WhatsappTester.Atomic.Program

namespace WhatsappTester.Atomic.Interleaving

open Program

/-- What one process sees: the state all processes share and its own memory. -/
structure View (Sh Mem : Type) where
  shared : Sh
  mem : Mem

structure Process (Sh Mem : Type) where
  mem : Mem
  code : Prog (View Sh Mem) Unit

structure Cluster (ω Sh Mem : Type) where
  shared : Sh
  process : ω → Process Sh Mem

variable {ω Sh Mem Γ : Type}

namespace Cluster

def view (C : Cluster ω Sh Mem) (w : ω) : View Sh Mem := ⟨C.shared, (C.process w).mem⟩

end Cluster

/-- The programs a process may be set to run, what the passing of time and the
death of a process leave in the shared state, and the memory it restarts with. -/
structure Rules (ω Sh Mem Γ : Type) where
  code : Γ → Prog (View Sh Mem) Unit
  wait : Nat → Sh → Sh
  die : ω → Sh → Sh
  reset : ω → Mem → Mem

inductive Action (ω Γ : Type)
  | start (w : ω) (c : Γ)
  | exec (w : ω)
  | kill (w : ω)
  | wait (ms : Nat)

namespace Rules

variable [DecidableEq ω] (rules : Rules ω Sh Mem Γ)

def start (C : Cluster ω Sh Mem) (w : ω) (c : Γ) : Cluster ω Sh Mem :=
  match (C.process w).code with
  | .ret _ => { C with process := Function.update C.process w ⟨(C.process w).mem, rules.code c⟩ }
  | .stmt _ _ => C

def exec (C : Cluster ω Sh Mem) (w : ω) : Cluster ω Sh Mem :=
  match (C.process w).code with
  | .ret _ => C
  | .stmt act next =>
    let v := act (C.view w)
    ⟨v.shared, Function.update C.process w ⟨v.mem, next (C.view w)⟩⟩

def kill (C : Cluster ω Sh Mem) (w : ω) : Cluster ω Sh Mem :=
  ⟨rules.die w C.shared, Function.update C.process w ⟨rules.reset w (C.process w).mem, .ret ()⟩⟩

def step (C : Cluster ω Sh Mem) : Action ω Γ → Cluster ω Sh Mem
  | .start w c => rules.start C w c
  | .exec w => exec C w
  | .kill w => rules.kill C w
  | .wait ms => { C with shared := rules.wait ms C.shared }

end Rules

/-- A contract between the processes: an invariant of the shared state, what
each statement of a process does to it, what a process counts on the others to
leave alone, and how things stand for a process between two programs. -/
structure Contract (ω Sh Mem : Type) where
  inv : Sh → Prop
  guar : ω → Sh → Sh → Prop
  rely : ω → Sh → Sh → Prop
  idle : ω → View Sh Mem → Prop
  rely_refl : ∀ w s, rely w s s
  rely_trans : ∀ w s t u, rely w s t → rely w t u → rely w s u
  idle_stable : ∀ w s t m, idle w ⟨s, m⟩ → rely w s t → idle w ⟨t, m⟩

namespace Contract

variable (K : Contract ω Sh Mem)

/-- What may have happened to a process's view before its next statement. -/
def Others (w : ω) (v v' : View Sh Mem) : Prop :=
  v'.mem = v.mem ∧ K.rely w v.shared v'.shared ∧ K.inv v'.shared

def Own (w : ω) (v v' : View Sh Mem) : Prop := K.guar w v.shared v'.shared

/-- Started between two programs, the program honours the contract and comes
to rest between two programs again. -/
def Meets (w : ω) (p : Prog (View Sh Mem) Unit) : Prop :=
  ∀ v, K.idle w v → Wp (K.Others w) (K.Own w) p (fun _ => K.idle w) v

/-- The contract is being honoured: the invariant holds, and what is left of
every process's program meets the contract. -/
structure Honoured (C : Cluster ω Sh Mem) : Prop where
  inv : K.inv C.shared
  rest : ∀ w, Wp (K.Others w) (K.Own w) (C.process w).code (fun _ => K.idle w) (C.view w)

variable {K} {C : Cluster ω Sh Mem} {w : ω}

theorem rely_rest {p : Prog (View Sh Mem) Unit} {s t : Sh} {m : Mem} (h : K.rely w s t)
    (hp : Wp (K.Others w) (K.Own w) p (fun _ => K.idle w) ⟨s, m⟩) :
    Wp (K.Others w) (K.Own w) p (fun _ => K.idle w) ⟨t, m⟩ := by
  refine wp_rely ?_ (fun _ hidle => K.idle_stable w s t m hidle h) hp
  intro v hv
  exact ⟨hv.1, K.rely_trans w s t v.shared h hv.2.1, hv.2.2⟩

/-- An assertion that is safe from the others and that every statement keeps. -/
theorem wp_kept {α : Type} {p : Prog (View Sh Mem) α} {A : View Sh Mem → Prop}
    {T : View Sh Mem → View Sh Mem → Prop} {v : View Sh Mem} (hp : Always T p)
    (hothers : ∀ v v', A v → K.Others w v v' → A v')
    (hT : ∀ v v', A v → K.inv v.shared → T v v' → K.Own w v v' ∧ A v') (h : A v) :
    Wp (K.Others w) (K.Own w) p (fun _ => A) v := by
  refine wp_always (M := fun v => A v ∧ K.inv v.shared) hp ?_ ?_ h
  · exact fun v v' hv ho => ⟨hothers v v' hv ho, ho.2.2⟩
  · exact fun v v' hv => hT v v' hv.1 hv.2

variable {rules : Rules ω Sh Mem Γ}

theorem honoured_wait (h : K.Honoured C) (ms : Nat) (hinv : K.inv (rules.wait ms C.shared))
    (hrely : ∀ u, K.rely u C.shared (rules.wait ms C.shared)) :
    K.Honoured { C with shared := rules.wait ms C.shared } :=
  ⟨hinv, fun u => rely_rest (hrely u) (h.rest u)⟩

/-- A process that nobody interrupts keeps whatever its statements keep, to its
end and at every point where it may be cut off. -/
theorem alone {α : Type} {p : Prog (View Sh Mem) α} {Q : α → View Sh Mem → Prop} {I : Sh → Prop}
    {v : View Sh Mem} (hI : ∀ s t, K.inv s → I s → K.guar w s t → K.inv t ∧ I t)
    (hv : K.inv v.shared ∧ I v.shared) (h : Wp (K.Others w) (K.Own w) p Q v) :
    Wp Eq (fun _ t => K.inv t.shared ∧ I t.shared)
      p (fun a t => Q a t ∧ K.inv t.shared ∧ I t.shared) v := by
  induction p generalizing v with
  | ret a => exact ⟨h, hv⟩
  | stmt act next ih =>
    rintro v' rfl
    have hnext := h v ⟨rfl, K.rely_refl w _, hv.1⟩
    have hinv := hI _ _ hv.1 hv.2 hnext.1
    exact ⟨hinv, ih v hinv hnext.2⟩

variable [DecidableEq ω]

theorem honoured_start {c : Γ} (hc : K.Meets w (rules.code c)) (h : K.Honoured C) :
    K.Honoured (rules.start C w c) := by
  unfold Rules.start
  cases hcode : (C.process w).code with
  | stmt act next => exact h
  | ret a =>
    refine ⟨h.inv, ?_⟩
    intro u
    rcases eq_or_ne u w with rfl | hu
    · have hidle := h.rest u
      rw [hcode] at hidle
      simpa [Cluster.view] using hc (C.view u) hidle
    · simpa [Cluster.view, Function.update_of_ne hu] using h.rest u

/-- A step that respects what the others rely on, in an honoured contract. -/
theorem honoured_update {s : Sh} {p : Process Sh Mem} (h : K.Honoured C) (hinv : K.inv s)
    (hrely : ∀ u, u ≠ w → K.rely u C.shared s)
    (hp : Wp (K.Others w) (K.Own w) p.code (fun _ => K.idle w) ⟨s, p.mem⟩) :
    K.Honoured ⟨s, Function.update C.process w p⟩ := by
  refine ⟨hinv, ?_⟩
  intro u
  rcases eq_or_ne u w with rfl | hu
  · simpa [Cluster.view] using hp
  · simpa [Cluster.view, Function.update_of_ne hu] using rely_rest (hrely u hu) (h.rest u)

theorem exec_guar (h : K.Honoured C) (w : ω) :
    Rules.exec C w = C ∨ K.guar w C.shared (Rules.exec C w).shared := by
  unfold Rules.exec
  cases hcode : (C.process w).code with
  | ret a => exact Or.inl rfl
  | stmt act next =>
    have hrest := h.rest w
    rw [hcode] at hrest
    exact Or.inr (hrest (C.view w) ⟨rfl, K.rely_refl w _, h.inv⟩).1

theorem honoured_exec (h : K.Honoured C) (w : ω)
    (hguar : K.guar w C.shared (Rules.exec C w).shared →
      K.inv (Rules.exec C w).shared ∧ ∀ u, u ≠ w → K.rely u C.shared (Rules.exec C w).shared) :
    K.Honoured (Rules.exec C w) := by
  unfold Rules.exec at *
  cases hcode : (C.process w).code with
  | ret a => exact h
  | stmt act next =>
    have hrest := h.rest w
    rw [hcode] at hrest
    have hnext := hrest (C.view w) ⟨rfl, K.rely_refl w _, h.inv⟩
    simp only [hcode] at hguar
    have hsafe := hguar hnext.1
    exact honoured_update h hsafe.1 hsafe.2 hnext.2

theorem honoured_kill (h : K.Honoured C) (w : ω)
    (hinv : K.inv (rules.die w C.shared))
    (hrely : ∀ u, u ≠ w → K.rely u C.shared (rules.die w C.shared))
    (hidle : K.idle w ⟨rules.die w C.shared, rules.reset w (C.process w).mem⟩) :
    K.Honoured (rules.kill C w) :=
  honoured_update h hinv hrely hidle

/-- From where the invariant holds, a step that respects `T`, keeps the invariant and does
nothing that one of the processes in `p` does not expect. -/
def Safe (T : Sh → Sh → Prop) (K : Contract ω Sh Mem) (p : ω → Prop) (s t : Sh) : Prop :=
  K.inv s → T s t ∧ K.inv t ∧ ∀ u, p u → K.rely u s t

/-- What the steps of a process, its death and the passing of time respect, every action
respects, and it leaves the contract honoured. -/
theorem honoured_step {T : Sh → Sh → Prop} (hmeets : ∀ w c, K.Meets w (rules.code c))
    (hrefl : ∀ s, T s s) (hguar : ∀ w s t, K.guar w s t → Safe T K (· ≠ w) s t)
    (hdie : ∀ w s, Safe T K (· ≠ w) s (rules.die w s))
    (hidle : ∀ w s m, K.idle w ⟨rules.die w s, rules.reset w m⟩)
    (hwait : ∀ ms s, Safe T K (fun _ => True) s (rules.wait ms s)) (h : K.Honoured C)
    (a : Action ω Γ) : T C.shared (rules.step C a).shared ∧ K.Honoured (rules.step C a) := by
  cases a with
  | start w c =>
    refine ⟨?_, honoured_start (hmeets w c) h⟩
    have hshared : (rules.start C w c).shared = C.shared := by
      unfold Rules.start
      split <;> rfl
    rw [Rules.step, hshared]
    exact hrefl _
  | exec w =>
    refine ⟨?_, honoured_exec h w (fun hstep => (hguar w _ _ hstep h.inv).2)⟩
    obtain hsame | hstep := exec_guar h w
    · rw [Rules.step, hsame]
      exact hrefl _
    · exact (hguar w _ _ hstep h.inv).1
  | kill w =>
    obtain ⟨hT, hinv, hrely⟩ := hdie w C.shared h.inv
    exact ⟨hT, honoured_kill h w hinv hrely (hidle w _ _)⟩
  | wait ms =>
    obtain ⟨hT, hinv, hrely⟩ := hwait ms C.shared h.inv
    exact ⟨hT, honoured_wait h ms hinv (fun u => hrely u trivial)⟩

end Contract

end WhatsappTester.Atomic.Interleaving
