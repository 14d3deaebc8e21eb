import WhatsappTester.Atomic.Program

namespace WhatsappTester.Atomic.Failing

open Program

variable {σ α β : Type} {T : σ → σ → Prop}

/-- The program up to a given statement, which throws instead of happening, if the program
comes to it; `none` is the exception. -/
def failing : Option Nat → Prog σ α → Prog σ (Option α)
  | _, .ret a => .ret (some a)
  | none, .stmt act next => .stmt act (fun s => failing none (next s))
  | some 0, .stmt _ _ => .ret none
  | some (n + 1), .stmt act next => .stmt act (fun s => failing (some n) (next s))

theorem always_failing {p : Prog σ α} (h : Always T p) (fault : Option Nat) :
    Always T (failing fault p) := by
  induction p generalizing fault with
  | ret a => cases fault <;> exact trivial
  | stmt act next ih =>
    match fault with
    | none => exact fun s => ⟨(h s).1, ih s (h s).2 none⟩
    | some 0 => exact trivial
    | some (n + 1) => exact fun s => ⟨(h s).1, ih s (h s).2 (some n)⟩

/-- Without a fault nothing is thrown. -/
theorem run_faultless (p : Prog σ α) (s : σ) :
    (failing none p).run s = (some (p.run s).1, (p.run s).2) := by
  induction p generalizing s with
  | ret a => rfl
  | stmt act next ih => exact ih s (act s)

end WhatsappTester.Atomic.Failing
