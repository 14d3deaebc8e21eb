import WhatsappTester.Schema

namespace WhatsappTester.Jobs.Breaker

open Schema

inductive BreakerState
  | closed | open | halfOpen
  deriving DecidableEq, Repr

structure CircuitBreaker where
  failureThreshold : Nat := 5
  cooldownMs : Int := 30000
  state : BreakerState := .closed
  consecutiveFailures : Nat := 0
  openedAt : Option Ms := none
  halfOpenProbeInFlight : Bool := false
  deriving DecidableEq, Repr

/-- The second half of `canAttempt`: while half open, one caller gets the probe. -/
def takeProbe (b : CircuitBreaker) : Bool × CircuitBreaker :=
  if b.state = .halfOpen then
    if b.halfOpenProbeInFlight then (false, b) else (true, { b with halfOpenProbeInFlight := true })
  else (true, b)

def canAttempt (now : Ms) (b : CircuitBreaker) : Bool × CircuitBreaker :=
  if b.state = .open then
    if now - b.openedAt.getD 0 < b.cooldownMs then (false, b)
    else takeProbe { b with state := .halfOpen, halfOpenProbeInFlight := false }
  else takeProbe b

def recordSuccess (b : CircuitBreaker) : CircuitBreaker :=
  { b with consecutiveFailures := 0, state := .closed, halfOpenProbeInFlight := false }

/-- Only transient failures count. -/
def recordFailure (category : Category) (now : Ms) (b : CircuitBreaker) : CircuitBreaker :=
  if category ≠ .transient then b
  else if b.state = .halfOpen then
    { b with state := .open, openedAt := some now, halfOpenProbeInFlight := false }
  else if b.consecutiveFailures + 1 ≥ b.failureThreshold then
    { b with consecutiveFailures := b.consecutiveFailures + 1, state := .open, openedAt := some now }
  else { b with consecutiveFailures := b.consecutiveFailures + 1 }

def Cooled (now : Ms) (b : CircuitBreaker) : Prop := b.cooldownMs ≤ now - b.openedAt.getD 0

instance (now : Ms) (b : CircuitBreaker) : Decidable (Cooled now b) :=
  inferInstanceAs (Decidable (_ ≤ _))

section Breaker

variable {now : Ms} {b : CircuitBreaker}

/-- A refused caller leaves the breaker alone. -/
theorem canAttempt_refused (h : (canAttempt now b).1 = false) : (canAttempt now b).2 = b := by
  have hprobe : ∀ b : CircuitBreaker, (takeProbe b).1 = false → (takeProbe b).2 = b := by
    intro b h
    simp only [takeProbe] at h ⊢
    split
    · split
      · rfl
      · simp_all
    · simp_all
  simp only [canAttempt] at h ⊢
  split
  · split
    · rfl
    · simp_all [takeProbe]
  · rw [if_neg ‹_›] at h
    exact hprobe b h

theorem canAttempt_granted (hstate : b.state ≠ .halfOpen)
    (hcooled : b.state = .open → Cooled now b) :
    (canAttempt now b).1 = true := by
  simp only [canAttempt, takeProbe]
  split
  · have : ¬ now - b.openedAt.getD 0 < b.cooldownMs := Int.not_lt.mpr (hcooled ‹_›)
    simp [this]
  · rfl

/-- A breaker that is half open after a call was so before, or its cool-down is over. -/
theorem canAttempt_halfOpen (h : (canAttempt now b).2.state = .halfOpen) :
    b.state = .halfOpen ∨ b.state = .open ∧ Cooled now b := by
  simp only [canAttempt] at h
  split at h
  · split at h
    · simp_all
    · exact Or.inr ⟨by assumption, Int.not_lt.mp (by assumption)⟩
  · simp only [takeProbe] at h
    split at h
    · exact Or.inl ‹_›
    · exact Or.inl h

theorem recordFailure_halfOpen {category : Category}
    (h : (recordFailure category now b).state = .halfOpen) :
    b.state = .halfOpen ∧ category ≠ .transient := by
  simp only [recordFailure] at h
  split at h
  · exact ⟨h, ‹_›⟩
  · split at h
    · cases h
    · split at h
      · cases h
      · exact absurd h ‹_›

end Breaker

/-- The counting semaphore of `backpressure.js`. -/
structure Semaphore where
  maxConcurrent : Nat
  active : Nat := 0
  deriving DecidableEq, Repr

def tryAcquire (s : Semaphore) : Bool × Semaphore :=
  if s.active ≥ s.maxConcurrent then (false, s) else (true, { s with active := s.active + 1 })

theorem tryAcquire_granted {s : Semaphore} (h : s.active < s.maxConcurrent) :
    tryAcquire s = (true, { s with active := s.active + 1 }) := if_neg (Nat.not_le.mpr h)

theorem tryAcquire_refused {s : Semaphore} (h : s.maxConcurrent ≤ s.active) :
    tryAcquire s = (false, s) :=
  if_pos h

def release (s : Semaphore) : Semaphore := { s with active := s.active - 1 }

end WhatsappTester.Jobs.Breaker
