import Mathlib.Data.List.Induction
import WhatsappTester.Atomic.Runs
import WhatsappTester.Jobs.Breaker

namespace WhatsappTester.Jobs.Tripping

open Schema Breaker Atomic.Runs

inductive Op
  | canAttempt
  | recordSuccess
  | recordFailure (category : Category)
  deriving DecidableEq, Repr

structure Call where
  op : Op
  ts : Ms
  deriving DecidableEq, Repr

/-- A breaker in use, with the number of attempts it has granted that are not reported yet. -/
structure Gate where
  breaker : CircuitBreaker
  unreported : Nat := 0

def step (g : Gate) (c : Call) : Gate :=
  match c.op with
  | .canAttempt =>
    ⟨(canAttempt c.ts g.breaker).2, g.unreported + (canAttempt c.ts g.breaker).1.toNat⟩
  | .recordSuccess => ⟨recordSuccess g.breaker, g.unreported - 1⟩
  | .recordFailure category => ⟨recordFailure category c.ts g.breaker, g.unreported - 1⟩

/-- `new CircuitBreaker({ failureThreshold, cooldownMs })` -/
def new (failureThreshold : Nat) (cooldownMs : Int) : Gate :=
  ⟨{ failureThreshold, cooldownMs }, 0⟩

abbrev run (failureThreshold : Nat) (cooldownMs : Int) (cs : List Call) : Gate :=
  play step (new failureThreshold cooldownMs) cs

def transients (cs : List Call) : Nat :=
  (cs.reverse.takeWhile (fun c => decide (c.op ≠ .recordSuccess))).countP
    (fun c => decide (c.op = .recordFailure .transient))

/-- A report is made of an attempt that was granted and is not reported yet. -/
def Matched (g : Gate) (c : Call) : Prop := c.op ≠ .canAttempt → 0 < g.unreported

/-- Once every granted attempt is reported, an attempt is granted again after a while. -/
def Recovers (g : Gate) : Prop :=
  g.unreported = 0 → ∀ now, ∃ later, now ≤ later ∧ (canAttempt later g.breaker).1 = true

/-- The last report that is out does not leave a half-open breaker as it is. -/
def Effective (g : Gate) (c : Call) : Prop :=
  ∀ category, c.op = .recordFailure category → category ≠ .transient →
    g.breaker.state = .halfOpen → g.unreported ≠ 1

section Calls

variable {now : Ms} {b : CircuitBreaker}

/-- What a caller can meet. -/
theorem canAttempt_cases (now : Ms) (b : CircuitBreaker) :
    b.state = .closed ∧ canAttempt now b = (true, b) ∨
      b.state ≠ .closed ∧ (canAttempt now b = (false, b) ∨
        canAttempt now b =
          (true, { b with state := .halfOpen, halfOpenProbeInFlight := true })) := by
  cases hstate : b.state with
  | closed => exact .inl ⟨rfl, by simp [canAttempt, takeProbe, hstate]⟩
  | «open» =>
    refine .inr ⟨by simp, ?_⟩
    by_cases hcooled : now - b.openedAt.getD 0 < b.cooldownMs
    · exact .inl (by simp [canAttempt, hstate, hcooled])
    · exact .inr (by simp [canAttempt, takeProbe, hstate, hcooled])
  | halfOpen =>
    refine .inr ⟨by simp, ?_⟩
    cases hprobe : b.halfOpenProbeInFlight with
    | true => exact .inl (by simp [canAttempt, takeProbe, hstate, hprobe])
    | false => exact .inr (by simp [canAttempt, takeProbe, hstate, hprobe])

/-- What a report of a failure does. -/
theorem recordFailure_cases (category : Category) (now : Ms) (b : CircuitBreaker) :
    category ≠ .transient ∧ recordFailure category now b = b ∨
      category = .transient ∧
        (recordFailure category now b).failureThreshold = b.failureThreshold ∧
        (recordFailure category now b).cooldownMs = b.cooldownMs ∧
        ((recordFailure category now b).state = .open ∧
            (recordFailure category now b).openedAt = some now ∧
            (b.state = .closed → b.failureThreshold ≤ b.consecutiveFailures + 1) ∨
          b.state ≠ .halfOpen ∧ b.consecutiveFailures + 1 < b.failureThreshold ∧
            recordFailure category now b =
              { b with consecutiveFailures := b.consecutiveFailures + 1 }) := by
  by_cases hcategory : category = .transient
  · refine .inr ⟨hcategory, ?_⟩
    unfold recordFailure
    split
    case isTrue hne => exact absurd hcategory hne
    case isFalse =>
      split
      case isTrue hhalf => exact ⟨rfl, rfl, .inl ⟨rfl, rfl, fun h => by simp [hhalf] at h⟩⟩
      case isFalse hhalf =>
        split
        case isTrue hmany => exact ⟨rfl, rfl, .inl ⟨rfl, rfl, fun _ => hmany⟩⟩
        case isFalse hfew => exact ⟨rfl, rfl, .inr ⟨hhalf, Nat.lt_of_not_le hfew, rfl⟩⟩
  · exact .inl ⟨hcategory, if_pos hcategory⟩

/-- Within the cool-down an open breaker grants nothing. -/
theorem canAttempt_within {ts : Ms} (hstate : b.state = .open) (hopened : b.openedAt = some ts)
    (hnow : now < ts + b.cooldownMs) : (canAttempt now b).1 = false := by
  have hcool : now - b.openedAt.getD 0 < b.cooldownMs := by
    rw [hopened]
    exact Int.sub_left_lt_of_lt_add hnow
  rw [canAttempt, if_pos hstate, if_pos hcool]

end Calls

theorem transients_append (cs : List Call) (c : Call) :
    transients (cs ++ [c]) =
      if c.op = .recordSuccess then 0
      else transients cs + if c.op = .recordFailure .transient then 1 else 0 := by
  unfold transients
  rw [List.reverse_append, List.reverse_singleton, List.singleton_append]
  by_cases hsuccess : c.op = .recordSuccess
  · simp [hsuccess]
  · simp [hsuccess, List.countP_cons]

structure Tallied (n : Nat) (cooldownMs : Int) (cs : List Call) (b : CircuitBreaker) : Prop where
  threshold : b.failureThreshold = n
  cooldown : b.cooldownMs = cooldownMs
  few : b.state = .closed → b.consecutiveFailures = transients cs ∧ transients cs < n
  many : b.state ≠ .closed → n ≤ transients cs
  opened : b.state = .open →
    ∃ c ∈ cs, c.op = .recordFailure .transient ∧ b.openedAt = some c.ts

section Tallied

variable {n : Nat} {cooldownMs : Int} {cs : List Call} {b : CircuitBreaker}

/-- A call that changes neither the breaker nor the count of failures. -/
theorem tallied_same (h : Tallied n cooldownMs cs b) (c : Call)
    (hsame : transients (cs ++ [c]) = transients cs) : Tallied n cooldownMs (cs ++ [c]) b := by
  refine ⟨h.threshold, h.cooldown, hsame ▸ h.few, hsame ▸ h.many, fun hstate => ?_⟩
  obtain ⟨c', hc', hrest⟩ := h.opened hstate
  exact ⟨c', List.mem_append_left _ hc', hrest⟩

theorem tallied_canAttempt (h : Tallied n cooldownMs cs b) (c : Call)
    (hsame : transients (cs ++ [c]) = transients cs) (now : Ms) :
    Tallied n cooldownMs (cs ++ [c]) (canAttempt now b).2 := by
  have hstay := tallied_same h c hsame
  obtain ⟨_, heq⟩ | ⟨hnot, heq | heq⟩ := canAttempt_cases now b
  · rwa [heq]
  · rwa [heq]
  · rw [heq]
    exact ⟨h.threshold, h.cooldown, by simp, fun _ => hsame ▸ h.many hnot, by simp⟩

theorem tallied_recordSuccess (h : Tallied n cooldownMs cs b) (hn : 1 ≤ n) {c : Call}
    (hzero : transients (cs ++ [c]) = 0) :
    Tallied n cooldownMs (cs ++ [c]) (recordSuccess b) :=
  ⟨h.threshold, h.cooldown, fun _ => ⟨hzero.symm, by omega⟩, fun hnot => absurd rfl hnot,
    fun hstate => by simp [recordSuccess] at hstate⟩

/-- One more transient failure, which opens the breaker if there are enough of them. -/
theorem tallied_recordFailure (h : Tallied n cooldownMs cs b) {c : Call}
    (hop : c.op = .recordFailure .transient)
    (hmore : transients (cs ++ [c]) = transients cs + 1) :
    Tallied n cooldownMs (cs ++ [c]) (recordFailure .transient c.ts b) := by
  obtain ⟨hother, _⟩ | ⟨_, hthreshold, hcooldown, hmoves⟩ := recordFailure_cases .transient c.ts b
  · exact absurd rfl hother
  obtain ⟨hopen, hts, hfull⟩ | ⟨hnot, hroom, heq⟩ := hmoves
  · refine ⟨hthreshold.trans h.threshold, hcooldown.trans h.cooldown,
      fun hclosed => by simp [hopen] at hclosed, fun _ => ?_,
      fun _ => ⟨c, List.mem_append_right _ List.mem_cons_self, hop, hts⟩⟩
    rw [hmore]
    by_cases hclosed : b.state = .closed
    · have hle := hfull hclosed
      rw [h.threshold, (h.few hclosed).1] at hle
      exact hle
    · exact Nat.le_succ_of_le (h.many hclosed)
  · rw [heq]
    refine ⟨h.threshold, h.cooldown, fun hclosed => ?_, fun hnot => ?_, fun hstate => ?_⟩
    · have hcounted := (h.few hclosed).1
      rw [h.threshold, hcounted] at hroom
      exact ⟨by rw [hmore, hcounted], by rw [hmore]; exact hroom⟩
    · rw [hmore]
      exact Nat.le_succ_of_le (h.many hnot)
    · obtain ⟨c', hc', hrest⟩ := h.opened hstate
      exact ⟨c', List.mem_append_left _ hc', hrest⟩

theorem tallied_step {g : Gate} (h : Tallied n cooldownMs cs g.breaker) (hn : 1 ≤ n) (c : Call) :
    Tallied n cooldownMs (cs ++ [c]) (step g c).breaker := by
  have hcount := transients_append cs c
  cases hop : c.op with
  | canAttempt =>
    have hstep : (step g c).breaker = (canAttempt c.ts g.breaker).2 := by rw [step, hop]
    rw [hstep]
    exact tallied_canAttempt h c (by simpa [hop] using hcount) c.ts
  | recordSuccess =>
    have hstep : (step g c).breaker = recordSuccess g.breaker := by rw [step, hop]
    rw [hstep]
    exact tallied_recordSuccess h hn (by simpa [hop] using hcount)
  | recordFailure category =>
    have hstep : (step g c).breaker = recordFailure category c.ts g.breaker := by rw [step, hop]
    rw [hstep]
    obtain ⟨hother, heq⟩ | ⟨rfl, _⟩ := recordFailure_cases category c.ts g.breaker
    · rw [heq]
      exact tallied_same h c (by simpa [hop, hother] using hcount)
    · exact tallied_recordFailure h hop (by simpa [hop] using hcount)

end Tallied

theorem tallied_run {n : Nat} (hn : 1 ≤ n) (cooldownMs : Int) (cs : List Call) :
    Tallied n cooldownMs cs (run n cooldownMs cs).breaker := by
  induction cs using List.reverseRecOn with
  | nil => exact ⟨rfl, rfl, fun _ => ⟨rfl, hn⟩, fun hnot => absurd rfl hnot, by simp [new]⟩
  | append_singleton cs c ih =>
    rw [run, play_append]
    exact tallied_step ih hn c

/-- The breaker is closed exactly while there were fewer transient failures since the
last success than it takes to open it, and once open it keeps to its cool-down. -/
theorem closed_iff_few {n : Nat} (hn : 1 ≤ n) (cooldownMs : Int) (cs : List Call) :
    ((run n cooldownMs cs).breaker.state = .closed ↔ transients cs < n) ∧
      ((run n cooldownMs cs).breaker.state = .open →
        ∃ c ∈ cs, c.op = .recordFailure .transient ∧
          (run n cooldownMs cs).breaker.openedAt = some c.ts ∧
          ∀ now, now < c.ts + cooldownMs →
            (canAttempt now (run n cooldownMs cs).breaker).1 = false) := by
  have h := tallied_run hn cooldownMs cs
  constructor
  · constructor
    · exact fun hclosed => (h.few hclosed).2
    · intro hfew
      by_contra hnot
      exact Nat.not_le_of_lt hfew (h.many hnot)
  · intro hopen
    obtain ⟨c, hc, hop, hts⟩ := h.opened hopen
    refine ⟨c, hc, hop, hts, fun now hnow => canAttempt_within hopen hts ?_⟩
    rw [h.cooldown]
    exact hnow

def twoFailures : List Call :=
  [⟨.canAttempt, 0⟩, ⟨.canAttempt, 0⟩, ⟨.recordFailure .transient, 10⟩,
    ⟨.recordFailure .transient, 20⟩]

theorem closed_iff_few_twoFailures :
    (run 2 30000 twoFailures).breaker.state ≠ .closed ∧ ∃ c ∈ twoFailures,
      c.op = .recordFailure .transient ∧
        (run 2 30000 twoFailures).breaker.openedAt = some c.ts ∧
        ∀ now, now < c.ts + 30000 →
          (canAttempt now (run 2 30000 twoFailures).breaker).1 = false := by
  obtain ⟨hclosed, hopen⟩ := closed_iff_few (n := 2) (by decide) 30000 twoFailures
  exact ⟨fun h => absurd (hclosed.mp h) (by decide), hopen (by decide)⟩

def Flagged (g : Gate) : Prop :=
  g.breaker.state = .halfOpen → g.breaker.halfOpenProbeInFlight = true

/-- The report that a half-open breaker waits for is still to come. -/
def Awaited (g : Gate) : Prop := g.breaker.state = .halfOpen → 0 < g.unreported

theorem flagged_step {g : Gate} (h : Flagged g) (c : Call) : Flagged (step g c) := by
  cases hop : c.op with
  | canAttempt =>
    have hstep : (step g c).breaker = (canAttempt c.ts g.breaker).2 := by rw [step, hop]
    rw [Flagged, hstep]
    obtain ⟨_, heq⟩ | ⟨_, heq | heq⟩ := canAttempt_cases c.ts g.breaker
    · rwa [heq]
    · rwa [heq]
    · rw [heq]
      exact fun _ => rfl
  | recordSuccess =>
    have hstep : (step g c).breaker = recordSuccess g.breaker := by rw [step, hop]
    rw [Flagged, hstep]
    exact fun hhalf => by simp [recordSuccess] at hhalf
  | recordFailure category =>
    have hstep : (step g c).breaker = recordFailure category c.ts g.breaker := by rw [step, hop]
    rw [Flagged, hstep]
    obtain ⟨_, heq⟩ | ⟨_, _, _, ⟨hopen, _⟩ | ⟨_, _, heq⟩⟩ :=
      recordFailure_cases category c.ts g.breaker
    · rwa [heq]
    · exact fun hhalf => by simp [hopen] at hhalf
    · rwa [heq]

theorem recovers_iff {g : Gate} (h : Flagged g) : Recovers g ↔ Awaited g := by
  constructor
  · intro hrecovers hhalf
    by_contra hnone
    obtain ⟨later, _, hgranted⟩ := hrecovers (Nat.eq_zero_of_not_pos hnone) 0
    have hrefused : (canAttempt later g.breaker).1 = false := by
      simp [canAttempt, takeProbe, hhalf, h hhalf]
    rw [hrefused] at hgranted
    exact Bool.false_ne_true hgranted
  · intro hawaited hnone now
    have hstate : g.breaker.state ≠ .halfOpen :=
      fun hhalf => absurd (hawaited hhalf) (by rw [hnone]; exact Nat.lt_irrefl 0)
    refine ⟨max now (g.breaker.openedAt.getD 0 + g.breaker.cooldownMs), Int.le_max_left _ _,
      canAttempt_granted hstate (fun _ => ?_)⟩
    exact Int.le_sub_left_of_add_le (Int.le_max_right _ _)

theorem awaited_step {g : Gate} {c : Call} (h : Awaited g) (hc : Matched g c) :
    Awaited (step g c) ↔ Effective g c := by
  cases hop : c.op with
  | canAttempt =>
    have heffective : Effective g c := fun category hfailure => by simp [hop] at hfailure
    refine iff_of_true ?_ heffective
    unfold Awaited step
    rw [hop]
    obtain ⟨hclosed, heq⟩ | ⟨_, heq | heq⟩ := canAttempt_cases c.ts g.breaker
    · rw [heq]
      exact fun hhalf => by simp [hclosed] at hhalf
    · rw [heq]
      exact h
    · rw [heq]
      exact fun _ => Nat.succ_pos _
  | recordSuccess =>
    have heffective : Effective g c := fun category hfailure => by simp [hop] at hfailure
    refine iff_of_true ?_ heffective
    unfold Awaited step
    rw [hop]
    exact fun hhalf => by simp [recordSuccess] at hhalf
  | recordFailure category =>
    have hout : 0 < g.unreported := hc (by simp [hop])
    have hstep : step g c = ⟨recordFailure category c.ts g.breaker, g.unreported - 1⟩ := by
      rw [step, hop]
    have heffective : Effective g c ↔
        (category ≠ .transient → g.breaker.state = .halfOpen → g.unreported ≠ 1) := by
      simp [Effective, hop]
    rw [heffective, Awaited, hstep]
    obtain ⟨hother, heq⟩ | ⟨htransient, _, _, ⟨hopen, _⟩ | ⟨hnot, _, heq⟩⟩ :=
      recordFailure_cases category c.ts g.breaker
    · rw [heq]
      constructor
      · intro hleft _ hhalf hone
        have hpos : 0 < g.unreported - 1 := hleft hhalf
        simp [hone] at hpos
      · intro hlast hhalf
        exact Nat.sub_pos_of_lt (Nat.lt_of_le_of_ne hout (Ne.symm (hlast hother hhalf)))
    · refine iff_of_true (fun hhalf => by simp [hopen] at hhalf) (fun hne => absurd htransient hne)
    · rw [heq]
      exact iff_of_true (fun hhalf => absurd hhalf hnot) (fun hne => absurd htransient hne)

/-- In a use of a breaker that reports every granted attempt once, an attempt is always
granted again some time after all have been reported, if and only if the last report that
is out never leaves a half-open breaker as it is. -/
theorem recovers_iff_effective (n : Nat) (cooldownMs : Int) {cs : List Call}
    (h : Along Matched step (new n cooldownMs) cs) :
    Along (fun g c => Recovers (step g c)) step (new n cooldownMs) cs ↔
      Along Effective step (new n cooldownMs) cs := by
  refine along_iff (fun g => Flagged g ∧ Awaited g) ?_ ?_ ⟨?_, ?_⟩ h
  · intro g c ⟨hflagged, hawaited⟩ hc
    exact (recovers_iff (flagged_step hflagged c)).trans (awaited_step hawaited hc)
  · intro g c ⟨hflagged, hawaited⟩ hc heffective
    exact ⟨flagged_step hflagged c, (awaited_step hawaited hc).mpr heffective⟩
  · exact fun hhalf => by simp [new] at hhalf
  · exact fun hhalf => by simp [new] at hhalf

def probeSucceeds : List Call :=
  [⟨.canAttempt, 0⟩, ⟨.recordFailure .transient, 10⟩, ⟨.canAttempt, 40⟩, ⟨.recordSuccess, 50⟩]

theorem recovers_iff_effective_probeSucceeds :
    Along (fun g c => Recovers (step g c)) step (new 1 30) probeSucceeds := by
  have hmatched : Along Matched step (new 1 30) probeSucceeds :=
    ⟨fun h => absurd rfl h, fun _ => by decide, fun h => absurd rfl h, fun _ => by decide, trivial⟩
  have heffective : Along Effective step (new 1 30) probeSucceeds := by
    refine ⟨fun _ h => (nomatch h), fun _ h hother => ?_, fun _ h => (nomatch h),
      fun _ h => (nomatch h), trivial⟩
    cases h
    exact absurd rfl hother
  exact (recovers_iff_effective 1 30 hmatched).mpr heffective

/-- The probe reports a failure that is the recipient's, and no attempt is granted any more. -/
theorem probe_lost :
    let cs : List Call :=
      [⟨.canAttempt, 0⟩, ⟨.recordFailure .transient, 10⟩, ⟨.canAttempt, 40⟩,
        ⟨.recordFailure .permanent, 50⟩]
    Along Matched step (new 1 30) cs ∧
      ¬ Along (fun g c => Recovers (step g c)) step (new 1 30) cs := by
  refine ⟨⟨fun h => absurd rfl h, fun _ => by decide, fun h => absurd rfl h, fun _ => by decide,
    trivial⟩, fun h => ?_⟩
  have hrecovers := h.2.2.2.1
  exact absurd ((recovers_iff (fun _ => rfl)).mp hrecovers rfl) (by decide)

end WhatsappTester.Jobs.Tripping
