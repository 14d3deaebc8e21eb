import WhatsappTester.Atomic.Rounding
import WhatsappTester.Schema

namespace WhatsappTester.Jobs.Retry

open Schema Atomic.Floating

structure SendError where
  name : String
  message : String
  deriving DecidableEq, Repr

/-- `null` stands for success. -/
def classifyOutcome : SendStatus → Option Category
  | .sent => none
  | .notOnWhatsapp => some .permanent
  | .error => some .transient
  | .skipped => some .validation
  | .other _ => some .unknown

def classifyException (err : SendError) : Category :=
  if err.name = "TransportNotReadyError" then .transient else .unknown

def isRetryable (category : Category) : Bool :=
  category == .transient || category == .unknown

def maxAttempts : Nat := 5
def baseDelayMs : Nat := 1000
def maxDelayMs : Nat := 60000

/-- The denominator of `Math.random()`, whose values are `random / randomScale`. -/
def randomScale : Nat := 2 ^ 53

/-- `BASE_DELAY_MS * 2 ** (attemptNumber - 1)`, up to `MAX_DELAY_MS` -/
def exponentialMs (attemptNumber : Nat) : Nat :=
  min maxDelayMs (baseDelayMs * 2 ^ (attemptNumber - 1))

def computeBackoffMs (attemptNumber random : Nat) : Nat :=
  let exp := toDouble (exponentialMs attemptNumber)
  let jitter := mul (mul (toDouble (random / randomScale)) exp) (toDouble (1 / 5))
  match minimum (toDouble maxDelayMs) (add exp jitter) with
  | .finite delay => (mathRound delay).toNat
  | _ => 0

section Jitter

theorem exponentialMs_pos (attemptNumber : Nat) : 0 < exponentialMs attemptNumber :=
  Nat.lt_min.mpr ⟨by decide, Nat.mul_pos (by decide) (Nat.two_pow_pos _)⟩

theorem exponentialMs_le (attemptNumber : Nat) : exponentialMs attemptNumber ≤ maxDelayMs :=
  Nat.min_le_left _ _

theorem exact_delay {ms : Nat} (h : ms ≤ maxDelayMs) : toDouble ms = .finite ms := by
  have hsmall : |(ms : Int)| ≤ 2 ^ 53 := by
    rw [Nat.abs_cast]
    exact le_trans (Int.ofNat_le.mpr h) (by decide)
  exact_mod_cast exact_int hsmall

/-- What the double `0.2` is. -/
theorem fifth_eq : toDouble (1 / 5) = .finite (3602879701896397 / 2 ^ 54) := by decide +kernel

/-- The jitter only lengthens the wait. -/
theorem exponentialMs_le_computeBackoffMs (attemptNumber random : Nat) :
    exponentialMs attemptNumber ≤ computeBackoffMs attemptNumber random := by
  have hexp := exact_delay (exponentialMs_le attemptNumber)
  have hpos : (0 : Rat) < exponentialMs attemptNumber := Nat.cast_pos.mpr (exponentialMs_pos _)
  have hfifth : (0 : Rat) < 3602879701896397 / 2 ^ 54 := by norm_num
  have hdraw : le (.finite 0) (toDouble (random / randomScale)) = true :=
    toDouble_nonneg (div_nonneg (Nat.cast_nonneg _) (Nat.cast_nonneg _))
  have hcap : le (.finite (exponentialMs attemptNumber)) (.finite maxDelayMs) = true :=
    decide_eq_true (Nat.cast_le.mpr (exponentialMs_le _))
  simp only [computeBackoffMs, hexp, exact_delay (le_refl maxDelayMs), fifth_eq]
  generalize hjitter : mul (mul (toDouble (random / randomScale)) _) _ = jitter
  have hnonneg : le (.finite 0) jitter = true := hjitter ▸ le_mul hfifth (le_mul hpos hdraw)
  have hsum : add (.finite (exponentialMs attemptNumber)) jitter ≠ .nan :=
    add_ne_nan (hjitter ▸ mul_ne_nan hfifth (mul_ne_nan hpos (toDouble_ne_nan _)))
  have hlow := le_minimum hcap (le_add (d := .finite _) hexp hnonneg hsum) (by simp) hsum
  obtain ⟨delay, hdelay, hle⟩ := finite_of_le hlow (minimum_le (by simp) hsum)
  rw [hdelay]
  have hround : (exponentialMs attemptNumber : Int) ≤ mathRound delay :=
    le_mathRound (by exact_mod_cast hle)
  exact Int.ofNat_le.mp (hround.trans (Int.self_le_toNat _))

end Jitter

end WhatsappTester.Jobs.Retry
