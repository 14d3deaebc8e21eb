import WhatsappTester.Atomic.Climbing
import WhatsappTester.Atomic.Looping
import WhatsappTester.Auth.Passwords
import WhatsappTester.Entries
import WhatsappTester.Jobs.Timetable

namespace WhatsappTester.Stepping

open Schema Atomic.Floating Atomic.Looping Migration

/-- A row with a numeric repeat interval other than zero, for which the loop is entered. -/
structure Repeating where
  row : Row
  everyValue : Rat
  stored : row.repeatEveryValue = .number everyValue
  nonzero : everyValue ≠ 0

inductive Value
  | number (d : Double)
  | text (s : String)
  deriving DecidableEq

/-- `REPEAT_UNIT_MS` -/
def unitsMs : List (String × Int) :=
  [("minutes", 60 * 1000), ("hours", 60 * 60 * 1000), ("days", 24 * 60 * 60 * 1000),
    ("weeks", 7 * 24 * 60 * 60 * 1000)]

/-- The properties that every object inherits, of which none is a number. -/
def inherited : List String :=
  ["constructor", "hasOwnProperty", "isPrototypeOf", "propertyIsEnumerable", "toLocaleString",
    "toString", "valueOf", "__proto__", "__defineGetter__", "__defineSetter__",
    "__lookupGetter__", "__lookupSetter__"]

/-- `REPEAT_UNIT_MS[unit] || REPEAT_UNIT_MS.minutes`, as a factor -/
def unitMs : SqlValue → Double
  | .text unit =>
    if unit ∈ inherited then .nan
    else
      let ms : Int := ((unitsMs.find? (fun u => decide (u.1 = unit))).map (·.2)).getD (60 * 1000)
      toDouble ms
  | _ => toDouble (60 * 1000 : Int)

def Repeating.stepMs (r : Repeating) : Double :=
  mul (unitMs r.row.repeatEveryUnit) (toDouble r.everyValue)

/-- `row.next_run_at`, where a `null` counts as zero -/
def Repeating.start (r : Repeating) : Value :=
  match r.row.nextRunAt with
  | .null => .number (.finite 0)
  | .number x => .number (toDouble x)
  | .text s => .text s

/-- `next + stepMs`, where `print` is how a number is turned into a text -/
def Value.plus (print : Double → String) (stepMs : Double) : Value → Value
  | .number d => .number (add d stepMs)
  | .text s => .text (s ++ print stepMs)

/-- `next <= now` -/
def Value.upTo (now : Ms) : Value → Bool
  | .number d => le d (.finite now)
  | .text s => le (Auth.Passwords.number s) (.finite now)

def Value.Later (now : Ms) : Value → Prop
  | .number d => d ≠ .nan ∧ le d (.finite now) = false
  | .text _ => False

def Value.Until : Value → Value → Prop
  | .number d, .number e => le d e = true
  | _, _ => False

section Loop

variable (print : Double → String) (r : Repeating) (now : Ms)

/-- `next_run_at + k * stepMs`, by `k` additions -/
def Repeating.sum (k : Nat) : Value := (Value.plus print r.stepMs)^[k] r.start

/-- The loop ends with the least of the times that is later than the clock. -/
def Settles : Prop :=
  ∃ k, 1 ≤ k ∧ Returns (Value.plus print r.stepMs) (Value.upTo now) r.start (r.sum print k) ∧
    (r.sum print k).Later now ∧
    ∀ j, 1 ≤ j → (r.sum print j).Later now → (r.sum print k).Until (r.sum print j)

/-- The step is a number, and it changes every time from the last run up to the clock. If
it goes backwards, the first time is later than the clock and the second is not. -/
def Steady : Prop :=
  match r.start with
  | .text _ => False
  | .number d => add d r.stepMs ≠ .nan ∧
    if le r.stepMs (.finite 0) = true then
      le (add d r.stepMs) (.finite now) = false ∧
        (le (add (add d r.stepMs) r.stepMs) (.finite now) = true ∨
          add (add d r.stepMs) r.stepMs = add d r.stepMs)
    else Moves r.stepMs d (.finite now)

end Loop

variable {print : Double → String} {r : Repeating} {now : Ms}

theorem sum_number {d : Double} (h : r.start = .number d) (k : Nat) :
    r.sum print k = .number (climb r.stepMs k d) := by
  induction k with
  | zero => exact h
  | succ k ih =>
    rw [Repeating.sum, Function.iterate_succ_apply', climb_succ]
    exact congrArg (Value.plus print r.stepMs) ih

theorem sum_text {s : String} (h : r.start = .text s) (k : Nat) :
    ∃ t, r.sum print k = .text t := by
  induction k with
  | zero => exact ⟨s, h⟩
  | succ k ih =>
    obtain ⟨t, ht⟩ := ih
    rw [Repeating.sum, Function.iterate_succ_apply']
    exact ⟨_, congrArg (Value.plus print r.stepMs) ht⟩

theorem exact_start {d : Double} (h : r.start = .number d) : Exact d := by
  unfold Repeating.start at h
  split at h
  · cases h
    exact toDouble_zero
  · cases h
    exact exact_toDouble _
  · cases h

theorem upTo_sum {d : Double} (h : r.start = .number d) (k : Nat) :
    Value.upTo now ((Value.plus print r.stepMs)^[k] r.start) =
      le (climb r.stepMs k d) (.finite now) :=
  congrArg (Value.upTo now) (sum_number h k)

theorem step_number {d s : Double} (h : add d s ≠ .nan) : s ≠ .nan := by
  rintro rfl
  cases d <;> exact absurd rfl h

section Number

variable {d : Double} (h : r.start = .number d) (hsum : add d r.stepMs ≠ .nan)
include h hsum

theorem later_sum (k : Nat) : (r.sum print (k + 1)).Later now ↔
    le (climb r.stepMs (k + 1) d) (.finite now) = false := by
  rw [sum_number h]
  exact Iff.intro (fun hlater => hlater.2) (fun hpast => ⟨climb_number hsum k, hpast⟩)

theorem settles_up (hup : le (.finite 0) r.stepMs = true)
    (hmoves : Moves r.stepMs d (.finite now)) : Settles print r now := by
  have hstop : ∃ k, Value.upTo now ((Value.plus print r.stepMs)^[k + 1] r.start) = false := by
    obtain ⟨k, hk⟩ := (escapes_iff (exact_start h) hsum hup).mpr hmoves
    exact ⟨k, (upTo_sum h (k + 1)).trans hk⟩
  obtain ⟨k, hreturns, hpast, hfirst⟩ := returns_of_stop hstop
  rw [upTo_sum h] at hpast
  refine ⟨k + 1, Nat.le_add_left 1 k, hreturns, (later_sum h hsum k).mpr hpast, ?_⟩
  intro j hj hlater
  obtain ⟨j, rfl⟩ := Nat.exists_eq_add_of_le' hj
  rw [later_sum h hsum] at hlater
  rw [sum_number h, sum_number h]
  obtain hlt | hle := Nat.lt_or_ge j k
  · have hagain := hfirst j hlt
    rw [upTo_sum h, hlater] at hagain
    cases hagain
  · exact climb_mono (exact_start h) hsum hup hle

theorem settles_down (hdown : le r.stepMs (.finite 0) = true)
    (hfirst : le (add d r.stepMs) (.finite now) = false)
    (hsecond : le (add (add d r.stepMs) r.stepMs) (.finite now) = true ∨
      add (add d r.stepMs) r.stepMs = add d r.stepMs) : Settles print r now := by
  have hone : r.sum print 1 = .number (add d r.stepMs) := sum_number h 1
  have hreturns : Returns (Value.plus print r.stepMs) (Value.upTo now) r.start (r.sum print 1) :=
    returns_iff.mpr ⟨0, rfl, (upTo_sum h 1).trans hfirst, by simp⟩
  refine ⟨1, le_refl 1, hreturns, (later_sum h hsum 0).mpr hfirst, ?_⟩
  intro j hj hlater
  obtain ⟨j, rfl⟩ := Nat.exists_eq_add_of_le' hj
  rw [later_sum h hsum] at hlater
  rw [hone, sum_number h]
  cases j with
  | zero => exact le_refl_of hsum
  | succ j =>
    obtain hpast | hsame := hsecond
    · have hanti := climb_anti (exact_start h) hsum hdown (Nat.succ_le_succ (Nat.zero_le j))
      rw [le_trans_double hanti hpast] at hlater
      cases hlater
    · have hconstant (i : Nat) : climb r.stepMs i (add d r.stepMs) = add d r.stepMs := by
        induction i with
        | zero => rfl
        | succ i ih => rw [climb_succ, ih, hsame]
      rw [climb_add, hconstant]
      exact le_refl_of hsum

end Number

theorem settles_of_steady (h : Steady r now) : Settles print r now := by
  unfold Steady at h
  split at h
  case h_1 => exact h.elim
  case h_2 d hstart =>
    obtain ⟨hsum, hcond⟩ := h
    split at hcond
    case isTrue hdown => exact settles_down hstart hsum hdown hcond.1 hcond.2
    case isFalse hup =>
      have hzero : (.finite 0 : Double) ≠ .nan := fun h => nomatch h
      exact settles_up hstart hsum ((le_total_double hzero (step_number hsum)).resolve_right hup)
        hcond

theorem steady_of_settles (h : Settles print r now) : Steady r now := by
  obtain ⟨k, hk, hreturns, hlater, hleast⟩ := h
  obtain ⟨k, rfl⟩ := Nat.exists_eq_add_of_le' hk
  unfold Steady
  cases hstart : r.start with
  | text s =>
    obtain ⟨t, ht⟩ : ∃ t, r.sum print (k + 1) = .text t := sum_text hstart (k + 1)
    rw [ht] at hlater
    exact hlater.elim
  | number d =>
    have hsum : add d r.stepMs ≠ .nan := by
      intro hnan
      rw [sum_number hstart, climb_add, hnan, climb_nan] at hlater
      exact hlater.1 rfl
    have hpast := (later_sum hstart hsum k).mp hlater
    refine ⟨hsum, ?_⟩
    split
    case isTrue hdown =>
      have hone : le (climb r.stepMs 1 d) (.finite now) = false := by
        refine Bool.eq_false_iff.mpr (fun hle => ?_)
        rw [le_trans_double (climb_anti (exact_start hstart) hsum hdown (Nat.zero_le k)) hle]
          at hpast
        cases hpast
      refine ⟨hone, or_iff_not_imp_left.mpr (fun htwo => ?_)⟩
      -- The loop has ended with the first time, and the second is no earlier than that.
      have hleast := hleast 2 (by decide)
        ((later_sum hstart hsum 1).mpr (Bool.eq_false_iff.mpr htwo))
      obtain ⟨i, hi, -, hgo⟩ := returns_iff.mp hreturns
      have hfirst : i = 0 := by
        by_contra hne
        have hagain := hgo 0 (Nat.pos_of_ne_zero hne)
        rw [upTo_sum hstart, hone] at hagain
        cases hagain
      subst hfirst
      have hsame : r.sum print (k + 1) = .number (climb r.stepMs 1 d) :=
        hi.trans (sum_number hstart 1)
      rw [hsame, sum_number hstart] at hleast
      exact le_antisymm_double (climb_down (exact_start hstart) hsum hdown 1) hleast
    case isFalse hup =>
      have hzero : (.finite 0 : Double) ≠ .nan := fun h => nomatch h
      exact (escapes_iff (exact_start hstart) hsum
        ((le_total_double hzero (step_number hsum)).resolve_right hup)).mp ⟨k, hpast⟩

section Regular

theorem add_changes {a w : Rat} (hlow : -2 ^ 53 ≤ a) (hhigh : a < 2 ^ 53) (hw : 1 ≤ w) :
    add (.finite a) (.finite w) ≠ .finite a := by
  intro hsame
  have hfloor : -2 ^ 53 ≤ ⌊a⌋ := Int.le_floor.mpr (by exact_mod_cast hlow)
  have hceil : ⌊a⌋ < 2 ^ 53 := Int.floor_lt.mpr (by exact_mod_cast hhigh)
  have hexact : toDouble ((⌊a⌋ + 1 : Int) : Rat) = .finite (⌊a⌋ + 1 : Int) :=
    exact_int (abs_le.mpr ⟨by omega, by omega⟩)
  have hnext : ((⌊a⌋ + 1 : Int) : Rat) ≤ a + w := by
    push_cast
    linarith [Int.floor_le a]
  have hmono := toDouble_mono hnext
  rw [hexact, show toDouble (a + w) = .finite a from hsame] at hmono
  have hle : ((⌊a⌋ + 1 : Int) : Rat) ≤ a := of_decide_eq_true hmono
  push_cast at hle
  linarith [Int.lt_floor_add_one a]

theorem moves_of_one_le {s : Double} {y : Int} {t : Ms} (hs : le (.finite 1) s = true)
    (hy : -2 ^ 53 ≤ y) (ht : t < 2 ^ 53) : Moves s (.finite y) (.finite t) := by
  intro x hyx hxt
  cases x with
  | nan => cases hyx
  | infinite u =>
    cases u with
    | false => cases hxt
    | true => cases hyx
  | finite a =>
    cases s with
    | nan => cases hs
    | infinite u => exact fun h => nomatch h
    | finite w =>
      have hya : (y : Rat) ≤ a := of_decide_eq_true hyx
      have hat : a ≤ t := of_decide_eq_true hxt
      have hylow : ((-2 ^ 53 : Int) : Rat) ≤ y := Int.cast_le.mpr hy
      have hthigh : (t : Rat) < ((2 ^ 53 : Int) : Rat) := Int.cast_lt.mpr ht
      push_cast at hylow hthigh
      exact add_changes (hylow.trans hya) (hat.trans_lt hthigh) (of_decide_eq_true hs)

theorem unitMs_regular {unit : SqlValue} (h : ∀ name, unit = .text name → name ∉ inherited) :
    ∃ c : Int, 1 ≤ c ∧ unitMs unit = .finite c := by
  have hminutes : toDouble (60 * 1000 : Int) = .finite (60 * 1000 : Int) := exact_int (by decide)
  cases unit with
  | null => exact ⟨60 * 1000, by decide, hminutes⟩
  | number x => exact ⟨60 * 1000, by decide, hminutes⟩
  | text name =>
    rw [unitMs, if_neg (h name rfl)]
    cases hfind : unitsMs.find? (fun u => decide (u.1 = name)) with
    | none => exact ⟨60 * 1000, by decide, hminutes⟩
    | some u =>
      have hbounds : ∀ u ∈ unitsMs, 1 ≤ u.2 ∧ |u.2| ≤ 2 ^ 53 := by decide
      obtain ⟨hlow, hhigh⟩ := hbounds u (List.mem_of_find?_eq_some hfind)
      exact ⟨u.2, hlow, exact_int hhigh⟩

theorem mul_regular {c : Int} {x : Rat} (hc : 1 ≤ c) (hx : 1 ≤ x) :
    le (.finite 1) (mul (.finite c) (toDouble x)) = true := by
  have hone : toDouble ((1 : Int) : Rat) = .finite (1 : Int) := exact_int (by decide)
  have hc' : (1 : Rat) ≤ c := by exact_mod_cast hc
  have hmono := toDouble_mono (q := ((1 : Int) : Rat)) (by exact_mod_cast hx)
  rw [hone] at hmono
  cases hvalue : toDouble x with
  | nan => exact absurd hvalue (toDouble_ne_nan x)
  | infinite u =>
    rw [hvalue] at hmono
    cases u with
    | true => cases hmono
    | false =>
      have hne : (c : Rat) ≠ 0 := (lt_of_lt_of_le one_pos hc').ne'
      simp [mul, hne, le, not_lt.mpr (le_trans zero_le_one hc')]
  | finite v =>
    rw [hvalue] at hmono
    have hv : (1 : Rat) ≤ v := by simpa [le] using hmono
    have hprod : ((1 : Int) : Rat) ≤ c * v := by
      push_cast
      exact one_le_mul_of_one_le_of_one_le hc' hv
    have hle := toDouble_mono hprod
    rw [hone] at hle
    simpa [mul] using hle

/-- A row with an interval of at least one, a usual unit and a date is steady. -/
theorem steady_of_regular {r : Repeating} {now y : Ms}
    (hunit : ∀ name, r.row.repeatEveryUnit = .text name → name ∉ inherited)
    (hvalue : 1 ≤ r.everyValue) (hstart : r.row.nextRunAt = .number y) (hy : |y| ≤ 2 ^ 53)
    (hnow : now < 2 ^ 53) : Steady r now := by
  obtain ⟨c, hc, hunitMs⟩ := unitMs_regular hunit
  have hstep : le (.finite 1) r.stepMs = true := by
    rw [Repeating.stepMs, hunitMs]
    exact mul_regular hc hvalue
  have hnumber : r.start = .number (.finite y) := by
    rw [Repeating.start, hstart]
    exact congrArg Value.number (exact_int hy)
  rw [Steady, hnumber]
  refine ⟨?_, ?_⟩
  · cases hs : r.stepMs with
    | nan => rw [hs] at hstep; cases hstep
    | infinite u => exact fun h => nomatch h
    | finite w => exact toDouble_ne_nan _
  · rw [if_neg]
    · exact moves_of_one_le hstep (abs_le.mp hy).1 hnow
    · intro hdown
      exact absurd (le_trans_double hstep hdown) (by decide)

def created (rt : Runtime) (s : Schedule) (value : Int) (hvalue : s.repeatEveryValue = some value)
    (hpositive : 1 ≤ value) : Repeating where
  row := createdRow rt s
  everyValue := value
  stored := by simp [createdRow, hvalue]
  nonzero := by exact_mod_cast (Int.lt_of_lt_of_le Int.one_pos hpositive).ne'

theorem climb_whole {t step : Int} {k : Nat} (h : ∀ j ≤ k, |t + j * step| ≤ 2 ^ 53) :
    climb (.finite step) k (.finite t) = .finite (t + k * step : Int) := by
  induction k with
  | zero => simp [climb]
  | succ k ih =>
    rw [climb_succ, ih (fun j hj => h j (Nat.le_succ_of_le hj))]
    have hexact := exact_int (h (k + 1) (le_refl _))
    have hsum : ((t + k * step : Int) : Rat) + step = (t + (k + 1 : Nat) * step : Int) := by
      push_cast
      ring
    rw [← hsum] at hexact ⊢
    exact hexact

theorem unitMs_text {unit : String} (h : unit ∉ inherited) {u : String × Int}
    (hu : unitsMs.find? (fun u => decide (u.1 = unit)) = some u) (hms : |u.2| ≤ 2 ^ 53) :
    unitMs (.text unit) = .finite u.2 := by
  rw [unitMs, if_neg h, hu]
  exact exact_int hms

theorem unitMs_known {unit : RepeatUnit} (h : Scheduler.knownUnit unit = unit) :
    unitMs (.text (unitName unit)) = .finite (Scheduler.repeatUnitMs (some unit) : Int) := by
  cases unit with
  | minutes => exact unitMs_text (u := ("minutes", 60000)) (by decide) (by decide) (by decide)
  | hours => exact unitMs_text (u := ("hours", 3600000)) (by decide) (by decide) (by decide)
  | days => exact unitMs_text (u := ("days", 86400000)) (by decide) (by decide) (by decide)
  | weeks => exact unitMs_text (u := ("weeks", 604800000)) (by decide) (by decide) (by decide)
  | other name => cases h

theorem stepMs_created {rt : Runtime} {s : Schedule} {value : Int}
    (hvalue : s.repeatEveryValue = some value) (hpositive : 1 ≤ value)
    (hunit : ∀ unit ∈ s.repeatEveryUnit, Scheduler.knownUnit unit = unit)
    (hstep : Scheduler.repeatUnitMs s.repeatEveryUnit * value ≤ 2 ^ 53) :
    (created rt s value hvalue hpositive).stepMs =
      .finite (Scheduler.repeatUnitMs s.repeatEveryUnit * value : Int) := by
  have hpos := Jobs.Recurrence.repeatUnitMs_pos s.repeatEveryUnit
  have hms : unitMs (createdRow rt s).repeatEveryUnit =
      .finite (Scheduler.repeatUnitMs s.repeatEveryUnit : Int) := by
    unfold createdRow
    cases hcase : s.repeatEveryUnit with
    | none => exact exact_int (z := 60 * 1000) (by decide)
    | some unit => exact unitMs_known (hunit unit hcase)
  have hlarge : value ≤ 2 ^ 53 := le_trans (le_mul_of_one_le_left (by omega) hpos) hstep
  have hdouble : toDouble value = .finite value :=
    exact_int (abs_le.mpr ⟨by omega, hlarge⟩)
  have hproduct : 0 ≤ Scheduler.repeatUnitMs s.repeatEveryUnit * value :=
    Int.mul_nonneg (by omega) (by omega)
  have hexact := exact_int (abs_le.mpr ⟨by omega, hstep⟩)
  rw [Int.cast_mul] at hexact
  simp only [Repeating.stepMs, created, hms, hdouble, mul]
  rw [hexact, Int.cast_mul]

theorem returns_whole {t step : Int} (hnumber : r.start = .number (.finite t))
    (hstepMs : r.stepMs = .finite step) (hpos : 0 < step) (ht : |t| ≤ 2 ^ 53)
    (hnext : Scheduler.nextOccurrence step now t ≤ 2 ^ 53) :
    Returns (Value.plus print r.stepMs) (Value.upTo now) r.start
      (.number (.finite (Scheduler.nextOccurrence step now t : Int))) := by
  obtain ⟨k, hk, hlate, hlast⟩ := Jobs.Timetable.advance_spec hpos now (now - t).toNat t
    (Int.self_le_toNat _)
  have hvalue : Scheduler.nextOccurrence step now t = t + ((k + 1 : Nat) : Int) * step := by
    push_cast
    exact hk
  have hlate : now < Scheduler.nextOccurrence step now t := hlate
  rw [hvalue] at hnext hlate
  have hup {i j : Nat} (hij : i ≤ j) : (i : Int) * step ≤ j * step :=
    Int.mul_le_mul_of_nonneg_right (Int.ofNat_le.mpr hij) hpos.le
  have hclimb (j : Nat) (hj : j ≤ k + 1) :
      climb r.stepMs j (.finite t) = .finite (t + j * step : Int) := by
    rw [hstepMs]
    refine climb_whole (fun i hi => abs_le.mpr ⟨?_, ?_⟩)
    · have hzero : 0 ≤ (i : Int) * step := Int.mul_nonneg (Int.natCast_nonneg i) hpos.le
      have := (abs_le.mp ht).1
      omega
    · exact le_trans (Int.add_le_add_left (hup (le_trans hi hj)) t) hnext
  refine returns_iff.mpr ⟨k, ?_, ?_, fun j hj => ?_⟩
  · have hsum : r.sum print (k + 1) = _ := sum_number hnumber (k + 1)
    rw [hclimb (k + 1) (le_refl _), ← hvalue] at hsum
    exact hsum.symm
  · rw [upTo_sum hnumber, hclimb (k + 1) (le_refl _)]
    exact decide_eq_false (not_le.mpr (Int.cast_lt.mpr hlate))
  · rw [upTo_sum hnumber, hclimb (j + 1) (by omega)]
    obtain rfl | hlast := hlast
    · omega
    · refine decide_eq_true (Int.cast_le.mpr ?_)
      exact le_trans (Int.add_le_add_left (hup hj) t) hlast

theorem returns_created {rt : Runtime} {s : Schedule} {value : Int}
    (hvalue : s.repeatEveryValue = some value) (hpositive : 1 ≤ value)
    (hunit : ∀ unit ∈ s.repeatEveryUnit, Scheduler.knownUnit unit = unit)
    (hstep : Scheduler.repeatUnitMs s.repeatEveryUnit * value ≤ 2 ^ 53)
    (hstart : |s.nextRunAt| ≤ 2 ^ 53)
    (hnext : Scheduler.nextOccurrence (Scheduler.repeatUnitMs s.repeatEveryUnit * value) now
      s.nextRunAt ≤ 2 ^ 53) :
    let r := created rt s value hvalue hpositive
    Returns (Value.plus print r.stepMs) (Value.upTo now) r.start (.number (.finite
      (Scheduler.nextOccurrence (Scheduler.repeatUnitMs s.repeatEveryUnit * value) now
        s.nextRunAt : Int))) :=
  returns_whole (congrArg Value.number (exact_int hstart))
    (stepMs_created hvalue hpositive hunit hstep)
    (Int.mul_pos (Jobs.Recurrence.repeatUnitMs_pos _) (by omega)) hstart hnext

end Regular

/-- The loop ends as it should if and only if the step is steady. -/
theorem settles_iff (print : Double → String) (r : Repeating) (now : Ms) :
    Settles print r now ↔ Steady r now :=
  ⟨steady_of_settles, settles_of_steady⟩

def backwardsJson : Json :=
  .object
    [("id", .string "a"), ("message", .string "Hello"), ("runAt", .number 1767225600000),
      ("recipients", recipientsJson [⟨"15550001", "Ann"⟩]),
      ("repeat", .object [("everyValue", .number (-5)), ("everyUnit", .string "minutes"),
        ("endAt", .null)])]

/-- A loop that goes back in time does not end. -/
theorem backwards_never_settles :
    ¬ ∀ (rt : Runtime) (importedAt : Ms) (id : Option Json) (s : Json) (r : Repeating),
      rowOf rt importedAt id s = .ok r.row →
      ∀ (print : Double → String) (now : Ms), Settles print r now := by
  intro h
  let r : Repeating :=
    ⟨Entries.importedRow annRuntime 0 (some (.string "a")) backwardsJson, -5, rfl, by decide⟩
  have hsteady := steady_of_settles
    (h annRuntime 0 (some (.string "a")) backwardsJson r rfl (fun _ => "") 1767225600000)
  have hstart : r.start = .number (.finite 1767225600000) := by decide +kernel
  have hdown : le r.stepMs (.finite 0) = true := by decide +kernel
  have hfirst :
      le (add (.finite 1767225600000) r.stepMs) (.finite (1767225600000 : Ms)) = true := by
    decide +kernel
  rw [Steady, hstart] at hsteady
  obtain ⟨-, hcond⟩ := hsteady
  rw [if_pos hdown, hfirst] at hcond
  cases hcond.1

end WhatsappTester.Stepping
