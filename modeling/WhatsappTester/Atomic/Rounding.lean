import Mathlib.Data.Int.Log
import Mathlib.Data.Rat.Cast.Order
import Mathlib.Tactic.FieldSimp
import Mathlib.Tactic.Linarith
import WhatsappTester.Atomic.Floating

namespace WhatsappTester.Atomic.Floating

def add : Double → Double → Double
  | .finite a, .finite b => toDouble (a + b)
  | .infinite s, .infinite s' => if s = s' then .infinite s else .nan
  | .infinite s, .finite _ | .finite _, .infinite s => .infinite s
  | .nan, _ | _, .nan => .nan

/-- `<=` -/
def le : Double → Double → Bool
  | .finite a, .finite b => decide (a ≤ b)
  | .infinite s, .finite _ => s
  | .finite _, .infinite s => !s
  | .infinite s, .infinite s' => s || !s'
  | .nan, _ | _, .nan => false

/-- `Math.min` -/
def minimum (d e : Double) : Double := if le d e then d else if le e d then e else .nan

/-- `Math.round`: of two integers that are equally near, the greater one. -/
def mathRound (a : Rat) : Int := (a + 1 / 2).floor

/-- The exponent of the last binary digit that a double keeps of a positive number. -/
def grain (a : Rat) : Int := max (exponent a - 52) (-1074)

def rounded (a : Rat) : Rat := nearest (a / power (grain a)) * power (grain a)

section Powers

theorem power_eq (e : Int) : power e = 2 ^ e := by
  unfold power
  split
  case isTrue h =>
    obtain ⟨n, rfl⟩ := Int.eq_ofNat_of_zero_le h
    simp
  case isFalse h =>
    obtain ⟨n, hn⟩ := Int.eq_ofNat_of_zero_le (Int.le_of_lt (Int.neg_pos_of_neg (not_le.mp h)))
    have he : e = -n := by omega
    subst he
    rw [Rat.mkRat_eq_div]
    simp

theorem power_pos (e : Int) : 0 < power e := by
  rw [power_eq]
  exact zpow_pos two_pos e

theorem power_add (e f : Int) : power (e + f) = power e * power f := by
  simp only [power_eq]
  exact zpow_add₀ two_ne_zero e f

theorem power_le {e f : Int} (h : e ≤ f) : power e ≤ power f := by
  simp only [power_eq]
  exact zpow_le_zpow_right₀ one_le_two h

theorem power_lt_iff {e f : Int} : power e < power f ↔ e < f := by
  simp only [power_eq]
  exact zpow_lt_zpow_iff_right₀ one_lt_two

theorem power_nat (n : Nat) : ((2 ^ n : Nat) : Int) = power n := by simp [power_eq]

theorem power_multiple {e k : Int} (h : k ≤ e) : ∃ z : Int, power e = z * power k := by
  obtain ⟨n, hn⟩ := Int.eq_ofNat_of_zero_le (Int.sub_nonneg_of_le h)
  refine ⟨(2 ^ n : Nat), ?_⟩
  rw [power_nat, ← power_add]
  congr 1
  omega

end Powers

theorem exponent_bounds {a : Rat} (h : 0 < a) :
    power (exponent a) ≤ a ∧ a < power (exponent a + 1) := by
  have hnum : 0 < a.num := Rat.num_pos.mpr h
  obtain ⟨n, hn⟩ := Int.eq_ofNat_of_zero_le (Int.le_of_lt hnum)
  have hn0 : n ≠ 0 := by omega
  have hden : (0 : Rat) < a.den := Nat.cast_pos.mpr a.den_pos
  have ha : a * a.den = n := by
    rw [Rat.mul_den_eq_num, hn]
    rfl
  have hlog (k : Nat) : power k = ((2 ^ k : Nat) : Rat) := by simp [power_eq]
  have hlow : power n.log2 ≤ n := by
    rw [hlog]
    exact_mod_cast Nat.log2_self_le hn0
  have hhigh : n < power (n.log2 + 1 : Nat) := by
    rw [hlog]
    exact_mod_cast Nat.lt_log2_self
  have hdlow : power a.den.log2 ≤ a.den := by
    rw [hlog]
    exact_mod_cast Nat.log2_self_le a.den_nz
  have hdhigh : a.den < power (a.den.log2 + 1 : Nat) := by
    rw [hlog]
    exact_mod_cast Nat.lt_log2_self
  let e : Int := n.log2 - a.den.log2
  have hbelow : power (e - 1) < a := by
    refine lt_of_mul_lt_mul_right ?_ hden.le
    calc power (e - 1) * a.den < power (e - 1) * power (a.den.log2 + 1 : Nat) :=
          mul_lt_mul_of_pos_left hdhigh (power_pos _)
      _ = power n.log2 := by rw [← power_add]; congr 1; omega
      _ ≤ a * a.den := ha ▸ hlow
  have habove : a < power (e + 1) := by
    refine lt_of_mul_lt_mul_right ?_ hden.le
    calc a * a.den < power (n.log2 + 1 : Nat) := ha ▸ hhigh
      _ = power (e + 1) * power a.den.log2 := by rw [← power_add]; congr 1; omega
      _ ≤ power (e + 1) * a.den := mul_le_mul_of_nonneg_left hdlow (power_pos _).le
  have he : exponent a = if power e ≤ a then e else e - 1 := by
    simp only [exponent, hn]
    rfl
  rw [he]
  split
  case isTrue hle => exact ⟨hle, habove⟩
  case isFalse hlt => exact ⟨hbelow.le, by rw [sub_add_cancel]; exact not_le.mp hlt⟩

theorem exponent_mono {a b : Rat} (ha : 0 < a) (h : a ≤ b) : exponent a ≤ exponent b := by
  have hlt := power_lt_iff.mp
    (((exponent_bounds ha).1.trans h).trans_lt (exponent_bounds (ha.trans_le h)).2)
  omega

section Nearest

theorem nearest_cases (q : Rat) : nearest q = ⌊q⌋ ∨ nearest q = ⌊q⌋ + 1 := by
  simp only [nearest]
  split
  case isTrue => exact .inl rfl
  case isFalse => exact .inr rfl

theorem nearest_intCast (z : Int) : nearest z = z := by
  have hfloor : (z : Rat).floor = z := (Int.floor_intCast z : ⌊(z : Rat)⌋ = z)
  simp [nearest, hfloor]

theorem nearest_mono {q r : Rat} (h : q ≤ r) : nearest q ≤ nearest r := by
  obtain hlt | heq := (Int.floor_le_floor h).lt_or_eq
  · obtain hq | hq := nearest_cases q <;> obtain hr | hr := nearest_cases r <;> omega
  · have hfloor : q.floor = r.floor := heq
    simp only [nearest, hfloor]
    split
    case isTrue hdown => split <;> omega
    case isFalse hup =>
      rw [if_neg]
      obtain ⟨hge, hodd⟩ := not_or.mp hup
      rintro (hless | ⟨hhalf, heven⟩)
      · exact hge (by linarith)
      · refine hodd ⟨?_, heven⟩
        linarith [not_lt.mp hge]

end Nearest

section Positive

variable {a b : Rat}

theorem grain_mono (ha : 0 < a) (h : a ≤ b) : grain a ≤ grain b :=
  max_le_max_right (-1074) (Int.sub_le_sub_right (exponent_mono ha h) 52)

theorem rounded_nonneg (ha : 0 < a) : 0 ≤ rounded a := by
  have hpos : ((0 : Int) : Rat) ≤ a / power (grain a) := by
    simpa using (div_pos ha (power_pos _)).le
  have hnearest : 0 ≤ nearest (a / power (grain a)) := by
    simpa only [nearest_intCast] using nearest_mono hpos
  exact mul_nonneg (by exact_mod_cast hnearest) (power_pos _).le

/-- Rounding does not take a number across a multiple of its grain. -/
theorem rounded_le {z : Int} (h : a ≤ z * power (grain a)) : rounded a ≤ z * power (grain a) := by
  have hdiv : a / power (grain a) ≤ z := (div_le_iff₀ (power_pos _)).mpr h
  have hnearest := nearest_mono hdiv
  rw [nearest_intCast] at hnearest
  exact mul_le_mul_of_nonneg_right (by exact_mod_cast hnearest) (power_pos _).le

theorem le_rounded {z : Int} (h : z * power (grain a) ≤ a) : z * power (grain a) ≤ rounded a := by
  have hdiv : z ≤ a / power (grain a) := (le_div_iff₀ (power_pos _)).mpr h
  have hnearest := nearest_mono hdiv
  rw [nearest_intCast] at hnearest
  exact mul_le_mul_of_nonneg_right (by exact_mod_cast hnearest) (power_pos _).le

/-- Two numbers of different grains have a power of two between them. -/
theorem rounded_mono (ha : 0 < a) (h : a ≤ b) : rounded a ≤ rounded b := by
  obtain hlt | heq := (grain_mono ha h).lt_or_eq
  · have hb := ha.trans_le h
    have hexponent : grain b = exponent b - 52 ∧ exponent a + 1 ≤ exponent b ∧
        grain a ≤ exponent b ∧ grain b ≤ exponent b := by
      unfold grain at hlt ⊢
      omega
    obtain ⟨-, hexp, hka, hkb⟩ := hexponent
    obtain ⟨z, hz⟩ := power_multiple hka
    obtain ⟨z', hz'⟩ := power_multiple hkb
    have hbelow : a ≤ power (exponent b) := ((exponent_bounds ha).2.trans_le (power_le hexp)).le
    calc rounded a ≤ z * power (grain a) := rounded_le (hz ▸ hbelow)
      _ = z' * power (grain b) := hz.symm.trans hz'
      _ ≤ rounded b := le_rounded (hz' ▸ (exponent_bounds hb).1)
  · unfold rounded
    rw [heq]
    have hdiv : a / power (grain b) ≤ b / power (grain b) :=
      div_le_div_of_nonneg_right h (power_pos _).le
    exact mul_le_mul_of_nonneg_right (by exact_mod_cast nearest_mono hdiv) (power_pos _).le

theorem rounded_multiple {z : Int} (h : a = z * power (grain a)) : rounded a = a := by
  have hle := rounded_le h.le
  have hge := le_rounded h.ge
  rw [← h] at hle hge
  exact le_antisymm hle hge

theorem grain_le {k : Int} (ha : 0 < a) (hk : -1074 ≤ k) (h : a < power (k + 53)) :
    grain a ≤ k := by
  have hexponent := power_lt_iff.mp ((exponent_bounds ha).1.trans_lt h)
  unfold grain
  omega

/-- What a double can hold is not rounded. -/
theorem rounded_eq {z k : Int} (ha : 0 < a) (h : a = z * power k) (hz : z ≤ 2 ^ 53)
    (hk : -1074 ≤ k) : rounded a = a := by
  have hpower : power (k + 53) = 2 ^ 53 * power k := by
    rw [add_comm, power_add]
    rfl
  obtain hlt | rfl := hz.lt_or_eq
  · have hbelow : a < power (k + 53) := by
      rw [h, hpower]
      exact mul_lt_mul_of_pos_right (by exact_mod_cast hlt) (power_pos _)
    obtain ⟨m, hm⟩ := power_multiple (grain_le ha hk hbelow)
    refine rounded_multiple (z := z * m) (h.trans ?_)
    rw [hm]
    push_cast
    ring
  · have heq : a = power (k + 53) := by
      rw [h, hpower]
      norm_num
    have hbelow : a < power (k + 1 + 53) := heq ▸ power_lt_iff.mpr (by omega)
    have hgrain := grain_le ha (by omega) hbelow
    obtain ⟨m, hm⟩ := power_multiple (show grain a ≤ k + 53 by omega)
    exact rounded_multiple (heq.trans hm)

/-- Rounding keeps 53 binary digits. -/
theorem rounded_form (ha : 0 < a) :
    ∃ z : Int, rounded a = z * power (grain a) ∧ z ≤ 2 ^ 53 ∧ -1074 ≤ grain a := by
  refine ⟨nearest (a / power (grain a)), rfl, ?_, le_max_right _ _⟩
  have hbelow : a < power (53 + grain a) := by
    refine (exponent_bounds ha).2.trans_le (power_le ?_)
    unfold grain
    omega
  have hdiv : a / power (grain a) ≤ ((2 ^ 53 : Int) : Rat) := by
    refine (div_le_iff₀ (power_pos _)).mpr ?_
    rw [power_add] at hbelow
    exact hbelow.le
  have hnearest := nearest_mono hdiv
  rwa [nearest_intCast] at hnearest

theorem rounded_rounded (ha : 0 < a) : rounded (rounded a) = rounded a ∨ rounded a = 0 := by
  obtain hpos | hzero := (rounded_nonneg ha).lt_or_eq
  · obtain ⟨z, hz, hle, hgrain⟩ := rounded_form ha
    exact .inl (rounded_eq hpos hz hle hgrain)
  · exact .inr hzero.symm

end Positive

section Rounding

variable {q r : Rat} {d e : Double}

theorem toDouble_of_pos (h : 0 < q) : toDouble q =
    if power 1024 ≤ rounded q then .infinite false else .finite (rounded q) := by
  have hneg : ¬ q < 0 := not_lt.mpr h.le
  simp only [toDouble, if_neg h.ne', if_neg hneg, decide_eq_false hneg]
  rfl

theorem toDouble_of_neg (h : q < 0) : toDouble q = neg (toDouble (-q)) := by
  rw [toDouble_of_pos (neg_pos.mpr h)]
  simp only [toDouble, if_neg h.ne, if_pos h, decide_eq_true h]
  rw [apply_ite neg]
  rfl

theorem neg_neg_double (d : Double) : neg (neg d) = d := by
  cases d <;> simp [neg]

theorem toDouble_neg (q : Rat) : toDouble (-q) = neg (toDouble q) := by
  obtain hq | rfl | hq := lt_trichotomy q 0
  · rw [toDouble_of_neg hq, neg_neg_double]
  · rfl
  · rw [toDouble_of_neg (neg_neg_of_pos hq), neg_neg]

@[simp] theorem toDouble_zero : toDouble 0 = .finite 0 := rfl

def Exact : Double → Prop
  | .finite v => toDouble v = .finite v
  | _ => True

theorem exact_neg (h : Exact d) : Exact (neg d) := by
  cases d with
  | finite v =>
    change toDouble (-v) = .finite (-v)
    rw [toDouble_neg, show toDouble v = .finite v from h]
    rfl
  | _ => trivial

theorem exact_of_pos (h : 0 < q) : Exact (toDouble q) := by
  rw [toDouble_of_pos h]
  split
  case isTrue => trivial
  case isFalse hsmall =>
    obtain hsame | hzero := rounded_rounded h
    · obtain hpos | hzero := (rounded_nonneg h).lt_or_eq
      · change toDouble _ = _
        rw [toDouble_of_pos hpos, hsame, if_neg hsmall]
      · rw [← hzero]
        rfl
    · rw [hzero]
      rfl

theorem exact_toDouble (q : Rat) : Exact (toDouble q) := by
  obtain hq | rfl | hq := lt_trichotomy q 0
  · rw [toDouble_of_neg hq]
    exact exact_neg (exact_of_pos (neg_pos.mpr hq))
  · rfl
  · exact exact_of_pos hq

theorem le_refl_of (h : d ≠ .nan) : le d d = true := by
  cases d with
  | nan => exact absurd rfl h
  | infinite s => cases s <;> rfl
  | finite v => simp [le]

theorem le_trans_double {f : Double} (h : le d e = true) (h' : le e f = true) : le d f = true := by
  cases d <;> cases e <;> cases f <;> grind [le]

theorem least_le (h : d ≠ .nan) : le (.infinite true) d = true := by
  cases d with
  | nan => exact absurd rfl h
  | _ => rfl

theorem le_greatest (h : d ≠ .nan) : le d (.infinite false) = true := by
  cases d with
  | nan => exact absurd rfl h
  | infinite s => simp [le]
  | finite v => rfl

theorem le_total_double (h : d ≠ .nan) (h' : e ≠ .nan) : le d e = true ∨ le e d = true := by
  cases d <;> cases e <;> grind [le]

theorem le_antisymm_double (h : le d e = true) (h' : le e d = true) : d = e := by
  cases d <;> cases e <;> grind [le]

theorem le_neg (d e : Double) : le (neg d) (neg e) = le e d := by
  cases d <;> cases e <;> simp [le, neg, Bool.or_comm]

theorem toDouble_nonneg (h : 0 ≤ q) : le (.finite 0) (toDouble q) = true := by
  obtain hpos | rfl := h.lt_or_eq
  · rw [toDouble_of_pos hpos]
    split
    case isTrue => rfl
    case isFalse => exact decide_eq_true (rounded_nonneg hpos)
  · rfl

theorem toDouble_mono_pos (hq : 0 < q) (h : q ≤ r) : le (toDouble q) (toDouble r) = true := by
  have hrounded := rounded_mono hq h
  rw [toDouble_of_pos hq, toDouble_of_pos (hq.trans_le h)]
  split
  case isTrue hlarge => rw [if_pos (hlarge.trans hrounded)]; rfl
  case isFalse =>
    split
    case isTrue => rfl
    case isFalse => exact decide_eq_true hrounded

theorem toDouble_mono (h : q ≤ r) : le (toDouble q) (toDouble r) = true := by
  obtain hq | hq := lt_or_ge 0 q
  · exact toDouble_mono_pos hq h
  · have hqneg : le (toDouble q) (.finite 0) = true := by
      obtain hlt | rfl := hq.lt_or_eq
      · rw [toDouble_of_neg hlt, ← le_neg, neg_neg_double]
        exact toDouble_nonneg (neg_nonneg.mpr hq)
      · rfl
    obtain hr | hr := lt_or_ge r 0
    · rw [toDouble_of_neg hr, toDouble_of_neg (h.trans_lt hr), le_neg]
      exact toDouble_mono_pos (neg_pos.mpr hr) (neg_le_neg h)
    · exact le_trans_double hqneg (toDouble_nonneg hr)

theorem toDouble_ne_nan (q : Rat) : toDouble q ≠ .nan := by
  intro h
  have := toDouble_mono (le_refl q)
  rw [h] at this
  cases this

theorem exact_pos_int {z : Int} (hpos : 0 < z) (h : z ≤ 2 ^ 53) : toDouble z = .finite z := by
  have hz : (0 : Rat) < z := Int.cast_pos.mpr hpos
  have hsmall : (z : Rat) < power 1024 :=
    calc (z : Rat) ≤ ((2 ^ 53 : Int) : Rat) := Int.cast_le.mpr h
      _ = power 53 := by rw [power_eq]; norm_num
      _ < power 1024 := power_lt_iff.mpr (by decide)
  have hrounded := rounded_eq hz (k := 0) (by simp [power_eq]) h (by decide)
  rw [toDouble_of_pos hz, hrounded, if_neg (not_le.mpr hsmall)]

/-- Whole numbers of up to 53 binary digits are exact. -/
theorem exact_int {z : Int} (h : |z| ≤ 2 ^ 53) : toDouble z = .finite z := by
  obtain ⟨hlow, hhigh⟩ := abs_le.mp h
  obtain hz | rfl | hz := lt_trichotomy z 0
  · have hpos := exact_pos_int (neg_pos.mpr hz) (by omega)
    rw [toDouble_of_neg (Int.cast_lt_zero.mpr hz), ← Int.cast_neg, hpos]
    simp [neg]
  · rfl
  · exact exact_pos_int hz hhigh

/-- The values of doubles are multiples of the least one. -/
theorem exact_multiple {v : Rat} (h : Exact (.finite v)) : ∃ z : Int, v = z * power (-1074) := by
  have hpos {a : Rat} (ha : 0 < a) (h : Exact (.finite a)) : ∃ z : Int, a = z * power (-1074) := by
    have hsame : toDouble a = .finite a := h
    rw [toDouble_of_pos ha] at hsame
    split at hsame
    · cases hsame
    · obtain ⟨z, hz, -, hgrain⟩ := rounded_form ha
      obtain ⟨m, hm⟩ := power_multiple hgrain
      refine ⟨z * m, ?_⟩
      rw [Double.finite.injEq] at hsame
      rw [← hsame, hz, hm]
      push_cast
      ring
  obtain hv | rfl | hv := lt_trichotomy v 0
  · obtain ⟨z, hz⟩ := hpos (neg_pos.mpr hv) (exact_neg h)
    exact ⟨-z, by push_cast; linarith⟩
  · exact ⟨0, by simp⟩
  · exact hpos hv h

/-- Between two doubles is at least the least positive one. -/
theorem exact_gap {v w : Rat} (hv : Exact (.finite v)) (hw : Exact (.finite w)) (h : v < w) :
    v + power (-1074) ≤ w := by
  obtain ⟨z, rfl⟩ := exact_multiple hv
  obtain ⟨z', rfl⟩ := exact_multiple hw
  have hlt : (z : Rat) < z' := lt_of_mul_lt_mul_right h (power_pos _).le
  have hle : (z : Rat) + 1 ≤ z' := by exact_mod_cast hlt
  calc z * power (-1074) + power (-1074) = (z + 1) * power (-1074) := by ring
    _ ≤ z' * power (-1074) := mul_le_mul_of_nonneg_right hle (power_pos _).le

end Rounding

section Addition

variable {d e f : Double}

theorem exact_add (d e : Double) : Exact (add d e) := by
  cases d <;> cases e <;> first | trivial | exact exact_toDouble _ | skip
  simp only [add]
  split <;> trivial

theorem add_mono (h : le d e = true) (hd : add d f ≠ .nan) (he : add e f ≠ .nan) :
    le (add d f) (add e f) = true := by
  cases d <;> cases e <;> cases f <;> first | exact absurd rfl hd | exact absurd rfl he | skip
  case finite.finite.finite a b c =>
    exact toDouble_mono (add_le_add_left (of_decide_eq_true h) c)
  all_goals grind [add, le, least_le, le_greatest]

theorem le_add (hd : Exact d) (h : le (.finite 0) e = true) (hn : add d e ≠ .nan) :
    le d (add d e) = true := by
  cases d <;> cases e <;> first | exact absurd rfl hn | skip
  case finite.finite a b =>
    have hle : a ≤ a + b := le_add_of_nonneg_right (of_decide_eq_true h)
    have hmono := toDouble_mono hle
    rw [show toDouble a = .finite a from hd] at hmono
    exact hmono
  all_goals grind [add, le, least_le, le_greatest]

theorem add_neg (d e : Double) : add (neg d) (neg e) = neg (add d e) := by
  cases d <;> cases e <;> try rfl
  case finite.finite a b =>
    change toDouble (-a + -b) = neg (toDouble (a + b))
    rw [← toDouble_neg, neg_add]
  case infinite.infinite s s' =>
    cases s <;> cases s' <;> rfl

theorem add_le (hd : Exact d) (h : le e (.finite 0) = true) (hn : add d e ≠ .nan) :
    le (add d e) d = true := by
  have hzero : neg (.finite 0) = .finite 0 := rfl
  rw [← le_neg, ← add_neg]
  refine le_add (exact_neg hd) ?_ ?_
  · rw [← hzero, le_neg]
    exact h
  · rw [add_neg]
    intro hnan
    refine hn ?_
    rw [← neg_neg_double (add d e), hnan]
    rfl

theorem add_ne_nan {a : Rat} (h : d ≠ .nan) : add (.finite a) d ≠ .nan := by
  cases d with
  | nan => exact absurd rfl h
  | infinite s => simp [add]
  | finite b => exact toDouble_ne_nan _

end Addition

section Multiplication

variable {d e : Double}

theorem mul_ne_nan {b : Rat} (hb : 0 < b) (h : d ≠ .nan) : mul d (.finite b) ≠ .nan := by
  cases d with
  | nan => exact absurd rfl h
  | infinite s => simp [mul, hb.ne']
  | finite a => exact toDouble_ne_nan _

theorem le_mul {b : Rat} (hb : 0 < b) (h : le (.finite 0) d = true) :
    le (.finite 0) (mul d (.finite b)) = true := by
  cases d with
  | nan => cases h
  | infinite s => simpa [mul, hb.ne', hb.not_gt, le] using h
  | finite a => exact toDouble_nonneg (mul_nonneg (of_decide_eq_true h) hb.le)

end Multiplication

section Minimum

variable {c d e : Double}

theorem le_minimum (hd : le c d = true) (he : le c e = true) (hn : d ≠ .nan) (hn' : e ≠ .nan) :
    le c (minimum d e) = true := by
  unfold minimum
  split
  case isTrue => exact hd
  case isFalse hnot => rwa [if_pos ((le_total_double hn hn').resolve_left hnot)]

theorem minimum_le (hn : d ≠ .nan) (hn' : e ≠ .nan) : le (minimum d e) d = true := by
  unfold minimum
  split
  case isTrue => exact le_refl_of hn
  case isFalse hnot =>
    have hle := (le_total_double hn hn').resolve_left hnot
    rwa [if_pos hle]

theorem finite_of_le {a b : Rat} (h : le (.finite a) d = true) (h' : le d (.finite b) = true) :
    ∃ v, d = .finite v ∧ a ≤ v := by
  cases d with
  | nan => cases h
  | infinite s => cases s <;> simp [le] at h h'
  | finite v => exact ⟨v, rfl, of_decide_eq_true h⟩

theorem le_mathRound {z : Int} {a : Rat} (h : z ≤ a) : z ≤ mathRound a := by
  refine Rat.le_floor_iff.mpr ?_
  linarith

end Minimum

end WhatsappTester.Atomic.Floating
