import Mathlib.Algebra.Order.Field.Power
import Mathlib.Data.Rat.Floor
import Mathlib.Tactic.Linarith
import Mathlib.Tactic.LinearCombination
import Mathlib.Tactic.Positivity
import Mathlib.Tactic.Ring
import PeerTags.Binary64
/-! Rounding, told by what it comes to. A rounded number is in the format, none of the format is
nearer to the exact one, and of two that are equally near it is the even one. Nothing else is
used of rounding to show that a product with a factor below one, rounded after its other
factor was, stays below that factor as it was before it was rounded. -/
namespace PeerTags.Binary64

/-- The number that sign, mantissa and exponent stand for. -/
def rational (negative : Bool) (mantissa : Nat) (exponent : Int) : ℚ :=
  if negative then -(mantissa * 2 ^ exponent) else mantissa * 2 ^ exponent

def toRat? : Binary64 → Option ℚ
  | finite negative mantissa exponent => some (rational negative mantissa exponent)
  | _ => none

/-- At most 53 bits, and none below `2^-1074`. There is no greatest one: rounding comes before the test for what
is too large. -/
def InFormat (x : ℚ) : Prop := ∃ (m : ℕ) (e : ℤ), m < 2 ^ 53 ∧ -1074 ≤ e ∧ |x| = m * 2 ^ e

/-- Rounding to the nearest number of the format. Two that are equally near are neighbours, and the even one is
an even multiple of their distance. -/
structure Rounds (x r : ℚ) : Prop where
  inFormat : InFormat r
  nearest : ∀ f, InFormat f → |x - r| ≤ |x - f|
  even : ∀ f, InFormat f → |x - f| = |x - r| → f ≠ r → ∃ k : ℤ, r = 2 * k * (r - f)

theorem InFormat.neg {x : ℚ} (h : InFormat x) : InFormat (-x) := by
  rwa [InFormat, abs_neg]

theorem inFormat_zero : InFormat 0 := ⟨0, 0, by norm_num, by norm_num, by norm_num⟩

/-- The greatest mantissa and one more is a power of two. -/
theorem inFormat_of_le {m : ℕ} (small : m ≤ 2 ^ 53) {e : ℤ} (least : -1074 ≤ e) : InFormat (m * 2 ^ e) := by
  have nonneg : (0 : ℚ) ≤ m * 2 ^ e := by positivity
  rw [InFormat, abs_of_nonneg nonneg]
  obtain less | rfl := Nat.lt_or_eq_of_le small
  · exact ⟨m, e, less, least, rfl⟩
  · refine ⟨2 ^ 52, e + 1, by norm_num, by omega, ?_⟩
    rw [zpow_add₀ two_ne_zero]
    push_cast
    ring

theorem inFormat_rational {negative : Bool} {m : ℕ} (small : m < 2 ^ 53) {e : ℤ} (least : -1074 ≤ e) :
    InFormat (rational negative m e) := by
  unfold rational
  split
  · exact (inFormat_of_le (Nat.le_of_lt small) least).neg
  · exact inFormat_of_le (Nat.le_of_lt small) least

theorem inFormat_two_pow (n : ℕ) : InFormat (2 ^ n) := by
  have h := inFormat_of_le (m := 1) (by norm_num) (show -1074 ≤ (n : ℤ) by omega)
  simpa using h

/-! What follows from being nearest. -/

namespace Rounds

variable {x r f : ℚ}

theorem refl (h : InFormat x) : Rounds x x where
  inFormat := h
  nearest := by
    intro f _
    rw [sub_self, abs_zero]
    exact abs_nonneg _
  even := by
    intro f _ near other
    rw [sub_self, abs_zero, abs_eq_zero, sub_eq_zero] at near
    exact absurd near.symm other

theorem neg (h : Rounds x r) : Rounds (-x) (-r) := by
  have mirror (f : ℚ) : |-x - f| = |x - -f| := by
    rw [← abs_neg, neg_sub, sub_neg_eq_add, sub_neg_eq_add, add_comm]
  refine ⟨h.inFormat.neg, fun f member => ?_, fun f member near other => ?_⟩
  · rw [mirror, mirror, neg_neg]
    exact h.nearest (-f) member.neg
  · rw [mirror, mirror, neg_neg] at near
    obtain ⟨k, equal⟩ := h.even (-f) member.neg near fun same => other (by rw [← same, neg_neg])
    exact ⟨k, by linear_combination -equal⟩

/-- Rounding does not pass a number of the format. -/
theorem le_of_le (h : Rounds x r) (member : InFormat f) (below : x ≤ f) : r ≤ f := by
  by_contra above
  have near := h.nearest f member
  rw [abs_of_nonpos (by linarith), abs_of_nonpos (by linarith)] at near
  linarith

theorem ge_of_ge (h : Rounds x r) (member : InFormat f) (above : f ≤ x) : f ≤ r := by
  by_contra below
  have near := h.nearest f member
  rw [abs_of_nonneg (by linarith), abs_of_nonneg (by linarith)] at near
  linarith

/-- A number is rounded in one way only: of two equally near ones, both cannot be even multiples of their distance. -/
theorem eq_iff (h : Rounds x r) : Rounds x f ↔ f = r := by
  constructor
  · intro h'
    by_contra other
    have near : |x - f| = |x - r| := le_antisymm (h'.nearest r h.inFormat) (h.nearest f h'.inFormat)
    obtain ⟨k, equal⟩ := h.even f h'.inFormat near other
    obtain ⟨k', equal'⟩ := h'.even r h.inFormat near.symm (Ne.symm other)
    have distance : (1 - 2 * (k + k') : ℚ) * (r - f) = 0 := by linear_combination equal - equal'
    obtain odd | same := mul_eq_zero.mp distance
    · have parity : 1 - 2 * (k + k') = 0 := by exact_mod_cast odd
      omega
    · exact other (sub_eq_zero.mp same).symm
  · rintro rfl
    exact h

end Rounds

/-! Rounding to a multiple. -/

theorem nearest_error {n d : ℕ} (positive : 0 < d) : 2 * |(n : ℤ) - nearest n d * d| ≤ d ∧
    (2 * |(n : ℤ) - nearest n d * d| = d → (nearest n d : ℤ) % 2 = 0) := by
  have split : (n : ℤ) = d * (n / d : ℕ) + (n % d : ℕ) := by exact_mod_cast (Nat.div_add_mod n d).symm
  have small := Nat.mod_lt n positive
  have down : (n : ℤ) - (n / d : ℕ) * d = (n % d : ℕ) := by linear_combination split
  have up : (n : ℤ) - (n / d + 1 : ℕ) * d = (n % d : ℕ) - d := by
    push_cast at split ⊢
    linear_combination split
  unfold nearest
  simp only
  split
  · rw [down, abs_of_nonneg (by omega)]
    omega
  · split
    · rw [up, abs_of_nonpos (by omega)]
      omega
    · split
      · rw [down, abs_of_nonneg (by omega)]
        omega
      · rw [up, abs_of_nonpos (by omega)]
        omega

theorem nearest_le (n d : ℕ) : nearest n d ≤ n / d + 1 := by
  unfold nearest
  simp only
  split
  · omega
  · split
    · omega
    · split <;> omega

/-- A multiple of a unit that is at most half a unit away is the nearest multiple, and if another is equally
near then their distance is the unit. -/
theorem nearest_multiple {x u : ℚ} {q j : ℤ} (positive : 0 < u) (error : 2 * |x - q * u| ≤ u)
    (even : 2 * |x - q * u| = u → q % 2 = 0) : |x - q * u| ≤ |x - j * u| ∧
      (|x - j * u| = |x - q * u| → j * u ≠ q * u → ∃ k : ℤ, q * u = 2 * k * (q * u - j * u)) := by
  obtain rfl | other := eq_or_ne j q
  · exact ⟨le_refl _, fun _ differ => absurd rfl differ⟩
  have apart : u ≤ |(q * u - j * u : ℚ)| := by
    have one : (1 : ℚ) ≤ |(q - j : ℚ)| := by exact_mod_cast Int.one_le_abs (sub_ne_zero.mpr other.symm)
    rw [← sub_mul, abs_mul, abs_of_pos positive]
    nlinarith
  have detour : |(q * u - j * u : ℚ)| ≤ |x - j * u| + |x - q * u| := by
    have triangle := abs_sub_le (q * u) x (j * u)
    rw [abs_sub_comm (q * u) x] at triangle
    linarith
  refine ⟨by linarith, fun near _ => ?_⟩
  -- both are half a unit away, so they are neighbours and the parity of one is known
  have half : 2 * |x - q * u| = u := by linarith
  have step : |(q * u - j * u : ℚ)| = u := by linarith
  obtain ⟨k, twice⟩ := Int.dvd_of_emod_eq_zero (even half)
  subst twice
  push_cast at step ⊢
  obtain up | down := abs_choice ((2 * k * u - j * u : ℚ))
  · exact ⟨k, by rw [← up, step]⟩
  · refine ⟨-k, ?_⟩
    have equal : (2 * k * u - j * u : ℚ) = -u := by linarith
    rw [equal]
    push_cast
    ring

/-! Rounding a magnitude. -/

theorem two_zpow_pos (e : ℤ) : (0 : ℚ) < 2 ^ e := zpow_pos two_pos e

theorem two_zpow_log2_le {m : ℕ} (nonzero : m ≠ 0) (e : ℤ) : (2 : ℚ) ^ (e + Nat.log2 m) ≤ m * 2 ^ e := by
  have bound : (2 : ℚ) ^ Nat.log2 m ≤ m := by exact_mod_cast Nat.log2_self_le nonzero
  rw [zpow_add₀ two_ne_zero, zpow_natCast, mul_comm]
  exact mul_le_mul_of_nonneg_right bound (two_zpow_pos e).le

theorem lt_two_zpow_log2 (m : ℕ) (e : ℤ) : m * (2 : ℚ) ^ e < 2 ^ (e + Nat.log2 m + 1) := by
  have bound : (m : ℚ) < 2 ^ (Nat.log2 m + 1) := by exact_mod_cast Nat.lt_log2_self
  rw [add_assoc, zpow_add₀ two_ne_zero, mul_comm]
  apply mul_lt_mul_of_pos_left _ (two_zpow_pos e)
  exact_mod_cast bound

/-- A number of the format is a multiple of every unit that is not above its own. -/
theorem multiple_of_le {x : ℚ} {m : ℕ} {e l : ℤ} (value : |x| = m * 2 ^ e) (below : l ≤ e) :
    ∃ j : ℤ, x = j * 2 ^ l := by
  have scaled : (2 : ℚ) ^ e = (2 ^ (e - l).toNat : ℕ) * 2 ^ l := by
    push_cast
    rw [← zpow_natCast, ← zpow_add₀ two_ne_zero]
    congr 1
    omega
  obtain positive | negative := abs_choice x
  · refine ⟨(m * 2 ^ (e - l).toNat : ℕ), ?_⟩
    rw [← positive, value, scaled]
    push_cast
    ring
  · refine ⟨-(m * 2 ^ (e - l).toNat : ℕ), ?_⟩
    rw [← neg_neg x, ← negative, value, scaled]
    push_cast
    ring

/-- The nearest multiple of a unit is the rounded number if the unit is the least of all or leaves 53 bits. -/
theorem rounds_multiple {x : ℚ} {q : ℕ} {l : ℤ} (small : q ≤ 2 ^ 53) (least : -1074 ≤ l)
    (enough : l = -1074 ∨ 2 ^ (l + 52) ≤ x) (error : 2 * |x - q * 2 ^ l| ≤ 2 ^ l)
    (even : 2 * |x - q * 2 ^ l| = 2 ^ l → (q : ℤ) % 2 = 0) : Rounds x (q * 2 ^ l) := by
  have multiple (j : ℤ) := nearest_multiple (j := j) (q := q) (two_zpow_pos l) error even
  have cases (f : ℚ) (member : InFormat f) : (∃ j : ℤ, f = j * 2 ^ l) ∨ |x - q * 2 ^ l| < |x - f| := by
    obtain ⟨m, e, bits, bottom, value⟩ := member
    by_cases below : l ≤ e
    · exact .inl (multiple_of_le value below)
    · -- a number with a finer unit lies below the power of two that is one of the multiples
      right
      have large : 2 ^ (l + 52) ≤ x := enough.resolve_left (by omega)
      have coarse : |f| < 2 ^ (l + 52) := by
        have bound : (m : ℚ) < 2 ^ 53 := by exact_mod_cast bits
        calc |f| = m * 2 ^ e := value
          _ < 2 ^ 53 * 2 ^ e := mul_lt_mul_of_pos_right bound (two_zpow_pos e)
          _ = 2 ^ (e + 53) := by rw [zpow_add₀ two_ne_zero, mul_comm]; norm_cast
          _ ≤ 2 ^ (l + 52) := zpow_le_zpow_right₀ one_le_two (by omega)
      have power : (2 : ℚ) ^ (l + 52) = (2 ^ 52 : ℤ) * 2 ^ l := by
        rw [zpow_add₀ two_ne_zero, mul_comm]
        norm_cast
      have near := (multiple (2 ^ 52)).1
      rw [← power, abs_of_nonneg (a := x - 2 ^ (l + 52)) (by linarith)] at near
      have within := (abs_lt.mp coarse).2
      calc |x - q * 2 ^ l| ≤ x - 2 ^ (l + 52) := near
        _ < x - f := by linarith
        _ ≤ |x - f| := le_abs_self _
  refine ⟨inFormat_of_le small least, fun f member => ?_, fun f member near other => ?_⟩
  · obtain ⟨j, rfl⟩ | farther := cases f member
    · exact (multiple j).1
    · exact farther.le
  · obtain ⟨j, rfl⟩ | farther := cases f member
    · exact (multiple j).2 near other
    · exact absurd near farther.ne'

/-- The magnitude is rounded, and then tested for its size. -/
theorem exists_rounds (m : ℕ) (e : ℤ) : ∃ (n : ℕ) (f : ℤ), Rounds (m * 2 ^ e) (n * 2 ^ f) ∧
    ∀ negative, round negative m e =
      if n ≠ 0 ∧ 1024 ≤ f + (Nat.log2 n : ℤ) then infinite negative else finite negative n f := by
  let least : ℤ := max (e + (Nat.log2 m : ℤ) - 52) (-1074)
  have bits : m < 2 ^ (Nat.log2 m + 1) := Nat.lt_log2_self
  by_cases exactly : least ≤ e
  · refine ⟨m, e, .refl (inFormat_of_le (Nat.le_of_lt ?_) (by omega)), fun negative => ?_⟩
    · exact bits.trans_le (Nat.pow_le_pow_right two_pos (by omega))
    · rw [round, if_pos exactly]
  · let d := 2 ^ (least - e).toNat
    have positive : 0 < d := Nat.two_pow_pos _
    have unit : (2 : ℚ) ^ least = d * 2 ^ e := by
      simp only [d]
      push_cast
      rw [← zpow_natCast, ← zpow_add₀ two_ne_zero]
      congr 1
      omega
    have scaled : 2 * |(m * 2 ^ e : ℚ) - nearest m d * 2 ^ least| = (2 * |(m : ℤ) - nearest m d * d| : ℤ) * 2 ^ e := by
      have difference : (m * 2 ^ e : ℚ) - nearest m d * 2 ^ least = ((m : ℤ) - nearest m d * d : ℤ) * 2 ^ e := by
        rw [unit]
        push_cast
        ring
      rw [difference, abs_mul, abs_of_pos (two_zpow_pos e)]
      push_cast
      ring
    obtain ⟨error, even⟩ := nearest_error (n := m) positive
    refine ⟨nearest m d, least, rounds_multiple ?_ (by omega) ?_ ?_ ?_, fun negative => ?_⟩
    · have quotient : m / d < 2 ^ 53 := by
        apply Nat.div_lt_of_lt_mul
        calc m < 2 ^ (Nat.log2 m + 1) := bits
          _ ≤ 2 ^ ((least - e).toNat + 53) := Nat.pow_le_pow_right two_pos (by omega)
          _ = d * 2 ^ 53 := Nat.pow_add 2 _ 53
      exact (nearest_le m d).trans quotient
    · obtain bottom | normal : least = -1074 ∨ least = e + (Nat.log2 m : ℤ) - 52 := by omega
      · exact .inl bottom
      · have nonzero : m ≠ 0 := by
          rintro rfl
          have none : Nat.log2 0 = 0 := by decide
          omega
        right
        rw [normal, sub_add_cancel]
        exact two_zpow_log2_le nonzero e
    · rw [scaled, unit]
      apply mul_le_mul_of_nonneg_right _ (two_zpow_pos e).le
      exact_mod_cast error
    · intro half
      rw [scaled, unit] at half
      apply even
      exact_mod_cast mul_right_cancel₀ (two_zpow_pos e).ne' half
    · rw [round, if_neg exactly]
      rfl

/-- What is rounded stays finite if it is below the first power of two that is too large. -/
theorem round_eq_finite {negative : Bool} {m : ℕ} {e : ℤ} {n : ℕ} (bounded : |rational negative m e| ≤ 2 ^ n)
    (small : n < 1024) : ∃ (m' : ℕ) (e' : ℤ), round negative m e = finite negative m' e' ∧
      Rounds (rational negative m e) (rational negative m' e') ∧ |rational negative m' e'| ≤ 2 ^ n := by
  have magnitude (m : ℕ) (e : ℤ) : |rational negative m e| = m * 2 ^ e := by
    have nonneg : (0 : ℚ) ≤ m * 2 ^ e := mul_nonneg m.cast_nonneg (two_zpow_pos e).le
    cases negative with
    | false => exact abs_of_nonneg nonneg
    | true => rw [rational, if_pos rfl, abs_neg, abs_of_nonneg nonneg]
  obtain ⟨m', e', rounds, equal⟩ := exists_rounds m e
  rw [magnitude] at bounded
  have bounded' : m' * (2 : ℚ) ^ e' ≤ 2 ^ n := rounds.le_of_le (inFormat_two_pow n) bounded
  refine ⟨m', e', ?_, ?_, ?_⟩
  · rw [equal, if_neg]
    rintro ⟨nonzero, large⟩
    have power : (2 : ℚ) ^ (1024 : ℤ) ≤ 2 ^ (n : ℤ) :=
      calc (2 : ℚ) ^ (1024 : ℤ) ≤ 2 ^ (e' + (Nat.log2 m' : ℤ)) := zpow_le_zpow_right₀ one_le_two large
        _ ≤ m' * 2 ^ e' := two_zpow_log2_le nonzero e'
        _ ≤ 2 ^ (n : ℤ) := by rwa [zpow_natCast]
    have := (zpow_le_zpow_iff_right₀ (one_lt_two (α := ℚ))).mp power
    omega
  · cases negative with
    | false => exact rounds
    | true => exact rounds.neg
  · rw [magnitude]
    exact bounded'

/-! The operations. -/

theorem rational_mul (s t : Bool) (m n : ℕ) (e f : ℤ) :
    rational (s != t) (m * n) (e + f) = rational s m e * rational t n f := by
  have product : (m * n : ℚ) * 2 ^ (e + f) = m * 2 ^ e * (n * 2 ^ f) := by
    rw [zpow_add₀ two_ne_zero]
    ring
  cases s <;> cases t <;> simp [rational, product]

theorem rational_int (i : ℤ) : rational (decide (i < 0)) i.natAbs 0 = i := by
  have natural : ((i.natAbs : ℕ) : ℚ) = |(i : ℚ)| := by rw [Nat.cast_natAbs, Int.cast_abs]
  rw [rational, zpow_zero, mul_one, natural]
  by_cases negative : i < 0
  · have below : (i : ℚ) < 0 := by exact_mod_cast negative
    rw [if_pos (decide_eq_true negative), abs_of_neg below, neg_neg]
  · have above : (0 : ℚ) ≤ i := by exact_mod_cast not_lt.mp negative
    rw [if_neg (by simpa using negative), abs_of_nonneg above]

theorem inFormat_of_ofBits {bits : UInt64} {c : ℚ} (value : (ofBits bits).toRat? = some c) : InFormat c := by
  have fraction : bits.toNat % Nat.pow 2 52 < 2 ^ 52 := Nat.mod_lt _ (by norm_num)
  unfold ofBits at value
  simp only at value
  split at value
  · split at value <;> cases value
  · split at value
    · cases value
      exact inFormat_rational (fraction.trans (by norm_num)) (by norm_num)
    · cases value
      have carried : Nat.pow 2 52 + bits.toNat % Nat.pow 2 52 < 2 ^ 53 := by
        have doubled : (2 : ℕ) ^ 53 = Nat.pow 2 52 + 2 ^ 52 := by norm_num
        omega
      exact inFormat_rational carried (by omega)

theorem floor_eq (negative : Bool) (m : ℕ) (e : ℤ) : floor negative m e = ⌊rational negative m e⌋ := by
  have signed : rational negative m e = ((if negative then -(m : ℤ) else m : ℤ) : ℚ) * 2 ^ e := by
    cases negative <;> simp [rational]
  rw [signed, floor]
  split
  · rename_i whole
    have power : (2 : ℚ) ^ e = ((Nat.pow 2 e.toNat : ℕ) : ℤ) := by
      obtain ⟨n, rfl⟩ := Int.eq_ofNat_of_zero_le whole
      simp
    rw [power, ← Int.cast_mul, Int.floor_intCast]
  · rename_i fractional
    have power : (2 : ℚ) ^ e = ((Nat.pow 2 (-e).toNat : ℕ) : ℚ)⁻¹ := by
      obtain ⟨n, rfl⟩ : ∃ n : ℕ, e = -n := ⟨(-e).toNat, by omega⟩
      simp
    rw [power, ← div_eq_mul_inv, Rat.floor_intCast_div_natCast]

/-- An amount becomes the number nearest to it. -/
theorem ofInt_eq (v : Amount) : ∃ (s : Bool) (m : ℕ) (e : ℤ), ofInt v.toInt = finite s m e ∧
    Rounds v.toInt (rational s m e) ∧ |rational s m e| ≤ 2 ^ 63 := by
  have bounded : |rational (decide (v.toInt < 0)) v.toInt.natAbs 0| ≤ 2 ^ 63 := by
    have low := v.least_le
    have high := v.le_greatest
    have magnitude : |v.toInt| ≤ 2 ^ 63 := abs_le.mpr ⟨by omega, by omega⟩
    rw [rational_int]
    exact_mod_cast magnitude
  obtain ⟨m, e, equal, rounds, still⟩ := round_eq_finite bounded (by norm_num)
  rw [rational_int] at rounds
  exact ⟨_, m, e, equal, rounds, still⟩

/-- An amount times a finite coefficient of at most one: the amount is rounded, the product is rounded, and
the floor of that is taken. -/
theorem floorAmount_mul (v : Amount) {x : Binary64} {c : ℚ} (value : x.toRat? = some c) (small : |c| ≤ 1) :
    ∃ V P : ℚ, Rounds v.toInt V ∧ Rounds (V * c) P ∧ ((ofInt v.toInt).mul x).floorAmount = Amount.clamp ⌊P⌋ := by
  obtain ⟨s, m, e, equal, rounds, bounded⟩ := ofInt_eq v
  cases x with
  | nan => cases value
  | infinite negative => cases value
  | finite t n f =>
      cases value
      have product : |rational (s != t) (m * n) (e + f)| ≤ 2 ^ 63 := by
        rw [rational_mul, abs_mul]
        exact (mul_le_of_le_one_right (abs_nonneg _) small).trans bounded
      obtain ⟨m', e', equal', rounds', _⟩ := round_eq_finite product (by norm_num)
      rw [rational_mul] at rounds'
      refine ⟨_, _, rounds, rounds', ?_⟩
      rw [equal, mul, equal', floorAmount, floor_eq]

/-! A factor below one. -/

/-- A number of the format below one is not nearer to one than its last bit. -/
theorem InFormat.le_of_lt_one {c : ℚ} (h : InFormat c) (below : c < 1) : c ≤ 1 - 2 ^ (-53 : ℤ) := by
  obtain ⟨m, e, bits, _, value⟩ := h
  obtain fine | coarse := le_or_gt e (-53)
  · have most : (m : ℚ) ≤ 2 ^ 53 - 1 := by
      have least : (m : ℚ) + 1 ≤ 2 ^ 53 := by exact_mod_cast bits
      linarith
    calc c ≤ |c| := le_abs_self c
      _ = m * 2 ^ e := value
      _ ≤ (2 ^ 53 - 1) * 2 ^ (-53 : ℤ) :=
        mul_le_mul most (zpow_le_zpow_right₀ one_le_two fine) (two_zpow_pos e).le (by norm_num)
      _ = 1 - 2 ^ (-53 : ℤ) := by norm_num
  · -- multiples of the unit, and so is one, unless the unit is one or more
    obtain ⟨j, rfl⟩ := multiple_of_le value (show min e 0 ≤ e by omega)
    have unit : (2 : ℚ) ^ (-53 : ℤ) ≤ 2 ^ min e 0 := zpow_le_zpow_right₀ one_le_two (by omega)
    have one : (1 : ℚ) = (2 ^ (-min e 0).toNat : ℤ) * 2 ^ min e 0 := by
      push_cast
      rw [← zpow_natCast, ← zpow_add₀ two_ne_zero]
      rw [show (((-min e 0).toNat : ℕ) : ℤ) + min e 0 = 0 by omega, zpow_zero]
    rw [one, mul_lt_mul_iff_left₀ (two_zpow_pos _)] at below
    have next : (j : ℚ) + 1 ≤ (2 ^ (-min e 0).toNat : ℤ) := by
      have less : j < 2 ^ (-min e 0).toNat := by exact_mod_cast below
      exact_mod_cast Int.add_one_le_of_lt less
    have scaled := mul_le_mul_of_nonneg_right next (two_zpow_pos (min e 0)).le
    rw [← one, add_mul, one_mul] at scaled
    linarith

/-- A number of the format that is one or more, with its first bit in place. -/
theorem InFormat.normal {x : ℚ} (h : InFormat x) (large : 1 ≤ x) :
    ∃ (m : ℕ) (k : ℤ), 2 ^ 52 ≤ m ∧ m < 2 ^ 53 ∧ -52 ≤ k ∧ x = m * 2 ^ k := by
  obtain ⟨m, e, bits, _, value⟩ := h
  rw [abs_of_pos (by linarith)] at value
  have nonzero : m ≠ 0 := by
    rintro rfl
    rw [value] at large
    norm_num at large
  have length : Nat.log2 m ≤ 52 := by
    have := (Nat.log2_lt nonzero).mpr bits
    omega
  have place : 0 < e + (Nat.log2 m : ℤ) + 1 := by
    have power : (2 : ℚ) ^ (0 : ℤ) < 2 ^ (e + (Nat.log2 m : ℤ) + 1) := by
      rw [zpow_zero]
      exact (value ▸ large).trans_lt (lt_two_zpow_log2 m e)
    exact (zpow_lt_zpow_iff_right₀ one_lt_two).mp power
  have shift : (2 : ℕ) ^ Nat.log2 m * 2 ^ (52 - Nat.log2 m) = 2 ^ 52 := by
    rw [← pow_add]
    congr 1
    omega
  refine ⟨m * 2 ^ (52 - Nat.log2 m), e - (52 - Nat.log2 m : ℕ), ?_, ?_, by omega, ?_⟩
  · rw [← shift]
    exact Nat.mul_le_mul_right _ (Nat.log2_self_le nonzero)
  · calc m * 2 ^ (52 - Nat.log2 m) < 2 ^ (Nat.log2 m + 1) * 2 ^ (52 - Nat.log2 m) :=
          Nat.mul_lt_mul_of_pos_right Nat.lt_log2_self (Nat.two_pow_pos _)
      _ = 2 ^ 53 := by rw [pow_succ, mul_right_comm, shift, ← pow_succ]
  · rw [value, zpow_sub₀ two_ne_zero, zpow_natCast]
    push_cast
    rw [mul_div_assoc', mul_right_comm, mul_div_cancel_right₀]
    positivity

/-- A product of two numbers of the format, the one at least one and the other below one, is not rounded up to the
first factor: it is in the format itself, or the neighbour below is nearer. -/
theorem Rounds.mul_lt {V c P : ℚ} (factor : InFormat V) (large : 1 ≤ V) (coefficient : InFormat c)
    (below : c < 1) (rounds : Rounds (V * c) P) : P < V := by
  have smaller : V * c < V := mul_lt_of_lt_one_right (by linarith) below
  have last := coefficient.le_of_lt_one below
  apply lt_of_le_of_ne (rounds.le_of_le factor smaller.le)
  rintro rfl
  obtain ⟨m, k, first, bits, place, rfl⟩ := factor.normal large
  have unit := two_zpow_pos k
  obtain power | more := Nat.eq_or_lt_of_le first
  · -- a power of two only shifts the coefficient
    have itself : InFormat (m * 2 ^ k * c) := by
      obtain ⟨n, e, bits', bottom, value⟩ := coefficient
      refine ⟨n, e + (52 + k), bits', by omega, ?_⟩
      rw [← power, abs_mul, value, zpow_add₀ two_ne_zero, zpow_add₀ two_ne_zero, abs_of_pos (by positivity)]
      push_cast
      ring
    have near := rounds.nearest _ itself
    rw [sub_self, abs_zero, abs_nonpos_iff] at near
    linarith
  · have neighbour : InFormat ((m - 1 : ℕ) * 2 ^ k) := inFormat_of_le (by omega) (by omega)
    have near := rounds.nearest _ neighbour
    have distance : ((m - 1 : ℕ) : ℚ) * 2 ^ k = m * 2 ^ k - 2 ^ k := by
      rw [Nat.cast_sub (by omega)]
      push_cast
      ring
    -- the last bit of the coefficient takes off more than half a unit
    have half : 2 ^ k < 2 * (m * 2 ^ k - m * 2 ^ k * c) := by
      have bound : (2 : ℚ) ^ 52 < m := by exact_mod_cast more
      have gap : (2 : ℚ) ^ (-53 : ℤ) ≤ 1 - c := by linarith
      have tiny : (2 : ℚ) ^ (-53 : ℤ) * 2 ^ 52 * 2 = 1 := by norm_num
      nlinarith
    rw [distance, abs_sub_comm, abs_of_pos (by linarith), le_abs] at near
    obtain above | beneath := near
    · linarith
    · linarith

end PeerTags.Binary64
