import Mathlib.Algebra.Order.Field.Power
import Mathlib.Algebra.Order.Ring.Unbundled.Rat
import Mathlib.Data.Rat.Cast.Order
import Mathlib.Tactic.FieldSimp
import Mathlib.Tactic.Linarith
import Mathlib.Tactic.Positivity
import Mathlib.Tactic.Ring
import TypeShape.Number.Binary

/-!
# Rounding to the nearest binary number

The numbers that are rounded to a binary number lie between the middles towards its neighbours.  A
middle belongs to the number whose significand is even.  The middle below is nearer than the one
above if the significand is the least full one, because the numbers below are denser there.

## Key results

- `Binary.Nearest`: the numbers that are nearest to a binary number
- `Binary.ofFraction_of_nearest`: a fraction is rounded to the number that it is nearest to
- `Binary.canonical_of_ofFraction`: what a fraction is rounded to is in canonical form
-/

namespace TypeShape.Binary

/-! ## Scaled fractions -/

/-- A scaled fraction has a denominator. -/
theorem scaled_snd_pos (num : Nat) {den : Nat} (h : 0 < den) (e : Int) :
    0 < (scaled num den e).2 := by
  cases e with
  | ofNat k => exact Nat.mul_pos h (Nat.pow_pos (by decide))
  | negSucc k => exact h

/-- A scaled fraction counts units of a power of two. -/
theorem scaled_div (num den : Nat) (e : Int) :
    ((scaled num den e).1 : ℚ) / (scaled num den e).2 = num / den / 2 ^ e := by
  cases e with
  | ofNat k =>
    simp only [scaled, Nat.pow_eq, Int.ofNat_eq_natCast, zpow_natCast]
    push_cast
    rw [div_div]
  | negSucc k =>
    simp only [scaled, Nat.pow_eq, zpow_negSucc]
    push_cast
    rw [div_inv_eq_mul, mul_div_right_comm]

/-! ## Rounding to a whole number -/

/-- Rounding keeps whole lower bounds. -/
theorem le_roundDiv {num den k : Nat} (h : k ≤ num / den) : k ≤ roundDiv num den := by
  unfold roundDiv
  dsimp only
  repeat' split
  all_goals omega

/-- Rounding keeps whole upper bounds. -/
theorem roundDiv_le {num den k : Nat} (h : num / den < k) : roundDiv num den ≤ k := by
  unfold roundDiv
  dsimp only
  repeat' split
  all_goals omega

/-- Bounds on a number; whether they may be reached depends on `closed`. -/
def Between (closed : Bool) (lo hi x : ℚ) : Prop :=
  if closed then lo ≤ x ∧ x ≤ hi else lo < x ∧ x < hi

/-- A number between two others is so in the closed sense, too. -/
theorem Between.le {closed : Bool} {lo hi x : ℚ} (h : Between closed lo hi x) :
    lo ≤ x ∧ x ≤ hi := by
  cases closed
  · exact ⟨h.1.le, h.2.le⟩
  · exact h

/-- A number strictly between two others is between them. -/
theorem Between.of_lt {closed : Bool} {lo hi x : ℚ} (hlo : lo < x) (hhi : x < hi) :
    Between closed lo hi x := by
  cases closed
  · exact ⟨hlo, hhi⟩
  · exact ⟨hlo.le, hhi.le⟩

/-- A number between two others is between two that are further apart. -/
theorem Between.mono {closed : Bool} {lo lo' hi hi' x : ℚ} (h : Between closed lo hi x)
    (hlo : lo' ≤ lo) (hhi : hi ≤ hi') : Between closed lo' hi' x := by
  cases closed
  · exact ⟨hlo.trans_lt h.1, h.2.trans_le hhi⟩
  · exact ⟨hlo.trans h.1, h.2.trans hhi⟩

/-- A fraction is within one half of a whole number, in terms of its parts. -/
theorem between_half_iff {num den : Nat} (hden : 0 < den) (s : Nat) (closed : Bool) :
    Between closed (s - 1 / 2) (s + 1 / 2) (num / den) ↔
      if closed then 2 * (s * den) ≤ 2 * num + den ∧ 2 * num ≤ 2 * (s * den) + den
      else 2 * (s * den) < 2 * num + den ∧ 2 * num < 2 * (s * den) + den := by
  have hpos : (0 : ℚ) < den := Nat.cast_pos.2 hden
  simp only [Between, le_div_iff₀ hpos, div_le_iff₀ hpos, lt_div_iff₀ hpos, div_lt_iff₀ hpos,
    ← Nat.cast_le (α := ℚ), ← Nat.cast_lt (α := ℚ)]
  push_cast
  split
  all_goals constructor <;> rintro ⟨hlo, hhi⟩ <;> constructor <;> linarith

/-- A fraction is rounded to the whole number that it is at most one half away from; of two, to
the even one. -/
theorem roundDiv_eq {num den s : Nat} (hden : 0 < den)
    (h : Between (s % 2 = 0) (s - 1 / 2) (s + 1 / 2) (num / den)) : roundDiv num den = s := by
  rw [between_half_iff hden] at h
  have hdiv := Nat.div_add_mod num den
  have hmod := Nat.mod_lt num hden
  unfold roundDiv
  dsimp only
  generalize num / den = q at hdiv ⊢
  generalize num % den = r at hdiv hmod ⊢
  rw [Nat.mul_comm] at hdiv
  -- only the whole numbers around the quotient are close enough
  have hcases : s = q ∨ s = q + 1 := by
    have hclosed : 2 * (s * den) ≤ 2 * num + den ∧ 2 * num ≤ 2 * (s * den) + den := by
      split at h <;> omega
    by_contra hne
    obtain hlt | hlt : s + 1 ≤ q ∨ q + 2 ≤ s := by omega
    · have hle := Nat.mul_le_mul_right den hlt
      rw [Nat.add_mul, Nat.one_mul] at hle
      omega
    · have hle := Nat.mul_le_mul_right den hlt
      rw [Nat.add_mul] at hle
      omega
  -- Both candidates are settled by comparing twice the remainder with the denominator.
  simp only [decide_eq_true_eq] at h
  obtain rfl | rfl := hcases
  · split at h <;> repeat' split
    all_goals omega
  · rw [Nat.add_mul, Nat.one_mul] at h
    split at h <;> repeat' split
    all_goals omega

/-! ## The numbers nearest to a binary number -/

variable {w : Width}

/-- A significand and an exponent in canonical form. -/
structure Canonical (w : Width) (s : Nat) (e : Int) : Prop where
  lt : s < 2 ^ w.precision
  least : w.minExponent ≤ e
  greatest : e ≤ w.maxExponent
  full : 2 ^ (w.precision - 1) ≤ s ∨ e = w.minExponent

/-- How far below a number, in units of its last bit, the middle towards the next number is. -/
def gapBelow (w : Width) (s : Nat) (e : Int) : ℚ :=
  if s = 2 ^ (w.precision - 1) ∧ w.minExponent < e then 1 / 4 else 1 / 2

/-- The numbers that are nearest to `s · 2 ^ e`. -/
def Nearest (w : Width) (s : Nat) (e : Int) (x : ℚ) : Prop :=
  Between (s % 2 = 0) ((s - gapBelow w s e) * 2 ^ e) ((s + 1 / 2) * 2 ^ e) x

/-- The gap below is at most one half. -/
theorem gapBelow_le (w : Width) (s : Nat) (e : Int) : gapBelow w s e ≤ 1 / 2 := by
  unfold gapBelow
  split <;> norm_num

/-- The gap below is at least one quarter. -/
theorem le_gapBelow (w : Width) (s : Nat) (e : Int) : 1 / 4 ≤ gapBelow w s e := by
  unfold gapBelow
  split <;> norm_num

/-- Within one binade, the nearest numbers are at most one half away. -/
theorem Nearest.half {s : Nat} {e : Int} {x : ℚ} (h : Nearest w s e x) :
    Between (s % 2 = 0) (s - 1 / 2) (s + 1 / 2) (x / 2 ^ e) := by
  have hpow : (0 : ℚ) < 2 ^ e := by positivity
  have hgap := gapBelow_le w s e
  have hlo : ((s : ℚ) - 1 / 2) * 2 ^ e ≤ (s - gapBelow w s e) * 2 ^ e :=
    mul_le_mul_of_nonneg_right (by linarith) hpow.le
  have hbetween := Between.mono h hlo le_rfl
  unfold Between at hbetween ⊢
  simpa only [le_div_iff₀ hpow, div_le_iff₀ hpow, lt_div_iff₀ hpow, div_lt_iff₀ hpow] using
    hbetween

/-! ## Rounding a fraction -/

/-- A significand that rounding has carried to the next binade is halved; an exponent that is too
large gives an infinity. -/
def settle (w : Width) (negative : Bool) (s : Nat) (e : Int) : Binary :=
  let (s, e) := if s = Nat.pow 2 w.precision then (Nat.pow 2 (w.precision - 1), e + 1) else (s, e)
  if w.maxExponent < e then .infinite negative else .finite negative s e

/-- A significand with room is taken as it is. -/
theorem settle_of_lt {s : Nat} {e : Int} (negative : Bool) (hs : s < 2 ^ w.precision)
    (he : e ≤ w.maxExponent) : settle w negative s e = .finite negative s e := by
  simp [settle, hs.ne, not_lt.2 he]

/-- A significand that overflows by rounding is carried to the next exponent. -/
theorem settle_carry {e : Int} (negative : Bool) (he : e + 1 ≤ w.maxExponent) :
    settle w negative (2 ^ w.precision) e = .finite negative (2 ^ (w.precision - 1)) (e + 1) := by
  simp [settle, not_lt.2 he]

/-- Both widths are known. -/
theorem precision_cases (w : Width) : w.precision = 24 ∨ w.precision = 53 := by
  cases w
  · exact .inl rfl
  · exact .inr rfl

/-- The leading places of numerator and denominator bound a fraction. -/
theorem zpow_lt_div {b x y : ℚ} {i j : Int} (hb : 0 < b) (hx : b ^ i ≤ x ∧ x < b ^ (i + 1))
    (hy : b ^ j ≤ y ∧ y < b ^ (j + 1)) : b ^ (i - j - 1) < x / y ∧ x / y < b ^ (i - j + 1) := by
  have hypos : 0 < y := (zpow_pos hb j).trans_le hy.1
  -- The quotient is small for a small numerator and a large denominator, and large the other way
  -- round.
  constructor
  · rw [lt_div_iff₀ hypos]
    calc b ^ (i - j - 1) * y < b ^ (i - j - 1) * b ^ (j + 1) :=
          mul_lt_mul_of_pos_left hy.2 (zpow_pos hb _)
      _ = b ^ i := by rw [← zpow_add₀ hb.ne']; congr 1; ring
      _ ≤ x := hx.1
  · rw [div_lt_iff₀ hypos]
    calc x < b ^ (i + 1) := hx.2
      _ = b ^ (i - j + 1) * b ^ j := by rw [← zpow_add₀ hb.ne']; congr 1; ring
      _ ≤ b ^ (i - j + 1) * y := mul_le_mul_of_nonneg_left hy.1 (zpow_pos hb _).le

/-- A number is between the powers of two of its length. -/
theorem zpow_log2_le {n : Nat} (h : 0 < n) :
    (2 : ℚ) ^ (n.log2 : Int) ≤ n ∧ (n : ℚ) < 2 ^ ((n.log2 : Int) + 1) :=
  ⟨by exact_mod_cast Nat.log2_self_le h.ne', by exact_mod_cast Nat.lt_log2_self (n := n)⟩

/-- A scaled fraction is compared with a power of two by comparing the fraction with a scaled one.
-/
theorem scaled_lt_iff (num : Nat) {den : Nat} (hden : 0 < den) (e : Int) (k : Nat) :
    (scaled num den e).1 / (scaled num den e).2 < Nat.pow 2 k ↔
      (num / den : ℚ) < 2 ^ (e + k) := by
  have hd := scaled_snd_pos num hden e
  have hdpos : (0 : ℚ) < (scaled num den e).2 := Nat.cast_pos.2 hd
  have hpow : (0 : ℚ) < 2 ^ e := by positivity
  rw [Nat.div_lt_iff_lt_mul hd, ← Nat.cast_lt (α := ℚ), Nat.cast_mul, ← div_lt_iff₀ hdpos,
    scaled_div, div_lt_iff₀ hpow, zpow_add₀ two_ne_zero, mul_comm, zpow_natCast]
  simp

/-- The exponent of the last bit of a full significand. -/
def lastBit (w : Width) (num den : Nat) : Int :=
  let guess : Int := (num.log2 : Int) - den.log2 - w.precision + 1
  if (scaled num den guess).1 / (scaled num den guess).2 < Nat.pow 2 (w.precision - 1) then
    guess - 1
  else guess

/-- The last bit is chosen so that the significand has as many bits as the width allows. -/
theorem lastBit_bounds (w : Width) {num den : Nat} (hnum : 0 < num) (hden : 0 < den) :
    (2 : ℚ) ^ (lastBit w num den + w.precision - 1) ≤ num / den ∧
      (num / den : ℚ) < 2 ^ (lastBit w num den + w.precision) := by
  obtain ⟨hlo, hhi⟩ := zpow_lt_div two_pos (zpow_log2_le hnum) (zpow_log2_le hden)
  have hp : ((w.precision - 1 : Nat) : Int) = w.precision - 1 := by
    obtain h | h := precision_cases w <;> rw [h] <;> rfl
  -- The estimate by the leading places may be one too high, which the test corrects.
  have hmono : ∀ {a b : Int}, a ≤ b → (2 : ℚ) ^ a ≤ 2 ^ b := fun h =>
    zpow_le_zpow_right₀ one_le_two h
  unfold lastBit
  dsimp only
  split
  · rename_i hbelow
    rw [scaled_lt_iff num hden, hp] at hbelow
    exact ⟨(hmono (by omega)).trans hlo.le, hbelow.trans_le (hmono (by omega))⟩
  · rename_i hbelow
    rw [scaled_lt_iff num hden, hp] at hbelow
    exact ⟨(hmono (by omega)).trans (not_lt.1 hbelow), hhi.trans_le (hmono (by omega))⟩

/-- The significands of a binade are as many as all below it. -/
theorem two_pow_precision (w : Width) : 2 ^ w.precision = 2 * 2 ^ (w.precision - 1) := by
  obtain h | h := precision_cases w <;> rw [h] <;> rfl

/-- A fraction is rounded over the last bit of its binade, or over the least bit there is. -/
theorem ofFraction_eq (w : Width) (negative : Bool) {num den : Nat} (hnum : 0 < num) :
    ofFraction w negative num den =
      settle w negative
        (roundDiv (scaled num den (max (lastBit w num den) w.minExponent)).1
          (scaled num den (max (lastBit w num den) w.minExponent)).2)
        (max (lastBit w num den) w.minExponent) := by
  rw [ofFraction, if_neg hnum.ne']
  rfl

/-- The least number of a binade. -/
theorem two_pow_add_precision (w : Width) (e : Int) :
    (2 : ℚ) ^ (e + w.precision - 1) = 2 ^ (w.precision - 1) * 2 ^ e := by
  rw [← zpow_natCast, ← zpow_add₀ two_ne_zero]
  congr 1
  obtain h | h := precision_cases w <;> rw [h] <;> omega

/-- Only the least full significand is nearest to numbers below its binade, and these are close to
the end of the binade below. -/
theorem Nearest.dip {s : Nat} {e : Int} {x : ℚ} (h : Nearest w s e x) (hc : Canonical w s e)
    (hmin : e ≠ w.minExponent) (hdip : x < 2 ^ (e + w.precision - 1)) :
    s = 2 ^ (w.precision - 1) ∧
      2 ^ w.precision - 1 / 2 ≤ x / 2 ^ (e - 1) ∧ x / 2 ^ (e - 1) < 2 ^ w.precision := by
  have hpow : (0 : ℚ) < 2 ^ e := by positivity
  have hfull := hc.full.resolve_right hmin
  obtain ⟨hge, -⟩ := Between.le h
  rw [two_pow_add_precision] at hdip
  -- Below its binade only the gap counts, which is less than one unit: the significand is the least
  -- one.
  have hs : s = 2 ^ (w.precision - 1) := by
    have hgap := gapBelow_le w s e
    have hlt := lt_of_mul_lt_mul_right (hge.trans_lt hdip) hpow.le
    have hcast : (s : ℚ) < (2 ^ (w.precision - 1) + 1 : Nat) := by
      push_cast
      linarith
    have := Nat.cast_lt.1 hcast
    omega
  have hgap : gapBelow w s e = 1 / 4 := if_pos ⟨hs, lt_of_le_of_ne hc.least (Ne.symm hmin)⟩
  have hhalf : x / 2 ^ (e - 1) = 2 * (x / 2 ^ e) := by
    rw [zpow_sub_one₀ two_ne_zero]
    field_simp
  have hdouble : (2 : ℚ) ^ w.precision = 2 * 2 ^ (w.precision - 1) := by
    exact_mod_cast two_pow_precision w
  rw [hgap, hs, ← le_div_iff₀ hpow] at hge
  rw [← div_lt_iff₀ hpow] at hdip
  push_cast at hge
  rw [hhalf, hdouble]
  exact ⟨hs, by linarith, by linarith⟩

/-- A fraction is rounded to the number that it is nearest to. -/
theorem ofFraction_of_nearest {s : Nat} {e : Int} (hc : Canonical w s e) (negative : Bool)
    {num den : Nat} (hnum : 0 < num) (hden : 0 < den) (h : Nearest w s e (num / den)) :
    ofFraction w negative num den = .finite negative s e := by
  obtain ⟨hlo, hhi⟩ := lastBit_bounds w hnum hden
  rw [ofFraction_eq w negative hnum]
  generalize lastBit w num den = e₁ at hlo hhi ⊢
  have hpow : (0 : ℚ) < 2 ^ e := by positivity
  have hlt : ∀ {a b : Int}, (2 : ℚ) ^ a < 2 ^ b → a < b := fun h =>
    (zpow_lt_zpow_iff_right₀ one_lt_two).1 h
  have hround : ∀ {e' : Int} {n : Nat},
      Between (n % 2 = 0) (n - 1 / 2) (n + 1 / 2) (num / den / 2 ^ e') →
        roundDiv (scaled num den e').1 (scaled num den e').2 = n := fun {e' n} h =>
    roundDiv_eq (scaled_snd_pos num hden e') (by rwa [scaled_div])
  -- The exponent is not above that of the number, as the number's interval ends in its binade.
  have hle₁ : e₁ ≤ e := by
    have hs : (s : ℚ) + 1 ≤ 2 ^ (w.precision : Int) := by exact_mod_cast hc.lt
    have htop : (num / den : ℚ) < 2 ^ (e + w.precision) := by
      rw [zpow_add₀ two_ne_zero, mul_comm]
      exact (Between.le h).2.trans_lt (mul_lt_mul_of_pos_right (by linarith) hpow)
    have := hlt (hlo.trans_lt htop)
    omega
  by_cases hdip : e = w.minExponent ∨ (2 : ℚ) ^ (e + w.precision - 1) ≤ num / den
  · have he : max e₁ w.minExponent = e := by
      obtain hmin | hfull := hdip
      · omega
      · have := hlt (hfull.trans_lt hhi)
        have := hc.least
        omega
    rw [he, hround h.half, settle_of_lt negative hc.lt hc.greatest]
  · -- Just below the least full significand, numbers are rounded in the binade below.
    rw [not_or, not_le] at hdip
    obtain ⟨rfl, hnear⟩ := h.dip hc hdip.1 hdip.2
    have hleast := hc.least
    have hlow : (2 : ℚ) ^ (e - 1 + w.precision - 1) < num / den := by
      have hone : (1 : ℚ) ≤ 2 ^ (w.precision - 1) := one_le_pow₀ one_le_two
      have hdouble : (2 : ℚ) ^ w.precision = 2 * 2 ^ (w.precision - 1) := by
        exact_mod_cast two_pow_precision w
      rw [two_pow_add_precision, ← lt_div_iff₀ (by positivity)]
      linarith [hnear.1]
    have he : max e₁ w.minExponent = e - 1 := by
      have := hlt (hlo.trans_lt hdip.2)
      have := hlt (hlow.trans hhi)
      omega
    have heven : 2 ^ w.precision % 2 = 0 := by
      rw [two_pow_precision]
      exact Nat.mul_mod_right 2 _
    have hcarry : roundDiv (scaled num den (e - 1)).1 (scaled num den (e - 1)).2 =
        2 ^ w.precision := by
      refine hround ?_
      rw [heven]
      push_cast
      exact ⟨hnear.1, by linarith [hnear.2]⟩
    rw [he, hcarry, settle_carry negative (by rw [sub_add_cancel]; exact hc.greatest),
      sub_add_cancel]

/-- What a fraction is rounded to, if not to an infinity, is in canonical form. -/
theorem canonical_of_ofFraction {negative n : Bool} {num den s : Nat} {e : Int} (hnum : 0 < num)
    (hden : 0 < den) (h : ofFraction w negative num den = .finite n s e) :
    Canonical w s e ∧ n = negative := by
  obtain ⟨hlo, hhi⟩ := lastBit_bounds w hnum hden
  rw [ofFraction_eq w negative hnum] at h
  generalize lastBit w num den = e₁ at hlo hhi h
  generalize hm : max e₁ w.minExponent = m at h
  -- The bits chosen leave no more than a full significand.
  have hle : roundDiv (scaled num den m).1 (scaled num den m).2 ≤ 2 ^ w.precision := by
    refine roundDiv_le ((scaled_lt_iff num hden m w.precision).2 (hhi.trans_le ?_))
    exact zpow_le_zpow_right₀ one_le_two (by omega)
  -- rounding keeps the bounds of the binade, the upper one as a carry
  have hfull : 2 ^ (w.precision - 1) ≤ roundDiv (scaled num den m).1 (scaled num den m).2 ∨
      m = w.minExponent := by
    by_cases hmin : m = w.minExponent
    · exact .inr hmin
    · obtain rfl : e₁ = m := by omega
      refine .inl (le_roundDiv (not_lt.1 fun hlt => ?_))
      have := (scaled_lt_iff num hden e₁ (w.precision - 1)).1 hlt
      have hp : ((w.precision - 1 : Nat) : Int) = w.precision - 1 := by
        obtain h | h := precision_cases w <;> rw [h] <;> rfl
      rw [hp, ← add_sub_assoc] at this
      exact absurd this (not_lt.2 hlo)
  generalize roundDiv (scaled num den m).1 (scaled num den m).2 = k at h hle hfull
  have hP := two_pow_precision w
  have hpos : 0 < 2 ^ (w.precision - 1) := Nat.pow_pos (by decide)
  -- A significand that is not full is taken, and a full one is carried; an exponent that is too
  -- large gives an infinity.
  obtain hlt | rfl := lt_or_eq_of_le hle
  · by_cases hmax : m ≤ w.maxExponent
    · rw [settle_of_lt negative hlt hmax] at h
      cases h
      exact ⟨⟨hlt, by omega, hmax, hfull⟩, rfl⟩
    · simp [settle, hlt.ne, not_le.1 hmax] at h
  · by_cases hmax : m + 1 ≤ w.maxExponent
    · rw [settle_carry negative hmax] at h
      cases h
      exact ⟨⟨by omega, by omega, hmax, .inl le_rfl⟩, rfl⟩
    · simp [settle, not_le.1 hmax] at h

/-- A whole number that is nearest to a number of units that are no larger than one is this
number. -/
theorem Nearest.eq_of_natCast {s k : Nat} {e : Int} (h : Nearest w s e k) (he : e ≤ 0) :
    (s : ℚ) * 2 ^ e = k := by
  obtain ⟨j, rfl⟩ : ∃ j : Nat, e = -(j : Int) := ⟨e.natAbs, by omega⟩
  have hpow : (0 : ℚ) < 2 ^ (-(j : Int)) := by positivity
  have hscaled : (k : ℚ) / 2 ^ (-(j : Int)) = (k * 2 ^ j : Nat) := by
    rw [zpow_neg, zpow_natCast, div_inv_eq_mul]
    push_cast
    rfl
  have hhalf := Between.le h.half
  rw [hscaled] at hhalf
  -- The scaled number is whole and within one half of the significand, so it is the significand.
  have hs : k * 2 ^ j = s := by
    have hlo : ((s : ℚ) < (k * 2 ^ j + 1 : Nat)) := by
      push_cast at hhalf ⊢
      linarith [hhalf.1]
    have hhi : (((k * 2 ^ j : Nat) : ℚ) < (s + 1 : Nat)) := by
      push_cast at hhalf ⊢
      linarith [hhalf.2]
    have := Nat.cast_lt.1 hlo
    have := Nat.cast_lt.1 hhi
    omega
  rw [← hs, ← hscaled, div_mul_cancel₀ _ hpow.ne']

end TypeShape.Binary
