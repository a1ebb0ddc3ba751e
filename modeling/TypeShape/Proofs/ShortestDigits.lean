import TypeShape.Number.Shortest
import TypeShape.Proofs.NearestBinary
import TypeShape.Proofs.Spelling

/-!
# The shortest digits stand for the number

The digits of a binary number are looked for on grids of more and more digits, until a point of the
grid is nearest to the number.  On a grid of eighteen digits there always is one, so the search
comes to an end and the digits it finds are rounded to the number again.

## Key results

- `Binary.decimalExponent_bounds`: the first decimal place of a fraction
- `Binary.onGrid?_eq_some`, `Binary.isSome_onGrid?`: when a grid has a point that is nearest
- `Binary.shortest_spec`: the shortest digits of a number are nearest to it
-/

namespace TypeShape.Binary

/-! ## Decimal places -/

/-- The first place of a numeral. -/
theorem pow_length_ofNat {n : Nat} (h : 0 < n) : 0 < (Text.ofNat n).length ∧
    10 ^ ((Text.ofNat n).length - 1) ≤ n ∧ n < 10 ^ (Text.ofNat n).length := by
  have hten : 1 < 10 := by decide
  rw [Text.ofNat, List.length_map]
  have hpos : 0 < (Nat.toDigits 10 n).length := Nat.length_toDigits_pos
  refine ⟨hpos, ?_, (Nat.length_toDigits_le_iff hten hpos).1 le_rfl⟩
  -- A numeral of one digit is a digit; a longer one is not below the power of its places but one.
  by_cases hone : (Nat.toDigits 10 n).length = 1
  · rw [hone]
    exact h
  · refine not_lt.1 fun hn => ?_
    have := (Nat.length_toDigits_le_iff (k := (Nat.toDigits 10 n).length - 1) hten (by omega)).2 hn
    omega

/-- A number lies between the powers of ten for its digits. -/
theorem zpow_length_ofNat {n : Nat} (h : 0 < n) :
    (10 : ℚ) ^ (((Text.ofNat n).length : Int) - 1) ≤ n ∧
      (n : ℚ) < 10 ^ ((Text.ofNat n).length : Int) := by
  obtain ⟨hpos, hlo, hhi⟩ := pow_length_ofNat h
  refine ⟨?_, by exact_mod_cast hhi⟩
  have hexp : ((Text.ofNat n).length : Int) - 1 = ((Text.ofNat n).length - 1 : Nat) := by omega
  rw [hexp, zpow_natCast]
  exact_mod_cast hlo

/-- A fraction over a power of ten keeps its denominator positive. -/
theorem overTen_snd_pos (num : Nat) {den : Nat} (h : 0 < den) (k : Int) :
    0 < (overTen num den k).2 := by
  cases k with
  | ofNat k => exact Nat.mul_pos h (Nat.pow_pos (by decide))
  | negSucc k => exact h

/-- A fraction over a power of ten, as a rational number. -/
theorem overTen_div (num den : Nat) (k : Int) :
    ((overTen num den k).1 : ℚ) / (overTen num den k).2 = num / den / 10 ^ k := by
  cases k with
  | ofNat k =>
    simp only [overTen, Nat.pow_eq, Int.ofNat_eq_natCast, zpow_natCast]
    push_cast
    rw [div_div]
  | negSucc k =>
    simp only [overTen, Nat.pow_eq, zpow_negSucc]
    push_cast
    rw [div_inv_eq_mul, mul_div_right_comm]

/-- The exponent is guessed from the number of digits, and corrected by one if the guess is too
high. -/
theorem decimalExponent_eq (num den : Nat) : decimalExponent num den =
    let guess : Int := ((Text.ofNat num).length : Int) - (Text.ofNat den).length
    if (overTen num den guess).1 < (overTen num den guess).2 then guess - 1 else guess := by
  simp only [decimalExponent, Text.ofNat, List.length_map]
  cases ((Nat.toDigits 10 num).length : Int) - (Nat.toDigits 10 den).length <;>
    simp only [overTen, decide_eq_true_eq] <;> congr

/-- A fraction over a power of ten is below one exactly if the fraction is below the power. -/
theorem overTen_lt_iff (num : Nat) {den : Nat} (hden : 0 < den) (k : Int) :
    (overTen num den k).1 < (overTen num den k).2 ↔ (num / den : ℚ) < 10 ^ k := by
  have hd : (0 : ℚ) < (overTen num den k).2 := Nat.cast_pos.2 (overTen_snd_pos num hden k)
  have hpow : (0 : ℚ) < 10 ^ k := by positivity
  rw [← Nat.cast_lt (α := ℚ), ← div_lt_one hd, overTen_div, div_lt_one hpow]

/-- The decimal exponent of a fraction is its first place. -/
theorem decimalExponent_bounds {num den : Nat} (hnum : 0 < num) (hden : 0 < den) :
    (10 : ℚ) ^ decimalExponent num den ≤ num / den ∧
      (num / den : ℚ) < 10 ^ (decimalExponent num den + 1) := by
  have hplaces : ∀ {n : Nat}, 0 < n → (10 : ℚ) ^ (((Text.ofNat n).length : Int) - 1) ≤ n ∧
      (n : ℚ) < 10 ^ (((Text.ofNat n).length : Int) - 1 + 1) := fun hn => by
    rw [sub_add_cancel]
    exact zpow_length_ofNat hn
  -- Both numbers have their first places, so the quotient has the difference or one less.
  obtain ⟨hlo, hhi⟩ := zpow_lt_div (by norm_num) (hplaces hnum) (hplaces hden)
  rw [sub_sub_sub_cancel_right] at hlo hhi
  rw [decimalExponent_eq]
  dsimp only
  split
  · rename_i hbelow
    rw [overTen_lt_iff num hden] at hbelow
    exact ⟨hlo.le, by rwa [sub_add_cancel]⟩
  · rename_i hbelow
    rw [overTen_lt_iff num hden] at hbelow
    exact ⟨not_lt.1 hbelow, hhi⟩

/-! ## Grids -/

/-- A point of a grid lies between two bounds. -/
theorem overTen_between_iff (lo v hi : Nat) {den : Nat} (hden : 0 < den) (closed : Bool)
    (step : Int) (c : Nat) :
    (if closed then
        decide ((overTen lo den step).1 ≤ c * (overTen v den step).2) &&
          decide (c * (overTen v den step).2 ≤ (overTen hi den step).1)
      else
        decide ((overTen lo den step).1 < c * (overTen v den step).2) &&
          decide (c * (overTen v den step).2 < (overTen hi den step).1)) = true ↔
      Between closed (lo / den) (hi / den) (c * 10 ^ step) := by
  -- All the quotients are over one denominator, which only the step decides.
  have hden' : ∀ x, (overTen v den step).2 = (overTen x den step).2 := fun x => by
    cases step <;> rfl
  have hd : (0 : ℚ) < (overTen v den step).2 := Nat.cast_pos.2 (overTen_snd_pos v hden step)
  have hpow : (0 : ℚ) < 10 ^ step := by positivity
  have hdiv : ∀ x, ((overTen x den step).1 : ℚ) / (overTen v den step).2 = x / den / 10 ^ step :=
    fun x => by rw [hden' x, overTen_div]
  have hle : ∀ x, (overTen x den step).1 ≤ c * (overTen v den step).2 ↔
      (x / den : ℚ) ≤ c * 10 ^ step := fun x => by
    rw [← Nat.cast_le (α := ℚ), Nat.cast_mul, ← div_le_iff₀ hd, hdiv, div_le_iff₀ hpow]
  have hge : ∀ x, c * (overTen v den step).2 ≤ (overTen x den step).1 ↔
      c * 10 ^ step ≤ (x / den : ℚ) := fun x => by
    rw [← Nat.cast_le (α := ℚ), Nat.cast_mul, ← le_div_iff₀ hd, hdiv, le_div_iff₀ hpow]
  cases closed
  · simp [Between, ← not_le, hle, hge]
  · simp [Between, hle, hge]

/-- The point of a grid that is not above a number. -/
theorem floor_bounds (v : Nat) {den : Nat} (hden : 0 < den) (step : Int) :
    (((overTen v den step).1 / (overTen v den step).2 : Nat) : ℚ) * 10 ^ step ≤ v / den ∧
      (v / den : ℚ) < ((((overTen v den step).1 / (overTen v den step).2 : Nat) : ℚ) + 1) *
        10 ^ step := by
  have hnat := overTen_snd_pos v hden step
  have hd : (0 : ℚ) < (overTen v den step).2 := Nat.cast_pos.2 hnat
  have hpow : (0 : ℚ) < 10 ^ step := by positivity
  rw [← le_div_iff₀ hpow, ← div_lt_iff₀ hpow, ← overTen_div, le_div_iff₀ hd, div_lt_iff₀ hd]
  have hlt := Nat.lt_mul_div_succ (overTen v den step).1 hnat
  rw [Nat.mul_comm] at hlt
  exact ⟨by exact_mod_cast Nat.div_mul_le_self _ _, by exact_mod_cast hlt⟩

/-- What is found on a grid lies between the bounds, and is one of the two points around the
number. -/
theorem onGrid?_eq_some {lo v hi den : Nat} (hden : 0 < den) {closed : Bool} {k : Int} {n c : Nat}
    (h : onGrid? lo v hi den closed k n = some c) : 0 < c ∧
      Between closed (lo / den) (hi / den) (c * 10 ^ (k - n + 1)) ∧
      ∃ t : Nat, (t : ℚ) * 10 ^ (k - n + 1) ≤ v / den ∧
        (v / den : ℚ) < (t + 1) * 10 ^ (k - n + 1) ∧ (c = t ∨ c = t + 1) := by
  obtain ⟨hle, hlt⟩ := floor_bounds v hden (k - n + 1)
  have hfits := overTen_between_iff lo v hi hden closed (k - n + 1)
  unfold onGrid? at h
  dsimp only at h
  -- The point below the number is a quotient, and the other candidate is the next point.
  generalize (overTen v den (k - n + 1)).1 / (overTen v den (k - n + 1)).2 = t at h hle hlt
  suffices hc : 0 < c ∧ Between closed (lo / den) (hi / den) (c * 10 ^ (k - n + 1)) ∧
      (c = t ∨ c = t + 1) from ⟨hc.1, hc.2.1, t, hle, hlt, hc.2.2⟩
  split at h
  · rename_i hlow hhigh
    rw [Bool.and_eq_true, decide_eq_true_eq, hfits] at hlow
    rw [hfits] at hhigh
    have hc : c = t ∨ c = t + 1 := by
      rw [← Option.some.inj h]
      repeat' split
      all_goals simp
    obtain rfl | rfl := hc
    · exact ⟨hlow.2, hlow.1, .inl rfl⟩
    · exact ⟨Nat.succ_pos t, hhigh, .inr rfl⟩
  · rename_i hlow _
    rw [Bool.and_eq_true, decide_eq_true_eq, hfits] at hlow
    obtain rfl := Option.some.inj h
    exact ⟨hlow.2, hlow.1, .inl rfl⟩
  · rename_i _ hhigh
    rw [hfits] at hhigh
    obtain rfl := Option.some.inj h
    exact ⟨Nat.succ_pos t, hhigh, .inr rfl⟩
  · cases h

/-- Something is found on a grid if the point that is not above the number is a positive one
between the bounds. -/
theorem isSome_onGrid? {lo v hi den : Nat} (hden : 0 < den) {closed : Bool} {k : Int} {n t : Nat}
    (ht : 0 < t) (hle : (t : ℚ) * 10 ^ (k - n + 1) ≤ v / den)
    (hlt : (v / den : ℚ) < (t + 1) * 10 ^ (k - n + 1))
    (hbetween : Between closed (lo / den) (hi / den) (t * 10 ^ (k - n + 1))) :
    (onGrid? lo v hi den closed k n).isSome := by
  obtain ⟨hle', hlt'⟩ := floor_bounds v hden (k - n + 1)
  have hfits := overTen_between_iff lo v hi hden closed (k - n + 1) t
  have hpow : (0 : ℚ) < 10 ^ (k - n + 1) := by positivity
  unfold onGrid?
  dsimp only
  generalize (overTen v den (k - n + 1)).1 / (overTen v den (k - n + 1)).2 = u at hle' hlt' ⊢
  -- Two points with the number between each and its next one are the same point.
  obtain rfl : t = u := by
    have h₁ : (t : ℚ) < (u + 1 : Nat) := by
      push_cast
      exact lt_of_mul_lt_mul_right (hle.trans_lt hlt') hpow.le
    have h₂ : (u : ℚ) < (t + 1 : Nat) := by
      push_cast
      exact lt_of_mul_lt_mul_right (hle'.trans_lt hlt) hpow.le
    have := Nat.cast_lt.1 h₁
    have := Nat.cast_lt.1 h₂
    omega
  rw [hfits.2 hbetween, decide_eq_true ht]
  split <;> simp_all

/-- The search ends at the first grid on which something is found. -/
theorem firstOnGrid_eq {lo v hi den : Nat} {closed : Bool} {k : Int} {fuel n m : Nat} (hn : n ≤ m)
    (hm : m < n + fuel) (h : (onGrid? lo v hi den closed k m).isSome) :
    ∃ c i, firstOnGrid lo v hi den closed k fuel n = (c, i) ∧ n ≤ i ∧ i ≤ m ∧
      onGrid? lo v hi den closed k i = some c := by
  -- By induction on the fuel.
  induction fuel generalizing n with
  | zero => omega
  | succ fuel ih =>
    rw [firstOnGrid]
    cases hfound : onGrid? lo v hi den closed k n with
    | some c => exact ⟨c, n, rfl, le_rfl, hn, hfound⟩
    | none =>
      have hne : n ≠ m := by
        rintro rfl
        rw [hfound] at h
        cases h
      obtain ⟨c, i, heq, hi, him, hfound⟩ := ih (n := n + 1) (by omega) (by omega)
      exact ⟨c, i, heq, by omega, him, hfound⟩

/-- The points around a number whose first place is `k`, on a grid of `n` digits. -/
theorem point_bounds {x : ℚ} {k : Int} {n t : Nat} (hn : 0 < n)
    (hk : (10 : ℚ) ^ k ≤ x ∧ x < 10 ^ (k + 1)) (hle : (t : ℚ) * 10 ^ (k - n + 1) ≤ x)
    (hlt : x < (t + 1) * 10 ^ (k - n + 1)) : 10 ^ (n - 1) ≤ t ∧ t < 10 ^ n := by
  have hten : (10 : ℚ) ≠ 0 := by norm_num
  have hpow : (0 : ℚ) < 10 ^ (k - n + 1) := by positivity
  constructor
  -- The first place of the number is a point of the grid, which has `n` digits.
  · have hstart : (10 : ℚ) ^ k = (10 ^ (n - 1) : Nat) * 10 ^ (k - n + 1) := by
      push_cast
      rw [← zpow_natCast, ← zpow_add₀ hten]
      congr 1
      omega
    have hcast : ((10 ^ (n - 1) : Nat) : ℚ) < (t + 1 : Nat) := by
      refine lt_of_mul_lt_mul_right ?_ hpow.le
      rw [← hstart]
      push_cast
      exact hk.1.trans_lt hlt
    have := Nat.cast_lt.1 hcast
    omega
  -- The next place is a point as well, and it is above the number.
  · have hend : (10 : ℚ) ^ (k + 1) = (10 ^ n : Nat) * 10 ^ (k - n + 1) := by
      push_cast
      rw [← zpow_natCast, ← zpow_add₀ hten]
      congr 1
      ring
    have hcast : (t : ℚ) < (10 ^ n : Nat) := by
      refine lt_of_mul_lt_mul_right ?_ hpow.le
      rw [← hend]
      exact hle.trans_lt hk.2
    exact Nat.cast_lt.1 hcast

/-- If a grid is fine enough to have a point between the bounds, the search finds one, and on no
later grid than one that has the number itself. -/
theorem firstOnGrid_spec {lo v hi den fuel : Nat} {closed : Bool} {k : Int} (hden : 0 < den)
    (hk : (10 : ℚ) ^ k ≤ v / den ∧ (v / den : ℚ) < 10 ^ (k + 1)) (fine : Nat) (hfine : 0 < fine)
    (hfuel : fine ≤ fuel)
    (hbetween : ∀ t : Nat, (t : ℚ) * 10 ^ (k - fine + 1) ≤ v / den →
      (v / den : ℚ) < (t + 1) * 10 ^ (k - fine + 1) →
        Between closed (lo / den) (hi / den) (t * 10 ^ (k - fine + 1))) :
    ∃ c n, firstOnGrid lo v hi den closed k fuel 1 = (c, n) ∧ 0 < n ∧
      (10 ^ (n - 1) ≤ c ∧ c ≤ 10 ^ n) ∧
      Between closed (lo / den) (hi / den) (c * 10 ^ (k - n + 1)) ∧
      (Between closed (lo / den) (hi / den) (v / den) → ∀ m t : Nat, 0 < m → m ≤ fuel →
        (v / den : ℚ) = t * 10 ^ (k - m + 1) → n ≤ m) := by
  have hsearch : ∀ {m t : Nat}, 0 < m → m ≤ fuel → (t : ℚ) * 10 ^ (k - m + 1) ≤ v / den →
      (v / den : ℚ) < (t + 1) * 10 ^ (k - m + 1) →
        Between closed (lo / den) (hi / den) (t * 10 ^ (k - m + 1)) →
          ∃ c n, firstOnGrid lo v hi den closed k fuel 1 = (c, n) ∧ 1 ≤ n ∧ n ≤ m ∧
            onGrid? lo v hi den closed k n = some c := fun hm hmfuel hle hlt hb =>
    firstOnGrid_eq hm (by omega) (isSome_onGrid? hden
      ((Nat.pow_pos (by decide)).trans_le (point_bounds hm hk hle hlt).1) hle hlt hb)
  obtain ⟨hle, hlt⟩ := floor_bounds v hden (k - fine + 1)
  obtain ⟨c, n, hfirst, hn, -, hfound⟩ := hsearch hfine hfuel hle hlt (hbetween _ hle hlt)
  obtain ⟨-, hpoint, t, hle, hlt, hc⟩ := onGrid?_eq_some hden hfound
  have ht := point_bounds hn hk hle hlt
  refine ⟨c, n, hfirst, hn, by omega, hpoint, fun hself m u hm hmfuel heq => ?_⟩
  -- a grid that has the number itself ends the search as well
  have hpow : (0 : ℚ) < 10 ^ (k - m + 1) := by positivity
  rw [heq] at hself
  obtain ⟨c', n', hfirst', -, hle', -⟩ := hsearch hm hmfuel heq.ge (by rw [heq]; linarith) hself
  rw [hfirst] at hfirst'
  cases hfirst'
  exact hle'

/-! ## Digits -/

/-- What digits stand for. -/
def Digits.amount (d : Digits) : ℚ :=
  d.value * 10 ^ (d.exponent + 1 - (Text.ofNat d.value).length)

/-- Dropping zeros at the end leaves a number that is not zero, and as many powers of ten. -/
theorem dropZeros_spec (fuel : Nat) {n : Nat} (h : 0 < n) :
    0 < dropZeros fuel n ∧ ∃ z, n = dropZeros fuel n * 10 ^ z := by
  -- By induction on the bound; each zero that is dropped is a power of ten.
  induction fuel generalizing n with
  | zero => exact ⟨h, 0, by simp [dropZeros]⟩
  | succ fuel ih =>
    rw [dropZeros]
    split
    · rename_i hzero
      simp only [Bool.and_eq_true, decide_eq_true_eq] at hzero
      obtain ⟨hpos, z, hz⟩ := ih (n := n / 10) (by omega)
      refine ⟨hpos, z + 1, ?_⟩
      have hn : n = n / 10 * 10 := by omega
      rw [Nat.pow_succ, ← Nat.mul_assoc, ← hz]
      exact hn
    · exact ⟨h, 0, by simp⟩

/-- The digits that stand for a point of a grid of `n` digits. -/
theorem amount_of_point {c n : Nat} {k : Int} (hn : 0 < n) (hlo : 10 ^ (n - 1) ≤ c)
    (hhi : c ≤ 10 ^ n) {d : Digits}
    (hd : d = if c = 10 ^ n then ⟨1, k + 1⟩ else ⟨dropZeros n c, k⟩) :
    0 < d.value ∧ d.amount = c * 10 ^ (k - n + 1) ∧
      ((Text.ofNat d.value).length : Int) ≤ d.exponent - k + n := by
  have hten : (10 : ℚ) ≠ 0 := by norm_num
  have hpos : 0 < c := (Nat.pow_pos (by decide)).trans_le hlo
  -- Digits that were rounded up to a power of ten are the one digit of the next place.
  split at hd
  · rename_i hc
    have hone : (Text.ofNat 1).length = 1 := by decide
    subst hd hc
    refine ⟨Nat.one_pos, ?_, by rw [hone]; dsimp only; omega⟩
    rw [Digits.amount, hone]
    push_cast
    rw [← zpow_natCast, ← zpow_add₀ hten, one_mul]
    congr 1
    ring
  · rename_i hc
    subst hd
    obtain ⟨hvalue, z, hz⟩ := dropZeros_spec n hpos
    dsimp only
    generalize dropZeros n c = m at hz hvalue
    have hlength : (Text.ofNat m).length + z = n := by
      obtain ⟨hl, hmlo, hmhi⟩ := pow_length_ofNat hvalue
      have hlt : c < 10 ^ n := lt_of_le_of_ne hhi hc
      rw [hz] at hlo hlt
      have h₁ : 10 ^ ((Text.ofNat m).length - 1 + z) < 10 ^ n := by
        rw [Nat.pow_add]
        exact (Nat.mul_le_mul_right _ hmlo).trans_lt hlt
      have h₂ : 10 ^ (n - 1) < 10 ^ ((Text.ofNat m).length + z) := by
        rw [Nat.pow_add]
        exact hlo.trans_lt (Nat.mul_lt_mul_of_pos_right hmhi (Nat.pow_pos (by decide)))
      have := (Nat.pow_lt_pow_iff_right (by decide)).1 h₁
      have := (Nat.pow_lt_pow_iff_right (by decide)).1 h₂
      omega
    refine ⟨hvalue, ?_, by omega⟩
    rw [Digits.amount, hz, ← hlength]
    dsimp only
    push_cast
    rw [← zpow_natCast, mul_assoc, ← zpow_add₀ hten]
    congr 2
    ring

/-! ## The shortest digits -/

/-- A power of two as a fraction has a positive denominator. -/
theorem dyadic_snd_pos (x : Nat) (e : Int) : 0 < (dyadic x e).2 := by
  cases e with
  | ofNat k => exact Nat.one_pos
  | negSucc k => exact Nat.pow_pos (by decide)

/-- A number times a power of two, as a rational number. -/
theorem dyadic_div (x y : Nat) (e : Int) :
    ((dyadic x e).1 : ℚ) / (dyadic y e).2 = x * 2 ^ e := by
  cases e with
  | ofNat k =>
    simp only [dyadic, Nat.pow_eq, Int.ofNat_eq_natCast, zpow_natCast]
    push_cast
    rw [div_one]
  | negSucc k =>
    simp only [dyadic, Nat.pow_eq, zpow_negSucc]
    push_cast
    rw [div_eq_mul_inv]

variable {w : Width}

/-- The number itself and the middles around it, as fractions of one denominator. -/
theorem shortest_fractions (w : Width) {s : Nat} (hs : 0 < s) (e : Int) :
    ((dyadic (4 * s) (e - 2)).1 : ℚ) / (dyadic (4 * s) (e - 2)).2 = s * 2 ^ e ∧
    ((dyadic (4 * s - if (s = Nat.pow 2 (w.precision - 1) && w.minExponent < e) then 1 else 2)
        (e - 2)).1 : ℚ) / (dyadic (4 * s) (e - 2)).2 = (s - gapBelow w s e) * 2 ^ e ∧
    ((dyadic (4 * s + 2) (e - 2)).1 : ℚ) / (dyadic (4 * s) (e - 2)).2 = (s + 1 / 2) * 2 ^ e := by
  have hquarter : (2 : ℚ) ^ e = 4 * 2 ^ (e - 2) := by
    rw [zpow_sub₀ two_ne_zero]
    ring
  rw [dyadic_div, dyadic_div, dyadic_div, hquarter]
  refine ⟨by push_cast; ring, ?_, by push_cast; ring⟩
  -- The gap below is half as wide where the mantissa is the least of its size.
  have hgap : ((4 * s - if (s = Nat.pow 2 (w.precision - 1) && w.minExponent < e) then 1 else 2 :
      Nat) : ℚ) = 4 * (s - gapBelow w s e) := by
    simp only [gapBelow, Nat.pow_eq, Bool.and_eq_true, decide_eq_true_eq]
    split
    all_goals
      rw [Nat.cast_sub (by omega)]
      push_cast
      ring
  rw [hgap]
  ring

/-- A number is nearest to itself. -/
theorem nearest_self (w : Width) (s : Nat) (e : Int) : Nearest w s e (s * 2 ^ e) := by
  have hpow : (0 : ℚ) < 2 ^ e := by positivity
  have hgap := le_gapBelow w s e
  exact .of_lt (mul_lt_mul_of_pos_right (by linarith) hpow)
    (mul_lt_mul_of_pos_right (by linarith) hpow)

/-- On a grid of eighteen digits, the point below a number is nearest to it. -/
theorem nearest_fine {s t : Nat} {e k : Int} (hlt : s < 2 ^ w.precision)
    (hk : (10 : ℚ) ^ k ≤ s * 2 ^ e) (hle : (t : ℚ) * 10 ^ (k - 17) ≤ s * 2 ^ e)
    (ht : (s * 2 ^ e : ℚ) < (t + 1) * 10 ^ (k - 17)) : Nearest w s e (t * 10 ^ (k - 17)) := by
  have hpow : (0 : ℚ) < 2 ^ e := by positivity
  have hgap := le_gapBelow w s e
  -- The bound is that of the wider format, which serves for both.
  have hs : (s : ℚ) ≤ 2 ^ 53 := by
    have hle : 2 ^ w.precision ≤ 2 ^ 53 := by
      obtain h | h := precision_cases w
      · rw [h]
        decide
      · rw [h]
    exact_mod_cast hlt.le.trans hle
  have hstep : (10 : ℚ) ^ (k - 17) ≤ 1 / 4 * 2 ^ e := by
    rw [zpow_sub₀ (by norm_num), div_le_iff₀ (by positivity)]
    calc (10 : ℚ) ^ k ≤ s * 2 ^ e := hk
      _ ≤ 2 ^ 53 * 2 ^ e := mul_le_mul_of_nonneg_right hs hpow.le
      _ ≤ 1 / 4 * 10 ^ (17 : Int) * 2 ^ e :=
          mul_le_mul_of_nonneg_right (by norm_num) hpow.le
      _ = _ := by ring
  refine .of_lt ?_ ?_
  · calc ((s : ℚ) - gapBelow w s e) * 2 ^ e ≤ (s - 1 / 4) * 2 ^ e :=
          mul_le_mul_of_nonneg_right (by linarith) hpow.le
      _ < t * 10 ^ (k - 17) := by linarith
  · exact hle.trans_lt (mul_lt_mul_of_pos_right (by linarith) hpow)

/-- The digits of a number stand for a point of some grid that is nearest to the number.  No grid
before it has the number itself. -/
theorem shortest_eq {s : Nat} {e : Int} (hs : 0 < s) (hlt : s < 2 ^ w.precision) :
    ∃ (k : Int) (n c : Nat), 0 < n ∧
      ((10 : ℚ) ^ k ≤ s * 2 ^ e ∧ (s * 2 ^ e : ℚ) < 10 ^ (k + 1)) ∧
      (10 ^ (n - 1) ≤ c ∧ c ≤ 10 ^ n) ∧ Nearest w s e (c * 10 ^ (k - n + 1)) ∧
      (shortest w s e = if c = 10 ^ n then ⟨1, k + 1⟩ else ⟨dropZeros n c, k⟩) ∧
      ∀ m t : Nat, 0 < m → m ≤ 20 → (s * 2 ^ e : ℚ) = t * 10 ^ (k - m + 1) → n ≤ m := by
  have hshort : shortest w s e =
      let k := decimalExponent (dyadic (4 * s) (e - 2)).1 (dyadic (4 * s) (e - 2)).2
      let found := firstOnGrid
        (dyadic (4 * s - if (s = Nat.pow 2 (w.precision - 1) && w.minExponent < e) then 1 else 2)
          (e - 2)).1
        (dyadic (4 * s) (e - 2)).1 (dyadic (4 * s + 2) (e - 2)).1 (dyadic (4 * s) (e - 2)).2
        (s % 2 = 0) k 20 1
      if found.1 = Nat.pow 10 found.2 then ⟨1, k + 1⟩ else ⟨dropZeros found.2 found.1, k⟩ :=
    rfl
  obtain ⟨hv, hlo, hhi⟩ := shortest_fractions w hs e
  have hden := dyadic_snd_pos (4 * s) (e - 2)
  generalize dyadic (4 * s) (e - 2) = v at hv hlo hhi hden hshort
  generalize dyadic (4 * s - _) (e - 2) = lo at hlo hshort
  generalize dyadic (4 * s + 2) (e - 2) = hi at hhi hshort
  have hnum : 0 < v.1 := by
    have hpos : (0 : ℚ) < s * 2 ^ e := mul_pos (Nat.cast_pos.2 hs) (by positivity)
    rw [← hv] at hpos
    refine Nat.pos_of_ne_zero fun hzero => ?_
    rw [hzero] at hpos
    simp at hpos
  have hk := decimalExponent_bounds hnum hden
  dsimp only at hshort
  generalize decimalExponent v.1 v.2 = k at hk hshort
  -- what the search calls the interval are the numbers that are nearest
  have hnear : ∀ x, Between (s % 2 = 0) (lo.1 / v.2) (hi.1 / v.2) x ↔ Nearest w s e x := fun x => by
    rw [hlo, hhi, Nearest]
  -- the grid of eighteen digits is fine enough, so the search ends there at the latest
  obtain ⟨c, n, hfirst, hn, hc, hpoint, hleast⟩ :=
    @firstOnGrid_spec lo.1 v.1 hi.1 v.2 20 (s % 2 = 0) k hden hk 18 (by decide) (by decide)
      fun t hle ht => (hnear _).2 <| by
        have hstep : k - (18 : Nat) + 1 = k - 17 := by omega
        rw [hv] at hk hle ht
        rw [hstep] at hle ht ⊢
        exact nearest_fine hlt hk.1 hle ht
  rw [hfirst] at hshort
  rw [hv] at hk hleast
  exact ⟨k, n, c, hn, hk, hc, (hnear _).1 hpoint, hshort,
    hleast ((hnear _).2 (nearest_self w s e))⟩

/-- The shortest digits of a number are nearest to it, and they are in the decimal place of the
number or begin the next one.  If the number is whole, they have no place after the point. -/
theorem shortest_spec {s : Nat} {e : Int} (hs : 0 < s) (hlt : s < 2 ^ w.precision) :
    0 < (shortest w s e).value ∧ Nearest w s e (shortest w s e).amount ∧
      ∃ k : Int, ((10 : ℚ) ^ k ≤ s * 2 ^ e ∧ (s * 2 ^ e : ℚ) < 10 ^ (k + 1)) ∧
        ((shortest w s e).exponent = k ∨ (shortest w s e).exponent = k + 1 ∧
          (shortest w s e).amount = 10 ^ (k + 1)) ∧
        ∀ m t : Nat, k = m → m < 20 → (s * 2 ^ e : ℚ) = t →
          ((Text.ofNat (shortest w s e).value).length : Int) ≤ (shortest w s e).exponent + 1 := by
  obtain ⟨k, n, c, hn, hk, ⟨hlo, hhi⟩, hnear, hdigits, hleast⟩ := shortest_eq (e := e) hs hlt
  obtain ⟨hvalue, hamount, hlength⟩ := amount_of_point hn hlo hhi hdigits
  rw [← hamount] at hnear
  refine ⟨hvalue, hnear, k, hk, ?_⟩
  -- A whole number has no digits behind its last place, so the least digits stop there.
  have hwhole : ∀ m t : Nat, k = m → m < 20 → (s * 2 ^ e : ℚ) = t →
      ((Text.ofNat (shortest w s e).value).length : Int) ≤ (shortest w s e).exponent + 1 := by
    rintro m t rfl hm ht
    have hle := hleast (m + 1) t m.succ_pos (by omega) (by simp [ht])
    omega
  -- The point of the grid may be the next power of ten, which has another first place.
  split at hdigits
  · rename_i hc
    have hexponent : (shortest w s e).exponent = k + 1 := congrArg Digits.exponent hdigits
    have hpower : (shortest w s e).amount = 10 ^ (k + 1) := by
      rw [hamount, hc]
      push_cast
      rw [← zpow_natCast, ← zpow_add₀ (by norm_num)]
      congr 1
      ring
    exact ⟨.inr ⟨hexponent, hpower⟩, hwhole⟩
  · exact ⟨.inl (congrArg Digits.exponent hdigits), hwhole⟩

end TypeShape.Binary
