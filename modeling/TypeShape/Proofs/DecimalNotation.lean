import TypeShape.Proofs.ShortestDigits

/-!
# Decimal notation

A number from `10 ^ -4` up to, and without, `10 ^ 6` is written without an exponent, and with a
point unless it is whole.  What is written with a point and without an exponent is read as the
number again, because its digits are nearest to it.

## Key results

- `Binary.Decimal.parse?_point`: digits around a point are read as a decimal
- `Binary.Digits.pointed_iff`: which digits are laid out around a point, without an exponent
- `Binary.pointed_render_iff`: which numbers are written that way
- `Binary.parse?_render`: what is written that way is read as the number again
-/

namespace TypeShape.Binary

/-! ## Reading digits -/

/-- A further digit is worth its value, and what stands before it ten times as much. -/
theorem digitsValue_concat (t : Text) (c : UInt8) :
    digitsValue (t ++ [c]) = 10 * digitsValue t + (c.toNat - 48) := by
  simp [digitsValue]

/-- Zeros at the front are worth nothing. -/
theorem digitsValue_zeros (k : Nat) (t : Text) :
    digitsValue (List.replicate k (Text.byte '0') ++ t) = digitsValue t := by
  induction k with
  | zero => rfl
  | succ k ih => exact ih

/-- The digits of a number are worth the number. -/
theorem digitsValue_ofNat (n : Nat) : digitsValue (Text.ofNat n) = n := by
  induction n using Nat.strong_induction_on with
  | _ n ih =>
    rw [Text.ofNat_eq_if]
    split
    · rename_i hn
      simpa [digitsValue] using (Text.digitChar_byte hn).2
    · rw [digitsValue_concat, ih (n / 10) (by omega), (Text.digitChar_byte (by omega)).2]
      exact Nat.div_add_mod n 10

/-- A number is written in digits. -/
theorem all_isDigit_ofNat (n : Nat) : (Text.ofNat n).all Text.isDigit = true :=
  List.all_eq_true.2 fun _ hc => Text.isDigit_of_mem_ofNat hc

/-- Zeros are digits. -/
theorem all_isDigit_zeros (k : Nat) :
    (List.replicate k (Text.byte '0')).all Text.isDigit = true := by
  rw [List.all_replicate]
  split <;> rfl

/-- Digits have no sign. -/
theorem takeSign_of_isDigit {c : UInt8} (hc : Text.isDigit c = true) (t : Text) :
    takeSign (c :: t) = (false, c :: t) := by
  unfold takeSign
  split
  · rename_i heq
    cases heq
    cases hc
  · rename_i heq
    cases heq
    cases hc
  · rfl

/-- A sign and digits around a point are read as a decimal. -/
theorem Decimal.parse?_point (negative : Bool) {whole fraction : Text} (hne : whole ≠ [])
    (hwhole : whole.all Text.isDigit = true) (hfraction : fraction.all Text.isDigit = true) :
    Decimal.parse? (text (if negative then "-" else "") ++ (whole ++ Text.byte '.' :: fraction)) =
      -- The sign is taken first, then the digits up to the point, then those after it.
      some ⟨negative, digitsValue (whole ++ fraction), -(fraction.length : Int)⟩ := by
  have hsign : takeSign (text (if negative then "-" else "") ++
      (whole ++ Text.byte '.' :: fraction)) =
        (negative, whole ++ Text.byte '.' :: fraction) := by
    cases negative with
    | true => rfl
    | false =>
      obtain ⟨c, cs, rfl⟩ := List.exists_cons_of_ne_nil hne
      rw [List.all_cons, Bool.and_eq_true] at hwhole
      exact takeSign_of_isDigit hwhole.1 _
  have hpoint : Stops Text.isDigit (Text.byte '.' :: fraction) := stops_cons (by decide) _
  have htake := hpoint.takeWhile_append hwhole
  have hdrop : (whole ++ Text.byte '.' :: fraction).dropWhile Text.isDigit =
      Text.byte '.' :: fraction := by
    rw [← drop_length_takeWhile, htake, List.drop_left]
  have htake' : fraction.takeWhile Text.isDigit = fraction :=
    List.takeWhile_eq_self_iff.2 (List.all_eq_true.1 hfraction)
  have hdrop' : fraction.dropWhile Text.isDigit = [] := by
    rw [← drop_length_takeWhile, htake', List.drop_length]
  have hbyte : Text.byte '.' = 46 := rfl
  rw [hbyte] at hsign htake hdrop ⊢
  simp only [Decimal.parse?, hsign, htake, hdrop, htake', hdrop']
  simp [hne]

/-! ## Layout -/

/-- Digits with places after the point, in the range that is written without an exponent. -/
structure Digits.Pointed (d : Digits) : Prop where
  least : -4 ≤ d.exponent
  greatest : d.exponent < 6
  places : d.exponent + 1 < (Text.ofNat d.value).length

/-- What is no digit does not stand in a text of digits. -/
theorem not_mem_of_isDigit {t : Text} {c : UInt8} (ht : t.all Text.isDigit = true)
    (hc : Text.isDigit c = false) : c ∉ t := fun hmem => by
  rw [List.all_eq_true.1 ht c hmem] at hc
  cases hc

/-- Whether digits are laid out without an exponent. -/
theorem positional_iff {d : Digits} :
    (decide (d.exponent < positional.1) || decide (positional.2 ≤ d.exponent)) = false ↔
      -4 ≤ d.exponent ∧ d.exponent < 6 := by
  have hpositional : positional = (-4, 6) := rfl
  simp only [hpositional, Bool.or_eq_false_iff, decide_eq_false_iff_not, not_lt, not_le]

/-- Digits that are laid out around a point: those before it and those after it are together the
value, and as many stand after the point as the exponent says. -/
theorem Digits.Pointed.render_eq {d : Digits} (h : d.Pointed) :
    ∃ whole fraction, d.render = whole ++ Text.byte '.' :: fraction ∧ whole ≠ [] ∧
      whole.all Text.isDigit = true ∧ fraction.all Text.isDigit = true ∧
      digitsValue (whole ++ fraction) = d.value ∧
      -(fraction.length : Int) = d.exponent + 1 - (Text.ofNat d.value).length := by
  obtain ⟨hleast, hgreatest, hplaces⟩ := h
  have hdigits := all_isDigit_ofNat d.value
  have hvalue := digitsValue_ofNat d.value
  simp only [render, positional_iff.2 ⟨hleast, hgreatest⟩, Bool.false_eq_true, if_false]
  -- Before a negative exponent come zeros; otherwise the digits are cut at the point.
  generalize Text.ofNat d.value = ds at hplaces hdigits hvalue
  by_cases hneg : d.exponent < 0
  · refine ⟨text "0", List.replicate (d.exponent.natAbs - 1) (Text.byte '0') ++ ds, ?_, by decide,
      by decide, ?_, ?_, ?_⟩
    · rw [if_pos hneg, List.append_assoc]
      rfl
    · rw [List.all_append, all_isDigit_zeros, hdigits]
      rfl
    · exact (digitsValue_zeros _ ds).trans hvalue
    · rw [List.length_append, List.length_replicate]
      omega
  · have hall : ∀ n, (ds.take n).all Text.isDigit = true ∧ (ds.drop n).all Text.isDigit = true :=
      fun n => by rwa [← Bool.and_eq_true, ← List.all_append, List.take_append_drop]
    refine ⟨ds.take (d.exponent.toNat + 1), ds.drop (d.exponent.toNat + 1), ?_, ?_, (hall _).1,
      (hall _).2, ?_, ?_⟩
    · rw [if_neg hneg, if_neg (by omega), List.append_assoc]
      rfl
    · refine List.ne_nil_of_length_pos ?_
      rw [List.length_take]
      omega
    · rwa [List.take_append_drop]
    · rw [List.length_drop]
      omega

/-- An exponent is written with an `e`. -/
theorem mem_renderExponent (e : Int) : Text.byte 'e' ∈ renderExponent e := by
  have hmark : Text.byte 'e' ∈ text (if e < 0 then "e-" else "e+") := by split <;> decide
  exact List.mem_append_left _ hmark

/-- Digits are laid out with a point and without an exponent if they have places after the point
and are in the range for it. -/
theorem Digits.pointed_iff (d : Digits) :
    (Text.byte '.' ∈ d.render ∧ Text.byte 'e' ∉ d.render) ↔ d.Pointed := by
  constructor
  · rintro ⟨hpoint, hexponent⟩
    have hdigits := all_isDigit_ofNat d.value
    have hne := Text.ofNat_ne_nil d.value
    have hrange : -4 ≤ d.exponent ∧ d.exponent < 6 := by
      -- otherwise the exponent is written at the end
      refine positional_iff.1 (Bool.eq_false_iff.2 fun hscientific => hexponent ?_)
      have hmark := mem_renderExponent d.exponent
      simp only [render, hscientific, if_true]
      split
      · contradiction
      · exact List.mem_cons_of_mem _ hmark
      · exact List.mem_cons_of_mem _ (List.mem_append_right _ hmark)
    refine ⟨hrange.1, hrange.2, not_le.1 fun hle => ?_⟩
    have hpos := List.length_pos_iff.2 hne
    simp only [render, positional_iff.2 hrange, Bool.false_eq_true, if_false] at hpoint
    rw [if_neg (by omega), if_pos (by omega)] at hpoint
    refine absurd hpoint (not_mem_of_isDigit ?_ (by decide))
    rw [List.all_append, hdigits, all_isDigit_zeros]
    rfl
  · intro h
    obtain ⟨whole, fraction, heq, -, hwhole, hfraction, -⟩ := h.render_eq
    rw [heq]
    refine ⟨by simp, ?_⟩
    rw [List.mem_append, List.mem_cons]
    rintro (hmem | hmem | hmem)
    · exact not_mem_of_isDigit hwhole (by decide) hmem
    · cases hmem
    · exact not_mem_of_isDigit hfraction (by decide) hmem

/-! ## Reading what was laid out -/

variable {w : Width} {s : Nat} {e : Int}

/-- A decimal is rounded to the number that it is nearest to. -/
theorem ofDecimal_of_nearest (hc : Canonical w s e) (negative : Bool) {digits : Nat}
    {exponent : Int} (hdigits : 0 < digits) (h : Nearest w s e (digits * 10 ^ exponent)) :
    ofDecimal w negative digits exponent = .finite negative s e := by
  cases exponent with
  | ofNat k =>
    refine ofFraction_of_nearest hc negative (Nat.mul_pos hdigits (Nat.pow_pos (by decide)))
      Nat.one_pos ?_
    simpa using h
  | negSucc k =>
    refine ofFraction_of_nearest hc negative hdigits (Nat.pow_pos (by decide)) ?_
    simpa [zpow_negSucc, div_eq_mul_inv] using h

/-- A decimal of plain size is read as the number that it is nearest to. -/
theorem Decimal.nearest_of_nearest {d : Decimal} (hc : Canonical w s e) (hdigits : 0 < d.digits)
    (hleast : -400 ≤ d.exponent + (Text.ofNat d.digits).length)
    (hgreatest : d.exponent + (Text.ofNat d.digits).length ≤ 400)
    (h : Nearest w s e (d.digits * 10 ^ d.exponent)) :
    d.nearest w = .finite d.negative s e := by
  rw [Text.ofNat, List.length_map] at hleast hgreatest
  unfold Decimal.nearest
  dsimp only
  rw [if_neg (by simp only [Bool.or_eq_true, decide_eq_true_eq]; omega), if_neg (by omega)]
  exact ofDecimal_of_nearest hc d.negative hdigits h

/-- Digits that are nearest to a number and laid out around a point are read as the number. -/
theorem parse?_digits {d : Digits} (hd : d.Pointed) (hc : Canonical w s e) (hvalue : 0 < d.value)
    (hnear : Nearest w s e d.amount) (negative : Bool) :
    parse? w (text (if negative then "-" else "") ++ d.render) = some (.finite negative s e) := by
  obtain ⟨whole, fraction, heq, hne, hwhole, hfraction, hdigits, hplaces⟩ := hd.render_eq
  obtain ⟨hleast, hgreatest, -⟩ := hd
  have hround : Decimal.nearest w ⟨negative, d.value,
      d.exponent + 1 - (Text.ofNat d.value).length⟩ = .finite negative s e :=
    Decimal.nearest_of_nearest hc hvalue (by dsimp only; omega) (by dsimp only; omega) hnear
  rw [parse?, heq, Decimal.parse?_point negative hne hwhole hfraction, hdigits, hplaces,
    Option.bind_eq_bind, Option.bind_some, hround]

/-- A rounded number is a number. -/
theorem settle_ne_nan (negative : Bool) (s : Nat) (e : Int) : settle w negative s e ≠ .nan := by
  unfold settle
  dsimp only
  generalize (if s = Nat.pow 2 w.precision then _ else _) = rounded
  split <;> nofun

/-- What rounding gives: an infinity, or a number in canonical form. -/
def IsRounded (w : Width) (x : Binary) : Prop :=
  (∃ negative, x = .infinite negative) ∨ ∃ negative s e, x = .finite negative s e ∧ Canonical w s e

/-- Rounding a fraction gives a canonical number or an infinity. -/
theorem isRounded_ofFraction (w : Width) (negative : Bool) {num den : Nat} (hnum : 0 < num)
    (hden : 0 < den) : IsRounded w (ofFraction w negative num den) := by
  cases hx : ofFraction w negative num den with
  | infinite n => exact .inl ⟨n, rfl⟩
  | finite n s e => exact .inr ⟨n, s, e, rfl, (canonical_of_ofFraction hnum hden hx).1⟩
  | nan =>
    rw [ofFraction_eq w negative hnum] at hx
    exact absurd hx (settle_ne_nan negative _ _)

/-- Zero is canonical. -/
theorem canonical_zero (w : Width) : Canonical w 0 w.minExponent := by
  cases w <;> exact ⟨by decide, by decide, by decide, .inr rfl⟩

/-- Reading a decimal gives a canonical number or an infinity. -/
theorem Decimal.isRounded_nearest (w : Width) (d : Decimal) : IsRounded w (d.nearest w) := by
  unfold Decimal.nearest
  dsimp only
  split
  · exact .inr ⟨_, _, _, rfl, canonical_zero w⟩
  · rename_i hdigits
    simp only [Bool.or_eq_true, decide_eq_true_eq, not_or] at hdigits
    -- A decimal other than zero is a fraction of positive numbers.
    have hpos := Nat.pos_of_ne_zero hdigits.1
    split
    · exact .inl ⟨_, rfl⟩
    · unfold ofDecimal
      split
      · exact isRounded_ofFraction w _ (Nat.mul_pos hpos (Nat.pow_pos (by decide))) Nat.one_pos
      · exact isRounded_ofFraction w _ hpos (Nat.pow_pos (by decide))

/-- What a numeral is read as is in canonical form. -/
theorem canonical_of_parse? {t : Text} {x : Binary} (h : parse? w t = some x) :
    ∃ negative s e, x = .finite negative s e ∧ Canonical w s e := by
  rw [parse?, Option.bind_eq_bind] at h
  obtain ⟨d, -, h⟩ := Option.bind_eq_some_iff.1 h
  obtain ⟨n, hinfinite⟩ | ⟨n, s, e, hfinite, hc⟩ := d.isRounded_nearest w
  · rw [hinfinite] at h
    cases h
  · rw [hfinite] at h
    cases h
    exact ⟨n, s, e, rfl, hc⟩

/-! ## Numbers in decimal notation -/

/-- The number has places after the point, and is neither too small nor too large to be written
without an exponent. -/
def IsPlainFraction : Binary → Prop
  | .finite _ s e =>
    ((10 : ℚ) ^ (-4 : Int) ≤ s * 2 ^ e ∧ (s * 2 ^ e : ℚ) < 10 ^ (6 : Int)) ∧
      ∀ n : Nat, (s * 2 ^ e : ℚ) ≠ n
  | _ => False

/-- A fraction of plain size is not zero. -/
theorem IsPlainFraction.pos {negative : Bool} (h : IsPlainFraction (.finite negative s e)) :
    0 < s := by
  refine Nat.pos_of_ne_zero ?_
  rintro rfl
  exact h.2 0 (by simp)

/-- Without a negative exponent a number is whole. -/
theorem exists_natCast_of_nonneg (s : Nat) (he : 0 ≤ e) : ∃ n : Nat, (s * 2 ^ e : ℚ) = n := by
  obtain ⟨k, rfl⟩ := Int.eq_ofNat_of_zero_le he
  exact ⟨s * 2 ^ k, by push_cast; rw [zpow_natCast]⟩

/-- The number that `10 ^ -4` is nearest to is not below it. -/
theorem le_of_nearest_tenThousandth (hc : Canonical .double s e)
    (h : Nearest .double s e (10 ^ (-4 : Int))) : (10 : ℚ) ^ (-4 : Int) ≤ s * 2 ^ e := by
  have hround : ofFraction .double false 1 10000 = .finite false 7378697629483821 (-66) := by
    decide +kernel
  have hself : ofFraction .double false 1 10000 = .finite false s e := by
    refine ofFraction_of_nearest hc false Nat.one_pos (by decide) ?_
    have hvalue : ((1 : Nat) / (10000 : Nat) : ℚ) = 10 ^ (-4 : Int) := by norm_num
    rwa [hvalue]
  rw [hround] at hself
  cases hself
  norm_num

/-- A smaller power of ten has the smaller exponent. -/
theorem lt_of_ten_zpow_lt {a b : Int} (h : (10 : ℚ) ^ a < 10 ^ b) : a < b :=
  (zpow_lt_zpow_iff_right₀ (by norm_num)).1 h

/-- A smaller exponent gives the smaller power of ten. -/
theorem ten_zpow_le {a b : Int} (h : a ≤ b) : (10 : ℚ) ^ a ≤ 10 ^ b :=
  zpow_le_zpow_right₀ (by norm_num) h

/-- A number whose digits are laid out around a point is a fraction of plain size. -/
theorem Digits.Pointed.isPlainFraction (hc : Canonical .double s e) (hs : 0 < s) (negative : Bool)
    (h : (shortest .double s e).Pointed) : IsPlainFraction (.finite negative s e) := by
  -- `k` is the decimal exponent of the number itself; that of its digits is larger by one if they
  -- were rounded up to a power of ten.
  obtain ⟨hleast, hgreatest, hplaces⟩ := h
  obtain ⟨-, hnear, k, ⟨hlo, hhi⟩, hexponent, hwhole⟩ := shortest_spec hs hc.lt (e := e)
  refine ⟨⟨?_, hhi.trans_le (ten_zpow_le (by omega))⟩, fun n hn => ?_⟩
  · by_cases hk : -4 ≤ k
    · exact (ten_zpow_le hk).trans hlo
    · -- The digits have been rounded up to the least power of ten that is in the range.
      obtain hexponent | ⟨hexponent, hamount⟩ := hexponent
      · omega
      · have hk : k + 1 = -4 := by omega
        rw [hamount, hk] at hnear
        exact le_of_nearest_tenThousandth hc hnear
  · -- The digits of a whole number would end before the point.
    have hpos : (0 : ℚ) < s * 2 ^ e := mul_pos (Nat.cast_pos.2 hs) (by positivity)
    have hone : (10 : ℚ) ^ (0 : Int) ≤ s * 2 ^ e := by
      rw [hn] at hpos ⊢
      exact_mod_cast hpos
    have hk : 0 < k + 1 := lt_of_ten_zpow_lt (hone.trans_lt hhi)
    have hk' : k = k.toNat := by omega
    exact absurd (hwhole k.toNat n hk' (by omega) hn) (not_le.2 hplaces)

/-- The digits of a fraction of plain size are laid out around a point.  They stand for no whole
number, because a whole number that is nearest to the fraction would be the fraction. -/
theorem IsPlainFraction.pointed (hc : Canonical .double s e) {negative : Bool}
    (h : IsPlainFraction (.finite negative s e)) : (shortest .double s e).Pointed := by
  obtain ⟨-, hnear, k, ⟨hlo, hhi⟩, hexponent, -⟩ := shortest_spec h.pos hc.lt (e := e)
  obtain ⟨⟨hleast, hgreatest⟩, hfraction⟩ := h
  have he : e ≤ 0 := not_lt.1 fun he => by
    obtain ⟨n, hn⟩ := exists_natCast_of_nonneg s he.le
    exact hfraction n hn
  have hamount : ∀ n : Nat, (shortest .double s e).amount ≠ n := fun n hn => by
    rw [hn] at hnear
    exact hfraction n (hnear.eq_of_natCast he)
  have hk : -4 < k + 1 := lt_of_ten_zpow_lt (hleast.trans_lt hhi)
  have hk' : k < 6 := lt_of_ten_zpow_lt (hlo.trans_lt hgreatest)
  refine ⟨by omega, ?_, not_le.1 fun hlength => ?_⟩
  · refine lt_of_le_of_ne (by omega) fun hsix => ?_
    obtain hexponent | ⟨hexponent, hpower⟩ := hexponent
    · omega
    · -- The digits have been rounded up to a million, a whole number.
      rw [← hexponent, hsix] at hpower
      exact hamount (10 ^ 6) (by rw [hpower]; norm_num)
  -- A whole number of digits would be nearest to the fraction and so equal to it.
  · obtain ⟨z, hz⟩ := Int.eq_ofNat_of_zero_le (sub_nonneg.2 hlength)
    refine hamount ((shortest .double s e).value * 10 ^ z) ?_
    rw [Digits.amount, hz]
    push_cast
    rw [zpow_natCast]

/-- A number is written with a point and without an exponent if it is a fraction of plain size. -/
theorem pointed_render_iff (hc : Canonical .double s e) (negative : Bool) :
    (Text.byte '.' ∈ render .double (.finite negative s e) ∧
      Text.byte 'e' ∉ render .double (.finite negative s e)) ↔
        IsPlainFraction (.finite negative s e) := by
  have hsign : Text.byte '.' ∉ text (if negative then "-" else "") ∧
      Text.byte 'e' ∉ text (if negative then "-" else "") := by
    cases negative <;> decide
  -- Zero is written without a point.
  obtain rfl | hs := Nat.eq_zero_or_pos s
  · have hzero : Text.byte '.' ∉ text "0" := by decide
    refine ⟨fun ⟨hpoint, _⟩ => ?_, fun ⟨⟨hleast, _⟩, _⟩ => ?_⟩
    · rw [render, if_pos rfl, List.mem_append] at hpoint
      exact absurd hpoint (not_or.2 ⟨hsign.1, hzero⟩)
    · rw [Nat.cast_zero, zero_mul] at hleast
      exact absurd hleast (not_le.2 (by positivity))
  · rw [render, if_neg hs.ne', List.mem_append, List.mem_append, or_iff_right hsign.1,
      or_iff_right hsign.2, Digits.pointed_iff]
    exact ⟨fun h => h.isPlainFraction hc hs negative, fun h => h.pointed hc⟩

/-- A fraction of plain size is written as digits around a point, with a minus in front perhaps. -/
theorem exists_render_eq (hc : Canonical .double s e) {negative : Bool}
    (h : IsPlainFraction (.finite negative s e)) :
    ∃ whole fraction, render .double (.finite negative s e) =
        text (if negative then "-" else "") ++ (whole ++ Text.byte '.' :: fraction) ∧
      whole ≠ [] ∧ whole.all Text.isDigit = true ∧ fraction.all Text.isDigit = true := by
  obtain ⟨whole, fraction, heq, hne, hwhole, hfraction, -⟩ :=
    (h.pointed hc).render_eq
  exact ⟨whole, fraction, by rw [render, if_neg h.pos.ne', heq], hne, hwhole, hfraction⟩

/-- A fraction of plain size is read again from what is written for it. -/
theorem parse?_render (hc : Canonical .double s e) {negative : Bool}
    (h : IsPlainFraction (.finite negative s e)) :
    parse? .double (render .double (.finite negative s e)) = some (.finite negative s e) := by
  obtain ⟨hvalue, hnear, -⟩ := shortest_spec h.pos hc.lt (e := e)
  rw [render, if_neg h.pos.ne']
  exact parse?_digits (h.pointed hc) hc hvalue hnear negative

end TypeShape.Binary
