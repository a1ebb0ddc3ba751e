import Mathlib.Data.List.Basic
import Mathlib.Tactic.IntervalCases
import TypeShape.Expr.Parser
import TypeShape.Number.Integer
import TypeShape.Proofs.Lexing

/-!
# Texts that are read back

What is written for a text or a number is read back as it.  Quoting cuts a text into code points and
stray bytes and writes each piece in one of a few forms (`Quoted.Escaped`); every form is read as
the bytes of its piece, whatever follows, and none holds a bare quote.

## Key results

- `Utf8.encode_of_sequence?` and `Utf8.sequence?_encode`: decoding takes exactly what encoding gives
- `Quoted.unquote?_quote`: a text is read back from its quotation
- `Quoted.exists_quote_eq`: a quotation is one string of the lexer
- `TypeExpr.parseInt64?_ofInt`: a number of 64 bits is read back from its numeral
-/

namespace TypeShape

namespace Utf8

/-- A number below 256 is one byte. -/
theorem toNat_toUInt8 {n : Nat} (h : n < 256) : n.toUInt8.toNat = n := by
  simp [Nat.mod_eq_of_lt h]

/-- A continuation byte carries six bits. -/
theorem continuation?_eq_some_iff {c : UInt8} {b : Nat} :
    continuation? c = some b ↔ b < 0x40 ∧ c.toNat = 0x80 + b := by
  simp only [continuation?, Bool.and_eq_true, decide_eq_true_eq, UInt8.le_iff_toNat_le,
    Option.ite_none_right_eq_some, Option.some.injEq, UInt8.reduceToNat]
  omega

/-- Six bits make a continuation byte. -/
theorem continuation?_toUInt8 {b : Nat} (h : b < 0x40) :
    continuation? (0x80 + b).toUInt8 = some b :=
  continuation?_eq_some_iff.2 ⟨h, toNat_toUInt8 (by omega)⟩

-- The equations of the decoder are made here, once for all the lemmas below.
attribute [local simp] sequence?

/-- One byte is read as a code point below 0x80. -/
theorem sequence?_one {a : Nat} (ha : a < 0x80) (t : Text) :
    sequence? a.toUInt8 t = some (a, 0) := by
  have hc : a.toUInt8.toNat = a := toNat_toUInt8 (by omega)
  simp only [sequence?, UInt8.lt_iff_toNat_lt, UInt8.reduceToNat, hc]
  rw [if_pos ha]

/-- Two bytes are read as a code point. -/
theorem sequence?_two {a b : Nat} (ha : 2 ≤ a ∧ a < 0x20) (hb : b < 0x40) (t : Text) :
    sequence? (0xC0 + a).toUInt8 ((0x80 + b).toUInt8 :: t) = some (a * 0x40 + b, 1) := by
  have hc : (0xC0 + a).toUInt8.toNat = 0xC0 + a := toNat_toUInt8 (by omega)
  simp only [sequence?, UInt8.lt_iff_toNat_lt, UInt8.reduceToNat, hc, continuation?_toUInt8 hb,
    Nat.add_sub_cancel_left]
  rw [if_neg (by omega), if_neg (by omega), if_pos (by omega)]
  rfl

/-- Three bytes are read as a code point, if no shorter form would do and it is no surrogate. -/
theorem sequence?_three {a b d : Nat} (ha : a < 0x10) (hb : b < 0x40) (hd : d < 0x40)
    (hr : 0x800 ≤ a * 0x1000 + b * 0x40 + d)
    (hscalar : isScalar (a * 0x1000 + b * 0x40 + d) = true) (t : Text) :
    sequence? (0xE0 + a).toUInt8 ((0x80 + b).toUInt8 :: (0x80 + d).toUInt8 :: t) =
      some (a * 0x1000 + b * 0x40 + d, 2) := by
  -- The lead byte tells the length, and the guard excludes longer forms of small numbers.
  have hc : (0xE0 + a).toUInt8.toNat = 0xE0 + a := toNat_toUInt8 (by omega)
  have hguard : (decide (0x800 ≤ a * 0x1000 + b * 0x40 + d) &&
      isScalar (a * 0x1000 + b * 0x40 + d)) = true := by
    rw [hscalar, decide_eq_true hr]
    rfl
  simp only [sequence?, UInt8.lt_iff_toNat_lt, UInt8.reduceToNat, hc, continuation?_toUInt8 hb,
    continuation?_toUInt8 hd, Nat.add_sub_cancel_left]
  rw [if_neg (by omega), if_neg (by omega), if_neg (by omega), if_pos (by omega)]
  rw [Option.bind_eq_bind, Option.bind_some, Option.bind_some, if_pos hguard]
  rfl

/-- Four bytes are read as a code point, if no shorter form would do and it is one. -/
theorem sequence?_four {a b d e : Nat} (ha : a < 5) (hb : b < 0x40) (hd : d < 0x40)
    (he : e < 0x40) (hr : 0x10000 ≤ a * 0x40000 + b * 0x1000 + d * 0x40 + e)
    (hscalar : isScalar (a * 0x40000 + b * 0x1000 + d * 0x40 + e) = true) (t : Text) :
    sequence? (0xF0 + a).toUInt8
        ((0x80 + b).toUInt8 :: (0x80 + d).toUInt8 :: (0x80 + e).toUInt8 :: t) =
      some (a * 0x40000 + b * 0x1000 + d * 0x40 + e, 3) := by
  have hc : (0xF0 + a).toUInt8.toNat = 0xF0 + a := toNat_toUInt8 (by omega)
  have hguard : (decide (0x10000 ≤ a * 0x40000 + b * 0x1000 + d * 0x40 + e) &&
      isScalar (a * 0x40000 + b * 0x1000 + d * 0x40 + e)) = true := by
    rw [hscalar, decide_eq_true hr]
    rfl
  simp only [sequence?, UInt8.lt_iff_toNat_lt, UInt8.reduceToNat, hc, continuation?_toUInt8 hb,
    continuation?_toUInt8 hd, continuation?_toUInt8 he, Nat.add_sub_cancel_left]
  rw [if_neg (by omega), if_neg (by omega), if_neg (by omega), if_neg (by omega),
    if_pos (by omega)]
  -- the guard is decided by `hguard` before anything else can unfold it
  rw [Option.bind_eq_bind, Option.bind_some, Option.bind_some, Option.bind_some, if_pos hguard]
  rfl
/-- The bytes of a code point are read back as that code point, whatever follows. -/
theorem sequence?_encode {r : Nat} (h : isScalar r = true) :
    ∃ c cs, encode r = c :: cs ∧ ∀ t, sequence? c (cs ++ t) = some (r, cs.length) := by
  have hscalar := h
  simp only [isScalar, Bool.or_eq_true, Bool.and_eq_true, decide_eq_true_eq] at hscalar
  simp only [encode, if_pos h]
  split
  -- The four lengths of a code point. In each, the code point is put together from its parts.
  · rename_i hr
    exact ⟨_, _, rfl, fun t => sequence?_one hr t⟩
  split
  · refine ⟨_, _, rfl, fun t => ?_⟩
    have hr : r / 0x40 * 0x40 + r % 0x40 = r := by omega
    have hread := sequence?_two (a := r / 0x40) (b := r % 0x40) (by omega) (by omega) t
    rwa [hr] at hread
  split
  · refine ⟨_, _, rfl, fun t => ?_⟩
    have hr : r / 0x1000 * 0x1000 + r / 0x40 % 0x40 * 0x40 + r % 0x40 = r := by omega
    have hread := sequence?_three (a := r / 0x1000) (b := r / 0x40 % 0x40) (d := r % 0x40)
      (by omega) (by omega) (by omega) (by omega) (by rw [hr]; exact h) t
    rwa [hr] at hread
  · refine ⟨_, _, rfl, fun t => ?_⟩
    have hr : r / 0x40000 * 0x40000 + r / 0x1000 % 0x40 * 0x1000 + r / 0x40 % 0x40 * 0x40 +
        r % 0x40 = r := by omega
    have hread := sequence?_four (a := r / 0x40000) (b := r / 0x1000 % 0x40)
      (d := r / 0x40 % 0x40) (e := r % 0x40) (by omega) (by omega) (by omega) (by omega)
      (by omega) (by rw [hr]; exact h) t
    rwa [hr] at hread

/-- A byte is told by its number. -/
theorem eq_toUInt8 {c : UInt8} {n : Nat} (h : c.toNat = n) : c = n.toUInt8 := by
  subst h
  simp

/-- The two bytes of a code point. -/
theorem encode_two {a b : Nat} (ha : 2 ≤ a ∧ a < 0x20) (hb : b < 0x40) :
    encode (a * 0x40 + b) = [(0xC0 + a).toUInt8, (0x80 + b).toUInt8] := by
  have hscalar : isScalar (a * 0x40 + b) = true := by
    simp only [isScalar, Bool.or_eq_true, decide_eq_true_eq]
    omega
  have h₁ : (a * 0x40 + b) / 0x40 = a := by omega
  have h₂ : (a * 0x40 + b) % 0x40 = b := by omega
  rw [encode, if_pos hscalar, if_neg (by omega), if_pos (by omega), h₁, h₂]

/-- The three bytes of a code point. -/
theorem encode_three {a b d : Nat} (hb : b < 0x40) (hd : d < 0x40)
    (hr : 0x800 ≤ a * 0x1000 + b * 0x40 + d) (ha : a < 0x10)
    (hscalar : isScalar (a * 0x1000 + b * 0x40 + d) = true) :
    encode (a * 0x1000 + b * 0x40 + d) =
      [(0xE0 + a).toUInt8, (0x80 + b).toUInt8, (0x80 + d).toUInt8] := by
  have h₁ : (a * 0x1000 + b * 0x40 + d) / 0x1000 = a := by omega
  have h₂ : (a * 0x1000 + b * 0x40 + d) / 0x40 % 0x40 = b := by omega
  have h₃ : (a * 0x1000 + b * 0x40 + d) % 0x40 = d := by omega
  rw [encode, if_pos hscalar, if_neg (by omega), if_neg (by omega), if_pos (by omega), h₁, h₂, h₃]

/-- The four bytes of a code point. -/
theorem encode_four {a b d e : Nat} (hb : b < 0x40) (hd : d < 0x40) (he : e < 0x40)
    (hr : 0x10000 ≤ a * 0x40000 + b * 0x1000 + d * 0x40 + e)
    (hscalar : isScalar (a * 0x40000 + b * 0x1000 + d * 0x40 + e) = true) :
    encode (a * 0x40000 + b * 0x1000 + d * 0x40 + e) =
      [(0xF0 + a).toUInt8, (0x80 + b).toUInt8, (0x80 + d).toUInt8, (0x80 + e).toUInt8] := by
  have h₁ : (a * 0x40000 + b * 0x1000 + d * 0x40 + e) / 0x40000 = a := by omega
  have h₂ : (a * 0x40000 + b * 0x1000 + d * 0x40 + e) / 0x1000 % 0x40 = b := by omega
  have h₃ : (a * 0x40000 + b * 0x1000 + d * 0x40 + e) / 0x40 % 0x40 = d := by omega
  have h₄ : (a * 0x40000 + b * 0x1000 + d * 0x40 + e) % 0x40 = e := by omega
  rw [encode, if_pos hscalar, if_neg (by omega), if_neg (by omega), if_neg (by omega), h₁, h₂, h₃,
    h₄]

/-- What is read as a code point is its bytes. -/
theorem encode_of_sequence? {c : UInt8} {cs : Text} {r n : Nat} (h : sequence? c cs = some (r, n)) :
    isScalar r = true ∧ c :: cs = encode r ++ cs.drop n := by
  unfold sequence? at h
  -- The first byte tells how many bytes are read, and each of the others carries six bits.
  simp only [UInt8.lt_iff_toNat_lt, UInt8.reduceToNat] at h
  split at h
  · simp only [Option.some.injEq, Prod.mk.injEq] at h
    obtain ⟨rfl, rfl⟩ := h
    have hscalar : isScalar c.toNat = true := by
      simp only [isScalar, Bool.or_eq_true, decide_eq_true_eq]
      omega
    exact ⟨hscalar, by simp [encode, *]⟩
  split at h
  · cases h
  split at h
  · match cs, h with
    | c₁ :: cs, h =>
      simp only [Option.bind_eq_bind, Option.bind_eq_some_iff, continuation?_eq_some_iff,
        Option.pure_def, Option.some.injEq, Prod.mk.injEq] at h
      obtain ⟨b, ⟨hb, hc₁⟩, rfl, rfl⟩ := h
      have ha : 2 ≤ c.toNat - 0xC0 ∧ c.toNat - 0xC0 < 0x20 := by omega
      have hc : c = (0xC0 + (c.toNat - 0xC0)).toUInt8 := eq_toUInt8 (by omega)
      refine ⟨?_, ?_⟩
      · simp only [isScalar, Bool.or_eq_true, decide_eq_true_eq]
        omega
      · rw [encode_two ha hb, ← hc, ← eq_toUInt8 hc₁]
        rfl
  split at h
  · match cs, h with
    | c₁ :: c₂ :: cs, h =>
      simp only [Option.bind_eq_bind, Option.bind_eq_some_iff, continuation?_eq_some_iff,
        Option.pure_def, Option.ite_none_right_eq_some, Bool.and_eq_true, decide_eq_true_eq,
        Option.some.injEq, Prod.mk.injEq] at h
      obtain ⟨b, ⟨hb, hc₁⟩, d, ⟨hd, hc₂⟩, ⟨hr, hscalar⟩, rfl, rfl⟩ := h
      have ha : c.toNat - 0xE0 < 0x10 := by omega
      have hc : c = (0xE0 + (c.toNat - 0xE0)).toUInt8 := eq_toUInt8 (by omega)
      refine ⟨hscalar, ?_⟩
      rw [encode_three hb hd hr ha hscalar, ← hc, ← eq_toUInt8 hc₁, ← eq_toUInt8 hc₂]
      rfl
  split at h
  · match cs, h with
    | c₁ :: c₂ :: c₃ :: cs, h =>
      simp only [Option.bind_eq_bind, Option.bind_eq_some_iff, continuation?_eq_some_iff,
        Option.pure_def, Option.ite_none_right_eq_some, Bool.and_eq_true, decide_eq_true_eq,
        Option.some.injEq, Prod.mk.injEq] at h
      obtain ⟨b, ⟨hb, hc₁⟩, d, ⟨hd, hc₂⟩, e, ⟨he, hc₃⟩, ⟨hr, hscalar⟩, rfl, rfl⟩ := h
      have hc : c = (0xF0 + (c.toNat - 0xF0)).toUInt8 := eq_toUInt8 (by omega)
      refine ⟨hscalar, ?_⟩
      rw [encode_four hb hd he hr hscalar, ← hc, ← eq_toUInt8 hc₁, ← eq_toUInt8 hc₂,
        ← eq_toUInt8 hc₃]
      rfl
  · cases h

/-- A code point has a byte of its own number, or none below `0x80`. -/
theorem toNat_of_mem_encode {r : Nat} {c : UInt8} (h : isScalar r = true) (hc : c ∈ encode r) :
    c.toNat = r ∨ 0x80 ≤ c.toNat := by
  have hscalar := h
  simp only [isScalar, Bool.or_eq_true, Bool.and_eq_true, decide_eq_true_eq] at hscalar
  rw [encode, if_pos h] at hc
  have hbyte : ∀ n, 0x80 ≤ n → n < 256 → 0x80 ≤ n.toUInt8.toNat := by
    intro n hn hlt
    rwa [toNat_toUInt8 hlt]
  -- One byte for numbers below `0x80`; of two, three or four bytes none is below.
  split at hc
  · rw [List.mem_singleton.1 hc, toNat_toUInt8 (by omega)]
    exact .inl rfl
  · refine .inr ?_
    split at hc
    · simp only [List.mem_cons, List.not_mem_nil, or_false] at hc
      obtain rfl | rfl := hc <;> exact hbyte _ (by omega) (by omega)
    · split at hc
      · simp only [List.mem_cons, List.not_mem_nil, or_false] at hc
        obtain rfl | rfl | rfl := hc <;> exact hbyte _ (by omega) (by omega)
      · simp only [List.mem_cons, List.not_mem_nil, or_false] at hc
        obtain rfl | rfl | rfl | rfl := hc <;> exact hbyte _ (by omega) (by omega)

/-- The bytes that a piece was cut from. -/
def Piece.bytes : Piece → Text
  | .rune r => encode r
  | .stray c => [c]

/-- Nothing is lost when a text is cut into pieces. -/
theorem flatMap_bytes_piecesFrom (skip : Nat) (t : Text) :
    (piecesFrom skip t).flatMap Piece.bytes = t.drop skip := by
  fun_induction piecesFrom skip t with
  | case1 skip => simp
  | case2 skip c cs ih => simpa using ih
  | case3 c cs r n h ih =>
    rw [List.flatMap_cons, ih]
    exact (encode_of_sequence? h).2.symm
  | case4 c cs h ih => simpa [Piece.bytes] using ih

/-- The code points that a text is cut into are scalar values. -/
theorem isScalar_of_mem_piecesFrom {skip : Nat} {t : Text} {r : Nat}
    (h : .rune r ∈ piecesFrom skip t) : isScalar r = true := by
  -- By the cases of the cutting; only a sequence that was decoded gives a code point.
  fun_induction piecesFrom skip t with
  | case1 skip => simp at h
  | case2 skip c cs ih => exact ih h
  | case3 c cs r' n hsequence ih =>
    obtain heq | hmem := List.mem_cons.1 h
    · cases heq
      exact (encode_of_sequence? hsequence).1
    · exact ih hmem
  | case4 c cs hsequence ih =>
    obtain heq | hmem := List.mem_cons.1 h
    · cases heq
    · exact ih hmem

end Utf8

/-! ## Numerals in base sixteen -/

namespace Text

/-- A numeral in base sixteen is padded to its width. -/
theorem length_hex {w r : Nat} (hw : 0 < w) (hr : r < 16 ^ w) : (hex w r).length = w := by
  have hlength : (Nat.toDigits 16 r).length ≤ w := (Nat.length_toDigits_le_iff (by decide) hw).2 hr
  simp only [hex, List.length_append, List.length_replicate, List.length_map]
  omega

/-- A digit in base sixteen is read back. -/
theorem hexDigit?_digitChar {d : Nat} (hd : d < 16) :
    hexDigit? (Nat.digitChar d).toNat.toUInt8 = some d := by
  interval_cases d <;> rfl

/-- The digits of a number in base sixteen are read as digits. -/
theorem hexDigit?_of_mem_toDigits {r : Nat} {c : Char} (h : c ∈ Nat.toDigits 16 r) :
    (hexDigit? c.toNat.toUInt8).isSome = true := by
  -- The digits are those of the quotient and then the remainder, so the induction is on the number.
  induction r using Nat.strong_induction_on with
  | _ r ih =>
    rw [Nat.toDigits_eq_if (by decide)] at h
    split at h
    · rename_i hr
      rw [List.mem_singleton.1 h, hexDigit?_digitChar hr]
      rfl
    · obtain hmem | hmem := List.mem_append.1 h
      · exact ih (r / 16) (by omega) hmem
      · rw [List.mem_singleton.1 hmem, hexDigit?_digitChar (by omega)]
        rfl

/-- A padded numeral consists of digits. -/
theorem hexDigit?_of_mem_hex {w r : Nat} {c : UInt8} (h : c ∈ hex w r) :
    (hexDigit? c).isSome = true := by
  obtain hzero | hdigit := List.mem_append.1 h
  · rw [(List.mem_replicate.1 hzero).2]
    rfl
  · obtain ⟨d, hd, rfl⟩ := List.mem_map.1 hdigit
    exact hexDigit?_of_mem_toDigits hd

end Text

namespace Quoted

/-- Digits are read one after another: what is read of the first ones is carried on. -/
theorem takeHex_append {ds : Text} {acc v : Nat} (h : takeHex ds.length acc ds = some (v, []))
    (n : Nat) (t : Text) : takeHex (ds.length + n) acc (ds ++ t) = takeHex n v t := by
  -- By induction on the digits, for what was read before them.
  induction ds generalizing acc with
  | nil =>
    cases h
    simp
  | cons c cs ih =>
    simp only [takeHex, List.length_cons, Option.bind_eq_bind, Option.bind_eq_some_iff] at h
    obtain ⟨d, hd, h⟩ := h
    have hlength : (c :: cs).length + n = cs.length + n + 1 := by
      rw [List.length_cons]
      omega
    rw [hlength, List.cons_append, takeHex, hd]
    exact ih h

/-- Zeros add nothing. -/
theorem takeHex_zeros (k : Nat) :
    takeHex (List.replicate k (Text.byte '0')).length 0 (List.replicate k (Text.byte '0')) =
      some (0, []) := by
  induction k with
  | zero => rfl
  | succ k ih => exact ih

/-- The digits of a number in base sixteen are read back as the number. -/
theorem takeHex_toDigits (r : Nat) :
    takeHex ((Nat.toDigits 16 r).map fun c => c.toNat.toUInt8).length 0
      ((Nat.toDigits 16 r).map fun c => c.toNat.toUInt8) = some (r, []) := by
  -- By strong induction on the number: its last digit is read after those of the rest.
  induction r using Nat.strong_induction_on with
  | _ r ih =>
    rw [Nat.toDigits_eq_if (by decide)]
    split
    · rename_i hr
      simp [takeHex, Text.hexDigit?_digitChar hr]
    · have hdigit := Text.hexDigit?_digitChar (Nat.mod_lt r (by decide : 0 < 16))
      have hvalue : 16 * (r / 16) + r % 16 = r := Nat.div_add_mod r 16
      rw [List.map_append, List.length_append, takeHex_append (ih (r / 16) (by omega))]
      simp [takeHex, hdigit, hvalue]

/-- A numeral of fixed width is read back, whatever follows. -/
theorem takeHex_hex {w r : Nat} (hw : 0 < w) (hr : r < 16 ^ w) (t : Text) :
    takeHex w 0 (Text.hex w r ++ t) = some (r, t) := by
  have hlength := Text.length_hex hw hr
  have hall : takeHex (Text.hex w r).length 0 (Text.hex w r) = some (r, []) := by
    rw [Text.hex, List.length_append, takeHex_append (takeHex_zeros _), takeHex_toDigits]
  have happend := takeHex_append hall 0 t
  rwa [hlength, Nat.add_zero] at happend

/-! ## Reading what was quoted -/

/-- Bytes that an escape has used are passed over. -/
theorem bodyFrom_skip (n : Nat) (t : Text) : bodyFrom n t = bodyFrom 0 (t.drop n) := by
  induction n generalizing t with
  | zero => rfl
  | succ n ih =>
    cases t with
    | nil => rfl
    | cons c cs => exact ih cs

/-- `part` is read as `bytes` in front of any text. -/
def ReadAs (part bytes : Text) : Prop :=
  ∀ rest, bodyFrom 0 (part ++ rest) = (bodyFrom 0 rest).map (bytes ++ ·)

/-- A backslash starts an escape. -/
theorem bodyFrom_backslash (e : UInt8) (es : Text) :
    bodyFrom 0 (0x5C :: e :: es) = (do
      let (bytes, used) ← unescape? e es
      let rest ← bodyFrom used (e :: es)
      pure (bytes ++ rest)) := by
  rw [bodyFrom.eq_def]
  rfl

/-- An escape that is read as some bytes in front of every rest. -/
theorem readAs_escape {e : UInt8} {es bytes : Text}
    (h : ∀ rest, unescape? e (es ++ rest) = some (bytes, es.length + 1)) :
    ReadAs (0x5C :: e :: es) bytes := by
  intro rest
  rw [List.cons_append, List.cons_append, bodyFrom_backslash, h rest]
  simp only [Option.bind_eq_bind, Option.bind_some]
  rw [bodyFrom_skip, List.drop_succ_cons, List.drop_left]
  cases bodyFrom 0 rest <;> rfl

/-- A byte below `0x80` is not part of another code point. -/
theorem ne_of_mem_encode {r : Nat} {c d : UInt8} (hscalar : Utf8.isScalar r = true)
    (hc : c ∈ Utf8.encode r) (hd : d.toNat < 0x80) (hr : r ≠ d.toNat) : c ≠ d := by
  rintro rfl
  obtain heq | hge := Utf8.toNat_of_mem_encode hscalar hc
  · exact hr heq.symm
  · omega

/-- A code point that is not escaped is read as its bytes. -/
theorem readAs_encode {r : Nat} (hscalar : Utf8.isScalar r = true) (hquote : r ≠ 0x22)
    (hslash : r ≠ 0x5C) (hnewline : r ≠ 10) : ReadAs (Utf8.encode r) (Utf8.encode r) := by
  intro rest
  obtain ⟨c, cs, hencode, hread⟩ := Utf8.sequence?_encode hscalar
  have hmem : c ∈ Utf8.encode r := by simp [hencode]
  -- None of the three bytes that end or escape a body is a byte of this code point.
  have h₁ : c ≠ doubleQuote := ne_of_mem_encode hscalar hmem (by decide) hquote
  have h₂ : c ≠ 10 := ne_of_mem_encode hscalar hmem (by decide) hnewline
  have h₃ : c ≠ 0x5C := ne_of_mem_encode hscalar hmem (by decide) hslash
  rw [hencode, List.cons_append, bodyFrom.eq_def]
  simp only [if_neg h₁, if_neg h₂, if_neg h₃, hread rest, Option.bind_eq_bind]
  rw [bodyFrom_skip, List.drop_left, hencode]
  cases bodyFrom 0 rest <;> rfl

/-- Two digits in base sixteen are read as a byte. -/
theorem readAs_byte {r : Nat} (hr : r < 16 ^ 2) :
    ReadAs (text "\\x" ++ Text.hex 2 r) [r.toUInt8] := by
  refine readAs_escape fun rest => ?_
  show (takeHex 2 0 (Text.hex 2 r ++ rest)).bind (fun p => some ([p.1.toUInt8], 3)) =
    some ([r.toUInt8], (Text.hex 2 r).length + 1)
  rw [takeHex_hex (by decide) hr, Text.length_hex (by decide) hr]
  rfl

/-- Four digits in base sixteen are read as a code point. -/
theorem readAs_u {r : Nat} (hr : r < 16 ^ 4) (hscalar : Utf8.isScalar r = true) :
    ReadAs (text "\\u" ++ Text.hex 4 r) (Utf8.encode r) := by
  refine readAs_escape fun rest => ?_
  show (takeHex 4 0 (Text.hex 4 r ++ rest)).bind
      (fun p => if Utf8.isScalar p.1 then some (Utf8.encode p.1, 5) else none) =
    some (Utf8.encode r, (Text.hex 4 r).length + 1)
  rw [takeHex_hex (by decide) hr, Text.length_hex (by decide) hr]
  simp [hscalar]

/-- Eight digits in base sixteen are read as a code point. -/
theorem readAs_U {r : Nat} (hr : r < 16 ^ 8) (hscalar : Utf8.isScalar r = true) :
    ReadAs (text "\\U" ++ Text.hex 8 r) (Utf8.encode r) := by
  refine readAs_escape fun rest => ?_
  show (takeHex 8 0 (Text.hex 8 r ++ rest)).bind
      (fun p => if Utf8.isScalar p.1 then some (Utf8.encode p.1, 9) else none) =
    some (Utf8.encode r, (Text.hex 8 r).length + 1)
  rw [takeHex_hex (by decide) hr, Text.length_hex (by decide) hr]
  simp [hscalar]

/-- An escape by a letter is read as its code point. -/
theorem readAs_letter {r : Nat} {c : Char} (h : letterEscape? r = some c) :
    ReadAs (text "\\" ++ [Text.byte c]) (Utf8.encode r) := by
  unfold letterEscape? at h
  split at h
  case h_8 => cases h
  all_goals
    cases h
    exact readAs_escape fun rest => rfl

/-- The forms in which a code point stands between double quotes. -/
inductive Escaped (r : Nat) : Text → Prop where
  | self : r = 0x22 ∨ r = 0x5C → Escaped r (text "\\" ++ Utf8.encode r)
  | plain : r ≠ 0x22 → r ≠ 0x5C → r ≠ 10 → Escaped r (Utf8.encode r)
  | letter {c : Char} : letterEscape? r = some c → Escaped r (text "\\" ++ [Text.byte c])
  | byte : r < 0x80 → Escaped r (text "\\x" ++ Text.hex 2 r)
  | short : r < 0x10000 → Escaped r (text "\\u" ++ Text.hex 4 r)
  | long : Escaped r (text "\\U" ++ Text.hex 8 r)

/-- Every code point is written in one of the forms. -/
theorem escaped_escape (r : Nat) : Escaped r (escape doubleQuote r) := by
  unfold escape
  -- The forms are tried in the order in which the printer tries them.
  split
  · rename_i hself
    simp only [Bool.or_eq_true, decide_eq_true_eq] at hself
    exact .self hself
  · rename_i hplain
    simp only [Bool.or_eq_true, decide_eq_true_eq, not_or] at hplain
    split
    · rename_i hprint
      refine .plain hplain.1 hplain.2 ?_
      rintro rfl
      exact absurd hprint (by decide)
    · split
      · exact .letter ‹_›
      · split
        · rename_i hcontrol
          simp only [Bool.or_eq_true, decide_eq_true_eq] at hcontrol
          exact .byte (by omega)
        · split
          · exact .short ‹_›
          · exact .long

/-- Every form is read as the bytes of the code point. -/
theorem Escaped.readAs {r : Nat} {t : Text} (h : Escaped r t) (hscalar : Utf8.isScalar r = true) :
    ReadAs t (Utf8.encode r) := by
  have hbound : r ≤ 0x10FFFF := by
    simp only [Utf8.isScalar, Bool.or_eq_true, Bool.and_eq_true, decide_eq_true_eq] at hscalar
    omega
  -- By the form of the escape: itself, plain, a letter, a byte, or four or eight digits.
  cases h with
  | self hr => obtain rfl | rfl := hr <;> exact readAs_escape fun rest => rfl
  | plain hquote hslash hnewline => exact readAs_encode hscalar hquote hslash hnewline
  | letter hc => exact readAs_letter hc
  | byte hr =>
    have hencode : Utf8.encode r = [r.toUInt8] := by simp [Utf8.encode, hscalar, hr]
    rw [hencode]
    exact readAs_byte (by omega)
  | short hr => exact readAs_u (by omega) hscalar
  | long => exact readAs_U (by omega) hscalar

/-- A piece is read back as the bytes it was cut from. -/
theorem readAs_escapePiece {p : Utf8.Piece} (h : ∀ r, p = .rune r → Utf8.isScalar r = true) :
    ReadAs (escapePiece doubleQuote p) p.bytes := by
  cases p with
  | rune r => exact (escaped_escape r).readAs (h r rfl)
  | stray c =>
    have hbyte := readAs_byte (r := c.toNat) (UInt8.toNat_lt c)
    rwa [← Utf8.eq_toUInt8 rfl] at hbyte

/-- Parts that are read as some bytes may be put one behind the other. -/
theorem ReadAs.append {a b x y : Text} (ha : ReadAs a x) (hb : ReadAs b y) :
    ReadAs (a ++ b) (x ++ y) := by
  intro rest
  rw [List.append_assoc, ha, hb]
  cases bodyFrom 0 rest <;> simp

/-- Pieces are read back as the bytes they were cut from. -/
theorem readAs_escapePieces (ps : List Utf8.Piece)
    (h : ∀ p ∈ ps, ∀ r, p = .rune r → Utf8.isScalar r = true) :
    ReadAs (ps.flatMap (escapePiece doubleQuote)) (ps.flatMap Utf8.Piece.bytes) := by
  induction ps with
  | nil => exact fun rest => by simp
  | cons p ps ih =>
    obtain ⟨hp, hps⟩ := List.forall_mem_cons.1 h
    rw [List.flatMap_cons, List.flatMap_cons]
    exact (readAs_escapePiece hp).append (ih hps)

/-- What was quoted is read back. -/
theorem unquote?_quote (t : Text) : unquote? (quote t) = some t := by
  have hbytes : (Utf8.pieces t).flatMap Utf8.Piece.bytes = t := Utf8.flatMap_bytes_piecesFrom 0 t
  have hbody := readAs_escapePieces (Utf8.pieces t)
    (fun p hp r hr => Utf8.isScalar_of_mem_piecesFrom (hr ▸ hp)) [doubleQuote]
  rw [hbytes] at hbody
  exact hbody.trans (by simp [bodyFrom])

/-! ## What stands between the quotes -/

/-- Bodies of strings may be put one behind the other. -/
theorem stringBody_append {quote : UInt8} {a b : Text} (ha : StringBody quote a)
    (hb : StringBody quote b) : StringBody quote (a ++ b) := by
  induction ha with
  | nil => exact hb
  | plain hc hslash _ ih => exact .plain hc hslash ih
  | escaped c _ ih => exact .escaped c ih

/-- Bytes that are neither quote nor backslash are a body. -/
theorem stringBody_plain {quote : UInt8} {t : Text} (h : ∀ c ∈ t, c ≠ quote ∧ c ≠ 0x5C) :
    StringBody quote t := by
  induction t with
  | nil => exact .nil
  | cons c t ih =>
    exact .plain (h c (by simp)).1 (h c (by simp)).2
      (ih fun d hd => h d (List.mem_cons_of_mem _ hd))

/-- An escape by digits is a body. -/
theorem stringBody_numeral (c : UInt8) (w r : Nat) :
    StringBody doubleQuote (0x5C :: c :: Text.hex w r) := by
  refine .escaped c (stringBody_plain fun d hd => ?_)
  have hdigit := Text.hexDigit?_of_mem_hex hd
  constructor <;>
    · rintro rfl
      exact absurd hdigit (by decide)

/-- What is written for a code point is a body. -/
theorem Escaped.stringBody {r : Nat} {t : Text} (h : Escaped r t)
    (hscalar : Utf8.isScalar r = true) : StringBody doubleQuote t := by
  cases h with
  | self hr => obtain rfl | rfl := hr <;> exact .escaped _ .nil
  | plain hquote hslash _ =>
    exact stringBody_plain fun c hc => ⟨ne_of_mem_encode hscalar hc (by decide) hquote,
      ne_of_mem_encode hscalar hc (by decide) hslash⟩
  | letter hc => exact .escaped _ .nil
  | byte hr => exact stringBody_numeral _ 2 r
  | short hr => exact stringBody_numeral _ 4 r
  | long => exact stringBody_numeral _ 8 r

/-- What is written for a piece of a text is a body. -/
theorem stringBody_escapePiece {p : Utf8.Piece} (h : ∀ r, p = .rune r → Utf8.isScalar r = true) :
    StringBody doubleQuote (escapePiece doubleQuote p) := by
  cases p with
  | rune r => exact (escaped_escape r).stringBody (h r rfl)
  | stray c => exact stringBody_numeral _ 2 c.toNat

/-- What is written for a list of pieces is a body. -/
theorem stringBody_flatMap {quote : UInt8} {f : Utf8.Piece → Text} {ps : List Utf8.Piece}
    (h : ∀ p ∈ ps, StringBody quote (f p)) : StringBody quote (ps.flatMap f) := by
  induction ps with
  | nil => exact .nil
  | cons p ps ih =>
    obtain ⟨hp, hps⟩ := List.forall_mem_cons.1 h
    rw [List.flatMap_cons]
    exact stringBody_append hp (ih hps)

/-- A quoted text is one string. -/
theorem exists_quote_eq (t : Text) :
    ∃ body, StringBody doubleQuote body ∧ quote t = doubleQuote :: body ++ [doubleQuote] := by
  refine ⟨(Utf8.pieces t).flatMap (escapePiece doubleQuote), ?_, rfl⟩
  exact stringBody_flatMap fun p hp => stringBody_escapePiece fun r hr =>
    Utf8.isScalar_of_mem_piecesFrom (hr ▸ hp)

end Quoted

/-! ## Numbers -/

namespace Text

/-- The bytes of the decimal numeral of a number. -/
theorem ofNat_eq_if (n : Nat) :
    ofNat n = if n < 10 then [(Nat.digitChar n).toNat.toUInt8]
      else ofNat (n / 10) ++ [(Nat.digitChar (n % 10)).toNat.toUInt8] := by
  rw [ofNat, Nat.toDigits_eq_if (by decide)]
  split
  · rfl
  · rw [List.map_append]
    rfl

/-- A decimal digit is read back. -/
theorem digitChar_byte {d : Nat} (hd : d < 10) :
    isDigit (Nat.digitChar d).toNat.toUInt8 = true ∧
      (Nat.digitChar d).toNat.toUInt8.toNat - 48 = d := by
  interval_cases d <;> decide

/-- A numeral consists of digits. -/
theorem isDigit_of_mem_ofNat {n : Nat} {c : UInt8} (h : c ∈ ofNat n) : isDigit c = true := by
  -- By strong induction on the number, as its numeral is made.
  induction n using Nat.strong_induction_on with
  | _ n ih =>
    rw [ofNat_eq_if] at h
    split at h
    · rename_i hn
      rw [List.mem_singleton.1 h]
      exact (digitChar_byte hn).1
    · obtain hmem | hmem := List.mem_append.1 h
      · exact ih (n / 10) (by omega) hmem
      · rw [List.mem_singleton.1 hmem]
        exact (digitChar_byte (by omega)).1

/-- A numeral is not empty. -/
theorem ofNat_ne_nil (n : Nat) : ofNat n ≠ [] := by
  rw [ofNat_eq_if]
  split <;> simp

/-- A numeral is read back. -/
theorem toNat?_ofNat (n : Nat) : toNat? (ofNat n) = some n := by
  rw [toNat?, if_neg (by simpa using ofNat_ne_nil n)]
  -- The last digit is the remainder by ten, and the digits in front of it those of the quotient.
  induction n using Nat.strong_induction_on with
  | _ n ih =>
    rw [ofNat_eq_if]
    split
    · rename_i hn
      have hbyte := digitChar_byte hn
      generalize (Nat.digitChar n).toNat.toUInt8 = c at hbyte
      simp [hbyte.1, hbyte.2]
    · have hbyte := digitChar_byte (Nat.mod_lt n (by decide : 0 < 10))
      generalize (Nat.digitChar (n % 10)).toNat.toUInt8 = c at hbyte
      rw [List.foldl_append, ih (n / 10) (by omega)]
      simp only [List.foldl_cons, List.foldl_nil, Option.bind_eq_bind, Option.bind_some, hbyte.1,
        hbyte.2, if_true, Option.some.injEq]
      omega

end Text

namespace TypeExpr

/-- What is read as a number of 64 bits is one. -/
theorem isInt64_of_parseInt64? {t : Text} {n : Int} (h : parseInt64? t = some n) :
    Integer.isInt64 n = true := by
  unfold parseInt64? at h
  obtain ⟨m, -, h⟩ := Option.bind_eq_some_iff.1 h
  simp only [Integer.isInt64, Bool.and_eq_true, decide_eq_true_eq]
  split at h
  all_goals
    simp only [if_true, Bool.false_eq_true, if_false, Option.ite_none_right_eq_some,
      Option.some.injEq] at h
    omega

/-- A number of 64 bits is read back from its numeral. -/
theorem parseInt64?_ofInt {n : Int} (h : Integer.isInt64 n = true) :
    parseInt64? (Text.ofInt n) = some n := by
  simp only [Integer.isInt64, Bool.and_eq_true, decide_eq_true_eq] at h
  obtain ⟨hlow, hhigh⟩ := h
  -- A numeral without sign must not begin with the sign; a negative one has its sign taken off.
  cases n with
  | ofNat m =>
    obtain ⟨c, cs, hcs⟩ := List.exists_cons_of_ne_nil (Text.ofNat_ne_nil m)
    have hdigit : Text.isDigit c = true := Text.isDigit_of_mem_ofNat (n := m) (by simp [hcs])
    have hc : c ≠ 45 := by
      rintro rfl
      cases hdigit
    have hm : m < 0x8000000000000000 := by simp at hhigh; omega
    have hread : Text.toNat? (c :: cs) = some m := hcs ▸ Text.toNat?_ofNat m
    rw [Text.ofInt, hcs]
    simp [parseInt64?, hc, hread, hm]
  | negSucc m =>
    have hm : m + 1 ≤ 0x8000000000000000 := by omega
    have hread : Text.toNat? (Text.ofNat (m + 1)) = some (m + 1) := Text.toNat?_ofNat (m + 1)
    show (do
      let n ← Text.toNat? (Text.ofNat (m + 1))
      if n ≤ 0x8000000000000000 then some (-(n : Int)) else none) = some (Int.negSucc m)
    rw [hread]
    simp only [Option.bind_eq_bind, Option.bind_some, if_pos hm, Option.some.injEq]
    omega

end TypeExpr
end TypeShape
