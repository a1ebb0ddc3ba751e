import TypeShape.Proofs.Spelling

/-!
# Texts that tell where they end

Two texts that are written one behind the other can be told apart again if the first shows where it
ends: a run of bytes in front of a byte of another class, a quotation, parts with separators up to a
closing byte.  Each lemma here reads two such texts off the front of one text and says that they are
the same, and the rests too.  Literals are written in this way; those that are no numbers with a
point are told by what is written.

## Key results

- `run_split`, `quote_split`, `join_split`: runs of bytes, quotations and lists
- `Literal.renders_split`: the values of a literal type in brackets
- `Literal.renders_inj`: literals whose texts tell their kind
-/

namespace TypeShape

open Token

/-! ## Runs, quotations and lists -/

/-- Two runs of bytes of a class, each up to its end. -/
theorem run_split {p : UInt8 → Bool} {a b x y : Text} (ha : a.all p = true) (hb : b.all p = true)
    (hx : Stops p x) (hy : Stops p y) (h : a ++ x = b ++ y) : a = b ∧ x = y := by
  have hab : a = b := by rw [← hx.takeWhile_append ha, h, hy.takeWhile_append hb]
  subst hab
  exact ⟨rfl, List.append_cancel_left h⟩

/-- A name consists of bytes that may stand in a name. -/
theorem all_isNamePart {n : Text} (h : isIdentifier n = true) : n.all isNamePart = true := by
  have hstart : ∀ c, isNameStart c = true → isNamePart c = true := by decide +kernel
  cases n with
  | nil => rfl
  | cons c cs =>
    rw [isIdentifier, Bool.and_eq_true] at h
    rw [List.all_cons, hstart c h.1, h.2]
    rfl

/-- A quotation shows where it ends: its closing quote is the first one that is not escaped. -/
theorem quote_split {a b x y : Text} (h : Quoted.quote a ++ x = Quoted.quote b ++ y) :
    a = b ∧ x = y := by
  obtain ⟨body, hbody, hquote⟩ := Quoted.exists_quote_eq a
  obtain ⟨body', hbody', hquote'⟩ := Quoted.exists_quote_eq b
  -- both strings are closed at the same byte of the common text
  have htail : body ++ [Quoted.doubleQuote] ++ x = body' ++ [Quoted.doubleQuote] ++ y := by
    rw [hquote, hquote'] at h
    exact List.cons.inj h |>.2
  have hlength : body.length + 1 = body'.length + 1 := by
    have hclose := hbody.stringTail?_append (by decide) x
    rw [htail, hbody'.stringTail?_append (by decide) y] at hclose
    exact (Option.some.inj hclose).symm
  obtain ⟨hbodies, hrest⟩ := List.append_inj htail (by simpa using hlength)
  have hquotes : Quoted.quote a = Quoted.quote b := by
    rw [hquote, hquote', List.cons_append, List.cons_append, hbodies]
  have hread := congrArg Quoted.unquote? hquotes
  rw [Quoted.unquote?_quote, Quoted.unquote?_quote] at hread
  exact ⟨Option.some.inj hread, hrest⟩

/-- A bracketed text in front of another one. -/
theorem bracketed_append (t x : Text) :
    Text.bracketed t ++ x = Text.byte '[' :: (t ++ Text.byte ']' :: x) := by
  simp [Text.bracketed, text, Text.byte]

section

variable {α β : Type}

/-- What follows the first of some parts. -/
theorem join_cons_append (s close : UInt8) (pad t : Text) (ts : List Text) (x : Text) :
    ∃ rest, Text.join (s :: pad) (t :: ts) ++ close :: x = t ++ rest ∧
      (ts = [] ∧ rest = close :: x ∨
        ts ≠ [] ∧ rest = s :: (pad ++ (Text.join (s :: pad) ts ++ close :: x))) := by
  cases ts with
  | nil => exact ⟨_, rfl, .inl ⟨rfl, rfl⟩⟩
  | cons u us => exact ⟨_, by simp [Text.join], .inr ⟨by simp, rfl⟩⟩

/-- Parts with a separator between them, up to a closing byte.  Each part has to end where the
separator or the closing byte begins, and none may begin with the closing byte. -/
theorem join_split (f : α → Text) (g : α → β) (s close : UInt8) (pad : Text) (hs : s ≠ close)
    {as bs : List α} (has : ∀ a ∈ as, ∃ c cs, f a = c :: cs ∧ c ≠ close)
    (hbs : ∀ b ∈ bs, ∃ c cs, f b = c :: cs ∧ c ≠ close)
    (hsplit : ∀ a ∈ as, ∀ b ∈ bs, ∀ c x d y, c = s ∨ c = close → d = s ∨ d = close →
      f a ++ c :: x = f b ++ d :: y → g a = g b ∧ c :: x = d :: y) {x y : Text}
    (h : Text.join (s :: pad) (as.map f) ++ close :: x =
      Text.join (s :: pad) (bs.map f) ++ close :: y) : as.map g = bs.map g ∧ x = y := by
  -- The two lists are cut part by part, so the induction is on the first one for every second one.
  induction as generalizing bs with
  | nil =>
    cases bs with
    | nil => exact ⟨rfl, (List.cons.inj h).2⟩
    -- One list is empty: the closing byte would begin a part of the other.
    | cons b bs =>
      obtain ⟨c, cs, hb, hc⟩ := hbs b (by simp)
      obtain ⟨rest, hrest, -⟩ := join_cons_append s close pad (f b) (bs.map f) y
      rw [List.map_cons, hrest, hb] at h
      exact absurd (List.cons.inj h).1.symm hc
  | cons a as ih =>
    obtain ⟨rest, hrest, hrest'⟩ := join_cons_append s close pad (f a) (as.map f) x
    cases bs with
    | nil =>
      obtain ⟨c, cs, ha, hc⟩ := has a (by simp)
      rw [List.map_cons, hrest, ha] at h
      exact absurd (List.cons.inj h).1 hc
    | cons b bs =>
      obtain ⟨rest', hrest₂, hrest₂'⟩ := join_cons_append s close pad (f b) (bs.map f) y
      rw [List.map_cons, List.map_cons, hrest, hrest₂] at h
      have hfirst := hsplit a (by simp) b (by simp)
      -- Each part ends before a separator or before the closing byte; if the two differ there, the
      -- texts do.
      obtain ⟨has', rfl⟩ | ⟨has', rfl⟩ := hrest' <;> obtain ⟨hbs', rfl⟩ | ⟨hbs', rfl⟩ := hrest₂'
      · obtain ⟨hg, hxy⟩ := hfirst _ _ _ _ (.inr rfl) (.inr rfl) h
        simp only [List.map_eq_nil_iff] at has' hbs'
        simp [has', hbs', hg, (List.cons.inj hxy).2]
      · obtain ⟨-, hxy⟩ := hfirst _ _ _ _ (.inr rfl) (.inl rfl) h
        exact absurd (List.cons.inj hxy).1.symm hs
      · obtain ⟨-, hxy⟩ := hfirst _ _ _ _ (.inl rfl) (.inr rfl) h
        exact absurd (List.cons.inj hxy).1 hs
      · obtain ⟨hg, hxy⟩ := hfirst _ _ _ _ (.inl rfl) (.inl rfl) h
        have htail := List.append_cancel_left (List.cons.inj hxy).2
        obtain ⟨hmap, hrest⟩ := ih (fun u hu => has u (List.mem_cons_of_mem _ hu))
          (fun u hu => hbs u (List.mem_cons_of_mem _ hu))
          (fun u hu w hw => hsplit u (List.mem_cons_of_mem _ hu) w (List.mem_cons_of_mem _ hw))
          htail
        simp [hg, hmap, hrest]

end

/-! ## Numerals -/

namespace Text

/-- A number has one decimal numeral. -/
theorem ofNat_inj {m n : Nat} (h : ofNat m = ofNat n) : m = n := by
  have hread := congrArg toNat? h
  rw [toNat?_ofNat, toNat?_ofNat] at hread
  exact Option.some.inj hread

/-- An integer has one decimal numeral. -/
theorem ofInt_inj {m n : Int} (h : ofInt m = ofInt n) : m = n := by
  -- A numeral without a sign begins with a digit.
  have hminus : ∀ {k : Nat} {t : Text}, ofNat k ≠ text "-" ++ t := by
    intro k t heq
    have hdigit : isDigit (byte '-') = true :=
      isDigit_of_mem_ofNat (n := k) (by rw [heq]; exact List.mem_cons_self)
    exact absurd hdigit (by decide)
  cases m with
  | ofNat m =>
    cases n with
    | ofNat n => rw [ofNat_inj h]
    | negSucc n => exact absurd h hminus
  | negSucc m =>
    cases n with
    | ofNat n => exact absurd h.symm hminus
    | negSucc n =>
      have hmn := ofNat_inj (List.append_cancel_left h)
      rw [Nat.succ.inj hmn]

/-- A numeral is no word. -/
theorem ofInt_ne_cons {n : Int} {c : UInt8} {t : Text} (hc : isDigit c = false)
    (hminus : c ≠ byte '-') : ofInt n ≠ c :: t := by
  intro h
  cases n with
  | ofNat m =>
    have hdigit : isDigit c = true :=
      isDigit_of_mem_ofNat (n := m) (by rw [show ofNat m = c :: t from h]; simp)
    rw [hdigit] at hc
    cases hc
  | negSucc m => exact hminus (List.cons.inj h).1.symm

end Text

/-! ## Literals -/

/-- Whether a byte neither ends a literal in a list nor begins a string. -/
def isPlainByte (c : UInt8) : Bool :=
  c != Text.byte ',' && c != Text.byte ']' && c != Quoted.doubleQuote

/-- A text that is not empty and has plain bytes only. -/
def IsPlainText (t : Text) : Prop :=
  t ≠ [] ∧ t.all isPlainByte = true

/-- The digits of a number are plain. -/
theorem all_isPlainByte_ofNat (n : Nat) : (Text.ofNat n).all isPlainByte = true := by
  have hdigit : ∀ c, Text.isDigit c = true → isPlainByte c = true := by decide +kernel
  exact List.all_eq_true.2 fun c hc => hdigit c (Text.isDigit_of_mem_ofNat hc)

/-- The numeral of an integer is plain. -/
theorem isPlainText_ofInt (n : Int) : IsPlainText (Text.ofInt n) := by
  cases n with
  | ofNat m => exact ⟨Text.ofNat_ne_nil m, all_isPlainByte_ofNat m⟩
  | negSucc m =>
    have hminus : (text "-").all isPlainByte = true := by decide
    refine ⟨by simp [Text.ofInt, text], ?_⟩
    rw [Text.ofInt, List.all_append, hminus, all_isPlainByte_ofNat]
    rfl

namespace Binary

/-- Zeros are plain. -/
theorem all_isPlainByte_zeros (n : Nat) :
    (List.replicate n (Text.byte '0')).all isPlainByte = true := by
  refine List.all_eq_true.2 fun c hc => ?_
  rw [(List.mem_replicate.1 hc).2]
  decide

/-- An exponent is plain. -/
theorem all_isPlainByte_renderExponent (e : Int) : (renderExponent e).all isPlainByte = true := by
  have hmark : (text (if e < 0 then "e-" else "e+")).all isPlainByte = true := by
    split <;> decide
  have hzero : (text "0").all isPlainByte = true := by decide
  have hdigits := all_isPlainByte_ofNat e.natAbs
  simp only [renderExponent, List.all_append, hmark, Bool.true_and]
  split
  · rw [List.all_append, hzero, hdigits]
    rfl
  · exact hdigits

/-- The digits of a float in any layout are plain. -/
theorem isPlainText_digits (d : Digits) : IsPlainText d.render := by
  have hpoint : (text ".").all isPlainByte = true ∧ (text "0.").all isPlainByte = true := by decide
  have hds := all_isPlainByte_ofNat d.value
  have hne := Text.ofNat_ne_nil d.value
  have hexponent := all_isPlainByte_renderExponent d.exponent
  simp only [Digits.render]
  generalize Text.ofNat d.value = ds at hds hne ⊢
  split
  · -- scientific: the first digit stands before the point
    split
    · exact absurd rfl hne
    · rw [List.all_cons, Bool.and_eq_true] at hds
      refine ⟨by simp, ?_⟩
      rw [List.all_cons, hds.1, hexponent]
      rfl
    · rw [List.all_cons, Bool.and_eq_true] at hds
      refine ⟨by simp, ?_⟩
      rw [List.cons_append, List.cons_append, List.all_cons, List.all_append, List.all_append,
        hds.1, hds.2, hpoint.1, hexponent]
      rfl
  -- The other layouts: zeros in front, zeros behind, or the point among the digits.
  split
  · refine ⟨by simp [text], ?_⟩
    rw [List.all_append, List.all_append, hpoint.2, all_isPlainByte_zeros, hds]
    rfl
  split
  · refine ⟨by simp [hne], ?_⟩
    rw [List.all_append, all_isPlainByte_zeros, hds]
    rfl
  · refine ⟨by simp [text], ?_⟩
    have htake : (ds.take (d.exponent.toNat + 1)).all isPlainByte = true :=
      List.all_eq_true.2 fun c hc => List.all_eq_true.1 hds c (List.mem_of_mem_take hc)
    have hdrop : (ds.drop (d.exponent.toNat + 1)).all isPlainByte = true :=
      List.all_eq_true.2 fun c hc => List.all_eq_true.1 hds c (List.mem_of_mem_drop hc)
    rw [List.all_append, List.all_append, htake, hpoint.1, hdrop]
    rfl

/-- The text of a float is plain, special values included. -/
theorem isPlainText_render (w : Width) (x : Binary) : IsPlainText (x.render w) := by
  cases x with
  | nan =>
    show IsPlainText (text "NaN")
    exact ⟨by decide, by decide⟩
  | infinite negative =>
    show IsPlainText (text (if negative then "-Inf" else "+Inf"))
    cases negative <;> exact ⟨by decide, by decide⟩
  | finite negative s e =>
    -- Signs, digits and the names of special values are all plain.
    have hsign : (text (if negative then "-" else "")).all isPlainByte = true := by
      cases negative <;> decide
    have hzero : (text "0").all isPlainByte = true := by decide
    show IsPlainText (text (if negative then "-" else "") ++
      if s = 0 then text "0" else (shortest w s e).render)
    by_cases hs : s = 0
    · rw [if_pos hs]
      refine ⟨by simp [text], ?_⟩
      rw [List.all_append, hsign, hzero]
      rfl
    · rw [if_neg hs]
      obtain ⟨hne, hall⟩ := isPlainText_digits (shortest w s e)
      refine ⟨by simp [hne], ?_⟩
      rw [List.all_append, hsign, hall]
      rfl

end Binary

namespace Literal

/-- A literal is written as a quotation or in plain bytes. -/
theorem quote_or_isPlainText (v : Literal) :
    (∃ t, v.render = Quoted.quote t) ∨ IsPlainText v.render := by
  cases v with
  | nil => exact .inr ⟨by decide, by decide⟩
  | bool b => cases b <;> exact .inr ⟨by decide, by decide⟩
  | string t => exact .inl ⟨t, rfl⟩
  | int n => exact .inr (isPlainText_ofInt n)
  | address n => exact .inr ⟨Text.ofNat_ne_nil n, all_isPlainByte_ofNat n⟩
  | float w x => exact .inr (Binary.isPlainText_render w x)
  | other => exact .inr ⟨by decide, by decide⟩

/-- The text of a literal never begins with the closing bracket. -/
theorem render_begins (v : Literal) : ∃ c cs, v.render = c :: cs ∧ c ≠ Text.byte ']' := by
  obtain ⟨t, ht⟩ | ⟨hne, hall⟩ := v.quote_or_isPlainText
  · exact ⟨_, _, ht, by decide⟩
  · obtain ⟨c, cs, hcs⟩ := List.exists_cons_of_ne_nil hne
    rw [hcs, List.all_cons, Bool.and_eq_true] at hall
    refine ⟨c, cs, hcs, ?_⟩
    rintro rfl
    exact absurd hall.1 (by decide)

/-- A quotation is not a plain text. -/
theorem quote_append_ne {t a x y : Text} (ha : IsPlainText a) : Quoted.quote t ++ x ≠ a ++ y := by
  obtain ⟨hne, hall⟩ := ha
  obtain ⟨c, cs, rfl⟩ := List.exists_cons_of_ne_nil hne
  intro h
  rw [List.all_cons, Bool.and_eq_true] at hall
  have hc : Quoted.doubleQuote = c := (List.cons.inj h).1
  rw [← hc] at hall
  exact absurd hall.1 (by decide)

/-- Two literals in front of bytes that are not plain can be told apart. -/
theorem render_split {v w : Literal} {c d : UInt8} {x y : Text} (hc : isPlainByte c = false)
    (hd : isPlainByte d = false) (h : v.render ++ c :: x = w.render ++ d :: y) :
    v.render = w.render ∧ c :: x = d :: y := by
  -- Quoted texts end with their closing quote, other texts before a byte that is not plain.
  obtain ⟨t, ht⟩ | hv := v.quote_or_isPlainText <;> obtain ⟨u, hu⟩ | hw := w.quote_or_isPlainText
  · rw [ht, hu] at h ⊢
    obtain ⟨rfl, hrest⟩ := quote_split h
    exact ⟨rfl, hrest⟩
  · rw [ht] at h
    exact absurd h (quote_append_ne hw)
  · rw [hu] at h
    exact absurd h.symm (quote_append_ne hv)
  · exact run_split hv.2 hw.2 (stops_cons hc x) (stops_cons hd y) h

/-- The values of a literal type in brackets tell how each of them is written. -/
theorem renders_split {vs ws : List Literal} {x y : Text}
    (h : Text.commas (vs.map render) ++ Text.byte ']' :: x =
      Text.commas (ws.map render) ++ Text.byte ']' :: y) :
    vs.map render = ws.map render ∧ x = y := by
  refine join_split render render (Text.byte ',') (Text.byte ']') (text " ") (by decide)
    (fun v _ => v.render_begins) (fun w _ => w.render_begins) ?_ h
  intro v _ w _ c x d y hc hd
  refine render_split ?_ ?_
  · obtain rfl | rfl := hc <;> decide
  · obtain rfl | rfl := hd <;> decide

/-- Whether the text of a literal tells its kind. -/
def isExact : Literal → Bool
  | .nil | .bool _ | .string _ | .int _ => true
  | _ => false

/-- Exact literals with one text are the same. -/
theorem render_inj {v w : Literal} (hv : v.isExact = true) (hw : w.isExact = true)
    (h : v.render = w.render) : v = w := by
  -- Only a string shows a quote.
  have hquote : ∀ {t a : Text}, IsPlainText a → Quoted.quote t ≠ a := by
    intro t a ha
    simpa using quote_append_ne (x := []) (y := []) ha
  cases v with
  | nil =>
    cases w with
    | nil => rfl
    | bool b => cases b <;> exact absurd h (by decide)
    | string s => exact absurd h.symm (hquote ⟨by decide, by decide⟩)
    | int n => exact absurd h.symm (Text.ofInt_ne_cons (by decide) (by decide))
    | _ => cases hw
  | bool b =>
    cases w with
    | nil => cases b <;> exact absurd h (by decide)
    | bool c =>
      cases b <;> cases c
      · rfl
      · exact absurd h (by decide)
      · exact absurd h (by decide)
      · rfl
    | string s => cases b <;> exact absurd h.symm (hquote ⟨by decide, by decide⟩)
    | int n => cases b <;> exact absurd h.symm (Text.ofInt_ne_cons (by decide) (by decide))
    | _ => cases hw
  | string s =>
    cases w with
    | nil => exact absurd h (hquote ⟨by decide, by decide⟩)
    | bool b => cases b <;> exact absurd h (hquote ⟨by decide, by decide⟩)
    | string t =>
      have hst := quote_split (congrArg (· ++ []) h)
      rw [hst.1]
    | int n => exact absurd h (hquote (isPlainText_ofInt n))
    | _ => cases hw
  | int n =>
    cases w with
    | nil => exact absurd h (Text.ofInt_ne_cons (by decide) (by decide))
    | bool b => cases b <;> exact absurd h (Text.ofInt_ne_cons (by decide) (by decide))
    | string s => exact absurd h.symm (hquote (isPlainText_ofInt n))
    | int m => rw [Text.ofInt_inj h]
    | _ => cases hw
  | _ => cases hv

/-- Lists of exact literals with the same texts are the same. -/
theorem renders_inj {vs ws : List Literal} (hvs : ∀ v ∈ vs, v.isExact = true)
    (hws : ∀ w ∈ ws, w.isExact = true) (h : vs.map render = ws.map render) : vs = ws := by
  -- By induction on the lists, literal by literal.
  induction vs generalizing ws with
  | nil => exact (List.map_eq_nil_iff.1 h.symm).symm
  | cons v vs ih =>
    cases ws with
    | nil => cases h
    | cons w ws =>
      obtain ⟨hv, hvs'⟩ := List.forall_mem_cons.1 hvs
      obtain ⟨hw, hws'⟩ := List.forall_mem_cons.1 hws
      rw [List.map_cons, List.map_cons, List.cons.injEq] at h
      rw [render_inj hv hw h.1, ih hvs' hws' h.2]

end Literal

end TypeShape
