import TypeShape.Proofs.DecimalNotation
import TypeShape.Proofs.RoundTrip

/-!
# Literals that are read back

Every literal that was read is written as one symbol, and what it is read back as depends on that
symbol alone.  Literals that are no floating-point numbers are always read back.  A floating-point
number is read back if it is written with a point, because a whole number is read otherwise, and
without an exponent, because the lexer knows none.

## Key results

- `Registry.literalsDenoted_of_parse`: the literals of what is read are those that symbols denote
- `Registry.parse_render_literal_iff`: which literals are read back from what is written for them
-/

namespace TypeShape

open Token TypeExpr

/-! ## The literals of what is read -/

/-- Every literal in an expression is what some symbol denotes. -/
def TypeExpr.LiteralsDenoted (t : TypeExpr) : Prop :=
  ∀ vs, Occurs (.literal vs) t → ∀ v ∈ vs, ∃ s : Symbol, s.literal? = some v

/-- Every literal in what a phrase denotes is what some symbol denotes. -/
def Phrase.LiteralsDenoted : Phrase → Prop
  | .union t => t.LiteralsDenoted
  | .alternatives ts => ∀ t ∈ ts, t.LiteralsDenoted
  | .term t => t.LiteralsDenoted
  | .arguments ts => ∀ t ∈ ts, t.LiteralsDenoted
  | .sequence ts => ∀ t ∈ ts, t.LiteralsDenoted
  | .parameters ts => ∀ t ∈ ts, t.LiteralsDenoted
  | .callable t => t.LiteralsDenoted
  | .metadata _ => True
  | .literals vs => ∀ v ∈ vs, ∃ s : Symbol, s.literal? = some v

namespace TypeExpr.LiteralsDenoted

variable {t : TypeExpr} {ts : List TypeExpr}

/-- A class without arguments has no literals in it. -/
theorem con (n : Text) : LiteralsDenoted (.con n) := fun _ h => nomatch h

/-- The literals of a union are those of its members. -/
theorem union (h : ∀ t ∈ ts, t.LiteralsDenoted) (optional : Bool) :
    LiteralsDenoted (.union ts optional) := by
  intro vs hvs
  cases hvs with
  | member hmem hvs => exact h _ hmem vs hvs

/-- The literals of a class applied to arguments are those of the arguments. -/
theorem app (h : ∀ t ∈ ts, t.LiteralsDenoted) (head : Text) : LiteralsDenoted (.app head ts) := by
  intro vs hvs
  cases hvs with
  | argument hmem hvs => exact h _ hmem vs hvs

/-- The literals of a function are those of its parameters and its result. -/
theorem callable (h : ∀ t ∈ ts, t.LiteralsDenoted) (ht : t.LiteralsDenoted) (ellipsis : Bool) :
    LiteralsDenoted (.callable ts t ellipsis) := by
  intro vs hvs
  cases hvs with
  | parameter hmem hvs => exact h _ hmem vs hvs
  | result hvs => exact ht vs hvs

/-- The literals of a type of types are those of its operand. -/
theorem typeOf (h : t.LiteralsDenoted) : LiteralsDenoted (.typeOf t) := by
  intro vs hvs
  cases hvs with
  | operand hvs => exact h vs hvs

/-- The literals of an annotated type are those of the type. -/
theorem annotated (h : t.LiteralsDenoted) (ms : List Text) : LiteralsDenoted (.annotated t ms) := by
  intro vs hvs
  cases hvs with
  | inner hvs => exact h vs hvs

/-- A literal type has its own values in it. -/
theorem literal {vs : List Literal} (h : ∀ v ∈ vs, ∃ s : Symbol, s.literal? = some v) :
    LiteralsDenoted (.literal vs) := by
  intro ws hws
  cases hws with
  | self => exact h

end TypeExpr.LiteralsDenoted

open LiteralsDenoted in
/-- Everything that the grammar makes of words has literals that symbols denote, if what the names
stand for has. -/
theorem literalsDenoted_of_produces {scope : Scope} {phrase : Phrase} {ss : List Symbol}
    (hscope : ∀ n t, scope n = some t → t.LiteralsDenoted) (h : Produces scope phrase ss) :
    phrase.LiteralsDenoted := by
  -- By induction on the derivation; the values of a literal type are those that its symbols denote.
  induction h with
  | single _ ih => exact ih
  | several _ _ _ ih₁ ih₂ => exact union (List.forall_mem_cons.2 ⟨ih₁, ih₂⟩) false
  | noAlternative => exact fun t ht => absurd ht List.not_mem_nil
  | alternative _ _ ih₁ ih₂ => exact List.forall_mem_cons.2 ⟨ih₁, ih₂⟩
  | any => exact con _
  | none => exact con _
  | nil => exact con _
  | optional _ ih =>
    exact union (List.forall_mem_cons.2 ⟨ih, List.forall_mem_singleton.2 (con _)⟩) true
  | unionOfOne _ ih => exact ih _ (List.mem_singleton_self _)
  | unionOfMore _ _ ih => exact union ih false
  | bareCallable => exact con _
  | callable _ ih => exact ih
  | bareType => exact typeOf fun _ h => nomatch h
  | typeOf _ ih => exact typeOf ih
  | annotated _ _ ih _ => exact annotated ih _
  | literal _ ih => exact literal ih
  | plain _ hresolved => exact hscope _ _ hresolved
  | applied _ _ _ ih => exact app ih _
  | arguments _ ih => exact ih
  | lastOf _ ih => exact List.forall_mem_singleton.2 ih
  | more _ _ ih₁ ih₂ => exact List.forall_mem_cons.2 ⟨ih₁, ih₂⟩
  | noParameter => exact fun t ht => absurd ht List.not_mem_nil
  | parameters _ ih => exact ih
  | parametersComma _ ih => exact ih
  | anyParameters _ ih => exact callable (fun t ht => absurd ht List.not_mem_nil) ih true
  | withParameters _ _ ih₁ ih₂ => exact callable ih₁ ih₂ false
  | noMetadata => trivial
  | metadata _ _ _ => trivial
  | lastLiteral hv => exact List.forall_mem_singleton.2 ⟨_, hv⟩
  | moreLiterals hv _ ih => exact List.forall_mem_cons.2 ⟨⟨_, hv⟩, ih⟩

/-- The literals of what is read are those that symbols denote, if this holds of the aliases. -/
theorem Registry.literalsDenoted_of_parse {r : Registry}
    (haliases : ∀ n t, r.alias? n = some t → t.LiteralsDenoted) {source : Text} {t : TypeExpr}
    (hread : r.parse source = .ok t) : t.LiteralsDenoted := by
  obtain ⟨ss, -, hproduces⟩ := produces_of_parse hread
  refine literalsDenoted_of_produces (fun n t ht => ?_) hproduces
  -- A name in the source is a variable, a class or an alias.
  unfold lookup at ht
  split at ht
  · cases ht
    exact .con _
  split at ht
  · cases ht
    exact .con n
  split at ht
  · cases ht
    exact fun _ h => nomatch h
  · exact haliases n t ht

/-! ## The symbols of a source -/

/-- How a symbol is written. -/
def Symbol.spelling : Symbol → Text
  | .name n => n
  | .string s => s
  | .number n => n
  | .opening => [Text.byte '[']
  | .closing => [Text.byte ']']
  | .comma => [Text.byte ',']
  | .pipe => [Text.byte '|']
  | .ellipsis => text "..."

/-- But for white space, a source has the bytes of its symbols. -/
theorem Lexes.mem_iff {source : Text} {ss : List Symbol} (h : Lexes source ss) {c : UInt8}
    (hc : Text.isSpace c = false) : c ∈ source ↔ ∃ s ∈ ss, c ∈ s.spelling := by
  -- By induction on the symbols of the source.
  induction h with
  | nil => simp
  | @space d t ss hd _ ih =>
    have hne : c ≠ d := by
      rintro rfl
      rw [hc] at hd
      cases hd
    rw [List.mem_cons, or_iff_right hne, ih]
  | opening _ ih | closing _ ih | comma _ ih | pipe _ ih =>
    simp [Symbol.spelling, ih]
  | ellipsis _ ih | string _ _ _ ih | number _ _ _ _ ih | name _ _ _ _ ih =>
    simp only [List.mem_append, List.exists_mem_cons_iff, Symbol.spelling, ih]

/-- A number has no bytes but those of numbers. -/
theorem Lexes.isNumber {source : Text} {ss : List Symbol} (h : Lexes source ss) :
    ∀ n, .number n ∈ ss → ∀ c ∈ n, isNumberStart c = true ∨ isNumberPart c = true := by
  -- By induction on the symbols; only the symbol of a number has bytes to look at.
  induction h with
  | @number c part t ss hc hpart _ _ ih =>
    intro n hn
    obtain heq | hmem := List.mem_cons.1 hn
    · cases heq
      exact List.forall_mem_cons.2 ⟨.inl hc, fun d hd => .inr (List.all_eq_true.1 hpart d hd)⟩
    · exact ih n hmem
  | nil => exact fun n hn => absurd hn List.not_mem_nil
  | space _ _ ih => exact ih
  | _ =>
    rename_i ih
    intro n hn
    obtain heq | hmem := List.mem_cons.1 hn
    · cases heq
    · exact ih n hmem

/-- A name is as long as it can be. -/
theorem Lexes.of_name {n t : Text} {m : Text} {ss : List Symbol} (hn : Token.isIdentifier n = true)
    (ht : Stops isNamePart t) (h : Lexes (n ++ t) (.name m :: ss)) : m = n ∧ Lexes t ss := by
  -- Every byte that starts a name is part of names as well, which a check of all bytes tells.
  have hpart : ∀ c, isNameStart c = true → isNamePart c = true ∧ Text.isSpace c = false := by
    decide +kernel
  have hall : ∀ {c : UInt8} {cs : Text}, isNameStart c = true → cs.all isNamePart = true →
      (c :: cs).all isNamePart = true := fun hc hcs => by
    rw [List.all_cons, (hpart _ hc).1, hcs]
    rfl
  obtain ⟨c, cs, rfl⟩ := List.exists_cons_of_ne_nil (show n ≠ [] by rintro rfl; cases hn)
  rw [Token.isIdentifier, Bool.and_eq_true] at hn
  generalize hsource : c :: cs ++ t = source at h
  generalize hsymbols : Symbol.name m :: ss = symbols at h
  cases h with
  | space hspace _ =>
    cases hsource
    rw [(hpart c hn.1).2] at hspace
    cases hspace
  | @name d part t' ss' hd hpart' hstop hrest =>
    cases hsymbols
    -- both names are the longest run of their bytes at the front of one text
    have htake := congrArg (List.takeWhile isNamePart) hsource
    rw [ht.takeWhile_append (hall hn.1 hn.2), hstop.takeWhile_append (hall hd hpart')] at htake
    rw [htake, List.append_cancel_left_eq] at hsource
    rw [hsource]
    exact ⟨htake.symm, hrest⟩
  | _ => cases hsymbols

/-! ## Literals that are read back -/

/-- A numeral is written as one symbol. -/
theorem Spelled.numeral {c : UInt8} {part : Text} (hc : isNumberStart c = true)
    (hpart : part.all isNumberPart = true) : Spelled (c :: part) [.number (c :: part)] :=
  fun _ _ hrest hrs => .number hc hpart hrest.2 hrs

/-- Floating-point numbers are denoted by numerals with a point. -/
theorem number_of_literal? {s : Symbol} {w : Width} {x : Binary}
    (h : s.literal? = some (.float w x)) :
    ∃ n, s = .number n ∧ Text.byte '.' ∈ n ∧ w = .double ∧ Binary.parse? .double n = some x := by
  cases s with
  | number n =>
    have hnumber : parseNumber? n = some (.float w x) := h
    unfold parseNumber? at hnumber
    split at hnumber
    -- A numeral without a point denotes a whole number.
    · rename_i hpoint
      obtain ⟨y, hy, heq⟩ := Option.map_eq_some_iff.1 hnumber
      cases heq
      exact ⟨n, rfl, by simpa using hpoint, rfl, hy⟩
    · obtain ⟨n, -, heq⟩ := Option.map_eq_some_iff.1 hnumber
      cases heq
  | string n =>
    obtain ⟨m, -, heq⟩ := Option.map_eq_some_iff.1 h
    cases heq
  | name n =>
    have hname : parseLiteralName? n = some (.float w x) := h
    unfold parseLiteralName? at hname
    repeat' split at hname
    -- The names that denote literals denote truth values and nothing.
    all_goals cases hname
  | _ => cases h

namespace Registry

variable {r : Registry}

/-- A literal type with one value has one symbol in its brackets. -/
theorem exists_symbol_of_parse {spelling : Text} {v : Literal}
    (h : r.parse (Name.literal ++ Text.bracketed spelling) = .ok (.literal [v])) :
    ∃ s : Symbol, s.literal? = some v ∧
      Lexes (Text.bracketed spelling) [.opening, s, .closing] := by
  obtain ⟨ss, hlexes, hproduces⟩ := produces_of_parse h
  have hstops : Stops isNamePart (Text.bracketed spelling) := stops_cons (by decide) _
  have hname : ∀ {n rs}, Lexes (Name.literal ++ Text.bracketed spelling) (.name n :: rs) →
      n = Name.literal ∧ Lexes (Text.bracketed spelling) rs :=
    Lexes.of_name (by decide) hstops
  -- The source starts with the name `Literal`, so no production but that of literal types fits.
  cases hproduces with
  | single hterm =>
    cases hterm with
    | unionOfOne _ => exact absurd (hname hlexes).1 (by decide)
    | callable _ => exact absurd (hname hlexes).1 (by decide)
    | plain hkeyword _ =>
      rw [(hname hlexes).1] at hkeyword
      exact absurd hkeyword (by decide)
    | literal hliterals =>
      cases hliterals with
      | lastLiteral hv => exact ⟨_, hv, (hname hlexes).2⟩
      | moreLiterals _ hnone => cases hnone

/-- A floating-point number that is read back is written with a point and without an exponent. -/
theorem pointed_of_parse {w : Width} {x : Binary}
    (h : r.parse (Name.literal ++ Text.bracketed (Literal.float w x).render) =
      .ok (.literal [.float w x])) :
    Text.byte '.' ∈ (Literal.float w x).render ∧ Text.byte 'e' ∉ (Literal.float w x).render := by
  obtain ⟨s, hs, hlexes⟩ := exists_symbol_of_parse h
  obtain ⟨n, rfl, hpoint, -⟩ := number_of_literal? hs
  generalize (Literal.float w x).render = t at hlexes ⊢
  -- Neither brackets nor white space matter to a point or an exponent.
  have hmem : ∀ c, Text.isSpace c = false → c ≠ Text.byte '[' → c ≠ Text.byte ']' →
      (c ∈ t ↔ c ∈ n) := fun c hc hopening hclosing => by
    have htext : c ∈ Text.bracketed t ↔ c ∈ t := by
      have hbrackets : text "[" = [Text.byte '['] ∧ text "]" = [Text.byte ']'] := ⟨rfl, rfl⟩
      simp [Text.bracketed, hbrackets, hopening, hclosing]
    rw [← htext, hlexes.mem_iff hc]
    simp [Symbol.spelling, hopening, hclosing]
  refine ⟨(hmem _ (by decide) (by decide) (by decide)).2 hpoint, fun hexponent => ?_⟩
  have hn := (hmem _ (by decide) (by decide) (by decide)).1 hexponent
  have hclass := hlexes.isNumber n (by simp) _ hn
  exact absurd hclass (by decide)

/-- A fraction of plain size is written as the number that denotes it. -/
theorem spelled_render {negative : Bool} {s : Nat} {e : Int} (hc : Binary.Canonical .double s e)
    (h : Binary.IsPlainFraction (.finite negative s e)) :
    Spelled (Binary.render .double (.finite negative s e))
      [.number (Binary.render .double (.finite negative s e))] := by
  obtain ⟨whole, fraction, heq, hne, hwhole, hfraction⟩ := Binary.exists_render_eq hc h
  have hparts : ∀ {t : Text}, t.all Text.isDigit = true → t.all isNumberPart = true := fun ht =>
    List.all_eq_true.2 fun c hc => by simp [isNumberPart, List.all_eq_true.1 ht c hc]
  have hall : (whole ++ Text.byte '.' :: fraction).all isNumberPart = true := by
    rw [List.all_append, List.all_cons, hparts hwhole, hparts hfraction]
    rfl
  rw [heq]
  -- The sign, if there is one, is the first byte of the symbol, else the first digit is.
  cases negative with
  | true => exact .numeral (c := Text.byte '-') (by decide) hall
  | false =>
    obtain ⟨c, cs, rfl⟩ := List.exists_cons_of_ne_nil hne
    rw [List.all_cons, Bool.and_eq_true] at hwhole
    rw [List.cons_append, List.all_cons, Bool.and_eq_true] at hall
    exact .numeral (by simp [isNumberStart, hwhole.1]) hall.2

/-- A literal type with one number is read off its numeral. -/
theorem parse_numeral (r : Registry) {c : UInt8} {part : Text} {v : Literal}
    (hc : isNumberStart c = true) (hpart : part.all isNumberPart = true)
    (hv : Symbol.literal? (.number (c :: part)) = some v) :
    r.parse (Name.literal ++ Text.bracketed (c :: part)) = .ok (.literal [v]) :=
  r.parse_literal (.numeral hc hpart) hv

/-- A literal that a symbol denotes is read back from what is written for it exactly if it is no
floating-point number, or a fraction of plain size. -/
theorem parse_render_iff_of_literal? {s : Symbol} {v : Literal} (hs : s.literal? = some v)
    (r : Registry) : r.parse (Name.literal ++ Text.bracketed v.render) = .ok (.literal [v]) ↔
      ∀ w x, v = .float w x → x.IsPlainFraction := by
  constructor
  · rintro hread w x rfl
    obtain ⟨n, -, -, rfl, hx⟩ := number_of_literal? hs
    obtain ⟨negative, s, e, rfl, hc⟩ := Binary.canonical_of_parse? hx
    exact (Binary.pointed_render_iff hc negative).1 (pointed_of_parse hread)
  -- Literals of another kind are read back anyway; a fraction of plain size is one symbol again.
  · intro hplain
    cases hfloat : v.isFloat with
    | false =>
      obtain ⟨s', hspelled, hs'⟩ := exists_symbol_of_literal? hs hfloat
      exact r.parse_literal hspelled hs'
    | true =>
      cases v with
      | float w x =>
        obtain ⟨n, -, -, rfl, hx⟩ := number_of_literal? hs
        obtain ⟨negative, s, e, rfl, hc⟩ := Binary.canonical_of_parse? hx
        have hx := hplain _ _ rfl
        refine r.parse_literal (spelled_render hc hx) ?_
        have hpoint := ((Binary.pointed_render_iff hc negative).2 hx).1
        show parseNumber? _ = _
        rw [parseNumber?, if_pos (by simpa using hpoint), Binary.parse?_render hc hx]
        rfl
      | _ => cases hfloat

/-- A literal that was read is read back from what is written for it exactly if it is no
floating-point number, or one that is not whole, not below `10 ^ -4` and below `10 ^ 6` in size. -/
theorem parse_render_literal_iff {r : Registry}
    (haliases : ∀ n t, r.alias? n = some t → t.LiteralsDenoted) {source : Text} {t : TypeExpr}
    (hread : r.parse source = .ok t) {vs : List Literal} (hvs : Occurs (.literal vs) t)
    {v : Literal} (hv : v ∈ vs) (r' : Registry) :
    r'.parse (Name.literal ++ Text.bracketed v.render) = .ok (.literal [v]) ↔
      ∀ w x, v = .float w x → x.IsPlainFraction := by
  obtain ⟨s, hs⟩ := literalsDenoted_of_parse haliases hread vs hvs v hv
  exact parse_render_iff_of_literal? hs r'

/-- One half, written after a zero that is not needed, is read back. -/
theorem parse_render_half : ∃ v, builtin.parse (text "Literal[00.5]") = .ok (.literal [v]) ∧
    Literal.render v = text "0.5" ∧
    builtin.parse (Name.literal ++ Text.bracketed v.render) = .ok (.literal [v]) := by
  have hvalue : Symbol.literal? (.number (text "00.5")) =
      some (.float .double (.finite false 4503599627370496 (-53))) := by decide +kernel
  have hread : builtin.parse (text "Literal[00.5]") =
      .ok (.literal [.float .double (.finite false 4503599627370496 (-53))]) := by
    have hsource : text "Literal[00.5]" = Name.literal ++ Text.bracketed (text "00.5") := by decide
    rw [hsource]
    exact builtin.parse_numeral (by decide) (by decide) hvalue
  have haliases : ∀ n t, builtin.alias? n = some t → t.LiteralsDenoted := fun n t h => nomatch h
  refine ⟨_, hread, by decide +kernel, ?_⟩
  -- All that is left is that the value is a fraction, since one half is no whole number.
  refine (parse_render_literal_iff haliases hread .self (List.mem_singleton_self _) builtin).2 ?_
  rintro w x heq
  cases heq
  refine ⟨⟨by norm_num, by norm_num⟩, fun n hn => ?_⟩
  have htwice : ((2 * n : Nat) : ℚ) = (1 : Nat) := by
    push_cast
    rw [← hn]
    norm_num
  have := Nat.cast_injective htwice
  omega

/-- A million is written with an exponent, which cannot be read, and one is written without its
point, so that it is read as a whole number. -/
theorem not_parse_render_literal :
    (∃ v, builtin.parse (text "Literal[1000000.0]") = .ok (.literal [v]) ∧
      Literal.render v = text "1e+06" ∧
      builtin.parse (Name.literal ++ Text.bracketed v.render) ≠ .ok (.literal [v])) ∧
    ∃ v, builtin.parse (text "Literal[1.0]") = .ok (.literal [v]) ∧
      builtin.parse (Name.literal ++ Text.bracketed v.render) = .ok (.literal [.int 1]) ∧
      v ≠ .int 1 := by
  constructor
  · have hvalue : Symbol.literal? (.number (text "1000000.0")) =
        some (.float .double (.finite false 8589934592000000 (-33))) := by decide +kernel
    have hsource : text "Literal[1000000.0]" =
        Name.literal ++ Text.bracketed (text "1000000.0") := by decide
    have hrender : Literal.render (.float .double (.finite false 8589934592000000 (-33))) =
        text "1e+06" := by decide +kernel
    refine ⟨.float .double (.finite false 8589934592000000 (-33)), ?_, hrender, fun hread => ?_⟩
    · rw [hsource]
      exact builtin.parse_numeral (by decide) (by decide) hvalue
    -- What can be read back has a point, and this text has none.
    · have hpointed := pointed_of_parse hread
      rw [hrender] at hpointed
      exact absurd hpointed.1 (by decide)
  · have hvalue : Symbol.literal? (.number (text "1.0")) =
        some (.float .double (.finite false 4503599627370496 (-52))) := by decide +kernel
    have hsource : text "Literal[1.0]" = Name.literal ++ Text.bracketed (text "1.0") := by decide
    have hrender : Literal.render (.float .double (.finite false 4503599627370496 (-52))) =
        text "1" := by decide +kernel
    -- Without the point, the numeral denotes a whole number.
    have hone : Symbol.literal? (.number (text "1")) = some (.int 1) := by decide +kernel
    refine ⟨.float .double (.finite false 4503599627370496 (-52)), ?_, ?_, nofun⟩
    · rw [hsource]
      exact builtin.parse_numeral (by decide) (by decide) hvalue
    · rw [hrender]
      exact builtin.parse_numeral (by decide) (by decide) hone

end Registry

end TypeShape
