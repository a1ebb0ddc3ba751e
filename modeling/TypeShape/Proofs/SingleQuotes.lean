import Mathlib.Data.List.DropRight
import TypeShape.Proofs.RoundTrip

/-!
# Strings between single quotes

A double-quoted text is requoted by changing its delimiters to single quotes, taking the backslash
off every double quote in it and putting one in front of every single quote.  This is the text as it
stands between single quotes (`Quoted.requote_quote`), and one string of the lexer, which passes over
an escaped quote.  What the string denotes is another matter: all single quotes at its ends are cut
off, whether they are delimiters or not, and the rest is read like a double-quoted text, in which a
single quote is not escaped.  So a text is read back exactly if there is no single quote in it.

## Key results

- `Quoted.forms`: how a piece of a text stands between quotes of either kind
- `TypeExpr.unquoteToken?_requote`: what a requoted text denotes
- `Registry.parse_requotedLiteral`: what is read of a literal type with a requoted text
-/

namespace TypeShape

open Token TypeExpr

/-! ## The pieces of a text -/

namespace Utf8

/-- A code point of a text can be encoded, and a stray byte is no code point by itself. -/
def Piece.WellFormed : Piece → Prop
  | .rune r => isScalar r = true
  | .stray c => 0x80 ≤ c.toNat

/-- The pieces that a text is cut into are scalar values and bytes of no encoding. -/
theorem wellFormed_of_mem_piecesFrom {skip : Nat} {t : Text} {p : Piece}
    (h : p ∈ piecesFrom skip t) : p.WellFormed := by
  fun_induction piecesFrom skip t with
  | case1 skip => simp at h
  | case2 skip c cs ih => exact ih h
  | case3 c cs r n hsequence ih =>
    obtain rfl | hmem := List.mem_cons.1 h
    · exact (encode_of_sequence? hsequence).1
    · exact ih hmem
  -- A stray byte is not below `0x80`, as such a byte is a code point on its own.
  | case4 c cs hsequence ih =>
    obtain rfl | hmem := List.mem_cons.1 h
    · show 0x80 ≤ c.toNat
      by_contra hlt
      have hone := sequence?_one (a := c.toNat) (by omega) cs
      rw [← eq_toUInt8 rfl, hsequence] at hone
      cases hone
    · exact ih hmem

/-- The pieces of a text are well formed. -/
theorem wellFormed_of_mem_pieces (t : Text) : ∀ p ∈ pieces t, p.WellFormed :=
  fun _ hp => wellFormed_of_mem_piecesFrom hp

/-- A byte below `0x80` stands in a text exactly if it is one of its code points. -/
theorem rune_mem_pieces_iff {c : UInt8} (hc : c.toNat < 0x80) (t : Text) :
    .rune c.toNat ∈ pieces t ↔ c ∈ t := by
  -- The pieces put together are the text, so a byte of it belongs to one of them.
  have hbytes : (pieces t).flatMap Piece.bytes = t := flatMap_bytes_piecesFrom 0 t
  constructor
  · intro h
    have hscalar : isScalar c.toNat = true := wellFormed_of_mem_pieces t _ h
    rw [← hbytes]
    exact List.mem_flatMap.2 ⟨_, h, by simp [Piece.bytes, encode, hscalar, hc]⟩
  · intro h
    rw [← hbytes] at h
    obtain ⟨p, hp, hmem⟩ := List.mem_flatMap.1 h
    have hwell := wellFormed_of_mem_pieces t p hp
    cases p with
    | rune r =>
      obtain rfl | hge := toNat_of_mem_encode hwell hmem
      · exact hp
      · omega
    | stray d =>
      rw [List.mem_singleton.1 hmem] at hc
      exact absurd hwell (by simpa [Piece.WellFormed] using hc)

end Utf8

/-! ## Cutting quotes off both ends -/

/-- Cutting off at both ends is cutting off in front, and then behind. -/
theorem Text.trim_eq_rdropWhile (p : UInt8 → Bool) (t : Text) :
    t.trim p = (t.dropWhile p).rdropWhile p := rfl

/-- Behind the last byte that is no quote, quotes are cut off as long as there are any. -/
theorem Text.trim_quoted {quote c : UInt8} {front : Text} (hfront : quote ∉ front) (hc : c ≠ quote)
    (back : Text) : Text.trim (· = quote) (quote :: (front ++ c :: back)) =
      front ++ c :: back.rdropWhile (· = quote) := by
  have hhead : (front ++ c :: back).dropWhile (· = quote) = front ++ c :: back := by
    cases front with
    | nil => simp [hc]
    | cons d ds =>
      have hd : d ≠ quote := fun h => hfront (h ▸ List.mem_cons_self)
      simp [hd]
  -- Behind, the text is reversed, so that cutting off stops at the last byte that is no quote.
  rw [trim_eq_rdropWhile, List.dropWhile_cons_of_pos (by simp), hhead, List.rdropWhile,
    List.reverse_append, List.reverse_cons, List.append_assoc, List.dropWhile_append]
  split
  · rename_i hback
    simp [hc, List.rdropWhile, List.isEmpty_iff.1 hback]
  · simp [List.rdropWhile]

/-- A text without quotes is what its delimiters are cut off of. -/
theorem Text.trim_delimited {quote : UInt8} {body : Text} (h : quote ∉ body) :
    Text.trim (· = quote) (quote :: body ++ [quote]) = body := by
  obtain rfl | ⟨front, c, rfl⟩ := List.eq_nil_or_concat' body
  · simp [trim]
  · have hfront : quote ∉ front := fun hmem => h (List.mem_append_left _ hmem)
    have hc : c ≠ quote := by
      rintro rfl
      exact h (by simp)
    have htrim := trim_quoted hfront hc [quote]
    simpa [List.rdropWhile] using htrim

/-! ## Requoting -/

namespace Quoted

/-- What stands between double quotes, as it stands between single quotes: double quotes lose their
backslash, and single quotes get one. -/
def requoteBody : Text → Text
  | [] => []
  | c :: cs =>
    if c = 0x5C then
      match cs with
      | [] => [c]
      | d :: ds => (if d = doubleQuote then [d] else [c, d]) ++ requoteBody ds
    else (if c = singleQuote then [0x5C, c] else [c]) ++ requoteBody cs

/-- A double-quoted text as a single-quoted one. -/
def requote (t : Text) : Text :=
  [singleQuote] ++ requoteBody t.tail.dropLast ++ [singleQuote]

/-- An escaped double quote loses its backslash, and every other escape stays. -/
theorem requoteBody_escaped (d : UInt8) (ds : Text) :
    requoteBody (0x5C :: d :: ds) =
      (if d = doubleQuote then [d] else [0x5C, d]) ++ requoteBody ds := by
  rw [requoteBody.eq_def]
  simp only [if_true]

/-- A single quote gets a backslash, and every other byte stays. -/
theorem requoteBody_plain {c : UInt8} (hc : c ≠ 0x5C) (cs : Text) :
    requoteBody (c :: cs) =
      (if c = singleQuote then [0x5C, c] else [c]) ++ requoteBody cs := by
  rw [requoteBody.eq_def]
  simp only [if_neg hc]

/-- A body without quotes stays as it is. -/
theorem requoteBody_append {part : Text} (h : StringBody doubleQuote part)
    (hdouble : doubleQuote ∉ part) (hsingle : singleQuote ∉ part) (rest : Text) :
    requoteBody (part ++ rest) = part ++ requoteBody rest := by
  -- The induction is on the body; a quote behind a backslash would be one in the body.
  induction h with
  | nil => rfl
  | plain hc hslash _ ih =>
    simp only [List.mem_cons, not_or] at hdouble hsingle
    rw [List.cons_append, requoteBody_plain hslash, if_neg (Ne.symm hsingle.1),
      ih hdouble.2 hsingle.2]
    rfl
  | escaped c _ ih =>
    simp only [List.mem_cons, not_or] at hdouble hsingle
    rw [List.cons_append, List.cons_append, requoteBody_escaped, if_neg (Ne.symm hdouble.2.1),
      ih hdouble.2.2 hsingle.2.2]
    rfl

/-- A body without a quote is a body for that quote. -/
theorem stringBody_of_notMem {quote quote' : UInt8} {body : Text} (h : StringBody quote body)
    (hmem : quote' ∉ body) : StringBody quote' body := by
  induction h with
  | nil => exact .nil
  | plain _ hslash _ ih =>
    rw [List.mem_cons, not_or] at hmem
    exact .plain (Ne.symm hmem.1) hslash (ih hmem.2)
  | escaped c _ ih =>
    simp only [List.mem_cons, not_or] at hmem
    exact .escaped c (ih hmem.2.2)

/-! ## A piece between quotes of either kind -/

variable {q : UInt8}

/-- An escape by digits holds no quote. -/
theorem notMem_numeral {c : UInt8} (hq : q = doubleQuote ∨ q = singleQuote) (hc : q ≠ c)
    (w r : Nat) : q ∉ 0x5C :: c :: Text.hex w r := by
  have hclass : q ≠ 0x5C ∧ Text.hexDigit? q = none := by obtain rfl | rfl := hq <;> decide
  intro hmem
  obtain hslash | hmem := List.mem_cons.1 hmem
  · exact hclass.1 hslash
  obtain hletter | hdigit := List.mem_cons.1 hmem
  · exact hc hletter
  · have hsome := Text.hexDigit?_of_mem_hex hdigit
    rw [hclass.2] at hsome
    cases hsome

/-- Only a quote is written with a quote. -/
theorem Escaped.notMem {r : Nat} {t : Text} (h : Escaped r t) (hscalar : Utf8.isScalar r = true)
    (hq : q = doubleQuote ∨ q = singleQuote) (hr : r ≠ q.toNat) : q ∉ t := by
  have hascii : q.toNat < 0x80 := by obtain rfl | rfl := hq <;> decide
  have hencode : q ∉ Utf8.encode r := fun hmem =>
    ne_of_mem_encode hscalar hmem hascii hr rfl
  have hslash : q ∉ text "\\" := by obtain rfl | rfl := hq <;> decide
  -- One case for each form: the letter of an escape is no quote, and neither is a digit.
  cases h with
  | self _ => exact fun hmem => (List.mem_append.1 hmem).elim hslash hencode
  | plain _ _ _ => exact hencode
  | @letter c hc =>
    have hletter : q ≠ Text.byte c := by
      unfold letterEscape? at hc
      split at hc
      case h_8 => cases hc
      all_goals
        cases hc
        obtain rfl | rfl := hq <;> decide
    exact fun hmem => (List.mem_append.1 hmem).elim hslash fun hbyte =>
      hletter (List.mem_singleton.1 hbyte)
  | byte _ => exact notMem_numeral hq (by obtain rfl | rfl := hq <;> decide) 2 r
  | short _ => exact notMem_numeral hq (by obtain rfl | rfl := hq <;> decide) 4 r
  | long => exact notMem_numeral hq (by obtain rfl | rfl := hq <;> decide) 8 r

/-- A code point other than the quotes is written alike between quotes of either kind. -/
theorem escape_singleQuote {r : Nat} (hdouble : r ≠ 0x22) (hsingle : r ≠ 0x27) :
    escape singleQuote r = escape doubleQuote r := by
  have hquotes : doubleQuote.toNat = 0x22 ∧ singleQuote.toNat = 0x27 := by decide
  simp only [escape, hquotes, hdouble, hsingle]

/-- How a piece stands between double quotes and between single quotes: one of the quotes is escaped
in each, and all else is written alike and without quotes. -/
inductive Forms : Utf8.Piece → Text → Text → Prop where
  | double : Forms (.rune 0x22) [0x5C, doubleQuote] [doubleQuote]
  | single : Forms (.rune 0x27) [singleQuote] [0x5C, singleQuote]
  | alike {p : Utf8.Piece} {part : Text} : StringBody doubleQuote part → doubleQuote ∉ part →
    singleQuote ∉ part → Forms p part part

/-- Every piece stands between quotes of either kind in one of three forms. -/
theorem forms {p : Utf8.Piece} (h : p.WellFormed) :
    Forms p (escapePiece doubleQuote p) (escapePiece singleQuote p) := by
  have hbody : StringBody doubleQuote (escapePiece doubleQuote p) :=
    stringBody_escapePiece fun r hr => by rwa [hr] at h
  -- The two quotes are written differently, and everything else alike.
  cases p with
  | rune r =>
    by_cases hdouble : r = 0x22
    · subst hdouble
      exact .double
    by_cases hsingle : r = 0x27
    · subst hsingle
      exact .single
    have hescaped := escaped_escape r
    rw [escapePiece, escapePiece, escape_singleQuote hdouble hsingle]
    exact .alike hbody (hescaped.notMem h (.inl rfl) hdouble) (hescaped.notMem h (.inr rfl) hsingle)
  | stray c =>
    exact .alike hbody (notMem_numeral (.inl rfl) (by decide) 2 c.toNat)
      (notMem_numeral (.inr rfl) (by decide) 2 c.toNat)

/-- The double quotes of a text, escaped. -/
def escapeDouble (t : Text) : Text :=
  t.flatMap fun b => if b = doubleQuote then [0x5C, doubleQuote] else [b]

/-- Escaping double quotes goes byte by byte. -/
theorem escapeDouble_append (a b : Text) :
    escapeDouble (a ++ b) = escapeDouble a ++ escapeDouble b :=
  List.flatMap_append

/-- A text without double quotes stays as it is. -/
theorem escapeDouble_of_notMem {t : Text} (h : doubleQuote ∉ t) : escapeDouble t = t := by
  induction t with
  | nil => rfl
  | cons c cs ih =>
    rw [List.mem_cons, not_or] at h
    rw [escapeDouble, List.flatMap_cons, if_neg (Ne.symm h.1), ← escapeDouble, ih h.2]
    rfl

namespace Forms

variable {p : Utf8.Piece} {a b : Text}

/-- A piece is requoted to its form between single quotes. -/
theorem requoteBody_append (h : Forms p a b) (rest : Text) :
    requoteBody (a ++ rest) = b ++ requoteBody rest := by
  cases h with
  | double => exact requoteBody_escaped doubleQuote rest
  | single => exact requoteBody_plain (by decide) rest
  | alike hbody hdouble hsingle => exact Quoted.requoteBody_append hbody hdouble hsingle rest

/-- A piece stands between single quotes as a part of a string. -/
theorem stringBody (h : Forms p a b) : StringBody singleQuote b := by
  cases h with
  | double => exact .plain (by decide) (by decide) .nil
  | single => exact .escaped _ .nil
  | alike hbody _ hsingle => exact stringBody_of_notMem hbody hsingle

/-- Only a single quote is written with one. -/
theorem notMem (h : Forms p a b) (hp : p ≠ .rune 0x27) : singleQuote ∉ b := by
  cases h with
  | double => decide
  | single => exact absurd rfl hp
  | alike _ _ hsingle => exact hsingle

/-- With its double quotes escaped, a piece reads as between double quotes. -/
theorem escapeDouble_eq (h : Forms p a b) (hp : p ≠ .rune 0x27) : escapeDouble b = a := by
  cases h with
  | double => rfl
  | single => exact absurd rfl hp
  | alike _ hdouble _ => exact escapeDouble_of_notMem hdouble

end Forms

/-! ## A text between quotes of either kind -/

/-- Pieces as they stand between single quotes. -/
def singleBody (ps : List Utf8.Piece) : Text :=
  ps.flatMap (escapePiece singleQuote)

variable {ps : List Utf8.Piece}

/-- The pieces of a text are requoted one by one. -/
theorem requoteBody_flatMap (h : ∀ p ∈ ps, p.WellFormed) :
    requoteBody (ps.flatMap (escapePiece doubleQuote)) = singleBody ps := by
  induction ps with
  | nil => rfl
  | cons p ps ih =>
    obtain ⟨hp, hps⟩ := List.forall_mem_cons.1 h
    rw [List.flatMap_cons, (forms hp).requoteBody_append, ih hps]
    rfl

/-- Pieces other than a single quote are written without one. -/
theorem notMem_singleBody (h : ∀ p ∈ ps, p.WellFormed) (hquote : .rune 0x27 ∉ ps) :
    singleQuote ∉ singleBody ps := by
  intro hmem
  obtain ⟨p, hp, hbyte⟩ := List.mem_flatMap.1 hmem
  exact (forms (h p hp)).notMem (fun heq => hquote (heq ▸ hp)) hbyte

/-- With double quotes escaped, pieces other than a single quote read as between double quotes. -/
theorem escapeDouble_singleBody (h : ∀ p ∈ ps, p.WellFormed) (hquote : .rune 0x27 ∉ ps) :
    escapeDouble (singleBody ps) = ps.flatMap (escapePiece doubleQuote) := by
  induction ps with
  | nil => rfl
  | cons p ps ih =>
    obtain ⟨hp, hps⟩ := List.forall_mem_cons.1 h
    rw [List.mem_cons, not_or] at hquote
    rw [singleBody, List.flatMap_cons, escapeDouble_append,
      (forms hp).escapeDouble_eq (Ne.symm hquote.1), ← singleBody, ih hps hquote.2]
    rfl

/-- A requoted text is the text as it stands between single quotes. -/
theorem requote_quote (s : Text) :
    requote (quote s) = singleQuote :: singleBody (Utf8.pieces s) ++ [singleQuote] := by
  rw [requote, ← requoteBody_flatMap (Utf8.wellFormed_of_mem_pieces s)]
  simp [quote]

example : requote (quote (text "say \"it's\"")) = text "'say \"it\\'s\"'" := by decide +kernel

/-- What stands between single quotes is a string of the lexer. -/
theorem stringBody_singleBody (s : Text) : StringBody singleQuote (singleBody (Utf8.pieces s)) :=
  stringBody_flatMap fun p hp => (forms (Utf8.wellFormed_of_mem_pieces s p hp)).stringBody

end Quoted

/-! ## Reading a requoted text -/

namespace TypeExpr

open Quoted

/-- A single-quoted string is read as a double-quoted one, with the single quotes cut off at its
ends. -/
theorem unquoteToken?_singleQuote (t : Text) :
    unquoteToken? (singleQuote :: t) = unquote? ([doubleQuote] ++
      escapeDouble (Text.trim (· = singleQuote) (singleQuote :: t)) ++ [doubleQuote]) := rfl

/-- A backslash that is left at the end, or stands in front of a single quote, escapes nothing. -/
theorem bodyFrom_lone_backslash {rest : Text} (h : rest = [] ∨ ∃ t, rest = singleQuote :: t) :
    bodyFrom 0 (0x5C :: (escapeDouble rest ++ [doubleQuote])) = none := by
  obtain rfl | ⟨t, rfl⟩ := h
  · rfl
  · exact bodyFrom_backslash singleQuote (escapeDouble t ++ [doubleQuote])

/-- Quotes are cut off up to the backslash of an escaped one, and no further. -/
theorem exists_trim_singleBody {ps : List Utf8.Piece} (hps : ∀ p ∈ ps, p.WellFormed)
    (hfirst : .rune 0x27 ∉ ps) (ps' : List Utf8.Piece) :
    ∃ rest, Text.trim (· = singleQuote)
        (singleQuote :: (singleBody (ps ++ .rune 0x27 :: ps') ++ [singleQuote])) =
      singleBody ps ++ 0x5C :: rest ∧ (rest = [] ∨ ∃ t, rest = singleQuote :: t) := by
  -- A single quote is written with a backslash in front, which is where cutting off ends.
  have hescaped : escapePiece singleQuote (.rune 0x27) = [0x5C, singleQuote] := rfl
  have hbody : singleBody (ps ++ .rune 0x27 :: ps') ++ [singleQuote] =
      singleBody ps ++ 0x5C :: singleQuote :: (singleBody ps' ++ [singleQuote]) := by
    simp [singleBody, hescaped]
  rw [hbody, Text.trim_quoted (notMem_singleBody hps hfirst) (by decide)]
  refine ⟨_, rfl, ?_⟩
  -- what is left of the escaped quote and of what follows is a lead of it
  obtain hnil | ⟨t, ht, -⟩ := List.prefix_cons_iff.1 (List.rdropWhile_prefix (· = singleQuote)
    (singleQuote :: (singleBody ps' ++ [singleQuote])))
  · exact .inl hnil
  · exact .inr ⟨t, ht⟩

/-- Pieces up to a single quote are read, and nothing further. -/
theorem unquoteToken?_singleBody {ps : List Utf8.Piece} (hps : ∀ p ∈ ps, p.WellFormed)
    (hfirst : .rune 0x27 ∉ ps) (ps' : List Utf8.Piece) :
    unquoteToken? (singleQuote :: singleBody (ps ++ .rune 0x27 :: ps') ++ [singleQuote]) = none := by
  obtain ⟨rest, htrim, hrest⟩ := exists_trim_singleBody hps hfirst ps'
  have hescape : escapeDouble (singleBody ps ++ 0x5C :: rest) =
      ps.flatMap (escapePiece doubleQuote) ++ 0x5C :: escapeDouble rest := by
    rw [escapeDouble_append, escapeDouble_singleBody hps hfirst]
    rfl
  -- The pieces in front are read, and then there is a backslash with nothing to escape.
  have hread := readAs_escapePieces ps fun p hp r hr =>
    show (Utf8.Piece.rune r).WellFormed from hr ▸ hps p hp
  rw [List.cons_append, unquoteToken?_singleQuote, htrim, hescape]
  show bodyFrom 0 (ps.flatMap (escapePiece doubleQuote) ++ 0x5C :: escapeDouble rest ++
    [doubleQuote]) = none
  rw [List.append_assoc, List.cons_append, hread, bodyFrom_lone_backslash hrest]
  rfl

/-- A requoted text denotes the text, unless there is a single quote in it. -/
theorem unquoteToken?_requote (s : Text) :
    unquoteToken? (requote (quote s)) = if singleQuote ∈ s then none else some s := by
  have hwell := Utf8.wellFormed_of_mem_pieces s
  have hmem : .rune 0x27 ∈ Utf8.pieces s ↔ singleQuote ∈ s :=
    Utf8.rune_mem_pieces_iff (c := singleQuote) (by decide) s
  rw [requote_quote]
  split
  · -- the pieces in front of the first single quote have none
    rename_i hquote
    obtain ⟨ps, ps', hpieces, hfirst⟩ := List.eq_append_cons_of_mem (hmem.2 hquote)
    rw [hpieces] at hwell ⊢
    exact unquoteToken?_singleBody (fun p hp => hwell p (List.mem_append_left _ hp)) hfirst ps'
  · rename_i hquote
    have hpieces := mt hmem.1 hquote
    rw [List.cons_append, unquoteToken?_singleQuote, ← List.cons_append,
      Text.trim_delimited (notMem_singleBody hwell hpieces), escapeDouble_singleBody hwell hpieces]
    exact unquote?_quote s

end TypeExpr

namespace Token

/-- The first tokens of a literal type with a single-quoted string. -/
theorem scan_literal {body : Text} (hbody : StringBody Quoted.singleQuote body) :
    ∃ rest, scan (Name.literal ++
        Text.bracketed (Quoted.singleQuote :: body ++ [Quoted.singleQuote])) =
      ⟨.name, Name.literal, 0⟩ :: ⟨.opening, TypeShape.text "[", 7⟩ ::
        ⟨.string, Quoted.singleQuote :: body ++ [Quoted.singleQuote], 8⟩ :: rest := by
  -- The scan goes token by token: the word, its bracket, and the string up to its closing quote.
  have hstops : Stops isNamePart
      (Text.bracketed (Quoted.singleQuote :: body ++ [Quoted.singleQuote])) :=
    stops_cons (by decide) _
  have hword : lexeme (Text.byte 'L') (TypeShape.text "iteral" ++
      Text.bracketed (Quoted.singleQuote :: body ++ [Quoted.singleQuote])) = (.name, 6) := by
    rw [lexeme_name (by decide), hstops.takeWhile_append (by decide)]
    rfl
  have hname : scan (Name.literal ++
        Text.bracketed (Quoted.singleQuote :: body ++ [Quoted.singleQuote])) =
      ⟨.name, Name.literal, 0⟩ ::
        scanFrom 0 7 (Text.bracketed (Quoted.singleQuote :: body ++ [Quoted.singleQuote])) :=
    scanFrom_append (s := .name Name.literal) _ (by decide) hword rfl 0
  have hbracket : ∀ t, scanFrom 0 7 (Text.bracketed t) =
      ⟨.opening, TypeShape.text "[", 7⟩ :: scanFrom 0 8 (t ++ TypeShape.text "]") := fun t =>
    scanFrom_append (s := .opening) [] (by decide) rfl rfl 7
  have hclosed : lexeme Quoted.singleQuote
      ((body ++ [Quoted.singleQuote]) ++ TypeShape.text "]") =
        (.string, (body ++ [Quoted.singleQuote]).length) := by
    rw [lexeme_string (.inr rfl) (hbody.stringTail?_append (by decide) _), List.length_append]
    rfl
  have hstring := scanFrom_append (s := .string _) _ (by decide) hclosed rfl 8
  exact ⟨_, by rw [hname, hbracket, List.cons_append, hstring]⟩

end Token

/-! ## A literal type with a requoted text -/

/-- A requoted text spells one string. -/
theorem Spelled.requote (s : Text) :
    Spelled (Quoted.requote (Quoted.quote s)) [.string (Quoted.requote (Quoted.quote s))] := by
  intro rest rs _ hrs
  rw [Quoted.requote_quote]
  exact .string (.inr rfl) (Quoted.stringBody_singleBody s) hrs

namespace Registry

/-- A literal type with a string that denotes nothing is refused at that string. -/
theorem parse_badString (r : Registry) {source spelling : Text} {position : Nat}
    {opening : Token} {rest : List Token} (hopening : opening.symbol? = some .opening)
    (hscan : Token.scan source = ⟨.name, Name.literal, 0⟩ :: opening ::
      ⟨.string, spelling, position⟩ :: rest)
    (hspelling : unquoteToken? spelling = none) :
    r.parse source = .error (.parse source position (.badString spelling)) := by
  -- The literal fails first, and no reader around it goes on after a failure.
  have hliterals : parseLiterals source (⟨.string, spelling, position⟩ :: rest) =
      .error (.parse source position (.badString spelling)) := by
    rw [parseLiterals_cons, parseLiteral, hspelling]
    rfl
  have hterm : ∀ fuel, parseTerm source r.lookup (fuel + 1) (⟨.name, Name.literal, 0⟩ :: opening ::
      ⟨.string, spelling, position⟩ :: rest) =
        .error (.parse source position (.badString spelling)) := by
    intro fuel
    rw [parseTerm_literal rfl, expect_symbol hopening (kind_of_mark hopening rfl)]
    show (parseLiterals source _ >>= _) = _
    rw [hliterals]
    rfl
  rw [parse, TypeExpr.parse, hscan, parseFuel, parseUnion, hterm]
  rfl

/-- The source of a literal type with a requoted text. -/
def requotedLiteral (s : Text) : Text :=
  Name.literal ++ Text.bracketed (Quoted.requote (Quoted.quote s))

/-- A text without single quotes is read back from its requoted literal type. -/
theorem parse_requotedLiteral_of_notMem (r : Registry) {s : Text} (h : Quoted.singleQuote ∉ s) :
    r.parse (requotedLiteral s) = .ok (.literal [.string s]) := by
  have hstring : unquoteToken? (Quoted.requote (Quoted.quote s)) = some s := by
    rw [unquoteToken?_requote, if_neg h]
  exact r.parse_literal (.requote s) (by rw [Symbol.literal?, hstring]; rfl)

/-- A text with a single quote is refused in its requoted literal type. -/
theorem parse_requotedLiteral_of_mem (r : Registry) {s : Text} (h : Quoted.singleQuote ∈ s) :
    r.parse (requotedLiteral s) =
      .error (.parse (requotedLiteral s) 8 (.badString (Quoted.requote (Quoted.quote s)))) := by
  have hstring : unquoteToken? (Quoted.requote (Quoted.quote s)) = none := by
    rw [unquoteToken?_requote, if_pos h]
  obtain ⟨rest, hscan⟩ := Token.scan_literal (Quoted.stringBody_singleBody s)
  rw [← Quoted.requote_quote] at hscan
  exact r.parse_badString rfl hscan hstring

/-- A literal type with a requoted text is read as the text, unless there is a single quote in it:
then the string is refused. -/
theorem parse_requotedLiteral (r : Registry) (s : Text) :
    r.parse (requotedLiteral s) = if Quoted.singleQuote ∈ s
      then .error (.parse (requotedLiteral s) 8 (.badString (Quoted.requote (Quoted.quote s))))
      else .ok (.literal [.string s]) := by
  split
  · exact r.parse_requotedLiteral_of_mem ‹_›
  · exact r.parse_requotedLiteral_of_notMem ‹_›

/-- A single quote is not read back: inside a text its backslash escapes nothing, and at the end of a
text it is cut off with the delimiter. -/
theorem not_parse_requotedLiteral :
    (requotedLiteral (text "it's") = text "Literal['it\\'s']" ∧
      builtin.parse (requotedLiteral (text "it's")) ≠ .ok (.literal [.string (text "it's")])) ∧
    (requotedLiteral (text "rock'") = text "Literal['rock\\'']" ∧
      builtin.parse (requotedLiteral (text "rock'")) ≠ .ok (.literal [.string (text "rock'")])) := by
  refine ⟨⟨by decide +kernel, ?_⟩, ⟨by decide +kernel, ?_⟩⟩
  all_goals
    rw [builtin.parse_requotedLiteral_of_mem (by decide)]
    exact nofun

end Registry

end TypeShape
