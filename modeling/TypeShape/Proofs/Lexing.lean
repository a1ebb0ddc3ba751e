import Mathlib.Data.List.TakeWhile
import TypeShape.Expr.Token

/-!
# How a source is cut into symbols

The symbols of a source are its tokens without their places.  `Lexes` says, rule by rule, which
symbols a source is made of: white space separates, names and numbers are as long as they can be,
and a string ends at the first of its quotes that no backslash takes along.  A source with a byte
that begins no symbol, or with a string that is not closed, is made of no symbols.

## Key results

- `lexes_iff`: cutting a source into tokens follows the rules, and meets a faulty token exactly when
  no rule applies
-/

namespace TypeShape

/-- A token without its place in the source. -/
inductive Symbol where
  | name (spelling : Text)
  | string (spelling : Text)
  | number (spelling : Text)
  | opening
  | closing
  | comma
  | pipe
  | ellipsis
  deriving DecidableEq, Repr

namespace Token

/-- The symbol that a token is; the end mark and faulty tokens are none. -/
def symbol? (t : Token) : Option Symbol :=
  match t.kind with
  | .name => some (.name t.text)
  | .string => some (.string t.text)
  | .number => some (.number t.text)
  | .opening => some .opening
  | .closing => some .closing
  | .comma => some .comma
  | .pipe => some .pipe
  | .ellipsis => some .ellipsis
  | .eof => none
  | .strange _ => none
  | .unterminated => none

/-- The tokens begin with these symbols, none of them faulty, and the rest follows. -/
inductive Spell : List Token → List Symbol → List Token → Prop where
  | nil {ts : List Token} : Spell ts [] ts
  | cons {t : Token} {ts : List Token} {s : Symbol} {ss : List Symbol} {rest : List Token} :
    t.symbol? = some s → Spell ts ss rest → Spell (t :: ts) (s :: ss) rest

namespace Spell

/-- A token that stands for a symbol spells it. -/
theorem token {t : Token} {s : Symbol} {rest : List Token} (h : t.symbol? = some s) :
    Spell (t :: rest) [s] rest :=
  .cons h .nil

/-- Spellings are put one behind the other. -/
theorem trans {ts us rest : List Token} {ss rs : List Symbol} (h : Spell ts ss us)
    (h' : Spell us rs rest) : Spell ts (ss ++ rs) rest := by
  induction h with
  | nil => exact h'
  | cons hs _ ih => exact .cons hs (ih h')

/-- A spelling of two parts is cut between them. -/
theorem of_append {ts rest : List Token} {ss rs : List Symbol} (h : Spell ts (ss ++ rs) rest) :
    ∃ us, Spell ts ss us ∧ Spell us rs rest := by
  induction ss generalizing ts with
  | nil => exact ⟨ts, .nil, h⟩
  | cons s ss ih =>
    cases h with
    | cons hs h =>
      obtain ⟨us, hss, hrs⟩ := ih h
      exact ⟨us, .cons hs hss, hrs⟩

/-- Every symbol is spelled by one token. -/
theorem length_eq {ts rest : List Token} {ss : List Symbol} (h : Spell ts ss rest) :
    ts.length = ss.length + rest.length := by
  induction h with
  | nil => simp
  | cons _ _ ih =>
    simp only [List.length_cons, ih]
    omega

end Spell

/-- Whether a byte begins a name. -/
def isNameStart (c : UInt8) : Bool :=
  c = Text.byte '_' || Text.isLetter c

/-- Whether a text is a name of the lexer. -/
def isIdentifier : Text → Bool
  | [] => false
  | c :: cs => isNameStart c && cs.all isNamePart

/-- Whether a byte begins a number. -/
def isNumberStart (c : UInt8) : Bool :=
  c = Text.byte '-' || Text.isDigit c

/-- Whether a byte is a mark, or begins one. -/
def isMark (c : UInt8) : Bool :=
  c = Text.byte '[' || c = Text.byte ']' || c = Text.byte ',' || c = Text.byte '|' ||
    c = Text.byte '.'

end Token

/-- What stands between the quotes of a string: no bare quote, and something after every
backslash. -/
inductive StringBody (quote : UInt8) : Text → Prop where
  | nil : StringBody quote []
  | plain {c : UInt8} {body : Text} :
    c ≠ quote → c ≠ 0x5C → StringBody quote body → StringBody quote (c :: body)
  | escaped (c : UInt8) {body : Text} :
    StringBody quote body → StringBody quote (0x5C :: c :: body)

/-- A byte of the class does not stand in front. -/
def Stops (p : UInt8 → Bool) (t : Text) : Prop :=
  ∀ c ∈ t.head?, p c = false

open Token in
/-- The symbols that a source is made of. -/
inductive Lexes : Text → List Symbol → Prop where
  | nil : Lexes [] []
  | space {c : UInt8} {t : Text} {ss : List Symbol} :
    Text.isSpace c = true → Lexes t ss → Lexes (c :: t) ss
  | opening {t : Text} {ss : List Symbol} :
    Lexes t ss → Lexes (Text.byte '[' :: t) (.opening :: ss)
  | closing {t : Text} {ss : List Symbol} :
    Lexes t ss → Lexes (Text.byte ']' :: t) (.closing :: ss)
  | comma {t : Text} {ss : List Symbol} :
    Lexes t ss → Lexes (Text.byte ',' :: t) (.comma :: ss)
  | pipe {t : Text} {ss : List Symbol} :
    Lexes t ss → Lexes (Text.byte '|' :: t) (.pipe :: ss)
  | ellipsis {t : Text} {ss : List Symbol} :
    Lexes t ss → Lexes (text "..." ++ t) (.ellipsis :: ss)
  | string {quote : UInt8} {body t : Text} {ss : List Symbol} :
    quote = Quoted.doubleQuote ∨ quote = Quoted.singleQuote → StringBody quote body →
    Lexes t ss → Lexes (quote :: body ++ [quote] ++ t) (.string (quote :: body ++ [quote]) :: ss)
  | number {c : UInt8} {part t : Text} {ss : List Symbol} :
    isNumberStart c = true → part.all isNumberPart = true → Stops isNumberPart t →
    Lexes t ss → Lexes (c :: part ++ t) (.number (c :: part) :: ss)
  | name {c : UInt8} {part t : Text} {ss : List Symbol} :
    isNameStart c = true → part.all isNamePart = true → Stops isNamePart t →
    Lexes t ss → Lexes (c :: part ++ t) (.name (c :: part) :: ss)

/-! ## Runs of bytes -/

/-- A property of all bytes can be decided by trying them. -/
instance Text.decidableForallByte {p : UInt8 → Prop} [DecidablePred p] : Decidable (∀ c, p c) :=
  decidable_of_iff (∀ i : Fin 256, p (UInt8.ofFin i))
    ⟨fun h c => by simpa using h c.toFin, fun h i => h _⟩

/-- A byte outside a class ends a run of that class. -/
theorem stops_cons {p : UInt8 → Bool} {c : UInt8} (h : p c = false) (x : Text) :
    Stops p (c :: x) := by
  intro d hd
  cases hd
  exact h

/-- The longest run of a class in front of a byte outside of it. -/
theorem Stops.takeWhile_append {p : UInt8 → Bool} {part t : Text} (hpart : part.all p = true)
    (ht : Stops p t) : (part ++ t).takeWhile p = part := by
  rw [List.takeWhile_append_of_pos (by simpa using hpart)]
  cases t with
  | nil => simp
  | cons c t => simp [ht c rfl]

/-- What is left after the longest run begins with a byte outside of the class. -/
theorem stops_dropWhile (p : UInt8 → Bool) (t : Text) : Stops p (t.dropWhile p) := by
  -- By induction on the text; the run ends where it is cut.
  induction t with
  | nil => simp [Stops]
  | cons c t ih =>
    rw [List.dropWhile_cons]
    split
    · exact ih
    · rename_i hc
      intro d hd
      simp only [List.head?_cons, Option.mem_def, Option.some.injEq] at hd
      subst hd
      simpa using hc

/-- As many bytes as the longest run has are that run. -/
theorem take_length_takeWhile (p : UInt8 → Bool) (t : Text) :
    t.take (t.takeWhile p).length = t.takeWhile p :=
  (List.prefix_iff_eq_take.1 (List.takeWhile_prefix p)).symm

/-- Dropping as many bytes as the longest run has leaves what follows it. -/
theorem drop_length_takeWhile (p : UInt8 → Bool) (t : Text) :
    t.drop (t.takeWhile p).length = t.dropWhile p := by
  calc t.drop (t.takeWhile p).length
      = (t.takeWhile p ++ t.dropWhile p).drop (t.takeWhile p).length := by
        rw [List.takeWhile_append_dropWhile]
    _ = t.dropWhile p := List.drop_left

/-! ## Strings -/

namespace StringBody

variable {quote : UInt8}

/-- One step of the search for a closing quote at a byte that is no backslash. -/
theorem stringTail?_cons {c : UInt8} (hc : c ≠ 0x5C) (t : Text) :
    Token.stringTail? quote (c :: t) =
      if c = quote then some 1 else (Token.stringTail? quote t).map (· + 1) := by
  rw [Token.stringTail?.eq_def]
  simp only [if_neg hc]

/-- A backslash takes the byte behind it along. -/
theorem stringTail?_backslash (hquote : quote ≠ 0x5C) (c : UInt8) (t : Text) :
    Token.stringTail? quote (0x5C :: c :: t) = (Token.stringTail? quote t).map (· + 2) := by
  rw [Token.stringTail?.eq_def]
  simp only [if_neg (Ne.symm hquote), if_pos]

/-- A string is closed at the first quote that is not part of its body. -/
theorem stringTail?_append {body : Text} (h : StringBody quote body) (hquote : quote ≠ 0x5C)
    (t : Text) : Token.stringTail? quote (body ++ [quote] ++ t) = some (body.length + 1) := by
  -- The induction is on the body: none of its bytes, and no byte behind a backslash, closes the
  -- string.
  induction h with
  | nil =>
    simp only [List.nil_append, List.cons_append]
    rw [stringTail?_cons hquote, if_pos rfl]
    rfl
  | plain hc hslash _ ih =>
    simp only [List.cons_append]
    rw [stringTail?_cons hslash, if_neg hc, ih]
    rfl
  | escaped c _ ih =>
    simp only [List.cons_append]
    rw [stringTail?_backslash hquote, ih]
    rfl

/-- The bytes that a string takes are a body and its closing quote. -/
theorem of_stringTail? {t : Text} {n : Nat} (h : Token.stringTail? quote t = some n) :
    ∃ body, StringBody quote body ∧ t = body ++ [quote] ++ t.drop n ∧ n = body.length + 1 := by
  -- By the cases of the search: the quote, a backslash with the byte behind it, any other byte.
  fun_induction Token.stringTail? quote t generalizing n with
  | case1 => cases h
  | case2 cs =>
    cases h
    exact ⟨[], .nil, by simp, rfl⟩
  | case3 => cases h
  | case4 c cs _ ih =>
    obtain ⟨k, hk, rfl⟩ := Option.map_eq_some_iff.1 h
    obtain ⟨body, hbody, ht, rfl⟩ := ih hk
    exact ⟨0x5C :: c :: body, .escaped c hbody, by simpa using ht, rfl⟩
  | case5 c cs hc hslash ih =>
    obtain ⟨k, hk, rfl⟩ := Option.map_eq_some_iff.1 h
    obtain ⟨body, hbody, ht, rfl⟩ := ih hk
    exact ⟨c :: body, .plain hc hslash hbody, by simpa using ht, rfl⟩

end StringBody

/-! ## One token -/

namespace Token

-- The equations of the scanner are made here, once for all the lemmas below.
attribute [local simp] scanFrom

/-- Bytes that belong to a token are passed over. -/
theorem scanFrom_skip (n position : Nat) (t : Text) (h : n ≤ t.length) :
    scanFrom n position t = scanFrom 0 (position + n) (t.drop n) := by
  induction n generalizing position t with
  | zero => rfl
  | succ n ih =>
    cases t with
    | nil => simp at h
    | cons c t =>
      rw [scanFrom, ih (position + 1) t (by simpa using h), List.drop_succ_cons]
      congr 1
      omega

/-- White space is passed over. -/
theorem scanFrom_space {c : UInt8} (h : Text.isSpace c = true) (position : Nat) (t : Text) :
    scanFrom 0 position (c :: t) = scanFrom 0 (position + 1) t := by
  rw [scanFrom, if_pos h]

/-- A token is followed by the tokens of the text after its bytes. -/
theorem scanFrom_lexeme {c : UInt8} {cs : Text} {kind : TokenKind} {extra : Nat}
    (hspace : Text.isSpace c = false) (hlexeme : lexeme c cs = (kind, extra))
    (hextra : extra ≤ cs.length) (position : Nat) :
    scanFrom 0 position (c :: cs) =
      ⟨kind, lexemeText kind c cs extra, position⟩ ::
        scanFrom 0 (position + 1 + extra) (cs.drop extra) := by
  rw [scanFrom, if_neg (by simp [hspace]), hlexeme]
  simp only [scanFrom_skip extra (position + 1) cs hextra]

/-- The text of a symbol is its bytes. -/
theorem lexemeText_append {c : UInt8} {part : Text} {kind : TokenKind} {s : Symbol}
    (hs : (Token.mk kind (c :: part) 0).symbol? = some s) (t : Text) :
    lexemeText kind c (part ++ t) part.length = c :: part := by
  cases kind with
  | strange byte => cases hs
  | _ => simp [lexemeText]

/-- A symbol is followed by the tokens of the text after it. -/
theorem scanFrom_append {c : UInt8} (part : Text) {t : Text} {kind : TokenKind} {s : Symbol}
    (hspace : Text.isSpace c = false) (hlexeme : lexeme c (part ++ t) = (kind, part.length))
    (hs : (Token.mk kind (c :: part) 0).symbol? = some s) (position : Nat) :
    scanFrom 0 position (c :: part ++ t) =
      ⟨kind, c :: part, position⟩ :: scanFrom 0 (position + 1 + part.length) t := by
  rw [List.cons_append, scanFrom_lexeme hspace hlexeme (by simp), lexemeText_append hs,
    List.drop_left]

/-- The bytes of an ellipsis. -/
theorem text_dots :
    TypeShape.text "..." = [Text.byte '.', Text.byte '.', Text.byte '.'] := by decide

/-- How the lexeme is found at a byte that is no mark. -/
theorem lexeme_of_not_mark {c : UInt8} (h : isMark c = false) (cs : Text) :
    lexeme c cs =
      if c = Quoted.doubleQuote || c = Quoted.singleQuote then
        match stringTail? c cs with
        | some n => (.string, n)
        | none => (.unterminated, cs.length)
      else if isNumberStart c then (.number, (cs.takeWhile isNumberPart).length)
      else if isNameStart c then (.name, (cs.takeWhile isNamePart).length)
      else (.strange c, 0) := by
  -- No mark begins here, so none of the five checks before applies.
  simp only [isMark, Bool.or_eq_false_iff, decide_eq_false_iff_not] at h
  obtain ⟨⟨⟨⟨h₁, h₂⟩, h₃⟩, h₄⟩, h₅⟩ := h
  have hdots : Text.startsWith (c :: cs) (TypeShape.text "...") = false := by
    simp only [Text.startsWith, text_dots, List.isPrefixOf_cons_cons, Bool.and_eq_false_iff,
      beq_eq_false_iff_ne]
    exact .inl (Ne.symm h₅)
  unfold lexeme
  rw [if_neg h₁, if_neg h₂, if_neg h₃, if_neg h₄, if_neg (by simp [hdots])]
  rfl

/-- The tokens that a byte may begin: their kinds, and how many of the bytes after it they take. -/
inductive Begins (c : UInt8) (cs : Text) : TokenKind × Nat → Prop where
  | opening : c = Text.byte '[' → Begins c cs (.opening, 0)
  | closing : c = Text.byte ']' → Begins c cs (.closing, 0)
  | comma : c = Text.byte ',' → Begins c cs (.comma, 0)
  | pipe : c = Text.byte '|' → Begins c cs (.pipe, 0)
  | ellipsis : c :: cs = TypeShape.text "..." ++ cs.drop 2 → Begins c cs (.ellipsis, 2)
  | string {n : Nat} : c = Quoted.doubleQuote ∨ c = Quoted.singleQuote →
    stringTail? c cs = some n → Begins c cs (.string, n)
  | unterminated : Begins c cs (.unterminated, cs.length)
  | number : isNumberStart c = true → Begins c cs (.number, (cs.takeWhile isNumberPart).length)
  | name : isNameStart c = true → Begins c cs (.name, (cs.takeWhile isNamePart).length)
  | strange : Begins c cs (.strange c, 0)

/-- Every byte begins a lexeme of the kind the lexer finds. -/
theorem begins_lexeme (c : UInt8) (cs : Text) : Begins c cs (lexeme c cs) := by
  by_cases hmark : isMark c = true
  · simp only [isMark, Bool.or_eq_true, decide_eq_true_eq] at hmark
    obtain (((rfl | rfl) | rfl) | rfl) | rfl := hmark
    · exact .opening rfl
    · exact .closing rfl
    · exact .comma rfl
    · exact .pipe rfl
    · -- A dot begins an ellipsis or nothing.
      unfold lexeme
      iterate 4 rw [if_neg (by decide)]
      split
      · rename_i hdots
        obtain ⟨rest, hrest⟩ := List.isPrefixOf_iff_prefix.1 hdots
        refine .ellipsis ?_
        rw [text_dots] at hrest ⊢
        simp only [List.cons_append, List.nil_append, List.cons.injEq, true_and] at hrest
        simp [← hrest]
      · exact .strange
  -- The remaining kinds are told by the first byte in the order in which the lexer asks.
  · rw [lexeme_of_not_mark (by simpa using hmark)]
    split
    · rename_i hquote
      cases htail : stringTail? c cs with
      | none => exact .unterminated
      | some n => exact .string (by simpa using hquote) htail
    · split
      · rename_i hnumber
        exact .number hnumber
      · split
        · rename_i hname
          exact .name hname
        · exact .strange

/-- A string that is closed is one lexeme. -/
theorem lexeme_string {c : UInt8} {cs : Text} {n : Nat}
    (hc : c = Quoted.doubleQuote ∨ c = Quoted.singleQuote) (h : stringTail? c cs = some n) :
    lexeme c cs = (.string, n) := by
  have hmark : isMark c = false := by obtain rfl | rfl := hc <;> decide
  rw [lexeme_of_not_mark hmark, if_pos (by simpa using hc), h]

/-- A number is one lexeme, as long as it can be. -/
theorem lexeme_number {c : UInt8} (hc : isNumberStart c = true) (cs : Text) :
    lexeme c cs = (.number, (cs.takeWhile isNumberPart).length) := by
  have hclass : ∀ c, isNumberStart c = true → isMark c = false ∧
      (c = Quoted.doubleQuote || c = Quoted.singleQuote) = false := by decide +kernel
  obtain ⟨hmark, hquote⟩ := hclass c hc
  rw [lexeme_of_not_mark hmark, if_neg (by simp [hquote]), if_pos hc]

/-- A name is one lexeme, as long as it can be. -/
theorem lexeme_name {c : UInt8} (hc : isNameStart c = true) (cs : Text) :
    lexeme c cs = (.name, (cs.takeWhile isNamePart).length) := by
  have hclass : ∀ c, isNameStart c = true → isMark c = false ∧
      (c = Quoted.doubleQuote || c = Quoted.singleQuote) = false ∧ isNumberStart c = false := by
    decide +kernel
  obtain ⟨hmark, hquote, hnumber⟩ := hclass c hc
  rw [lexeme_of_not_mark hmark, if_neg (by simp [hquote]), if_neg (by simp [hnumber]), if_pos hc]

end Token

/-! ## All tokens -/

open Token

/-- The tokens of the text, but for the end mark, are these symbols. -/
def Scans (position : Nat) (t : Text) (ss : List Symbol) : Prop :=
  ∃ last, Spell (scanFrom 0 position t) ss [⟨.eof, [], last⟩]

/-- The empty source is cut into no symbols. -/
theorem scans_nil (position : Nat) : Scans position [] [] :=
  ⟨position, .nil⟩

/-- White space does not count. -/
theorem scans_space {c : UInt8} (h : Text.isSpace c = true) {position : Nat} {t : Text}
    {ss : List Symbol} : Scans position (c :: t) ss ↔ Scans (position + 1) t ss := by
  simp only [Scans, scanFrom_space h]

/-- A source is cut after its first lexeme. -/
theorem scans_lexeme {c : UInt8} {cs : Text} {kind : TokenKind} {extra : Nat}
    (hspace : Text.isSpace c = false) (hlexeme : lexeme c cs = (kind, extra))
    (hextra : extra ≤ cs.length) {position : Nat} {ss : List Symbol} :
    Scans position (c :: cs) ss ↔
      ∃ s rest, (Token.mk kind (lexemeText kind c cs extra) position).symbol? = some s ∧
        ss = s :: rest ∧ Scans (position + 1 + extra) (cs.drop extra) rest := by
  unfold Scans
  rw [scanFrom_lexeme hspace hlexeme hextra]
  constructor
  · rintro ⟨last, hspell⟩
    -- The tokens left are those of the rest, and the first of them is this lexeme.
    generalize scanFrom 0 (position + 1 + extra) (cs.drop extra) = tokens at hspell ⊢
    cases hspell with
    | cons hs hrest => exact ⟨_, _, hs, rfl, last, hrest⟩
  · rintro ⟨s, rest, hs, rfl, last, hrest⟩
    exact ⟨last, .cons hs hrest⟩

/-- The token of a lexeme comes before the tokens of the text after it. -/
theorem scans_append {c : UInt8} {part t : Text} {kind : TokenKind} {s : Symbol} {ss : List Symbol}
    (hspace : Text.isSpace c = false) (hlexeme : lexeme c (part ++ t) = (kind, part.length))
    (hs : ∀ position, (Token.mk kind (c :: part) position).symbol? = some s)
    (h : ∀ position, Scans position t ss) (position : Nat) :
    Scans position (c :: part ++ t) (s :: ss) := by
  refine (scans_lexeme hspace hlexeme (by simp)).2 ⟨s, ss, ?_, rfl, ?_⟩
  · rw [lexemeText_append (hs 0)]
    exact hs position
  · rw [List.drop_left]
    exact h _

/-- A mark of one byte in front of a source. -/
theorem scans_mark {c : UInt8} {t : Text} {kind : TokenKind} {s : Symbol} {ss : List Symbol}
    (hspace : Text.isSpace c = false) (hlexeme : lexeme c t = (kind, 0))
    (hs : ∀ position, (Token.mk kind [c] position).symbol? = some s)
    (h : ∀ position, Scans position t ss) (position : Nat) : Scans position (c :: t) (s :: ss) :=
  @scans_append c [] t kind s ss hspace hlexeme hs h position

/-- The rules are followed: what a source is made of is what it is cut into. -/
theorem Lexes.scans {t : Text} {ss : List Symbol} (h : Lexes t ss) :
    ∀ position, Scans position t ss := by
  -- The induction is on the rules; each mark is the lexeme of its byte, whatever follows.
  induction h with
  | nil => exact scans_nil
  | space hc _ ih => exact fun position => (scans_space hc).2 (ih _)
  | @opening t ss _ ih =>
    have hlexeme : lexeme (Text.byte '[') t = (.opening, 0) := rfl
    exact scans_mark (by decide) hlexeme (fun _ => rfl) ih
  | @closing t ss _ ih =>
    have hlexeme : lexeme (Text.byte ']') t = (.closing, 0) := rfl
    exact scans_mark (by decide) hlexeme (fun _ => rfl) ih
  | @comma t ss _ ih =>
    have hlexeme : lexeme (Text.byte ',') t = (.comma, 0) := rfl
    exact scans_mark (by decide) hlexeme (fun _ => rfl) ih
  | @pipe t ss _ ih =>
    have hlexeme : lexeme (Text.byte '|') t = (.pipe, 0) := rfl
    exact scans_mark (by decide) hlexeme (fun _ => rfl) ih
  | @ellipsis t ss _ ih =>
    have hlexeme : lexeme (Text.byte '.') ([Text.byte '.', Text.byte '.'] ++ t) = (.ellipsis, 2) :=
      rfl
    rw [text_dots]
    exact scans_append (by decide) hlexeme (fun _ => rfl) ih
  | @string quote body t ss hquote hbody _ ih =>
    have hspace : Text.isSpace quote = false := by obtain rfl | rfl := hquote <;> decide
    -- The opening quote is no backslash, so the search finds the quote behind the body.
    have hslash : quote ≠ 0x5C := by obtain rfl | rfl := hquote <;> decide
    have hlexeme := lexeme_string hquote (hbody.stringTail?_append hslash t)
    exact scans_append hspace (by simpa using hlexeme) (fun _ => rfl) ih
  | @number c part t ss hc hpart hstop _ ih =>
    -- A fact about all bytes of a class, decided by trying them.
    have hspace : ∀ c, isNumberStart c = true → Text.isSpace c = false := by decide +kernel
    have hlexeme := lexeme_number hc (part ++ t)
    rw [hstop.takeWhile_append hpart] at hlexeme
    exact scans_append (hspace c hc) hlexeme (fun _ => rfl) ih
  | @name c part t ss hc hpart hstop _ ih =>
    have hspace : ∀ c, isNameStart c = true → Text.isSpace c = false := by decide +kernel
    have hlexeme := lexeme_name hc (part ++ t)
    rw [hstop.takeWhile_append hpart] at hlexeme
    exact scans_append (hspace c hc) hlexeme (fun _ => rfl) ih

/-- A lexeme takes no more bytes than there are. -/
theorem Token.Begins.le_length {c : UInt8} {cs : Text} {token : TokenKind × Nat}
    (h : Begins c cs token) : token.2 ≤ cs.length := by
  -- Only strings and the ellipsis take bytes that are counted in another way than by a run.
  cases h with
  | ellipsis hc =>
    have hlength := congrArg List.length hc
    simp only [text_dots, List.length_cons, List.length_append, List.length_drop,
      List.length_nil] at hlength
    simp only
    omega
  | string hc htail =>
    obtain ⟨body, -, hcs, rfl⟩ := StringBody.of_stringTail? htail
    have hlength := congrArg List.length hcs
    simp only [List.length_append, List.length_cons, List.length_nil, List.length_drop] at hlength
    simp only
    omega
  | number => exact (List.takeWhile_prefix _).length_le
  | name => exact (List.takeWhile_prefix _).length_le
  | unterminated => exact le_rfl
  | _ => exact Nat.zero_le _

/-- A token that is a symbol is cut off by one of the rules. -/
theorem Token.Begins.lexes {c : UInt8} {cs : Text} {token : TokenKind × Nat}
    (h : Begins c cs token) {position : Nat} {s : Symbol} {ss : List Symbol}
    (hs : (Token.mk token.1 (lexemeText token.1 c cs token.2) position).symbol? = some s)
    (hrest : Lexes (cs.drop token.2) ss) : Lexes (c :: cs) (s :: ss) := by
  cases h with
  | opening hc =>
    cases hs
    exact hc ▸ hrest.opening
  | closing hc =>
    cases hs
    exact hc ▸ hrest.closing
  | comma hc =>
    cases hs
    exact hc ▸ hrest.comma
  | pipe hc =>
    cases hs
    exact hc ▸ hrest.pipe
  | ellipsis hc =>
    cases hs
    exact hc ▸ hrest.ellipsis
  -- The text of a string is its quotes and its body.
  | string hc htail =>
    cases hs
    obtain ⟨body, hbody, hcs, rfl⟩ := StringBody.of_stringTail? htail
    have htake : cs.take (body.length + 1) = body ++ [c] := by
      rw [hcs, List.take_left' (by simp)]
    have hlexes := Lexes.string hc hbody hrest
    simp only [List.cons_append, ← hcs] at hlexes
    simpa only [lexemeText, htake] using hlexes
  | unterminated => cases hs
  | number hc =>
    cases hs
    rw [drop_length_takeWhile] at hrest
    have hpart : (cs.takeWhile isNumberPart).all isNumberPart = true := List.all_takeWhile
    have hlexes := Lexes.number hc hpart (stops_dropWhile isNumberPart cs) hrest
    rw [List.cons_append, List.takeWhile_append_dropWhile] at hlexes
    simpa only [lexemeText, take_length_takeWhile] using hlexes
  | name hc =>
    cases hs
    rw [drop_length_takeWhile] at hrest
    have hpart : (cs.takeWhile isNamePart).all isNamePart = true := List.all_takeWhile
    have hlexes := Lexes.name hc hpart (stops_dropWhile isNamePart cs) hrest
    rw [List.cons_append, List.takeWhile_append_dropWhile] at hlexes
    simpa only [lexemeText, take_length_takeWhile] using hlexes
  | strange => cases hs

/-- What a source is cut into, it is made of. -/
theorem Scans.lexes {position : Nat} {t : Text} {ss : List Symbol} (h : Scans position t ss) :
    Lexes t ss := by
  -- By strong induction on the length, since a lexeme takes more than one byte.
  induction hlen : t.length using Nat.strong_induction_on generalizing position t ss with
  | _ n ih =>
    subst hlen
    cases t with
    | nil =>
      obtain ⟨last, hspell⟩ := h
      have hlength := hspell.length_eq
      simp only [scanFrom, List.length_cons, List.length_nil] at hlength
      have hss : ss = [] := List.eq_nil_of_length_eq_zero (by omega)
      rw [hss]
      exact .nil
    | cons c cs =>
      cases hspace : Text.isSpace c with
      | true => exact .space hspace (ih _ (by simp) ((scans_space hspace).1 h) rfl)
      | false =>
        have hbegins := begins_lexeme c cs
        obtain ⟨s, rest, hs, rfl, hrest⟩ := (scans_lexeme hspace rfl hbegins.le_length).1 h
        have hlt : (cs.drop (lexeme c cs).2).length < (c :: cs).length := by
          simp only [List.length_drop, List.length_cons]
          omega
        exact hbegins.lexes hs (ih _ hlt hrest rfl)

/-- Cutting a source into tokens follows the rules, and meets a faulty token exactly when none
applies. -/
theorem lexes_iff (source : Text) (ss : List Symbol) :
    Lexes source ss ↔ ∃ last, Spell (scan source) ss [⟨.eof, [], last⟩] :=
  ⟨fun h => h.scans 0, fun h => Scans.lexes h⟩

/-- Every name among the symbols of a source is a name of the lexer. -/
theorem Lexes.isIdentifier {source : Text} {ss : List Symbol} (h : Lexes source ss) :
    ∀ n, .name n ∈ ss → Token.isIdentifier n = true := by
  induction h with
  | name hc hpart _ _ ih =>
    intro n hn
    obtain heq | hmem := List.mem_cons.1 hn
    · cases heq
      simp only [Token.isIdentifier, hc, hpart, Bool.and_self]
    · exact ih n hmem
  | nil => exact fun n hn => absurd hn List.not_mem_nil
  | space _ _ ih => exact ih
  -- All other symbols are no names.
  | _ =>
    rename_i ih
    intro n hn
    obtain heq | hmem := List.mem_cons.1 hn
    · cases heq
    · exact ih n hmem

end TypeShape
