import TypeShape.Proofs.Lexing
import TypeShape.Registry.Basic

/-!
# The grammar of type expressions

`Produces` is the grammar: which symbols make a phrase, and what type expression the phrase denotes.
A phrase carries what it denotes, so that the rules are those of the syntax and of its meaning at
once.  The readers of type expressions are restated here by what stands in front of them: one token,
or the name a term begins with.

## Key results

- `Produces`: the grammar
- `TypeExpr.parseLiteral_eq_ok_iff`: a literal is read off a token when its symbol denotes it
- `TypeExpr.parseTerm_any` to `TypeExpr.parseTerm_plain`: a term by its first name
-/

namespace TypeShape

/-- The literal that a symbol denotes. -/
def Symbol.literal? : Symbol → Option Literal
  | .string spelling => (TypeExpr.unquoteToken? spelling).map .string
  | .number spelling => TypeExpr.parseNumber? spelling
  | .name spelling => TypeExpr.parseLiteralName? spelling
  | _ => none

/-- The names that stand for the same in every scope. -/
def Name.isKeyword (n : Text) : Bool :=
  Name.isReserved n || n = Name.nil

/-- A phrase of the grammar, with what it denotes. -/
inductive Phrase where
  | union (t : TypeExpr)
  /-- Terms, each after a bar. -/
  | alternatives (ts : List TypeExpr)
  | term (t : TypeExpr)
  /-- A sequence in brackets. -/
  | arguments (ts : List TypeExpr)
  /-- Unions with commas between them. -/
  | sequence (ts : List TypeExpr)
  | parameters (ts : List TypeExpr)
  /-- What follows the word `Callable`. -/
  | callable (t : TypeExpr)
  /-- Strings, each after a comma. -/
  | metadata (ms : List Text)
  /-- Literals with commas between them. -/
  | literals (vs : List Literal)

/-- The symbols that make a phrase. -/
inductive Produces (scope : Scope) : Phrase → List Symbol → Prop where
  -- union: term ('|' term)*
  | single {t : TypeExpr} {ss : List Symbol} :
    Produces scope (.term t) ss → Produces scope (.union t) ss
  | several {t : TypeExpr} {ts : List TypeExpr} {ss rs : List Symbol} :
    Produces scope (.term t) ss → Produces scope (.alternatives ts) rs → ts ≠ [] →
    Produces scope (.union (.union (t :: ts) false)) (ss ++ rs)
  | noAlternative : Produces scope (.alternatives []) []
  | alternative {t : TypeExpr} {ts : List TypeExpr} {ss rs : List Symbol} :
    Produces scope (.term t) ss → Produces scope (.alternatives ts) rs →
    Produces scope (.alternatives (t :: ts)) (.pipe :: (ss ++ rs))
  -- term: a word with what belongs to it, or a name
  | any : Produces scope (.term .any) [.name Name.any]
  | none : Produces scope (.term .nil) [.name Name.none]
  | nil : Produces scope (.term .nil) [.name Name.nil]
  | optional {t : TypeExpr} {ss : List Symbol} : Produces scope (.union t) ss →
    Produces scope (.term (.optionalOf t)) (.name Name.optional :: .opening :: (ss ++ [.closing]))
  | unionOfOne {t : TypeExpr} {ss : List Symbol} : Produces scope (.arguments [t]) ss →
    Produces scope (.term t) (.name Name.union :: ss)
  | unionOfMore {ts : List TypeExpr} {ss : List Symbol} : Produces scope (.arguments ts) ss →
    2 ≤ ts.length → Produces scope (.term (.union ts false)) (.name Name.union :: ss)
  | bareCallable : Produces scope (.term (.con Name.callable)) [.name Name.callable]
  | callable {t : TypeExpr} {ss : List Symbol} : Produces scope (.callable t) ss →
    Produces scope (.term t) (.name Name.callable :: ss)
  | bareType : Produces scope (.term (.typeOf .omitted)) [.name Name.typeOf]
  | typeOf {t : TypeExpr} {ss : List Symbol} : Produces scope (.union t) ss →
    Produces scope (.term (.typeOf t)) (.name Name.typeOf :: .opening :: (ss ++ [.closing]))
  | annotated {t : TypeExpr} {ms : List Text} {ss rs : List Symbol} :
    Produces scope (.union t) ss → Produces scope (.metadata ms) rs →
    Produces scope (.term (.annotated t ms))
      (.name Name.annotated :: .opening :: (ss ++ (rs ++ [.closing])))
  | literal {vs : List Literal} {ss : List Symbol} : Produces scope (.literals vs) ss →
    Produces scope (.term (.literal vs)) (.name Name.literal :: .opening :: (ss ++ [.closing]))
  | plain {n : Text} {t : TypeExpr} : Name.isKeyword n = false → scope n = some t →
    Produces scope (.term t) [.name n]
  | applied {n head : Text} {ts : List TypeExpr} {ss : List Symbol} :
    Name.isKeyword n = false → scope n = some (.con head) → Produces scope (.arguments ts) ss →
    Produces scope (.term (.app head ts)) (.name n :: ss)
  -- arguments: '[' union (',' union)* ']'
  | arguments {ts : List TypeExpr} {ss : List Symbol} : Produces scope (.sequence ts) ss →
    Produces scope (.arguments ts) (.opening :: (ss ++ [.closing]))
  | lastOf {t : TypeExpr} {ss : List Symbol} :
    Produces scope (.union t) ss → Produces scope (.sequence [t]) ss
  | more {t : TypeExpr} {ts : List TypeExpr} {ss rs : List Symbol} :
    Produces scope (.union t) ss → Produces scope (.sequence ts) rs →
    Produces scope (.sequence (t :: ts)) (ss ++ .comma :: rs)
  -- callable: '[' ('...' | '[' [union (',' union)* [',']] ']') ',' union ']'
  | noParameter : Produces scope (.parameters []) []
  | parameters {ts : List TypeExpr} {ss : List Symbol} :
    Produces scope (.sequence ts) ss → Produces scope (.parameters ts) ss
  | parametersComma {ts : List TypeExpr} {ss : List Symbol} :
    Produces scope (.sequence ts) ss → Produces scope (.parameters ts) (ss ++ [.comma])
  | anyParameters {t : TypeExpr} {ss : List Symbol} : Produces scope (.union t) ss →
    Produces scope (.callable (.callable [] t true))
      (.opening :: .ellipsis :: .comma :: (ss ++ [.closing]))
  | withParameters {ts : List TypeExpr} {t : TypeExpr} {rs ss : List Symbol} :
    Produces scope (.parameters ts) rs → Produces scope (.union t) ss →
    Produces scope (.callable (.callable ts t false))
      (.opening :: .opening :: (rs ++ .closing :: .comma :: (ss ++ [.closing])))
  -- metadata: (',' string)*
  | noMetadata : Produces scope (.metadata []) []
  | metadata {spelling m : Text} {ms : List Text} {ss : List Symbol} :
    TypeExpr.unquoteToken? spelling = some m → Produces scope (.metadata ms) ss →
    Produces scope (.metadata (m :: ms)) (.comma :: .string spelling :: ss)
  -- literals: lit (',' lit)*
  | lastLiteral {s : Symbol} {v : Literal} :
    s.literal? = some v → Produces scope (.literals [v]) [s]
  | moreLiterals {s : Symbol} {v : Literal} {vs : List Literal} {ss : List Symbol} :
    s.literal? = some v → Produces scope (.literals vs) ss →
    Produces scope (.literals (v :: vs)) (s :: .comma :: ss)

/-! ## Single tokens -/

/-- A sequence succeeds exactly if both of its parts do. -/
theorem bind_eq_ok {ε α β : Type} {x : Except ε α} {f : α → Except ε β} {b : β} :
    (x >>= f) = .ok b ↔ ∃ a, x = .ok a ∧ f a = .ok b := by
  cases x with
  | error e => simp [bind, Except.bind]
  | ok a => simp [bind, Except.bind]

open Token

namespace TypeExpr

/-- The next token of a list that has one. -/
@[simp] theorem peek_cons (t : Token) (ts : List Token) : peek (t :: ts) = t := rfl

/-- A failure is no success. -/
theorem failAt_ne_ok {α : Type} {source : Text} {ts : List Token} {fault : ParseFault} {a : α} :
    failAt source ts fault ≠ .ok a := nofun

/-- What is taken is a token of the kind expected. -/
theorem expect_eq_ok {source : Text} {kind : TokenKind} {what : Text} {ts rest : List Token}
    (h : expect source kind what ts = .ok rest) (hkind : kind ≠ .eof) :
    ∃ t, ts = t :: rest ∧ t.kind = kind := by
  unfold expect at h
  split at h
  · exact absurd h failAt_ne_ok
  · split at h
    · rename_i htoken
      -- Past the end of the source there is only the end, which is not what is expected.
      cases ts with
      | nil => exact absurd htoken.symm hkind
      | cons t ts =>
        cases h
        exact ⟨t, rfl, htoken⟩
    · exact absurd h failAt_ne_ok

/-- Taking a token of the kind that is there leaves the rest. -/
theorem expect_symbol {source : Text} {kind : TokenKind} {what : Text} {t : Token} {s : Symbol}
    {rest : List Token} (hs : t.symbol? = some s) (hkind : t.kind = kind) :
    expect source kind what (t :: rest) = .ok rest := by
  have hfault : t.fault? = none := by
    obtain ⟨kind, spelling, position⟩ := t
    cases kind with
    | strange byte => cases hs
    | unterminated => cases hs
    | _ => rfl
  simp [expect, hfault, hkind]

/-- A token in front of the kind that decides the rule. -/
theorem eq_cons_of_peek {ts : List Token} {kind : TokenKind} (h : (peek ts).kind = kind)
    (hkind : kind ≠ .eof) : ∃ t, ts = t :: ts.tail ∧ t.kind = kind := by
  cases ts with
  | nil => exact absurd h.symm hkind
  | cons t ts => exact ⟨t, rfl, h⟩

/-- The symbol of a mark is told by the kind of its token. -/
def markSymbol? : TokenKind → Option Symbol
  | .opening => some .opening
  | .closing => some .closing
  | .comma => some .comma
  | .pipe => some .pipe
  | .ellipsis => some .ellipsis
  | _ => none

/-- A token of the kind of a mark stands for that mark. -/
theorem symbol?_of_mark {t : Token} {kind : TokenKind} {s : Symbol} (h : t.kind = kind)
    (hs : markSymbol? kind = some s) : t.symbol? = some s := by
  cases kind <;> simp_all [markSymbol?, symbol?]

/-- What `expect` takes spells the mark that was expected. -/
theorem spell_expect {source : Text} {kind : TokenKind} {what : Text} {ts us rest : List Token}
    {s : Symbol} {ss : List Symbol} (h : expect source kind what ts = .ok us)
    (hs : markSymbol? kind = some s) (hss : Spell us ss rest) : Spell ts (s :: ss) rest := by
  obtain ⟨t, rfl, hkind⟩ := expect_eq_ok h (by rintro rfl; cases hs)
  exact .cons (symbol?_of_mark hkind hs) hss

/-- A token that was looked at and dropped spells its mark. -/
theorem spell_peek {ts rest : List Token} {kind : TokenKind} {s : Symbol} {ss : List Symbol}
    (h : (peek ts).kind = kind) (hs : markSymbol? kind = some s) (hss : Spell ts.tail ss rest) :
    Spell ts (s :: ss) rest := by
  obtain ⟨t, hts, hkind⟩ := eq_cons_of_peek h (by rintro rfl; cases hs)
  rw [hts]
  exact .cons (symbol?_of_mark hkind hs) hss

/-! ## Literals and metadata -/

/-- One step of the reader of literals: a value, and more of them after a comma. -/
theorem parseLiterals_cons (source : Text) (t : Token) (ts : List Token) :
    parseLiterals source (t :: ts) = (do
      let v ← parseLiteral source t
      if (peek ts).kind = .comma then do
        let (vs, rest) ← parseLiterals source ts.tail
        pure (v :: vs, rest)
      else pure ([v], ts)) := by
  rw [parseLiterals.eq_def]
  refine congrArg (parseLiteral source t >>= ·) (funext fun v => ?_)
  -- The equation of the reader looks at the kind of the second token.
  rcases ts with _ | ⟨⟨kind, spelling, position⟩, us⟩
  · rfl
  · cases kind <;> rfl

/-- One step of the reader of metadata, in front of a comma and a string. -/
theorem parseMetadata_comma {source : Text} {comma t : Token} {ts : List Token}
    (hcomma : comma.kind = .comma) (ht : t.kind = .string) :
    parseMetadata source (comma :: t :: ts) =
      match unquoteToken? t.text with
      | none => .error (.parse source t.position (.badString t.text))
      | some s => (do
        let (more, rest) ← parseMetadata source ts
        pure (s :: more, rest)) := by
  -- The reader matches on both tokens, so their fields have to be known before it takes a step.
  obtain ⟨kind, spelling, position⟩ := comma
  cases hcomma
  obtain ⟨kind, spelling, position⟩ := t
  cases ht
  exact (parseMetadata.eq_def _ _).trans rfl

/-- Without a comma there is no more metadata. -/
theorem parseMetadata_of_not_comma {source : Text} {ts : List Token}
    (h : (peek ts).kind ≠ .comma) : parseMetadata source ts = .ok ([], ts) := by
  refine parseMetadata.eq_2 source ts ?_
  rintro spelling position t us rfl
  exact h rfl

/-- A literal is read off a token exactly when its symbol denotes it. -/
theorem parseLiteral_eq_ok_iff {source : Text} {t : Token} {v : Literal} :
    parseLiteral source t = .ok v ↔ ∃ s, t.symbol? = some s ∧ s.literal? = some v := by
  obtain ⟨kind, spelling, position⟩ := t
  cases kind with
  | string =>
    cases h : unquoteToken? spelling <;> simp [parseLiteral, symbol?, Symbol.literal?, h]
  | number =>
    cases h : parseNumber? spelling <;> simp [parseLiteral, symbol?, Symbol.literal?, h]
  | name =>
    cases h : parseLiteralName? spelling <;> simp [parseLiteral, symbol?, Symbol.literal?, h]
  | _ => simp [parseLiteral, symbol?, Symbol.literal?]

/-! ## Terms by their first name -/

/-- The keywords are the nine names that the reader of terms asks for. -/
theorem isKeyword_iff {n : Text} : Name.isKeyword n = true ↔ n = Name.any ∨ n = Name.none ∨
    n = Name.nil ∨ n = Name.optional ∨ n = Name.union ∨ n = Name.callable ∨ n = Name.typeOf ∨
    n = Name.annotated ∨ n = Name.literal := by
  simp only [Name.isKeyword, Name.isReserved, Name.reserved, Bool.or_eq_true, List.contains_cons,
    List.contains_nil, beq_iff_eq, decide_eq_true_eq, Bool.false_eq_true]
  grind

/-- A token that stands for a name is a name token with that text. -/
theorem text_of_symbol? {t : Token} {n : Text} (h : t.symbol? = some (.name n)) :
    t.kind = .name ∧ t.text = n := by
  obtain ⟨kind, spelling, position⟩ := t
  cases kind <;> simp_all [symbol?]

/-- A token that stands for a string is a string token with that text. -/
theorem string_of_symbol? {t : Token} {spelling : Text} (h : t.symbol? = some (.string spelling)) :
    t.kind = .string ∧ t.text = spelling := by
  obtain ⟨kind, spelling, position⟩ := t
  cases kind <;> simp_all [symbol?]

section

-- The equations of the reader are made here, once for all the words below.
attribute [local simp] parseTerm

variable {source : Text} {scope : Scope} {fuel : Nat} {token : Token} {ts : List Token}

/-- The name `Any` alone is the wildcard. -/
theorem parseTerm_any (h : token.symbol? = some (.name Name.any)) :
    parseTerm source scope (fuel + 1) (token :: ts) = .ok (any, ts) := by
  obtain ⟨hkind, htext⟩ := text_of_symbol? h
  rw [parseTerm, peek_cons, htext, expect_symbol h hkind]
  rfl

/-- The name `None` alone is the class `Nil`. -/
theorem parseTerm_none (h : token.symbol? = some (.name Name.none)) :
    parseTerm source scope (fuel + 1) (token :: ts) = .ok (nil, ts) := by
  obtain ⟨hkind, htext⟩ := text_of_symbol? h
  rw [parseTerm, peek_cons, htext, expect_symbol h hkind]
  rfl

/-- The name `Nil` alone is the class `Nil`. -/
theorem parseTerm_nil (h : token.symbol? = some (.name Name.nil)) :
    parseTerm source scope (fuel + 1) (token :: ts) = .ok (nil, ts) := by
  obtain ⟨hkind, htext⟩ := text_of_symbol? h
  rw [parseTerm, peek_cons, htext, expect_symbol h hkind]
  rfl

/-- The name `Optional` takes exactly one argument. -/
theorem parseTerm_optional (h : token.symbol? = some (.name Name.optional)) :
    parseTerm source scope (fuel + 1) (token :: ts) = (do
      let (args, ts) ← parseArguments source scope fuel Name.optional ts
      match args with
      | [t] => pure (optionalOf t, ts)
      | _ => failAt source ts (.notOneArgument Name.optional)) := by
  obtain ⟨hkind, htext⟩ := text_of_symbol? h
  rw [parseTerm, peek_cons, htext, expect_symbol h hkind]
  rfl

/-- The name `Union` takes arguments; a union of one argument is that argument. -/
theorem parseTerm_union (h : token.symbol? = some (.name Name.union)) :
    parseTerm source scope (fuel + 1) (token :: ts) = (do
      let (args, ts) ← parseArguments source scope fuel Name.union ts
      match args with
      | [t] => pure (t, ts)
      | _ => pure (.union args false, ts)) := by
  obtain ⟨hkind, htext⟩ := text_of_symbol? h
  rw [parseTerm, peek_cons, htext, expect_symbol h hkind]
  rfl

/-- The name `Callable` is a class on its own, and starts a signature before a bracket. -/
theorem parseTerm_callable (h : token.symbol? = some (.name Name.callable)) :
    parseTerm source scope (fuel + 1) (token :: ts) =
      if (peek ts).kind = .opening then parseCallable source scope fuel ts
      else .ok (.con Name.callable, ts) := by
  obtain ⟨hkind, htext⟩ := text_of_symbol? h
  rw [parseTerm, peek_cons, htext, expect_symbol h hkind]
  rfl

/-- The name `Type` is bare on its own, and takes exactly one argument in brackets. -/
theorem parseTerm_typeOf (h : token.symbol? = some (.name Name.typeOf)) :
    parseTerm source scope (fuel + 1) (token :: ts) =
      if (peek ts).kind = .opening then do
        let (args, ts) ← parseArguments source scope fuel Name.typeOf ts
        match args with
        | [t] => pure (.typeOf t, ts)
        | _ => failAt source ts (.notOneArgument Name.typeOf)
      else .ok (.typeOf .omitted, ts) := by
  obtain ⟨hkind, htext⟩ := text_of_symbol? h
  rw [parseTerm, peek_cons, htext, expect_symbol h hkind]
  rfl

/-- The name `Annotated` takes an expression and then metadata. -/
theorem parseTerm_annotated (h : token.symbol? = some (.name Name.annotated)) :
    parseTerm source scope (fuel + 1) (token :: ts) = (do
      let ts ← expect source .opening (text "'[' after Annotated") ts
      let (inner, ts) ← parseUnion source scope fuel ts
      let (metadata, ts) ← parseMetadata source ts
      let ts ← expect source .closing (text "']'") ts
      pure (.annotated inner metadata, ts)) := by
  obtain ⟨hkind, htext⟩ := text_of_symbol? h
  rw [parseTerm, peek_cons, htext, expect_symbol h hkind]
  rfl

/-- The name `Literal` takes literal values. -/
theorem parseTerm_literal (h : token.symbol? = some (.name Name.literal)) :
    parseTerm source scope (fuel + 1) (token :: ts) = (do
      let ts ← expect source .opening (text "'[' after Literal") ts
      let (values, ts) ← parseLiterals source ts
      let ts ← expect source .closing (text "']'") ts
      pure (.literal values, ts)) := by
  obtain ⟨hkind, htext⟩ := text_of_symbol? h
  rw [parseTerm, peek_cons, htext, expect_symbol h hkind]
  rfl

/-- Any other name stands for what the scope gives it, and takes arguments if that is a class. -/
theorem parseTerm_plain {n : Text} (h : token.symbol? = some (.name n))
    (hn : Name.isKeyword n = false) :
    parseTerm source scope (fuel + 1) (token :: ts) =
      match scope n with
      | none => .error (.unknownType n)
      | some resolved =>
        if (peek ts).kind = .opening then
          match resolved with
          | .con head => do
            let (args, ts) ← parseArguments source scope fuel n ts
            pure (.app head args, ts)
          | _ => failAt source ts (.noArguments n)
        else .ok (resolved, ts) := by
  obtain ⟨hkind, htext⟩ := text_of_symbol? h
  rw [parseTerm, peek_cons, htext, expect_symbol h hkind]
  -- The reader asks for each keyword in turn, and the name is none of them.
  simp only [← Bool.not_eq_true, isKeyword_iff, not_or] at hn
  obtain ⟨h₁, h₂, h₃, h₄, h₅, h₆, h₇, h₈, h₉⟩ := hn
  simp only [bind, Except.bind, h₁, h₂, h₃, h₄, h₅, h₆, h₇, h₈, h₉, if_false, decide_false,
    Bool.or_self, Bool.false_eq_true]
  rfl

end

end TypeExpr

end TypeShape
