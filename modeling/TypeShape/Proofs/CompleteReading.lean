import TypeShape.Proofs.SoundReading

/-!
# Every phrase is read

A phrase is read off the front of the tokens whatever follows it, as long as what follows could not
be taken for a part of it and the fuel is enough for its symbols.  There is one lemma for each rule
of the grammar, and the induction over the rules only puts them together.

## Key results

- `TypeExpr.complete_of_produces`: a reader takes every phrase that the rest does not continue
- `Registry.parse_of_produces`: every sentence of the grammar is read
- `Registry.parse_eq_ok_iff`: reading succeeds exactly on the sentences of the grammar
-/

namespace TypeShape

open Token

namespace Phrase

/-- Whether a token of this kind after a phrase could not be taken for a part of it. -/
def EndsBefore : Phrase → TokenKind → Prop
  | .union _, kind => kind ≠ .opening ∧ kind ≠ .pipe
  | .alternatives _, kind => kind ≠ .opening ∧ kind ≠ .pipe
  | .term _, kind => kind ≠ .opening
  | .arguments _, _ => True
  | .sequence _, kind => kind ≠ .opening ∧ kind ≠ .pipe
  | .parameters _, kind => kind = .closing
  | .callable _, _ => True
  | .metadata _, kind => kind ≠ .comma
  | .literals _, kind => kind ≠ .comma

/-- Enough fuel to read a phrase of `n` symbols. -/
def fuel : Phrase → Nat → Nat
  | .union _, n => 4 * n - 2
  | .alternatives _, n => 4 * n + 1
  | .term _, n => 4 * n - 3
  | .arguments _, n => 4 * n - 4
  | .sequence _, n => 4 * n - 1
  | .parameters _, n => 4 * n + 1
  | .callable _, n => 4 * n - 4
  | .metadata _, _ => 0
  | .literals _, _ => 0

end Phrase

namespace TypeExpr

/-- A reader takes a phrase off the front of the tokens and leaves the rest.  A sequence can be read
as arguments unless a comma follows, and as parameters up to a closing bracket, perhaps with a
comma before it. -/
def Reads (source : Text) (scope : Scope) (fuel : Nat) : Phrase → List Token → List Token → Prop
  | .union t, ts, rest => parseUnion source scope fuel ts = .ok (t, rest)
  | .alternatives others, ts, rest => parseAlternatives source scope fuel ts = .ok (others, rest)
  | .term t, ts, rest => parseTerm source scope fuel ts = .ok (t, rest)
  | .arguments args, ts, rest =>
    ∀ name, parseArguments source scope fuel name ts = .ok (args, rest)
  | .sequence args, ts, rest =>
    ((peek rest).kind ≠ .comma → parseSequence source scope fuel ts = .ok (args, rest)) ∧
    ((peek rest).kind = .closing → parseParameters source scope fuel ts = .ok (args, rest)) ∧
    ((peek rest).kind = .comma → (peek rest.tail).kind = .closing →
      parseParameters source scope fuel ts = .ok (args, rest.tail))
  | .parameters params, ts, rest => parseParameters source scope fuel ts = .ok (params, rest)
  | .callable t, ts, rest => parseCallable source scope fuel ts = .ok (t, rest)
  | .metadata ms, ts, rest => parseMetadata source ts = .ok (ms, rest)
  | .literals vs, ts, rest => parseLiterals source ts = .ok (vs, rest)

/-! ### What a phrase begins with -/

section

variable {scope : Scope} {t : TypeExpr} {ss : List Symbol} {ts rest : List Token}

/-- A term begins with a name. -/
theorem term_begins (h : Produces scope (.term t) ss) : ∃ n rs, ss = .name n :: rs := by
  cases h <;> exact ⟨_, _, rfl⟩

/-- A union begins with a name. -/
theorem union_begins (h : Produces scope (.union t) ss) : ∃ n rs, ss = .name n :: rs := by
  cases h with
  | single hterm => exact term_begins hterm
  | several hterm _ _ =>
    obtain ⟨n, rs, rfl⟩ := term_begins hterm
    exact ⟨n, _, rfl⟩

/-- A sequence of arguments begins with a name. -/
theorem sequence_begins {args : List TypeExpr} (h : Produces scope (.sequence args) ss) :
    ∃ n rs, ss = .name n :: rs := by
  cases h with
  | lastOf hunion => exact union_begins hunion
  | more hunion _ =>
    obtain ⟨n, rs, rfl⟩ := union_begins hunion
    exact ⟨n, _, rfl⟩

/-- A token that stands for a mark has the kind of that mark. -/
theorem kind_of_mark {t : Token} {kind : TokenKind} {s : Symbol} (h : t.symbol? = some s)
    (hs : markSymbol? kind = some s) : t.kind = kind := by
  obtain ⟨kind', spelling, position⟩ := t
  cases kind <;> cases hs <;> cases kind' <;> first | rfl | cases h

/-- The next token of a spelling that begins with a name. -/
theorem peek_name {n : Text} (h : Spell ts (.name n :: ss) rest) : (peek ts).kind = .name := by
  cases h with
  | cons hs _ => exact (text_of_symbol? hs).1

/-- A bar follows a term, or what follows the alternatives. -/
theorem peek_alternatives {others : List TypeExpr} (h : Produces scope (.alternatives others) ss)
    (hss : Spell ts ss rest) : (peek ts).kind = .pipe ∨ ts = rest := by
  cases h with
  | noAlternative =>
    cases hss
    exact .inr rfl
  | alternative _ _ =>
    cases hss with
    | cons hs _ => exact .inl (kind_of_mark hs rfl)

/-- What follows a term among alternatives is not taken for its arguments. -/
theorem peek_alternatives_ne_opening {others : List TypeExpr}
    (h : Produces scope (.alternatives others) ss) (hss : Spell ts ss rest)
    (hend : (peek rest).kind ≠ .opening) : (peek ts).kind ≠ .opening := by
  obtain hpipe | rfl := peek_alternatives h hss
  · simp [hpipe]
  · exact hend

/-- A comma follows the constrained type, or what follows the metadata. -/
theorem peek_metadata {ms : List Text} (h : Produces scope (.metadata ms) ss)
    (hss : Spell ts ss rest) : (peek ts).kind = .comma ∨ ts = rest := by
  cases h with
  | noMetadata =>
    cases hss
    exact .inr rfl
  | metadata _ _ =>
    cases hss with
    | cons hs _ => exact .inl (kind_of_mark hs rfl)

/-- A spelling that ends with a closing bracket ends with its token. -/
theorem spell_closed (h : Spell ts (ss ++ [.closing]) rest) :
    ∃ closing, closing.symbol? = some .closing ∧ Spell ts ss (closing :: rest) := by
  obtain ⟨us, hss, hclosing⟩ := h.of_append
  cases hclosing with
  | cons hs hnil =>
    cases hnil
    exact ⟨_, hs, hss⟩

/-- A bracketed spelling begins and ends with the tokens of its brackets. -/
theorem spell_bracketed (h : Spell ts (.opening :: (ss ++ [.closing])) rest) :
    ∃ opening us closing, ts = opening :: us ∧ opening.symbol? = some .opening ∧
      closing.symbol? = some .closing ∧ Spell us ss (closing :: rest) := by
  cases h with
  | cons hopening h =>
    obtain ⟨closing, hclosing, hss⟩ := spell_closed h
    exact ⟨_, _, closing, rfl, hopening, hclosing, hss⟩

/-- A spelling of one symbol is one token. -/
theorem spell_one {s : Symbol} (h : Spell ts [s] rest) :
    ∃ t, ts = t :: rest ∧ t.symbol? = some s := by
  cases h with
  | cons hs hnil =>
    cases hnil
    exact ⟨_, rfl, hs⟩

end

/-! ### Every phrase is read -/

/-- A mark that is there can be taken. -/
theorem expect_mark {source : Text} {kind : TokenKind} {what : Text} {t : Token} {s : Symbol}
    {rest : List Token} (hs : t.symbol? = some s) (hkind : markSymbol? kind = some s) :
    expect source kind what (t :: rest) = .ok rest :=
  expect_symbol hs (kind_of_mark hs hkind)

section

variable {source : Text} {scope : Scope} {fuel : Nat} {ts us rest : List Token}

/-- Without a bar there are no more alternatives. -/
theorem parseAlternatives_nil (h : (peek ts).kind ≠ .pipe) :
    parseAlternatives source scope (fuel + 1) ts = .ok ([], ts) := by
  rw [parseAlternatives, if_neg h]

/-- A union is read if its first term and its alternatives are. -/
theorem parseUnion_ok {t : TypeExpr} {others : List TypeExpr}
    (hterm : parseTerm source scope fuel ts = .ok (t, us))
    (hothers : parseAlternatives source scope fuel us = .ok (others, rest)) :
    parseUnion source scope (fuel + 1) ts =
      .ok (if others.isEmpty then t else .union (t :: others) false, rest) := by
  rw [parseUnion]
  exact bind_eq_ok.2 ⟨_, hterm, bind_eq_ok.2 ⟨_, hothers, rfl⟩⟩

/-- A sequence of one argument, with no comma behind it. -/
theorem parseSequence_one {t : TypeExpr} (ht : parseUnion source scope fuel ts = .ok (t, rest))
    (hrest : (peek rest).kind ≠ .comma) :
    parseSequence source scope (fuel + 1) ts = .ok ([t], rest) := by
  rw [parseSequence]
  exact bind_eq_ok.2 ⟨_, ht, if_neg hrest⟩

/-- A sequence of an argument, a comma and more arguments. -/
theorem parseSequence_cons {t : TypeExpr} {others : List TypeExpr}
    (ht : parseUnion source scope fuel ts = .ok (t, us)) (hus : (peek us).kind = .comma)
    (hothers : parseSequence source scope fuel us.tail = .ok (others, rest)) :
    parseSequence source scope (fuel + 1) ts = .ok (t :: others, rest) := by
  rw [parseSequence]
  refine bind_eq_ok.2 ⟨_, ht, ?_⟩
  simp only [if_pos hus]
  exact bind_eq_ok.2 ⟨_, hothers, rfl⟩

/-- A parameter list that is closed at once is empty. -/
theorem parseParameters_nil (h : (peek ts).kind = .closing) :
    parseParameters source scope (fuel + 1) ts = .ok ([], ts) := by
  rw [parseParameters, if_pos h]

/-- A parameter list of one parameter, with the closing bracket behind it. -/
theorem parseParameters_one {t : TypeExpr} (hts : (peek ts).kind = .name)
    (ht : parseUnion source scope fuel ts = .ok (t, rest)) (hrest : (peek rest).kind = .closing) :
    parseParameters source scope (fuel + 1) ts = .ok ([t], rest) := by
  rw [parseParameters, if_neg (by simp [hts])]
  exact bind_eq_ok.2 ⟨_, ht, if_neg (by simp [hrest])⟩

/-- A parameter list of a parameter, a comma and more parameters. -/
theorem parseParameters_cons {t : TypeExpr} {others : List TypeExpr} (hts : (peek ts).kind = .name)
    (ht : parseUnion source scope fuel ts = .ok (t, us)) (hus : (peek us).kind = .comma)
    (hothers : parseParameters source scope fuel us.tail = .ok (others, rest)) :
    parseParameters source scope (fuel + 1) ts = .ok (t :: others, rest) := by
  rw [parseParameters, if_neg (by simp [hts])]
  refine bind_eq_ok.2 ⟨_, ht, ?_⟩
  simp only [if_pos hus]
  exact bind_eq_ok.2 ⟨_, hothers, rfl⟩

/-- Arguments in brackets are read if the sequence inside them is. -/
theorem parseArguments_ok {args : List TypeExpr} {opening closing : Token}
    (hopening : opening.symbol? = some .opening) (hclosing : closing.symbol? = some .closing)
    (hargs : parseSequence source scope fuel ts = .ok (args, closing :: rest)) (name : Text) :
    parseArguments source scope (fuel + 1) name (opening :: ts) = .ok (args, rest) := by
  rw [parseArguments]
  exact bind_eq_ok.2 ⟨_, expect_mark hopening rfl, bind_eq_ok.2 ⟨_, hargs,
    bind_eq_ok.2 ⟨_, expect_mark hclosing rfl, rfl⟩⟩⟩

end

/-- With enough fuel, the reader of a phrase takes these symbols and leaves a rest that could not
continue the phrase. -/
def Complete (source : Text) (scope : Scope) (phrase : Phrase) (ss : List Symbol) : Prop :=
  ∀ fuel ts rest, Spell ts ss rest → phrase.fuel ss.length ≤ fuel →
    phrase.EndsBefore (peek rest).kind → Reads source scope fuel phrase ts rest

section

variable {source : Text} {scope : Scope} {t : TypeExpr} {others : List TypeExpr}
  {ss rs : List Symbol}

/-- What closes a bracket could not continue the union inside. -/
theorem endsBefore_closing {closing : Token} (hclosing : closing.symbol? = some .closing) :
    (closing.kind ≠ .opening ∧ closing.kind ≠ .pipe) ∧ closing.kind ≠ .comma := by
  have hkind : closing.kind = .closing := kind_of_mark hclosing rfl
  simp [hkind]

/-! #### Unions -/

/-- A union of one term. -/
theorem complete_single (hterm : Produces scope (.term t) ss)
    (ih : Complete source scope (.term t) ss) : Complete source scope (.union t) ss := by
  intro fuel ts rest hss hfuel hend
  obtain ⟨n, rs, rfl⟩ := term_begins hterm
  simp only [Phrase.fuel, List.length_cons] at hfuel
  obtain ⟨fuel, rfl⟩ : ∃ k, fuel = k + 2 := ⟨fuel - 2, by omega⟩
  have hread : parseTerm source scope (fuel + 1) ts = .ok (t, rest) :=
    ih _ _ _ hss (by simp only [Phrase.fuel, List.length_cons]; omega) hend.1
  exact parseUnion_ok hread (parseAlternatives_nil hend.2)

/-- A union of several terms. -/
theorem complete_several (hterm : Produces scope (.term t) ss)
    (hothers : Produces scope (.alternatives others) rs) (hne : others ≠ [])
    (ih₁ : Complete source scope (.term t) ss)
    (ih₂ : Complete source scope (.alternatives others) rs) :
    Complete source scope (.union (.union (t :: others) false)) (ss ++ rs) := by
  intro fuel ts rest hall hfuel hend
  obtain ⟨us, hss, hrs⟩ := hall.of_append
  obtain ⟨n, qs, rfl⟩ := term_begins hterm
  -- There is another alternative, so a bar follows the first term.
  obtain ⟨q, qs, rfl⟩ : ∃ q qs, rs = q :: qs := by
    cases hothers with
    | noAlternative => exact absurd rfl hne
    | alternative _ _ => exact ⟨_, _, rfl⟩
  simp only [Phrase.fuel, List.length_cons, List.length_append] at hfuel
  obtain ⟨fuel, rfl⟩ : ∃ k, fuel = k + 1 := ⟨fuel - 1, by omega⟩
  have hbar : (peek us).kind ≠ .opening := peek_alternatives_ne_opening hothers hrs hend.1
  have hfirst : parseTerm source scope fuel ts = .ok (t, us) :=
    ih₁ _ _ _ hss (by simp only [Phrase.fuel, List.length_cons]; omega) hbar
  have hread : parseAlternatives source scope fuel us = .ok (others, rest) :=
    ih₂ _ _ _ hrs (by simp only [Phrase.fuel, List.length_cons]; omega) hend
  have hunion := parseUnion_ok hfirst hread
  rwa [if_neg (by simpa using hne)] at hunion

/-- No alternatives. -/
theorem complete_noAlternative : Complete source scope (.alternatives []) [] := by
  intro fuel ts rest hss hfuel hend
  cases hss
  simp only [Phrase.fuel] at hfuel
  obtain ⟨fuel, rfl⟩ : ∃ k, fuel = k + 1 := ⟨fuel - 1, by omega⟩
  exact parseAlternatives_nil hend.2

/-- A bar, a term and more alternatives. -/
theorem complete_alternative (hothers : Produces scope (.alternatives others) rs)
    (ih₁ : Complete source scope (.term t) ss)
    (ih₂ : Complete source scope (.alternatives others) rs) :
    Complete source scope (.alternatives (t :: others)) (.pipe :: (ss ++ rs)) := by
  intro fuel ts rest hss hfuel hend
  cases hss with
  | @cons token ts _ _ _ hs hss =>
    obtain ⟨us, hss, hrs⟩ := hss.of_append
    simp only [Phrase.fuel, List.length_cons, List.length_append] at hfuel
    obtain ⟨fuel, rfl⟩ : ∃ k, fuel = k + 1 := ⟨fuel - 1, by omega⟩
    -- No bracket follows the first term, which would make it an application.
    have hbar : (peek us).kind ≠ .opening := peek_alternatives_ne_opening hothers hrs hend.1
    have hpipe : (peek (token :: ts)).kind = .pipe := kind_of_mark hs rfl
    have hfirst : parseTerm source scope fuel ts = .ok (t, us) :=
      ih₁ _ _ _ hss (by simp only [Phrase.fuel]; omega) hbar
    have hread : parseAlternatives source scope fuel us = .ok (others, rest) :=
      ih₂ _ _ _ hrs (by simp only [Phrase.fuel]; omega) hend
    show parseAlternatives source scope (fuel + 1) _ = _
    rw [parseAlternatives, if_pos hpipe]
    exact bind_eq_ok.2 ⟨_, hfirst, bind_eq_ok.2 ⟨_, hread, rfl⟩⟩

/-! #### Terms -/

/-- A term of one name, which the reader takes whatever its fuel. -/
theorem complete_word {n : Text}
    (h : ∀ fuel token rest, token.symbol? = some (.name n) → (peek rest).kind ≠ .opening →
      parseTerm source scope (fuel + 1) (token :: rest) = .ok (t, rest)) :
    Complete source scope (.term t) [.name n] := by
  intro fuel ts rest hss hfuel hend
  obtain ⟨token, rfl, hs⟩ := spell_one hss
  simp only [Phrase.fuel, List.length_singleton] at hfuel
  obtain ⟨fuel, rfl⟩ : ∃ k, fuel = k + 1 := ⟨fuel - 1, by omega⟩
  exact h fuel token rest hs hend

/-- A term of a name and arguments. -/
theorem complete_withArguments {n : Text} {args : List TypeExpr}
    (h : ∀ fuel token opening ts rest, token.symbol? = some (.name n) →
      opening.symbol? = some .opening →
      parseArguments source scope fuel n (opening :: ts) = .ok (args, rest) →
      parseTerm source scope (fuel + 1) (token :: opening :: ts) = .ok (t, rest))
    (hargs : Produces scope (.arguments args) ss)
    (ih : Complete source scope (.arguments args) ss) :
    Complete source scope (.term t) (.name n :: ss) := by
  intro fuel ts rest hall hfuel hend
  cases hall with
  | @cons token _ _ _ _ hs hss =>
    -- The fuel is taken off for the name before the arguments are read.
    have hread := fun fuel hfuel => ih fuel _ _ hss hfuel trivial n
    cases hargs with
    | arguments _ =>
      obtain ⟨opening, us, closing, rfl, hopening, -, -⟩ := spell_bracketed hss
      simp only [Phrase.fuel, List.length_cons, List.length_append, List.length_nil] at hfuel hread
      obtain ⟨fuel, rfl⟩ : ∃ k, fuel = k + 1 := ⟨fuel - 1, by omega⟩
      exact h _ _ _ _ _ hs hopening (hread fuel (by omega))

/-! #### Sequences -/

/-- Arguments in brackets. -/
theorem complete_arguments {args : List TypeExpr} (hargs : Produces scope (.sequence args) ss)
    (ih : Complete source scope (.sequence args) ss) :
    Complete source scope (.arguments args) (.opening :: (ss ++ [.closing])) := by
  intro fuel ts rest hall hfuel _ name
  obtain ⟨opening, us, closing, rfl, hopening, hclosing, hss⟩ := spell_bracketed hall
  obtain ⟨n, rs, rfl⟩ := sequence_begins hargs
  simp only [Phrase.fuel, List.length_cons, List.length_append, List.length_nil] at hfuel
  obtain ⟨fuel, rfl⟩ : ∃ k, fuel = k + 1 := ⟨fuel - 1, by omega⟩
  obtain ⟨hend, hcomma⟩ := endsBefore_closing hclosing
  have hread := ih fuel _ _ hss (by simp only [Phrase.fuel, List.length_cons]; omega) hend
  exact parseArguments_ok hopening hclosing (hread.1 hcomma) name

/-- A sequence of one argument is read as arguments, as parameters, and as parameters with a comma
behind them. -/
theorem complete_lastOf (hunion : Produces scope (.union t) ss)
    (ih : Complete source scope (.union t) ss) : Complete source scope (.sequence [t]) ss := by
  intro fuel ts rest hss hfuel hend
  obtain ⟨n, rs, rfl⟩ := union_begins hunion
  simp only [Phrase.fuel, List.length_cons] at hfuel
  obtain ⟨fuel, rfl⟩ : ∃ k, fuel = k + 2 := ⟨fuel - 2, by omega⟩
  have hread : parseUnion source scope (fuel + 1) ts = .ok (t, rest) :=
    ih _ _ _ hss (by simp only [Phrase.fuel, List.length_cons]; omega) hend
  refine ⟨parseSequence_one hread, parseParameters_one (peek_name hss) hread, ?_⟩
  intro hcomma hclosing
  exact parseParameters_cons (peek_name hss) hread hcomma (parseParameters_nil hclosing)

/-- A sequence of an argument, a comma and more arguments. -/
theorem complete_more (hunion : Produces scope (.union t) ss)
    (ih₁ : Complete source scope (.union t) ss)
    (ih₂ : Complete source scope (.sequence others) rs) :
    Complete source scope (.sequence (t :: others)) (ss ++ .comma :: rs) := by
  intro fuel ts rest hall hfuel hend
  obtain ⟨us, hss, hrs⟩ := hall.of_append
  cases hrs with
  | @cons token us _ _ _ hs hrs =>
    obtain ⟨n, qs, rfl⟩ := union_begins hunion
    simp only [Phrase.fuel, List.length_cons, List.length_append] at hfuel
    obtain ⟨fuel, rfl⟩ : ∃ k, fuel = k + 1 := ⟨fuel - 1, by omega⟩
    have hcomma : token.kind = .comma := kind_of_mark hs rfl
    have hread : parseUnion source scope fuel ts = .ok (t, token :: us) :=
      ih₁ _ _ _ hss (by simp only [Phrase.fuel, List.length_cons]; omega)
        (by simp [Phrase.EndsBefore, hcomma])
    -- One sequence is read in three ways, by where it stands; a step of each is a step of the rest.
    obtain ⟨hsequence, hparameters, htrailing⟩ :=
      ih₂ fuel _ _ hrs (by simp only [Phrase.fuel]; omega) hend
    refine ⟨fun hrest => ?_, fun hrest => ?_, fun hrest hclosing => ?_⟩
    · exact parseSequence_cons hread hcomma (hsequence hrest)
    · exact parseParameters_cons (peek_name hss) hread hcomma (hparameters hrest)
    · exact parseParameters_cons (peek_name hss) hread hcomma (htrailing hrest hclosing)

/-! #### Callables -/

/-- No parameters. -/
theorem complete_noParameter : Complete source scope (.parameters []) [] := by
  intro fuel ts rest hss hfuel hend
  cases hss
  simp only [Phrase.fuel] at hfuel
  obtain ⟨fuel, rfl⟩ : ∃ k, fuel = k + 1 := ⟨fuel - 1, by omega⟩
  exact parseParameters_nil hend

/-- Parameters as a sequence. -/
theorem complete_parameters {params : List TypeExpr}
    (ih : Complete source scope (.sequence params) ss) :
    Complete source scope (.parameters params) ss := by
  intro fuel ts rest hss hfuel hend
  simp only [Phrase.fuel] at hfuel
  have hclosing : (peek rest).kind = .closing := hend
  have hread := ih fuel _ _ hss (by simp only [Phrase.fuel]; omega)
    (by simp [Phrase.EndsBefore, hclosing])
  exact hread.2.1 hend

/-- Parameters with a comma behind the last one. -/
theorem complete_parametersComma {params : List TypeExpr}
    (ih : Complete source scope (.sequence params) ss) :
    Complete source scope (.parameters params) (ss ++ [.comma]) := by
  intro fuel ts rest hall hfuel hend
  obtain ⟨us, hss, hrs⟩ := hall.of_append
  obtain ⟨comma, rfl, hs⟩ := spell_one hrs
  simp only [Phrase.fuel, List.length_append, List.length_singleton] at hfuel
  have hcomma : comma.kind = .comma := kind_of_mark hs rfl
  have hread := ih fuel _ _ hss (by simp only [Phrase.fuel]; omega)
    (by simp [Phrase.EndsBefore, hcomma])
  exact hread.2.2 hcomma hend

/-- The result of a callable, between the comma and the closing bracket. -/
theorem parse_result {fuel : Nat} {comma closing : Token} {ts rest : List Token}
    {params : List TypeExpr} {ellipsis : Bool} (hcomma : comma.symbol? = some .comma)
    (hresult : parseUnion source scope fuel ts = .ok (t, closing :: rest))
    (hclosing : closing.symbol? = some .closing) :
    (do
      let ts ← expect source .comma (text "','") (comma :: ts)
      let (result, ts) ← parseUnion source scope fuel ts
      let ts ← expect source .closing (text "']'") ts
      pure (callable params result ellipsis, ts)) = .ok (callable params t ellipsis, rest) :=
  bind_eq_ok.2 ⟨_, expect_mark hcomma rfl, bind_eq_ok.2 ⟨_, hresult,
    bind_eq_ok.2 ⟨_, expect_mark hclosing rfl, rfl⟩⟩⟩

/-- A callable that accepts every parameter list. -/
theorem complete_anyParameters (ih : Complete source scope (.union t) ss) :
    Complete source scope (.callable (.callable [] t true))
      (.opening :: .ellipsis :: .comma :: (ss ++ [.closing])) := by
  intro fuel ts rest hall hfuel _
  cases hall with
  | cons hopening hall =>
    cases hall with
    | @cons dots _ _ _ _ hdots hall =>
      cases hall with
      | @cons _ vs _ _ _ hcomma hall =>
        -- The brackets and marks around the result are single tokens, so only the result has to be
        -- read.
        obtain ⟨closing, hclosing, hss⟩ := spell_closed hall
        simp only [Phrase.fuel, List.length_cons, List.length_append] at hfuel
        obtain ⟨fuel, rfl⟩ : ∃ k, fuel = k + 1 := ⟨fuel - 1, by omega⟩
        have hresult : parseUnion source scope fuel vs = .ok (t, closing :: rest) :=
          ih _ _ _ hss (by simp only [Phrase.fuel]; omega) (endsBefore_closing hclosing).1
        have hkind : dots.kind = .ellipsis := kind_of_mark hdots rfl
        show parseCallable source scope (fuel + 1) _ = _
        rw [parseCallable]
        refine bind_eq_ok.2 ⟨_, expect_mark hopening rfl, ?_⟩
        simp only [peek_cons, hkind, if_true]
        exact parse_result hcomma hresult hclosing

/-- A callable with a parameter list. -/
theorem complete_withParameters {params : List TypeExpr}
    (ih₁ : Complete source scope (.parameters params) rs)
    (ih₂ : Complete source scope (.union t) ss) :
    Complete source scope (.callable (.callable params t false))
      (.opening :: .opening :: (rs ++ .closing :: .comma :: (ss ++ [.closing]))) := by
  intro fuel ts rest hall hfuel _
  cases hall with
  | cons hopening hall =>
    cases hall with
    | @cons inner us _ _ _ hinner hall =>
      obtain ⟨ws, hrs, hall⟩ := hall.of_append
      cases hall with
      | @cons bracket _ _ _ _ hbracket hall =>
        cases hall with
        | @cons comma vs _ _ _ hcomma hall =>
          -- Two phrases are read inside the marks: the parameters up to the inner bracket, and the
          -- result.
          obtain ⟨closing, hclosing, hss⟩ := spell_closed hall
          simp only [Phrase.fuel, List.length_cons, List.length_append] at hfuel
          obtain ⟨fuel, rfl⟩ : ∃ k, fuel = k + 1 := ⟨fuel - 1, by omega⟩
          have hparams : parseParameters source scope fuel us =
              .ok (params, bracket :: comma :: vs) :=
            ih₁ _ _ _ hrs (by simp only [Phrase.fuel]; omega) (kind_of_mark hbracket rfl)
          have hresult : parseUnion source scope fuel vs = .ok (t, closing :: rest) :=
            ih₂ _ _ _ hss (by simp only [Phrase.fuel]; omega) (endsBefore_closing hclosing).1
          have hkind : inner.kind = .opening := kind_of_mark hinner rfl
          show parseCallable source scope (fuel + 1) _ = _
          rw [parseCallable]
          refine bind_eq_ok.2 ⟨_, expect_mark hopening rfl, ?_⟩
          simp only [peek_cons, hkind, if_true, reduceCtorEq, if_false]
          exact bind_eq_ok.2 ⟨_, hparams, bind_eq_ok.2 ⟨_, expect_mark hbracket rfl,
            parse_result hcomma hresult hclosing⟩⟩

/-! #### Metadata and literals -/

/-- A string of metadata after a comma. -/
theorem complete_metadata {spelling m : Text} {ms : List Text}
    (hm : unquoteToken? spelling = some m) (ih : Complete source scope (.metadata ms) ss) :
    Complete source scope (.metadata (m :: ms)) (.comma :: .string spelling :: ss) := by
  intro fuel ts rest hall _ hend
  cases hall with
  | @cons comma _ _ _ _ hcomma hall =>
    cases hall with
    | @cons token ts _ _ _ hs hss =>
      have hkind : comma.kind = .comma := kind_of_mark hcomma rfl
      obtain ⟨hstring, htext⟩ := string_of_symbol? hs
      -- Readers of metadata have no fuel, so the completeness of the rest holds for none.
      have hread : parseMetadata source ts = .ok (ms, rest) := ih 0 _ _ hss (Nat.le_refl 0) hend
      show parseMetadata source _ = _
      rw [parseMetadata_comma hkind hstring, htext, hm]
      exact bind_eq_ok.2 ⟨_, hread, rfl⟩

/-- The last value of a literal type. -/
theorem complete_lastLiteral {s : Symbol} {v : Literal} (hv : s.literal? = some v) :
    Complete source scope (.literals [v]) [s] := by
  intro fuel ts rest hss _ hend
  obtain ⟨token, rfl, hs⟩ := spell_one hss
  show parseLiterals source _ = _
  rw [parseLiterals_cons]
  exact bind_eq_ok.2 ⟨v, parseLiteral_eq_ok_iff.2 ⟨s, hs, hv⟩, if_neg hend⟩

/-- A value, a comma and more values. -/
theorem complete_moreLiterals {s : Symbol} {v : Literal} {vs : List Literal}
    (hv : s.literal? = some v) (ih : Complete source scope (.literals vs) ss) :
    Complete source scope (.literals (v :: vs)) (s :: .comma :: ss) := by
  intro fuel ts rest hall _ hend
  cases hall with
  | @cons token _ _ _ _ hs hall =>
    cases hall with
    | @cons comma ts _ _ _ hcomma hss =>
      -- The comma tells that the values go on.
      have hkind : (peek (comma :: ts)).kind = .comma := kind_of_mark hcomma rfl
      have hread : parseLiterals source ts = .ok (vs, rest) := ih 0 _ _ hss (Nat.le_refl 0) hend
      show parseLiterals source _ = _
      rw [parseLiterals_cons]
      refine bind_eq_ok.2 ⟨v, parseLiteral_eq_ok_iff.2 ⟨s, hs, hv⟩, ?_⟩
      rw [if_pos hkind]
      exact bind_eq_ok.2 ⟨_, hread, rfl⟩

/-! #### Terms of other shapes -/

/-- A callable is its name and a signature. -/
theorem complete_callable (hcallable : Produces scope (.callable t) ss)
    (ih : Complete source scope (.callable t) ss) :
    Complete source scope (.term t) (.name Name.callable :: ss) := by
  intro fuel ts rest hall hfuel hend
  cases hall with
  | @cons token us _ _ _ hs hss =>
    -- Both rules for signatures begin with an opening bracket.
    have hopening : (peek us).kind = .opening := by
      cases hcallable <;> cases hss with
      | cons hs _ => exact kind_of_mark hs rfl
    simp only [Phrase.fuel, List.length_cons] at hfuel
    obtain ⟨fuel, rfl⟩ : ∃ k, fuel = k + 1 := ⟨fuel - 1, by omega⟩
    show parseTerm source scope (fuel + 1) _ = _
    rw [parseTerm_callable hs, if_pos hopening]
    exact ih _ _ _ hss (by simp only [Phrase.fuel]; omega) trivial

/-- An annotated type is its name, and an expression with metadata in brackets. -/
theorem complete_annotated {ms : List Text} (hmetadata : Produces scope (.metadata ms) rs)
    (ih₁ : Complete source scope (.union t) ss) (ih₂ : Complete source scope (.metadata ms) rs) :
    Complete source scope (.term (.annotated t ms))
      (.name Name.annotated :: .opening :: (ss ++ (rs ++ [.closing]))) := by
  intro fuel ts rest hall hfuel _
  cases hall with
  | @cons token _ _ _ _ hs hall =>
    cases hall with
    | @cons opening us _ _ _ hopening hall =>
      obtain ⟨vs, hss, hall⟩ := hall.of_append
      obtain ⟨closing, hclosing, hrs⟩ := spell_closed hall
      obtain ⟨hend, hcomma⟩ := endsBefore_closing hclosing
      simp only [Phrase.fuel, List.length_cons, List.length_append] at hfuel
      obtain ⟨fuel, rfl⟩ : ∃ k, fuel = k + 1 := ⟨fuel - 1, by omega⟩
      -- What follows the inner expression is a comma or the closing bracket.
      have hend' : Phrase.EndsBefore (.union t) (peek vs).kind := by
        obtain hkind | rfl := peek_metadata hmetadata hrs
        · simp [Phrase.EndsBefore, hkind]
        · exact hend
      have hinner : parseUnion source scope fuel us = .ok (t, vs) :=
        ih₁ _ _ _ hss (by simp only [Phrase.fuel]; omega) hend'
      have hread : parseMetadata source vs = .ok (ms, closing :: rest) :=
        ih₂ 0 _ _ hrs (Nat.le_refl 0) hcomma
      show parseTerm source scope (fuel + 1) _ = _
      rw [parseTerm_annotated hs]
      exact bind_eq_ok.2 ⟨_, expect_mark hopening rfl, bind_eq_ok.2 ⟨_, hinner,
        bind_eq_ok.2 ⟨_, hread, bind_eq_ok.2 ⟨_, expect_mark hclosing rfl, rfl⟩⟩⟩⟩

/-- A literal type is its name and values in brackets. -/
theorem complete_literal {vs : List Literal} (ih : Complete source scope (.literals vs) ss) :
    Complete source scope (.term (.literal vs))
      (.name Name.literal :: .opening :: (ss ++ [.closing])) := by
  intro fuel ts rest hall hfuel _
  cases hall with
  | @cons token _ _ _ _ hs hall =>
    obtain ⟨opening, us, closing, rfl, hopening, hclosing, hss⟩ := spell_bracketed hall
    simp only [Phrase.fuel, List.length_cons, List.length_append] at hfuel
    obtain ⟨fuel, rfl⟩ : ∃ k, fuel = k + 1 := ⟨fuel - 1, by omega⟩
    -- Literals are read up to the closing bracket.
    have hread : parseLiterals source us = .ok (vs, closing :: rest) :=
      ih 0 _ _ hss (Nat.le_refl 0) (endsBefore_closing hclosing).2
    show parseTerm source scope (fuel + 1) _ = _
    rw [parseTerm_literal hs]
    exact bind_eq_ok.2 ⟨_, expect_mark hopening rfl, bind_eq_ok.2 ⟨_, hread,
      bind_eq_ok.2 ⟨_, expect_mark hclosing rfl, rfl⟩⟩⟩

end

/-- A reader takes every phrase that nothing in the rest could continue. -/
theorem complete_of_produces {source : Text} {scope : Scope} {phrase : Phrase} {ss : List Symbol}
    (h : Produces scope phrase ss) : Complete source scope phrase ss := by
  induction h with
  | single hterm ih => exact complete_single hterm ih
  | several hterm hothers hne ih₁ ih₂ => exact complete_several hterm hothers hne ih₁ ih₂
  | noAlternative => exact complete_noAlternative
  | alternative _ hothers ih₁ ih₂ => exact complete_alternative hothers ih₁ ih₂
  -- Names that stand alone: nothing is read behind them.
  | any => exact complete_word fun _ _ _ hs _ => parseTerm_any hs
  | none => exact complete_word fun _ _ _ hs _ => parseTerm_none hs
  | nil => exact complete_word fun _ _ _ hs _ => parseTerm_nil hs
  -- A name with arguments: the induction hypothesis reads them, and the rule says how many there
  -- are.
  | optional hunion ih =>
    refine complete_withArguments (fun fuel token opening ts rest hs _ hargs => ?_)
      (.arguments (.lastOf hunion))
      (complete_arguments (.lastOf hunion) (complete_lastOf hunion ih))
    rw [parseTerm_optional hs]
    exact bind_eq_ok.2 ⟨_, hargs, rfl⟩
  | unionOfOne hargs ih =>
    refine complete_withArguments (fun fuel token opening ts rest hs _ hread => ?_) hargs ih
    rw [parseTerm_union hs]
    exact bind_eq_ok.2 ⟨_, hread, rfl⟩
  | @unionOfMore args ss hargs hlength ih =>
    refine complete_withArguments (fun fuel token opening ts rest hs _ hread => ?_) hargs ih
    rw [parseTerm_union hs]
    refine bind_eq_ok.2 ⟨_, hread, ?_⟩
    match args, hlength with
    | _ :: _ :: _, _ => rfl
  | bareCallable =>
    refine complete_word fun fuel token rest hs hend => ?_
    rw [parseTerm_callable hs, if_neg hend]
  | callable hcallable ih => exact complete_callable hcallable ih
  | bareType =>
    refine complete_word fun fuel token rest hs hend => ?_
    rw [parseTerm_typeOf hs, if_neg hend]
  | typeOf hunion ih =>
    refine complete_withArguments (fun fuel token opening ts rest hs hopening hargs => ?_)
      (.arguments (.lastOf hunion))
      (complete_arguments (.lastOf hunion) (complete_lastOf hunion ih))
    have hkind : (peek (opening :: ts)).kind = .opening := kind_of_mark hopening rfl
    rw [parseTerm_typeOf hs, if_pos hkind]
    exact bind_eq_ok.2 ⟨_, hargs, rfl⟩
  | annotated _ hmetadata ih₁ ih₂ => exact complete_annotated hmetadata ih₁ ih₂
  | literal _ ih => exact complete_literal ih
  | plain hkeyword hresolved =>
    refine complete_word fun fuel token rest hs hend => ?_
    rw [parseTerm_plain hs hkeyword, hresolved]
    exact if_neg hend
  | applied hkeyword hresolved hargs ih =>
    refine complete_withArguments (fun fuel token opening ts rest hs hopening hread => ?_) hargs ih
    have hkind : (peek (opening :: ts)).kind = .opening := kind_of_mark hopening rfl
    rw [parseTerm_plain hs hkeyword, hresolved]
    simp only [if_pos hkind]
    exact bind_eq_ok.2 ⟨_, hread, rfl⟩
  | arguments hargs ih => exact complete_arguments hargs ih
  | lastOf hunion ih => exact complete_lastOf hunion ih
  | more hunion _ ih₁ ih₂ => exact complete_more hunion ih₁ ih₂
  | noParameter => exact complete_noParameter
  | parameters _ ih => exact complete_parameters ih
  | parametersComma _ ih => exact complete_parametersComma ih
  | anyParameters _ ih => exact complete_anyParameters ih
  | withParameters _ _ ih₁ ih₂ => exact complete_withParameters ih₁ ih₂
  | noMetadata =>
    intro fuel ts rest hss _ hend
    cases hss
    exact parseMetadata_of_not_comma hend
  | metadata hm _ ih => exact complete_metadata hm ih
  | lastLiteral hv => exact complete_lastLiteral hv
  | moreLiterals hv _ ih => exact complete_moreLiterals hv ih

end TypeExpr

/-! ## Sources -/

/-- A source is read if its symbols form a sentence. -/
theorem TypeExpr.parse_of_produces {scope : Scope} {source : Text} {t : TypeExpr}
    {ss : List Symbol} (hlexes : Lexes source ss) (hproduces : Produces scope (.union t) ss) :
    parse scope source = .ok t := by
  obtain ⟨last, hss⟩ := (lexes_iff source ss).1 hlexes
  have hfuel : Phrase.fuel (.union t) ss.length ≤ parseFuel (Token.scan source).length := by
    have hlength := hss.length_eq
    simp only [Phrase.fuel, parseFuel]
    omega
  have hread : Reads source scope _ (.union t) _ _ :=
    complete_of_produces hproduces _ _ _ hss hfuel (by simp [Phrase.EndsBefore])
  exact bind_eq_ok.2 ⟨_, hread, rfl⟩

/-- A registry reads every sentence over its names. -/
theorem Registry.parse_of_produces {r : Registry} {source : Text} {t : TypeExpr} {ss : List Symbol}
    (hlexes : Lexes source ss) (hproduces : Produces r.lookup (.union t) ss) :
    r.parse source = .ok t :=
  TypeExpr.parse_of_produces hlexes hproduces

/-- Reading a type expression succeeds exactly on the sources whose symbols the grammar derives,
and gives what the derivation denotes. -/
theorem Registry.parse_eq_ok_iff (r : Registry) (source : Text) (t : TypeExpr) :
    r.parse source = .ok t ↔
      ∃ ss, Lexes source ss ∧ Produces r.lookup (.union t) ss :=
  ⟨produces_of_parse, fun ⟨_, hlexes, hproduces⟩ => parse_of_produces hlexes hproduces⟩

end TypeShape
