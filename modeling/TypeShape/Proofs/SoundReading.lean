import TypeShape.Proofs.Grammar

/-!
# What is read is a phrase

Each reader of type expressions takes a phrase of its kind off the front of the tokens, whatever
fuel it has.  The readers call each other with one unit of fuel less, so the step lemmas each take
the soundness of all of them with the fuel below.

## Key results

- `TypeExpr.sound_readers`: what a reader takes off the front of the tokens is a phrase
- `Registry.produces_of_parse`: a source that can be read is a sentence of the grammar
-/

namespace TypeShape

open Token

namespace TypeExpr

/-- What a reader takes off the front of the tokens is a phrase. -/
def Sound {α : Type} (scope : Scope) (read : List Token → Except Error (α × List Token))
    (phrase : α → Phrase) : Prop :=
  ∀ ts a rest, read ts = .ok (a, rest) → ∃ ss, Spell ts ss rest ∧ Produces scope (phrase a) ss

/-- An argument list is never empty. -/
theorem not_produces_arguments_nil {scope : Scope} {ss : List Symbol} :
    ¬ Produces scope (.arguments []) ss := by
  rintro ⟨⟩
  rename_i h
  cases h

/-- A single argument is a union in brackets. -/
theorem produces_argument {scope : Scope} {t : TypeExpr} {ss : List Symbol}
    (h : Produces scope (.arguments [t]) ss) :
    ∃ rs, ss = .opening :: (rs ++ [.closing]) ∧ Produces scope (.union t) rs := by
  cases h with
  | arguments hsequence =>
    cases hsequence with
    | lastOf hunion => exact ⟨_, rfl, hunion⟩
    | more _ hnone => cases hnone

/-- Literals are read soundly; the reader looks two tokens ahead, so the induction is on their
number. -/
theorem sound_parseLiterals (source : Text) (scope : Scope) :
    Sound scope (parseLiterals source) .literals := by
  intro ts vs rest h
  induction hlen : ts.length using Nat.strong_induction_on generalizing ts vs rest with
  | _ n ih =>
    subst hlen
    cases ts with
    | nil => cases h
    | cons t ts =>
      simp only [parseLiterals_cons, bind_eq_ok] at h
      obtain ⟨v, hv, h⟩ := h
      obtain ⟨s, hs, hliteral⟩ := parseLiteral_eq_ok_iff.1 hv
      split at h
      · rename_i hcomma
        simp only [bind_eq_ok, Prod.exists] at h
        obtain ⟨vs, rest, hvs, h⟩ := h
        cases h
        have hlt : ts.tail.length < (t :: ts).length := by
          simp only [List.length_tail, List.length_cons]
          omega
        obtain ⟨ss, hss, hproduces⟩ := ih ts.tail.length hlt _ _ _ hvs rfl
        exact ⟨_, .cons hs (spell_peek hcomma rfl hss), .moreLiterals hliteral hproduces⟩
      · cases h
        exact ⟨_, .token hs, .lastLiteral hliteral⟩

/-- Metadata is read soundly. -/
theorem sound_parseMetadata (source : Text) (scope : Scope) :
    Sound scope (parseMetadata source) .metadata := by
  intro ts ms rest h
  fun_induction parseMetadata source ts generalizing ms rest with
  -- The cases that read something: a comma in front of a string, and no comma.
  | case2 spelling position t ts ht m hm ih =>
    simp only [bind_eq_ok, Prod.exists] at h
    obtain ⟨ms, rest, hms, h⟩ := h
    cases h
    obtain ⟨ss, hss, hproduces⟩ := ih _ _ hms
    have ht' : t.symbol? = some (.string t.text) := by simp [symbol?, ht]
    exact ⟨_, .cons rfl (.cons ht' hss), .metadata hm hproduces⟩
  | case6 ts =>
    cases h
    exact ⟨[], .nil, .noMetadata⟩
  | _ => cases h

/-- The readers that call each other are sound with a given fuel. -/
structure SoundReaders (source : Text) (scope : Scope) (fuel : Nat) : Prop where
  union : Sound scope (parseUnion source scope fuel) .union
  alternatives : Sound scope (parseAlternatives source scope fuel) .alternatives
  term : Sound scope (parseTerm source scope fuel) .term
  arguments : ∀ name, Sound scope (parseArguments source scope fuel name) .arguments
  sequence : Sound scope (parseSequence source scope fuel) .sequence
  parameters : Sound scope (parseParameters source scope fuel) .parameters
  callable : Sound scope (parseCallable source scope fuel) .callable

section

variable {source : Text} {scope : Scope} {fuel : Nat} (ih : SoundReaders source scope fuel)

include ih

/-- Unions are read soundly. -/
theorem sound_parseUnion : Sound scope (parseUnion source scope (fuel + 1)) .union := by
  intro ts t rest h
  simp only [parseUnion, bind_eq_ok, Prod.exists] at h
  obtain ⟨first, us, hfirst, others, rest, hothers, h⟩ := h
  cases h
  obtain ⟨ss, hss, hterm⟩ := ih.term _ _ _ hfirst
  obtain ⟨rs, hrs, halternatives⟩ := ih.alternatives _ _ _ hothers
  -- No alternatives: the union is its first term.
  cases others with
  | nil =>
    have hrs' : rs = [] := by
      cases halternatives
      rfl
    subst hrs'
    exact ⟨_, hss.trans hrs, .single (by simpa using hterm)⟩
  | cons t others => exact ⟨_, hss.trans hrs, .several hterm halternatives (by simp)⟩

/-- Alternatives are read soundly. -/
theorem sound_parseAlternatives :
    Sound scope (parseAlternatives source scope (fuel + 1)) .alternatives := by
  intro ts others rest h
  -- A bar begins another alternative; anything else ends them.
  rw [parseAlternatives] at h
  split at h
  · rename_i hpipe
    simp only [bind_eq_ok, Prod.exists] at h
    obtain ⟨t, us, ht, others, rest, hothers, h⟩ := h
    cases h
    obtain ⟨ss, hss, hterm⟩ := ih.term _ _ _ ht
    obtain ⟨rs, hrs, halternatives⟩ := ih.alternatives _ _ _ hothers
    exact ⟨_, spell_peek hpipe rfl (hss.trans hrs), .alternative hterm halternatives⟩
  · cases h
    exact ⟨[], .nil, .noAlternative⟩

/-- Arguments in brackets are read soundly. -/
theorem sound_parseArguments (name : Text) :
    Sound scope (parseArguments source scope (fuel + 1) name) .arguments := by
  intro ts args rest h
  simp only [parseArguments, bind_eq_ok, Prod.exists] at h
  obtain ⟨us, hopening, args, vs, hargs, rest, hclosing, h⟩ := h
  cases h
  obtain ⟨ss, hss, hsequence⟩ := ih.sequence _ _ _ hargs
  exact ⟨_, spell_expect hopening rfl (hss.trans (spell_expect hclosing rfl .nil)),
    .arguments hsequence⟩

/-- Sequences are read soundly. -/
theorem sound_parseSequence : Sound scope (parseSequence source scope (fuel + 1)) .sequence := by
  intro ts args rest h
  -- A comma after a union leads to more of them.
  simp only [parseSequence, bind_eq_ok, Prod.exists] at h
  obtain ⟨t, us, ht, h⟩ := h
  obtain ⟨ss, hss, hunion⟩ := ih.union _ _ _ ht
  split at h
  · rename_i hcomma
    simp only [bind_eq_ok, Prod.exists] at h
    obtain ⟨others, rest, hothers, h⟩ := h
    cases h
    obtain ⟨rs, hrs, hsequence⟩ := ih.sequence _ _ _ hothers
    exact ⟨_, hss.trans (spell_peek hcomma rfl hrs), .more hunion hsequence⟩
  · cases h
    exact ⟨_, hss, .lastOf hunion⟩

/-- Parameters are read soundly. -/
theorem sound_parseParameters :
    Sound scope (parseParameters source scope (fuel + 1)) .parameters := by
  intro ts params rest h
  rw [parseParameters] at h
  split at h
  · cases h
    exact ⟨[], .nil, .noParameter⟩
  · simp only [bind_eq_ok, Prod.exists] at h
    obtain ⟨t, us, ht, h⟩ := h
    obtain ⟨ss, hss, hunion⟩ := ih.union _ _ _ ht
    split at h
    · rename_i hcomma
      simp only [bind_eq_ok, Prod.exists] at h
      obtain ⟨others, rest, hothers, h⟩ := h
      cases h
      obtain ⟨rs, hrs, hparameters⟩ := ih.parameters _ _ _ hothers
      have hspell := hss.trans (spell_peek hcomma rfl hrs)
      -- The parameters after the comma may be none, and may end with a comma of their own.
      cases hparameters with
      | noParameter => exact ⟨_, hspell, .parametersComma (.lastOf hunion)⟩
      | parameters hsequence => exact ⟨_, hspell, .parameters (.more hunion hsequence)⟩
      | parametersComma hsequence =>
        have hproduces := Produces.parametersComma (hunion.more hsequence)
        rw [List.append_assoc] at hproduces
        exact ⟨_, hspell, hproduces⟩
    · cases h
      exact ⟨_, hss, .parameters (.lastOf hunion)⟩

/-- Signatures are read soundly. -/
theorem sound_parseCallable : Sound scope (parseCallable source scope (fuel + 1)) .callable := by
  intro ts t rest h
  rw [parseCallable] at h
  obtain ⟨us, hopening, h⟩ := bind_eq_ok.1 h
  -- What follows the parameters is the same in both forms.
  have result : ∀ params ellipsis vs, (do
      let ts ← expect source .comma (text "','") vs
      let read ← parseUnion source scope fuel ts
      let ts ← expect source .closing (text "']'") read.2
      pure (TypeExpr.callable params read.1 ellipsis, ts)) = .ok (t, rest) →
      ∃ result ss, t = .callable params result ellipsis ∧ Produces scope (.union result) ss ∧
        Spell vs (.comma :: (ss ++ [.closing])) rest := by
    intro params ellipsis vs h
    simp only [bind_eq_ok, Prod.exists] at h
    obtain ⟨ws, hcomma, result, xs, hresult, rest, hclosing, h⟩ := h
    cases h
    obtain ⟨ss, hss, hunion⟩ := ih.union _ _ _ hresult
    exact ⟨result, ss, rfl, hunion,
      spell_expect hcomma rfl (hss.trans (spell_expect hclosing rfl .nil))⟩
  -- The parameters are three dots, or a list in brackets, or the reader fails.
  split at h
  · rename_i hellipsis
    obtain ⟨result, ss, rfl, hunion, hspell⟩ := result _ _ _ h
    exact ⟨_, spell_expect hopening rfl (spell_peek hellipsis rfl hspell), .anyParameters hunion⟩
  · split at h
    · rename_i hbracket
      obtain ⟨⟨params, vs⟩, hparameters, h⟩ := bind_eq_ok.1 h
      obtain ⟨ws, hclosing, h⟩ := bind_eq_ok.1 h
      obtain ⟨rs, hrs, hproduces⟩ := ih.parameters _ _ _ hparameters
      obtain ⟨result, ss, rfl, hunion, hspell⟩ := result _ _ _ h
      exact ⟨_, spell_expect hopening rfl (spell_peek hbracket rfl
        (hrs.trans (spell_expect hclosing rfl hspell))), .withParameters hproduces hunion⟩
    · cases h

/-- Terms are read soundly, one case for each name the reader asks for. -/
theorem sound_parseTerm : Sound scope (parseTerm source scope (fuel + 1)) .term := by
  intro ts t rest hread
  -- Every term begins with a name, and its lemma says how the reader goes on from there.
  have hname := hread
  rw [parseTerm] at hname
  obtain ⟨us, hname, -⟩ := bind_eq_ok.1 hname
  obtain ⟨token, rfl, hkind⟩ := expect_eq_ok hname (by simp)
  clear hname
  have hsymbol : token.symbol? = some (.name token.text) := by simp [symbol?, hkind]
  generalize token.text = n at hsymbol
  cases hkeyword : Name.isKeyword n with
  | true =>
    obtain rfl | rfl | rfl | rfl | rfl | rfl | rfl | rfl | rfl := isKeyword_iff.1 hkeyword
    -- Names without arguments.
    · rw [parseTerm_any hsymbol] at hread
      cases hread
      exact ⟨_, .token hsymbol, .any⟩
    · rw [parseTerm_none hsymbol] at hread
      cases hread
      exact ⟨_, .token hsymbol, .none⟩
    · rw [parseTerm_nil hsymbol] at hread
      cases hread
      exact ⟨_, .token hsymbol, .nil⟩
    -- Names with a fixed number of arguments: reading fails on any other number.
    · rw [parseTerm_optional hsymbol] at hread
      obtain ⟨⟨args, vs⟩, hargs, h⟩ := bind_eq_ok.1 hread
      obtain ⟨ss, hss, hproduces⟩ := ih.arguments _ _ _ _ hargs
      rcases args with _ | ⟨operand, _ | ⟨other, others⟩⟩
      · cases h
      · cases h
        obtain ⟨rs, rfl, hunion⟩ := produces_argument hproduces
        exact ⟨_, .cons hsymbol hss, .optional hunion⟩
      · cases h
    · rw [parseTerm_union hsymbol] at hread
      obtain ⟨⟨args, vs⟩, hargs, h⟩ := bind_eq_ok.1 hread
      obtain ⟨ss, hss, hproduces⟩ := ih.arguments _ _ _ _ hargs
      rcases args with _ | ⟨member, _ | ⟨other, others⟩⟩
      · exact absurd hproduces not_produces_arguments_nil
      · cases h
        exact ⟨_, .cons hsymbol hss, .unionOfOne hproduces⟩
      · cases h
        exact ⟨_, .cons hsymbol hss, .unionOfMore hproduces (by simp)⟩
    -- Names that may stand alone.
    · rw [parseTerm_callable hsymbol] at hread
      split at hread
      · obtain ⟨ss, hss, hproduces⟩ := ih.callable _ _ _ hread
        exact ⟨_, .cons hsymbol hss, .callable hproduces⟩
      · cases hread
        exact ⟨_, .token hsymbol, .bareCallable⟩
    · rw [parseTerm_typeOf hsymbol] at hread
      split at hread
      · obtain ⟨⟨args, vs⟩, hargs, h⟩ := bind_eq_ok.1 hread
        obtain ⟨ss, hss, hproduces⟩ := ih.arguments _ _ _ _ hargs
        rcases args with _ | ⟨operand, _ | ⟨other, others⟩⟩
        · cases h
        · cases h
          obtain ⟨rs, rfl, hunion⟩ := produces_argument hproduces
          exact ⟨_, .cons hsymbol hss, .typeOf hunion⟩
        · cases h
      · cases hread
        exact ⟨_, .token hsymbol, .bareType⟩
    -- Names with more than types in their brackets.
    · rw [parseTerm_annotated hsymbol] at hread
      obtain ⟨vs, hopening, h⟩ := bind_eq_ok.1 hread
      obtain ⟨⟨inner, ws⟩, hinner, h⟩ := bind_eq_ok.1 h
      obtain ⟨⟨ms, xs⟩, hms, h⟩ := bind_eq_ok.1 h
      obtain ⟨ys, hclosing, h⟩ := bind_eq_ok.1 h
      cases h
      obtain ⟨ss, hss, hproduces⟩ := ih.union _ _ _ hinner
      obtain ⟨rs, hrs, hmetadata⟩ := sound_parseMetadata source scope _ _ _ hms
      exact ⟨_, .cons hsymbol (spell_expect hopening rfl
        (hss.trans (hrs.trans (spell_expect hclosing rfl .nil)))), .annotated hproduces hmetadata⟩
    · rw [parseTerm_literal hsymbol] at hread
      obtain ⟨vs, hopening, h⟩ := bind_eq_ok.1 hread
      obtain ⟨⟨values, ws⟩, hvalues, h⟩ := bind_eq_ok.1 h
      obtain ⟨xs, hclosing, h⟩ := bind_eq_ok.1 h
      cases h
      obtain ⟨ss, hss, hproduces⟩ := sound_parseLiterals source scope _ _ _ hvalues
      exact ⟨_, .cons hsymbol (spell_expect hopening rfl
        (hss.trans (spell_expect hclosing rfl .nil))), .literal hproduces⟩
  | false =>
    -- A name that is no keyword means what the scope gives it; arguments need a class.
    rw [parseTerm_plain hsymbol hkeyword] at hread
    cases hresolved : scope n with
    | none =>
      rw [hresolved] at hread
      cases hread
    | some resolved =>
      rw [hresolved] at hread
      simp only at hread
      split at hread
      · cases resolved with
        | con head =>
          obtain ⟨⟨args, vs⟩, hargs, h⟩ := bind_eq_ok.1 hread
          cases h
          obtain ⟨ss, hss, hproduces⟩ := ih.arguments _ _ _ _ hargs
          exact ⟨_, .cons hsymbol hss, .applied hkeyword hresolved hproduces⟩
        | _ => cases hread
      · cases hread
        exact ⟨_, .token hsymbol, .plain hkeyword hresolved⟩

end

/-- The readers are sound, whatever their fuel. -/
theorem sound_readers (source : Text) (scope : Scope) (fuel : Nat) :
    SoundReaders source scope fuel := by
  induction fuel with
  | zero => constructor <;> intros <;> intro ts a rest h <;> cases h
  | succ fuel ih =>
    exact ⟨sound_parseUnion ih, sound_parseAlternatives ih, sound_parseTerm ih,
      sound_parseArguments ih, sound_parseSequence ih, sound_parseParameters ih,
      sound_parseCallable ih⟩

end TypeExpr

/-! ## Sources -/

/-- Tokens of which the last one, and no other, is the end mark. -/
inductive Token.Ended : List Token → Prop where
  | last (position : Nat) : Ended [⟨.eof, [], position⟩]
  | cons {t : Token} {ts : List Token} : t.kind ≠ .eof → Ended ts → Ended (t :: ts)

namespace Token

/-- The tokens of a source end with the end mark. -/
theorem ended_scanFrom (skip position : Nat) (source : Text) :
    Ended (scanFrom skip position source) := by
  -- By the cases of the scan; only the last token is the end mark.
  fun_induction scanFrom skip position source with
  | case1 skip position => exact .last position
  | case2 skip position c cs ih => exact ih
  | case3 position c cs hspace ih => exact ih
  | case4 position c cs hspace kind extra hlexeme ih =>
    refine .cons ?_ ih
    have hbegins := begins_lexeme c cs
    rw [hlexeme] at hbegins
    show kind ≠ .eof
    cases hbegins <;> nofun

/-- The rest after some symbols ends as the whole does. -/
theorem Ended.rest {ts rest : List Token} {ss : List Symbol} (h : Ended ts)
    (hss : Spell ts ss rest) : Ended rest := by
  induction hss with
  | nil => exact h
  | cons hs _ ih =>
    cases h with
    | last position => cases hs
    | cons _ h => exact ih h

/-- Tokens whose next one is the end mark are the end mark alone. -/
theorem Ended.eq_last {ts : List Token} (h : Ended ts) (heof : (TypeExpr.peek ts).kind = .eof) :
    ∃ last, ts = [⟨.eof, [], last⟩] := by
  cases h with
  | last position => exact ⟨position, rfl⟩
  | cons hkind _ => exact absurd heof hkind

end Token

/-- The end mark is all that may follow what is read. -/
theorem TypeExpr.produces_of_parse {scope : Scope} {source : Text} {t : TypeExpr}
    (h : parse scope source = .ok t) : ∃ ss, Lexes source ss ∧ Produces scope (.union t) ss := by
  -- What was read is spelled by tokens in front of a rest that is the end mark alone.
  obtain ⟨⟨t', rest⟩, hread, h⟩ := bind_eq_ok.1 h
  obtain ⟨ss, hss, hproduces⟩ := (sound_readers source scope _).union _ _ _ hread
  have hended : Token.Ended rest := (Token.ended_scanFrom 0 0 source).rest hss
  simp only at h
  split at h
  · exact absurd h failAt_ne_ok
  · split at h
    · rename_i heof
      cases h
      obtain ⟨last, rfl⟩ := hended.eq_last heof
      exact ⟨ss, (lexes_iff source ss).2 ⟨last, hss⟩, hproduces⟩
    · exact absurd h failAt_ne_ok

/-- What a registry reads is a sentence over its names. -/
theorem Registry.produces_of_parse {r : Registry} {source : Text} {t : TypeExpr}
    (h : r.parse source = .ok t) :
    ∃ ss, Lexes source ss ∧ Produces r.lookup (.union t) ss :=
  TypeExpr.produces_of_parse h

end TypeShape
