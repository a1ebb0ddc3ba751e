import TypeShape.Proofs.CompleteReading
import TypeShape.Proofs.Occurrence
import TypeShape.Proofs.ReachableRegistry
import TypeShape.Proofs.Spelling

/-!
# What is read is written so that it can be read again

An expression that was read is written as a term of the grammar that denotes it, whatever its source
looked like.  The proof goes over the derivation of the source: each phrase gives expressions that
are written as terms (`Respelled`), and what is written for them is cut into the symbols of the term
in front of everything that does not continue a name or a number (`Spelled`).

## Key results

- `Spelled`: a text is cut into symbols, whatever follows
- `Written`: an expression is written as a term that denotes it
- `respelled_of_produces`: what a phrase denotes is written as a term
- `Registry.parse_render`: an expression that was read is read again from what is written for it
-/

namespace TypeShape

open Token TypeExpr

/-! ## Texts and their symbols -/

/-- The front byte continues neither a name nor a number. -/
def Delimits (rest : Text) : Prop :=
  Stops isNamePart rest ∧ Stops isNumberPart rest

/-- A text is cut into symbols, whatever follows. -/
def Spelled (t : Text) (ss : List Symbol) : Prop :=
  ∀ rest rs, Delimits rest → Lexes rest rs → Lexes (t ++ rest) (ss ++ rs)

/-- The end of a source delimits whatever stands in front of it. -/
theorem delimits_nil : Delimits [] := by
  constructor <;> exact fun c hc => nomatch hc

/-- A mark ends names and numbers. -/
theorem delimits_cons {c : UInt8} (h : isNamePart c = false ∧ isNumberPart c = false) (t : Text) :
    Delimits (c :: t) :=
  ⟨stops_cons h.1 t, stops_cons h.2 t⟩

namespace Spelled

variable {a b : Text} {ss rs : List Symbol}

/-- A spelled text is cut into its symbols when nothing follows. -/
theorem lexes (h : Spelled a ss) : Lexes a ss := by
  simpa using h [] [] delimits_nil .nil

/-- The empty text spells no symbols. -/
theorem nil : Spelled [] [] := fun _ _ _ hrs => hrs

/-- Three dots spell an ellipsis. -/
theorem ellipsis : Spelled (text "...") [.ellipsis] := fun _ _ _ hrs => hrs.ellipsis

/-- A name of the lexer spells itself. -/
theorem name {n : Text} (h : isIdentifier n = true) : Spelled n [.name n] := by
  intro rest rs hrest hrs
  cases n with
  | nil => cases h
  | cons c cs =>
    rw [isIdentifier, Bool.and_eq_true] at h
    exact .name h.1 h.2 hrest.1 hrs

/-- A quotation spells one string. -/
theorem quote (s : Text) : Spelled (Quoted.quote s) [.string (Quoted.quote s)] := by
  intro rest rs _ hrs
  obtain ⟨body, hbody, hquote⟩ := Quoted.exists_quote_eq s
  rw [hquote]
  exact .string (.inl rfl) hbody hrs

/-- A numeral spells one number. -/
theorem number (n : Int) : Spelled (Text.ofInt n) [.number (Text.ofInt n)] := by
  have hdigits : ∀ m : Nat, (Text.ofNat m).all isNumberPart = true := by
    intro m
    refine List.all_eq_true.2 fun c hc => ?_
    simp [isNumberPart, Text.isDigit_of_mem_ofNat hc]
  intro rest rs hrest hrs
  cases n with
  -- A number begins with a digit, and with its sign if it is negative.
  | ofNat m =>
    obtain ⟨c, cs, hcs⟩ := List.exists_cons_of_ne_nil (Text.ofNat_ne_nil m)
    have hc : Text.isDigit c = true := Text.isDigit_of_mem_ofNat (n := m) (by simp [hcs])
    have hpart := hdigits m
    rw [hcs, List.all_cons, Bool.and_eq_true] at hpart
    rw [Text.ofInt, hcs]
    exact .number (by simp [isNumberStart, hc]) hpart.2 hrest.2 hrs
  | negSucc m =>
    exact .number (c := Text.byte '-') (by decide) (hdigits (m + 1)) hrest.2 hrs

/-- A text in front of brackets, with what stands in them. -/
theorem bracketed (ha : Spelled a ss) (hb : Spelled b rs) :
    Spelled (a ++ Text.bracketed b) (ss ++ .opening :: (rs ++ [.closing])) := by
  intro rest qs hrest hqs
  have hclosing := hb (Text.byte ']' :: rest) _ (delimits_cons (by decide) _) hqs.closing
  have hopening := ha (Text.byte '[' :: _) _ (delimits_cons (by decide) _) hclosing.opening
  have htext : a ++ Text.bracketed b ++ rest =
      a ++ Text.byte '[' :: (b ++ Text.byte ']' :: rest) := by
    simp [Text.bracketed, text, Text.byte]
  rw [htext]
  simpa using hopening

/-- Two texts with a comma between them. -/
theorem comma (ha : Spelled a ss) (hb : Spelled b rs) :
    Spelled (a ++ text ", " ++ b) (ss ++ .comma :: rs) := by
  intro rest qs hrest hqs
  have hspace : Lexes (32 :: (b ++ rest)) (rs ++ qs) := .space (by decide) (hb rest qs hrest hqs)
  have hcomma := ha (Text.byte ',' :: _) _ (delimits_cons (by decide) _) hspace.comma
  have htext : a ++ text ", " ++ b ++ rest = a ++ Text.byte ',' :: 32 :: (b ++ rest) := by
    simp [text, Text.byte]
  rw [htext]
  simpa using hcomma

end Spelled

/-! ## Literals -/

/-- Whether a literal is a floating-point number. -/
def Literal.isFloat : Literal → Bool
  | .float _ _ => true
  | _ => false

/-- A quotation is read as what was quoted. -/
theorem unquoteToken?_quote (s : Text) : unquoteToken? (Quoted.quote s) = some s := by
  have hquote : unquoteToken? (Quoted.quote s) = Quoted.unquote? (Quoted.quote s) := rfl
  rw [hquote, Quoted.unquote?_quote]

/-- A numeral of 64 bits is read as its number. -/
theorem parseNumber?_ofInt {n : Int} (h : Integer.isInt64 n = true) :
    parseNumber? (Text.ofInt n) = some (.int n) := by
  -- Neither the sign nor a digit is a point, so the numeral is read as a whole number.
  have hpoint : Text.byte '.' ∉ Text.ofInt n := by
    have hdigits : ∀ m : Nat, Text.byte '.' ∉ Text.ofNat m := fun m hmem =>
      absurd (Text.isDigit_of_mem_ofNat hmem) (by decide)
    cases n with
    | ofNat m => simpa [Text.ofInt] using hdigits m
    | negSucc m =>
      have hminus : Text.byte '.' ∉ text "-" := by decide
      simpa [Text.ofInt, hminus] using hdigits (m + 1)
  rw [parseNumber?, if_neg (by simpa using hpoint), parseInt64?_ofInt h]
  rfl

/-- A literal that was read is written as a symbol that denotes it. -/
theorem exists_symbol_of_literal? {s : Symbol} {v : Literal} (h : s.literal? = some v)
    (hv : v.isFloat = false) : ∃ s' : Symbol, Spelled v.render [s'] ∧ s'.literal? = some v := by
  -- One case for each kind of symbol that may denote a literal: a string, a number and a word.
  cases s with
  | string spelling =>
    obtain ⟨m, -, rfl⟩ := Option.map_eq_some_iff.1 h
    exact ⟨.string (Quoted.quote m), .quote m, by simp [Symbol.literal?, unquoteToken?_quote]⟩
  | number spelling =>
    have hnumber : parseNumber? spelling = some v := h
    unfold parseNumber? at hnumber
    split at hnumber
    · obtain ⟨x, -, rfl⟩ := Option.map_eq_some_iff.1 hnumber
      cases hv
    · obtain ⟨n, hn, rfl⟩ := Option.map_eq_some_iff.1 hnumber
      exact ⟨.number (Text.ofInt n), .number n,
        parseNumber?_ofInt (isInt64_of_parseInt64? hn)⟩
  | name spelling =>
    have hname : parseLiteralName? spelling = some v := h
    -- The words for literals are `true`, `false` and `Nil`; the last one is written for `None` too.
    unfold parseLiteralName? at hname
    split at hname
    · cases hname
      exact ⟨.name (text "true"), .name (by decide), by decide⟩
    split at hname
    · cases hname
      exact ⟨.name (text "false"), .name (by decide), by decide⟩
    split at hname
    · cases hname
      exact ⟨.name Name.nil, .name (by decide), by decide⟩
    · cases hname
  | _ => cases h

/-! ## Expressions and their terms -/

/-- An expression is written as a term that denotes it. -/
structure Written (scope : Scope) (t : TypeExpr) : Prop where
  isOmitted : t.isOmitted = false
  term : ∃ ss, Spelled t.render ss ∧ Produces scope (.term t) ss

section

-- The equations of the printer are made here, once for all the terms below.
attribute [local simp] render

variable {scope : Scope}

/-- Expressions that are written as terms, with commas between them, are a sequence. -/
theorem written_sequence {ts : List TypeExpr} (hne : ts ≠ []) (h : ∀ t ∈ ts, Written scope t) :
    ∃ ss, Spelled (Text.commas (renderAll ts)) ss ∧ Produces scope (.sequence ts) ss := by
  -- By induction on the terms; the last one has no comma behind it.
  induction ts with
  | nil => exact absurd rfl hne
  | cons t ts ih =>
    obtain ⟨ht, hts⟩ := List.forall_mem_cons.1 h
    obtain ⟨ss, hss, hterm⟩ := ht.term
    cases ts with
    | nil => exact ⟨ss, hss, .lastOf (.single hterm)⟩
    | cons u us =>
      obtain ⟨rs, hrs, hsequence⟩ := ih (by simp) hts
      exact ⟨_, hss.comma hrs, .more (.single hterm) hsequence⟩

/-- A name with arguments in brackets. -/
theorem spelled_arguments {n : Text} {ts : List TypeExpr} (hn : isIdentifier n = true)
    (hne : ts ≠ []) (h : ∀ t ∈ ts, Written scope t) :
    ∃ ss, Spelled (n ++ Text.bracketed (Text.commas (renderAll ts))) (.name n :: ss) ∧
      Produces scope (.arguments ts) ss := by
  obtain ⟨ss, hss, hsequence⟩ := written_sequence hne h
  exact ⟨_, (Spelled.name hn).bracketed hss, .arguments hsequence⟩

/-- A class that is written as a word. -/
theorem written_word {n : Text} (hn : isIdentifier n = true)
    (h : Produces scope (.term (.con n)) [.name n]) : Written scope (.con n) :=
  ⟨rfl, _, .name hn, h⟩

/-- A union of at least two members is written with its keyword. -/
theorem written_union {ts : List TypeExpr} (hlength : 2 ≤ ts.length)
    (h : ∀ t ∈ ts, Written scope t) : Written scope (.union ts false) := by
  have hne : ts ≠ [] := by
    rintro rfl
    simp at hlength
  obtain ⟨ss, hss, harguments⟩ := spelled_arguments (n := Name.union) (by decide) hne h
  refine ⟨rfl, _, ?_, .unionOfMore harguments hlength⟩
  simpa using hss

/-- A union spelled `Optional` is written with one argument. -/
theorem written_optional {t : TypeExpr} (h : Written scope t) : Written scope (optionalOf t) := by
  obtain ⟨ss, hss, hterm⟩ := h.term
  refine ⟨rfl, _, ?_, .optional (.single hterm)⟩
  exact (Spelled.name (n := Name.optional) (by decide)).bracketed hss

/-- A class applied to arguments. -/
theorem written_app {n : Text} {ts : List TypeExpr} (hn : isIdentifier n = true)
    (hkeyword : Name.isKeyword n = false) (hresolved : scope n = some (.con n)) (hne : ts ≠ [])
    (h : ∀ t ∈ ts, Written scope t) : Written scope (.app n ts) := by
  obtain ⟨ss, hss, harguments⟩ := spelled_arguments hn hne h
  refine ⟨rfl, _, ?_, .applied hkeyword hresolved harguments⟩
  rwa [render, if_neg (by simpa using hne)]

/-- The type of a type. -/
theorem written_typeOf {t : TypeExpr} (h : Written scope t) : Written scope (.typeOf t) := by
  obtain ⟨ss, hss, hterm⟩ := h.term
  refine ⟨rfl, _, ?_, .typeOf (.single hterm)⟩
  rw [render, if_neg (by simp [h.isOmitted])]
  exact (Spelled.name (n := Name.typeOf) (by decide)).bracketed hss

/-- The type of types, without operand. -/
theorem written_bareType : Written scope (.typeOf .omitted) :=
  ⟨rfl, _, .name (n := Name.typeOf) (by decide), .bareType⟩

/-- Constraints are written as strings, each after a comma. -/
theorem spelled_metadata (scope : Scope) {a : Text} {ss : List Symbol} (h : Spelled a ss)
    (ms : List Text) :
    ∃ rs, Spelled (Text.commas (a :: ms.map Quoted.quote)) (ss ++ rs) ∧
      Produces scope (.metadata ms) rs := by
  induction ms generalizing a ss with
  | nil => exact ⟨[], by rwa [List.append_nil], .noMetadata⟩
  | cons m ms ih =>
    obtain ⟨rs, hrs, hmetadata⟩ := ih (Spelled.quote m)
    exact ⟨_, h.comma hrs, .metadata (unquoteToken?_quote m) hmetadata⟩

/-- An annotated type is written with its metadata quoted. -/
theorem written_annotated {t : TypeExpr} (h : Written scope t) (ms : List Text) :
    Written scope (.annotated t ms) := by
  obtain ⟨ss, hss, hterm⟩ := h.term
  obtain ⟨rs, hrs, hmetadata⟩ := spelled_metadata scope hss ms
  have hall := (Spelled.name (n := Name.annotated) (by decide)).bracketed hrs
  rw [List.append_assoc] at hall
  exact ⟨rfl, _, hall, .annotated (.single hterm) hmetadata⟩

/-- Literals that are written as symbols, with commas between them. -/
theorem written_literals (scope : Scope) {vs : List Literal} (hne : vs ≠ [])
    (h : ∀ v ∈ vs, ∃ s : Symbol, Spelled v.render [s] ∧ s.literal? = some v) :
    ∃ ss, Spelled (Text.commas (vs.map Literal.render)) ss ∧ Produces scope (.literals vs) ss := by
  -- The same for literals, each of which is one symbol.
  induction vs with
  | nil => exact absurd rfl hne
  | cons v vs ih =>
    obtain ⟨⟨s, hs, hv⟩, hvs⟩ := List.forall_mem_cons.1 h
    cases vs with
    | nil => exact ⟨[s], hs, .lastLiteral hv⟩
    | cons w ws =>
      obtain ⟨rs, hrs, hliterals⟩ := ih (by simp) hvs
      exact ⟨_, hs.comma hrs, .moreLiterals hv hliterals⟩

/-- A literal type. -/
theorem written_literal {vs : List Literal} (hne : vs ≠ [])
    (h : ∀ v ∈ vs, ∃ s : Symbol, Spelled v.render [s] ∧ s.literal? = some v) :
    Written scope (.literal vs) := by
  obtain ⟨ss, hss, hliterals⟩ := written_literals scope hne h
  exact ⟨rfl, _, (Spelled.name (n := Name.literal) (by decide)).bracketed hss, .literal hliterals⟩

/-- The result of a callable is written out. -/
theorem render_result {t : TypeExpr} (h : Written scope t) :
    (if t.isOmitted then Name.any else t.render) = t.render :=
  if_neg (by simp [h.isOmitted])

/-- A callable that accepts every parameter list. -/
theorem written_anyParameters {t : TypeExpr} (h : Written scope t) :
    Written scope (.callable [] t true) := by
  obtain ⟨ss, hss, hterm⟩ := h.term
  have hinner : Spelled (text "..., " ++ t.render) (.ellipsis :: .comma :: ss) :=
    Spelled.ellipsis.comma hss
  refine ⟨rfl, _, ?_, .callable (.anyParameters (.single hterm))⟩
  simp only [render, render_result h, if_true]
  exact (Spelled.name (n := Name.callable) (by decide)).bracketed hinner

/-- Parameters may be none. -/
theorem written_parameters {ts : List TypeExpr} (h : ∀ t ∈ ts, Written scope t) :
    ∃ ss, Spelled (Text.commas (renderAll ts)) ss ∧ Produces scope (.parameters ts) ss := by
  by_cases hne : ts = []
  · subst hne
    exact ⟨[], .nil, .noParameter⟩
  · obtain ⟨ss, hss, hsequence⟩ := written_sequence hne h
    exact ⟨ss, hss, .parameters hsequence⟩

/-- A callable with a parameter list. -/
theorem written_callable {ts : List TypeExpr} {t : TypeExpr} (hts : ∀ u ∈ ts, Written scope u)
    (ht : Written scope t) : Written scope (.callable ts t false) := by
  obtain ⟨rs, hrs, hparameters⟩ := written_parameters hts
  obtain ⟨ss, hss, hterm⟩ := ht.term
  have hinner := (Spelled.nil.bracketed hrs).comma hss
  have hall := (Spelled.name (n := Name.callable) (by decide)).bracketed hinner
  refine ⟨rfl, _, ?_, .callable (.withParameters hparameters (.single hterm))⟩
  simp only [render, render_result ht, Bool.false_eq_true, if_false]
  simpa using hall

end

/-! ## Every expression that was read -/

/-- Every name stands for a class or a variable of that name. -/
def Scope.IsPlain (scope : Scope) : Prop :=
  ∀ n t, scope n = some t → t = .con n ∨ ∃ bound constraints, t = .var n bound constraints

/-- No floating-point literal occurs in an expression. -/
def TypeExpr.Floatless (t : TypeExpr) : Prop :=
  ∀ vs, Occurs (.literal vs) t → ∀ v ∈ vs, v.isFloat = false

/-- What a phrase denotes is written as terms, as far as it has no floating-point literals. -/
def Respelled (scope : Scope) : Phrase → Prop
  | .union t => t.Floatless → Written scope t
  | .alternatives ts => ∀ t ∈ ts, t.Floatless → Written scope t
  | .term t => t.Floatless → Written scope t
  | .arguments ts => ∀ t ∈ ts, t.Floatless → Written scope t
  | .sequence ts => ∀ t ∈ ts, t.Floatless → Written scope t
  | .parameters ts => ∀ t ∈ ts, t.Floatless → Written scope t
  | .callable t => t.Floatless → Written scope t
  | .metadata _ => True
  | .literals vs => ∀ v ∈ vs, v.isFloat = false →
    ∃ s : Symbol, Spelled v.render [s] ∧ s.literal? = some v

/-- What a phrase denotes is written as a term. The symbols of a phrase are split among its parts,
so what is known of the names is passed down with each part. -/
theorem respelled_of_produces {scope : Scope} {phrase : Phrase} {ss : List Symbol}
    (hscope : scope.IsPlain) (h : Produces scope phrase ss)
    (hnames : ∀ n, .name n ∈ ss → isIdentifier n = true) : Respelled scope phrase := by
  -- The induction is on the derivation; `hfloat` keeps the literals of the parts free of floats.
  induction h with
  | single _ ih => exact ih hnames
  | @several t ts ss rs _ _ hne ih₁ ih₂ =>
    intro hfloat
    have hlength : 2 ≤ (t :: ts).length := by
      have hpos := List.length_pos_iff.2 hne
      simp only [List.length_cons]
      omega
    have hall : ∀ u ∈ t :: ts, u.Floatless → Written scope u :=
      List.forall_mem_cons.2 ⟨ih₁ fun n hn => hnames n (by simp [hn]),
        ih₂ fun n hn => hnames n (by simp [hn])⟩
    exact written_union hlength fun u hu => hall u hu fun vs hvs => hfloat vs (.member hu hvs)
  | noAlternative => exact fun t ht => absurd ht List.not_mem_nil
  | alternative _ _ ih₁ ih₂ =>
    exact List.forall_mem_cons.2 ⟨ih₁ fun n hn => hnames n (by simp [hn]),
      ih₂ fun n hn => hnames n (by simp [hn])⟩
  | any => exact fun _ => written_word (by decide) .any
  | none => exact fun _ => written_word (by decide) .nil
  | nil => exact fun _ => written_word (by decide) .nil
  | optional _ ih =>
    intro hfloat
    have ht := ih fun n hn => hnames n (by simp [hn])
    exact written_optional (ht fun vs hvs => hfloat vs (.member (by simp) hvs))
  | unionOfOne _ ih =>
    exact ih (fun n hn => hnames n (by simp [hn])) _ (by simp)
  | unionOfMore _ hlength ih =>
    intro hfloat
    have hall := ih fun n hn => hnames n (by simp [hn])
    exact written_union hlength fun u hu => hall u hu fun vs hvs => hfloat vs (.member hu hvs)
  | bareCallable => exact fun _ => written_word (by decide) .bareCallable
  | callable _ ih => exact ih fun n hn => hnames n (by simp [hn])
  | bareType => exact fun _ => written_bareType
  | typeOf _ ih =>
    intro hfloat
    have ht := ih fun n hn => hnames n (by simp [hn])
    exact written_typeOf (ht fun vs hvs => hfloat vs (.operand hvs))
  | annotated _ _ ih _ =>
    intro hfloat
    have ht := ih fun n hn => hnames n (by simp [hn])
    exact written_annotated (ht fun vs hvs => hfloat vs (.inner hvs)) _
  | @literal vs ss hliterals ih =>
    intro hfloat
    have hne : vs ≠ [] := by
      rintro rfl
      cases hliterals
    have hall := ih fun n hn => hnames n (by simp [hn])
    exact written_literal hne fun v hv => hall v hv (hfloat vs .self v hv)
  -- A word means itself or a type variable, which is written by its name.
  | @plain n t hkeyword hresolved =>
    intro _
    have hn := hnames n (by simp)
    obtain rfl | ⟨bound, constraints, rfl⟩ := hscope n t hresolved
    · exact written_word hn (.plain hkeyword hresolved)
    · exact ⟨rfl, _, .name hn, .plain hkeyword hresolved⟩
  -- Arguments are taken by classes only, so the word means itself.
  | @applied n head ts ss hkeyword hresolved harguments ih =>
    intro hfloat
    have hne : ts ≠ [] := by
      rintro rfl
      exact not_produces_arguments_nil harguments
    obtain heq | ⟨bound, constraints, heq⟩ := hscope n _ hresolved
    · cases heq
      have hall := ih fun n hn => hnames n (by simp [hn])
      exact written_app (hnames n (by simp)) hkeyword hresolved hne fun u hu =>
        hall u hu fun vs hvs => hfloat vs (.argument hu hvs)
    · cases heq
  | arguments _ ih => exact ih fun n hn => hnames n (by simp [hn])
  | lastOf _ ih =>
    intro t ht
    rw [List.mem_singleton.1 ht]
    exact ih hnames
  | more _ _ ih₁ ih₂ =>
    exact List.forall_mem_cons.2 ⟨ih₁ fun n hn => hnames n (by simp [hn]),
      ih₂ fun n hn => hnames n (by simp [hn])⟩
  | noParameter => exact fun t ht => absurd ht List.not_mem_nil
  | parameters _ ih => exact ih hnames
  | parametersComma _ ih => exact ih fun n hn => hnames n (by simp [hn])
  | anyParameters _ ih =>
    intro hfloat
    have ht := ih fun n hn => hnames n (by simp [hn])
    exact written_anyParameters (ht fun vs hvs => hfloat vs (.result hvs))
  | withParameters _ _ ih₁ ih₂ =>
    intro hfloat
    have hts := ih₁ fun n hn => hnames n (by simp [hn])
    have ht := ih₂ fun n hn => hnames n (by simp [hn])
    exact written_callable (fun u hu => hts u hu fun vs hvs => hfloat vs (.parameter hu hvs))
      (ht fun vs hvs => hfloat vs (.result hvs))
  | noMetadata => trivial
  | metadata _ _ _ => trivial
  | lastLiteral hv =>
    intro v hmem
    rw [List.mem_singleton.1 hmem]
    exact exists_symbol_of_literal? hv
  | moreLiterals hv _ ih =>
    exact List.forall_mem_cons.2 ⟨exists_symbol_of_literal? hv,
      ih fun n hn => hnames n (by simp [hn])⟩

namespace Registry

/-- Without aliases, a word of a reachable registry means itself or the variable of its name. -/
theorem isPlain_lookup {r : Registry} (hr : r.Reachable) (haliases : r.aliases = []) :
    Scope.IsPlain r.lookup := by
  intro n t ht
  -- The name that the scope gives back is the one that was asked for.
  unfold lookup at ht
  split at ht
  · rename_i hany
    cases ht
    exact .inl (by rw [hany]; rfl)
  split at ht
  · cases ht
    exact .inl rfl
  · split at ht
    · rename_i v hv
      cases ht
      have hname := hr.varsFiled n v hv
      exact .inr ⟨v.bound, v.constraints, by rw [← hname]; rfl⟩
    · rw [alias?, haliases] at ht
      cases ht

/-- A literal type with one value is read off its spelling. -/
theorem parse_literal (r : Registry) {spelling : Text} {s : Symbol} {v : Literal}
    (hspelled : Spelled spelling [s]) (hv : s.literal? = some v) :
    r.parse (Name.literal ++ Text.bracketed spelling) = .ok (.literal [v]) := by
  have hname : Spelled Name.literal [.name Name.literal] := .name (by decide)
  exact parse_of_produces (hname.bracketed hspelled).lexes (.single (.literal (.lastLiteral hv)))

/-- An expression without floating-point literals that was read in a registry without aliases is
read again from what is written for it. -/
theorem parse_render {r : Registry} (hr : r.Reachable) (haliases : r.aliases = []) {source : Text}
    {t : TypeExpr} (hread : r.parse source = .ok t) (hfloat : t.Floatless) :
    r.parse t.render = .ok t := by
  obtain ⟨ss, hlexes, hproduces⟩ := produces_of_parse hread
  have hwritten : Written r.lookup t :=
    respelled_of_produces (isPlain_lookup hr haliases) hproduces hlexes.isIdentifier hfloat
  obtain ⟨rs, hrs, hterm⟩ := hwritten.term
  exact parse_of_produces hrs.lexes (.single hterm)

/-- A union that is written by bars and single quotes is read again from its usual spelling. -/
theorem parse_render_union : ∃ t, builtin.Reachable ∧ builtin.aliases = [] ∧ t.Floatless ∧
    builtin.parse (text "None | Literal['\\xff', -7]") = .ok t ∧
    t.render = text "Union[Nil, Literal[\"\\xff\", -7]]" ∧ builtin.parse t.render = .ok t := by
  -- The lexer is run once; the symbols that it gives are then read by the grammar.
  have hscan : Token.scan (text "None | Literal['\\xff', -7]") =
      [⟨.name, Name.none, 0⟩, ⟨.pipe, text "|", 5⟩, ⟨.name, Name.literal, 7⟩,
        ⟨.opening, text "[", 14⟩, ⟨.string, text "'\\xff'", 15⟩, ⟨.comma, text ",", 21⟩,
        ⟨.number, text "-7", 23⟩, ⟨.closing, text "]", 25⟩, ⟨.eof, [], 26⟩] := by
    decide +kernel
  have hlexes : Lexes (text "None | Literal['\\xff', -7]") [.name Name.none, .pipe,
      .name Name.literal, .opening, .string (text "'\\xff'"), .comma, .number (text "-7"),
      .closing] := by
    refine (lexes_iff _ _).2 ⟨26, ?_⟩
    rw [hscan]
    exact .cons rfl (.cons rfl (.cons rfl (.cons rfl (.cons rfl (.cons rfl (.cons rfl (.cons rfl
      .nil)))))))
  have hstring : Symbol.literal? (.string (text "'\\xff'")) = some (.string [0xFF]) := by
    decide +kernel
  have hnumber : Symbol.literal? (.number (text "-7")) = some (.int (-7)) := by decide +kernel
  have hread : builtin.parse (text "None | Literal['\\xff', -7]") =
      .ok (.union [.nil, .literal [.string [0xFF], .int (-7)]] false) :=
    parse_of_produces hlexes (.several .none (.alternative
      (.literal (.moreLiterals hstring (.lastLiteral hnumber))) .noAlternative) (by simp))
  have hfloat : Floatless (.union [.nil, .literal [.string [0xFF], .int (-7)]] false) := by
    intro vs hvs
    cases hvs with
    | member hmem hvs =>
      obtain rfl | hmem := List.mem_cons.1 hmem
      · cases hvs
      · rw [List.mem_singleton.1 hmem] at hvs
        cases hvs
        decide
  exact ⟨_, .builtin, rfl, hfloat, hread, by decide +kernel, parse_render .builtin rfl hread hfloat⟩

end Registry

end TypeShape
