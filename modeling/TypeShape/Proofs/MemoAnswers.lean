import TypeShape.Proofs.Keys
import TypeShape.Proofs.RoundTrip
import TypeShape.Proofs.SubtypeRun

/-!
# What a memo answers

A memo that is asked for the reductions of one expression after another answers each of them as its
last state shows it: nothing that was entered is ever replaced.  So all answers are right exactly
when expressions with one key have one reduction.  Of expressions that were read, keys tell the
outlines, and two of them with one outline may differ: a number is written alike with and without a
point, and classes may be named as the keys of unions and of types of types begin.

## Key results

- `Memo.reduceAll_eq_map_view`: the answers are what the last state of the memo shows
- `Memo.reduceAll_eq_iff`: all answers are right exactly when keys tell reductions
- `Registry.legible_of_parse`: what was read has a legible outline
- `Registry.reduceAll_parsed`: when the answers for expressions that were read are right
- `Registry.reduceAll_float`: a number with a point is taken for the whole number
-/

namespace TypeShape

open Token TypeExpr

/-! ## One memo, many questions -/

namespace Memo

/-- The answers of a memo that is asked for the reductions of some expressions in turn, and the
state it is left in. -/
def afterAll (memo : Memo) (ts : List TypeExpr) : List Reduced × Memo :=
  StateT.run (ts.mapM Memo.reduce) memo

/-- The answers of a new memo that is asked for the reductions of some expressions in turn. -/
def reduceAll (ts : List TypeExpr) : List Reduced :=
  (afterAll {} ts).1

/-- The expressions are asked for one after the other. -/
theorem afterAll_cons (memo : Memo) (t : TypeExpr) (ts : List TypeExpr) :
    memo.afterAll (t :: ts) =
      ((StateT.run (Memo.reduce t) memo).1 :: ((StateT.run (Memo.reduce t) memo).2.afterAll ts).1,
        ((StateT.run (Memo.reduce t) memo).2.afterAll ts).2) := by
  rw [afterAll, List.mapM_cons]
  rfl

/-- Questions only add to a memo. -/
theorem extends_afterAll (memo : Memo) (ts : List TypeExpr) :
    (memo.afterAll ts).2.Extends memo := by
  induction ts generalizing memo with
  | nil => exact Extends.refl memo
  | cons t ts ih =>
    rw [afterAll_cons]
    exact (ih _).trans (extends_reduce t memo)

/-- The answers are what any view shows that agrees with the memo at the end. -/
theorem fst_afterAll (memo : Memo) (ts : List TypeExpr) {see : View}
    (hsee : see.Agrees (memo.afterAll ts).2) : (memo.afterAll ts).1 = ts.map see := by
  induction ts generalizing memo with
  | nil => rfl
  | cons t ts ih =>
    rw [afterAll_cons] at hsee ⊢
    have hfirst : see t = (StateT.run (Memo.reduce t) memo).1 :=
      (hsee.of_extends (extends_afterAll _ ts)).reduce
    rw [List.map_cons, hfirst, ih _ hsee]

/-- The answers are what the last state of the memo shows. -/
theorem reduceAll_eq_map_view (ts : List TypeExpr) :
    reduceAll ts = ts.map (afterAll {} ts).2.view :=
  fst_afterAll {} ts (view_agrees _)

/-- One question enters the reduction of the expression that was asked for, or nothing. -/
theorem find?_run_reduce {t : TypeExpr} {memo : Memo} {key : Text} {x : Reduced}
    (h : (StateT.run (Memo.reduce t) memo).2.entries.find? key = some x) :
    memo.entries.find? key = some x ∨ t.isOmitted = false ∧ t.key = key ∧ x = t.reduce := by
  -- An omitted expression enters nothing, and neither does a key that was found.
  rw [run_reduce] at h
  split at h
  · exact .inl h
  rename_i homitted
  split at h
  · exact .inl h
  · rw [Table.find?_cons] at h
    split at h
    · rename_i hkey
      exact .inr ⟨by simpa using homitted, hkey.symm, (Option.some.inj h).symm⟩
    · exact .inl h

/-- All that a memo holds was there before, or is the reduction of an expression that was asked
for. -/
theorem find?_afterAll {ts : List TypeExpr} {memo : Memo} {key : Text} {x : Reduced}
    (h : (memo.afterAll ts).2.entries.find? key = some x) :
    memo.entries.find? key = some x ∨
      ∃ t ∈ ts, t.isOmitted = false ∧ t.key = key ∧ x = t.reduce := by
  -- By induction on the questions.
  induction ts generalizing memo with
  | nil => exact .inl h
  | cons t ts ih =>
    rw [afterAll_cons] at h
    obtain h | ⟨s, hs, hs'⟩ := ih h
    · obtain h | ht := find?_run_reduce h
      · exact .inl h
      · exact .inr ⟨t, by simp, ht⟩
    · exact .inr ⟨s, by simp [hs], hs'⟩

/-- An expression that was asked for has an entry. -/
theorem exists_find?_afterAll {ts : List TypeExpr} {t : TypeExpr} (ht : t ∈ ts)
    (homitted : t.isOmitted = false) (memo : Memo) :
    ∃ x, (memo.afterAll ts).2.entries.find? t.key = some x := by
  -- By induction on the expressions that are asked for; no later one takes an entry away.
  induction ts generalizing memo with
  | nil => cases ht
  | cons s ts ih =>
    rw [afterAll_cons]
    obtain rfl | ht := List.mem_cons.1 ht
    · have hentry : ∃ x, (StateT.run (Memo.reduce t) memo).2.entries.find? t.key = some x := by
        rw [run_reduce, if_neg (by simp [homitted])]
        cases hfind : memo.entries.find? t.key with
        | some found => exact ⟨found, hfind⟩
        | none => exact ⟨t.reduce, by rw [Table.find?_cons, if_pos rfl]⟩
      obtain ⟨x, hx⟩ := hentry
      exact ⟨x, extends_afterAll _ ts _ _ hx⟩
    · exact ih ht _

/-- All answers are right exactly when expressions with one key have one reduction. -/
theorem reduceAll_eq_iff (ts : List TypeExpr) :
    reduceAll ts = ts.map TypeExpr.reduce ↔
      ∀ a ∈ ts, ∀ b ∈ ts, a.isOmitted = false → b.isOmitted = false → a.key = b.key →
        a.reduce = b.reduce := by
  rw [reduceAll_eq_map_view, List.map_inj_left]
  constructor
  · intro h a ha b hb hao hbo hkey
    -- both are answered by the entry of their common key
    obtain ⟨x, hx⟩ := exists_find?_afterAll ha hao {}
    have hview : ∀ t ∈ ts, t.isOmitted = false → t.key = a.key → t.reduce = x := by
      intro t ht hto htkey
      rw [← h t ht, view, if_neg (by simp [hto]), htkey, hx]
      rfl
    rw [hview a ha hao rfl, hview b hb hbo hkey.symm]
  · intro h t ht
    rw [view]
    split
    · rfl
    · rename_i hto
      have hto : t.isOmitted = false := by simpa using hto
      -- the answer is the reduction of an expression with the same key
      obtain ⟨x, hx⟩ := exists_find?_afterAll ht hto {}
      obtain hempty | ⟨s, hs, hso, hkey, rfl⟩ := find?_afterAll hx
      · cases hempty
      · rw [hx]
        exact h s hs t ht hso hto hkey

end Memo

/-! ## What was read is legible -/

/-- What a phrase denotes has legible outlines. -/
def Phrase.Legible (voc : Vocabulary) : Phrase → Prop
  | .union t => t.outline.Legible voc
  | .alternatives ts => ∀ t ∈ ts, t.outline.Legible voc
  | .term t => t.outline.Legible voc
  | .arguments ts => ∀ t ∈ ts, t.outline.Legible voc
  | .sequence ts => ∀ t ∈ ts, t.outline.Legible voc
  | .parameters ts => ∀ t ∈ ts, t.outline.Legible voc
  | .callable t => t.outline.Legible voc
  | .metadata _ => True
  | .literals _ => True

namespace Registry

/-- The vocabulary of what is read in a registry.  The word for literal types is reserved. -/
def vocabulary (r : Registry) : Vocabulary where
  isClass n := isIdentifier n = true ∧ n ≠ Name.literal
  declared n := (r.var? n).map fun v => (v.bound.outline, outlineAll v.constraints)
  isIdentifier _ h := h.1

/-- The aliases of a registry stand for expressions that can be read off their keys. -/
def LegibleAliases (r : Registry) : Prop :=
  ∀ n t, r.alias? n = some t → t.outline.Legible r.vocabulary

/-- What a name stands for has a legible outline. -/
theorem legible_lookup {r : Registry} (hr : r.Reachable) (haliases : r.LegibleAliases) {n : Text}
    {t : TypeExpr} (hn : isIdentifier n = true) (hkeyword : Name.isKeyword n = false)
    (ht : r.lookup n = some t) : t.outline.Legible r.vocabulary := by
  -- What the scope gives is the wildcard, a class, a variable under its name, or an alias.
  unfold lookup at ht
  split at ht
  · cases ht
    exact .word ⟨by decide, by decide⟩
  split at ht
  · cases ht
    refine .word ⟨hn, ?_⟩
    rintro rfl
    exact absurd hkeyword (by decide)
  split at ht
  · rename_i v hv
    cases ht
    refine .declared ?_ ?_
    · rw [hr.varsFiled n v hv]
      exact hn
    · show (r.var? v.name).map _ = _
      rw [hr.varsFiled n v hv, hv]
      rfl
  · exact haliases n t ht

/-- Everything that the grammar makes of words has a legible outline. -/
theorem legible_of_produces {r : Registry} (hr : r.Reachable) (haliases : r.LegibleAliases)
    {phrase : Phrase} {ss : List Symbol} (h : Produces r.lookup phrase ss)
    (hnames : ∀ n, .name n ∈ ss → isIdentifier n = true) : phrase.Legible r.vocabulary := by
  have hword : ∀ {n : Text}, isIdentifier n = true → n ≠ Name.literal →
      r.vocabulary.isClass n := fun hn hne => ⟨hn, hne⟩
  have htypeOf : ∀ {t : TypeExpr}, t.outline.Legible r.vocabulary →
      (typeOf t).outline.Legible r.vocabulary := by
    intro t ht
    refine .applied (hword (by decide) (by decide)) fun a ha => ?_
    rwa [List.mem_singleton.1 ha]
  -- By induction on the derivation; the names in the words are those that the lexer lets through.
  induction h with
  | single _ ih => exact ih hnames
  | @several t ts _ _ _ _ _ ih₁ ih₂ =>
    have hmembers : ∀ u ∈ t :: ts, u.outline.Legible r.vocabulary :=
      List.forall_mem_cons.2 ⟨ih₁ fun n hn => hnames n (by simp [hn]),
        ih₂ fun n hn => hnames n (by simp [hn])⟩
    exact .applied (hword (by decide) (by decide)) (Outline.legible_outlineAll hmembers)
  | noAlternative => exact fun t ht => absurd ht List.not_mem_nil
  | alternative _ _ ih₁ ih₂ =>
    exact List.forall_mem_cons.2 ⟨ih₁ fun n hn => hnames n (by simp [hn]),
      ih₂ fun n hn => hnames n (by simp [hn])⟩
  | any => exact .word (hword (by decide) (by decide))
  | none => exact .word (hword (by decide) (by decide))
  | nil => exact .word (hword (by decide) (by decide))
  | optional _ ih =>
    have ht := ih fun n hn => hnames n (by simp [hn])
    have hnil : nil.outline.Legible r.vocabulary := .word (hword (by decide) (by decide))
    refine .optional (Outline.legible_outlineAll (List.forall_mem_cons.2 ⟨ht, fun u hu => ?_⟩))
    rwa [List.mem_singleton.1 hu]
  | unionOfOne _ ih => exact ih (fun n hn => hnames n (by simp [hn])) _ (by simp)
  | unionOfMore _ _ ih =>
    have hmembers := ih fun n hn => hnames n (by simp [hn])
    exact .applied (hword (by decide) (by decide)) (Outline.legible_outlineAll hmembers)
  | bareCallable => exact .word (hword (by decide) (by decide))
  | callable _ ih => exact ih fun n hn => hnames n (by simp [hn])
  | bareType => exact htypeOf .omitted
  | typeOf _ ih => exact htypeOf (ih fun n hn => hnames n (by simp [hn]))
  | annotated _ _ ih _ => exact .annotated (ih fun n hn => hnames n (by simp [hn]))
  | literal _ _ => exact .values fun h => h.2 rfl
  | @plain n t hkeyword hresolved =>
    exact legible_lookup hr haliases (hnames n (by simp)) hkeyword hresolved
  | @applied n head ts ss hkeyword hresolved _ ih =>
    have hargs := ih fun n hn => hnames n (by simp [hn])
    cases legible_lookup hr haliases (hnames n (by simp)) hkeyword hresolved with
    | word hhead => exact .applied hhead (Outline.legible_outlineAll hargs)
  | arguments _ ih => exact ih fun n hn => hnames n (by simp [hn])
  | lastOf _ ih =>
    intro t ht
    rw [List.mem_singleton.1 ht]
    exact ih hnames
  | more _ _ ih₁ ih₂ =>
    exact List.forall_mem_cons.2 ⟨ih₁ fun n hn => hnames n (by simp [hn]),
      ih₂ fun n hn => hnames n (by simp [hn])⟩
  | noParameter => exact fun t ht => absurd ht List.not_mem_nil
  | parameters _ ih => exact ih hnames
  | parametersComma _ ih => exact ih fun n hn => hnames n (by simp [hn])
  | anyParameters _ ih => exact .variadic (ih fun n hn => hnames n (by simp [hn]))
  | withParameters _ _ ih₁ ih₂ =>
    have hparams := ih₁ fun n hn => hnames n (by simp [hn])
    exact .callable (Outline.legible_outlineAll hparams) (ih₂ fun n hn => hnames n (by simp [hn]))
  | noMetadata => trivial
  | metadata _ _ _ => trivial
  | lastLiteral _ => trivial
  | moreLiterals _ _ _ => trivial

/-- What was read has a legible outline. -/
theorem legible_of_parse {r : Registry} (hr : r.Reachable) (haliases : r.LegibleAliases)
    {source : Text} {t : TypeExpr} (h : r.parse source = .ok t) :
    t.outline.Legible r.vocabulary := by
  obtain ⟨ss, hlexes, hproduces⟩ := produces_of_parse h
  exact legible_of_produces hr haliases hproduces hlexes.isIdentifier

end Registry

/-! ## What an outline tells of the reduction -/

namespace Registry

/-- Whether the key tells what an expression is by itself: a class is not named like the keys of
unions or of types of types, a variable is the declared one, and literals are no numbers with a
point. -/
def Tells (r : Registry) : TypeExpr → Prop
  | .app head _ => head ≠ text "U" ∧ head ≠ text "T"
  | .var n bound constraints => r.var? n = some ⟨n, bound, constraints⟩
  | .literal vs => ∀ v ∈ vs, v.isExact = true
  | _ => True

/-- Whether the key tells all that occurs in an expression. -/
def Told (r : Registry) (t : TypeExpr) : Prop :=
  ∀ s : TypeExpr, s.Occurs t → r.Tells s

variable {r : Registry}

/-- Lists of one outline have the same shapes and metadata, if this is so for their elements. -/
theorem reduce_eq_of_outlineAll {as bs : List TypeExpr}
    (ih : ∀ a ∈ as, ∀ b : TypeExpr, r.Told b → a.outline = b.outline → a.reduce = b.reduce)
    (hbs : ∀ b ∈ bs, r.Told b) (h : outlineAll bs = outlineAll as) :
    shapes as = shapes bs ∧ metadataAll as = metadataAll bs := by
  -- By induction on the lists; their outlines are equal member by member.
  induction as generalizing bs with
  | nil =>
    cases bs with
    | nil => exact ⟨rfl, rfl⟩
    | cons b bs => cases h
  | cons a as ih' =>
    cases bs with
    | nil => cases h
    | cons b bs =>
      obtain ⟨ha, has⟩ := List.forall_mem_cons.1 ih
      obtain ⟨hb, hbs'⟩ := List.forall_mem_cons.1 hbs
      have hfirst : a.reduce = b.reduce := ha b hb (List.cons.inj h).1.symm
      obtain ⟨hshapes, hmetadataAll⟩ := ih' has hbs' (List.cons.inj h).2
      injection hfirst with hshape hmetadata
      exact ⟨by rw [shapes, shapes, hshape, hshapes],
        by rw [metadataAll, metadataAll, hmetadata, hmetadataAll]⟩

/-- Expressions that their keys tell have one reduction for one outline. -/
theorem reduce_eq_of_outline {a b : TypeExpr} (ha : r.Told a) (hb : r.Told b)
    (h : a.outline = b.outline) : a.reduce = b.reduce := by
  -- By induction on the one expression, with the form that its outline leaves for the other.
  induction a using TypeExpr.induct generalizing b with
  | omitted =>
    obtain rfl : b = .omitted := fits_of_outline_eq h
    rfl
  | con n =>
    obtain rfl : b = .con n := fits_of_outline_eq h
    rfl
  | app n args ih =>
    have hn : n ≠ text "U" ∧ n ≠ text "T" := ha _ .self
    obtain ⟨args', rfl, hargs⟩ | ⟨-, -, hU, -⟩ | ⟨-, -, hT, -⟩ := fits_of_outline_eq h
    · obtain ⟨hshapes, hmetadata⟩ := reduce_eq_of_outlineAll
        (fun t ht u hu => ih t ht (fun s hs => ha s (.argument ht hs)) hu)
        (fun t ht s hs => hb s (.argument ht hs)) hargs
      simp only [reduce, shape, metadata, hshapes, hmetadata]
    · exact absurd hU hn.1
    · exact absurd hT hn.2
  | var n bound constraints _ _ =>
    obtain ⟨bound', constraints', rfl, -, -⟩ := fits_of_outline_eq h
    -- one name has one declaration, whatever its restrictions look like in the key
    have hdeclared : r.var? n = some ⟨n, bound, constraints⟩ := ha _ .self
    have hdeclared' : r.var? n = some ⟨n, bound', constraints'⟩ := hb _ .self
    rw [hdeclared] at hdeclared'
    cases hdeclared'
    rfl
  | union members optional ih =>
    have hmembers : ∀ members', b = .union members' optional →
        outlineAll members' = outlineAll members →
        (TypeExpr.union members optional).reduce = b.reduce := by
      rintro members' rfl houtlines
      obtain ⟨hshapes, hmetadata⟩ := reduce_eq_of_outlineAll
        (fun t ht u hu => ih t ht (fun s hs => ha s (.member ht hs)) hu)
        (fun t ht s hs => hb s (.member ht hs)) houtlines
      simp only [reduce, shape, metadata, hshapes, hmetadata]
    cases optional with
    | true =>
      obtain ⟨members', hb', houtlines⟩ := fits_of_outline_eq h
      exact hmembers members' hb' houtlines
    | false =>
      obtain ⟨args, rfl, -⟩ | ⟨members', hb', -, houtlines⟩ | ⟨-, -, hT, -⟩ := fits_of_outline_eq h
      · -- a class named like the key of a union
        have hn : text "U" ≠ text "U" ∧ text "U" ≠ text "T" := hb _ .self
        exact absurd rfl hn.1
      · exact hmembers members' hb' houtlines
      · exact absurd hT (by decide)
  | callable params result ellipsis ih₁ ih₂ =>
    cases ellipsis with
    | true =>
      obtain ⟨params', result', rfl, houtline⟩ := fits_of_outline_eq h
      have hresult : result.reduce = result'.reduce := ih₂ (fun s hs => ha s (.result hs))
        (fun s hs => hb s (.result hs)) houtline.symm
      injection hresult with hshape hmetadata
      simp only [reduce, shape, metadata, hshape, hmetadata, if_true]
    | false =>
      obtain ⟨params', result', rfl, houtlines, houtline⟩ := fits_of_outline_eq h
      have hresult : result.reduce = result'.reduce := ih₂ (fun s hs => ha s (.result hs))
        (fun s hs => hb s (.result hs)) houtline.symm
      obtain ⟨hshapes, hmetadataAll⟩ := reduce_eq_of_outlineAll
        (fun t ht u hu => ih₁ t ht (fun s hs => ha s (.parameter ht hs)) hu)
        (fun t ht s hs => hb s (.parameter ht hs)) houtlines
      injection hresult with hshape hmetadata
      simp only [reduce, shape, metadata, hshapes, hmetadataAll, hshape, hmetadata]
  | typeOf operand ih =>
    obtain ⟨args, rfl, -⟩ | ⟨-, -, hU, -⟩ | ⟨operand', rfl, -, houtline⟩ := fits_of_outline_eq h
    · -- a class named like the key of a type of types
      have hn : text "T" ≠ text "U" ∧ text "T" ≠ text "T" := hb _ .self
      exact absurd rfl hn.2
    · exact absurd hU (by decide)
    · have houtline' : operand'.outline = operand.outline := (List.cons.inj houtline).1
      have hoperand : operand.reduce = operand'.reduce := ih (fun s hs => ha s (.operand hs))
        (fun s hs => hb s (.operand hs)) houtline'.symm
      have homitted : operand.isOmitted = operand'.isOmitted := by
        rw [← isOmitted_outline, ← isOmitted_outline, houtline']
      injection hoperand with hshape hmetadata
      simp only [reduce, shape, metadata, homitted, hshape, hmetadata]
  | annotated inner ms ih =>
    obtain ⟨inner', rfl, houtline⟩ := fits_of_outline_eq h
    have hinner : inner.reduce = inner'.reduce := ih (fun s hs => ha s (.inner hs))
      (fun s hs => hb s (.inner hs)) houtline.symm
    injection hinner with hshape hmetadata
    simp only [reduce, shape, metadata, hshape, hmetadata]
  | literal vs =>
    obtain ⟨ws, rfl, hrenders⟩ := fits_of_outline_eq h
    have hvs : ∀ v ∈ vs, v.isExact = true := ha _ .self
    have hws : ∀ w ∈ ws, w.isExact = true := hb _ .self
    rw [Literal.renders_inj hvs hws hrenders.symm]

/-- When the answers of one memo for expressions that were read are right: exactly when expressions
with one outline have one reduction, and so whenever the keys tell the expressions. -/
theorem reduceAll_parsed (hr : r.Reachable) (haliases : r.LegibleAliases) {ts : List TypeExpr}
    (hts : ∀ t ∈ ts, ∃ source, r.parse source = .ok t) :
    (Memo.reduceAll ts = ts.map TypeExpr.reduce ↔
      ∀ a ∈ ts, ∀ b ∈ ts, a.outline = b.outline → a.reduce = b.reduce) ∧
    ((∀ t ∈ ts, r.Told t) → Memo.reduceAll ts = ts.map TypeExpr.reduce) := by
  have hlegible : ∀ t ∈ ts, t.outline.Legible r.vocabulary := by
    intro t ht
    obtain ⟨source, hread⟩ := hts t ht
    exact legible_of_parse hr haliases hread
  have hiff : Memo.reduceAll ts = ts.map TypeExpr.reduce ↔
      ∀ a ∈ ts, ∀ b ∈ ts, a.outline = b.outline → a.reduce = b.reduce := by
    rw [Memo.reduceAll_eq_iff]
    constructor
    · intro h a ha b hb houtline
      have hboth : b.isOmitted = a.isOmitted := by
        rw [← isOmitted_outline, ← houtline, isOmitted_outline]
      cases homitted : a.isOmitted with
      | false =>
        rw [homitted] at hboth
        exact h a ha b hb homitted hboth
          ((key_eq_iff (hlegible a ha) (hlegible b hb)).2 houtline)
      | true =>
        -- omitted expressions are not asked of the memo
        rw [homitted] at hboth
        rw [eq_omitted homitted, eq_omitted hboth]
    · intro h a ha b hb _ _ hkey
      exact h a ha b hb ((key_eq_iff (hlegible a ha) (hlegible b hb)).1 hkey)
  refine ⟨hiff, fun htold => hiff.2 fun a ha b hb houtline => ?_⟩
  exact reduce_eq_of_outline (htold a ha) (htold b hb) houtline

/-- The literal type of the number one can be read. -/
theorem parse_one (r : Registry) : r.parse (text "Literal[1]") = .ok (.literal [.int 1]) := by
  have hsource : text "Literal[1]" = Name.literal ++ Text.bracketed (Text.ofInt 1) := by decide
  have hvalue : Symbol.literal? (.number (Text.ofInt 1)) = some (.int 1) := by decide +kernel
  rw [hsource]
  exact r.parse_literal (.number 1) hvalue

/-- There are no aliases in the builtin registry. -/
theorem legibleAliases_builtin : builtin.LegibleAliases := by
  intro n t h
  cases h

/-- A number and a string with its digits are told apart. -/
theorem reduceAll_digits :
    let one := TypeExpr.literal [.int 1]
    let digit := TypeExpr.literal [.string (text "1")]
    builtin.Reachable ∧ builtin.LegibleAliases ∧ builtin.parse (text "Literal[1]") = .ok one ∧
      builtin.parse (text "Literal[\"1\"]") = .ok digit ∧ builtin.Told one ∧ builtin.Told digit ∧
      Memo.reduceAll [one, digit] = [one, digit].map TypeExpr.reduce := by
  -- The string is one symbol, which is read without unrolling the lexer.
  have hdigit : builtin.parse (text "Literal[\"1\"]") = .ok (.literal [.string (text "1")]) := by
    have hsource : text "Literal[\"1\"]" =
        Name.literal ++ Text.bracketed (Quoted.quote (text "1")) := by decide
    have hvalue : Symbol.literal? (.string (Quoted.quote (text "1"))) =
        some (.string (text "1")) := by decide +kernel
    rw [hsource]
    exact builtin.parse_literal (.quote (text "1")) hvalue
  have htold : ∀ v : Literal, v.isExact = true → builtin.Told (.literal [v]) := by
    intro v hv s hs
    cases hs
    intro w hw
    rwa [List.mem_singleton.1 hw]
  have htold₁ := htold (.int 1) rfl
  have htold₂ := htold (.string (text "1")) rfl
  refine ⟨.builtin, legibleAliases_builtin, builtin.parse_one, hdigit, htold₁, htold₂, ?_⟩
  refine (reduceAll_parsed .builtin legibleAliases_builtin ?_).2 ?_
  · intro t ht
    obtain rfl | ht := List.mem_cons.1 ht
    · exact ⟨_, builtin.parse_one⟩
    · rw [List.mem_singleton.1 ht]
      exact ⟨_, hdigit⟩
  · intro t ht
    obtain rfl | ht := List.mem_cons.1 ht
    · exact htold₁
    · rw [List.mem_singleton.1 ht]
      exact htold₂

/-- A number with a point is taken for the whole number that was asked for before. -/
theorem reduceAll_float :
    ∃ whole point, builtin.Reachable ∧ builtin.LegibleAliases ∧
      builtin.parse (text "Literal[1]") = .ok whole ∧
      builtin.parse (text "Literal[1.0]") = .ok point ∧
      Memo.reduceAll [whole, point] ≠ [whole, point].map TypeExpr.reduce := by
  have hpoint : builtin.parse (text "Literal[1.0]") =
      .ok (.literal [.float .double (.finite false 4503599627370496 (-52))]) := by
    have hsource : text "Literal[1.0]" = Name.literal ++ Text.bracketed (text "1.0") := by decide
    have hspelled : Spelled (text "1.0") [.number (text "1.0")] :=
      fun rest rs hrest hrs => .number (by decide) (by decide) hrest.2 hrs
    have hvalue : Symbol.literal? (.number (text "1.0")) =
        some (.float .double (.finite false 4503599627370496 (-52))) := by decide +kernel
    rw [hsource]
    exact builtin.parse_literal hspelled hvalue
  refine ⟨_, _, .builtin, legibleAliases_builtin, builtin.parse_one, hpoint, ?_⟩
  -- The metadata of the two answers are lists of literals that differ.
  intro h
  have hliterals := congrArg (List.map (·.metadata.literals)) h
  exact absurd hliterals (by decide +kernel)

end Registry

end TypeShape
