import TypeShape.Proofs.Delimited
import TypeShape.Proofs.Occurrence

/-!
# What a key tells

Reductions are remembered by the keys of expressions.  A key is a flat text, and what it tells of an
expression is its outline: a union looks like a class `U` with arguments, the type of a type like a
class `T`, literal types look like the texts of their values, and the parameters that an ellipsis
voids are not told.  The outline can be read off the key again, as long as the names in it are names
of the lexer.  The proof reads two equal keys off in parallel, in front of any two rests that begin
with a delimiter (`Outline.Decodes`).

## Key results

- `TypeExpr.key_outline`: a key tells no more than the outline
- `Outline.Legible`: the outlines whose names stand out in a key
- `Outline.decodes_of_legible`: equal keys in front of two rests come from equal outlines
- `TypeExpr.key_eq_iff`: two keys are equal exactly when the outlines are
-/

namespace TypeShape

open Token

/-! ## Outlines -/

/-- What a key tells of an expression. -/
inductive Outline where
  | omitted
  | word (name : Text)
  /-- A class with arguments.  Unions are told as a class `U`, types of types as a class `T`. -/
  | applied (head : Text) (args : List Outline)
  | var (name : Text) (bound : Outline) (alternatives : List Outline)
  /-- A union in the spelling `Optional`. -/
  | optional (members : List Outline)
  | callable (params : List Outline) (result : Outline)
  /-- A callable that accepts every parameter list. -/
  | variadic (result : Outline)
  | annotated (inner : Outline) (metadata : List Text)
  /-- Literal values as they are written. -/
  | values (spellings : List Text)

/-- What a key says of the restrictions of a variable: nothing if there are none. -/
@[simp] def restrictionKey : Option Text → List Text → Text
  | none, [] => []
  | bound, alternatives =>
    text "<" ++ (bound.getD [] ++ alternatives.flatMap (text "|" ++ ·)) ++ text ">"

namespace Outline

def isOmitted : Outline → Bool
  | omitted => true
  | _ => false

/-- Only the omitted outline is omitted. -/
theorem isOmitted_iff {a : Outline} : a.isOmitted = true ↔ a = omitted := by
  cases a <;> simp [isOmitted]

mutual

/-- The key of the expressions with an outline. -/
def key : Outline → Text
  | omitted => text "<nil>"
  | word name => name
  | applied head args => head ++ TypeExpr.keyList (keyAll args)
  | var name bound alternatives =>
    text "~" ++ name ++
      restrictionKey (if bound.isOmitted then none else some bound.key) (keyAll alternatives)
  | optional members => text "?U" ++ TypeExpr.keyList (keyAll members)
  | callable params result =>
    text "F" ++ TypeExpr.keyList (keyAll params) ++ text "->" ++ result.key
  | variadic result => text "F" ++ text "[...]" ++ text "->" ++ result.key
  | annotated inner metadata =>
    text "A" ++ Text.bracketed (inner.key ++ text ";" ++
      Text.bracketed (Text.join (text " ") (metadata.map Quoted.quote)))
  | values spellings => Name.literal ++ Text.bracketed (Text.commas spellings)

/-- The keys of a list of outlines. -/
@[simp] def keyAll : List Outline → List Text
  | [] => []
  | a :: as => a.key :: keyAll as

end

/-- The keys of a list, one for each member. -/
theorem keyAll_eq_map (as : List Outline) : keyAll as = as.map key := by
  induction as with
  | nil => rfl
  | cons a as ih => simp [ih]

end Outline

namespace TypeExpr

mutual

/-- The outline of an expression. -/
def outline : TypeExpr → Outline
  | omitted => .omitted
  | con name => .word name
  | app head args => .applied head (outlineAll args)
  | var name bound constraints => .var name bound.outline (outlineAll constraints)
  | union members optional =>
    if optional then .optional (outlineAll members) else .applied (text "U") (outlineAll members)
  | callable params result ellipsis =>
    if ellipsis then .variadic result.outline else .callable (outlineAll params) result.outline
  | typeOf operand => .applied (text "T") [operand.outline]
  | annotated inner metadata => .annotated inner.outline metadata
  | literal values => .values (values.map Literal.render)

/-- The outlines of a list of expressions. -/
def outlineAll : List TypeExpr → List Outline
  | [] => []
  | t :: ts => t.outline :: outlineAll ts

end

/-- The outlines of a list, one for each member. -/
theorem outlineAll_eq_map (ts : List TypeExpr) : outlineAll ts = ts.map outline := by
  induction ts with
  | nil => rfl
  | cons t ts ih => simp [outlineAll, ih]

/-- The outline of an expression is omitted if the expression is. -/
theorem isOmitted_outline (t : TypeExpr) : t.outline.isOmitted = t.isOmitted := by
  cases t with
  | union members optional => cases optional <;> rfl
  | callable params result ellipsis => cases ellipsis <;> rfl
  | _ => rfl

/-- Expressions whose outlines have their keys have them as a list too. -/
theorem keyAll_outlineAll {ts : List TypeExpr} (h : ∀ t ∈ ts, t.outline.key = t.key) :
    Outline.keyAll (outlineAll ts) = keyAll ts := by
  induction ts with
  | nil => rfl
  | cons t ts ih =>
    obtain ⟨ht, hts⟩ := List.forall_mem_cons.1 h
    rw [outlineAll, Outline.keyAll, keyAll, ht, ih hts]

/-- The alternatives of a variable are its keys with bars in front. -/
theorem keyAlternatives_eq_flatMap (ts : List TypeExpr) :
    keyAlternatives ts = (keyAll ts).flatMap (text "|" ++ ·) := by
  induction ts with
  | nil => rfl
  | cons t ts ih => rw [keyAlternatives, keyAll, List.flatMap_cons, ih]

/-- A key tells no more than the outline. -/
theorem key_outline (t : TypeExpr) : t.outline.key = t.key := by
  -- By induction on the expression; only the forms with two spellings need a case more.
  induction t using induct with
  | omitted => rfl
  | con name => rfl
  | app head args ih => rw [outline, Outline.key, key, keyAll_outlineAll ih]
  | var name bound constraints ih₁ ih₂ =>
    rw [outline, Outline.key, key, isOmitted_outline, ih₁, keyAll_outlineAll ih₂,
      keyAlternatives_eq_flatMap]
    cases bound.isOmitted <;> cases constraints <;> simp [restrictionKey, keyAll]
  | union members optional ih =>
    cases optional <;> simp [outline, Outline.key, key, keyAll_outlineAll ih]
  | callable params result ellipsis ih₁ ih₂ =>
    cases ellipsis <;> simp [outline, Outline.key, key, keyAll_outlineAll ih₁, ih₂]
  | typeOf operand ih => simp [outline, Outline.key, key, keyList, Text.join, ih]
  | annotated inner metadata ih => rw [outline, Outline.key, key, ih]
  | literal values => rfl

end TypeExpr

open TypeExpr in
/-- The expressions that have an outline, each form by itself. -/
def Outline.Fits : Outline → TypeExpr → Prop
  | .omitted, t => t = .omitted
  | .word n, t => t = .con n
  | .applied n as, t => (∃ args, t = .app n args ∧ outlineAll args = as) ∨
    (∃ members, t = .union members false ∧ n = text "U" ∧ outlineAll members = as) ∨
    ∃ operand, t = .typeOf operand ∧ n = text "T" ∧ [operand.outline] = as
  | .var n b as, t => ∃ bound constraints, t = .var n bound constraints ∧ bound.outline = b ∧
    outlineAll constraints = as
  | .optional as, t => ∃ members, t = .union members true ∧ outlineAll members = as
  | .callable as a, t => ∃ params result, t = .callable params result false ∧
    outlineAll params = as ∧ result.outline = a
  | .variadic a, t => ∃ params result, t = .callable params result true ∧ result.outline = a
  | .annotated a ms, t => ∃ inner, t = .annotated inner ms ∧ inner.outline = a
  | .values spellings, t => ∃ vs, t = .literal vs ∧ vs.map Literal.render = spellings

/-- An expression fits its outline. -/
theorem TypeExpr.fits_outline (t : TypeExpr) : t.outline.Fits t := by
  -- The outlines of unions and of types of types fit classes under their tags as well.
  cases t with
  | omitted => rfl
  | con n => rfl
  | app n args => exact .inl ⟨args, rfl, rfl⟩
  | var n bound constraints => exact ⟨bound, constraints, rfl, rfl, rfl⟩
  | union members optional =>
    cases optional with
    | false => exact .inr (.inl ⟨members, rfl, rfl, rfl⟩)
    | true => exact ⟨members, rfl, rfl⟩
  | callable params result ellipsis =>
    cases ellipsis with
    | false => exact ⟨params, result, rfl, rfl, rfl⟩
    | true => exact ⟨params, result, rfl, rfl⟩
  | typeOf operand => exact .inr (.inr ⟨operand, rfl, rfl, rfl⟩)
  | annotated inner ms => exact ⟨inner, rfl, rfl⟩
  | literal vs => exact ⟨vs, rfl, rfl⟩

/-- Only the omitted expression is omitted. -/
theorem TypeExpr.eq_omitted {t : TypeExpr} (h : t.isOmitted = true) : t = .omitted := by
  cases t with
  | omitted => rfl
  | _ => cases h

/-- An expression fits the outline of every expression with the same outline. -/
theorem TypeExpr.fits_of_outline_eq {s t : TypeExpr} (h : s.outline = t.outline) :
    s.outline.Fits t := by
  rw [h]
  exact t.fits_outline

/-! ## Legible outlines -/

/-- The names that keys are read with: which names classes may have, and what the variables that are
declared are restricted by. -/
structure Vocabulary where
  isClass : Text → Prop
  declared : Text → Option (Outline × List Outline)
  isIdentifier : ∀ n, isClass n → Token.isIdentifier n = true

namespace Outline

/-- The outlines that can be read off their keys.  A declared variable is known by its name,
whatever its restrictions look like. -/
inductive Legible (voc : Vocabulary) : Outline → Prop where
  | omitted : Legible voc .omitted
  | word {n : Text} : voc.isClass n → Legible voc (.word n)
  | applied {n : Text} {args : List Outline} :
    voc.isClass n → (∀ a ∈ args, Legible voc a) → Legible voc (.applied n args)
  | declared {n : Text} {bound : Outline} {alternatives : List Outline} : isIdentifier n = true →
    voc.declared n = some (bound, alternatives) → Legible voc (.var n bound alternatives)
  | free {n : Text} {bound : Outline} {alternatives : List Outline} : isIdentifier n = true →
    voc.declared n = none → Legible voc bound → (∀ a ∈ alternatives, Legible voc a) →
    Legible voc (.var n bound alternatives)
  | optional {members : List Outline} :
    (∀ a ∈ members, Legible voc a) → Legible voc (.optional members)
  | callable {params : List Outline} {result : Outline} :
    (∀ a ∈ params, Legible voc a) → Legible voc result → Legible voc (.callable params result)
  | variadic {result : Outline} : Legible voc result → Legible voc (.variadic result)
  | annotated {inner : Outline} {metadata : List Text} :
    Legible voc inner → Legible voc (.annotated inner metadata)
  | values {vs : List Literal} :
    ¬ voc.isClass Name.literal → Legible voc (.values (vs.map Literal.render))

/-- The outlines of a list are legible if each of them is. -/
theorem legible_outlineAll {voc : Vocabulary} {ts : List TypeExpr}
    (h : ∀ t ∈ ts, t.outline.Legible voc) : ∀ a ∈ TypeExpr.outlineAll ts, a.Legible voc := by
  intro a ha
  rw [TypeExpr.outlineAll_eq_map] at ha
  obtain ⟨t, ht, rfl⟩ := List.mem_map.1 ha
  exact h t ht

/-! ### How keys begin and end -/

/-- Whether a byte may follow a key inside another. -/
def isKeyEnd (c : UInt8) : Bool :=
  Text.isOneOf ",];|>" c

/-- What stands in front does not continue a key. -/
def KeyEnds (x : Text) : Prop :=
  ∀ c ∈ x.head?, isKeyEnd c = true

/-- A delimiter ends a key. -/
theorem keyEnds_cons {c : UInt8} (h : isKeyEnd c = true) (x : Text) : KeyEnds (c :: x) := by
  intro d hd
  cases hd
  exact h

/-- A name ends where the key does. -/
theorem KeyEnds.stops {x : Text} (h : KeyEnds x) : Stops isNamePart x := by
  have hend : ∀ c, isKeyEnd c = true → isNamePart c = false := by decide +kernel
  exact fun c hc => hend c (h c hc)

/-- What ends a key begins with no other byte. -/
theorem KeyEnds.ne_cons {x : Text} (h : KeyEnds x) {c : UInt8} (hc : isKeyEnd c = false)
    (y : Text) : x ≠ c :: y := by
  rintro rfl
  rw [h c rfl] at hc
  cases hc

/-- What stands at the front of a key: a mark, or a word with or without brackets. -/
inductive Front where
  | mark (c : UInt8)
  | word (name : Text) (opens : Bool)

def front : Outline → Front
  | omitted => .mark (Text.byte '<')
  | word name => .word name false
  | applied head _ => .word head true
  | var _ _ _ => .mark (Text.byte '~')
  | optional _ => .mark (Text.byte '?')
  | callable _ _ => .word (text "F") true
  | variadic _ => .word (text "F") true
  | annotated _ _ => .word (text "A") true
  | values _ => .word Name.literal true

/-- A text begins with a front. -/
inductive Front.Begins : Front → Text → Prop where
  | mark {c : UInt8} {x : Text} : isNamePart c = false → isKeyEnd c = false →
    Begins (.mark c) (c :: x)
  | word {n x : Text} : isIdentifier n = true → KeyEnds x → Begins (.word n false) (n ++ x)
  | opens {n x : Text} : isIdentifier n = true → Begins (.word n true) (n ++ Text.byte '[' :: x)

/-- A byte that stands in front of a key, and not behind one. -/
def isKeyStart (c : UInt8) : Bool :=
  !isKeyEnd c && c != Text.byte '.'

/-- A key begins with a byte that begins a key. -/
theorem Front.Begins.exists_cons {f : Front} {x : Text} (h : f.Begins x) :
    ∃ c cs, x = c :: cs ∧ isKeyStart c = true := by
  -- Bytes that are neither part of a name nor the end of a key begin one.
  have hmark : ∀ c, isNamePart c = false → isKeyEnd c = false → isKeyStart c = true := by
    decide +kernel
  have hname : ∀ {n : Text}, isIdentifier n = true → ∃ c cs, n = c :: cs ∧ isKeyStart c = true := by
    have hstart : ∀ c, isNameStart c = true → isKeyStart c = true := by decide +kernel
    intro n hn
    cases n with
    | nil => cases hn
    | cons c cs =>
      rw [isIdentifier, Bool.and_eq_true] at hn
      exact ⟨c, cs, rfl, hstart c hn.1⟩
  cases h with
  | mark hc hend => exact ⟨_, _, rfl, hmark _ hc hend⟩
  | word hn _ =>
    obtain ⟨c, cs, rfl, hc⟩ := hname hn
    exact ⟨c, _, rfl, hc⟩
  | opens hn =>
    obtain ⟨c, cs, rfl, hc⟩ := hname hn
    exact ⟨c, _, rfl, hc⟩

/-- A text begins with one front. -/
theorem Front.Begins.unique {f g : Front} {x y : Text} (hf : f.Begins x) (hg : g.Begins y)
    (h : x = y) : f = g := by
  -- A name does not begin with a mark.
  have hmark : ∀ {n w z : Text} {c : UInt8}, isIdentifier n = true → isNamePart c = false →
      c :: w ≠ n ++ z := by
    intro n w z c hn hc h
    have hall := all_isNamePart hn
    cases n with
    | nil => cases hn
    | cons d ds =>
      rw [← (List.cons.inj h).1, List.all_cons, hc] at hall
      cases hall
  have hopening : ∀ z, Stops isNamePart (Text.byte '[' :: z) := stops_cons (by decide)
  -- Nine pairs of fronts: marks are told by their byte, names by where they end.
  cases hf with
  | mark hc _ =>
    cases hg with
    | mark _ _ => rw [(List.cons.inj h).1]
    | word hn _ => exact absurd h (hmark hn hc)
    | opens hn => exact absurd h (hmark hn hc)
  | word hn hx =>
    cases hg with
    | mark hc _ => exact absurd h.symm (hmark hn hc)
    | word hm hy =>
      rw [(run_split (all_isNamePart hn) (all_isNamePart hm) hx.stops hy.stops h).1]
    | opens hm =>
      obtain ⟨-, hrest⟩ :=
        run_split (all_isNamePart hn) (all_isNamePart hm) hx.stops (hopening _) h
      exact absurd hrest (hx.ne_cons (by decide) _)
  | opens hn =>
    cases hg with
    | mark hc _ => exact absurd h.symm (hmark hn hc)
    | word hm hy =>
      obtain ⟨-, hrest⟩ :=
        run_split (all_isNamePart hn) (all_isNamePart hm) (hopening _) hy.stops h
      exact absurd hrest.symm (hy.ne_cons (by decide) _)
    | opens hm =>
      rw [(run_split (all_isNamePart hn) (all_isNamePart hm) (hopening _) (hopening _) h).1]

variable {voc : Vocabulary} {a b : Outline} {x y : Text}

/-- The key of a legible outline begins with its front. -/
theorem Legible.begins (h : a.Legible voc) (hx : KeyEnds x) : a.front.Begins (a.key ++ x) := by
  -- A name with a bracket behind it opens a list of keys.
  have hword : ∀ {n t : Text}, isIdentifier n = true →
      (Front.word n true).Begins (n ++ Text.bracketed t ++ x) := by
    intro n t hn
    rw [List.append_assoc]
    exact .opens hn
  cases h with
  | omitted => exact .mark (by decide) (by decide)
  | word hn => exact .word (voc.isIdentifier _ hn) hx
  | applied hn _ => exact hword (voc.isIdentifier _ hn)
  | declared _ _ => exact .mark (by decide) (by decide)
  | free _ _ _ _ => exact .mark (by decide) (by decide)
  | optional _ => exact .mark (by decide) (by decide)
  | callable _ _ => exact .opens (n := text "F") (by decide)
  | variadic _ => exact .opens (n := text "F") (by decide)
  | annotated _ => exact hword (by decide)
  | values _ => exact hword (by decide)

/-- The key of a legible outline is not empty. -/
theorem Legible.key_begins (h : a.Legible voc) : ∃ c cs, a.key = c :: cs ∧ isKeyStart c = true := by
  simpa using (h.begins (x := []) (fun c hc => nomatch hc)).exists_cons

/-! ### Reading two keys in parallel -/

/-- Wherever a key is the same as that of another outline, up to where both end, the outlines are
the same, and so is what follows. -/
def Decodes (voc : Vocabulary) (a : Outline) : Prop :=
  ∀ b : Outline, b.Legible voc → ∀ x y, KeyEnds x → KeyEnds y → a.key ++ x = b.key ++ y →
    a = b ∧ x = y

/-- Two lists of keys are read off in parallel. -/
theorem keyList_split {as bs : List Outline} (has : ∀ a ∈ as, a.Legible voc)
    (hdecodes : ∀ a ∈ as, Decodes voc a) (hbs : ∀ b ∈ bs, b.Legible voc)
    (h : TypeExpr.keyList (keyAll as) ++ x = TypeExpr.keyList (keyAll bs) ++ y) :
    as = bs ∧ x = y := by
  -- No key begins with the closing bracket.
  have hbegins : ∀ {a : Outline}, a.Legible voc → ∃ c cs, a.key = c :: cs ∧ c ≠ Text.byte ']' := by
    intro a ha
    obtain ⟨c, cs, hkey, hc⟩ := ha.key_begins
    refine ⟨c, cs, hkey, ?_⟩
    rintro rfl
    exact absurd hc (by decide)
  -- A key in a list is ended by a comma or by the closing bracket.
  have hend : ∀ {c : UInt8} (z : Text), c = Text.byte ',' ∨ c = Text.byte ']' →
      KeyEnds (c :: z) := by
    rintro c z (rfl | rfl) <;> exact keyEnds_cons (by decide) z
  rw [TypeExpr.keyList, TypeExpr.keyList, bracketed_append, bracketed_append, keyAll_eq_map,
    keyAll_eq_map] at h
  have hlists := join_split key id (Text.byte ',') (Text.byte ']') [] (by decide)
    (fun a ha => hbegins (has a ha)) (fun b hb => hbegins (hbs b hb))
    (fun a ha b hb c z d w hc hd => hdecodes a ha b (hbs b hb) _ _ (hend z hc) (hend w hd))
    (List.cons.inj h).2
  simpa using hlists

/-- A list of keys is no ellipsis. -/
theorem keyList_ne_ellipsis {as : List Outline} (has : ∀ a ∈ as, a.Legible voc) (x y : Text) :
    TypeExpr.keyList (keyAll as) ++ x ≠ text "[...]" ++ y := by
  intro h
  rw [TypeExpr.keyList, bracketed_append] at h
  have htail := (List.cons.inj h).2
  -- The first key of the list cannot begin with a dot.
  cases as with
  | nil => exact absurd (List.cons.inj htail).1 (by decide)
  | cons a as =>
    obtain ⟨c, cs, hkey, hc⟩ := (has a (by simp)).key_begins
    obtain ⟨rest, hrest, -⟩ :=
      join_cons_append (Text.byte ',') (Text.byte ']') [] a.key (keyAll as) x
    have hfirst : c :: (cs ++ rest) = Text.byte '.' :: (text "..]" ++ y) := by
      rw [← List.cons_append, ← hkey, ← hrest]
      exact htail
    rw [(List.cons.inj hfirst).1] at hc
    exact absurd hc (by decide)

/-- A list of keys is no key with constraints behind it. -/
theorem keyList_ne_annotated {as : List Outline} {inner : Outline} (hinner : inner.Legible voc)
    (hsplit : ∀ a ∈ as, ∀ z w, KeyEnds z → KeyEnds w → a.key ++ z = inner.key ++ w → z = w)
    (t x y : Text) :
    TypeExpr.keyList (keyAll as) ++ x ≠ Text.bracketed (inner.key ++ text ";" ++ t) ++ y := by
  intro h
  rw [TypeExpr.keyList, bracketed_append, bracketed_append] at h
  have htail := (List.cons.inj h).2
  rw [List.append_assoc, List.append_assoc] at htail
  cases as with
  | nil =>
    obtain ⟨c, cs, hkey, hc⟩ := hinner.key_begins
    rw [hkey] at htail
    rw [← (List.cons.inj htail).1] at hc
    exact absurd hc (by decide)
  | cons a as =>
    obtain ⟨rest, hrest, hrest'⟩ :=
      join_cons_append (Text.byte ',') (Text.byte ']') [] a.key (keyAll as) x
    have hkeys : a.key ++ rest = inner.key ++ Text.byte ';' :: (t ++ Text.byte ']' :: y) := by
      rw [← hrest]
      exact htail
    -- behind the first key stands a comma or a bracket, and no semicolon
    obtain ⟨-, rfl⟩ | ⟨-, rfl⟩ := hrest'
    · have hrests := hsplit a (by simp) _ _ (keyEnds_cons (by decide) _)
        (keyEnds_cons (by decide) _) hkeys
      exact absurd (List.cons.inj hrests).1 (by decide)
    · have hrests := hsplit a (by simp) _ _ (keyEnds_cons (by decide) _)
        (keyEnds_cons (by decide) _) hkeys
      exact absurd (List.cons.inj hrests).1 (by decide)

/-- The constraints behind a key. -/
theorem metadata_split {ms ns : List Text}
    (h : Text.bracketed (Text.join (text " ") (ms.map Quoted.quote)) ++ x =
      Text.bracketed (Text.join (text " ") (ns.map Quoted.quote)) ++ y) : ms = ns ∧ x = y := by
  have hbegins : ∀ m, ∃ c cs, Quoted.quote m = c :: cs ∧ c ≠ Text.byte ']' :=
    fun m => ⟨_, _, rfl, by decide⟩
  rw [bracketed_append, bracketed_append] at h
  have hlists := join_split Quoted.quote id (Text.byte ' ') (Text.byte ']') [] (by decide)
    (fun m _ => hbegins m) (fun n _ => hbegins n) (fun m _ n _ c z d w _ _ => quote_split)
    (List.cons.inj h).2
  simpa using hlists

/-- The alternatives of a variable, up to where its restrictions end. -/
def alternativesKey (as : List Outline) (x : Text) : Text :=
  (keyAll as).flatMap (text "|" ++ ·) ++ Text.byte '>' :: x

/-- The alternatives with what follows: a bar, the first key and the others. -/
theorem alternativesKey_cons (a : Outline) (as : List Outline) (x : Text) :
    alternativesKey (a :: as) x = Text.byte '|' :: (a.key ++ alternativesKey as x) := by
  simp [alternativesKey, text, Text.byte]

/-- What follows a key among alternatives ends it. -/
theorem keyEnds_alternativesKey (as : List Outline) (x : Text) :
    KeyEnds (alternativesKey as x) := by
  cases as with
  | nil => exact keyEnds_cons (by decide) x
  | cons a as =>
    rw [alternativesKey_cons]
    exact keyEnds_cons (by decide) _

/-- Two lists of alternatives are read off in parallel. -/
theorem alternativesKey_split {as bs : List Outline} (hdecodes : ∀ a ∈ as, Decodes voc a)
    (hbs : ∀ b ∈ bs, b.Legible voc) (h : alternativesKey as x = alternativesKey bs y) :
    as = bs ∧ x = y := by
  -- The closing bracket ends the alternatives, and a bar begins another one.
  induction as generalizing bs with
  | nil =>
    cases bs with
    | nil => exact ⟨rfl, (List.cons.inj h).2⟩
    | cons b bs =>
      rw [alternativesKey_cons] at h
      exact absurd (List.cons.inj h).1 (by decide)
  | cons a as ih =>
    rw [alternativesKey_cons] at h
    cases bs with
    | nil => exact absurd (List.cons.inj h).1 (by decide)
    | cons b bs =>
      rw [alternativesKey_cons] at h
      obtain ⟨ha, has⟩ := List.forall_mem_cons.1 hdecodes
      obtain ⟨hb, hbs'⟩ := List.forall_mem_cons.1 hbs
      obtain ⟨rfl, hrest⟩ := ha b hb _ _ (keyEnds_alternativesKey as x)
        (keyEnds_alternativesKey bs y) (List.cons.inj h).2
      obtain ⟨rfl, rfl⟩ := ih has hbs' hrest
      exact ⟨rfl, rfl⟩

/-- What a key says of the restrictions of a variable. -/
def restriction (bound : Outline) (as : List Outline) : Text :=
  restrictionKey (if bound.isOmitted then none else some bound.key) (keyAll as)

/-- The restrictions of a variable with what follows: none, only alternatives, or a bound. -/
theorem restriction_cases (bound : Outline) (as : List Outline) (x : Text) :
    (bound = .omitted ∧ as = [] ∧ restriction bound as ++ x = x) ∨
    (bound = .omitted ∧ as ≠ [] ∧
      restriction bound as ++ x = Text.byte '<' :: alternativesKey as x) ∨
    (bound ≠ .omitted ∧
      restriction bound as ++ x = Text.byte '<' :: (bound.key ++ alternativesKey as x)) := by
  rw [restriction]
  -- The alternatives come after the bound, but without a bound nothing is before them.
  by_cases hbound : bound.isOmitted = true
  · have hbound' := isOmitted_iff.1 hbound
    cases as with
    | nil => exact .inl ⟨hbound', rfl, by simp [hbound]⟩
    | cons a as =>
      refine .inr (.inl ⟨hbound', by simp, ?_⟩)
      simp [hbound, alternativesKey, text, Text.byte]
  · refine .inr (.inr ⟨fun h => hbound (isOmitted_iff.2 h), ?_⟩)
    simp [hbound, alternativesKey, text, Text.byte]

/-- The restrictions of a variable end its name. -/
theorem stops_restriction (bound : Outline) (as : List Outline) (hx : KeyEnds x) :
    Stops isNamePart (restriction bound as ++ x) := by
  obtain ⟨-, -, htail⟩ | ⟨-, -, htail⟩ | ⟨-, htail⟩ := restriction_cases bound as x
  · rw [htail]
    exact hx.stops
  · rw [htail]
    exact stops_cons (by decide) _
  · rw [htail]
    exact stops_cons (by decide) _

/-- The restrictions of two variables are read off in parallel. -/
theorem restriction_split {bound bound' : Outline} {as bs : List Outline}
    (hbound : bound.Legible voc) (hdecodes : Decodes voc bound) (has : ∀ a ∈ as, Decodes voc a)
    (hbound' : bound'.Legible voc) (hbs : ∀ b ∈ bs, b.Legible voc) (hx : KeyEnds x) (hy : KeyEnds y)
    (h : restriction bound as ++ x = restriction bound' bs ++ y) :
    bound = bound' ∧ as = bs ∧ x = y := by
  -- A key is not taken for the beginning of alternatives.
  have hne : ∀ {a : Outline} (z w : Text) (cs : List Outline), a.Legible voc →
      a.key ++ z ≠ alternativesKey cs w := by
    intro a z w cs ha hkeys
    obtain ⟨c, ks, hkey, hc⟩ := ha.key_begins
    rw [hkey, List.cons_append] at hkeys
    have hend := keyEnds_alternativesKey cs w c (by rw [← hkeys]; rfl)
    rw [isKeyStart, hend] at hc
    cases hc
  -- Both variables may have no restrictions, alternatives alone, or a bound: three cases agree, and
  -- six differ in their first bytes.
  obtain ⟨h₁, hl₁, htail⟩ | ⟨h₁, hl₁, htail⟩ | ⟨h₁, htail⟩ := restriction_cases bound as x <;>
    obtain ⟨h₂, hl₂, htail'⟩ | ⟨h₂, hl₂, htail'⟩ | ⟨h₂, htail'⟩ :=
      restriction_cases bound' bs y <;>
    rw [htail, htail'] at h
  · exact ⟨h₁.trans h₂.symm, hl₁.trans hl₂.symm, h⟩
  · exact absurd h (hx.ne_cons (by decide) _)
  · exact absurd h (hx.ne_cons (by decide) _)
  · exact absurd h.symm (hy.ne_cons (by decide) _)
  · exact ⟨h₁.trans h₂.symm, alternativesKey_split has hbs (List.cons.inj h).2⟩
  · exact absurd (List.cons.inj h).2.symm (hne _ _ _ hbound')
  · exact absurd h.symm (hy.ne_cons (by decide) _)
  · exact absurd (List.cons.inj h).2 (hne _ _ _ hbound)
  · obtain ⟨rfl, hrest⟩ := hdecodes bound' hbound' _ _ (keyEnds_alternativesKey as x)
      (keyEnds_alternativesKey bs y) (List.cons.inj h).2
    exact ⟨rfl, alternativesKey_split has hbs hrest⟩

/-! ### One lemma for each kind of outline -/

/-- Equal keys have equal fronts. -/
theorem front_eq_of_key (ha : a.Legible voc) (hb : b.Legible voc) (hx : KeyEnds x) (hy : KeyEnds y)
    (h : a.key ++ x = b.key ++ y) : a.front = b.front :=
  (ha.begins hx).unique (hb.begins hy) h

/-- The omitted outline is read off by its front. -/
theorem decodes_omitted : Decodes voc .omitted := by
  intro b hb x y hx hy h
  have hfront := front_eq_of_key .omitted hb hx hy h
  cases hb with
  | omitted => exact ⟨rfl, List.append_cancel_left h⟩
  | _ => exact absurd hfront (by simp [front, Text.byte])

/-- A class without arguments is read off by its name. -/
theorem decodes_word {n : Text} (hn : voc.isClass n) : Decodes voc (.word n) := by
  intro b hb x y hx hy h
  have hfront := front_eq_of_key (.word hn) hb hx hy h
  cases hb with
  | word _ =>
    cases hfront
    exact ⟨rfl, List.append_cancel_left h⟩
  | _ => cases hfront

/-- A literal type is read off by its values; its word names no class. -/
theorem decodes_values {vs : List Literal} (hclass : ¬ voc.isClass Name.literal) :
    Decodes voc (.values (vs.map Literal.render)) := by
  intro b hb x y hx hy h
  have hfront := front_eq_of_key (.values hclass) hb hx hy h
  -- By its front, the other outline is a literal type or a class applied to arguments.
  cases hb with
  | values _ =>
    simp only [key, List.append_assoc] at h
    have htail := List.append_cancel_left h
    rw [bracketed_append, bracketed_append] at htail
    obtain ⟨hvs, hxy⟩ := Literal.renders_split (List.cons.inj htail).2
    exact ⟨by rw [hvs], hxy⟩
  | applied hn _ =>
    cases hfront
    exact absurd hn hclass
  | _ => cases hfront

/-- A union spelled `Optional` is read off by its members. -/
theorem decodes_optional {members : List Outline} (hmembers : ∀ a ∈ members, a.Legible voc)
    (hdecodes : ∀ a ∈ members, Decodes voc a) : Decodes voc (.optional members) := by
  intro b hb x y hx hy h
  have hfront := front_eq_of_key (.optional hmembers) hb hx hy h
  cases hb with
  | optional hmembers' =>
    simp only [key, List.append_assoc] at h
    obtain ⟨rfl, hxy⟩ := keyList_split hmembers hdecodes hmembers' (List.append_cancel_left h)
    exact ⟨rfl, hxy⟩
  | _ => exact absurd hfront (by simp [front, Text.byte])

/-- A class applied to arguments is read off by its name and the keys of its arguments. -/
theorem decodes_applied {n : Text} {args : List Outline} (hn : voc.isClass n)
    (hargs : ∀ a ∈ args, a.Legible voc) (hdecodes : ∀ a ∈ args, Decodes voc a) :
    Decodes voc (.applied n args) := by
  intro b hb x y hx hy h
  have hfront := front_eq_of_key (.applied hn hargs) hb hx hy h
  -- The word `F` may also be a class, and so may those of annotated and of literal types.
  cases hb with
  | applied _ hargs' =>
    cases hfront
    simp only [key, List.append_assoc] at h
    obtain ⟨rfl, hxy⟩ := keyList_split hargs hdecodes hargs' (List.append_cancel_left h)
    exact ⟨rfl, hxy⟩
  | callable hparams _ =>
    -- behind the parameters stands an arrow
    cases hfront
    simp only [key, List.append_assoc] at h
    obtain ⟨-, hrest⟩ := keyList_split hargs hdecodes hparams (List.append_cancel_left h)
    exact absurd hrest (hx.ne_cons (by decide) _)
  | variadic _ =>
    cases hfront
    simp only [key, List.append_assoc] at h
    exact absurd (List.append_cancel_left h) (keyList_ne_ellipsis hargs _ _)
  | @annotated inner _ hinner =>
    cases hfront
    simp only [key, List.append_assoc] at h
    refine absurd (List.append_cancel_left h) ?_
    rw [← List.append_assoc inner.key]
    exact keyList_ne_annotated hinner
      (fun a ha z w hz hw hkeys => (hdecodes a ha inner hinner z w hz hw hkeys).2) _ _ _
  | values hclass =>
    -- the word for literal types names no class
    cases hfront
    exact absurd hn hclass
  | _ => cases hfront

/-- A callable is read off by its parameters and its result. -/
theorem decodes_callable {params : List Outline} {result : Outline}
    (hparams : ∀ a ∈ params, a.Legible voc) (hdecodes : ∀ a ∈ params, Decodes voc a)
    (hresult : result.Legible voc) (hresult' : Decodes voc result) :
    Decodes voc (.callable params result) := by
  intro b hb x y hx hy h
  have hfront := front_eq_of_key (.callable hparams hresult) hb hx hy h
  -- The key of a callable begins like that of a class `F`, so three forms are left.
  cases hb with
  | applied _ hargs =>
    cases hfront
    simp only [key, List.append_assoc] at h
    obtain ⟨-, hrest⟩ := keyList_split hparams hdecodes hargs (List.append_cancel_left h)
    exact absurd hrest.symm (hy.ne_cons (by decide) _)
  | callable hparams' hr =>
    simp only [key, List.append_assoc] at h
    obtain ⟨rfl, hrest⟩ := keyList_split hparams hdecodes hparams' (List.append_cancel_left h)
    obtain ⟨rfl, hxy⟩ := hresult' _ hr x y hx hy (List.append_cancel_left hrest)
    exact ⟨rfl, hxy⟩
  | variadic _ =>
    simp only [key, List.append_assoc] at h
    exact absurd (List.append_cancel_left h) (keyList_ne_ellipsis hparams _ _)
  | _ => exact absurd hfront (by simp [front, text, Name.literal])

/-- A callable that accepts every parameter list is read off by its result. -/
theorem decodes_variadic {result : Outline} (hresult : result.Legible voc)
    (hdecodes : Decodes voc result) : Decodes voc (.variadic result) := by
  intro b hb x y hx hy h
  have hfront := front_eq_of_key (.variadic hresult) hb hx hy h
  -- As above; here the list of parameters would have to be an ellipsis.
  cases hb with
  | applied _ hargs =>
    cases hfront
    simp only [key, List.append_assoc] at h
    exact absurd (List.append_cancel_left h).symm (keyList_ne_ellipsis hargs _ _)
  | callable hparams _ =>
    simp only [key, List.append_assoc] at h
    exact absurd (List.append_cancel_left h).symm (keyList_ne_ellipsis hparams _ _)
  | variadic hr =>
    simp only [key, List.append_assoc] at h
    have hrest := List.append_cancel_left (List.append_cancel_left (List.append_cancel_left h))
    obtain ⟨rfl, hxy⟩ := hdecodes _ hr x y hx hy hrest
    exact ⟨rfl, hxy⟩
  | _ => exact absurd hfront (by simp [front, text, Name.literal])

/-- An annotated type is read off by its inner key and its metadata. -/
theorem decodes_annotated {inner : Outline} {metadata : List Text} (hinner : inner.Legible voc)
    (hdecodes : Decodes voc inner) : Decodes voc (.annotated inner metadata) := by
  intro b hb x y hx hy h
  have hfront := front_eq_of_key (.annotated hinner) hb hx hy h
  -- Of the other forms only a class of the name `Annotated` begins so.
  cases hb with
  | applied _ hargs =>
    cases hfront
    simp only [key, List.append_assoc] at h
    refine absurd (List.append_cancel_left h).symm ?_
    rw [← List.append_assoc inner.key]
    refine keyList_ne_annotated hinner (fun a ha z w hz hw hkeys => ?_) _ _ _
    exact (hdecodes a (hargs a ha) w z hw hz hkeys.symm).2.symm
  | annotated hinner' =>
    simp only [key, List.append_assoc] at h
    have hbrackets := List.append_cancel_left h
    rw [bracketed_append, bracketed_append, List.append_assoc, List.append_assoc, List.append_assoc,
      List.append_assoc] at hbrackets
    obtain ⟨rfl, hrest⟩ := hdecodes _ hinner' _ _ (keyEnds_cons (by decide) _)
      (keyEnds_cons (by decide) _) (List.cons.inj hbrackets).2
    obtain ⟨rfl, hxy⟩ := metadata_split (List.cons.inj hrest).2
    exact ⟨rfl, (List.cons.inj hxy).2⟩
  | _ => exact absurd hfront (by simp [front, text, Name.literal])

/-- The name of a variable stands out in front of its restrictions. -/
theorem var_split {n m : Text} {bound bound' : Outline} {as bs : List Outline}
    (hn : isIdentifier n = true) (hm : isIdentifier m = true) (hx : KeyEnds x) (hy : KeyEnds y)
    (h : (Outline.var n bound as).key ++ x = (Outline.var m bound' bs).key ++ y) :
    n = m ∧ restriction bound as ++ x = restriction bound' bs ++ y := by
  simp only [key, ← restriction.eq_def, List.append_assoc] at h
  exact run_split (all_isNamePart hn) (all_isNamePart hm) (stops_restriction bound as hx)
    (stops_restriction bound' bs hy) (List.append_cancel_left h)

/-- A variable with the restrictions of its declaration is read off by its name. -/
theorem decodes_declared {n : Text} {bound : Outline} {as : List Outline}
    (hn : isIdentifier n = true) (hdeclared : voc.declared n = some (bound, as)) :
    Decodes voc (.var n bound as) := by
  intro b hb x y hx hy h
  have hfront := front_eq_of_key (.declared hn hdeclared) hb hx hy h
  cases hb with
  | declared hm hdeclared' =>
    -- one name has one declaration, so the restrictions need not be read
    obtain ⟨rfl, hrest⟩ := var_split hn hm hx hy h
    rw [hdeclared] at hdeclared'
    cases hdeclared'
    exact ⟨rfl, List.append_cancel_left hrest⟩
  | free hm hnone _ _ =>
    obtain ⟨rfl, -⟩ := var_split hn hm hx hy h
    rw [hdeclared] at hnone
    cases hnone
  | _ => exact absurd hfront (by simp [front, Text.byte])

/-- A variable that is not declared is read off by its name and its restrictions. -/
theorem decodes_free {n : Text} {bound : Outline} {as : List Outline} (hn : isIdentifier n = true)
    (hnone : voc.declared n = none) (hbound : bound.Legible voc) (hdecodes : Decodes voc bound)
    (has : ∀ a ∈ as, a.Legible voc) (hdecodes' : ∀ a ∈ as, Decodes voc a) :
    Decodes voc (.var n bound as) := by
  intro b hb x y hx hy h
  have hfront := front_eq_of_key (.free hn hnone hbound has) hb hx hy h
  -- A name that is not declared tells that the other variable is not declared either.
  cases hb with
  | declared hm hdeclared =>
    obtain ⟨rfl, -⟩ := var_split hn hm hx hy h
    rw [hnone] at hdeclared
    cases hdeclared
  | free hm _ hbound' hbs =>
    obtain ⟨rfl, hrest⟩ := var_split hn hm hx hy h
    obtain ⟨rfl, rfl, hxy⟩ := restriction_split hbound hdecodes hdecodes' hbound' hbs hx hy hrest
    exact ⟨rfl, hxy⟩
  | _ => exact absurd hfront (by simp [front, Text.byte])

/-- Every legible outline can be read off its key. -/
theorem decodes_of_legible (h : a.Legible voc) : Decodes voc a := by
  -- By induction on the outline, with one lemma for each form.
  induction h with
  | omitted => exact decodes_omitted
  | word hn => exact decodes_word hn
  | applied hn hargs ih => exact decodes_applied hn hargs ih
  | declared hn hdeclared => exact decodes_declared hn hdeclared
  | free hn hnone hbound has ih₁ ih₂ => exact decodes_free hn hnone hbound ih₁ has ih₂
  | optional hmembers ih => exact decodes_optional hmembers ih
  | callable hparams hresult ih₁ ih₂ => exact decodes_callable hparams ih₁ hresult ih₂
  | variadic hresult ih => exact decodes_variadic hresult ih
  | annotated hinner ih => exact decodes_annotated hinner ih
  | values hclass => exact decodes_values hclass

end Outline

/-- Two expressions with legible outlines have the same key exactly when they have the same
outline. -/
theorem TypeExpr.key_eq_iff {voc : Vocabulary} {s t : TypeExpr} (hs : s.outline.Legible voc)
    (ht : t.outline.Legible voc) : s.key = t.key ↔ s.outline = t.outline := by
  constructor
  · intro h
    rw [← key_outline, ← key_outline] at h
    exact (Outline.decodes_of_legible hs t.outline ht [] [] (fun c hc => nomatch hc)
      (fun c hc => nomatch hc) (congrArg (· ++ []) h)).1
  · intro h
    rw [← key_outline, ← key_outline, h]

end TypeShape
