import TypeShape.Package.Import

/-!
# Identical types have one expression

Two types of packages are identical if they are the same once other names for types are seen
through.  Converting a type into an expression sees through other names as well, with two
exceptions.  Other names in a row use up a level of the conversion, and what lies below the last level
is `Any`.  And a slice is one of bytes only if its elements are called bytes: a slice of another name
for bytes is a list of integers.

How interfaces are compared does not matter: an interface without a name is `Any`, whatever its
methods are.

## Key results

- `PackageType.same_self`: a type is identical to itself
- `PackageType.alike_of_same`: what identical types have in common
- `Importer.typeExpr_of_same`: identical types that are converted in full have the same expression,
  however interfaces are compared
- `Packages.identical_self`: what packages take for identical includes every type itself
-/

namespace TypeShape

namespace PackageType

section

variable {ν : Type}

/-- A type whose other names are seen through is no other name. -/
@[simp] theorem isAliased_unaliased (t : PackageType ν) : t.unaliased.isAliased = false := by
  match t with
  | .aliased _ t => exact isAliased_unaliased t
  | .named .. | .pointer _ | .slice _ | .array .. | .map .. | .channel .. | .func .. | .struct ..
  | .interface .. => rfl

/-- Other names are seen through at once. -/
@[simp] theorem unaliased_unaliased (t : PackageType ν) : t.unaliased.unaliased = t.unaliased := by
  match t with
  | .aliased _ t => exact unaliased_unaliased t
  | .named .. | .pointer _ | .slice _ | .array .. | .map .. | .channel .. | .func .. | .struct ..
  | .interface .. => rfl

end

section

variable {interfaces : ResolvedType → ResolvedType → Bool}

/-- Other names are seen through on the left. -/
@[simp] theorem same_unaliased_left (t u : ResolvedType) :
    t.unaliased.same interfaces u = t.same interfaces u := by
  match t with
  | .aliased _ t =>
    rw [unaliased, same]
    exact same_unaliased_left t u
  | .named .. | .pointer _ | .slice _ | .array .. | .map .. | .channel .. | .func .. | .struct ..
  | .interface .. => rfl

/-- Other names are seen through on the right as well. -/
@[simp] theorem same_unaliased_right (t u : ResolvedType) :
    t.same interfaces u.unaliased = t.same interfaces u := by
  match t with
  | .aliased _ t =>
    rw [same, same]
    exact same_unaliased_right t u
  | .named .. | .pointer _ | .slice _ | .array .. | .map .. | .channel .. | .func .. | .struct ..
  | .interface .. => simp only [same, unaliased_unaliased]

/-- Identity sees through another name on the right. -/
theorem same_aliased (t u : ResolvedType) (name : Text) :
    t.same interfaces (.aliased name u) = t.same interfaces u := by
  rw [← same_unaliased_right, unaliased, same_unaliased_right]

mutual

/-- A type is identical to itself if interfaces are. -/
theorem same_self (h : ∀ t, interfaces t t = true) (t : ResolvedType) :
    t.same interfaces t = true := by
  -- By the shape of the type; another name for a type is left out on both sides.
  match t with
  | .named head args => simp [same, unaliased, sameAll_self h args]
  | .aliased name t =>
    rw [same, same_aliased]
    exact same_self h t
  | .pointer t | .slice t | .channel t _ => simp [same, unaliased, same_self h t]
  | .array n t => simp [same, unaliased, same_self h t]
  | .map k t => simp [same, unaliased, same_self h k, same_self h t]
  | .func ps rs v => simp [same, unaliased, sameAll_self h ps, sameAll_self h rs]
  | .struct fs home => simp [same, unaliased, sameFields_self h home fs]
  | .interface ms es home => simp [same, unaliased, h]

/-- So it is for lists of types. -/
theorem sameAll_self (h : ∀ t, interfaces t t = true) (ts : List ResolvedType) :
    sameAll interfaces ts ts = true := by
  match ts with
  | [] => rfl
  | t :: ts => simp [sameAll, same_self h t, sameAll_self h ts]

/-- So it is for the fields of one package. -/
theorem sameFields_self (h : ∀ t, interfaces t t = true) (home : Text)
    (fs : List (Option Text × ResolvedType)) :
    sameFields interfaces home home fs fs = true := by
  match fs with
  | [] => rfl
  | (name, t) :: fs => simp [sameFields, same_self h t, sameFields_self h home fs]

end

/-- Two types that are no other names are made in the same way of identical parts.  What interfaces
and structures are made of does not matter here. -/
inductive Alike (interfaces : ResolvedType → ResolvedType → Bool) :
    ResolvedType → ResolvedType → Prop where
  | named (head : TypeHead) {as bs : List ResolvedType} :
    sameAll interfaces as bs = true → Alike interfaces (.named head as) (.named head bs)
  | pointer {t u : ResolvedType} :
    t.same interfaces u = true → Alike interfaces (.pointer t) (.pointer u)
  | slice {t u : ResolvedType} :
    t.same interfaces u = true → Alike interfaces (.slice t) (.slice u)
  | array (n : Nat) {t u : ResolvedType} :
    t.same interfaces u = true → Alike interfaces (.array n t) (.array n u)
  | map {k l t u : ResolvedType} : k.same interfaces l = true → t.same interfaces u = true →
    Alike interfaces (.map k t) (.map l u)
  | channel (t u : ResolvedType) (d : ChannelDirection) :
    Alike interfaces (.channel t d) (.channel u d)
  | func {ps qs rs ss : List ResolvedType} (v : Bool) : sameAll interfaces ps qs = true →
    sameAll interfaces rs ss = true → Alike interfaces (.func ps rs v) (.func qs ss v)
  | struct (fs gs : List (Option Text × ResolvedType)) (home home' : Text) :
    Alike interfaces (.struct fs home) (.struct gs home')
  | interface (ms ns : List (Text × ResolvedType)) (es fs : List (List ResolvedType))
    (home home' : Text) : Alike interfaces (.interface ms es home) (.interface ns fs home')

/-- Identical types are alike once other names for them are seen through. -/
theorem alike_of_same {t u : ResolvedType} (h : t.same interfaces u = true) :
    Alike interfaces t.unaliased u.unaliased := by
  rw [← same_unaliased_left, ← same_unaliased_right] at h
  have ht := isAliased_unaliased t
  have hu := unaliased_unaliased u
  generalize t.unaliased = t at h ht
  generalize u.unaliased = u at h hu
  cases t
  case aliased => cases ht
  all_goals
    rw [same, hu] at h
    cases u
  -- Types that are made in different ways are not identical.
  all_goals simp only [Bool.and_eq_true, beq_iff_eq, Bool.false_eq_true] at h
  case named.named =>
    obtain ⟨rfl, hargs⟩ := h
    exact .named _ hargs
  case pointer.pointer => exact .pointer h
  case slice.slice => exact .slice h
  case array.array =>
    obtain ⟨rfl, h⟩ := h
    exact .array _ h
  case map.map => exact .map h.1 h.2
  case channel.channel =>
    obtain ⟨rfl, -⟩ := h
    exact .channel _ _ _
  case func.func =>
    obtain ⟨⟨hps, hrs⟩, rfl⟩ := h
    exact .func _ hps hrs
  case struct.struct => exact .struct _ _ _ _
  case interface.interface => exact .interface _ _ _ _ _ _

/-- Types that are alike agree in whether they are the type of bytes. -/
theorem Alike.isByte_eq {t u : ResolvedType} (h : Alike interfaces t u) : t.isByte = u.isByte := by
  cases h with
  | named head _ => cases head <;> rfl
  | _ => rfl

end

mutual

/-- Whether a type is converted in full when `room` levels may still be entered: no part of it lies
deeper, and no slice has another name for bytes as its elements. -/
def converts (room : Nat) : ResolvedType → Bool
  | .named _ args => room != 0 && convertsAll (room - 1) args
  | .aliased _ target =>
    if target.isAliased then converts room target else room != 0 && converts (room - 1) target
  | .pointer target => room != 0 && converts (room - 1) target
  | .slice elem =>
    room != 0 && elem.unaliased.isByte == elem.isByte && (elem.isByte || converts (room - 1) elem)
  | .array _ elem => room != 0 && converts (room - 1) elem
  | .map key value => room != 0 && converts (room - 1) key && converts (room - 1) value
  | .func params results _ =>
    room != 0 && convertsAll (room - 1) params && convertsAll (room - 1) results
  | .channel _ _ => true
  | .struct _ _ => true
  | .interface _ _ _ => true

/-- `converts` on a list of types. -/
def convertsAll (room : Nat) : List ResolvedType → Bool
  | [] => true
  | t :: ts => converts room t && convertsAll room ts

end

end PackageType

namespace Importer

open PackageType

variable (imp : Importer) (vars : List TypeVar) {interfaces : ResolvedType → ResolvedType → Bool}

/-- What is converted through other names is converted with at most as many levels left. -/
theorem typeExpr_unaliased {m : Nat} {t : ResolvedType} (h : t.converts m = true) :
    ∃ k ≤ m, t.unaliased.converts k = true ∧
      imp.typeExpr vars m t = imp.typeExpr vars k t.unaliased := by
  -- A chain of names spends one level at its end; the names before it spend none.
  match t with
  | .aliased _ t =>
    rw [converts] at h
    split at h
    · rename_i halias
      obtain ⟨k, hk, hconverts, heq⟩ := typeExpr_unaliased h
      refine ⟨k, hk, hconverts, ?_⟩
      rw [typeExpr, if_pos halias]
      exact heq
    · rename_i halias
      rw [Bool.and_eq_true, bne_iff_ne] at h
      obtain ⟨k, hk, hconverts, heq⟩ := typeExpr_unaliased h.2
      refine ⟨k, by omega, hconverts, ?_⟩
      rw [typeExpr, if_neg halias, if_neg h.1]
      exact heq
  | .named .. | .pointer _ | .slice _ | .array .. | .map .. | .channel .. | .func .. | .struct ..
  | .interface .. => exact ⟨m, Nat.le_refl m, h, rfl⟩

/-- Identical lists of types have the same expressions if identical types have. -/
theorem typeExprs_of_sameAll {m n : Nat}
    (hsame : ∀ t u : ResolvedType, t.converts m = true → u.converts n = true →
      t.same interfaces u = true → imp.typeExpr vars m t = imp.typeExpr vars n u)
    {ts us : List ResolvedType} (hts : convertsAll m ts = true) (hus : convertsAll n us = true)
    (h : sameAll interfaces ts us = true) : imp.typeExprs vars m ts = imp.typeExprs vars n us := by
  -- The two lists have one length, because `sameAll` compares them to the end.
  induction ts generalizing us with
  | nil =>
    cases us with
    | nil => rfl
    | cons u us => simp [sameAll] at h
  | cons t ts ih =>
    cases us with
    | nil => simp [sameAll] at h
    | cons u us =>
      simp only [convertsAll, Bool.and_eq_true] at hts hus
      rw [sameAll, Bool.and_eq_true] at h
      rw [typeExprs, typeExprs, hsame t u hts.1 hus.1 h.1, ih hts.2 hus.2 h.2]

/-- Identical types that are converted in full have the same expression. -/
theorem typeExpr_of_same {m n : Nat} {t u : ResolvedType} (ht : t.converts m = true)
    (hu : u.converts n = true) (h : t.same interfaces u = true) :
    imp.typeExpr vars m t = imp.typeExpr vars n u := by
  -- By induction on the levels that are left for the first type; the second type may have a
  -- different number, because its other names stand in other places.
  induction m using Nat.strongRecOn generalizing n t u with
  | _ m ih =>
    obtain ⟨k, hk, ht, htexpr⟩ := imp.typeExpr_unaliased vars ht
    obtain ⟨l, -, hu, huexpr⟩ := imp.typeExpr_unaliased vars hu
    rw [htexpr, huexpr]
    have halike := alike_of_same h
    generalize t.unaliased = t at ht halike
    generalize u.unaliased = u at hu halike
    -- One level further down, fewer levels are left.
    have hbelow (hk' : k ≠ 0) (t u : ResolvedType) (ht : t.converts (k - 1) = true)
        (hu : u.converts (l - 1) = true) (h : t.same interfaces u = true) :
        imp.typeExpr vars (k - 1) t = imp.typeExpr vars (l - 1) u :=
      ih (k - 1) (by omega) ht hu h
    cases halike with
    | named head hargs =>
      simp only [converts, Bool.and_eq_true, bne_iff_ne] at ht hu
      unfold typeExpr
      rw [if_neg ht.1, if_neg hu.1, imp.typeExprs_of_sameAll vars (hbelow ht.1) ht.2 hu.2 hargs]
    | pointer hsame =>
      simp only [converts, Bool.and_eq_true, bne_iff_ne] at ht hu
      rw [typeExpr, typeExpr, if_neg ht.1, if_neg hu.1]
      exact hbelow ht.1 _ _ ht.2 hu.2 hsame
    | @slice t u hsame =>
      simp only [converts, Bool.and_eq_true, bne_iff_ne, beq_iff_eq] at ht hu
      have hbyte : t.isByte = u.isByte := by
        rw [← ht.1.2, ← hu.1.2]
        exact (alike_of_same hsame).isByte_eq
      rw [typeExpr, typeExpr, if_neg ht.1.1, if_neg hu.1.1, hbyte]
      split
      · rfl
      · rename_i hother
        simp only [hbyte, hother, Bool.false_or] at ht hu
        rw [hbelow ht.1.1 _ _ ht.2 hu.2 hsame]
    | array n hsame =>
      simp only [converts, Bool.and_eq_true, bne_iff_ne] at ht hu
      rw [typeExpr, typeExpr, if_neg ht.1, if_neg hu.1, hbelow ht.1 _ _ ht.2 hu.2 hsame]
    | map hkey hvalue =>
      simp only [converts, Bool.and_eq_true, bne_iff_ne] at ht hu
      rw [typeExpr, typeExpr, if_neg ht.1.1, if_neg hu.1.1,
        hbelow ht.1.1 _ _ ht.1.2 hu.1.2 hkey, hbelow ht.1.1 _ _ ht.2 hu.2 hvalue]
    | func v hparams hresults =>
      simp only [converts, Bool.and_eq_true, bne_iff_ne] at ht hu
      rw [typeExpr, typeExpr, if_neg ht.1.1, if_neg hu.1.1,
        imp.typeExprs_of_sameAll vars (hbelow ht.1.1) ht.1.2 hu.1.2 hparams,
        imp.typeExprs_of_sameAll vars (hbelow ht.1.1) ht.2 hu.2 hresults]
    | channel t u d => rw [typeExpr, typeExpr]
    | struct fs gs home home' => rw [typeExpr, typeExpr]
    | interface ms ns es fs home home' => rw [typeExpr, typeExpr]

end Importer

namespace Packages

variable (ps : Packages)

/-- A type is identical to itself, to whatever depth interfaces are compared. -/
theorem identicalFuel_self (fuel : Nat) (t : ResolvedType) : ps.identicalFuel fuel t t = true := by
  induction fuel generalizing t with
  | zero => exact PackageType.same_self (fun _ => rfl) t
  | succ fuel ih =>
    refine PackageType.same_self (fun t => ?_) t
    -- an interface has the same methods as itself, and their types are compared one level down
    have hpairs : ∀ p ∈ (ps.interfaceMethods t).zip (ps.interfaceMethods t), p.1 = p.2 := by
      intro p hp
      rw [List.zip_eq_zipWith, List.zipWith_self, List.mem_map] at hp
      obtain ⟨m, -, rfl⟩ := hp
      rfl
    simp only [beq_self_eq_true, Bool.true_and, List.all_eq_true]
    rintro ⟨m, n⟩ hp
    obtain rfl : m = n := hpairs _ hp
    simp [ih]

/-- Every type is identical to itself. -/
theorem identical_self (t : ResolvedType) : ps.identical t t = true :=
  ps.identicalFuel_self _ t

/-- To whatever depth interfaces are compared, identical types that are converted in full have the
same expression. -/
theorem exprOf_of_identical (imp : Importer) (vars : List TypeVar) {t u : ResolvedType}
    (ht : t.converts (maxRecursion + 1) = true) (hu : u.converts (maxRecursion + 1) = true)
    (h : ps.identical t u = true) : imp.exprOf vars t = imp.exprOf vars u := by
  -- Whatever is left of the depth, it is one way of comparing interfaces.
  have hsame : ∃ interfaces, t.same interfaces u = true := by
    unfold identical at h
    cases hfuel : (ps.size + t.size) * (ps.size + u.size) with
    | zero =>
      rw [hfuel] at h
      exact ⟨_, h⟩
    | succ fuel =>
      rw [hfuel] at h
      exact ⟨_, h⟩
  obtain ⟨interfaces, hsame⟩ := hsame
  exact imp.typeExpr_of_same vars ht hu hsame

end Packages

end TypeShape
