import TypeShape.Proofs.CompleteReading

/-!
# The names that a source mentions

What is read off a source depends on what its names stand for, and only on the names that it
mentions.  A name among the symbols of a source need not be mentioned: words of the grammar and the
names in a list of literals stand for the same in every scope.

## Key results

- `TypeExpr.parse_mono`: what is read where names stand for something is read where more names do
- `TypeExpr.parse_congr`: scopes that agree on the names mentioned read the same
- `TypeExpr.Mentions.occurs`: a name that is mentioned is among the symbols of the source
-/

namespace TypeShape

/-- The phrases of a scope are phrases of every scope in which the names among the symbols stand for
the same. -/
theorem Produces.mono {scope scope' : Scope} {phrase : Phrase} {ss : List Symbol}
    (h : Produces scope phrase ss)
    (hread : ∀ n, .name n ∈ ss → ∀ t, scope n = some t → scope' n = some t) :
    Produces scope' phrase ss := by
  -- Only the two forms with a name ask the scope; all others pass the hypothesis on.
  induction h with
  | single _ ih => exact .single (ih hread)
  | several _ _ hne ih₁ ih₂ =>
    exact .several (ih₁ fun n hn => hread n (by simp [hn]))
      (ih₂ fun n hn => hread n (by simp [hn])) hne
  | noAlternative => exact .noAlternative
  | alternative _ _ ih₁ ih₂ =>
    exact .alternative (ih₁ fun n hn => hread n (by simp [hn]))
      (ih₂ fun n hn => hread n (by simp [hn]))
  | any => exact .any
  | none => exact .none
  | nil => exact .nil
  | optional _ ih => exact .optional (ih fun n hn => hread n (by simp [hn]))
  | unionOfOne _ ih => exact .unionOfOne (ih fun n hn => hread n (by simp [hn]))
  | unionOfMore _ hlen ih => exact .unionOfMore (ih fun n hn => hread n (by simp [hn])) hlen
  | bareCallable => exact .bareCallable
  | callable _ ih => exact .callable (ih fun n hn => hread n (by simp [hn]))
  | bareType => exact .bareType
  | typeOf _ ih => exact .typeOf (ih fun n hn => hread n (by simp [hn]))
  | annotated _ _ ih₁ ih₂ =>
    exact .annotated (ih₁ fun n hn => hread n (by simp [hn]))
      (ih₂ fun n hn => hread n (by simp [hn]))
  | literal _ ih => exact .literal (ih fun n hn => hread n (by simp [hn]))
  | @plain n t hkeyword hn =>
    exact .plain hkeyword (hread n List.mem_cons_self t hn)
  | @applied n head ts ss hkeyword hn _ ih =>
    exact .applied hkeyword (hread n List.mem_cons_self _ hn)
      (ih fun n hn => hread n (by simp [hn]))
  | arguments _ ih => exact .arguments (ih fun n hn => hread n (by simp [hn]))
  | lastOf _ ih => exact .lastOf (ih hread)
  | more _ _ ih₁ ih₂ =>
    exact .more (ih₁ fun n hn => hread n (by simp [hn]))
      (ih₂ fun n hn => hread n (by simp [hn]))
  | noParameter => exact .noParameter
  | parameters _ ih => exact .parameters (ih hread)
  | parametersComma _ ih => exact .parametersComma (ih fun n hn => hread n (by simp [hn]))
  | anyParameters _ ih => exact .anyParameters (ih fun n hn => hread n (by simp [hn]))
  | withParameters _ _ ih₁ ih₂ =>
    exact .withParameters (ih₁ fun n hn => hread n (by simp [hn]))
      (ih₂ fun n hn => hread n (by simp [hn]))
  | noMetadata => exact .noMetadata
  | metadata hm _ ih => exact .metadata hm (ih fun n hn => hread n (by simp [hn]))
  | lastLiteral hv => exact .lastLiteral hv
  | moreLiterals hv _ ih => exact .moreLiterals hv (ih fun n hn => hread n (by simp [hn]))

/-- The phrases of a scope are phrases of every scope that agrees on the names among the symbols. -/
theorem Produces.congr {scope scope' : Scope} {phrase : Phrase} {ss : List Symbol}
    (h : Produces scope phrase ss) (hagree : ∀ n, .name n ∈ ss → scope n = scope' n) :
    Produces scope' phrase ss :=
  h.mono fun n hn _ ht => (hagree n hn).symm.trans ht

namespace TypeExpr

/-- A source mentions a name if what is read off it depends on what the name stands for. -/
def Mentions (source n : Text) : Prop :=
  ∃ (scope scope' : Scope) (t : TypeExpr), (∀ m, m ≠ n → scope m = scope' m) ∧
    parse scope source = .ok t ∧ parse scope' source ≠ .ok t

/-- A name that is mentioned is among the symbols of the source. -/
theorem Mentions.occurs {source n : Text} (h : Mentions source n) :
    ∃ ss, Lexes source ss ∧ .name n ∈ ss := by
  obtain ⟨scope, scope', t, hagree, hread, hread'⟩ := h
  obtain ⟨ss, hlexes, hproduces⟩ := produces_of_parse hread
  refine ⟨ss, hlexes, ?_⟩
  by_contra hn
  refine hread' (parse_of_produces hlexes (hproduces.congr fun m hm => hagree m ?_))
  rintro rfl
  exact hn hm

/-- A scope in which more names stand for something reads what was read before. -/
theorem parse_mono {source : Text} {t : TypeExpr} {scope scope' : Scope}
    (hread : ∀ n t, scope n = some t → scope' n = some t) (h : parse scope source = .ok t) :
    parse scope' source = .ok t := by
  obtain ⟨ss, hlexes, hproduces⟩ := produces_of_parse h
  exact parse_of_produces hlexes (hproduces.mono fun n _ t ht => hread n t ht)

/-- The names that symbols spell are texts of their tokens. -/
theorem text_mem_of_spell {ts rest : List Token} {ss : List Symbol} (h : Token.Spell ts ss rest)
    {n : Text} (hn : .name n ∈ ss) : n ∈ ts.map (·.text) := by
  induction h with
  | nil => cases hn
  | cons hs _ ih =>
    obtain rfl | hn := List.mem_cons.1 hn
    · exact List.mem_cons.2 (.inl (text_of_symbol? hs).2.symm)
    · exact List.mem_cons_of_mem _ (ih hn)

/-- A name that is mentioned is the text of a token. -/
theorem Mentions.mem_scan {source n : Text} (h : Mentions source n) :
    n ∈ (Token.scan source).map (·.text) := by
  obtain ⟨ss, hlexes, hn⟩ := h.occurs
  obtain ⟨last, hspell⟩ := (lexes_iff source ss).1 hlexes
  exact text_mem_of_spell hspell hn

/-- Scopes that agree on the names mentioned, and differ on finitely many, read the same. -/
theorem parse_congr {source : Text} {t : TypeExpr} {names : List Text} {scope scope' : Scope}
    (hnames : ∀ n, n ∉ names → scope n = scope' n)
    (hmentions : ∀ n, Mentions source n → scope n = scope' n)
    (h : parse scope source = .ok t) : parse scope' source = .ok t := by
  -- By induction on the names in which the scopes may differ.
  induction names generalizing scope with
  | nil =>
    have hscope : scope = scope' := funext fun n => hnames n List.not_mem_nil
    rwa [← hscope]
  | cons n names ih =>
    -- The scopes are brought together one name at a time.
    let next : Scope := fun m => if m = n then scope' m else scope m
    have hsame (m : Text) (hm : m ≠ n) : next m = scope m := if_neg hm
    have hread : parse next source = .ok t := by
      by_cases hn : Mentions source n
      · have hnext : next = scope := by
          funext m
          by_cases hmn : m = n
          · rw [hmn]
            exact (if_pos rfl).trans (hmentions n hn).symm
          · exact hsame m hmn
        rwa [hnext]
      -- Were the source read otherwise, the name would be mentioned.
      · by_contra hread
        exact hn ⟨scope, next, t, fun m hm => (hsame m hm).symm, h, hread⟩
    refine ih ?_ ?_ hread
    · intro m hm
      by_cases hmn : m = n
      · exact if_pos hmn
      · rw [hsame m hmn]
        exact hnames m (by simp [hmn, hm])
    · intro m hm
      by_cases hmn : m = n
      · exact if_pos hmn
      · rw [hsame m hmn]
        exact hmentions m hm

end TypeExpr

end TypeShape
