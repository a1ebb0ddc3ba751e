import TypeShape.Proofs.ImportedMessages

/-!
# Imports are closed and repeatable

Packages and messages may be imported into any registry that declarations and imports have made.
Afterwards everything that the imported classes mention is known, and importing the same once more
changes nothing.  The hook that types messages is installed by the first import of messages and by no
other call.

## Key results

- `Operation.count_messages_le`: no call but its own installation makes a second hook for messages
- `imports_closed`: what holds after every import into every registry of a history
- `map_entry_class_stays`: a name that is a class before an import may be that of a map entry
-/

namespace TypeShape

open Declaring Registry
open Relation (ReflTransGen)

namespace Registry

variable {r r' : Registry}

/-- The hooks of two registries are the same. -/
def SameTypers (r r' : Registry) : Prop :=
  r'.typers = r.typers

/-- A declaration of a name leaves the hooks alone. -/
theorem NameEntry.sameTypers (h : NameEntry r r') : SameTypers r r' := by
  cases h <;> rfl

/-- So does a path of such steps. -/
theorem sameTypers_of_path (h : ReflTransGen SameTypers r r') : r'.typers = r.typers := by
  induction h with
  | refl => rfl
  | tail _ hstep ih => exact hstep.trans ih

end Registry

/-! ## The hook for messages -/

namespace Declaring

variable {α : Type} {K : Registry → Prop}

/-- Whatever declares names only leaves the hooks alone. -/
theorem Leads.sameTypers {act : Declaring α} (h : Leads K NameEntry act) : Leads K SameTypers act :=
  h.mono (fun _ => id) fun _ _ => NameEntry.sameTypers

/-- Declaring a class leaves the hooks alone. -/
theorem sameTypers_declare (c : Class) : Leads (fun _ => True) SameTypers (Registry.declare c) := by
  intro r _
  have hparams := (leads_declareParams c.name [] c.params).sameTypers r trivial
  obtain ⟨e, h⟩ | ⟨e, h⟩ | ⟨-, -, h⟩ := declare_cases c r
  · rw [h]
  · rw [h]
    exact hparams
  · rw [h]
    exact hparams.tail rfl

/-- So does declaring an alias. -/
theorem sameTypers_declareAlias (name : Text) (t : TypeExpr) :
    Leads (fun _ => True) SameTypers (Registry.declareAlias name t) := by
  intro r _
  rw [after_declareAlias]
  repeat' split
  all_goals exact .single rfl

/-- So does binding a host type. -/
theorem sameTypers_bindHostType (t : HostType) (name : Text) :
    Leads (fun _ => True) SameTypers (Registry.bindHostType t name) := by
  intro r _
  unfold bindHostType
  rw [after_get_bind]
  split <;> exact .single rfl

/-- So does applying the entry of a class. -/
theorem sameTypers_applyClass (f : DeclarationFile) (c : ClassEntry) :
    Leads (fun _ => True) SameTypers (f.applyClass c) := by
  have hstable := stable_true SameTypers
  unfold DeclarationFile.applyClass
  refine .bind hstable ?_ fun params => .bind hstable ?_ fun bases => .bind hstable ?_
    fun members => ?_
  · exact .mapM hstable fun name _ => (DeclarationFile.leads_parameter _ name).sameTypers
  · exact .mapM hstable fun source _ => (DeclarationFile.leads_parseType _).within _
  · exact .mapM hstable fun m _ =>
      .bind hstable ((DeclarationFile.leads_parseType _).within _) fun _ => .pure _
  · exact (sameTypers_declare _).within _

/-- So does applying the entry of an alias. -/
theorem sameTypers_applyAlias (f : DeclarationFile) (a : AliasEntry) :
    Leads (fun _ => True) SameTypers (f.applyAlias a) :=
  Leads.within _ (.bind (stable_true _) (DeclarationFile.leads_parseType _) fun t =>
    sameTypers_declareAlias a.name t)

/-- So does applying a file. -/
theorem sameTypers_apply (f : DeclarationFile) : Leads (fun _ => True) SameTypers f.apply := by
  have hstable := stable_true SameTypers
  unfold DeclarationFile.apply
  refine .bind hstable ?_ fun _ => .bind hstable ?_ fun _ => .bind hstable ?_ fun _ => ?_
  · exact .forM hstable fun c _ => (f.leads_enterClass c).sameTypers
  · exact .forM hstable fun v _ => (f.leads_applyVar v).sameTypers
  · exact .forM hstable fun c _ => sameTypers_applyClass f c
  · exact .forM hstable fun a _ => sameTypers_applyAlias f a

end Declaring

/-- No call makes a second hook for messages, unless it installs one itself. -/
theorem Operation.count_messages_le {op : Operation} (hop : op ≠ .addTyper .messages) {r : Registry}
    (hr : r.typers.count .messages ≤ 1) : (op.run r).typers.count .messages ≤ 1 := by
  have hsame {act : Declaring Unit} (h : Leads (fun _ => True) SameTypers act) :
      (after act r).2.typers.count .messages ≤ 1 := by
    rw [sameTypers_of_path (h r trivial)]
    exact hr
  -- Every other call either leaves the hooks alone or installs a different one; an import of
  -- messages installs it where it is not there yet.
  cases op with
  | declare c => exact hsame (sameTypers_declare c)
  | declareVar v => exact hsame (leads_declareVar v).sameTypers
  | declareAlias name t => exact hsame (sameTypers_declareAlias name t)
  | bindHostType t name => exact hsame (sameTypers_bindHostType t name)
  | addTyper typer =>
    have hne : typer ≠ .messages := fun heq => hop (by rw [heq])
    show (r.typers ++ [typer]).count .messages ≤ 1
    rw [List.count_append, List.count_singleton, if_neg (by simpa using hne)]
    exact hr
  | applyFile f => exact hsame (sameTypers_apply f)
  | importPackages ps => exact hsame ps.leads_declareAll.sameTypers
  | importMessages files names =>
    have hvisits := (ProtoFile.leads_visitAll
      (ProtoFile.leads_visit files (files.length + 1)) names []).sameTypers r trivial
    have htypers := sameTypers_of_path hvisits
    show (after (ProtoFile.importAll files names) r).2.typers.count .messages ≤ 1
    rw [ProtoFile.after_importAll]
    rcases hrun : after (ProtoFile.visitAll (ProtoFile.visit files (files.length + 1)) names []) r
      with ⟨_ | seen, r₁⟩
    -- Going through the files has left the hooks alone.
    all_goals
      rw [hrun] at htypers
      have hcount : r₁.typers.count .messages ≤ 1 := by
        rw [show r₁.typers = r.typers from htypers]
        exact hr
    · exact hcount
    · exact (count_withMessageTyper hcount).le

/-- There is at most one hook for messages in the registries of a history that does not install one
otherwise than by an import. -/
theorem count_messages_le_of_mem_pool {history : List Event}
    (h : ∀ index, .call index (.addTyper .messages) ∉ history) :
    ∀ r ∈ pool history, r.typers.count .messages ≤ 1 := by
  refine pool_keeps_of history (Nat.zero_le 1) fun index op hmem r hr => ?_
  exact Operation.count_messages_le (fun hop => h index (hop ▸ hmem)) hr

/-- An import of messages leaves exactly one hook for messages, if there was at most one. -/
theorem ProtoFile.count_messages_importAll {files : List ProtoFile} {names : List Text}
    {r r' : Registry} (h : after (importAll files names) r = (.ok (), r'))
    (hr : r.typers.count .messages ≤ 1) : r'.typers.count .messages = 1 := by
  obtain ⟨r₁, hdeclared, rfl⟩ := after_importAll_ok.1 h
  have hpath := (Leads.forM (stable_true SameTypers) fun c _ => sameTypers_declare c).path trivial
    hdeclared
  apply count_withMessageTyper
  rw [sameTypers_of_path hpath]
  exact hr

/-! ## Imports into the registries of a history -/

/-- The builtin classes are known in every registry of a history. -/
theorem knows_builtins_of_mem_pool (history : List Event) :
    ∀ r ∈ pool history, r.Knows Name.builtins := by
  have hstable : Stable (Knows Name.builtins) Entry :=
    fun _ _ hstep hr n hn => hstep.grows.classes n (hr n hn)
  have hall : ∀ n ∈ Name.builtins, (builtin.class? n).isSome = true := by decide
  exact pool_keeps hstable hall history

/-- Imports are closed and repeatable.  The registry is one of a history whose calls install no hook
for messages otherwise than by imports.

After an import of packages, what the class of an imported type mentions is `Any` or a class, or one
of its own type parameters; importing the same again changes nothing.

After an import of messages, what the class of an imported message mentions is `Any` or a class, if
the messages that fields hold are declared in the files imported.  Names that are not those of
imported messages have the classes that they had; in particular the messages for the entries of maps
are not made classes.  The hook for messages is there once, and importing the same again changes
nothing. -/
theorem imports_closed {history : List Event}
    (hhistory : ∀ index, .call index (.addTyper .messages) ∉ history) {r : Registry}
    (hr : r ∈ pool history) :
    (∀ (ps : Packages) (r' : Registry), after ps.declareAll r = (.ok (), r') →
      (∀ i ∈ ps.imported, ∃ c, r'.class? i.className = some c ∧
        c.Scoped r'.HasType (· ∈ c.params.map (·.name))) ∧
      after ps.declareAll r' = (.ok (), r')) ∧
    ∀ (files : List ProtoFile) (names : List Text) (r' : Registry),
      after (ProtoFile.importAll files names) r = (.ok (), r') →
      (ProtoFile.Resolves files names → ∀ f, ProtoFile.IsImported files names f →
        ∀ n ∈ f.records.map (·.1), ∃ c, r'.class? n = some c ∧
          c.Scoped r'.HasType fun _ => False) ∧
      (∀ n, (∀ f, ProtoFile.IsImported files names f → n ∉ f.records.map (·.1)) →
        r'.class? n = r.class? n) ∧
      r'.typers.count .messages = 1 ∧
      after (ProtoFile.importAll files names) r' = (.ok (), r') := by
  have hbuiltin := knows_builtins_of_mem_pool history r hr
  have hcount := count_messages_le_of_mem_pool hhistory r hr
  -- Packages first, then messages: closed, no other class touched, one hook, and the repetition.
  refine ⟨fun ps r' h => ⟨fun i hi => ?_, ps.declareAll_again h⟩,
    fun files names r' h => ⟨fun hresolves f hf n hn => ?_, fun n hn => ?_, ?_, ?_⟩⟩
  · exact ps.closed_of_declareAll hbuiltin h hi
  · exact ProtoFile.closed_of_importAll hbuiltin hresolves h hf hn
  · refine (ProtoFile.class?_of_importAll h n).2 fun hmem => ?_
    obtain ⟨f, hf, hrecord⟩ := ProtoFile.mem_names_importedClasses.1 hmem
    exact hn f hf hrecord
  · exact ProtoFile.count_messages_importAll h hcount
  · exact ProtoFile.importAll_again h

/-- Two packages of one name are imported, the second of which refers to a generic type of the first,
and then messages of two files. -/
theorem imports_closed_box_node :
    let number : WrittenType := .interface [] [[.plain (text "int"), .plain (text "float64")]]
    let next : Option Text × WrittenType :=
      (some (text "Next"), .pointer (.named (text "Box") [.plain (text "T")]))
    let box : TypeDeclaration :=
      { name := text "Box", params := [(text "T", some number)], type := .struct [next] }
    let content : Option Text × WrittenType :=
      (some (text "Content"), .named (text "a/p.Box") [.plain (text "int")])
    let crate : TypeDeclaration := { name := text "Crate", type := .struct [content] }
    let ps : Packages :=
      [{ name := text "p", path := text "a/p", declarations := [box] },
        { name := text "p", path := text "b/p", declarations := [crate] }]
    let leaf : ProtoFile := { name := text "leaf.proto", messages := [.of (text "Leaf") [] []] }
    let leaves : ProtoField :=
      ⟨text "leaves", .map (.scalar (text "string")) (.message (text "Leaf"))⟩
    let parent : ProtoField := ⟨text "parent", .single .plain (.message (text "Node"))⟩
    let node : ProtoFile :=
      { name := text "node.proto", imports := [leaf.name],
        messages := [.of (text "Node") [leaves, parent] []] }
    let files : List ProtoFile := [node, leaf]
    let boxes : Registry := (after ps.declareAll .builtin).2
    let nodes : Registry := (after (ProtoFile.importAll files [node.name]) boxes).2
    (∀ n ∈ [text "p.Box", text "p.Crate"], ∃ c, boxes.class? n = some c ∧
      c.Scoped boxes.HasType (· ∈ c.params.map (·.name))) ∧
    after ps.declareAll boxes = (.ok (), boxes) ∧
    (∃ c, nodes.class? (text "Node") = some c ∧ c.Scoped nodes.HasType fun _ => False) ∧
    nodes.typers.count .messages = 1 ∧
    after (ProtoFile.importAll files [node.name]) nodes = (.ok (), nodes) := by
  intro number next box content crate ps leaf leaves parent node files boxes nodes
  have hboxes : after ps.declareAll .builtin = (.ok (), boxes) :=
    Prod.ext (by decide +kernel) rfl
  have hnodes : after (ProtoFile.importAll files [node.name]) boxes = (.ok (), nodes) :=
    Prod.ext (by decide +kernel) rfl
  have hnames : ps.imported.map (·.className) = [text "p.Box", text "p.Crate"] := by decide +kernel
  have hreached : ProtoFile.reached files [node.name] = [leaf, node] := rfl
  have hnode : ProtoFile.IsImported files [node.name] node :=
    ProtoFile.mem_reached_iff.1 (by simp [hreached])
  have hleaf : ProtoFile.IsImported files [node.name] leaf :=
    ProtoFile.mem_reached_iff.1 (by simp [hreached])
  -- The messages that the fields hold are those of the two files.
  have hresolves : ProtoFile.Resolves files [node.name] := by
    intro f hf record hrecord field hfield n hn
    rw [← ProtoFile.mem_reached_iff, hreached] at hf
    have hleaves : leaf.records = [(text "Leaf", [])] := rfl
    have hnodes : node.records = [(text "Node", [leaves, parent])] := rfl
    obtain rfl | rfl : f = leaf ∨ f = node := by simpa using hf
    · rw [hleaves] at hrecord
      rw [List.mem_singleton.1 hrecord] at hfield
      cases hfield
    · rw [hnodes] at hrecord
      rw [List.mem_singleton.1 hrecord] at hfield
      obtain rfl | rfl : field = leaves ∨ field = parent := by simpa using hfield
      · exact ⟨leaf, hleaf, by rw [List.mem_singleton.1 hn]; exact List.mem_singleton_self _⟩
      · exact ⟨node, hnode, by rw [List.mem_singleton.1 hn]; exact List.mem_singleton_self _⟩
  -- The packages are imported into the registry of the builtin classes, the messages after them.
  let history : List Event := [.call 0 (.importPackages ps)]
  have hempty : ∀ index, Event.call index (.addTyper .messages) ∉ ([] : List Event) :=
    fun _ => List.not_mem_nil
  have hhistory : ∀ index, Event.call index (.addTyper .messages) ∉ history := by
    simp [history]
  have hmem : boxes ∈ pool history := List.mem_singleton_self boxes
  obtain ⟨hclosed, hagain⟩ :=
    (imports_closed hempty (List.mem_singleton_self Registry.builtin)).1 ps boxes hboxes
  obtain ⟨hclosed', -, hcount, hagain'⟩ :=
    (imports_closed hhistory hmem).2 files [node.name] nodes hnodes
  refine ⟨fun n hn => ?_, hagain, hclosed' hresolves node hnode _ List.mem_cons_self, hcount,
    hagain'⟩
  rw [← hnames] at hn
  obtain ⟨i, hi, rfl⟩ := List.mem_map.1 hn
  exact hclosed i hi

/-- A name that is a class before an import stays one, although it is that of the message for the
entries of a map. -/
theorem map_entry_class_stays :
    let tags : ProtoField := ⟨text "tags", .map (.scalar (text "string")) (.scalar (text "string"))⟩
    let file : ProtoFile :=
      { name := text "m.proto", package := text "p", messages := [.of (text "M") [tags] []] }
    let history : List Event := [.call 0 (.declare { name := text "p.M.TagsEntry" })]
    ∃ r ∈ pool history, (after (ProtoFile.importAll [file] [file.name]) r).1 = .ok () ∧
      (∃ fields, ProtoMessage.entryOf? tags = some (.mk (text "TagsEntry") true fields [])) ∧
      ((after (ProtoFile.importAll [file] [file.name]) r).2.class?
        (text "p.M.TagsEntry")).isSome = true := by
  intro tags file history
  exact ⟨_, List.mem_singleton_self _, by decide +kernel, ⟨_, rfl⟩, by decide +kernel⟩

end TypeShape
