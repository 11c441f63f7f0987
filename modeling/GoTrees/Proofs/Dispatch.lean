import GoTrees.Proofs.Passes

/-!
# The recipe of a kind

A registry is what calls of `register` have made of the empty or the built-in one. Whatever the calls, a kind
gets the recipe that was registered last for the first tag of its ancestry that has one, and the bare recipe if
no tag has. So a registration matters only to the kinds that get their recipe from its tag:

    loop ──▶ count ──▶ decorator ──▶ node      the ancestry of a kind
      ·        ·         recipe      recipe    the kind gets the recipe of `decorator`,
      ·      recipe      recipe      recipe    unless `count` gets one too

A file is emitted by asking for the recipes of the visited items only, so files of trees without such kinds
are the same with the registration and without it.
-/

namespace GoTrees

open Go List

variable {r : Registry} {i : Item}

namespace Registry

/-! ### Entries of a table -/

section Table

variable {τ ρ : Type} {entries : List (τ × ρ)} {table : τ → Option ρ} {t u : τ} {recipe answer fallback : ρ}

def Last (entries : List (τ × ρ)) (t : τ) (recipe : ρ) : Prop :=
  ∃ before after, entries = before ++ (t, recipe) :: after ∧ ∀ other, (t, other) ∉ after

/-- The tag has an entry. -/
def Entered (entries : List (τ × ρ)) (t : τ) : Prop := ∃ recipe, (t, recipe) ∈ entries

/-- The answer of a lookup along tags: the last entry of the first tag that has one, else the fallback. -/
def Answers (entries : List (τ × ρ)) (fallback : ρ) (tags : List τ) (answer : ρ) : Prop :=
  (∃ before t after, tags = before ++ t :: after ∧ (∀ u ∈ before, ¬ Entered entries u) ∧
    Last entries t answer) ∨
  ((∀ u ∈ tags, ¬ Entered entries u) ∧ answer = fallback)

theorem last_concat_self : Last (entries ++ [(t, recipe)]) t answer ↔ answer = recipe := by
  constructor
  · rintro ⟨before, after, split, none⟩
    -- if something followed the last entry of the tag, it would end with the new one
    rcases eq_nil_or_concat after with rfl | ⟨more, e, rfl⟩
    · have ends := (append_inj' split rfl).2
      simpa using ends.symm
    · have ends := congrArg List.getLast? split
      simp only [concat_eq_append, getLast?_append, getLast?_cons] at ends
      have same : (t, recipe) = e := by simpa using ends
      exact absurd (by simp [← same]) (none recipe)
  · rintro rfl
    exact ⟨entries, [], rfl, by simp⟩

theorem last_concat_of_ne (ne : u ≠ t) :
    Last (entries ++ [(t, recipe)]) u answer ↔ Last entries u answer := by
  constructor
  · rintro ⟨before, after, split, none⟩
    rcases eq_nil_or_concat after with rfl | ⟨more, e, rfl⟩
    · have ends := (append_inj' split rfl).2
      exact absurd (by simpa using (congrArg Prod.fst (head_eq_of_cons_eq ends)).symm) ne
    · have front : entries = before ++ (u, answer) :: more := by
        have split : entries ++ [(t, recipe)] = (before ++ (u, answer) :: more) ++ [e] := by simpa using split
        exact (append_inj' split rfl).1
      exact ⟨before, more, front, fun other mem => none other (by simp [mem])⟩
  · rintro ⟨before, after, rfl, none⟩
    refine ⟨before, after ++ [(t, recipe)], by simp, fun other mem => ?_⟩
    rcases mem_append.mp mem with mem | mem
    · exact none other mem
    · exact ne (by simpa using congrArg Prod.fst (mem_singleton.mp mem))

def Holds (table : τ → Option ρ) (entries : List (τ × ρ)) : Prop :=
  ∀ t recipe, table t = some recipe ↔ Last entries t recipe

theorem holds_nil : Holds (fun _ : τ => (none : Option ρ)) [] := by
  intro t recipe
  simp [Last]

theorem Entered.last (h : Entered entries t) : ∃ recipe, Last entries t recipe := by
  induction entries using List.reverseRecOn with
  | nil =>
    obtain ⟨recipe, mem⟩ := h
    cases mem
  | append_singleton entries e ih =>
    obtain ⟨u, recipe⟩ := e
    by_cases same : t = u
    · subst same
      exact ⟨recipe, last_concat_self.mpr rfl⟩
    · obtain ⟨other, mem⟩ := h
      have earlier : (t, other) ∈ entries := by simpa [same] using mem
      obtain ⟨found, last⟩ := ih ⟨other, earlier⟩
      exact ⟨found, (last_concat_of_ne same).mpr last⟩

theorem Holds.eq_none_iff (h : Holds table entries) : table t = none ↔ ¬ Entered entries t := by
  rw [Option.eq_none_iff_forall_ne_some]
  constructor
  · rintro none entered
    obtain ⟨recipe, last⟩ := entered.last
    exact none recipe ((h t recipe).mpr last)
  · rintro absent recipe found
    obtain ⟨before, after, split, -⟩ := (h t recipe).mp found
    exact absent ⟨recipe, by simp [split]⟩

theorem Holds.enter [DecidableEq τ] (h : Holds table entries) (t : τ) (recipe : ρ) :
    Holds (fun u => if u = t then some recipe else table u) (entries ++ [(t, recipe)]) := by
  intro u answer
  by_cases same : u = t
  · subst same
    simp only [if_true, Option.some.injEq, last_concat_self, eq_comm]
  · simp only [if_neg same, last_concat_of_ne same]
    exact h u answer

/-- The first recipe along the ancestry is the one registered last for its tag. -/
theorem Holds.answers (h : Holds table entries) (tags : List τ) :
    Answers entries fallback tags ((tags.findSome? table).getD fallback) := by
  cases found : tags.findSome? table with
  | some recipe =>
    obtain ⟨before, t, after, split, here, none⟩ := findSome?_eq_some_iff.mp found
    exact .inl ⟨before, t, after, split, fun u hu => h.eq_none_iff.mp (none u hu), (h t recipe).mp here⟩
  | none =>
    have none := findSome?_eq_none_iff.mp found
    exact .inr ⟨fun u hu => h.eq_none_iff.mp (none u hu), rfl⟩

/-- A lookup that does not end at a tag gives the same without the entry of that tag. -/
theorem findSome?_enter [DecidableEq τ] (table : τ → Option ρ) (t : τ) (recipe : ρ) : ∀ {tags : List τ},
    tags.find? (fun u => (if u = t then some recipe else table u).isSome) ≠ some t →
    tags.findSome? (fun u => if u = t then some recipe else table u) = tags.findSome? table
  | [], _ => rfl
  | u :: tags, elsewhere => by
      by_cases same : u = t
      · subst same
        simp at elsewhere
      · rw [findSome?_cons, findSome?_cons, if_neg same]
        cases here : table u with
        | some other => rfl
        | none =>
          refine findSome?_enter table t recipe ?_
          simpa [find?_cons, same, here] using elsewhere

end Table

/-! ### Registrations -/

/-- A call that registers a recipe. -/
inductive Registration where
  | node (tag : NodeTag) (recipe : NodeRecipe)
  | attachment (tag : AttachmentTag) (recipe : AttachmentRecipe)

namespace Registration

def node? : Registration → Option (NodeTag × NodeRecipe)
  | node tag recipe => some (tag, recipe)
  | attachment .. => none

def attachment? : Registration → Option (AttachmentTag × AttachmentRecipe)
  | node .. => none
  | attachment tag recipe => some (tag, recipe)

end Registration

def extend (r : Registry) : Registration → Registry
  | .node tag recipe => r.register tag recipe
  | .attachment tag recipe => r.registerAttachment tag recipe

/-- The registry after registrations one after the other. -/
def extendAll (r : Registry) (calls : List Registration) : Registry := calls.foldl extend r

def builtinCalls : List Registration :=
  builtinNodes.map (fun e => .node e.1 e.2) ++ builtinAttachments.map (fun e => .attachment e.1 e.2)

inductive Starts : Registry → List Registration → Prop
  | empty : Starts empty []
  | builtin : Starts builtin builtinCalls

structure Made (r : Registry) (calls : List Registration) : Prop where
  nodes : Holds r.nodes (calls.filterMap Registration.node?)
  attachments : Holds r.attachments (calls.filterMap Registration.attachment?)

theorem Made.extend {calls : List Registration} (h : Made r calls) (call : Registration) :
    Made (r.extend call) (calls ++ [call]) := by
  cases call with
  | node tag recipe =>
    constructor
    · rw [filterMap_append]
      exact h.nodes.enter tag recipe
    · rw [filterMap_append, filterMap_cons_none rfl, filterMap_nil, List.append_nil]
      exact h.attachments
  | attachment tag recipe =>
    constructor
    · rw [filterMap_append, filterMap_cons_none rfl, filterMap_nil, List.append_nil]
      exact h.nodes
    · rw [filterMap_append]
      exact h.attachments.enter tag recipe

/-- Registering more keeps the table made by what was registered, in order. -/
theorem Made.extendAll {calls : List Registration} (h : Made r calls) :
    ∀ later : List Registration, Made (r.extendAll later) (calls ++ later) := by
  intro later
  induction later generalizing r calls with
  | nil => simpa [Registry.extendAll] using h
  | cons call later ih =>
    have rest := ih (h.extend call)
    simpa [Registry.extendAll] using rest

theorem made_empty : Made empty [] := ⟨holds_nil, holds_nil⟩

theorem extendAll_builtinCalls : empty.extendAll builtinCalls = builtin := by
  rw [extendAll, builtinCalls, foldl_append, foldl_map, foldl_map]
  rfl

theorem Starts.made {start : Registry} {earlier : List Registration} (h : Starts start earlier) :
    Made start earlier := by
  cases h with
  | empty => exact made_empty
  | builtin =>
    have made := made_empty.extendAll builtinCalls
    rwa [extendAll_builtinCalls] at made

/-- The item gets its recipe in the registry from the tag of the registration. -/
def Registration.Serves (r : Registry) : Registration → Item → Prop
  | .node tag _, .node n => n.tag.ancestry.find? (fun t => (r.nodes t).isSome) = some tag
  | .attachment tag _, .attachment a => a.tag.ancestry.find? (fun t => (r.attachments t).isSome) = some tag
  | .node .., .attachment _ | .attachment .., .node _ => False

instance (r : Registry) : ∀ (call : Registration) (i : Item), Decidable (call.Serves r i)
  | .node .., .node _ | .attachment .., .attachment _ => inferInstanceAs (Decidable (_ = _))
  | .node .., .attachment _ | .attachment .., .node _ => inferInstanceAs (Decidable False)

/-- Both registries have the same recipe for the item. -/
def Agree (r s : Registry) : Item → Prop
  | .node n => r.node n.tag = s.node n.tag
  | .attachment a => r.attachment a.tag = s.attachment a.tag

/-- A registration that does not serve an item leaves its recipe as it is. -/
theorem agree_extend (r : Registry) (call : Registration) (elsewhere : ¬ call.Serves (r.extend call) i) :
    Agree (r.extend call) r i := by
  cases call with
  | node tag recipe =>
    cases i with
    | node n => exact congrArg (·.getD .bare) (findSome?_enter r.nodes tag recipe elsewhere)
    | attachment a => rfl
  | attachment tag recipe =>
    cases i with
    | node n => rfl
    | attachment a => exact congrArg (·.getD .bare) (findSome?_enter r.attachments tag recipe elsewhere)

theorem node_eq_bare {tag : NodeTag} (none : ∀ t ∈ tag.ancestry, r.nodes t = none) :
    r.node tag = .bare := by
  rw [node, findSome?_eq_none_iff.mpr none]
  rfl

end Registry

/-! ### Files of the same recipes -/

namespace Generation

open Registry

variable {x : Context} {r s : Registry}

theorem class?_congr (tree : String) : ∀ {i : Item}, Agree r s i →
    class? ⟨x, r⟩ tree i = class? ⟨x, s⟩ tree i
  | .node n, h => by simp only [class?, nodeClass?, show r.node n.tag = s.node n.tag from h]
  | .attachment a, h => by
      simp only [class?, attachmentClass?, show r.attachment a.tag = s.attachment a.tag from h]

theorem declareItem_congr (h : Agree r s i) (className : String) :
    declareItem ⟨x, r⟩ (i, className) = declareItem ⟨x, s⟩ (i, className) := by
  cases i with
  | node n => exact congrArg (fun recipe => NodeRecipe.declare recipe x n className) h
  | attachment a => exact congrArg (fun recipe => AttachmentRecipe.declare recipe x a className) h

theorem createItem_congr (h : Agree r s i) (className : Option String) :
    createItem ⟨x, r⟩ i className = createItem ⟨x, s⟩ i className := by
  cases i with
  | node n => exact congrArg (fun recipe => NodeRecipe.create recipe x n className) h
  | attachment a => exact congrArg (fun recipe => AttachmentRecipe.create recipe x a className) h

theorem declareEach_classed_congr (tree : String) {is : List Item} (h : ∀ i ∈ is, Agree r s i) :
    declareEach ⟨x, r⟩ (classed ⟨x, r⟩ tree is) = declareEach ⟨x, s⟩ (classed ⟨x, s⟩ tree is) := by
  induction is with
  | nil => rfl
  | cons i is ih =>
    rw [forall_mem_cons] at h
    have rest := ih h.2
    have own := class?_congr (x := x) tree h.1
    simp only [classed, filterMap_cons, own] at rest ⊢
    cases class? ⟨x, s⟩ tree i with
    | none => exact rest
    | some className =>
      rw [Option.map_some, declareEach, declareEach, declareItem_congr h.1, rest]

mutual

theorem Piece.emit_congr : ∀ {p : Piece}, (∀ c ∈ p.creations, Agree r s c.1) →
    p.emit ⟨x, r⟩ = p.emit ⟨x, s⟩
  | .code _, _ => rfl
  | .create i className, h => createItem_congr (h (i, className) (mem_singleton_self _)) className
  | .block body, h => by rw [Piece.emit, Piece.emit, Piece.emitAll_congr h]

theorem Piece.emitAll_congr : ∀ {ps : List Piece}, (∀ c ∈ Piece.allCreations ps, Agree r s c.1) →
    Piece.emitAll ⟨x, r⟩ ps = Piece.emitAll ⟨x, s⟩ ps
  | [], _ => rfl
  | p :: ps, h => by
      rw [Piece.allCreations, forall_mem_append] at h
      rw [Piece.emitAll, Piece.emitAll, Piece.emit_congr h.1, Piece.emitAll_congr h.2]

end

theorem attachmentsPlan_congr (tree parent : String) {as : List Attachment}
    (h : ∀ i ∈ Item.enabled as, Agree r s i) :
    attachmentsPlan ⟨x, r⟩ tree parent as = attachmentsPlan ⟨x, s⟩ tree parent as := by
  have each : (as.filter (·.enabled)).map (attachPlan ⟨x, r⟩ tree parent) =
      (as.filter (·.enabled)).map (attachPlan ⟨x, s⟩ tree parent) := by
    refine map_congr_left fun a ha => ?_
    have own := class?_congr (x := x) tree (h (.attachment a) (mem_map_of_mem ha))
    rw [class?, class?] at own
    rw [attachPlan, attachPlan, own]
  rw [attachmentsPlan, attachmentsPlan, each]

theorem nodePlan_congr (tree parent : String) {n : Node} (own : Agree r s (.node n))
    (h : ∀ i ∈ Item.enabled n.attachments, Agree r s i) :
    nodePlan ⟨x, r⟩ tree parent n = nodePlan ⟨x, s⟩ tree parent n := by
  have class? := class?_congr (x := x) tree own
  rw [Generation.class?, Generation.class?] at class?
  rw [nodePlan, nodePlan, class?, attachmentsPlan_congr tree n.name h]

mutual

theorem subtreePlan_congr (tree : String) : ∀ {t : Subtree} (parent : String),
    (∀ i ∈ t.visited, Agree r s i) → subtreePlan ⟨x, r⟩ tree t parent = subtreePlan ⟨x, s⟩ tree t parent
  | .mk n children, parent, h => by
      rw [subtreePlan, subtreePlan]
      cases enabled : n.enabled with
      | false => rfl
      | true =>
        simp only [Subtree.visited, enabled, if_true, cons_append, forall_mem_cons,
          forall_mem_append] at h
        rw [nodePlan_congr tree parent h.1 h.2.1]
        cases reference : n.kind.isReference with
        | true => rfl
        | false =>
          simp only [reference, Bool.false_eq_true, if_false] at h
          rw [subtreesPlan_congr tree "fsm" h.2.2, subtreesPlan_congr tree n.name h.2.2]

theorem subtreesPlan_congr (tree : String) : ∀ {ts : List Subtree} (parent : String),
    (∀ i ∈ Subtree.allVisited ts, Agree r s i) →
    subtreesPlan ⟨x, r⟩ tree ts parent = subtreesPlan ⟨x, s⟩ tree ts parent
  | [], _, _ => rfl
  | t :: ts, parent, h => by
      rw [Subtree.allVisited, forall_mem_append] at h
      rw [subtreesPlan, subtreesPlan, subtreePlan_congr tree parent h.1, subtreesPlan_congr tree parent h.2]

end

theorem plan_congr {b : Behavior} (h : ∀ i ∈ b.visited, Agree r s i) :
    plan ⟨x, r⟩ b = plan ⟨x, s⟩ b := by
  rw [Behavior.visited, forall_mem_append] at h
  rw [plan, plan, attachmentsPlan_congr b.className "tree" h.1, subtreesPlan_congr b.className "fsm" h.2,
    subtreesPlan_congr b.className "tree" h.2]
  rfl

theorem behavior_congr {b : Behavior} (h : ∀ i ∈ b.visited, Agree r s i) :
    behavior ⟨x, r⟩ b = behavior ⟨x, s⟩ b := by
  have body : treeBody ⟨x, r⟩ b = treeBody ⟨x, s⟩ b := by
    rw [treeBody_eq, treeBody_eq, ← plan_congr h]
    refine Piece.emitAll_congr fun c hc => ?_
    rw [allCreations_plan, withClass] at hc
    obtain ⟨i, hi, rfl⟩ := mem_map.mp hc
    exact h i hi
  rw [Behavior.visited, forall_mem_append] at h
  rw [behavior_eq, behavior_eq, body, declareAttachments_eq, declareAttachments_eq, declareSubtrees_eq,
    declareSubtrees_eq, declareEach_classed_congr b.className h.1, declareEach_classed_congr b.className h.2]

theorem behaviors_congr : ∀ {bs : List Behavior}, (∀ b ∈ bs, ∀ i ∈ b.visited, Agree r s i) →
    behaviors ⟨x, r⟩ bs = behaviors ⟨x, s⟩ bs
  | [], _ => rfl
  | b :: bs, h => by
      rw [forall_mem_cons] at h
      rw [behaviors, behaviors, behaviors_congr h.2, behavior_congr h.1]

/-- A file only depends on the recipes of the items it visits. -/
theorem file_congr (path : String) {bs : List Behavior} (h : ∀ b ∈ bs, ∀ i ∈ b.visited, Agree r s i) :
    file ⟨x, r⟩ path bs = file ⟨x, s⟩ path bs := by
  rw [file, file, behaviors_congr h]

/-! ### Kinds without a recipe -/

/-- The line that creates a node from its runtime type alone. -/
def genericLine (n : Node) : String :=
  "node" ++ toString n.id ++ " := bt.NewNode(" ++ toString n.id ++ ", " ++ n.runtimeType.1 ++ ".New" ++
    n.runtimeType.2 ++ "())"

/-- The node has no class of its own, and one line creates it at the top of its block. -/
structure Generic (g : Generation) (n : Node) : Prop where
  undeclared : ∀ tree, g.nodeClass? tree n = none
  attached : ∀ tree, g.declareNode tree n = g.declareAttachments tree n.attachments
  created : ∀ tree, ∃ s : Step, s.text = genericLine n ∧
    (g.createItem (.node n) (g.nodeClass? tree n)).value = [.step s] ∧
    ∀ parent children, n.enabled → ∃ rest,
      (g.build tree (.mk n children) parent).value = [.block (.step s :: rest)]

/-- A node without a recipe is created in one line, as an object of the runtime. -/
theorem generic_of_bare {g : Generation} {n : Node} (bare : g.registry.node n.tag = .bare) : Generic g n := by
  have undeclared (tree : String) : g.nodeClass? tree n = none := by
    rw [nodeClass?, bare]
    rfl
  have created (tree : String) : (g.createItem (.node n) (g.nodeClass? tree n)).value =
      [.step (.define n.name (.call (.member "bt" "NewNode")
        [.int n.id, .call (.member n.runtimeType.1 ("New" ++ n.runtimeType.2)) []]))] := by
    rw [createItem, undeclared, bare]
    rfl
  refine ⟨undeclared, fun tree => ?_, fun tree => ⟨_, ?_, created tree, ?_⟩⟩
  · rw [declareNode_eq, declareAttachments_eq, declareEach_classed_node, undeclared, Emit.nil_append]
  · rw [← String.toList_inj]
    simp [Step.text, Expr.text, Expr.texts, Expr.int, Node.name, genericLine, Text.join]
  · intro parent children enabled
    have top : ∃ rest, (g.createAndWire tree parent n).value = .step _ :: rest :=
      ⟨_, congrArg (· ++ (g.attachAll tree n.name n.attachments).value ++ [_]) (created tree)⟩
    obtain ⟨rest, top⟩ := top
    rw [build, if_neg (by simp [enabled])]
    simp only [Emit.value_bind]
    split_ifs
    · exact ⟨rest, by rw [Emit.value_pure, top]⟩
    · exact ⟨_, by rw [Emit.value_bind, Emit.value_pure, top, cons_append]⟩
    · exact ⟨_, by rw [Emit.value_bind, Emit.value_pure, top, cons_append]⟩

/-! ### Dispatch -/

/-- Whatever was registered since the start, every kind has the recipe that was registered last for the first
tag of its ancestry with any, else the bare one. One more registration, on any registry, leaves every file
as it is in which no visited item gets its recipe from it. And a node without a registered ancestor has no
class, and is created by the line for its runtime type. -/
theorem dispatch_local {start : Registry} {earlier : List Registration} (starts : Starts start earlier)
    (later : List Registration) (x : Context) :
    (∀ tag, Answers ((earlier ++ later).filterMap Registration.node?) .bare tag.ancestry
      ((start.extendAll later).node tag)) ∧
    (∀ tag, Answers ((earlier ++ later).filterMap Registration.attachment?) .bare tag.ancestry
      ((start.extendAll later).attachment tag)) ∧
    (∀ (r : Registry) (call : Registration) (path : String) (bs : List Behavior),
      (∀ b ∈ bs, ∀ i ∈ b.visited, ¬ call.Serves (r.extend call) i) →
      file ⟨x, r.extend call⟩ path bs = file ⟨x, r⟩ path bs) ∧
    (∀ (r : Registry) (n : Node), (∀ t ∈ n.tag.ancestry, r.nodes t = none) → Generic ⟨x, r⟩ n) := by
  have made := starts.made.extendAll later
  refine ⟨fun tag => made.nodes.answers tag.ancestry, fun tag => made.attachments.answers tag.ancestry, ?_, ?_⟩
  · intro r call path bs elsewhere
    exact file_congr path fun b hb i hi => agree_extend r call (elsewhere b hb i hi)
  · intro r n none
    exact generic_of_bare (node_eq_bare none)

/-- A node that only its runtime class tells. -/
def blink : Node where
  id := 3
  kind := .unknown "Blink"

/-- A tree with a disabled wait and an unknown kind. -/
def vigil : Behavior where
  name := "Vigil"
  path := "vigil.xml"
  agentType := agentBase
  children := [.mk { id := 1, kind := .plain .sequence }
    [.mk { id := 2, kind := .wait none, enabled := false } [], .mk blink []]]

/-- A recipe for waits that leaves a remark. -/
def asleep : Registration :=
  .node .wait { create := fun _ _ _ => pure [.step (.comment "asleep")] }

theorem dispatch_local_vigil : Starts builtin builtinCalls ∧
    asleep.Serves (builtin.extend asleep) (.node { id := 2, kind := .wait none }) ∧
    Answers ((builtinCalls ++ [asleep]).filterMap Registration.node?) .bare [.wait, .leaf, .node]
      ((builtin.extendAll [asleep]).node .wait) ∧
    file ⟨{ catalog := {} }, builtin.extend asleep⟩ "vigil.go" [vigil] =
      file ⟨{ catalog := {} }, builtin⟩ "vigil.go" [vigil] ∧
    Generic ⟨{ catalog := {} }, builtin⟩ blink := by
  obtain ⟨nodes, -, same, generic⟩ := dispatch_local .builtin [asleep] { catalog := {} }
  refine ⟨.builtin, by decide, nodes .wait, same builtin asleep _ _ ?_, generic builtin blink ?_⟩
  · have visited : vigil.visited = [.node { id := 1, kind := .plain .sequence }, .node blink] := rfl
    rw [forall_mem_singleton, visited, forall_mem_cons, forall_mem_singleton]
    exact ⟨by decide, by decide⟩
  · intro t ht
    obtain rfl : t = .unknown := mem_singleton.mp ht
    rfl

end Generation

end GoTrees
