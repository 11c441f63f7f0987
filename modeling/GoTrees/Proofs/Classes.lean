import GoTrees.Proofs.Passes

/-!
# Classes and their constructors

A class is named after the kind of its item, the tree and the variable of the item, so its name ends with
the id and the letter in front of the id tells nodes from attachments. Items with different ids have
different classes. The method that builds the tree calls the constructors of the declared classes, one by
one and in the order of the declarations, and no other function by its plain name.
-/

namespace GoTrees

open Go List

variable (g : Generation)

/-! ### Names of classes -/

namespace Item

def id : Item → Int
  | node n => n.id
  | attachment a => a.id

/-- The letter that a class has in front of the id. -/
def letter : Item → Char
  | node _ => 'e'
  | attachment _ => 'h'

theorem isNumeral_letter : ∀ i : Item, isNumeral i.letter = false
  | node _ => rfl
  | attachment _ => rfl

end Item

namespace Generation

/-- Does the recipe of an item declare a class? -/
def declares (g : Generation) : Item → Bool
  | .node n => (g.registry.node n.tag).declares n
  | .attachment a => (g.registry.attachment a.tag).declares a

def className (tree : String) : Item → String
  | .node n => n.exportClass ++ "_" ++ tree ++ "_" ++ n.name
  | .attachment a => pascalCase (a.exportClass ++ "_" ++ tree ++ "_" ++ a.name)

theorem class?_eq_some {g : Generation} {tree c : String} {i : Item} :
    g.class? tree i = some c ↔ g.declares i = true ∧ className tree i = c := by
  cases i <;> simp [class?, nodeClass?, attachmentClass?, declares, className]

theorem className_ends (tree : String) : ∀ i : Item,
    ∃ front, (className tree i).toList = front ++ i.letter :: (toString i.id).toList
  | .node n => by
      refine ⟨(n.exportClass ++ "_" ++ tree ++ "_").toList ++ ['n', 'o', 'd'], ?_⟩
      rw [className, String.toList_append, Node.toList_name, List.append_assoc]
      rfl
  | .attachment a => by
      refine ⟨(pascalCase (a.exportClass ++ "_" ++ tree)).toList ++ ['A', 't', 't', 'a', 'c'], ?_⟩
      rw [className, toList_pascalCase_append, toList_pascalCase_name, List.append_assoc]
      rfl

theorem className_inj {t u : String} {i j : Item} (same : className t i = className u j) :
    i.letter = j.letter ∧ i.id = j.id := by
  obtain ⟨front, ends⟩ := className_ends t i
  obtain ⟨front', ends'⟩ := className_ends u j
  refine append_number_inj i.isNumeral_letter j.isNumeral_letter (a := front) (b := front') ?_
  rw [← ends, ← ends', same]

/-- The classes that are declared are those the items have. -/
theorem map_classed (tree : String) (is : List Item) :
    (g.classed tree is).map (·.2) = is.filterMap (g.class? tree) := by
  rw [classed, map_filterMap]
  refine filterMap_congr fun i _ => ?_
  cases g.class? tree i <;> rfl

/-- Distinct ids give distinct classes. -/
theorem nodup_classed (tree : String) {is : List Item}
    (nodes : (is.filterMap Item.nodeId?).Nodup) (attachments : (is.filterMap Item.attachmentId?).Nodup) :
    ((g.classed tree is).map (·.2)).Nodup := by
  rw [map_classed]
  refine pairwise_filterMap.mpr
    (((pairwise_filterMap.mp nodes).and (pairwise_filterMap.mp attachments)).imp ?_)
  rintro i j ⟨apartNodes, apartAttachments⟩ c hi c' hj rfl
  obtain ⟨letters, ids⟩ := className_inj ((class?_eq_some.mp hi).2.trans (class?_eq_some.mp hj).2.symm)
  -- items of one sort have different ids, and the letter tells the sorts apart
  cases i with
  | node n => cases j with
    | node m => exact apartNodes n.id rfl m.id rfl ids
    | attachment _ => exact absurd letters (by simp [Item.letter])
  | attachment a => cases j with
    | node _ => exact absurd letters (by simp [Item.letter])
    | attachment a' => exact apartAttachments a.id rfl a'.id rfl ids

/-! ### Declared classes -/

/-- The type of a class and its constructor stand among the declarations. -/
def Announced (decls : List Decl) (className : String) : Prop :=
  (∃ runtime fields, .embedding className runtime fields ∈ decls) ∧
  ∃ f : Func, .func f ∈ decls ∧ f.receiver = none ∧ f.name = "New" ++ className ∧ f.params = [] ∧
    f.result = some ("*" ++ className)

theorem Announced.mono {decls more : List Decl} {className : String} (h : Announced decls className)
    (sub : decls ⊆ more) : Announced more className := by
  obtain ⟨⟨runtime, fields, type⟩, f, func, spelled⟩ := h
  exact ⟨⟨runtime, fields, sub type⟩, f, sub func, spelled⟩

theorem announced_classDecls (className runtime : String) (setup : List Step) (needs : Needs)
    (methods : List Decl) : Announced (classDecls className runtime setup needs methods) className := by
  let body : List Step := [.define "n" (.new className)] ++ setup ++ needs.setup ++ [.ret self]
  refine ⟨⟨runtime, needs.fields, mem_cons_self⟩,
    { name := "New" ++ className, result := some ("*" ++ className), body := body.map .step }, ?_,
    rfl, rfl, rfl, rfl⟩
  exact mem_append_left methods (mem_cons_of_mem _ (mem_cons_of_mem _ mem_cons_self))

/-- The recipe of an item declares its class in the common way. -/
def Standard (g : Generation) : Item → Prop
  | .node n => (g.registry.node n.tag).Standard
  | .attachment a => (g.registry.attachment a.tag).Standard

theorem announced_declareItem {g : Generation} (c : String) :
    ∀ {i : Item}, g.Standard i → g.declares i = true →
    Announced (g.declareItem (i, c)).value c
  | .node n, standard, h => by
      have declared : (g.registry.node n.tag).declares n = true := h
      rw [declareItem, standard, if_pos declared]
      exact announced_classDecls ..
  | .attachment a, standard, h => by
      have declared : (g.registry.attachment a.tag).declares a = true := h
      rw [declareItem, standard, if_pos declared]
      exact announced_classDecls ..

theorem announced_declareEach {g : Generation} {c : Item × String} {cs : List (Item × String)}
    (mem : c ∈ cs) (h : Announced (g.declareItem c).value c.2) :
    Announced (g.declareEach cs).value c.2 := by
  induction cs with
  | nil => cases mem
  | cons d cs ih =>
    rw [declareEach, Emit.value_append]
    rcases mem_cons.mp mem with rfl | mem
    · exact h.mono (subset_append_left _ _)
    · exact (ih mem).mono (subset_append_right _ _)

/-- Each item with a class has the type and constructor of it declared. -/
theorem announced_classed {g : Generation} {tree : String} {is : List Item} {c : Item × String}
    (mem : c ∈ g.classed tree is) (standard : g.Standard c.1) :
    Announced (g.declareEach (g.classed tree is)).value c.2 := by
  refine announced_declareEach mem ?_
  obtain ⟨i, _, h⟩ := mem_filterMap.mp mem
  obtain ⟨className, given, rfl⟩ := Option.map_eq_some_iff.mp h
  exact announced_declareItem className standard (class?_eq_some.mp given).1

end Generation

/-! ### Constructors that are called -/

namespace Go

/-- The function that is called by its plain name. -/
def Expr.plainName : Expr → List String
  | .name f => [f]
  | _ => []

mutual

def Expr.plainCalls : Expr → List String
  | .call f args => f.plainName ++ f.plainCalls ++ Expr.allPlainCalls args
  | .select e _ | .asserted e _ | .converted _ e | .not e => e.plainCalls
  | .index e i => e.plainCalls ++ i.plainCalls
  | .binary l _ r => l.plainCalls ++ r.plainCalls
  | .slice _ items => Expr.allPlainCalls items
  | .name _ | .literal _ | .string _ | .member .. | .path _ | .address _ | .empty _ | .new _ => []

def Expr.allPlainCalls : List Expr → List String
  | [] => []
  | e :: es => e.plainCalls ++ Expr.allPlainCalls es

end

def Step.plainCalls : Step → List String
  | .define _ e | .eval e | .ret e => e.plainCalls
  | .assign target e => target.plainCalls ++ e.plainCalls
  | .comment _ | .verbatim _ => []

mutual

/-- The functions that are called by their plain names in a statement. -/
def Stmt.plainCalls : Stmt → List String
  | .step s => s.plainCalls
  | .block body => Stmt.allPlainCalls body
  | .ifThen condition body => condition.plainCalls ++ Stmt.allPlainCalls body

/-- The functions that are called by their plain names in statements. -/
def Stmt.allPlainCalls : List Stmt → List String
  | [] => []
  | s :: ss => s.plainCalls ++ Stmt.allPlainCalls ss

end

theorem Stmt.allPlainCalls_append : ∀ as bs : List Stmt,
    Stmt.allPlainCalls (as ++ bs) = Stmt.allPlainCalls as ++ Stmt.allPlainCalls bs
  | [], _ => rfl
  | a :: as, bs => by simp [Stmt.allPlainCalls, Stmt.allPlainCalls_append as bs]

end Go

/-- Every recipe creates its items in the common way: from the class, else from the runtime type. -/
structure Registry.Plain (r : Registry) : Prop where
  node : ∀ tag x n className, (r.node tag).create x n className = createNode n className
  attachment : ∀ tag x a className,
    (r.attachment tag).create x a className = createAttachment a className

theorem Registry.builtin_plain : Registry.builtin.Plain := ⟨builtin_create, builtin_createAttachment⟩

namespace Generation

mutual

/-- The statements of the piece, creations apart, call no function by its plain name. -/
def Piece.Quiet : Piece → Prop
  | .code s => s.plainCalls = []
  | .create .. => True
  | .block body => Piece.AllQuiet body

/-- The statements of the pieces, creations apart, call no function by its plain name. -/
def Piece.AllQuiet : List Piece → Prop
  | [] => True
  | p :: ps => p.Quiet ∧ Piece.AllQuiet ps

end

theorem Piece.allQuiet_append {ps qs : List Piece} :
    Piece.AllQuiet (ps ++ qs) ↔ Piece.AllQuiet ps ∧ Piece.AllQuiet qs := by
  induction ps with
  | nil => simp [Piece.AllQuiet]
  | cons p ps ih => simp [Piece.AllQuiet, ih, and_assoc]

/-- The constructor of a class. -/
def constructor? (c : Item × Option String) : Option String := c.2.map ("New" ++ ·)

theorem plainCalls_createItem {g : Generation} (plain : g.registry.Plain) (i : Item)
    (className : Option String) :
    Stmt.allPlainCalls (g.createItem i className).value = (constructor? (i, className)).toList := by
  cases i <;> cases className <;>
    simp [createItem, plain.node, plain.attachment, createNode, createAttachment, construct,
      constructor?, Stmt.allPlainCalls, Stmt.plainCalls, Step.plainCalls, Expr.plainCalls,
      Expr.allPlainCalls, Expr.plainName, Expr.int]

mutual

theorem Piece.plainCalls_emit {g : Generation} (plain : g.registry.Plain) : ∀ p : Piece, p.Quiet →
    Stmt.allPlainCalls (p.emit g).value = p.creations.filterMap constructor?
  | .code s, quiet => by
      have quiet : s.plainCalls = [] := quiet
      simp [Piece.emit, Piece.creations, Stmt.allPlainCalls, quiet]
  | .create i className, _ => by
      rw [Piece.emit, Piece.creations, plainCalls_createItem plain, filterMap_cons]
      cases constructor? (i, className) <;> rfl
  | .block body, quiet => by
      simpa [Piece.emit, Piece.creations, Stmt.allPlainCalls, Stmt.plainCalls] using
        Piece.plainCalls_emitAll plain body quiet

theorem Piece.plainCalls_emitAll {g : Generation} (plain : g.registry.Plain) :
    ∀ ps : List Piece, Piece.AllQuiet ps →
      Stmt.allPlainCalls (Piece.emitAll g ps).value = (Piece.allCreations ps).filterMap constructor?
  | [], _ => rfl
  | p :: ps, quiet => by
      rw [Piece.emitAll, Emit.value_append, Stmt.allPlainCalls_append,
        Piece.plainCalls_emit plain p quiet.1, Piece.plainCalls_emitAll plain ps quiet.2,
        Piece.allCreations, filterMap_append]

end

theorem quiet_attachPlan (tree parent : String) (a : Attachment) :
    (g.attachPlan tree parent a).Quiet := by
  simp only [attachPlan]
  cases isEvent a <;>
    simp [Piece.Quiet, Piece.AllQuiet, callOn, Stmt.plainCalls, Step.plainCalls, Expr.plainCalls,
      Expr.allPlainCalls, Expr.plainName, Expr.bool]

theorem allQuiet_attachmentsPlan (tree parent : String) (as : List Attachment) :
    Piece.AllQuiet (g.attachmentsPlan tree parent as) := by
  have blocks : ∀ as : List Attachment, Piece.AllQuiet (as.map (g.attachPlan tree parent)) := by
    intro as
    induction as with
    | nil => trivial
    | cons a as ih => exact ⟨quiet_attachPlan g tree parent a, ih⟩
  rw [attachmentsPlan]
  split
  · trivial
  · exact ⟨rfl, blocks _⟩

theorem quiet_machinePlan {states : List Piece} (parent : String) (initial : Option Int)
    (quiet : Piece.AllQuiet states) : (machinePlan parent initial states).Quiet := by
  simp [machinePlan, Piece.Quiet, Piece.AllQuiet, Piece.allQuiet_append, quiet, callOn,
    Stmt.plainCalls, Step.plainCalls, Expr.plainCalls, Expr.allPlainCalls, Expr.plainName, Expr.int]

theorem allQuiet_nodePlan (tree parent : String) (n : Node) :
    Piece.AllQuiet (g.nodePlan tree parent n) := by
  refine ⟨trivial, Piece.allQuiet_append.mpr ⟨allQuiet_attachmentsPlan g tree n.name _, ?_, trivial⟩⟩
  simp [Piece.Quiet, callOn, Stmt.plainCalls, Step.plainCalls, Expr.plainCalls, Expr.allPlainCalls,
    Expr.plainName]

mutual

theorem allQuiet_subtreePlan (g : Generation) (tree : String) : ∀ (t : Subtree) (parent : String),
    Piece.AllQuiet (g.subtreePlan tree t parent)
  | .mk n children, parent => by
      have below := allQuiet_subtreesPlan g tree children
      rw [subtreePlan]
      split
      · refine ⟨Piece.allQuiet_append.mpr ⟨allQuiet_nodePlan g tree parent n, ?_⟩, trivial⟩
        split
        · trivial
        split
        · exact ⟨quiet_machinePlan n.name n.initialState (below "fsm"), trivial⟩
        · exact below n.name
      · trivial

theorem allQuiet_subtreesPlan (g : Generation) (tree : String) :
    ∀ (ts : List Subtree) (parent : String), Piece.AllQuiet (g.subtreesPlan tree ts parent)
  | [], _ => trivial
  | t :: ts, parent => Piece.allQuiet_append.mpr
      ⟨allQuiet_subtreePlan g tree t parent, allQuiet_subtreesPlan g tree ts parent⟩

end

theorem allQuiet_code : ∀ {ss : List Stmt}, (∀ s ∈ ss, s.plainCalls = []) →
    Piece.AllQuiet (ss.map .code)
  | [], _ => trivial
  | s :: _, h =>
    ⟨h s mem_cons_self, allQuiet_code fun t ht => h t (mem_cons_of_mem _ ht)⟩

theorem plainCalls_addLocals (b : Behavior) :
    ∀ s ∈ g.addLocals b, s.plainCalls = [] := by
  intro s hs
  rw [addLocals] at hs
  split at hs
  · cases hs
  · rcases mem_cons.mp hs with rfl | hs
    · rfl
    · obtain ⟨l, _, rfl⟩ := mem_map.mp hs
      rfl

theorem allQuiet_plan (b : Behavior) : Piece.AllQuiet (g.plan b) := by
  have below := allQuiet_subtreesPlan g b.className b.children
  have start : Piece.AllQuiet ((.step (.define "tree" (.call (.member "bt" "NewTree")
      [.string b.name])) :: g.addLocals b).map .code) :=
    allQuiet_code (forall_mem_cons.mpr ⟨rfl, plainCalls_addLocals g b⟩)
  refine Piece.allQuiet_append.mpr ⟨Piece.allQuiet_append.mpr ⟨Piece.allQuiet_append.mpr
    ⟨start, allQuiet_attachmentsPlan g b.className "tree" b.attachments⟩, rfl, ?_⟩, rfl, trivial⟩
  split
  · exact ⟨quiet_machinePlan "tree" b.initialState (below "fsm"), trivial⟩
  · exact below "tree"

/-- The tree is built by calls of the constructors of the declared classes, in their order. -/
theorem plainCalls_plan {g : Generation} (plain : g.registry.Plain) (b : Behavior) :
    Stmt.allPlainCalls (Piece.emitAll g (g.plan b)).value =
      (g.classed b.className b.visited).map fun c => "New" ++ c.2 := by
  rw [Piece.plainCalls_emitAll plain _ (allQuiet_plan g b), allCreations_plan,
    ← filterMap_withClass, map_filterMap]
  refine filterMap_congr fun c _ => ?_
  cases h : c.2 <;> simp [constructor?, h]

/-- The recipes are called to declare the visited items that have a class and to create all visited
items. The creations that are given a class are the declarations, one by one and in order. Every class that is
declared in the common way has its type and constructor in front of the method that builds the tree. That
method calls these constructors in that order if the recipes create items in the common way. Distinct ids
give distinct classes. -/
theorem passes_agree (g : Generation) (b : Behavior) :
    let declared := g.classed b.className b.visited
    (g.behavior b = do
      Emit.usePackage "bt"
      let classes ← g.declareEach declared
      let body ← Piece.emitAll g (g.plan b)
      return preamble b ++ classes ++ [.func (newTree b body)]) ∧
    Piece.allCreations (g.plan b) = b.visited.map (fun i => (i, g.class? b.className i)) ∧
    (Piece.allCreations (g.plan b)).filterMap (fun c => c.2.map fun name => (c.1, name)) = declared ∧
    (∀ c ∈ declared, g.Standard c.1 → Announced (g.declareEach declared).value c.2) ∧
    (g.registry.Plain → Stmt.allPlainCalls (Piece.emitAll g (g.plan b)).value =
      declared.map fun c => "New" ++ c.2) ∧
    (b.nodeIds.Nodup → b.attachmentIds.Nodup → (declared.map (·.2)).Nodup) := by
  have created := allCreations_plan g b
  refine ⟨?_, created, ?_, fun c => announced_classed, fun plain => plainCalls_plan plain b,
    nodup_classed g b.className⟩
  · rw [behavior_eq, declareAttachments_eq, declareSubtrees_eq, ← declareEach_append,
      ← classed_append, treeBody_eq]
    rfl
  · rw [created, filterMap_withClass]

/-- A tree with classes of nodes and attachments in a state machine, and equal ids of a node and an
attachment. -/
def sentry : Behavior where
  name := "Sentry"
  path := "ai/sentry.xml"
  agentType := "Guard"
  attachments := [{ id := 1, kind := .event { task := "Guard::alarm", tree := "ai/alarm" } }]
  children :=
    [.mk { id := 1, kind := .plain .sequence, fsm := true }
      [.mk { id := -12, kind := .action {}, attachments := [{ id := -12, kind := .event {} }] } [],
       .mk { id := 2, kind := .plain .noop } []]]

theorem passes_agree_sentry :
    Registry.builtin.Plain ∧ sentry.nodeIds.Nodup ∧ sentry.attachmentIds.Nodup ∧
    Announced (declareEach { catalog := {} } (classed { catalog := {} } sentry.className sentry.visited)).value
      "EventAiSentryAttach1" ∧
    Stmt.allPlainCalls (Piece.emitAll { catalog := {} } (plan { catalog := {} } sentry)).value =
      (classed { catalog := {} } sentry.className sentry.visited).map (fun c => "New" ++ c.2) ∧
    ((classed { catalog := {} } sentry.className sentry.visited).map (·.2)).Nodup := by
  have nodes : sentry.nodeIds.Nodup := by decide
  have attachments : sentry.attachmentIds.Nodup := by decide
  have agree := passes_agree { catalog := {} } sentry
  have first := agree.2.2.2.1 _ mem_cons_self (Registry.builtinAttachment_standard _)
  exact ⟨Registry.builtin_plain, nodes, attachments, first, agree.2.2.2.2.1 Registry.builtin_plain,
    agree.2.2.2.2.2 nodes attachments⟩

end Generation

end GoTrees
