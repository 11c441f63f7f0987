import GoTrees.Proofs.Getters

/-!
# Classes of one file

A file declares the classes of its behaviors one after the other, and ids start anew in each of them. The
class of a node keeps the name of its tree between two underscores, so nodes of different trees never share
a class. The class of an attachment is in Pascal case, where the underscores are gone:

    Action   ai_patrol   node1        Action_ai_patrol_node1
    Event    ai_patrol   attach1      EventAiPatrolAttach1
    Event    aiPatrol    attach1      EventAiPatrolAttach1

So a class is declared twice exactly when two trees whose names have one form in Pascal case carry
attachments of the same kind and id.
-/

namespace GoTrees

open Go List

/-! ### Declared classes in order -/

namespace Go

/-- The class that a declaration declares: a struct that embeds a runtime type. -/
def Decl.class? : Decl → Option String
  | .embedding name _ _ => some name
  | _ => none

def classesOf (ds : List Decl) : List String := ds.filterMap Decl.class?

theorem classesOf_append (ds es : List Decl) : classesOf (ds ++ es) = classesOf ds ++ classesOf es :=
  filterMap_append

end Go

theorem Item.classesOf_methods (x : Context) (i : Item) (className : String) :
    classesOf (i.methods x className).value = [] := by
  have source := i.methodsFrom x className
  generalize i.methods x className = decls at source ⊢
  cases source <;> rfl

namespace Generation

variable {g : Generation}

theorem classesOf_declareItem (builtin : g.registry = .builtin) (c : String) {i : Item}
    (declared : g.declares i = true) : classesOf (g.declareItem (i, c)).value = [c] := by
  obtain ⟨x, r⟩ := g
  subst builtin
  have methods := i.classesOf_methods x c
  rw [declareItem_builtin, if_pos declared]
  exact congrArg (c :: ·) methods

theorem classesOf_declareEach (builtin : g.registry = .builtin) (tree : String) : ∀ is : List Item,
    classesOf (g.declareEach (g.classed tree is)).value = is.filterMap (g.class? tree)
  | [] => rfl
  | i :: is => by
      have rest := classesOf_declareEach builtin tree is
      rw [classed] at rest ⊢
      cases h : g.class? tree i with
      | none => simpa [h] using rest
      | some c =>
        have declared := classesOf_declareItem builtin c (class?_eq_some.mp h).1
        simp [h, declareEach, classesOf_append, declared, rest]

theorem classesOf_behavior (builtin : g.registry = .builtin) (b : Behavior) :
    classesOf (g.behavior b).value = b.visited.filterMap (g.class? b.className) := by
  have front : classesOf (preamble b) = [] := by
    rw [preamble]
    cases b.comment.isEmpty <;> rfl
  rw [behavior_eq, declareAttachments_eq, declareSubtrees_eq, ← declareEach_append, ← classed_append,
    ← Behavior.visited]
  simp only [Emit.value_bind, Emit.value_pure, classesOf_append, front, classesOf_declareEach builtin]
  exact List.append_nil _

/-- The classes in the code of behaviors are those of what they visit. -/
theorem classesOf_behaviors (builtin : g.registry = .builtin) : ∀ bs : List Behavior,
    classesOf (g.behaviors bs).value = bs.flatMap fun b => b.visited.filterMap (g.class? b.className)
  | [] => rfl
  | b :: bs => by
      have first := classesOf_behavior (g := { g with agentType := b.agentType }) builtin b
      have rest := classesOf_behaviors builtin bs
      rw [behaviors, flatMap_cons, ← rest]
      simp only [Emit.value_bind, Emit.value_pure, classesOf_append, first]
      rfl

/-! ### Classes of different trees -/

/-- The recipe of a node of a known kind alone declares a class. -/
theorem tag_ne_unknown_of_declares (builtin : g.registry = .builtin) {n : Node}
    (h : g.declares (.node n) = true) : n.tag ≠ .unknown := by
  intro unknown
  rw [declares, builtin, unknown] at h
  cases h

theorem declares_attachment (builtin : g.registry = .builtin) (a : Attachment) :
    g.declares (.attachment a) = true ↔ a.tag ≠ .unknown := by
  rw [declares, builtin]
  obtain ⟨id, kind, enabled, transition⟩ := a
  cases kind <;> simp [Attachment.tag, AttachmentKind.tag] <;> rfl

end Generation

theorem NodeTag.underscore_notMem_name (t : NodeTag) : '_' ∉ t.name.toList := by
  cases t <;> decide

theorem Node.exportClass_eq {n : Node} (known : n.tag ≠ .unknown) : n.exportClass = n.tag.name := by
  obtain ⟨id, kind, enabled, asChild, fsm, initialState, attachments⟩ := n
  cases kind <;> first | rfl | exact absurd rfl known

theorem Attachment.exportClass_eq {a : Attachment} (known : a.tag ≠ .unknown) :
    a.exportClass = a.tag.name := by
  obtain ⟨id, kind, enabled, transition⟩ := a
  cases kind <;> first | rfl | exact absurd rfl known

theorem Node.underscore_notMem_name (n : Node) : '_' ∉ n.name.toList := by
  rw [toList_name]
  simp only [mem_cons, not_or]
  refine ⟨by decide, by decide, by decide, by decide, fun h => ?_⟩
  exact absurd (isNumeral_of_mem_toString h) (by decide)

namespace Generation

variable {g : Generation}

theorem tree_of_nodeClass {n m : Node} {t u : String} (hn : n.tag ≠ .unknown) (hm : m.tag ≠ .unknown)
    (h : className t (.node n) = className u (.node m)) : t = u := by
  have spelled (n : Node) (t : String) : (className t (.node n)).toList =
      n.exportClass.toList ++ '_' :: (t.toList ++ '_' :: n.name.toList) := by
    simp [className]
  have whole := congrArg String.toList h
  rw [spelled, spelled, Node.exportClass_eq hn, Node.exportClass_eq hm] at whole
  -- the kind has no underscore in it, and neither has the variable of the node
  have behind := (append_first_inj n.tag.underscore_notMem_name m.tag.underscore_notMem_name whole).2
  exact String.toList_inj.mp
    (append_last_inj n.underscore_notMem_name m.underscore_notMem_name behind).1

theorem toList_attachmentClass (t : String) (a : Attachment) : (className t (.attachment a)).toList =
    (pascalCase a.exportClass).toList ++ (pascalCase t).toList ++
      'A' :: 't' :: 't' :: 'a' :: 'c' :: 'h' :: (toString a.id).toList := by
  rw [className, toList_pascalCase_append, toList_pascalCase_append, toList_pascalCase_name]

/-- The kinds of attachments that get a class. -/
def classedTags : List AttachmentTag := [.attachAction, .precondition, .effector, .event]

theorem mem_classedTags {a : Attachment} (known : a.tag ≠ .unknown) : a.tag ∈ classedTags := by
  obtain ⟨id, kind, enabled, transition⟩ := a
  cases kind <;> simp [Attachment.tag, AttachmentKind.tag, classedTags] at known ⊢

/-- The first two letters of a class tell the kinds of attachments apart. -/
theorem tag_of_initials : ∀ s ∈ classedTags, ∀ t ∈ classedTags,
    (pascalCase s.name).toList.take 2 = (pascalCase t.name).toList.take 2 → s = t := by
  decide

theorem two_le_length : ∀ s ∈ classedTags, 2 ≤ (pascalCase s.name).toList.length := by
  decide

/-- Attachments have the same class exactly if kind, id and tree are the same. -/
theorem attachmentClass_inj {a b : Attachment} {t u : String} (ha : a.tag ≠ .unknown)
    (hb : b.tag ≠ .unknown) : className t (.attachment a) = className u (.attachment b) ↔
      a.tag = b.tag ∧ a.id = b.id ∧ pascalCase t = pascalCase u := by
  constructor
  · intro same
    have whole := congrArg String.toList same
    rw [toList_attachmentClass, toList_attachmentClass, Attachment.exportClass_eq ha,
      Attachment.exportClass_eq hb] at whole
    have tags : a.tag = b.tag := by
      have front := congrArg (List.take 2) whole
      rw [List.append_assoc, List.append_assoc, take_append_of_le_length
        (two_le_length _ (mem_classedTags ha)),
        take_append_of_le_length (two_le_length _ (mem_classedTags hb))] at front
      exact tag_of_initials _ (mem_classedTags ha) _ (mem_classedTags hb) front
    have ids : a.id = b.id := by
      refine (append_number_inj (c := 'h') (d := 'h') rfl rfl
        (a := (pascalCase a.tag.name).toList ++ (pascalCase t).toList ++ ['A', 't', 't', 'a', 'c'])
        (b := (pascalCase b.tag.name).toList ++ (pascalCase u).toList ++ ['A', 't', 't', 'a', 'c']) ?_).2
      simpa using whole
    rw [tags, ids, append_cancel_right_eq, append_cancel_left_eq] at whole
    exact ⟨tags, ids, String.toList_inj.mp whole⟩
  · rintro ⟨tags, ids, trees⟩
    rw [← String.toList_inj, toList_attachmentClass, toList_attachmentClass, Attachment.exportClass_eq ha,
      Attachment.exportClass_eq hb, tags, ids, trees]

/-- Trees whose names have one form in Pascal case have no attachments of the same kind and id. -/
def Separated (b b' : Behavior) : Prop :=
  pascalCase b.className = pascalCase b'.className → ∀ a a', .attachment a ∈ b.visited →
    .attachment a' ∈ b'.visited → a.tag ≠ .unknown → a.tag = a'.tag → a.id ≠ a'.id

theorem mem_classes {b : Behavior} {c : String} : c ∈ b.visited.filterMap (g.class? b.className) ↔
    ∃ i ∈ b.visited, g.declares i = true ∧ className b.className i = c := by
  simp [mem_filterMap, class?_eq_some]

/-- Two trees share no class exactly if their attachments are told apart. -/
theorem disjoint_classes (builtin : g.registry = .builtin) {b b' : Behavior}
    (trees : b.className ≠ b'.className) :
    List.Disjoint (b.visited.filterMap (g.class? b.className))
      (b'.visited.filterMap (g.class? b'.className)) ↔ Separated b b' := by
  constructor
  · intro apart pascal a a' ha ha' known tags ids
    have known' : a'.tag ≠ .unknown := tags ▸ known
    have same := (attachmentClass_inj known known').mpr ⟨tags, ids, pascal⟩
    exact apart (mem_classes.mpr ⟨_, ha, (declares_attachment builtin a).mpr known, same⟩)
      (mem_classes.mpr ⟨_, ha', (declares_attachment builtin a').mpr known', rfl⟩)
  · intro separated c hc hc'
    obtain ⟨i, hi, declared, rfl⟩ := mem_classes.mp hc
    obtain ⟨j, hj, declared', same⟩ := mem_classes.mp hc'
    have letters := (className_inj same).1
    cases i with
    | node n => cases j with
      | node m =>
        exact trees (tree_of_nodeClass (tag_ne_unknown_of_declares builtin declared')
          (tag_ne_unknown_of_declares builtin declared) same).symm
      | attachment _ => exact absurd letters (by simp [Item.letter])
    | attachment a => cases j with
      | node _ => exact absurd letters (by simp [Item.letter])
      | attachment a' =>
        have known := (declares_attachment builtin a).mp declared
        have known' := (declares_attachment builtin a').mp declared'
        obtain ⟨tags, ids, pascal⟩ := (attachmentClass_inj known' known).mp same
        exact separated pascal.symm a a' hi hj known tags.symm ids.symm

/-- The file of some behaviors declares the classes of their nodes and attachments. For trees of different
names whose nodes and whose attachments have different ids, no class is declared twice exactly if trees whose
names have one form in Pascal case have no attachments of the same kind and id. -/
theorem classes_nodup_iff (g : Generation) (path : String) (bs : List Behavior)
    (builtin : g.registry = .builtin) (trees : (bs.map Behavior.className).Nodup)
    (nodes : ∀ b ∈ bs, b.nodeIds.Nodup) (attachments : ∀ b ∈ bs, b.attachmentIds.Nodup) :
    let code := g.behaviors bs
    g.file path bs =
      assemble path g.config.treesPackage (importLines g.config code.needs.imports) code.value ∧
    classesOf code.value = bs.flatMap (fun b => b.visited.filterMap (g.class? b.className)) ∧
    ((classesOf code.value).Nodup ↔ bs.Pairwise Separated) := by
  have each : ∀ b ∈ bs, (b.visited.filterMap (g.class? b.className)).Nodup := by
    intro b hb
    rw [← map_classed]
    exact nodup_classed g b.className (nodes b hb) (attachments b hb)
  have apart : bs.Pairwise fun b b' => b.className ≠ b'.className := pairwise_map.mp trees
  refine ⟨rfl, classesOf_behaviors builtin bs, ?_⟩
  rw [classesOf_behaviors builtin, nodup_flatMap]
  constructor
  · intro h
    exact (apart.and h.2).imp fun pair => (disjoint_classes builtin pair.1).mp pair.2
  · intro h
    exact ⟨each, (apart.and h).imp fun pair => (disjoint_classes builtin pair.1).mpr pair.2⟩

/-- A tree with an action and some attachments, which may have the id of the action. -/
def rounds (path : String) (attachments : List Attachment) : Behavior where
  name := "Rounds"
  path
  agentType := "Guard"
  attachments
  children := [.mk { id := 1, kind := .action {} } []]

/-- Trees whose names have one form in Pascal case, with attachments of different kinds or ids. -/
def patrols : List Behavior :=
  [rounds "ai/patrol.xml" [{ id := 1, kind := .event {} }],
   rounds "aiPatrol.xml" [{ id := 2, kind := .event {} }, { id := 1, kind := .attachAction {} }]]

theorem classes_nodup_iff_patrols :
    (patrols.map Behavior.className).Nodup ∧ (∀ b ∈ patrols, b.nodeIds.Nodup) ∧
    (∀ b ∈ patrols, b.attachmentIds.Nodup) ∧
    (classesOf (behaviors { catalog := {} } patrols).value).Nodup ∧ patrols.Pairwise Separated := by
  have trees : (patrols.map Behavior.className).Nodup := by decide
  have nodes : ∀ b ∈ patrols, b.nodeIds.Nodup := by decide
  have attachments : ∀ b ∈ patrols, b.attachmentIds.Nodup := by decide
  obtain ⟨-, -, nodup⟩ := classes_nodup_iff { catalog := {} } "trees.go" patrols rfl trees nodes attachments
  have distinct : (classesOf (behaviors { catalog := {} } patrols).value).Nodup := by decide +kernel
  exact ⟨trees, nodes, attachments, distinct, nodup.mp distinct⟩

/-- Two trees with an event of the same id. -/
def alarms : List Behavior :=
  [rounds "ai/patrol.xml" [{ id := 1, kind := .event {} }],
   rounds "aiPatrol.xml" [{ id := 1, kind := .event {} }]]

/-- Different trees may declare the same class twice. -/
theorem class_declared_twice :
    (alarms.map Behavior.className).Nodup ∧ (∀ b ∈ alarms, b.nodeIds.Nodup) ∧
    (∀ b ∈ alarms, b.attachmentIds.Nodup) ∧
    classesOf (behaviors { catalog := {} } alarms).value =
      ["EventAiPatrolAttach1", "Action_ai_patrol_node1", "EventAiPatrolAttach1",
        "Action_aiPatrol_node1"] ∧
    ¬ (classesOf (behaviors { catalog := {} } alarms).value).Nodup := by
  refine ⟨by decide, by decide, by decide, ?_, ?_⟩ <;> decide +kernel

end Generation

end GoTrees
