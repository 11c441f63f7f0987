import GoTrees.Emit.Behavior

/-!
# Laws of emission

Emitting is a value beside needs that only grow, so it is a lawful monad: needs are appended in the order
in which code is emitted. What holds of the bare recipe and of every built-in one holds of whichever
recipe the built-in registry finds for a tag.
-/

namespace GoTrees

open Go List

namespace Needs

@[ext] theorem ext : ∀ {a b : Needs}, a.imports = b.imports → a.fields = b.fields →
    a.setup = b.setup → a = b
  | ⟨_, _, _⟩, ⟨_, _, _⟩, rfl, rfl, rfl => rfl

@[simp] theorem imports_append (a b : Needs) : (a ++ b).imports = a.imports ++ b.imports := rfl
@[simp] theorem fields_append (a b : Needs) : (a ++ b).fields = a.fields ++ b.fields := rfl
@[simp] theorem setup_append (a b : Needs) : (a ++ b).setup = a.setup ++ b.setup := rfl

@[simp] theorem empty_append (a : Needs) : ({} : Needs) ++ a = a := by
  ext : 1 <;> simp

@[simp] theorem append_empty (a : Needs) : a ++ ({} : Needs) = a := by
  ext : 1 <;> simp

theorem append_assoc (a b c : Needs) : a ++ b ++ c = a ++ (b ++ c) := by
  ext : 1 <;> simp

end Needs

namespace Emit

variable {α β : Type}

@[ext] theorem ext : ∀ {a b : Emit α}, a.value = b.value → a.needs = b.needs → a = b
  | ⟨_, _⟩, ⟨_, _⟩, rfl, rfl => rfl

@[simp] theorem value_pure (a : α) : (pure a : Emit α).value = a := rfl
@[simp] theorem needs_pure (a : α) : (pure a : Emit α).needs = {} := rfl

@[simp] theorem value_bind (x : Emit α) (f : α → Emit β) : (x >>= f).value = (f x.value).value := rfl

@[simp] theorem needs_bind (x : Emit α) (f : α → Emit β) :
    (x >>= f).needs = x.needs ++ (f x.value).needs := rfl

@[simp] theorem value_map (f : α → β) (x : Emit α) : (f <$> x).value = f x.value := rfl

@[simp] theorem needs_map (f : α → β) (x : Emit α) : (f <$> x).needs = x.needs :=
  x.needs.append_empty

theorem id_map_emit (x : Emit α) : id <$> x = x := Emit.ext rfl x.needs.append_empty

theorem pure_bind_emit (a : α) (f : α → Emit β) : pure a >>= f = f a :=
  Emit.ext rfl (f a).needs.empty_append

theorem bind_assoc_emit {γ : Type} (x : Emit α) (f : α → Emit β) (g : β → Emit γ) :
    x >>= f >>= g = x >>= fun a => f a >>= g :=
  Emit.ext rfl (Needs.append_assoc x.needs (f x.value).needs (g (f x.value).value).needs)

instance : LawfulMonad Emit := .mk' Emit id_map_emit pure_bind_emit bind_assoc_emit

/-- Code emitted after other code. -/
instance : Append (Emit (List α)) := ⟨fun x y => do
  let a ← x
  return a ++ (← y)⟩

theorem append_def (x y : Emit (List α)) : x ++ y = do
    let a ← x
    return a ++ (← y) := rfl

@[simp] theorem value_append (x y : Emit (List α)) : (x ++ y).value = x.value ++ y.value := rfl

@[simp] theorem needs_append (x y : Emit (List α)) : (x ++ y).needs = x.needs ++ y.needs := by
  simp [append_def]

@[simp] theorem nil_append (x : Emit (List α)) : pure [] ++ x = x := by
  ext : 1 <;> simp

@[simp] theorem append_nil (x : Emit (List α)) : x ++ pure [] = x := by
  ext : 1 <;> simp

theorem append_assoc (x y z : Emit (List α)) : x ++ y ++ z = x ++ (y ++ z) := by
  ext : 1 <;> simp [Needs.append_assoc]

end Emit

namespace Registry

theorem nodes_foldl_register : ∀ (l : List (NodeTag × NodeRecipe)) (r : Registry) {t : NodeTag}
    {recipe : NodeRecipe}, (l.foldl (fun r e => r.register e.1 e.2) r).nodes t = some recipe →
    (∃ e ∈ l, e.2 = recipe) ∨ r.nodes t = some recipe
  | [], _, _, _, h => Or.inr h
  | e :: l, r, t, recipe, h => by
      rcases nodes_foldl_register l (r.register e.1 e.2) h with ⟨e', he', heq⟩ | hr
      · exact Or.inl ⟨e', mem_cons_of_mem _ he', heq⟩
      · simp only [register] at hr
        split at hr
        · exact Or.inl ⟨e, mem_cons_self, Option.some.inj hr⟩
        · exact Or.inr hr

theorem attachments_foldl_register : ∀ (l : List (AttachmentTag × AttachmentRecipe)) (r : Registry)
    {t : AttachmentTag} {recipe : AttachmentRecipe},
    (l.foldl (fun r e => r.registerAttachment e.1 e.2) r).attachments t = some recipe →
    (∃ e ∈ l, e.2 = recipe) ∨ r.attachments t = some recipe
  | [], _, _, _, h => Or.inr h
  | e :: l, r, t, recipe, h => by
      rcases attachments_foldl_register l (r.registerAttachment e.1 e.2) h with ⟨e', he', heq⟩ | hr
      · exact Or.inl ⟨e', mem_cons_of_mem _ he', heq⟩
      · simp only [registerAttachment] at hr
        split at hr
        · exact Or.inl ⟨e, mem_cons_self, Option.some.inj hr⟩
        · exact Or.inr hr

theorem nodes_foldl_registerAttachment : ∀ (l : List (AttachmentTag × AttachmentRecipe))
    (r : Registry), (l.foldl (fun r e => r.registerAttachment e.1 e.2) r).nodes = r.nodes
  | [], _ => rfl
  | e :: l, r => nodes_foldl_registerAttachment l (r.registerAttachment e.1 e.2)

theorem attachments_foldl_registerNode : ∀ (l : List (NodeTag × NodeRecipe)) (r : Registry),
    (l.foldl (fun r e => r.register e.1 e.2) r).attachments = r.attachments
  | [], _ => rfl
  | e :: l, r => attachments_foldl_registerNode l (r.register e.1 e.2)

theorem builtin_node {P : NodeRecipe → Prop} (bare : P .bare) (all : ∀ e ∈ builtinNodes, P e.2)
    (tag : NodeTag) : P (builtin.node tag) := by
  rw [node]
  cases hf : tag.ancestry.findSome? builtin.nodes with
  | none => exact bare
  | some recipe =>
    obtain ⟨t, _, ht⟩ := exists_of_findSome?_eq_some hf
    rw [builtin, nodes_foldl_registerAttachment] at ht
    rcases nodes_foldl_register builtinNodes empty ht with ⟨e, he, rfl⟩ | h
    · exact all e he
    · exact absurd h (by simp [empty])

theorem builtin_attachment {P : AttachmentRecipe → Prop} (bare : P .bare)
    (all : ∀ e ∈ builtinAttachments, P e.2) (tag : AttachmentTag) : P (builtin.attachment tag) := by
  rw [attachment]
  cases hf : tag.ancestry.findSome? builtin.attachments with
  | none => exact bare
  | some recipe =>
    obtain ⟨t, _, ht⟩ := exists_of_findSome?_eq_some hf
    rw [builtin] at ht
    rcases attachments_foldl_register builtinAttachments _ ht with ⟨e, he, rfl⟩ | h
    · exact all e he
    · rw [attachments_foldl_registerNode] at h
      exact absurd h (by simp [empty])

/-- Built-in recipes create nodes in the common way. -/
theorem builtin_create (tag : NodeTag) (x : Context) (n : Node) (className : Option String) :
    (builtin.node tag).create x n className = createNode n className := by
  refine builtin_node (P := fun r => r.create x n className = createNode n className) rfl ?_ tag
  simp only [builtinNodes, forall_mem_cons, not_mem_nil, false_imp_iff, implies_true, and_true]
  and_intros <;> rfl

theorem builtin_createAttachment (tag : AttachmentTag) (x : Context) (a : Attachment)
    (className : Option String) :
    (builtin.attachment tag).create x a className = createAttachment a className := by
  refine builtin_attachment (P := fun r => r.create x a className = createAttachment a className)
    rfl ?_ tag
  simp only [builtinAttachments, forall_mem_cons, not_mem_nil, false_imp_iff, implies_true, and_true]
  and_intros <;> rfl

end Registry

/-- The recipe declares classes in the common way. -/
def NodeRecipe.Standard (r : NodeRecipe) : Prop := ∀ x n className, r.declare x n className =
  if r.declares n then declareClass n.runtimeType [] (r.setup x n) (r.methods x n className) className
  else pure []

/-- The recipe declares classes in the common way. -/
def AttachmentRecipe.Standard (r : AttachmentRecipe) : Prop := ∀ x a className, r.declare x a className =
  if r.declares a then
    declareClass a.runtimeType [setSelf "Id" (.int a.id)] (r.setup x a) (r.methods x a className) className
  else pure []

namespace Registry

theorem builtin_standard (tag : NodeTag) : (builtin.node tag).Standard := by
  refine builtin_node (P := NodeRecipe.Standard) (fun _ _ _ => rfl) ?_ tag
  simp only [builtinNodes, forall_mem_cons, not_mem_nil, false_imp_iff, implies_true, and_true]
  and_intros <;> exact fun _ _ _ => rfl

theorem builtinAttachment_standard (tag : AttachmentTag) : (builtin.attachment tag).Standard := by
  refine builtin_attachment (P := AttachmentRecipe.Standard) (fun _ _ _ => rfl) ?_ tag
  simp only [builtinAttachments, forall_mem_cons, not_mem_nil, false_imp_iff, implies_true, and_true]
  and_intros <;> exact fun _ _ _ => rfl

end Registry

namespace Generation

/-- The method `NewTree` of a behavior. -/
def newTree (b : Behavior) (body : List Stmt) : Func where
  receiver := some ("_o", b.name)
  name := "NewTree"
  result := some "*bt.Tree"
  body

/-- What stands in front of the classes of a behavior. -/
def preamble (b : Behavior) : List Decl :=
  [.blank, .comment ("Source file: " ++ b.sourceName), .blank]
    ++ (if b.comment.isEmpty then [] else [.comment b.comment]) ++ [.record b.name none [], .blank]

/-- The code of a behavior is its classes followed by the method that builds the tree. -/
theorem behavior_eq (g : Generation) (b : Behavior) : g.behavior b = do
    Emit.usePackage "bt"
    let classes ← g.declareAttachments b.className b.attachments
      ++ g.declareSubtrees b.className b.children
    let body ← g.treeBody b
    return preamble b ++ classes ++ [.func (newTree b body)] := by
  rw [behavior]
  ext : 1 <;> simp [preamble, newTree, Needs.append_assoc]

end Generation

end GoTrees
