import GoTrees.Load.Behavior
import Mathlib

/-!
# Operands of a loaded tree

A tree holds operands in its nodes and attachments, and operands hold others in their indexes and arguments.
Loading walks the document along the same lines, so a loaded tree mirrors its document: the operand of a
field is what the value of that field of the node refers to, and the operands inside it what the values
inside it refer to. What a written operand refers to is said once, in `Resolved`; all that holds of every
operand of a tree follows from that.

    document value ──loadBehavior──▶ tree
          │ fields                     │ operands
          ▼                            ▼
    written operand ──operandWithin──▶ operand
-/

namespace GoTrees

open List

/-! ### Operands at every depth -/

/-- The operand is `inner` or holds it in an index or an argument. -/
inductive Operand.Part (inner : Operand) : Operand → Prop
  | self : Part inner inner
  | index {p : Property} {i : Variable} (deeper : Part inner (.var i)) : Part inner (.var (.element p i))
  | arg {m : Method} {args : List (Option Operand)} {a : Operand} (mem : some a ∈ args)
      (deeper : Part inner a) : Part inner (.call m args)

def Call.operand (c : Call) : Operand := .call c.1 c.2

def Action.operands (a : Action) : List Operand :=
  (a.method.map Call.operand).toList ++ (a.resultFunctor.map Call.operand).toList

def NodeKind.operands : NodeKind → List Operand
  | .plain _ | .parallel _ | .log _ | .unknown _ => []
  | .reference o | .frames o | .wait o | .waitFrames o | .finish o _ => o.toList
  | .counted _ x | .loopUntil x _ | .weight x => (x.map .var).toList
  | .action a => a.operands
  | .assignment a => (a.target.map .var).toList ++ a.source.toList
  | .compute c => (c.target.map .var).toList ++ c.first.toList ++ c.second.toList
  | .condition c => c.left.toList ++ c.right.toList

def AttachAction.operands (a : AttachAction) : List Operand :=
  a.target.toList ++ a.first.toList ++ a.second.toList

/-- The operands of a node by the fields that they are written in. -/
def NodeKind.fields : NodeKind → List (String × Option Operand)
  | .plain _ | .parallel _ | .log _ | .unknown _ => []
  | .reference o => [("tree", o)]
  | .frames o | .waitFrames o => [("frames", o)]
  | .wait o => [("time", o)]
  | .finish o _ => [("status", o)]
  | .counted _ x | .loopUntil x _ => [("count", x.map .var)]
  | .weight x => [("weight", x.map .var)]
  | .action a => [("method", a.method.map Call.operand), ("result_functor", a.resultFunctor.map Call.operand)]
  | .assignment a => [("opl", a.target.map .var), ("opr", a.source)]
  | .compute c => [("opl", c.target.map .var), ("opr1", c.first), ("opr2", c.second)]
  | .condition c => [("opl", c.left), ("opr", c.right)]

/-- The operands of an attached action by the fields that they are written in. -/
def AttachAction.fields (a : AttachAction) : List (String × Option Operand) :=
  [("opl", a.target), ("opr1", a.first), ("opr2", a.second)]

theorem NodeKind.operands_eq (k : NodeKind) : k.operands = k.fields.flatMap (·.2.toList) := by
  cases k <;> simp [operands, fields, Action.operands]

theorem AttachAction.operands_eq (a : AttachAction) : a.operands = a.fields.flatMap (·.2.toList) := by
  simp [operands, fields]

def Attachment.operands (a : Attachment) : List Operand :=
  a.kind.action?.toList.flatMap AttachAction.operands

def Node.operands (n : Node) : List Operand :=
  n.kind.operands ++ n.attachments.flatMap Attachment.operands

mutual

/-- The operands of a node and of what is below it. -/
def Subtree.operands : Subtree → List Operand
  | .mk node children => node.operands ++ Subtree.allOperands children

def Subtree.allOperands : List Subtree → List Operand
  | [] => []
  | t :: ts => t.operands ++ Subtree.allOperands ts

end

/-- The operands of the nodes and attachments of a tree. -/
def Behavior.operands (b : Behavior) : List Operand :=
  b.attachments.flatMap Attachment.operands ++ Subtree.allOperands b.children

/-- The tree holds the operand at some depth. -/
def Behavior.Holds (b : Behavior) (o : Operand) : Prop := ∃ top ∈ b.operands, o.Part top

theorem Subtree.mem_allOperands {o : Operand} (ts : List Subtree) :
    o ∈ Subtree.allOperands ts ↔ ∃ t ∈ ts, o ∈ t.operands := by
  induction ts with
  | nil => simp [Subtree.allOperands]
  | cons t ts ih => simp [Subtree.allOperands, ih]

theorem Subtree.mem_operands {o : Operand} {n : Node} {ts : List Subtree} :
    o ∈ (Subtree.mk n ts).operands ↔ o ∈ n.operands ∨ ∃ t ∈ ts, o ∈ t.operands := by
  rw [Subtree.operands, mem_append, Subtree.mem_allOperands]

/-! ### Values at every depth -/

namespace Yaml.Value

/-- The value is `w` or holds it in an item or under a key. -/
inductive Within (w : Value) : Value → Prop
  | self : Within w w
  | item {items : List Value} {x : Value} (mem : x ∈ items) (deeper : Within w x) :
      Within w (.sequence items)
  | field {pairs : List (Value × Value)} {k x : Value} (mem : (k, x) ∈ pairs) (deeper : Within w x) :
      Within w (.mapping pairs)

theorem Within.trans {u w v : Value} (h : u.Within w) (h' : w.Within v) : u.Within v := by
  induction h' with
  | self => exact h
  | item mem _ ih => exact .item mem ih
  | field mem _ ih => exact .field mem ih

theorem within_of_get? {v x : Value} {key : String} (h : v.get? key = some x) : x.Within v := by
  cases v with
  | mapping pairs =>
    obtain ⟨⟨k, w⟩, mem, found⟩ := exists_of_findSome?_eq_some h
    have same : w = x := by
      cases k with
      | string name =>
        dsimp only at found
        split at found
        · exact Option.some.inj found
        · cases found
      | _ => cases found
    exact .field mem (same ▸ .self)
  | _ => cases h

theorem within_of_mem_items {v x : Value} {key : String} (h : x ∈ v.items key) : x.Within v := by
  rw [items] at h
  split at h
  · next items found => exact Within.trans (.item h .self) (within_of_get? found)
  · cases h

/-- The value is a bare name, or a mapping that gives the name under a key. -/
def Names (w : Value) (key name : String) : Prop := w = .string name ∨ w.string? key = some name

end Yaml.Value

/-! ### Mirrored trees -/

section Mirrors

variable (R : Yaml.Value → Operand → Prop)

/-- An operand is there for each field that is written, and it is related to what is written. -/
def Mirrored (v : Yaml.Value) (fields : List (String × Option Operand)) : Prop :=
  ∀ f ∈ fields, Option.Rel R (v.get? f.1) f.2

def Attachment.Mirrors (v : Yaml.Value) (a : Attachment) : Prop :=
  ∀ action ∈ a.kind.action?, Mirrored R v action.fields

/-- The operands of a node mirror its fields, and its attachments and children mirror what is written for them,
one by one. -/
inductive Subtree.Mirrors : Yaml.Value → Subtree → Prop
  | mk {v : Yaml.Value} {n : Node} {ts : List Subtree} (kind : Mirrored R v n.kind.fields)
      (attached : Forall₂ (Attachment.Mirrors R) (v.items "attachments") n.attachments)
      (below : Forall₂ Mirrors (v.items "children") ts) : Mirrors v (.mk n ts)

/-- The attachments and nodes of a tree mirror what is written for them. -/
structure Behavior.Mirrors (v : Yaml.Value) (b : Behavior) : Prop where
  attached : Forall₂ (Attachment.Mirrors R) (v.items "attachments") b.attachments
  below : Forall₂ (Subtree.Mirrors R) (v.items "children") b.children

end Mirrors

section Mirrors

variable {R : Yaml.Value → Operand → Prop} {v : Yaml.Value} {o : Operand}

theorem exists_of_forall₂ {α β : Type} {S : α → β → Prop} {y : β} :
    ∀ {xs : List α} {ys : List β}, Forall₂ S xs ys →
    y ∈ ys → ∃ x ∈ xs, S x y
  | _, _, .cons first rest, h => by
      rcases mem_cons.mp h with rfl | h
      · exact ⟨_, mem_cons_self, first⟩
      · obtain ⟨x, mem, found⟩ := exists_of_forall₂ rest h
        exact ⟨x, mem_cons_of_mem _ mem, found⟩

/-- Some value inside `v` is related to the operand. -/
def Finds (R : Yaml.Value → Operand → Prop) (v : Yaml.Value) (o : Operand) : Prop := ∃ w, w.Within v ∧ R w o

theorem Finds.mono {u : Yaml.Value} (h : Finds R u o) (inside : u.Within v) : Finds R v o := by
  obtain ⟨w, deeper, related⟩ := h
  exact ⟨w, deeper.trans inside, related⟩

theorem Mirrored.related {fields : List (String × Option Operand)} (h : Mirrored R v fields) {field : String}
    (mem : (field, some o) ∈ fields) {w : Yaml.Value} (given : v.get? field = some w) : R w o := by
  have related := h _ mem
  rw [given] at related
  cases related with
  | some related => exact related

theorem Mirrored.finds {fields : List (String × Option Operand)} (h : Mirrored R v fields)
    (ho : o ∈ fields.flatMap (·.2.toList)) : Finds R v o := by
  obtain ⟨⟨field, given⟩, mem, ho⟩ := mem_flatMap.mp ho
  have related := h _ mem
  rw [Option.mem_toList.mp ho] at related
  generalize written : v.get? field = w at related
  cases related with
  | some related => exact ⟨_, Yaml.Value.within_of_get? written, related⟩

theorem finds_attached {as : List Attachment}
    (h : Forall₂ (Attachment.Mirrors R) (v.items "attachments") as) (ho : o ∈ as.flatMap Attachment.operands) :
    Finds R v o := by
  obtain ⟨a, ha, ho⟩ := mem_flatMap.mp ho
  obtain ⟨action, has, ho⟩ := mem_flatMap.mp ho
  obtain ⟨x, hx, mirrors⟩ := exists_of_forall₂ h ha
  rw [AttachAction.operands_eq] at ho
  exact ((mirrors action (Option.mem_toList.mp has)).finds ho).mono (Yaml.Value.within_of_mem_items hx)

theorem Subtree.Mirrors.finds : ∀ {t : Subtree} {v : Yaml.Value}, t.Mirrors R v → o ∈ t.operands → Finds R v o
  | .mk n ts, v, .mk kind attached below, ho => by
      rcases Subtree.mem_operands.mp ho with ho | ⟨t, ht, ho⟩
      · rcases mem_append.mp ho with ho | ho
        · exact kind.finds (n.kind.operands_eq ▸ ho)
        · exact finds_attached attached ho
      · obtain ⟨x, hx, mirrors⟩ := exists_of_forall₂ below ht
        exact (mirrors.finds ho).mono (Yaml.Value.within_of_mem_items hx)

theorem Behavior.Mirrors.finds {b : Behavior} (h : b.Mirrors R v) (ho : o ∈ b.operands) : Finds R v o := by
  rcases mem_append.mp ho with ho | ho
  · exact finds_attached h.attached ho
  · obtain ⟨t, ht, ho⟩ := (Subtree.mem_allOperands _).mp ho
    obtain ⟨x, hx, mirrors⟩ := exists_of_forall₂ h.below ht
    exact (mirrors.finds ho).mono (Yaml.Value.within_of_mem_items hx)

end Mirrors

namespace Load

/-! ### What holds after loading -/

/-- Whatever is loaded satisfies `P`. -/
def Ensures {ε α : Type} (x : Except ε α) (P : α → Prop) : Prop := ∀ a, x = .ok a → P a

namespace Ensures

variable {ε α β : Type} {P : α → Prop} {Q : β → Prop}

theorem ok {a : α} (h : P a) : Ensures (.ok a : Except ε α) P := by
  rintro b ⟨rfl⟩
  exact h

theorem error (e : ε) : Ensures (.error e) P := by
  rintro b ⟨⟩

theorem bind {x : Except ε α} {f : α → Except ε β} (hx : Ensures x P) (hf : ∀ a, P a → Ensures (f a) Q) :
    Ensures (x >>= f) Q := by
  intro b hb
  cases x with
  | error e => cases hb
  | ok a => exact hf a (hx a rfl) b hb

theorem map {x : Except ε α} {f : α → β} (hx : Ensures x P) (hf : ∀ a, P a → Q (f a)) :
    Ensures (f <$> x) Q := by
  intro b hb
  cases x with
  | error e => cases hb
  | ok a =>
    obtain rfl := Except.ok.inj hb
    exact hf a (hx a rfl)

theorem mono {P' : α → Prop} {x : Except ε α} (hx : Ensures x P) (imp : ∀ a, P a → P' a) : Ensures x P' :=
  fun a ha => imp a (hx a ha)

theorem mapM {R : α → β → Prop} {f : α → Except ε β} (hf : ∀ x, Ensures (f x) (R x)) : ∀ xs : List α,
    Ensures (xs.mapM f) (Forall₂ R xs)
  | [] => .ok .nil
  | x :: xs => by
      rw [mapM_cons]
      exact .bind (hf x) fun _ hy => .bind (mapM hf xs) fun _ hys => .ok (.cons hy hys)

end Ensures

/-! ### One written operand -/

/-- The operand is what a written operand refers to, in a tree with an agent type and local variables, and
so is each operand inside it for what is written at its place. -/
inductive Resolved (c : Catalog) (agentType : String) (locals : List Local) : Yaml.Value → Operand → Prop
  | const {w : Yaml.Value} {text type : String} {value : Value}
      (written : text = w.scalarText ∨ ∃ x, w.get? "const" = some x ∧ text = x.scalarText)
      (read : c.parseValue? text type = some value) : Resolved c agentType locals w (.var (.const type value))
  /-- The first local variable of the name. -/
  | localVar {w : Yaml.Value} {l : Local} (written : w.Names "local" l.name)
      (first : locals.find? (·.name == l.name) = some l) :
      Resolved c agentType locals w (.var (.property { name := l.name, type := l.type, isLocal := true }))
  | property {w : Yaml.Value} {name : String} {p : Property} (owner : Owner)
      (written : w.Names "property" name)
      (found : c.property? ((w.string? "class").getD agentType) name = some p) :
      Resolved c agentType locals w (.var (.property { p with owner }))
  /-- An element of an array has the type of the elements. -/
  | element {w x : Yaml.Value} {name : String} {p : Property} (owner : Owner) {i : Variable}
      (written : w.Names "property" name)
      (found : c.property? ((w.string? "class").getD agentType) name = some p)
      (given : w.get? "index" = some x)
      (index : Resolved c agentType locals x (.var i)) : Resolved c agentType locals w
        (.var (.element { p with owner, type := GoType.elementOrSelf p.type, isElement := true } i))
  /-- The first parameters have arguments, as far as there are any. -/
  | call {w : Yaml.Value} {name : String} {m : Method} (owner : Owner) {args : List Operand}
      (written : w = .string (name ++ "()") ∨ w.string? "method" = some name)
      (found : c.method? ((w.string? "class").getD agentType) name = some m)
      (bound : Forall₂ (Resolved c agentType locals) ((w.items "args").take m.params.length) args) :
      Resolved c agentType locals w (.call { m with owner } (args.map some))

/-- What an operand is resolved from resolves the operands inside it. -/
theorem Resolved.finds {c : Catalog} {agentType : String} {locals : List Local} {w : Yaml.Value}
    {inner o : Operand}
    (part : inner.Part o) (h : Resolved c agentType locals w o) :
    Finds (Resolved c agentType locals) w inner := by
  induction part generalizing w with
  | self => exact ⟨w, .self, h⟩
  | index _ ih =>
    cases h with
    | element owner written found given index => exact (ih index).mono (Yaml.Value.within_of_get? given)
  | arg mem _ ih =>
    cases h with
    | call owner written found bound =>
      obtain ⟨a, ha, same⟩ := mem_map.mp mem
      obtain rfl := Option.some.inj same
      obtain ⟨v, hv, arg⟩ := exists_of_forall₂ bound ha
      exact (ih arg).mono (Yaml.Value.within_of_mem_items (mem_of_mem_take hv))

/-- Every operand that a mirroring tree holds, at any depth, is what some written operand refers to. -/
theorem finds_of_holds {c : Catalog} {b : Behavior} {v : Yaml.Value} {o : Operand}
    (mirrors : b.Mirrors (Resolved c b.agentType b.locals) v) (held : b.Holds o) :
    Finds (Resolved c b.agentType b.locals) v o := by
  obtain ⟨top, htop, part⟩ := held
  obtain ⟨w, inside, resolved⟩ := mirrors.finds htop
  exact (resolved.finds part).mono inside

/-- What the names of this scope refer to. -/
abbrev Scope.Resolves (s : Scope) : Yaml.Value → Operand → Prop := Resolved s.catalog s.agentType s.locals

/-- Arguments are loaded in order, as many as there are parameters. -/
theorem bindArgs_ensures {R : Yaml.Value → Operand → Prop}
    {load : Yaml.Value → Option String → Except LoadError Operand}
    (hl : ∀ v expected, Ensures (load v expected) (R v)) :
    ∀ (ps : List Param) (vs : List Yaml.Value), Ensures (bindArgs load ps vs) fun args =>
      ∃ given : List Operand, args = given.map some ∧ Forall₂ R (vs.take ps.length) given
  | [], vs => by
      rw [bindArgs]
      · exact .ok ⟨[], rfl, .nil⟩
      · simp
  | p :: ps, [] => by
      rw [bindArgs]
      · exact .ok ⟨[], rfl, .nil⟩
      · simp
  | p :: ps, v :: vs => by
      rw [bindArgs]
      refine .bind (hl v _) fun a first => .bind (bindArgs_ensures hl ps vs) fun args rest => .ok ?_
      obtain ⟨given, rfl, each⟩ := rest
      exact ⟨a :: given, rfl, .cons first each⟩

namespace Scope

variable {s : Scope} {w : Yaml.Value}

theorem constant_resolves (text type : String)
    (written : text = w.scalarText ∨ ∃ x, w.get? "const" = some x ∧ text = x.scalarText) :
    Ensures (s.constant text type) (s.Resolves w) := by
  delta constant
  split
  · next value found => exact .ok (.const written found)
  · exact .error _

theorem localVariable_resolves {name : String} (written : w.Names "local" name) :
    Ensures (s.localVariable name) (s.Resolves w) := by
  rw [localVariable]
  split
  · next l found =>
    obtain rfl : l.name = name := by simpa using find?_some found
    exact .ok (.localVar written found)
  · exact .error _

theorem findProperty_ensures (cls name : String) :
    Ensures (s.findProperty cls name) fun p => s.catalog.property? cls name = some p := by
  rw [findProperty]
  split
  · next p found => exact .ok found
  · exact .error _

theorem findMethod_ensures (cls name : String) :
    Ensures (s.findMethod cls name) fun m => s.catalog.method? cls name = some m := by
  rw [findMethod]
  split
  · next m found => exact .ok found
  · exact .error _

end Scope

theorem eq_append_of_beforeTail? {s tail t : String} (h : Text.beforeTail? s tail = some t) :
    s = t ++ tail := by
  obtain ⟨rest, found, rfl⟩ := Option.map_eq_some_iff.mp h
  rw [Text.dropLead?] at found
  split at found
  · next lead =>
    obtain ⟨front, hfront⟩ := isPrefixOf_iff_prefix.mp lead
    obtain rfl := Option.some.inj found
    apply String.toList_inj.mp
    have back := congrArg List.reverse hfront
    rw [reverse_append, reverse_reverse, reverse_reverse] at back
    simp [← back]
  · cases found

namespace Scope

variable {s : Scope}

/-- A name is resolved as a method, a local, a property or a constant, in this order. -/
theorem named_resolves (name : String) (expected : Option String) :
    Ensures (s.named name expected) (s.Resolves (.string name)) := by
  unfold named
  split
  · next method tail =>
    refine .bind (findMethod_ensures _ _) fun m found => .ok ?_
    have written : Yaml.Value.string name = .string (method ++ "()") := by
      rw [eq_append_of_beforeTail? tail]
    have none : Forall₂ s.Resolves (((Yaml.Value.string name).items "args").take m.params.length) [] := by
      rw [show (Yaml.Value.string name).items "args" = [] from rfl, take_nil]
      exact .nil
    exact .call m.owner (.inl written) found none
  · split
    · exact localVariable_resolves (.inl rfl)
    · split
      · next p found => exact .ok (.property p.owner (.inl rfl) found)
      · exact constant_resolves name _ (.inl rfl)
      · exact .error _

/-- A written operand is loaded as what it refers to. -/
theorem operandWithin_resolves : ∀ (depth : Nat) (w : Yaml.Value) (expected : Option String),
    Ensures (s.operandWithin depth w expected) (s.Resolves w)
  | 0, _, _ => .error _
  | _ + 1, .string name, expected => named_resolves name expected
  | _ + 1, .bool _, _ => constant_resolves _ _ (.inl rfl)
  | _ + 1, .int _, _ => constant_resolves _ _ (.inl rfl)
  | _ + 1, .float _, _ => constant_resolves _ _ (.inl rfl)
  | _ + 1, .null, _ => .error _
  | _ + 1, .sequence _, _ => .error _
  | depth + 1, .mapping pairs, expected => by
      rw [operandWithin]
      simp only
      split
      · next x given => exact constant_resolves _ _ (.inr ⟨x, given, rfl⟩)
      · next name _ _ _ hname =>
        refine .bind (findProperty_ensures _ _) fun p found => ?_
        split
        · exact .ok (.property _ (.inr hname) found)
        · next x given =>
          refine .bind (operandWithin_resolves depth x _) fun index loaded => ?_
          split
          · exact .ok (.element _ (.inr hname) found given loaded)
          · exact .error _
      · next name _ _ _ hname => exact localVariable_resolves (.inr hname)
      · next name _ _ _ hname =>
        refine .bind (findMethod_ensures _ _) fun m found =>
          .bind (bindArgs_ensures (operandWithin_resolves depth) _ _) fun args bound => .ok ?_
        obtain ⟨given, rfl, each⟩ := bound
        exact .call _ (.inr hname) found each
      · exact .error _

/-! ### Fields, kinds and nodes -/

variable (s) (v : Yaml.Value)

theorem operandField_resolves (field : String) (expected : Option String) :
    Ensures (s.operandField v field expected) (Option.Rel s.Resolves (v.get? field)) := by
  rw [operandField]
  split
  · next x given =>
    rw [given]
    exact .map (operandWithin_resolves _ x expected) fun o loaded => .some loaded
  · next none =>
    rw [none]
    exact .ok .none

theorem variableField_resolves (field : String) (expected : Option String) :
    Ensures (s.variableField v field expected) fun r => Option.Rel s.Resolves (v.get? field) (r.map .var) := by
  refine .bind (operandField_resolves s v field expected) fun r loads => ?_
  split
  · exact .ok loads
  · exact .error _
  · exact .ok loads

theorem callField_resolves (field : String) :
    Ensures (s.callField v field) fun r => Option.Rel s.Resolves (v.get? field) (r.map Call.operand) := by
  refine .bind (operandField_resolves s v field none) fun r loads => ?_
  split
  · exact .ok loads
  · exact .error _
  · exact .ok loads

theorem operandPair_resolves (left right : String) : Ensures (s.operandPair v left right) fun r =>
    Option.Rel s.Resolves (v.get? left) r.1 ∧ Option.Rel s.Resolves (v.get? right) r.2 := by
  refine .bind (operandField_resolves s v left none) fun first hfirst =>
    .bind (operandField_resolves s v right _) fun second hsecond => ?_
  split
  · split
    · exact .bind (operandField_resolves s v left _) fun again hagain => .ok ⟨hagain, hsecond⟩
    · exact .ok ⟨hfirst, hsecond⟩
  · exact .ok ⟨hfirst, hsecond⟩

theorem action_mirrored : Ensures (s.action v) fun a => Mirrored s.Resolves v (NodeKind.action a).fields := by
  refine .bind (callField_resolves s v _) fun method hmethod =>
    .bind (callField_resolves s v _) fun functor hfunctor => .ok ?_
  simpa [Mirrored, NodeKind.fields] using ⟨hmethod, hfunctor⟩

theorem assignment_mirrored : Ensures (s.assignment v) fun a =>
    Mirrored s.Resolves v (NodeKind.assignment a).fields := by
  refine .bind (variableField_resolves s v _ _) fun target htarget =>
    .bind (operandField_resolves s v _ _) fun source hsource => .ok ?_
  simpa [Mirrored, NodeKind.fields] using ⟨htarget, hsource⟩

theorem compute_mirrored :
    Ensures (s.compute v) fun c => Mirrored s.Resolves v (NodeKind.compute c).fields := by
  refine .bind (variableField_resolves s v _ _) fun target htarget => ?_
  split
  · exact .error _
  · refine .bind (operandField_resolves s v _ _) fun first hfirst =>
      .bind (operandField_resolves s v _ _) fun second hsecond => .ok ?_
    simpa [Mirrored, NodeKind.fields] using ⟨htarget, hfirst, hsecond⟩

theorem condition_mirrored : Ensures (s.condition v) fun c =>
    Mirrored s.Resolves v (NodeKind.condition c).fields := by
  refine .bind (operandPair_resolves s v _ _) fun r loads => .ok ?_
  simpa [Mirrored, NodeKind.fields] using loads

/-- Every kind of node mirrors the fields of its document. -/
theorem dataKind_mirrored (type : String) :
    Ensures (s.dataKind type v) fun k => Mirrored s.Resolves v k.fields := by
  have operand (field : String) (expected : Option String) := operandField_resolves s v field expected
  have variable' (field : String) (expected : Option String) := variableField_resolves s v field expected
  unfold dataKind
  split
  · exact .ok (by simp [Mirrored, NodeKind.fields])
  · exact .map (operand _ _) fun r h => by simpa [Mirrored, NodeKind.fields] using h
  · exact .bind (variable' _ _) fun r h => .ok (by simpa [Mirrored, NodeKind.fields] using h)
  · exact .map (operand _ _) fun r h => by simpa [Mirrored, NodeKind.fields] using h
  · exact .ok (by simp [Mirrored, NodeKind.fields])
  · exact .map (variable' _ _) fun r h => by simpa [Mirrored, NodeKind.fields] using h
  · exact .map (action_mirrored s v) fun _ h => h
  · exact .map (assignment_mirrored s v) fun _ h => h
  · exact .map (compute_mirrored s v) fun _ h => h
  · exact .map (operand _ _) fun r h => by simpa [Mirrored, NodeKind.fields] using h
  · exact .map (operand _ _) fun r h => by simpa [Mirrored, NodeKind.fields] using h
  · exact .bind (operand _ _) fun r h => .ok (by simpa [Mirrored, NodeKind.fields] using h)
  · exact .map (condition_mirrored s v) fun _ h => h
  · exact .ok (by simp [Mirrored, NodeKind.fields])

theorem nodeKind_mirrored (type : String) :
    Ensures (s.nodeKind type v) fun k => Mirrored s.Resolves v k.fields := by
  unfold nodeKind
  split
  · exact .ok (by simp [Mirrored, NodeKind.fields])
  · exact .map (variableField_resolves s v _ _) fun r h => by simpa [Mirrored, NodeKind.fields] using h
  · exact dataKind_mirrored s v type

theorem attachAction_mirrored : Ensures (s.attachAction v) fun a => Mirrored s.Resolves v a.fields := by
  refine .bind (operandPair_resolves s v _ _) fun r hpair =>
    .bind (operandField_resolves s v _ _) fun first hfirst => .ok ?_
  simpa [Mirrored, AttachAction.fields] using ⟨hpair.1, hfirst, hpair.2⟩

theorem attachmentKind_mirrored (type : String) : Ensures (s.attachmentKind type v) fun k =>
    ∀ a ∈ k.action?, Mirrored s.Resolves v a.fields := by
  have action := attachAction_mirrored s v
  unfold attachmentKind
  split
  · exact .bind action fun a h => .ok (by rintro _ ⟨rfl⟩; exact h)
  · exact .bind action fun a h => .ok (by rintro _ ⟨rfl⟩; exact h)
  · exact .ok (by rintro _ ⟨⟩)
  · exact .map action fun a h => by rintro _ ⟨rfl⟩; exact h
  · exact .ok (by rintro _ ⟨⟩)

theorem attachment_mirrors : Ensures (s.attachment v) (Attachment.Mirrors s.Resolves v) := by
  unfold attachment
  split
  · exact .error _
  · exact .bind (P := fun _ => True) (fun _ _ => trivial) fun id _ =>
      .bind (attachmentKind_mirrored (s.within _) v _) fun kind mirrored => .ok mirrored

theorem attachments_mirror : Ensures (s.attachments v)
    (Forall₂ (Attachment.Mirrors s.Resolves) (v.items "attachments")) :=
  .mapM (attachment_mirrors s) _

variable {v}

theorem subtreeWithin_mirrors : ∀ (depth : Nat) (s : Scope) (v : Yaml.Value),
    Ensures (s.subtreeWithin depth v) (Subtree.Mirrors s.Resolves v)
  | 0, _, _ => .error _
  | depth + 1, s, v => by
      rw [subtreeWithin]
      split
      · exact .error _
      · exact .bind (P := fun _ => True) (fun _ _ => trivial) fun id _ =>
          .bind (nodeKind_mirrored (s.within _) v _) fun kind hkind =>
          .bind (attachments_mirror (s.within _) v) fun as has =>
          .bind (.mapM (subtreeWithin_mirrors depth (s.within _)) _) fun ts hts => .ok (.mk hkind has hts)

end Scope

/-! ### Trees -/

/-- A loaded tree mirrors its document, with what the names in it refer to. -/
theorem loadBehavior_mirrors (c : Catalog) (v : Yaml.Value) : Ensures (loadBehavior c v) fun b =>
    b.Mirrors (Resolved c b.agentType b.locals) v := by
  unfold loadBehavior
  split
  · exact .error _
  · next name _ =>
    refine .bind (P := fun _ => True) (fun _ _ => trivial) fun agentType _ =>
      .bind (P := fun _ => True) (fun _ _ => trivial) fun locals _ => ?_
    let s : Scope := { catalog := c, agentType, locals, owner := name }
    exact .bind (Scope.attachments_mirror s v) fun as has =>
      .bind (.mapM (fun x => Scope.subtreeWithin_mirrors _ s x) _) fun ts hts => .ok ⟨has, hts⟩

end Load

end GoTrees
