import GoTrees.Load.Document
import GoTrees.Proofs.Loaded

/-!
# Names of a loaded tree refer to something

A loaded tree names local variables of its own and members of agent types. Each of its operands has been
written somewhere in the document, and what it names is what the written name means there: the first local
variable of that name, or the property or method that the lookup in the catalog gives for the class that is
written along with the name, or else for the agent type of the tree. Properties of a catalog that was read
from a document stand for themselves, so an operand is an element of an array exactly if it has an index.
-/

namespace GoTrees

open List

variable {name : String} {p : Property} {v : Yaml.Value} {c : Catalog}

/-! ### Members of the catalog -/

namespace Catalog

variable {c : Catalog}

theorem mem_of_findNamed? {α : Type} {nameOf : α → String} {entries : List α} {e : α}
    (h : findNamed? nameOf entries name = some e) : e ∈ entries := by
  rcases (Option.orElse_eq_some _ _ _).mp h with h | ⟨-, h⟩ <;> exact mem_of_find?_eq_some h

/-- The chain of bases stays in the catalog. -/
theorem mem_agents_of_mem_chain : ∀ (n : Nat) (start : Option AgentType), (∀ a ∈ start, a ∈ c.agents) →
    ∀ a ∈ c.chain n start, a ∈ c.agents
  | 0, _, _, a, ha => by simp [chain] at ha
  | n + 1, none, _, a, ha => by simp [chain] at ha
  | n + 1, some first, h, a, ha => by
      rw [chain] at ha
      rcases mem_cons.mp ha with rfl | ha
      · exact h a rfl
      · exact mem_agents_of_mem_chain n _ (fun _ => mem_of_findNamed?) a ha

/-- A property that is found belongs to an agent type of the catalog. -/
theorem mem_of_property? {cls : String} (h : c.property? cls name = some p) :
    ∃ a ∈ c.agents, p ∈ a.properties := by
  obtain ⟨a, ha, found⟩ := exists_of_findSome?_eq_some h
  exact ⟨a, mem_agents_of_mem_chain _ _ (fun _ => mem_of_findNamed?) a ha, mem_of_find?_eq_some found⟩

/-- No property of an agent type stands for an element of an array. -/
def NoElements (c : Catalog) : Prop := ∀ a ∈ c.agents, ∀ p ∈ a.properties, p.isElement = false

theorem NoElements.link (h : c.NoElements) : c.link.NoElements := by
  intro a ha p hp
  obtain ⟨a', ha', rfl⟩ := mem_map.mp ha
  obtain ⟨p', hp', rfl⟩ := mem_map.mp hp
  exact h a' ha' p' hp'

end Catalog

namespace Load

/-! ### Catalogs that were read -/

section Reading

variable {α β : Type} {Q : β → Prop}

theorem forall_of_mapM {f : α → Option β} (hf : ∀ x y, f x = some y → Q y) : ∀ {xs : List α} {ys : List β},
    xs.mapM f = some ys → ∀ y ∈ ys, Q y
  | [], ys, h => by
      obtain rfl : [] = ys := by simpa using h
      simp
  | x :: xs, ys, h => by
      simp only [mapM_cons, Option.bind_eq_bind, Option.bind_eq_some_iff] at h
      obtain ⟨y, hy, zs, hzs, h⟩ := h
      obtain rfl := Option.some.inj h
      exact forall_mem_cons.mpr ⟨hf x y hy, forall_of_mapM hf hzs⟩

theorem View.forall_of_list {w : View α} {f : α → Option β} (hf : ∀ x y, f x = some y → Q y) {v : α}
    {ys : List β} (h : w.list f v = some ys) : ∀ y ∈ ys, Q y := by
  rw [View.list] at h
  split at h
  · exact forall_of_mapM hf h
  · cases h

theorem Record.of_field {r : Record α} {f : α → Option β} {default y : β}
    (hf : ∀ x y, f x = some y → Q y) (hd : Q default) (h : r.field name f default = some y) : Q y := by
  rw [Record.field] at h
  split at h
  · exact hf _ _ h
  · obtain rfl := Option.some.inj h
    exact hd

end Reading

theorem isElement_of_property? (h : property? v = some p) :
    p.isElement = false := by
  simp only [property?, Option.bind_eq_bind, Option.bind_eq_some_iff] at h
  obtain ⟨_, _, _, _, _, _, _, _, _, _, _, _, _, _, _, _, _, _, h⟩ := h
  obtain rfl := Option.some.inj h
  rfl

theorem isElement_of_agent? {a : AgentType} (h : agent? v = some a) :
    ∀ p ∈ a.properties, p.isElement = false := by
  simp only [agent?, Option.bind_eq_bind, Option.bind_eq_some_iff] at h
  obtain ⟨_, _, _, _, _, _, _, _, _, _, _, _, properties, read, _, _, h⟩ := h
  obtain rfl := Option.some.inj h
  exact Record.of_field (Q := fun ps : List Property => ∀ p ∈ ps, p.isElement = false)
    (fun _ _ => View.forall_of_list fun _ _ => isElement_of_property?) (by simp) read

theorem noElements_of_catalog? (h : catalog? v = some c) : c.NoElements := by
  simp only [catalog?, Option.bind_eq_bind, Option.bind_eq_some_iff] at h
  obtain ⟨_, _, agents, read, _, _, _, _, _, _, _, _, h⟩ := h
  obtain rfl := Option.some.inj h
  exact Record.of_field (Q := fun as : List AgentType => ∀ a ∈ as, ∀ p ∈ a.properties, p.isElement = false)
    (fun _ _ => View.forall_of_list fun _ _ => isElement_of_agent?) (by simp) read

/-! ### Resolved operands -/

theorem Resolved.isElement_iff {agentType : String} {locals : List Local} {w : Yaml.Value} {x : Variable}
    (plain : c.NoElements) (h : Resolved c agentType locals w (.var x)) (named : x.property? = some p) :
    p.isElement = true ↔ ∃ i, x = .element p i := by
  cases h with
  | const written read => cases named
  | localVar written first =>
    obtain rfl := Option.some.inj named
    simp
  | property owner written found =>
    obtain ⟨a, ha, hp⟩ := Catalog.mem_of_property? found
    obtain rfl := Option.some.inj named
    simp [plain a ha _ hp]
  | element owner written found given index =>
    obtain rfl := Option.some.inj named
    simp

/-- A loaded tree mirrors its document. The operand of each field of a node or an attachment is what the
value of that field refers to, down to its indexes and arguments, and there is one exactly if the field is
given. So every operand, at any depth, is what a written operand of the document refers to, and it is an
element of an array exactly if it has an index. -/
theorem loadBehavior_resolves (section' v : Yaml.Value) (read : Catalog) (b : Behavior)
    (hread : catalog? section' = some read) (loaded : loadBehavior read.link v = .ok b) :
    b.Mirrors (Resolved read.link b.agentType b.locals) v ∧
    ∀ o, b.Holds o →
      (∃ w, w.Within v ∧ Resolved read.link b.agentType b.locals w o) ∧
      ∀ x p, o = .var x → x.property? = some p → (p.isElement = true ↔ ∃ i, x = .element p i) := by
  have mirrors := loadBehavior_mirrors read.link v b loaded
  refine ⟨mirrors, fun o held => ?_⟩
  obtain ⟨w, inside, resolved⟩ := finds_of_holds mirrors held
  refine ⟨⟨w, inside, resolved⟩, ?_⟩
  rintro x p rfl named
  exact resolved.isElement_iff (noElements_of_catalog? hread).link named

/-- A section with one agent type. -/
def guardSection : Yaml.Value :=
  .mapping [(.string "agents", .sequence [.mapping [
    (.string "name", .string "Guard"),
    (.string "properties", .sequence [
      .mapping [(.string "name", .string "posts[]"), (.string "type", .string "vector<int>")]]),
    (.string "methods", .sequence [.mapping [(.string "name", .string "Walk"), (.string "params", .sequence [
      .mapping [(.string "name", .string "goal"), (.string "type", .string "int")],
      .mapping [(.string "name", .string "haste")]])]])]])]

/-- The catalog that the section describes. -/
def guardCatalog : Catalog where
  agents := [{
    name := "Guard"
    properties := [{ name := "posts[]", type := "vector<int>" }]
    methods := [{ name := "Walk", params := [{ name := "goal", type := "int" }, { name := "haste" }] }] }]

/-- A tree that calls a method with an element of an array of another agent, and then counts on. -/
def roundsDocument : Yaml.Value :=
  .mapping [(.string "name", .string "Rounds"), (.string "agent", .string "Guard"),
    (.string "locals", .sequence [.mapping [(.string "name", .string "next")]]),
    (.string "children", .sequence [
      .mapping [
        (.string "type", .string "Action"), (.string "id", .int 1),
        (.string "method", .mapping [(.string "method", .string "Walk"), (.string "args", .sequence [
          .mapping [(.string "property", .string "posts"), (.string "owner", .string "Captain"),
            (.string "index", .string "next")]])])],
      .mapping [
        (.string "type", .string "Assignment"), (.string "id", .int 2),
        (.string "opl", .string "next"), (.string "opr", .int 3)]])]

/-- The element that is passed. -/
def post : Variable :=
  .element { name := "posts[]", type := "int", className := "Guard", owner := .named "Captain",
             isElement := true }
    (.property { name := "next", type := "int", isLocal := true })

/-- The tree that is loaded. -/
def rounds : Behavior where
  name := "Rounds"
  path := "Rounds.xml"
  agentType := "Guard"
  locals := [{ name := "next", type := "int", initial := "" }]
  children := [
    .mk { id := 1, kind := .action { method := some (
      { name := "Walk", className := "Guard", params :=
        [{ name := "goal", type := "int" }, { name := "haste" }] },
      [some (.var post)]) } } [],
    .mk { id := 2, kind := .assignment {
      target := some (.property { name := "next", type := "int", isLocal := true }),
      source := some (.var (.const "int" (.int 3))) } } []]

theorem loadBehavior_resolves_rounds : catalog? guardSection = some guardCatalog ∧
    loadBehavior guardCatalog.link roundsDocument = .ok rounds ∧ rounds.Holds (.var post) ∧
    (∃ w, w.Within roundsDocument ∧ Resolved guardCatalog.link "Guard" rounds.locals w (.var post)) ∧
    Resolved guardCatalog.link "Guard" rounds.locals (.string "next")
      (.var (.property { name := "next", type := "int", isLocal := true })) ∧
    Resolved guardCatalog.link "Guard" rounds.locals (.int 3) (.var (.const "int" (.int 3))) := by
  have read : catalog? guardSection = some guardCatalog := by decide
  have loaded : loadBehavior guardCatalog.link roundsDocument = .ok rounds := by rfl
  have element : rounds.Holds (.var post) := ⟨_, mem_cons_self, .arg mem_cons_self .self⟩
  obtain ⟨⟨-, below⟩, held⟩ := loadBehavior_resolves _ _ _ _ read loaded
  -- the fields of the second node, in their order
  obtain ⟨-, rest⟩ := forall₂_cons.mp below
  obtain ⟨second, -⟩ := forall₂_cons.mp rest
  cases second with
  | mk fields _ _ =>
    exact ⟨read, loaded, element, (held _ element).1, fields.related mem_cons_self rfl,
      fields.related (mem_cons_of_mem _ mem_cons_self) rfl⟩

end Load

end GoTrees
