import GoTrees.Proofs.Resolution
import GoTrees.Proofs.Temporaries

/-!
# Reading and assigning meet

A variable is read by some steps and an expression, and assigned by steps alone. Both go through the owner, the
index and the check in the same way, so that the assignment is the steps of the reading and one step more:

    a field, or an element     pre; expr = value
    an entry of a store        pre; owner.Set(name, id, value)      with  expr = owner.Get(name, id).(type)

The two can only differ in the type that a stored array is asserted to. A property says by itself that it
stands for an element, while the assignment goes by the index. In a loaded tree the property says so
exactly if there is an index.
-/

namespace GoTrees

open Go List

variable {p : Property}

/-- Is the variable an element that is picked out by an index? -/
def Variable.isIndexed : Variable → Bool
  | element .. => true
  | _ => false

/-- What the methods that read and write the store of a late-bound property are named for. -/
def Property.storeName (p : Property) : String := if p.isLocal then "Local" else "Variable"

namespace Context

variable (x : Context)

theorem getter_eq (p : Property) : getter p = "Get" ++ p.storeName := by
  rw [getter, Property.storeName]
  split <;> rfl

theorem setter_eq (p : Property) : setter p = "Set" ++ p.storeName := by
  rw [setter, Property.storeName]
  split <;> rfl

/-! ### One property -/

theorem writeTo_eq_assign {i : Option Expr} (aligned : p.isElement = i.isSome)
    (place : p.isLateBound = false ∨ i.isSome = true) (owner value : Expr) :
    (x.writeTo p owner i value).value =
      (x.readFrom p owner i).value.1 ++ [.assign (x.readFrom p owner i).value.2 value] := by
  cases late : p.isLateBound with
  | false => simp [writeTo, readFrom, late]
  | true =>
    rw [late] at place
    obtain ⟨j, rfl⟩ := Option.isSome_iff_exists.mp (place.resolve_left Bool.noConfusion)
    simp only [Option.isSome_some] at aligned
    simp [writeTo, readFrom, late, aligned, indexed]

/-- A stored value is put by the method that goes with the one it is got by. -/
theorem writeTo_eq_set (late : p.isLateBound = true) (owner value : Expr) :
    (x.writeTo p owner none value).value =
      (x.readFrom p owner none).value.1 ++
        [.eval (.call (.select owner ("Set" ++ p.storeName)) (lookupArgs p ++ [value]))] := by
  simp [writeTo, readFrom, late, setter_eq]

/-- A late-bound property is read by its getter, and what that gives is asserted to its type. -/
theorem readFrom_eq_get (late : p.isLateBound = true) (whole : p.isElement = false)
    (owner : Expr) :
    (x.readFrom p owner none).value.2 =
      .asserted (.call (.select owner ("Get" ++ p.storeName)) (lookupArgs p)) (x.goType p.type).value := by
  simp [readFrom, late, whole, indexed, stored, getter_eq]

/-! ### Variables -/

/-- Storing where reading ends is an assignment to what is read. -/
theorem writeVariable_eq_assign {v : Variable} (named : v.property? = some p)
    (aligned : p.isElement = v.isIndexed) (place : p.isLateBound = false ∨ v.isIndexed = true)
    (slot : String) (value : Expr) :
    (x.writeVariable v value slot).value =
      (x.readVariable v slot).value.pre ++ [.assign (x.readVariable v slot).value.expr value] := by
  cases v with
  | const native constant => cases named
  | property q =>
    obtain rfl := Option.some.inj named
    have step := x.writeTo_eq_assign (i := none) aligned place
    simp [writeVariable, readVariable, step]
  | element q index =>
    obtain rfl := Option.some.inj named
    have step (i : Expr) := x.writeTo_eq_assign (i := some i) aligned place
    simp [writeVariable, readVariable, step]

end Context

/-! ### Loaded documents -/

namespace Load

theorem Ensures.mapError {ε ε' α : Type} {P : α → Prop} {x : Except ε α} (hx : Ensures x P) (f : ε → ε') :
    Ensures (x.mapError f) P := by
  intro a h
  cases x with
  | error e => cases h
  | ok b =>
    obtain rfl : b = a := Except.ok.inj h
    exact hx b rfl

theorem readCatalog_ensures (v : Yaml.Value) :
    Ensures (loadSection v "catalog" catalog? {}) Catalog.NoElements := by
  unfold loadSection
  split
  · exact .ok (by simp [Catalog.NoElements])
  · split
    · next read => exact .ok (noElements_of_catalog? read)
    · exact .error _

theorem loadBehaviors_ensures (c : Catalog) (v : Yaml.Value) : Ensures (loadBehaviors c v) fun bs =>
    ∀ b ∈ bs, ∃ tree, loadBehavior c tree = .ok b := by
  unfold loadBehaviors
  split
  · exact .error _
  · refine (Ensures.mapM (R := fun tree b => loadBehavior c tree = .ok b) (fun _ _ h => h) _).mono
      fun bs each b hb => ?_
    obtain ⟨tree, -, loaded⟩ := exists_of_forall₂ each hb
    exact ⟨tree, loaded⟩

theorem ofValue_ensures (v : Yaml.Value) : Ensures (Document.ofValue v) fun d =>
    ∃ c : Catalog, c.NoElements ∧ ∀ b ∈ d.behaviors, ∃ tree, loadBehavior c tree = .ok b := by
  unfold Document.ofValue
  refine .bind (P := fun _ => True) (fun _ _ => trivial) fun config _ => ?_
  refine .bind (readCatalog_ensures v) fun read noElements => ?_
  exact .bind ((loadBehaviors_ensures read.link v).mapError _) fun bs each =>
    .ok ⟨read.link, noElements.link, each⟩

/-- In a loaded tree the property of a variable stands for an element exactly if there is an index. -/
theorem isElement_eq_isIndexed {v : Yaml.Value} {d : Document} (h : Document.ofValue v = .ok d) {b : Behavior}
    (hb : b ∈ d.behaviors) {w : Variable} (held : b.Holds (.var w)) (named : w.property? = some p) :
    p.isElement = w.isIndexed := by
  obtain ⟨c, noElements, loaded⟩ := ofValue_ensures v d h
  obtain ⟨tree, loaded⟩ := loaded b hb
  obtain ⟨written, -, resolved⟩ := finds_of_holds (loadBehavior_mirrors c tree b loaded) held
  have element := resolved.isElement_iff noElements named
  cases w with
  | const type value => cases named
  | property q =>
    obtain rfl := Option.some.inj named
    simpa [Variable.isIndexed] using element
  | element q index =>
    obtain rfl := Option.some.inj named
    simpa [Variable.isIndexed] using element

end Load

/-- A variable is assigned where it is read, if its property stands for an element exactly when there is an
index; and that is so for every variable of a loaded document. Reading leaves no steps for later. Assigning
takes the steps of reading and then assigns to the very expression that is read, or, for a whole late-bound
property, calls the setter of the store on the same owner with the same name and id. -/
theorem Context.writeVariable_meets_readVariable :
    (∀ (x : Context) (v : Variable) (p : Property), v.property? = some p → p.isElement = v.isIndexed →
      ∀ (slot : String) (value : Expr),
        let read := (x.readVariable v slot).value
        let written := (x.writeVariable v value slot).value
        read.post = [] ∧
        (p.isLateBound = false ∨ v.isIndexed = true → written = read.pre ++ [.assign read.expr value]) ∧
        (p.isLateBound = true → v.isIndexed = false →
          ∃ owner : Expr,
            read.expr = .asserted
              (.call (.select owner ("Get" ++ p.storeName))
                [.string p.basicName, .literal (toString p.variableId)]) (x.goType p.type).value ∧
            written = read.pre ++ [.eval (.call (.select owner ("Set" ++ p.storeName))
              [.string p.basicName, .literal (toString p.variableId), value])])) ∧
    ∀ (source : Yaml.Value) (d : Document), Document.ofValue source = .ok d →
      ∀ b ∈ d.behaviors, ∀ v : Variable, b.Holds (.var v) →
        ∀ p, v.property? = some p → p.isElement = v.isIndexed := by
  refine ⟨fun x v p named aligned slot value => ⟨x.post_readVariable v slot, ?_, ?_⟩,
    fun _ _ loaded _ hb _ held _ named => Load.isElement_eq_isIndexed loaded hb held named⟩
  · exact fun place => x.writeVariable_eq_assign named aligned place slot value
  · intro late whole
    cases v with
    | const native constant => cases named
    | element q index => cases whole
    | property q =>
      obtain rfl := Option.some.inj named
      have get := x.readFrom_eq_get late aligned (x.ownerOf q slot).value.2
      have set := x.writeTo_eq_set late (x.ownerOf q slot).value.2 value
      refine ⟨(x.ownerOf q slot).value.2, by simpa [readVariable, lookupArgs] using get, ?_⟩
      simp [writeVariable, readVariable, set, lookupArgs]

namespace Load

/-- A document with the one tree that passes an element. -/
def roundsSource : Yaml.Value :=
  .mapping [(.string "catalog", guardSection), (.string "behaviors", .sequence [roundsDocument])]

/-- The local variable that is the index of the element. -/
def nextPost : Property := { name := "next", type := "int", isLocal := true }

def roundsLoaded : Document where
  config := {}
  catalog := { guardCatalog.link with behaviors := ["Rounds"] }
  behaviors := [rounds]

end Load

open Load in
theorem Context.writeVariable_meets_readVariable_rounds :
    Document.ofValue roundsSource = .ok roundsLoaded ∧
    rounds.Holds (.var post) ∧ rounds.Holds (.var (.property nextPost)) ∧
    let x : Context := { catalog := roundsLoaded.catalog, agentType := "Guard" }
    (x.writeVariable post (.literal "7") "opl").value =
      (x.readVariable post "opl").value.pre ++
      [.assign (x.readVariable post "opl").value.expr (.literal "7")] ∧
    ∃ owner : Expr,
      (x.readVariable (.property nextPost) "opl").value.expr = .asserted
        (.call (.select owner "GetLocal") [.string nextPost.basicName,
          .literal (toString nextPost.variableId)])
        (x.goType "int").value ∧
      (x.writeVariable (.property nextPost) (.literal "7") "opl").value =
        (x.readVariable (.property nextPost) "opl").value.pre ++ [.eval (.call (.select owner "SetLocal")
          [.string nextPost.basicName, .literal (toString nextPost.variableId), .literal "7"])] := by
  have loaded : Document.ofValue roundsSource = .ok roundsLoaded := by rfl
  have element : rounds.Holds (.var post) := ⟨_, mem_cons_self, .arg mem_cons_self .self⟩
  have index : rounds.Holds (.var (.property nextPost)) :=
    ⟨_, mem_cons_self, .arg mem_cons_self (.index .self)⟩
  have aligned := writeVariable_meets_readVariable.2 _ _ loaded rounds (mem_singleton_self _)
  have meet (v : Variable) (held : rounds.Holds (.var v)) (p : Property) (named : v.property? = some p) :=
    writeVariable_meets_readVariable.1 { catalog := roundsLoaded.catalog, agentType := "Guard" } v p named
      (aligned v held p named) "opl" (.literal "7")
  exact ⟨loaded, element, index, (meet post element _ rfl).2.1 (.inr rfl),
    (meet _ index nextPost rfl).2.2 rfl rfl⟩

end GoTrees
