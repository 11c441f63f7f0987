import GoTrees.Proofs.Loaded

/-!
# Constants have the shape of their type

A constant that is read for a native type is one of the values of the type that the spelling denotes. The
reader walks the literal and the type together and leaves out the items and fields that do not fit, so what is
left fits at every depth, even where structs hold themselves. There are no constants of some types.
-/

namespace GoTrees

/-- A value that is taken for a scalar of unknown type. -/
inductive Value.IsGuess : Value → Prop
  | bool (b : Bool) : IsGuess (.bool b)
  | int (n : Int) : IsGuess (.int n)
  | float (x : Binary64) : IsGuess (.float x)
  | string (text : String) : IsGuess (.string text)

namespace Catalog

/-- The value has the shape of the type. A field of a struct has the type that the catalog gives it. -/
inductive Conforms (c : Catalog) : Value → ValueType → Prop
  | bool (b : Bool) : Conforms c (.bool b) .bool
  | integer (n : Int) : Conforms c (.int n) .integer
  | float (x : Binary64) : Conforms c (.float x) .float
  | double (x : Binary64) : Conforms c (.float x) .double
  | char (text : String) : Conforms c (.char text) .char
  | string (text : String) : Conforms c (.string text) .string
  | status (member : String) : Conforms c (.member member) .status
  | enum (member type : String) : Conforms c (.member member) (.enum type)
  | array {items : List Value} {element : ValueType} (each : ∀ v ∈ items, Conforms c v element) :
      Conforms c (.array items) (.array element)
  | struct {fields : List (String × Value)} {name : String} {isRef : Bool}
      (each : ∀ f ∈ fields, Conforms c f.2 (c.fieldType (c.struct? name) f.1)) :
      Conforms c (.struct fields) (.struct name isRef)
  | unknown {v : Value} (name : String) (guess : v.IsGuess) : Conforms c v (.unknown name)

variable {c : Catalog}

/-! ### Scalars -/

theorem isGuess_guessedValue (text : String) : (guessedValue text).IsGuess := by
  unfold guessedValue
  split
  · exact .int _
  · split
    · exact .float _
    · split
      · exact .bool true
      · exact .bool false
      · exact .string _

/-- A scalar is read as a value of its type. -/
theorem conforms_of_scalarValue? {ty : ValueType} {text : String} {v : Value}
    (h : scalarValue? ty text = some v) : Conforms c v ty := by
  unfold scalarValue? at h
  cases ty with
  | bool =>
    dsimp only at h
    split at h
    · obtain rfl := Option.some.inj h
      exact .bool true
    · obtain rfl := Option.some.inj h
      exact .bool false
    · cases h
  | integer =>
    obtain ⟨n, -, rfl⟩ := Option.map_eq_some_iff.mp h
    exact .integer n
  | float =>
    obtain ⟨x, -, rfl⟩ := Option.map_eq_some_iff.mp h
    exact .float x
  | double =>
    obtain ⟨x, -, rfl⟩ := Option.map_eq_some_iff.mp h
    exact .double x
  | char =>
    obtain rfl := Option.some.inj h
    exact .char _
  | string =>
    obtain rfl := Option.some.inj h
    exact .string _
  | status =>
    obtain rfl := Option.some.inj h
    exact .status _
  | enum type =>
    obtain rfl := Option.some.inj h
    exact .enum _ _
  | array element =>
    dsimp only at h
    split at h
    · obtain rfl := Option.some.inj h
      exact .array (List.forall_mem_nil _)
    · cases h
  | void => cases h
  | agent name => cases h
  | struct name isRef => cases h
  | unknown name =>
    obtain rfl := Option.some.inj h
    exact .unknown name (isGuess_guessedValue _)

/-! ### Literals -/

mutual

/-- A literal is read as a value of its type, down to the last field. -/
theorem conforms_of_valueOf? : ∀ (r : Literal) (ty : ValueType) {v : Value}, valueOf? c r ty = some v →
    Conforms c v ty
  | .scalar text, ty, v, h => by
      rw [valueOf?] at h
      exact conforms_of_scalarValue? h
  | .array items, ty, v, h => by
      cases ty with
      | array element =>
        rw [valueOf?] at h
        obtain rfl := Option.some.inj h
        exact .array (conforms_of_mem_itemValues items element)
      | _ => simp [valueOf?] at h
  | .struct fields, ty, v, h => by
      cases ty with
      | struct name isRef =>
        rw [valueOf?] at h
        obtain rfl := Option.some.inj h
        exact .struct (conforms_of_mem_fieldValues fields _)
      | _ => simp [valueOf?] at h

theorem conforms_of_mem_itemValues : ∀ (items : List Literal) (ty : ValueType),
    ∀ v ∈ itemValues c items ty, Conforms c v ty
  | [], ty => by simp [itemValues]
  | item :: items, ty => by
      have rest := conforms_of_mem_itemValues items ty
      rw [itemValues]
      split
      · next v found => exact List.forall_mem_cons.mpr ⟨conforms_of_valueOf? item ty found, rest⟩
      · exact rest

theorem conforms_of_mem_fieldValues : ∀ (fields : List (String × Literal)) (struct : Option StructType),
    ∀ f ∈ fieldValues c fields struct, Conforms c f.2 (c.fieldType struct f.1)
  | [], struct => by simp [fieldValues]
  | (name, literal) :: fields, struct => by
      have rest := conforms_of_mem_fieldValues fields struct
      rw [fieldValues]
      split
      · next v found => exact List.forall_mem_cons.mpr ⟨conforms_of_valueOf? literal _ found, rest⟩
      · exact rest

end

/-! ### Texts and trees -/

theorem conforms_of_parseValue? {text native : String} {v : Value} (h : c.parseValue? text native = some v) :
    Conforms c v (c.classify native) :=
  conforms_of_valueOf? _ _ h

theorem parseValue?_eq_none {text native : String} (h : ∀ v, ¬ Conforms c v (c.classify native)) :
    c.parseValue? text native = none :=
  Option.eq_none_iff_forall_ne_some.mpr fun v found => h v (conforms_of_parseValue? found)

end Catalog

namespace Load

open Catalog

/-- Whatever is read as a constant of a native type has the shape of that type, nothing is read for types
without constants, and so every constant of a loaded tree, at any depth, has the shape of its type. -/
theorem constants_conform (c : Catalog) :
    (∀ text native v, c.parseValue? text native = some v → Conforms c v (c.classify native)) ∧
    (∀ text native, c.classify native = .void ∨ (∃ name, c.classify native = .agent name) →
      c.parseValue? text native = none) ∧
    ∀ document b, loadBehavior c document = .ok b → ∀ type value,
      b.Holds (.var (.const type value)) → Conforms c value (c.classify type) := by
  refine ⟨fun text native v => conforms_of_parseValue?, fun text native h => ?_, fun document b loaded type
    value held => ?_⟩
  · refine parseValue?_eq_none fun v conforms => ?_
    rcases h with h | ⟨name, h⟩ <;> rw [h] at conforms <;> cases conforms
  · obtain ⟨w, -, resolved⟩ := finds_of_holds (loadBehavior_mirrors c document b loaded) held
    cases resolved with
    | const written read => exact conforms_of_parseValue? read

/-- A struct that holds itself and an array. -/
def ledger : Catalog where
  structs := [{
    name := "Toll"
    properties := [{ name := "next", type := "Toll" }, { name := "fees[]", type := "vector<int>" }] }]

/-- A tree that waits for three frames. -/
def pause : Behavior where
  name := "Pause"
  path := "Pause.xml"
  agentType := agentBase
  children := [.mk { id := 1, kind := .waitFrames (some (.var (.const "int" (.int 3)))) } []]

/-- The tree as it is written. -/
def pauseDocument : Yaml.Value :=
  .mapping [(.string "name", .string "Pause"), (.string "children", .sequence [.mapping [
    (.string "type", .string "WaitFrames"), (.string "id", .int 1), (.string "frames", .int 3)]])]

theorem constants_conform_ledger :
    (∃ v, ledger.parseValue? "\x7bfees=3:1|x|2;next=\x7bfees=;rank=5;\x7d;\x7d" "Toll" = some v ∧
      Conforms ledger v (.struct "Toll" false)) ∧
    ledger.parseValue? "1" "void" = none ∧
    loadBehavior ledger pauseDocument = .ok pause ∧ pause.Holds (.var (.const "int" (.int 3))) ∧
      Conforms ledger (.int 3) .integer := by
  obtain ⟨read, nothing, trees⟩ := constants_conform ledger
  have toll : ledger.classify "Toll" = .struct "Toll" false := by decide
  have void : ledger.classify "void" = .void := by decide
  have int : ledger.classify "int" = .integer := by decide
  have some' : (ledger.parseValue? "\x7bfees=3:1|x|2;next=\x7bfees=;rank=5;\x7d;\x7d" "Toll").isSome =
      true := by
    decide +kernel
  obtain ⟨v, hv⟩ := Option.isSome_iff_exists.mp some'
  have loaded : loadBehavior ledger pauseDocument = .ok pause := by rfl
  have held : pause.Holds (.var (.const "int" (.int 3))) := ⟨_, List.mem_singleton.mpr rfl, .self⟩
  have struct := read _ _ v hv
  have three := trees _ _ loaded _ _ held
  rw [toll] at struct
  rw [int] at three
  exact ⟨⟨v, hv, struct⟩, nothing _ _ (.inl void), loaded, held, three⟩

end Load

end GoTrees
