import GoTrees.Proofs.Conformance
import GoTrees.Proofs.Emit

/-!
# The elements of array constants

The items of an encoded array are read as constants of the element type, the constants are written as a slice
literal when they are captured, and the default of a property is written from the items themselves. Each of
the three leaves out the items that it has no form for: the reader those that it cannot read, the capture all
constants but scalars, the default all literals but scalars.
-/

namespace GoTrees

open Go List

variable {text native : String} {items : List Literal} {renames : List Rename}

/-- The steps set the target to a slice of these items; a target that is not set is nil and has none. -/
inductive SetsSlice (target : Expr) (type : String) : List Step → List Expr → Prop
  | unset : SetsSlice target type [] []
  | set (items : List Expr) : SetsSlice target type [.assign target (.slice type items)] items

/-- The literal is a scalar that can be read as the type, and the type is no array: the empty scalar stands
for an empty array. -/
def Literal.IsScalarOf (e : ValueType) (i : Literal) : Prop :=
  ∃ s, i = .scalar s ∧ (Catalog.scalarValue? e s).isSome ∧ ∀ e', e ≠ .array e'

namespace Catalog

theorem itemValues_eq (c : Catalog) (items : List Literal) (e : ValueType) :
    itemValues c items e = items.filterMap (c.valueOf? · e) := by
  induction items with
  | nil => rfl
  | cons i items ih =>
    rw [itemValues, filterMap_cons, ih]
    cases c.valueOf? i e <;> rfl

/-- An array constant keeps the elements that are values of its type. -/
theorem parseValue?_array {c : Catalog} {e : ValueType} (type : c.classify native = .array e)
    (encoded : (Literal.parse text).1 = .array items) :
    c.parseValue? text native = some (.array (items.filterMap (c.valueOf? · e))) := by
  simp only [parseValue?, type, isAggregate, if_true, encoded, valueOf?, itemValues_eq]

/-- A scalar is read as a scalar, unless an array is wanted. -/
theorem not_aggregate_of_scalarValue? {e : ValueType} {s : String} {v : Value}
    (read : scalarValue? e s = some v) (scalar : ∀ e', e ≠ .array e') :
    (∀ vs, v ≠ .array vs) ∧ ∀ fs, v ≠ .struct fs := by
  have conforms : Conforms {} v e := conforms_of_scalarValue? read
  constructor
  · rintro vs rfl
    cases conforms with
    | array _ => exact scalar _ rfl
    | unknown _ guess => cases guess
  · rintro fs rfl
    cases conforms with
    | struct _ => exact absurd read (by simp [scalarValue?])
    | unknown _ guess => cases guess

end Catalog

namespace Context

variable (x : Context)

theorem setup_notePackages (text : String) : (notePackages text).needs.setup = [] := by
  unfold notePackages
  split <;> rfl

@[simp] theorem setup_goType (native : String) : (x.goType native).needs.setup = [] := by
  simp only [goType, Emit.needs_bind, Needs.setup_append, setup_notePackages, List.nil_append]
  split <;> rfl

@[simp] theorem setup_scalar (native : String) (v : Value) : (x.scalar native v).needs.setup = [] := by
  cases v with
  | member name =>
    simp only [scalar]
    split
    · rfl
    · simp
  | _ => rfl

@[simp] theorem setup_scalars (native : String) (vs : List Value) :
    (x.scalars native vs).needs.setup = [] := by
  induction vs with
  | nil => rfl
  | cons v vs ih => simp [scalars, ih]

theorem value_scalars (native : String) (vs : List Value) :
    (x.scalars native vs).value = vs.filterMap fun v => (x.scalar native v).value := by
  induction vs with
  | nil => rfl
  | cons v vs ih =>
    rw [filterMap_cons, ← ih]
    simp only [scalars, Emit.value_bind, Emit.value_pure]
    cases (x.scalar native v).value <;> rfl

theorem isSome_scalar {v : Value} :
    ((x.scalar native v).value).isSome ↔ (∀ vs, v ≠ .array vs) ∧ ∀ fs, v ≠ .struct fs := by
  cases v with
  | member name =>
    simp only [scalar]
    split <;> simp
  | _ => simp [scalar]

/-- The constructor sets a captured array to the slice of its elements. -/
theorem setsSlice_capture (native field : String) (vs : List Value) :
    SetsSlice (.select self field) (x.goType native).value (x.capture native (.array vs) field).needs.setup
      (vs.filterMap fun v => (x.scalar (GoType.elementOrSelf native) v).value) := by
  cases vs with
  | nil =>
    have none : (x.capture native (.array []) field).needs.setup = [] := by
      simp [capture, captureSetup, setField, Emit.capture]
    rw [none]
    exact .unset
  | cons v vs =>
    have one : (x.capture native (.array (v :: vs)) field).needs.setup =
        [.assign (.select self field) (.slice (x.goType native).value
          ((v :: vs).filterMap fun v => (x.scalar (GoType.elementOrSelf native) v).value))] := by
      rw [← value_scalars]
      simp [capture, captureSetup, setField, sliceLiteral, Emit.capture]
    rw [one]
    exact .set _

/-- The items that are written after they have been read are the scalars of the element type. -/
theorem isSome_valueOf?_bind_scalar {e : ValueType} {i : Literal} :
    ((x.catalog.valueOf? i e).bind fun v => (x.scalar native v).value).isSome ↔ i.IsScalarOf e := by
  rw [Option.isSome_bind, Option.any_eq_true]
  constructor
  · rintro ⟨v, read, written⟩
    obtain ⟨notArray, notStruct⟩ := x.isSome_scalar.mp written
    cases i with
    | scalar s =>
      rw [Catalog.valueOf?] at read
      refine ⟨s, rfl, Option.isSome_of_eq_some read, ?_⟩
      rintro e' rfl
      cases Catalog.conforms_of_scalarValue? (c := {}) read with
      | array _ => exact notArray _ rfl
    | array items =>
      cases Catalog.conforms_of_valueOf? _ _ read <;> simp_all [Catalog.valueOf?]
    | struct fields =>
      cases Catalog.conforms_of_valueOf? _ _ read <;> simp_all [Catalog.valueOf?]
  · rintro ⟨s, rfl, readable, scalar⟩
    obtain ⟨v, read⟩ := Option.isSome_iff_exists.mp readable
    refine ⟨v, ?_, x.isSome_scalar.mpr (Catalog.not_aggregate_of_scalarValue? read scalar)⟩
    rw [Catalog.valueOf?, read]

end Context

/-- Every type but the one without values has a literal for any text. -/
theorem isSome_nativeLiteral {ty : ValueType} {text : Option String} :
    (nativeLiteral renames ty native text).isSome ↔ ty ≠ .void := by
  unfold nativeLiteral literalFor
  cases ty with
  | enum _ => cases givenText text <;> simp
  | struct _ isRef => cases isRef <;> simp
  | _ => simp

/-- The default keeps all elements exactly if all are scalars, and not of type void. -/
theorem length_itemLiterals {e : ValueType} : (itemLiterals renames e native items).length = items.length ↔
      ∀ i ∈ items, e ≠ .void ∧ ∃ s, i = .scalar s := by
  rw [itemLiterals, filterMap_length_eq_length]
  refine forall₂_congr fun i _ => ?_
  cases i with
  | scalar s => simp [isSome_nativeLiteral]
  | array _ => simp
  | struct _ => simp

/-- The default of an array is the slice of its elements. -/
theorem propertyLiteral_array (encoded : (Literal.parse text).1 = .array items) (e : ValueType)
    (native : String) : propertyLiteral renames (.array e) native (some text) =
      some (.slice (GoType.ofNative renames native)
        (itemLiterals renames e (GoType.elementOrSelf native) items)) := by
  simp only [propertyLiteral, encoded]

/-- An encoded array has a constant. The constant keeps all items exactly if each can be read as the element
type, the slice that a capture sets keeps them exactly if each is a scalar of the element type, and the
default of a property keeps them exactly if each is a scalar. -/
theorem array_elements_kept_iff (x : Context) (text native field : String) {e : ValueType}
    {items : List Literal} (type : x.catalog.classify native = .array e)
    (encoded : (Literal.parse text).1 = .array items) :
    ∃ vs captured defaults,
      x.catalog.parseValue? text native = some (.array vs) ∧
      SetsSlice (.select self field) (x.goType native).value
        (x.capture native (.array vs) field).needs.setup captured ∧
      propertyLiteral x.config.renames (x.catalog.classify native) native (some text) =
        some (.slice (GoType.ofNative x.config.renames native) defaults) ∧
      (vs.length = items.length ↔ ∀ i ∈ items, (x.catalog.valueOf? i e).isSome) ∧
      (captured.length = items.length ↔ ∀ i ∈ items, i.IsScalarOf e) ∧
      (defaults.length = items.length ↔ ∀ i ∈ items, e ≠ .void ∧ ∃ s, i = .scalar s) := by
  refine ⟨_, _, _, Catalog.parseValue?_array type encoded, x.setsSlice_capture native field _,
    type ▸ propertyLiteral_array encoded e native, filterMap_length_eq_length, ?_, length_itemLiterals⟩
  rw [filterMap_filterMap, filterMap_length_eq_length]
  exact forall₂_congr fun i _ => x.isSome_valueOf?_bind_scalar

theorem Literal.parse_of_count? {count : Nat} {rest : List Char}
    (bare : parseStruct (text.toList.length + 3) text.toList = none)
    (counted : count? text.toList = some (count, rest)) (small : count < 1000) :
    (parse text).1 = .array ((parseItems (text.toList.length + 3) ['|'] rest).1.take count) := by
  have bound : count < Nat.pow 2 64 := Nat.lt_of_lt_of_le small (by decide)
  simp only [parse, parseChars, bare, counted, bounded, if_pos bound]

/-- A context with a struct of two coordinates. -/
def mapRoom : Context where
  catalog := { structs := [{ name := "Vec2", properties :=
    [{ name := "x", type := "int" }, { name := "y", type := "int" }] }] }

theorem array_elements_kept_iff_scores :
    mapRoom.catalog.classify "vector<float>" = .array .float ∧
    (Literal.parse "3:1.5f| 2 |-3").1 = .array [.scalar "1.5f", .scalar "2", .scalar "-3"] ∧
    ∃ vs captured defaults,
      mapRoom.catalog.parseValue? "3:1.5f| 2 |-3" "vector<float>" = some (.array vs) ∧
      SetsSlice (.select self "scores") (mapRoom.goType "vector<float>").value
        (mapRoom.capture "vector<float>" (.array vs) "scores").needs.setup captured ∧
      propertyLiteral [] (mapRoom.catalog.classify "vector<float>") "vector<float>" (some "3:1.5f| 2 |-3") =
        some (.slice (GoType.ofNative [] "vector<float>") defaults) ∧
      vs.length = 3 ∧ captured.length = 3 ∧ defaults.length = 3 := by
  have type : mapRoom.catalog.classify "vector<float>" = .array .float := by decide +kernel
  have encoded : (Literal.parse "3:1.5f| 2 |-3").1 = .array [.scalar "1.5f", .scalar "2", .scalar "-3"] := by
    rw [Literal.parse_of_count? (by cbv) (by cbv) (by decide)]
    cbv
  have scalars : ∀ i ∈ [Literal.scalar "1.5f", .scalar "2", .scalar "-3"], i.IsScalarOf .float := by
    have readable : ∀ s ∈ ["1.5f", "2", "-3"], (Catalog.scalarValue? .float s).isSome := by decide +kernel
    intro i hi
    rw [show [Literal.scalar "1.5f", .scalar "2", .scalar "-3"] = ["1.5f", "2", "-3"].map .scalar from rfl,
      mem_map] at hi
    obtain ⟨s, hs, rfl⟩ := hi
    exact ⟨s, rfl, readable s hs, by simp⟩
  obtain ⟨vs, captured, defaults, read, set, default, keeps, captures, writes⟩ :=
    array_elements_kept_iff mapRoom "3:1.5f| 2 |-3" "vector<float>" "scores" type encoded
  refine ⟨type, encoded, vs, captured, defaults, read, set, default, keeps.mpr ?_, captures.mpr scalars,
    writes.mpr ?_⟩
  · intro i hi
    obtain ⟨s, rfl, readable, -⟩ := scalars i hi
    rwa [Catalog.valueOf?]
  · intro i hi
    obtain ⟨s, rfl, -⟩ := scalars i hi
    exact ⟨by simp, s, rfl⟩

/-- The structs of an array are read, but neither captured nor written as a default. -/
theorem array_structs_lost :
    mapRoom.catalog.classify "vector<Vec2>" = .array (.struct "Vec2" false) ∧
    (Literal.parse "2:\x7bx=1;y=2;\x7d|\x7bx=3;y=4;\x7d").1 = .array
      [.struct [("x", .scalar "1"), ("y", .scalar "2")], .struct [("x", .scalar "3"), ("y", .scalar "4")]] ∧
    ∃ vs,
      mapRoom.catalog.parseValue? "2:\x7bx=1;y=2;\x7d|\x7bx=3;y=4;\x7d" "vector<Vec2>" = some (.array vs) ∧
      vs.length = 2 ∧
      SetsSlice (.select self "route") (mapRoom.goType "vector<Vec2>").value
        (mapRoom.capture "vector<Vec2>" (.array vs) "route").needs.setup [] ∧
      propertyLiteral [] (mapRoom.catalog.classify "vector<Vec2>") "vector<Vec2>"
        (some "2:\x7bx=1;y=2;\x7d|\x7bx=3;y=4;\x7d") = some (.slice "[]Vec2" []) := by
  have type : mapRoom.catalog.classify "vector<Vec2>" = .array (.struct "Vec2" false) := by decide +kernel
  have encoded : (Literal.parse "2:\x7bx=1;y=2;\x7d|\x7bx=3;y=4;\x7d").1 = .array
      [.struct [("x", .scalar "1"), ("y", .scalar "2")],
        .struct [("x", .scalar "3"), ("y", .scalar "4")]] := by
    rw [Literal.parse_of_count? (by cbv) (by cbv) (by decide)]
    cbv
  refine ⟨type, encoded, _, Catalog.parseValue?_array type encoded, by decide +kernel, ?_, ?_⟩
  · convert mapRoom.setsSlice_capture "vector<Vec2>" "route" _ using 1
    exact (List.isEmpty_iff.mp (by decide +kernel)).symm
  · rw [type, propertyLiteral_array encoded]
    cbv

end GoTrees
