import GoTrees.Proofs.Conformance
import GoTrees.Proofs.Emit
import GoTrees.Proofs.Spellings

/-!
# Field types of constant structs

The fields of a constant struct are read as the types that the catalog gives to the fields of the struct which
the spelling denotes, and they are printed as the types of the struct that the spelling without its last marks
names. Both find the same struct if the spelling is bare, that is the name of the struct between blanks
with marks behind it, and they go on alike from field to field:

    Paint   Paint*   Paint &    ──▶  Paint      read and printed as the fields of Paint
    const Paint&                ──▶  const Paint    read as the fields of Paint, printed as none
-/

namespace GoTrees

open Text Go List

variable {native name struct : String} {isRef : Bool}

/-! ### Bare spellings -/

/-- The spelling is the name between blanks, with marks behind it. -/
def Bare (native name : String) : Prop :=
  ∃ lead gap marks, native.toList = lead ++ name.toList ++ gap ++ marks ∧ (∀ c ∈ lead, isBlank c = true) ∧
    (∀ c ∈ gap, isBlank c = true) ∧ ∀ c ∈ marks, isMark c = true

/-- What is left of a spelling without the marks at its end. -/
def stem (native : String) : String := trim (.ofList (trimEndBy isMark native.toList))

/-- The name starts and ends with characters that are neither blanks nor marks. -/
structure Edged (name : String) : Prop where
  head : ∀ c ∈ name.toList.head?, isBlank c = false
  last : ∀ c ∈ name.toList.getLast?, isBlank c = false ∧ isMark c = false

theorem isMark_of_isBlank {c : Char} (blank : isBlank c = true) : isMark c = false := by
  rw [isMark, Bool.or_eq_false_iff, beq_eq_false_iff_ne, beq_eq_false_iff_ne]
  constructor <;>
  · rintro rfl
    exact absurd blank (by decide)

/-- Only a bare spelling is cut down to the name. -/
theorem stem_eq_iff_bare (edged : Edged name) : stem native = name ↔ Bare native name := by
  constructor
  · rintro rfl
    obtain ⟨marks, split, marked⟩ := trimEndBy_split isMark native.toList
    obtain ⟨lead, gap, inner, front, rest⟩ := trimBy_split isBlank (trimEndBy isMark native.toList)
    refine ⟨lead, gap, marks, ?_, front, rest, marked⟩
    rw [stem, trim, String.toList_ofList, String.toList_ofList, ← inner]
    exact split
  · rintro ⟨lead, gap, marks, split, front, rest, marked⟩
    have unmarked : ∀ c ∈ (lead ++ name.toList ++ gap).getLast?, isMark c = false := by
      intro c hc
      rw [getLast?_append, getLast?_append, Option.mem_def, Option.or_eq_some_iff,
        Option.or_eq_some_iff] at hc
      rcases hc with hc | ⟨-, hc | ⟨-, hc⟩⟩
      · exact isMark_of_isBlank (rest c (mem_of_getLast? hc))
      · exact (edged.last c hc).2
      · exact isMark_of_isBlank (front c (mem_of_getLast? hc))
    rw [stem, trim, split, trimEndBy_append_blank marked, trimEndBy_eq_self unmarked, String.toList_ofList,
      trimBy_around edged.head (fun c hc => (edged.last c hc).1) front rest, String.ofList_toList]

/-! ### Names of structs -/

namespace Spelling

/-- Words with single spaces between them start and end with a word. -/
theorem edged_join {words : List String} (paths : ∀ w ∈ words, IsPath w) : Edged (join " " words) := by
  cases words with
  | nil => exact ⟨by simp [join], by simp [join]⟩
  | cons w words =>
    have filled {v : String} (hv : v ∈ w :: words) : v.toList ≠ [] := by
      simpa using (paths v hv).ne_empty
    have edge {v : String} (hv : v ∈ w :: words) {c : Char} (hc : c ∈ v.toList) := (paths v hv).edge c hc
    have first : w ∈ w :: words := mem_cons_self
    constructor <;> rw [toList_join_cons] <;> intro c hc
    · rw [head?_append_of_ne_nil _ (filled first)] at hc
      exact (edge first (mem_of_mem_head? hc)).1
    · rcases eq_nil_or_concat' words with rfl | ⟨before, v, rfl⟩
      · rw [spaced, flatMap_nil, List.append_nil] at hc
        exact edge first (mem_of_getLast? hc)
      · have last : v ∈ w :: (before ++ [v]) := by simp
        have tail : w.toList ++ spaced (before ++ [v]) = (w.toList ++ spaced before ++ [' ']) ++ v.toList := by
          simp [spaced]
        rw [tail, getLast?_append_of_ne_nil _ (filled last)] at hc
        exact edge last (mem_of_getLast? hc)

/-- The name that a text spells starts and ends with a word. -/
theorem edged_name {rest : String} {t : Spelling} (h : parse? native = some (t, rest)) : Edged t.name := by
  cases printable_of_parse? h with
  | intro paths => exact edged_join paths

end Spelling

namespace Catalog

variable {c : Catalog}

theorem builtin?_ne_struct (name : String) (sign : Option Sign) (pointer : Nat) (struct : String)
    (isRef : Bool) : builtin? name sign pointer ≠ some (.struct struct isRef) := by
  unfold builtin?
  repeat' split
  all_goals simp

theorem classifyPlain_eq_struct {sign : Option Sign} {pointer : Nat}
    (h : c.classifyPlain name sign pointer = .struct struct isRef) :
    name = struct ∧ builtin? name sign pointer = none := by
  rw [classifyPlain] at h
  cases found : builtin? name sign pointer with
  | some ty =>
    rw [found, Option.getD_some] at h
    exact absurd (h ▸ found) (builtin?_ne_struct _ _ _ _ _)
  | none =>
    rw [found, Option.getD_none, classifyName] at h
    split at h
    · cases h
    · split at h
      · exact ⟨(ValueType.struct.inj h).1, rfl⟩
      · split at h <;> cases h

theorem classifySpelling_of_struct {t : Spelling} (h : c.classifySpelling t = .struct struct isRef) :
    t.name = struct ∧ ∀ c' : Catalog, c'.classifySpelling t = c'.classifyName struct t.pointer := by
  obtain ⟨isConst, sign, name, args, pointer, reference⟩ := t
  have plain (h : c.classifyPlain name sign pointer = .struct struct isRef) :
      name = struct ∧ ∀ c' : Catalog, c'.classifyPlain name sign pointer = c'.classifyName struct pointer := by
    obtain ⟨rfl, other⟩ := classifyPlain_eq_struct h
    exact ⟨rfl, fun c' => by rw [classifyPlain, other, Option.getD_none]⟩
  cases args with
  | nil =>
    simp only [classifySpelling] at h ⊢
    exact plain h
  | cons element rest =>
    simp only [classifySpelling] at h ⊢
    split_ifs at h ⊢
    exact plain h

theorem classify_of_struct (h : c.classify native = .struct struct isRef) :
    Edged struct ∧ ∃ pointer, ∀ c' : Catalog, c'.classify native = c'.classifyName struct pointer := by
  rw [classify] at h
  split at h
  · next t rest parsed =>
    split_ifs at h with blank
    obtain ⟨rfl, everywhere⟩ := classifySpelling_of_struct h
    refine ⟨Spelling.edged_name parsed, t.pointer, fun c' => ?_⟩
    rw [classify, parsed]
    simp only [blank, if_true, everywhere]
  · cases h

end Catalog

/-! ### The types of the fields -/

/-- A literal stands in another at the end of a path of fields. -/
inductive Literal.At (inner : Literal) : List String → Literal → Prop
  | here : At inner [] inner
  | field {name : String} {literal : Literal} {fields : List (String × Literal)} {path : List String}
      (mem : (name, literal) ∈ fields) (rest : At inner path literal) : At inner (name :: path)
      (.struct fields)

mutual

/-- The values in a constant that are no structs, each with its path of fields. -/
def Value.leaves : Value → List (List String × Value)
  | .struct fields => fieldLeaves fields
  | value => [([], value)]

def Value.fieldLeaves : List (String × Value) → List (List String × Value)
  | [] => []
  | (name, value) :: fields => (value.leaves.map fun l => (name :: l.1, l.2)) ++ fieldLeaves fields

end

/-- The member of an expression at the end of a path of fields. -/
def Go.Expr.fieldAt : Expr → List String → Expr
  | e, [] => e
  | e, field :: fields => fieldAt (.select e (memberName field)) fields

namespace Catalog

/-- A constant of the spelling reads what stands at the end of the path as a type. -/
inductive ReadsAs (c : Catalog) : String → List String → String → Prop
  | whole (native : String) : ReadsAs c native [] native
  | field {native struct name type : String} {isRef : Bool} {path : List String}
      (denotes : c.classify native = .struct struct isRef)
      (rest : ReadsAs c (Context.fieldNative (c.struct? struct) name) path type) :
      ReadsAs c native (name :: path) type

/-- The spellings of the structs that a path passes through are bare. -/
def BareTo (c : Catalog) : String → List String → Prop
  | _, [] => True
  | native, name :: path => ∀ struct isRef, c.classify native = .struct struct isRef →
      Bare native struct ∧ c.BareTo (Context.fieldNative (c.struct? struct) name) path

end Catalog

namespace Context

/-- The type that a constant of the spelling is printed as at the end of the path. -/
def printedAs (x : Context) : String → List String → String
  | native, [] => native
  | native, name :: path => x.printedAs (fieldNative (x.structOf? native) name) path

variable (x : Context)

theorem structOf?_eq (native : String) : x.structOf? native = x.catalog.struct? (stem native) := rfl

mutual

/-- Setting a struct sets its leaves one by one, each with the type printed there. -/
theorem value_setField_leaves (target : Expr) (native : String) : ∀ value : Value,
    (x.setField target native value).value = value.leaves.flatMap fun l =>
      (x.setField (target.fieldAt l.1) (x.printedAs native l.1) l.2).value
  | .struct fields => by
      rw [setField, value_setFields_leaves target native fields, Value.leaves]
  | .array items | .bool _ | .int _ | .float _ | .char _ | .string _ | .member _ => by
      rw [Value.leaves, flatMap_singleton]
      · rfl
      · simp

theorem value_setFields_leaves (target : Expr) (native : String) : ∀ fields : List (String × Value),
    (x.setFields target (x.structOf? native) fields).value = (Value.fieldLeaves fields).flatMap fun l =>
      (x.setField (target.fieldAt l.1) (x.printedAs native l.1) l.2).value
  | [] => by rw [setFields, Value.fieldLeaves]; rfl
  | (name, value) :: fields => by
      have one := value_setField_leaves (.select target (memberName name))
        (fieldNative (x.structOf? native) name) value
      have rest := value_setFields_leaves target native fields
      simp only [setFields, Emit.value_bind, Emit.value_pure, one, rest, Value.fieldLeaves, flatMap_append,
        flatMap_map]
      rfl

end

end Context

namespace Catalog

variable (c : Catalog)

theorem fieldType_eq (struct : Option StructType) (name : String) :
    c.fieldType struct name = c.classify (Context.fieldNative struct name) := by
  rw [fieldType, Context.fieldNative]
  cases struct.bind fun s => propertyIn? s.properties name <;> rfl

theorem leaves_of_scalarValue? {ty : ValueType} {text : String} {v : Value}
    (h : scalarValue? ty text = some v) : v.leaves = [([], v)] := by
  cases conforms_of_scalarValue? (c := {}) h with
  | struct => cases h
  | unknown name guess => cases guess <;> rfl
  | _ => rfl

/-- A leaf of a constant is read from what stands in the literal at its path, as the type of the path. -/
def Reads (native : String) (literal : Literal) (l : List String × Value) : Prop :=
  ∃ type inner, c.ReadsAs native l.1 type ∧ Literal.At inner l.1 literal ∧
    c.valueOf? inner (c.classify type) = some l.2

theorem reads_whole {literal : Literal} {v : Value}
    (h : c.valueOf? literal (c.classify native) = some v) : c.Reads native literal ([], v) :=
  ⟨native, literal, .whole native, .here, h⟩

mutual

/-- Each leaf of a constant is read with the type at its path. -/
theorem reads_of_valueOf? : ∀ (literal : Literal) (native : String) {v : Value},
    c.valueOf? literal (c.classify native) = some v → ∀ l ∈ v.leaves, c.Reads native literal l
  | .scalar text, native, v, h => by
      have read := h
      rw [valueOf?] at read
      rw [leaves_of_scalarValue? read]
      exact forall_mem_singleton.mpr (c.reads_whole h)
  | .array items, native, v, h => by
      have read := h
      cases ty : c.classify native with
      | array element =>
        rw [ty, valueOf?] at read
        cases read
        exact forall_mem_singleton.mpr (c.reads_whole h)
      | _ => rw [ty] at read; simp [valueOf?] at read
  | .struct fields, native, v, h => by
      cases ty : c.classify native with
      | struct name isRef =>
        rw [ty, valueOf?] at h
        cases h
        intro l hl
        obtain ⟨field, literal, l, mem, rfl, type, inner, readsAs, stands, read⟩ :=
          reads_of_fieldValues fields (c.struct? name) l hl
        exact ⟨type, inner, .field ty readsAs, .field mem stands, read⟩
      | _ => rw [ty] at h; simp [valueOf?] at h

theorem reads_of_fieldValues : ∀ (fields : List (String × Literal)) (struct : Option StructType),
    ∀ l ∈ Value.fieldLeaves (c.fieldValues fields struct), ∃ name literal l', (name, literal) ∈ fields ∧
      l = (name :: l'.1, l'.2) ∧ c.Reads (Context.fieldNative struct name) literal l'
  | [], struct => by simp [fieldValues, Value.fieldLeaves]
  | (name, literal) :: fields, struct => by
      have rest : ∀ l ∈ Value.fieldLeaves (c.fieldValues fields struct), ∃ name' literal' l',
          (name', literal') ∈ (name, literal) :: fields ∧ l = (name' :: l'.1, l'.2) ∧
            c.Reads (Context.fieldNative struct name') literal' l' := by
        intro l hl
        obtain ⟨name', literal', l', mem, reads⟩ := reads_of_fieldValues fields struct l hl
        exact ⟨name', literal', l', mem_cons_of_mem _ mem, reads⟩
      rw [fieldValues]
      split
      · next v read =>
        rw [fieldType_eq] at read
        rw [Value.fieldLeaves, forall_mem_append, forall_mem_map]
        exact ⟨fun l hl => ⟨name, literal, l, mem_cons_self, rfl, reads_of_valueOf? literal _ read l hl⟩, rest⟩
      · exact rest

end

end Catalog

/-! ### Read as printed -/

namespace Context

variable (x : Context)

theorem structOf?_of_bare (denotes : x.catalog.classify native = .struct struct isRef)
    (bare : Bare native struct) : x.structOf? native = x.catalog.struct? struct := by
  rw [structOf?_eq, (stem_eq_iff_bare (Catalog.classify_of_struct denotes).1).mpr bare]

/-- Where all structs on the way are bare, a leaf is printed with the type it is read with. -/
theorem printedAs_of_bareTo {type : String} {path : List String} (h : x.catalog.ReadsAs native path type)
    (bare : x.catalog.BareTo native path) : x.printedAs native path = type := by
  induction h with
  | whole native => rfl
  | field denotes rest ih =>
    obtain ⟨own, below⟩ := bare _ _ denotes
    rw [printedAs, x.structOf?_of_bare denotes own]
    exact ih below

/-- A catalog with a struct, and with one whose name is what is left of a spelling. -/
def twins (struct native : String) : Catalog where
  structs := [{ name := struct, properties := [{ name := "x", type := "int" }] },
    { name := stem native, properties := [{ name := "x", type := "bool" }] }]

theorem fieldNative_twins (other : stem native ≠ struct) :
    fieldNative ((twins struct native).struct? struct) "x" = "int" ∧
      fieldNative ((twins struct native).struct? (stem native)) "x" = "bool" := by
  simp only [twins, Catalog.struct?, Catalog.findNamed?, find?_cons, beq_self_eq_true,
    beq_eq_false_iff_ne.mpr other.symm]
  exact ⟨rfl, rfl⟩

/-- A struct that is not bare prints a field with another type in some catalog. -/
theorem exists_printed_otherwise {c : Catalog} (denotes : c.classify native = .struct struct isRef)
    (other : ¬ Bare native struct) :
    ∃ (y : Context) (isRef' : Bool), y.catalog.classify native = .struct struct isRef' ∧
      fieldNative (y.structOf? native) "x" ≠ fieldNative (y.catalog.struct? struct) "x" := by
  obtain ⟨edged, pointer, everywhere⟩ := Catalog.classify_of_struct denotes
  rw [← stem_eq_iff_bare edged] at other
  obtain ⟨first, second⟩ := fieldNative_twins other
  have found : ∃ s, (twins struct native).struct? struct = some s := by
    simp [twins, Catalog.struct?, Catalog.findNamed?]
  obtain ⟨s, found⟩ := found
  refine ⟨{ catalog := twins struct native }, s.isRef || 0 < pointer, ?_, ?_⟩
  · rw [everywhere, Catalog.classifyName, found]
    rfl
  · rw [structOf?_eq, first, second]
    decide

/-- A constant of a struct is read field by field, and printed field by field, at every depth. The two
agree on the type of a field if the spellings of the structs on the way to it are bare; a spelling that is
not bare is read and printed as different fields in some catalog. -/
theorem fieldTypes_iff_bare (x : Context) {native struct : String} {isRef : Bool}
    (denotes : x.catalog.classify native = .struct struct isRef) :
    (∀ literal v, x.catalog.valueOf? literal (.struct struct isRef) = some v →
      ∀ l ∈ v.leaves, x.catalog.Reads native literal l) ∧
    (∀ target v, (x.setField target native v).value = v.leaves.flatMap fun l =>
      (x.setField (target.fieldAt l.1) (x.printedAs native l.1) l.2).value) ∧
    (∀ path type, x.catalog.ReadsAs native path type → x.catalog.BareTo native path →
      x.printedAs native path = type) ∧
    (Bare native struct ↔ ∀ (y : Context) isRef', y.catalog.classify native = .struct struct isRef' →
      ∀ name, fieldNative (y.structOf? native) name = fieldNative (y.catalog.struct? struct) name) := by
  refine ⟨fun literal v read => ?_, fun target v => x.value_setField_leaves target native v,
    fun path type reads bare => x.printedAs_of_bareTo reads bare, fun bare y isRef' same name =>
    ?_, fun agree => ?_⟩
  · rw [← denotes] at read
    exact x.catalog.reads_of_valueOf? literal native read
  · rw [y.structOf?_of_bare same bare]
  · by_contra other
    obtain ⟨y, isRef', same, differ⟩ := exists_printed_otherwise denotes other
    exact differ (agree y isRef' same "x")

theorem setField_member (target : Expr) {field : String} (member : String)
    (enum : x.catalog.classify (fieldNative (x.structOf? native) field) ≠ .status) :
    (x.setField target native (.struct [(field, .member member)])).value =
      [.assign (.select target (memberName field))
        (enumMember (x.goType (fieldNative (x.structOf? native) field)).value member)] := by
  have scalar : (x.scalar (fieldNative (x.structOf? native) field) (.member member)).value =
      some (enumMember (x.goType (fieldNative (x.structOf? native) field)).value member) := by
    rw [Context.scalar]
    split
    · contradiction
    · rfl
  simp only [setField, setFields, Emit.value_bind, Emit.value_pure, scalar, List.append_nil]

/-- A catalog of framed paint. -/
def gallery : Context where
  catalog := {
    enums := [{ name := "Color", members := [{ name := "Red" }] }]
    structs := [{ name := "Paint", properties := [{ name := "hue", type := "Color" }] },
      { name := "Frame", properties := [{ name := "paint", type := " Paint *" }] }] }

theorem fieldTypes_iff_bare_frame : gallery.catalog.classify "Frame&" = .struct "Frame" false ∧
    gallery.catalog.ReadsAs "Frame&" ["paint", "hue"] "Color" ∧
    gallery.catalog.BareTo "Frame&" ["paint", "hue"] ∧
    gallery.printedAs "Frame&" ["paint", "hue"] = "Color" := by
  have outer : gallery.catalog.classify "Frame&" = .struct "Frame" false := by decide +kernel
  have inner : gallery.catalog.classify " Paint *" = .struct "Paint" true := by decide +kernel
  have reads : gallery.catalog.ReadsAs "Frame&" ["paint", "hue"] "Color" :=
    .field outer (.field inner (.whole _))
  have bare : gallery.catalog.BareTo "Frame&" ["paint", "hue"] := by
    intro struct isRef h
    cases outer.symm.trans h
    refine ⟨⟨[], [], ['&'], rfl, by simp, by simp, by simp [isMark]⟩, fun struct isRef h => ?_⟩
    cases inner.symm.trans h
    have space : ∀ c ∈ [' '], isBlank c = true := forall_mem_singleton.mpr (by decide)
    exact ⟨⟨[' '], [' '], ['*'], rfl, space, space, by simp [isMark]⟩, trivial⟩
  exact ⟨outer, reads, bare, (fieldTypes_iff_bare gallery outer).2.2.1 _ _ reads bare⟩

/-- Behind a qualifier, the color of the paint is printed without its type. -/
theorem const_printed_otherwise : gallery.catalog.classify "const Paint&" = .struct "Paint" false ∧
    gallery.catalog.parseValue? "\x7bhue=Red;\x7d" "const Paint&" = some (.struct [("hue", .member "Red")]) ∧
    (gallery.setField (.select self "v") "const Paint&" (.struct [("hue", .member "Red")])).value =
      [.assign (.select (.select self "v") (memberName "hue")) (.path ".Red")] ∧
    (gallery.setField (.select self "v") "Paint&" (.struct [("hue", .member "Red")])).value =
      [.assign (.select (.select self "v") (memberName "hue")) (.path "types.Color.Red")] := by
  have denotes : gallery.catalog.classify "const Paint&" = .struct "Paint" false := by decide +kernel
  have literal : (Literal.parse "\x7bhue=Red;\x7d").1 = .struct [("hue", .scalar "Red")] := by
    have encodable : Literal.Encodable (.struct [("hue", .scalar "Red")]) :=
      .struct (forall_mem_singleton.mpr (by decide)) (forall_mem_singleton.mpr (.scalar (by decide)))
    have text : Literal.encode (.struct [("hue", .scalar "Red")]) = "\x7bhue=Red;\x7d" := by decide +kernel
    rw [← text, Literal.parse_encode _ encodable]
  have color : gallery.catalog.fieldType (gallery.catalog.struct? "Paint") "hue" = .enum "Color" := by
    decide +kernel
  have red : basicName (trim "Red") = "Red" := by decide +kernel
  have lost : fieldNative (gallery.structOf? "const Paint&") "hue" = "" := by decide +kernel
  have kept : fieldNative (gallery.structOf? "Paint&") "hue" = "Color" := by decide +kernel
  have goLost : (gallery.goType "").value = "" := by decide +kernel
  have goKept : (gallery.goType "Color").value = "types.Color" := by decide +kernel
  refine ⟨denotes, ?_, ?_, ?_⟩
  · rw [Catalog.parseValue?, denotes, Catalog.isAggregate, if_pos rfl, literal, Catalog.valueOf?,
      Catalog.fieldValues, color, Catalog.valueOf?, Catalog.scalarValue?, red, Catalog.fieldValues]
  · rw [setField_member gallery _ _ (lost ▸ by decide +kernel), lost, goLost, enumMember]
    simp
  · rw [setField_member gallery _ _ (kept ▸ by decide +kernel), kept, goKept, enumMember]
    simp

end Context

end GoTrees
