import GoTrees.Proofs.Loaded
import GoTrees.Proofs.Numerals

/-!
# The two sides of a comparison

A constant in a comparison takes the type of the other side, wherever it stands. On the right it is only
read with that type. On the left it is read twice, first without a type and then, when the other side is
known, with its type:

    left: x    right: c      x, then c as a constant of the type of x
    left: c    right: x      c on its own, then x, then c as a constant of the type of x

Both ways give the same constant. But the first reading of a constant on the left can fail: a text that
names nothing has no type of its own, and a number may be none of the type that its form suggests.
-/

namespace GoTrees.Load

open Numeral

variable {text type : String} {o : Operand} {c : Yaml.Value}

/-- The scalar has a value without the type of another operand. -/
inductive StandsAlone : Yaml.Value → Prop
  | bool (b : Bool) : StandsAlone (.bool b)
  | int {n : Int} (least : minInt64 ≤ n) (greatest : n ≤ maxInt64) : StandsAlone (.int n)
  | float (negative : Bool) (mantissa : Nat) (exponent : Int) :
      StandsAlone (.float (.finite negative mantissa exponent))

/-- Is anything loaded? -/
def Succeeds {α : Type} (x : Except LoadError α) : Prop := ∃ a, x = .ok a

namespace Scope

inductive Nameless (s : Scope) : Yaml.Value → Prop
  | bool (b : Bool) : Nameless s (.bool b)
  | int (n : Int) : Nameless s (.int n)
  | float (x : Binary64) : Nameless s (.float x)
  | string {text : String} (call : Text.beforeTail? text "()" = none) (localVar : s.findLocal? text = none)
      (property : s.catalog.property? s.agentType text = none) : Nameless s (.string text)

variable {s : Scope}

/-! ### Constants and other operands -/

theorem map_constant_eq_ok_iff {α : Type} (f : Operand → α) (a : α) :
    f <$> s.constant text type = .ok a ↔
      ∃ value, s.catalog.parseValue? text type = some value ∧ a = f (.var (.const type value)) := by
  unfold constant
  cases s.catalog.parseValue? text type <;> simp [eq_comm]

theorem constant_eq_ok_iff : s.constant text type = .ok o ↔
    ∃ value, s.catalog.parseValue? text type = some value ∧ o = .var (.const type value) := by
  simpa using map_constant_eq_ok_iff id o

/-- An operand that is no constant is read without regard to the expected type. -/
theorem operand_expected_irrelevant {w : Yaml.Value} {expected : Option String}
    (loaded : s.operand w expected = .ok o) (variable' : o.isConst = false) (expected' : Option String) :
    s.operand w expected' = .ok o := by
  have constant {text type : String} (h : s.constant text type = .ok o) : False := by
    obtain ⟨value, -, rfl⟩ := constant_eq_ok_iff.mp h
    cases variable'
  cases w with
  | null => exact loaded
  | sequence items => exact loaded
  | bool b => exact (constant loaded).elim
  | int n => exact (constant loaded).elim
  | float x => exact (constant loaded).elim
  | string name =>
    change s.named name expected = .ok o at loaded
    change s.named name expected' = .ok o
    unfold named at loaded ⊢
    split at loaded
    · exact loaded
    · split at loaded
      · next found => rwa [if_pos found]
      · next missing =>
        rw [if_neg missing]
        cases found : s.catalog.property? s.agentType name with
        | some p => simpa only [found] using loaded
        | none =>
          rw [found] at loaded
          cases expected with
          | some type => exact (constant loaded).elim
          | none => cases loaded
  | mapping pairs =>
    rw [operand, operandWithin] at loaded ⊢
    simp only at loaded ⊢
    split at loaded
    · exact (constant loaded).elim
    all_goals exact loaded

/-! ### Scalars -/

theorem named_nameless (call : Text.beforeTail? text "()" = none) (localVar : s.findLocal? text = none)
    (property : s.catalog.property? s.agentType text = none) (expected : Option String) :
    s.named text expected = expected.elim (.error (.unknownProperty s.agentType text)) (s.constant text) := by
  unfold named
  split
  · next found =>
    rw [call] at found
    cases found
  · rw [localVar, if_neg (show ¬ (none : Option Local).isSome = true by simp), property]
    cases expected <;> rfl

theorem Nameless.operand_typed (h : s.Nameless c) (type : String) :
    s.operand c (some type) = s.constant c.scalarText type := by
  cases h with
  | bool b => rfl
  | int n => rfl
  | float x => rfl
  | string call localVar property => exact named_nameless call localVar property (some type)

theorem succeeds_constant :
    Succeeds (s.constant text type) ↔ (s.catalog.parseValue? text type).isSome := by
  rw [Option.isSome_iff_exists]
  constructor
  · rintro ⟨o, h⟩
    obtain ⟨value, read, -⟩ := constant_eq_ok_iff.mp h
    exact ⟨value, read⟩
  · rintro ⟨value, read⟩
    exact ⟨_, constant_eq_ok_iff.mpr ⟨value, read, rfl⟩⟩

theorem succeeds_int (n : Int) : Succeeds (s.operand (.int n) none) ↔ minInt64 ≤ n ∧ n ≤ maxInt64 := by
  have type : s.catalog.classify "int" = .integer := rfl
  have text : Text.trim (toString n) = toString n := Merge.trim_eq_self (solid_toString n)
  have untyped : s.operand (.int n) none = s.constant (toString n) "int" := rfl
  rw [untyped, succeeds_constant, Catalog.parseValue?_scalar type rfl,
    Catalog.scalarValue?_integer, text, text, int64?_toString, Option.isSome_map]
  split
  · next range => simpa using range
  · next range => simpa using range

theorem succeeds_finite (negative : Bool) (mantissa : Nat) (exponent : Int) :
    Succeeds (s.operand (.float (.finite negative mantissa exponent)) none) := by
  have type : s.catalog.classify "float" = .float := rfl
  have text : Text.trim (Binary64.finite negative mantissa exponent).text =
      (Binary64.finite negative mantissa exponent).text := Merge.trim_eq_self (Binary64.solid_text _ _ _)
  have untyped : s.operand (.float (.finite negative mantissa exponent)) none =
      s.constant (Binary64.finite negative mantissa exponent).text "float" := rfl
  rw [untyped, succeeds_constant, Catalog.parseValue?_scalar type rfl, Catalog.scalarValue?_float, text, text,
    Option.isSome_map]
  exact Catalog.isSome_markedFloat?_text negative mantissa exponent

/-- The scalars that can be read without a type. -/
theorem Nameless.succeeds_untyped (h : s.Nameless c) :
    Succeeds (s.operand c none) ↔ StandsAlone c := by
  constructor
  · intro loaded
    cases h with
    | bool b => exact .bool b
    | int n =>
      obtain ⟨least, greatest⟩ := (succeeds_int n).mp loaded
      exact .int least greatest
    | float x =>
      cases x with
      | finite negative m e => exact .float negative m e
      | nan =>
        obtain ⟨o, loaded⟩ := loaded
        cases loaded
      | infinite negative =>
        obtain ⟨o, loaded⟩ := loaded
        cases negative <;> cases loaded
    | string call localVar property =>
      obtain ⟨o, loaded⟩ := loaded
      cases (named_nameless call localVar property none).symm.trans loaded
  · intro alone
    cases alone with
    | bool b => cases b <;> exact ⟨_, rfl⟩
    | int least greatest => exact (succeeds_int _).mpr ⟨least, greatest⟩
    | float negative m e => exact succeeds_finite negative m e

theorem isConst_of_untyped (alone : StandsAlone c) (loaded : s.operand c none = .ok o) :
    o.isConst = true := by
  have constant {text type : String} (h : s.constant text type = .ok o) : o.isConst = true := by
    obtain ⟨value, -, rfl⟩ := constant_eq_ok_iff.mp h
    rfl
  cases alone with
  | bool b => exact constant loaded
  | int least greatest => exact constant loaded
  | float negative m e => exact constant loaded

theorem isTyped_of_nameless {v : Yaml.Value} {field : String} (h : s.Nameless c)
    (given : v.get? field = some c) : isTyped v field = false := by
  rw [isTyped, given]
  cases h <;> rfl

/-! ### Pairs -/

theorem operandField_of_get? {v w : Yaml.Value} {field : String} (given : v.get? field = some w)
    (expected : Option String) : s.operandField v field expected = some <$> s.operand w expected := by
  rw [operandField, given]

section Pairs

variable {c w v : Yaml.Value} {o : Operand} {left right : String}

theorem operandPair_of_loaded {l r : Operand} (first : s.operandField v left none = .ok (some l))
    (second : s.operandField v right (some l.type) = .ok (some r)) : s.operandPair v left right =
      if l.isConst && !r.isConst && !isTyped v left then
        (fun again => (again, some r)) <$> s.operandField v left (some r.type)
      else .ok (some l, some r) := by
  rw [operandPair, first]
  change (s.operandField v right (some l.type) >>= _) = _
  rw [second]
  change (if _ then (s.operandField v left (some r.type) >>= fun again => pure (again, some r)) else _) = _
  cases s.operandField v left (some r.type) <;> rfl

/-- A constant on the right is read with the type of the left. -/
theorem operandPair_constant_right (h : s.Nameless c) (loaded : ∀ expected, s.operand w expected = .ok o)
    (variable' : o.isConst = false) (first : v.get? left = some w) (second : v.get? right = some c) :
    s.operandPair v left right = (fun k => (some o, some k)) <$> s.constant c.scalarText o.type := by
  have loadedFirst : s.operandField v left none = .ok (some o) := by
    rw [operandField_of_get? first, loaded]
    rfl
  have loadedSecond : s.operandField v right (some o.type) = some <$> s.constant c.scalarText o.type := by
    rw [operandField_of_get? second, h.operand_typed]
  cases read : s.constant c.scalarText o.type with
  | error e =>
    rw [operandPair, loadedFirst]
    change (s.operandField v right (some o.type) >>= _) = _
    rw [loadedSecond, read]
    rfl
  | ok k =>
    rw [operandPair_of_loaded loadedFirst (loadedSecond.trans (by rw [read]; rfl)), variable']
    rfl

/-- A constant on the left that stands alone is read with the type of the right. -/
theorem operandPair_constant_left (h : s.Nameless c) (alone : StandsAlone c)
    (loaded : ∀ expected, s.operand w expected = .ok o) (variable' : o.isConst = false)
    (first : v.get? left = some c) (second : v.get? right = some w) :
    s.operandPair v left right = (fun k => (some k, some o)) <$> s.constant c.scalarText o.type := by
  obtain ⟨untyped, read⟩ := h.succeeds_untyped.mpr alone
  have loadedFirst : s.operandField v left none = .ok (some untyped) := by
    rw [operandField_of_get? first, read]
    rfl
  have loadedSecond : s.operandField v right (some untyped.type) = .ok (some o) := by
    rw [operandField_of_get? second, loaded]
    rfl
  rw [operandPair_of_loaded loadedFirst loadedSecond, isConst_of_untyped alone read, variable',
    isTyped_of_nameless h first, operandField_of_get? first, h.operand_typed]
  cases s.constant c.scalarText o.type <;> rfl

/-- A constant on the left has to stand alone. -/
theorem operandPair_constant_unread (h : s.Nameless c) (dependent : ¬ StandsAlone c)
    (first : v.get? left = some c) : ¬ Succeeds (s.operandPair v left right) := by
  rintro ⟨r, pair⟩
  cases read : s.operand c none with
  | ok untyped => exact dependent (h.succeeds_untyped.mp ⟨untyped, read⟩)
  | error e =>
    rw [operandPair, operandField_of_get? first, read] at pair
    cases pair

end Pairs

/-- A constant and an operand that is none are loaded as a pair in both orders. With the constant on the
right this succeeds exactly if the constant can be read as a value of the operand's type. With the constant
on the left it has to stand alone besides, and then the constant is the same. -/
theorem operandPair_symmetric_iff (s : Scope) (c w : Yaml.Value) (o : Operand) (expected : Option String)
    (v v' : Yaml.Value) (left right : String) (nameless : s.Nameless c) (loaded : s.operand w expected = .ok o)
    (variable' : o.isConst = false) (left_c : v.get? left = some c) (right_w : v.get? right = some w)
    (left_w : v'.get? left = some w) (right_c : v'.get? right = some c) :
    let read := s.catalog.parseValue? c.scalarText o.type
    (∀ pair, s.operandPair v left right = .ok pair ↔
      StandsAlone c ∧ ∃ value, read = some value ∧ pair = (some (.var (.const o.type value)), some o)) ∧
    (∀ pair, s.operandPair v' left right = .ok pair ↔
      ∃ value, read = some value ∧ pair = (some o, some (.var (.const o.type value)))) ∧
    ((Succeeds (s.operandPair v left right) ↔ Succeeds (s.operandPair v' left right)) ↔
      (read.isSome → StandsAlone c)) := by
  intro read
  have always := operand_expected_irrelevant loaded variable'
  have swapped (pair : Option Operand × Option Operand) : s.operandPair v' left right = .ok pair ↔
      ∃ value, read = some value ∧ pair = (some o, some (.var (.const o.type value))) := by
    rw [operandPair_constant_right nameless always variable' left_w right_c]
    exact map_constant_eq_ok_iff _ pair
  have straight (pair : Option Operand × Option Operand) : s.operandPair v left right = .ok pair ↔
      StandsAlone c ∧ ∃ value, read = some value ∧ pair = (some (.var (.const o.type value)), some o) := by
    by_cases alone : StandsAlone c
    · rw [operandPair_constant_left nameless alone always variable' left_c right_w, and_iff_right alone]
      exact map_constant_eq_ok_iff _ pair
    · exact ⟨fun h => (operandPair_constant_unread nameless alone left_c ⟨pair, h⟩).elim,
        fun h => absurd h.1 alone⟩
  refine ⟨straight, swapped, ?_⟩
  have succeeds : Succeeds (s.operandPair v left right) ↔ StandsAlone c ∧ read.isSome := by
    simp [Succeeds, straight, Option.isSome_iff_exists]
  have succeeds' : Succeeds (s.operandPair v' left right) ↔ read.isSome := by
    simp [Succeeds, swapped, Option.isSome_iff_exists]
  rw [succeeds, succeeds']
  exact and_iff_right_iff_imp

/-- A guard with a mood and a range, which depends on the strength of a shot. -/
def armory : Scope where
  catalog := {
    agents := [{
      name := "Guard"
      properties := [{ name := "mood", type := "Mood" }, { name := "strength", type := "int" },
        { name := "range", type := "double" }]
      methods := [{ name := "reach", result := "double"
                    params := [{ name := "strength", type := "int" }] }] }]
    enums := [{ name := "Mood", members := [{ name := "Calm" }] }] }
  agentType := "Guard"
  locals := []
  owner := "node1"

/-- How far the guard can shoot. -/
def reach : Yaml.Value :=
  .mapping [(.string "method", .string "reach"), (.string "args", .sequence [.string "strength"])]

/-- The two sides of a condition. -/
def sides (left right : Yaml.Value) : Yaml.Value := .mapping [(.string "opl", left), (.string "opr", right)]

theorem operandPair_symmetric_iff_reach : ∃ o value,
    armory.Nameless (.int 3) ∧ StandsAlone (.int 3) ∧
    armory.operand reach none = .ok o ∧ o.isConst = false ∧ o.type = "double" ∧
    armory.catalog.parseValue? "3" "double" = some value ∧
    armory.operandPair (sides (.int 3) reach) "opl" "opr" = .ok (some (.var (.const "double" value)), some o) ∧
    armory.operandPair (sides reach (.int 3)) "opl" "opr" =
      .ok (some o, some (.var (.const "double" value))) := by
  have readable : (armory.catalog.parseValue? "3" "double").isSome := by decide +kernel
  obtain ⟨value, read⟩ := Option.isSome_iff_exists.mp readable
  have alone : StandsAlone (.int 3) := .int (by decide) (by decide)
  have loaded : armory.operand reach none = .ok (.call _ [some (.var (.property _))]) := rfl
  obtain ⟨straight, swapped, -⟩ := operandPair_symmetric_iff armory (.int 3) reach _ none
    (sides (.int 3) reach)
    (sides reach (.int 3)) "opl" "opr" (.int 3) loaded rfl rfl rfl rfl rfl
  exact ⟨_, value, .int 3, alone, loaded, rfl, rfl, read, (straight _).mpr ⟨alone, value, read, rfl⟩,
    (swapped _).mpr ⟨value, read, rfl⟩⟩

/-- A member of an enum is read on the right of a property, and not on the left of it; and so is a number
that only fits the type of the other side. -/
theorem operandPair_left_unread :
    (∃ mood, armory.operandPair (sides (.string "mood") (.string "Calm")) "opl" "opr" =
      .ok (some mood, some (.var (.const "Mood" (.member "Calm"))))) ∧
    armory.operandPair (sides (.string "Calm") (.string "mood")) "opl" "opr" =
      .error (.unknownProperty "Guard" "Calm") ∧
    Succeeds (armory.operandPair (sides (.string "range") (.int 9223372036854775808)) "opl" "opr") ∧
    armory.operandPair (sides (.int 9223372036854775808) (.string "range")) "opl" "opr" =
      .error (.malformedLiteral "9223372036854775808" "int") := by
  have readable : (armory.catalog.parseValue? "9223372036854775808" "double").isSome := by decide +kernel
  obtain ⟨value, read⟩ := Option.isSome_iff_exists.mp readable
  have loaded (expected : Option String) : armory.operand (.string "range") expected =
      .ok (.var (.property _)) := rfl
  have first : (sides (.string "range") (.int 9223372036854775808)).get? "opl" = some (.string "range") := rfl
  have second : (sides (.string "range") (.int 9223372036854775808)).get? "opr" =
      some (.int 9223372036854775808) := rfl
  have pair := operandPair_constant_right (.int _) loaded rfl first second
  refine ⟨⟨_, rfl⟩, rfl, ⟨_, pair.trans ((map_constant_eq_ok_iff _ _).mpr ⟨value, read, rfl⟩)⟩, rfl⟩

end Scope

end GoTrees.Load
