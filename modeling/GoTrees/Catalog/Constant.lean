import GoTrees.Catalog.Classify
import GoTrees.Literal

/-!
# Reading constants

An encoded literal is read as a value of a native type. Items and fields that cannot be read as their
type are left out; a scalar that cannot be read gives no value at all.
-/

namespace GoTrees.Catalog

open Text Numeral

/-- A number after the `f` marks at its end are dropped. -/
def markedFloat? (text : String) : Option Binary64 :=
  binary64? (.ofList (trimEndBy (fun c => c == 'f' || c == 'F') text.toList))

/-- A scalar of an unknown type: a whole number, else a number, else a truth value, else a string. -/
def guessedValue (text : String) : Value :=
  match int64? text with
  | some n => .int n
  | none =>
    match binary64? text with
    | some x => .float x
    | none =>
      match text with
      | "true" => .bool true
      | "false" => .bool false
      | _ => .string (trimChar text '"')

/-- A scalar as a value of a type. -/
def scalarValue? (ty : ValueType) (text : String) : Option Value :=
  let text := trim text
  match ty with
  | .bool =>
    match lowerText text with
    | "true" => some (.bool true)
    | "false" => some (.bool false)
    | _ => none
  | .integer => (int64? text).map .int
  | .float | .double => (markedFloat? text).map .float
  | .char => some (.char (trimChar text '\''))
  | .string => some (.string (trimChar text '"'))
  | .status | .enum _ => some (.member (basicName text))
  | .array _ => if text.isEmpty then some (.array []) else none
  | .void | .agent _ | .struct .. => none
  | .unknown _ => some (guessedValue text)

/-- The type of a field of a struct; a field that the struct does not have is of unknown type. -/
def fieldType (c : Catalog) (struct : Option StructType) (field : String) : ValueType :=
  match struct.bind fun s => propertyIn? s.properties field with
  | some p => c.classify p.type
  | none => .unknown ""

mutual

/-- A literal as a value of a type. -/
def valueOf? (c : Catalog) : Literal → ValueType → Option Value
  | .scalar text, ty => scalarValue? ty text
  | .array items, .array element => some (.array (itemValues c items element))
  | .array _, _ => none
  | .struct fields, .struct name _ => some (.struct (fieldValues c fields (c.struct? name)))
  | .struct _, _ => none

/-- The items that can be read as the element type. -/
def itemValues (c : Catalog) : List Literal → ValueType → List Value
  | [], _ => []
  | item :: items, ty =>
    match valueOf? c item ty with
    | some v => v :: itemValues c items ty
    | none => itemValues c items ty

/-- The fields that can be read as the type the struct gives them. -/
def fieldValues (c : Catalog) : List (String × Literal) → Option StructType → List (String × Value)
  | [], _ => []
  | (name, literal) :: fields, struct =>
    match valueOf? c literal (c.fieldType struct name) with
    | some v => (name, v) :: fieldValues c fields struct
    | none => fieldValues c fields struct

end

/-- Are literals of this type more than scalars? -/
def isAggregate : ValueType → Bool
  | .array _ | .struct .. | .unknown _ => true
  | _ => false

/-- The constant that a text encodes as a value of a native type. -/
def parseValue? (c : Catalog) (text native : String) : Option Value :=
  let ty := c.classify native
  let literal := if isAggregate ty then (Literal.parse text).1 else .scalar (trim text)
  valueOf? c literal ty

end GoTrees.Catalog
