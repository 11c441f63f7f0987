import GoTrees.Go.Render
import GoTrees.GoType
import GoTrees.Literal
import GoTrees.Status
import GoTrees.Value

/-!
# Literals of a type

The Go expression for an encoded default value of a type, or for the value that a type has without
one. A type without values has no literal.
-/

namespace GoTrees

open Go Text

def Status.expr (s : Status) : Expr := .member "bt" s.name

/-- A member selected from its enum type. -/
def enumMember (type name : String) : Expr := .path (type ++ "." ++ name)

/-- A text as an encoded value, if anything is left of it after trimming. -/
def givenText (text : Option String) : Option String :=
  (text.map trim).filter fun s => !s.isEmpty

/-- The Go literal for a value of a type whose Go spelling is `goType`. -/
def literalFor (ty : ValueType) (goType : String) (text : Option String) : Option Expr :=
  let given := givenText text
  match ty with
  | .void => none
  | .char => some (.literal "0")
  | .bool => some (.literal (Numeral.lowerText (given.getD "false")))
  | .integer | .double => some (.literal (given.getD "0"))
  | .float =>
    let value := given.getD "0"
    some (.literal ((beforeTail? value "f").getD value))
  | .string => some (.string (trimChar (given.getD "") '"'))
  | .status => some (Status.ofMember (given.getD "")).expr
  | .enum _ =>
    match given with
    | some member => some (enumMember goType (basicName member))
    | none => some (.converted goType (.literal "0"))
  | .array _ | .agent _ | .struct _ true => some .nil
  | .struct _ false => some (.new goType)
  | .unknown _ => some (.literal (given.getD "nil"))

/-- The Go literal for a value of a native type. -/
def nativeLiteral (renames : List Rename) (ty : ValueType) (native : String) (text : Option String) :
    Option Expr :=
  literalFor ty (GoType.ofNative renames native) text

/-- The literals of the scalar items of an encoded array. -/
def itemLiterals (renames : List Rename) (element : ValueType) (native : String)
    (items : List Literal) : List Expr :=
  items.filterMap fun
    | .scalar s => nativeLiteral renames element native (some s)
    | _ => none

/-- The Go literal for the default of a property: like `nativeLiteral`, but an encoded array becomes a
slice literal. -/
def propertyLiteral (renames : List Rename) (ty : ValueType) (native : String)
    (text : Option String) : Option Expr :=
  match ty, text with
  | .array element, some encoded =>
    match (Literal.parse encoded).1 with
    | .array items =>
      some (.slice (GoType.ofNative renames native)
        (itemLiterals renames element (GoType.elementOrSelf native) items))
    | _ => nativeLiteral renames ty native text
  | _, _ => nativeLiteral renames ty native text

end GoTrees
