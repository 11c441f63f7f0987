import GoTrees.Binary64.Basic

/-!
# Constants and the types that values have

A constant does not know its native type; that comes from the operand that carries it. `ValueType` is
what a native spelling denotes once its names are resolved.
-/

namespace GoTrees

/-- A constant. -/
inductive Value where
  | bool (b : Bool)
  | int (n : Int)
  | float (x : Binary64)
  | char (text : String)
  | string (text : String)
  /-- A member of an enum, by name. -/
  | member (name : String)
  | array (items : List Value)
  /-- Fields with their values, in the order they were given. -/
  | struct (fields : List (String × Value))
  deriving Repr, Inhabited

/-- What a native type spelling denotes. -/
inductive ValueType where
  | void
  | bool
  | char
  | integer
  | float
  | double
  | string
  | status
  | enum (name : String)
  | struct (name : String) (isRef : Bool)
  | agent (name : String)
  | array (element : ValueType)
  | unknown (name : String)
  deriving DecidableEq, Repr

end GoTrees
