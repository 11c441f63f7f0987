import GoTrees.Catalog.Constant
import GoTrees.GoType
import GoTrees.Load.Error
import GoTrees.Tree.Basic
import GoTrees.Yaml.Basic

/-!
# Operands of a document

An operand is written as a mapping that says what it is, as a name, or as a constant. A name that ends
in `()` calls a method; other names are those of local variables, then of properties of the agent, and
what names nothing is a constant of the type that is expected. A constant without an expected type has
the type its written form suggests.
-/

namespace GoTrees.Load

/-- What the names in operands refer to. -/
structure Scope where
  catalog : Catalog
  agentType : String
  locals : List Local
  /-- The node, attachment or tree that is being loaded, for messages. -/
  owner : String

def stringType : String := "behaviac::string"

def statusType : String := "behaviac::EBTStatus"

/-- The type of a constant that nothing else decides. -/
def suggestedType : Yaml.Value → String
  | .bool _ => "bool"
  | .int _ => "int"
  | .float _ => "float"
  | _ => stringType

/-- Walks parameters and written arguments together. -/
def bindArgs (load : Yaml.Value → Option String → Except LoadError Operand) :
    List Param → List Yaml.Value → Except LoadError (List (Option Operand))
  | p :: ps, v :: vs => do
    let arg ← load v (some p.type)
    let rest ← bindArgs load ps vs
    return some arg :: rest
  | _, _ => .ok []

namespace Scope

/-- The same scope for another node or attachment. -/
def within (s : Scope) (owner : String) : Scope := { s with owner }

/-- A field that is missing here. -/
def missing (s : Scope) (field : String) : LoadError := .missingField s.owner field

def constant (s : Scope) (text type : String) : Except LoadError Operand :=
  match s.catalog.parseValue? text type with
  | some value => .ok (.var (.const type value))
  | none => .error (.malformedLiteral text type)

/-- The first local variable of a name. -/
def findLocal? (s : Scope) (name : String) : Option Local := s.locals.find? (·.name == name)

def localVariable (s : Scope) (name : String) : Except LoadError Operand :=
  match s.findLocal? name with
  | some l => .ok (.var (.property l.property))
  | none => .error (.unknownProperty s.agentType name)

def findProperty (s : Scope) (cls name : String) : Except LoadError Property :=
  match s.catalog.property? cls name with
  | some p => .ok p
  | none => .error (.unknownProperty cls name)

def findMethod (s : Scope) (cls name : String) : Except LoadError Method :=
  match s.catalog.method? cls name with
  | some m => .ok m
  | none => .error (.unknownMethod cls name)

/-- An operand that is a bare name. -/
def named (s : Scope) (name : String) (expected : Option String) : Except LoadError Operand :=
  match Text.beforeTail? name "()" with
  | some method => do
    let m ← s.findMethod s.agentType method
    return .call m []
  | none =>
    if (s.findLocal? name).isSome then s.localVariable name
    else match s.catalog.property? s.agentType name, expected with
      | some p, _ => .ok (.var (.property p))
      | none, some type => s.constant name type
      | none, none => .error (.unknownProperty s.agentType name)

/-- The owner that a mapping names, or else the one that is there. -/
def ownerOr (v : Yaml.Value) (owner : Owner) : Owner :=
  match v.string? "owner" with
  | some agent => .named agent
  | none => owner

/-- An operand that is nested no deeper than the bound. -/
def operandWithin (s : Scope) : Nat → Yaml.Value → Option String → Except LoadError Operand
  | 0, _, _ => .error (s.missing "operand")
  | depth + 1, v, expected =>
    match v with
    | .string name => s.named name expected
    | .bool _ | .int _ | .float _ => s.constant v.scalarText (expected.getD (suggestedType v))
    | .null | .sequence _ => .error (s.missing "operand")
    | .mapping _ =>
      let cls := (v.string? "class").getD s.agentType
      match v.get? "const", v.string? "property", v.string? "local", v.string? "method" with
      | some c, _, _, _ =>
        s.constant c.scalarText ((v.string? "type").getD (expected.getD (suggestedType c)))
      | none, some name, _, _ => do
        let found ← s.findProperty cls name
        let p := { found with owner := ownerOr v found.owner }
        match v.get? "index" with
        | none => return .var (.property p)
        | some i =>
          match ← s.operandWithin depth i (some "int") with
          | .var index =>
            return .var (.element { p with type := GoType.elementOrSelf p.type, isElement := true } index)
          | .call .. => .error (.notAVariable s.owner "index")
      | none, none, some name, _ => s.localVariable name
      | none, none, none, some name => do
        let m ← s.findMethod cls name
        let args ← bindArgs (s.operandWithin depth) m.params (v.items "args")
        return .call { m with owner := ownerOr v m.owner } args
      | none, none, none, none => .error (s.missing "operand")

def operand (s : Scope) (v : Yaml.Value) (expected : Option String) : Except LoadError Operand :=
  s.operandWithin (v.depth + 1) v expected

/-- The operand of a field, if the field is given. -/
def operandField (s : Scope) (v : Yaml.Value) (field : String) (expected : Option String) :
    Except LoadError (Option Operand) :=
  match v.get? field with
  | some x => some <$> s.operand x expected
  | none => .ok none

/-- The operand of a field that takes no calls. -/
def variableField (s : Scope) (v : Yaml.Value) (field : String) (expected : Option String) :
    Except LoadError (Option Variable) := do
  match ← s.operandField v field expected with
  | some (.var x) => return some x
  | some (.call ..) => .error (.notAVariable s.owner field)
  | none => return none

/-- The operand of a field that takes only calls. -/
def callField (s : Scope) (v : Yaml.Value) (field : String) : Except LoadError (Option Call) := do
  match ← s.operandField v field none with
  | some (.call m args) => return some (m, args)
  | some (.var _) => .error (.notAMethod s.owner field)
  | none => return none

/-- Is the type of a field's operand written out? -/
def isTyped (v : Yaml.Value) (field : String) : Bool :=
  ((v.get? field).bind (·.get? "type")).isSome

/-- The two sides of a comparison. A constant has the type of the other side, unless its own is written
out. -/
def operandPair (s : Scope) (v : Yaml.Value) (left right : String) :
    Except LoadError (Option Operand × Option Operand) := do
  let first ← s.operandField v left none
  let second ← s.operandField v right (first.map (·.type))
  match first, second with
  | some l, some r =>
    if l.isConst && !r.isConst && !isTyped v left then
      return (← s.operandField v left (some r.type), second)
    else return (first, second)
  | _, _ => return (first, second)

end Scope

end GoTrees.Load
