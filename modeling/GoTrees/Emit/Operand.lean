import GoTrees.Binary64.Shortest
import GoTrees.Emit.Context

/-!
# Operands in Go code

An operand is emitted as steps before it is evaluated, the expression, and steps after it. The steps
after it write by-reference arguments back, which Go can only express through temporaries. Constant
arguments of calls and constant arrays and structs are captured as fields of the class.

Temporaries are named from the slot of the operand: `{slot}P{i}` for the argument `i` of a call,
`{slot}Index` for an index, `pAgent_{slot}` for the agent that owns a member, and `{slot}Out` is the slot
of a write-back.
-/

namespace GoTrees

open Go

/-- An operand in Go code. -/
structure Emission where
  pre : List Step := []
  expr : Expr
  post : List Step := []
  deriving Repr

namespace Emission

def inline (e : Expr) : Emission := { expr := e }

/-- The operand as a statement of its own. -/
def statement (e : Emission) : List Step := e.pre ++ [.eval e.expr] ++ e.post

/-- The steps that come before any use of the value, and the expression that then names it. With
write-backs the value is bound to `slot` first, so that they happen before it is used. -/
def bind (e : Emission) (slot : String) : List Step × Expr :=
  if e.post.isEmpty then (e.pre, e.expr)
  else (e.pre ++ [.define slot e.expr] ++ e.post, .name slot)

end Emission

/-- The receiver of generated methods, and the new object in constructors. -/
def self : Expr := .name "n"

namespace Context

/-! ### Constants -/

/-- The Go literal of a scalar constant of a native type. -/
def scalar (x : Context) (native : String) : Value → Emit (Option Expr)
  | .bool b => pure (some (.bool b))
  | .int n => pure (some (.int n))
  | .float f => pure (some (.literal f.text))
  | .char s => pure (some (.literal ("'" ++ String.singleton (s.toList.headD 'A') ++ "'")))
  | .string s => pure (some (.string s))
  | .member name =>
    match x.catalog.classify native with
    | .status => do
      Emit.usePackage "bt"
      return some (Status.ofMember name).expr
    | _ => do return some (enumMember (← x.goType native) name)
  | .array _ | .struct _ => pure none

/-- The Go literals of the scalars among some constants. -/
def scalars (x : Context) (native : String) : List Value → Emit (List Expr)
  | [] => pure []
  | v :: vs => do
    let e ← x.scalar native v
    let es ← x.scalars native vs
    return e.toList ++ es

/-- The slice literal of the scalars of a constant array. -/
def sliceLiteral (x : Context) (native : String) (items : List Value) : Emit Expr := do
  let type ← x.goType native
  let es ← x.scalars (GoType.elementOrSelf native) items
  return .slice type es

/-- The struct that a native spelling names, without its pointer and reference marks. -/
def structOf? (x : Context) (native : String) : Option StructType :=
  x.catalog.struct?
    (Text.trim (.ofList (Text.trimEndBy (fun c => c == '*' || c == '&') native.toList)))

/-- The native type of a field of a struct, empty if there is no such field. -/
def fieldNative (struct : Option StructType) (field : String) : String :=
  match struct.bind fun s => Catalog.propertyIn? s.properties field with
  | some p => p.type
  | none => ""

mutual

/-- The steps that set the fields of `target` to those of a constant struct. -/
def setFields (x : Context) (target : Expr) (struct : Option StructType) :
    List (String × Value) → Emit (List Step)
  | [] => pure []
  | (field, value) :: fields => do
    let steps ← x.setField (.select target (memberName field)) (fieldNative struct field) value
    let more ← x.setFields target struct fields
    return steps ++ more

/-- The steps that set one field to a constant. -/
def setField (x : Context) (target : Expr) (native : String) : Value → Emit (List Step)
  | .struct fields => x.setFields target (x.structOf? native) fields
  | .array [] => pure []
  | .array (item :: items) => do return [.assign target (← x.sliceLiteral native (item :: items))]
  | value => do
    match ← x.scalar native value with
    | some e => return [.assign target e]
    | none => return []

end

/-- Is the type a struct that is held by a pointer? -/
def isStructRef : ValueType → Bool
  | .struct _ isRef => isRef
  | _ => false

/-- The steps of the constructor that set a captured constant. -/
def captureSetup (x : Context) (target : Expr) (native : String) (value : Value) :
    Emit (List Step) := do
  match value with
  | .struct _ =>
    let new ← if isStructRef (x.catalog.classify native) then do
        pure [.assign target (.new (← x.goType native))]
      else pure []
    return new ++ (← x.setField target native value)
  | _ => x.setField target native value

/-- Captures a constant in a field of the class, and gives the access to the field. -/
def capture (x : Context) (native : String) (value : Value) (field : String) : Emit Expr := do
  let target := .select self field
  let type ← x.goType native
  let mark := if isStructRef (x.catalog.classify native) then "*" else ""
  let setup ← x.captureSetup target native value
  Emit.capture { name := field, type := mark ++ type } setup
  return target

/-- A constant operand. Arrays and structs are captured in the field `slot`. -/
def constant (x : Context) (native : String) (value : Value) (slot : String) : Emit Emission := do
  match value with
  | .array [] => return .inline .nil
  | .array _ | .struct _ => return .inline (← x.capture native value slot)
  | _ => return .inline ((← x.scalar native value).getD .nil)

/-! ### Variables -/

/-- The agent of this name, held in `pAgent_{slot}` and asserted to a class. A global instance is asked
for by name, any other agent is a member of the running one. -/
def namedAgent (x : Context) (agent className slot : String) : Emit (List Step × Expr) := do
  let var := "pAgent_" ++ slot
  if x.catalog.isInstance agent then
    Emit.usePackage "bt"
    let found := .call (.member "bt" "GetParentAgent") [agentVar, .string agent]
    return ([.define var found], ← assertedAgent (.name var) className)
  else
    let running ← receiver x.agentType
    return ([.define var (.select running (memberName agent))], .name var)

/-- The agent that a property lives on. Stores keyed by names are reached through any agent, fields only
through one of their class. -/
def ownerOf (x : Context) (p : Property) (slot : String) : Emit (List Step × Expr) := do
  let className := if p.isLateBound then agentBase else p.className
  match p.owner with
  | .running => return ([], ← receiver className)
  | .named agent => x.namedAgent agent className slot

/-- The name and id arguments that a late-bound property is looked up with. -/
def lookupArgs (p : Property) : List Expr := [.string p.basicName, .literal (toString p.variableId)]

/-- The check that a name and an id belong together. -/
def checkId (p : Property) : Emit Step := do
  Emit.usePackage "bt"
  return .eval (.call (.member "bt" "CheckVariableId") (lookupArgs p))

/-- The method that reads from the store of a late-bound property. -/
def getter (p : Property) : String := if p.isLocal then "GetLocal" else "GetVariable"

/-- The method that writes to the store of a late-bound property. -/
def setter (p : Property) : String := if p.isLocal then "SetLocal" else "SetVariable"

/-- The value of a late-bound property in its store, asserted to a type. -/
def stored (p : Property) (owner : Expr) (type : String) : Expr :=
  .asserted (.call (.select owner (getter p)) (lookupArgs p)) type

/-- The field of a property; a static property is a variable of its package. -/
def memberAccess (p : Property) (owner : Expr) : Emit Expr := do
  let field := memberName p.basicName
  if p.isStatic then return .path ((← classPath p.className) ++ field)
  else return .select owner field

/-- An expression with an index after it, if there is one. -/
def indexed (e : Expr) : Option Expr → Expr
  | some i => .index e i
  | none => e

/-- Reads a property from its owner, after the check if it is late-bound. -/
def readFrom (x : Context) (p : Property) (owner : Expr) (i : Option Expr) :
    Emit (List Step × Expr) := do
  if p.isLateBound then
    let check ← checkId p
    let type ← x.goType p.type
    let mark := if p.isElement then "[]" else ""
    return ([check], indexed (stored p owner (mark ++ type)) i)
  else
    return ([], indexed (← memberAccess p owner) i)

/-- Writes to a property of its owner, after the check if it is late-bound. -/
def writeTo (x : Context) (p : Property) (owner : Expr) (i : Option Expr) (value : Expr) :
    Emit (List Step) := do
  if p.isLateBound then
    let check ← checkId p
    match i with
    | some i =>
      let type ← x.goType p.type
      return [check, .assign (.index (stored p owner ("[]" ++ type)) i) value]
    | none => return [check, .eval (.call (.select owner (setter p)) (lookupArgs p ++ [value]))]
  else
    return [.assign (indexed (← memberAccess p owner) i) value]

def indexSlot (slot : String) : String := slot ++ "Index"

def readVariable (x : Context) : Variable → String → Emit Emission
  | .const native value, slot => x.constant native value slot
  | .property p, slot => do
    let (pre, owner) ← x.ownerOf p slot
    let (check, expr) ← x.readFrom p owner none
    return { pre := pre ++ check, expr }
  | .element p index, slot => do
    let (pre, owner) ← x.ownerOf p slot
    let (steps, i) := (← x.readVariable index (indexSlot slot)).bind (indexSlot slot)
    let (check, expr) ← x.readFrom p owner (some i)
    return { pre := pre ++ steps ++ check, expr }

/-- The steps that store a value in a variable; a constant cannot be written, so there are none. -/
def writeVariable (x : Context) (v : Variable) (value : Expr) (slot : String) :
    Emit (List Step) := do
  match v with
  | .const .. => return []
  | .property p =>
    let (pre, owner) ← x.ownerOf p slot
    return pre ++ (← x.writeTo p owner none value)
  | .element p index =>
    let (pre, owner) ← x.ownerOf p slot
    let (steps, i) := (← x.readVariable index (indexSlot slot)).bind (indexSlot slot)
    return pre ++ steps ++ (← x.writeTo p owner (some i) value)

/-! ### Calls -/

/-- The arguments of a call, with the steps before and after it. -/
structure Arguments where
  pre : List Step := []
  exprs : List Expr := []
  post : List Step := []
  deriving Repr

/-- The arguments before others. -/
def Arguments.append (a b : Arguments) : Arguments where
  pre := a.pre ++ b.pre
  exprs := a.exprs ++ b.exprs
  post := a.post ++ b.post

/-- The argument of an unbound parameter: the default of its type. -/
def unboundArgument (x : Context) (p : Param) : Emit Arguments := do
  return { exprs := [(← x.defaultLiteral p.type none).getD .nil] }

/-- A constant argument: the captured field, or the address of a copy. -/
def constArgument (x : Context) (p : Param) (native : String) (value : Value) (slot : String) :
    Emit Arguments := do
  let field ← x.capture native value slot
  if p.isByRef then return { pre := [.define slot field], exprs := [.address slot] }
  else return { exprs := [field] }

/-- Can the variable be written back to? -/
def isWritable (v : Variable) : Bool :=
  match v.property? with
  | some p => !p.isReadonly
  | none => false

/-- A variable as an argument; by reference it goes through the temporary `slot`, which is written
back after the call. -/
def variableArgument (x : Context) (p : Param) (v : Variable) (e : Emission) (slot : String) :
    Emit Arguments := do
  if p.isByRef then
    let post ← if isWritable v then x.writeVariable v (.name slot) (slot ++ "Out") else pure []
    return { pre := e.pre ++ [.define slot e.expr], exprs := [.address slot], post }
  else return { pre := e.pre, exprs := [e.expr] }

/-- A call as an argument; with write-backs or by reference its value is bound to `slot`, and its own
write-backs come before the outer call. -/
def callArgument (p : Param) (e : Emission) (slot : String) : Arguments :=
  if p.isByRef then
    { pre := e.pre ++ [.define slot e.expr] ++ e.post, exprs := [.address slot] }
  else
    let (pre, expr) := e.bind slot
    { pre, exprs := [expr] }

/-- The call of a method with its arguments in place. -/
def invoke (x : Context) (m : Method) (args : Arguments) (slot : String) : Emit Emission := do
  let (pre, agent) ← match m.owner with
    | .running => do pure ([], ← receiver m.className)
    | .named agent => x.namedAgent agent m.className slot
  return {
    pre := pre ++ args.pre
    expr := .call (.select agent (memberName m.name)) args.exprs
    post := args.post }

/-- The slot of the argument `i` of a call. -/
def argSlot (slot : String) (i : Nat) : String := slot ++ "P" ++ toString i

def unboundArguments (x : Context) : List Param → Emit Arguments
  | [] => pure {}
  | p :: ps => do
    let a ← x.unboundArgument p
    return a.append (← x.unboundArguments ps)

mutual

/-- An operand in Go code. -/
def operand (x : Context) : Operand → String → Emit Emission
  | .var v, slot => x.readVariable v slot
  | .call m args, slot => do
    let args ← x.arguments m.params args slot 0
    x.invoke m args slot

/-- The arguments for some parameters, the first of which is number `i`. -/
def arguments (x : Context) : List Param → List (Option Operand) → String → Nat → Emit Arguments
  | [], _, _, _ => pure {}
  | params, [], _, _ => x.unboundArguments params
  | p :: params, none :: args, slot, i => do
    let a ← x.unboundArgument p
    return a.append (← x.arguments params args slot (i + 1))
  | p :: params, some o :: args, slot, i => do
    let a ← match o with
      | .var (.const native value) => x.constArgument p native value (argSlot slot i)
      | .var v => do x.variableArgument p v (← x.readVariable v (argSlot slot i)) (argSlot slot i)
      | .call .. => do pure (callArgument p (← x.operand o (argSlot slot i)) (argSlot slot i))
    return a.append (← x.arguments params args slot (i + 1))

end

def callMethod (x : Context) (c : Call) (slot : String) : Emit Emission :=
  x.operand (.call c.1 c.2) slot

end Context

end GoTrees
