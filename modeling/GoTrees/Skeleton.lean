import GoTrees.Emit.Context
import GoTrees.Workspace.Merge

/-!
# Type files

The agent types of the catalog become skeletons whose method bodies are hand-written blocks; enums and
structs become Go types. Types that are implemented elsewhere are left out. A type with a location goes
to a file there, the other enums and structs share one file.
-/

namespace GoTrees

open Go

/-- What type files are generated from. -/
structure Skeleton where
  catalog : Catalog
  config : Config := {}
  deriving Repr

namespace Skeleton

/-- The Go type of a native spelling; type files see each other's types without a qualifier. -/
def goType (k : Skeleton) (native : String) : Emit String := do
  let type := GoType.ofNative k.config.renames native
  Context.notePackages type
  return type

/-- The value that a field or a result starts out with. A struct held by value is an empty composite
literal. -/
def initialValue (k : Skeleton) (native : String) (text : Option String) : Emit (Option Expr) := do
  let type ← k.goType native
  let ty := k.catalog.classify native
  match ty with
  | .struct _ false => return some (.empty type)
  | _ => return propertyLiteral k.config.renames ty native text

/-- The comment line of a description, if there is one. -/
def commentOf (text : String) : List Decl := if text.isEmpty then [] else [.comment text]

/-- The Go name of a property. -/
def fieldName (p : Property) : String := pascalCase p.basicName

def fieldRows (k : Skeleton) : List Property → Emit (List Row)
  | [] => pure []
  | p :: ps => do
    let type ← k.goType p.type
    return { name := fieldName p, type, comment := p.description } :: (← k.fieldRows ps)

/-! ### Agents -/

/-- Does the agent type declare the property itself, as a field or static variable? -/
def isOwn (p : Property) : Bool := !p.isInherited && !p.isLocal && !p.isElement

/-- The variables of static properties. -/
def staticDecls (k : Skeleton) (agent : String) : List Property → Emit (List Decl)
  | [] => pure []
  | p :: ps => do
    let type ← k.goType p.type
    let value ← k.initialValue p.type p.initial
    let value := if p.initial.isSome then value else none
    return .variable (agent ++ fieldName p) type value :: (← k.staticDecls agent ps)

/-- The steps of the constructor that set the fields with a default. -/
def fieldSetup (k : Skeleton) : List Property → Emit (List Step)
  | [] => pure []
  | p :: ps => do
    let value ← if p.initial.isSome then k.initialValue p.type p.initial else pure none
    let steps := value.toList.map fun e => .assign (.select (.name "_o") (fieldName p)) e
    return steps ++ (← k.fieldSetup ps)

/-- The parameters of a method; by-reference parameters are pointers. -/
def paramTypes (k : Skeleton) : List Param → Emit (List (String × String))
  | [] => pure []
  | p :: ps => do
    let type ← k.goType p.type
    return (p.name, if p.isByRef then "*" ++ type else type) :: (← k.paramTypes ps)

/-- The stub of a method, with a hand-written block as its body. -/
def methodStub (k : Skeleton) (agent : String) (m : Method) : Emit (List Decl) := do
  let name := memberName m.name
  let params ← k.paramTypes m.params
  let type ← k.goType m.result
  let value ← k.initialValue m.result none
  let body : List Step := [.comment (Merge.beginText ++ " " ++ name)]
    ++ value.toList.map Step.ret ++ [.comment Merge.endText]
  return commentOf m.description ++
    [.func { receiver := some ("_o", agent), name, params, result := value.map fun _ => type,
             body := body.map .step },
     .blank]

/-- The stubs of the methods that an agent type declares itself. -/
def methodStubs (k : Skeleton) (agent : String) : List Method → Emit (List Decl)
  | [] => pure []
  | m :: ms => do
    let decls ← if m.isInherited then pure [] else k.methodStub agent m
    return decls ++ (← k.methodStubs agent ms)

def agentDecls (k : Skeleton) (a : AgentType) : Emit (List Decl) := do
  let name := basicName a.name
  let members := a.properties.filter fun p => isOwn p && !p.isStatic
  let statics := a.properties.filter fun p => isOwn p && p.isStatic
  let rows ← k.fieldRows members
  let staticVars ← k.staticDecls name statics
  let setup ← k.fieldSetup members
  let stubs ← k.methodStubs name a.methods
  let body := [.define "_o" (.new name)] ++ setup ++ [.ret (.name "_o")]
  return [.blank] ++ commentOf a.description ++ [.record name none rows, .blank]
    ++ (if statics.isEmpty then [] else staticVars ++ [.blank])
    ++ [.func { name := "New" ++ name, result := some ("*" ++ name), body := body.map .step }, .blank]
    ++ stubs

/-! ### Enums and structs -/

def enumDecls (e : EnumType) : List Decl :=
  let name := basicName e.name
  let rows := e.members.map fun m =>
    { name := basicName m.name, type := name ++ " = " ++ toString m.value, comment := m.display }
  [.blank] ++ commentOf e.description ++ [.defined name "int", .blank, .constants rows]

def structDecls (k : Skeleton) (s : StructType) : Emit (List Decl) := do
  let rows ← k.fieldRows (s.properties.filter fun p => !p.isInherited)
  let base ← match s.base.filter fun b => !b.isEmpty with
    | some b => do pure (some (← k.goType b))
    | none => pure none
  return [.blank] ++ commentOf s.description ++ [.record (basicName s.name) base rows]

/-- The declarations of structs one after the other. -/
def structsDecls (k : Skeleton) : List StructType → Emit (List Decl)
  | [] => pure []
  | s :: rest => do
    let decls ← k.structDecls s
    return decls ++ (← k.structsDecls rest)

/-- A title above a group of declarations. -/
def banner (title : String) : List Decl :=
  [.blank, .comment "-------------------", .comment title, .comment "-------------------"]

/-! ### Files -/

/-- A type file. -/
def file (k : Skeleton) (path package : String) (code : Emit (List Decl)) : OutputFile :=
  assemble path package (importLines k.config code.needs.imports) code.value

/-- The path of a type with a location. -/
def locatedPath (k : Skeleton) (location name : String) : String :=
  k.config.typesDir ++ "/" ++ Text.trimChar location '/' ++ "/" ++ name ++ ".go"

/-- The package of a location: its last folder, as an identifier. -/
def locationPackage (k : Skeleton) (location : String) : String :=
  match ((Text.split (Text.trimChar location '/') '/').getLast?).filter fun s => !s.isEmpty with
  | some folder =>
    .ofList (folder.toList.map fun c => if c = '-' || c = '.' || c = ' ' then '_' else c)
  | none => k.config.typesPackage

/-- The path and the package of the skeleton of an agent type: by its location, else by its
namespace. -/
def agentPlace (k : Skeleton) (a : AgentType) : String × String :=
  let name := basicName a.name
  let space := namespaceOf a.name
  match a.location with
  | some location => (k.locatedPath location name, k.locationPackage location)
  | none =>
    if space.isEmpty then (k.config.typesDir ++ "/" ++ name ++ ".go", k.config.typesPackage)
    else
      (k.config.typesDir ++ "/" ++ Text.replace space "::" "/" ++ "/" ++ name ++ ".go",
        basicName space)

def agentFile (k : Skeleton) (a : AgentType) : OutputFile :=
  let (path, package) := k.agentPlace a
  { k.file path package (k.agentDecls a) with mergeable := true }

/-- The file of the enums and structs without a location, if there are any. -/
def sharedFile? (k : Skeleton) : Option OutputFile :=
  let enums := k.catalog.enums.filter fun e => !e.isImplemented && e.location.isNone
  let structs := k.catalog.structs.filter fun s => !s.isImplemented && s.location.isNone
  if enums.isEmpty && structs.isEmpty then none
  else
    let enumCode : List Decl :=
      if enums.isEmpty then [] else banner "Customized enums" ++ enums.flatMap enumDecls
    let code : Emit (List Decl) := do
      let decls ← k.structsDecls structs
      return enumCode ++ (if structs.isEmpty then [] else banner "Customized structs" ++ decls)
    some (k.file (k.config.typesDir ++ "/customized_types.go") k.config.typesPackage code)

def enumFile? (k : Skeleton) (e : EnumType) : Option OutputFile :=
  e.location.map fun location =>
    k.file (k.locatedPath location (basicName e.name)) (k.locationPackage location)
      (pure (enumDecls e))

def structFile? (k : Skeleton) (s : StructType) : Option OutputFile :=
  s.location.map fun location =>
    k.file (k.locatedPath location (basicName s.name)) (k.locationPackage location)
      (k.structDecls s)

/-- All type files: skeletons, shared types, and types with a location. -/
def files (k : Skeleton) : List OutputFile :=
  ((k.catalog.agents.filter fun a => !a.isImplemented && a.name != agentBase).map k.agentFile)
    ++ k.sharedFile?.toList
    ++ ((k.catalog.enums.filter fun e => !e.isImplemented).filterMap k.enumFile?)
    ++ ((k.catalog.structs.filter fun s => !s.isImplemented).filterMap k.structFile?)

end Skeleton

end GoTrees
