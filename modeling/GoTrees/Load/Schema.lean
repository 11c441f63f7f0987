import GoTrees.Catalog.Basic
import GoTrees.Config
import GoTrees.Yaml.Scalar

/-!
# The shape of settings and catalogs

A record is a mapping, or a sequence of its fields by position. Fields that are left out have their
defaults and unknown ones are ignored, but a field of the wrong kind makes the whole malformed. Settings
can also be read straight from written values; then a string field takes any scalar as it is written.
-/

namespace GoTrees.Load

/-- What records are read from. -/
structure View (α : Type) where
  string? : α → Option String
  items? : α → Option (List α)
  /-- The pairs of a mapping whose keys are all strings. -/
  pairs? : α → Option (List (String × α))
  /-- The name that stands for one of some alternatives. -/
  alternative? : List String → α → Option String

/-- Gives the keys of pairs as strings, if all are. -/
def keyed (string? : α → Option String) (pairs : List (α × α)) : Option (List (String × α)) :=
  pairs.mapM fun (k, v) => (string? k).map (·, v)

def valueString? : Yaml.Value → Option String
  | .string s => some s
  | _ => none

/-- Records of values: a string field takes strings only. -/
def ofValue : View Yaml.Value where
  string? := valueString?
  items?
    | .sequence items => some items
    | _ => none
  pairs?
    | .mapping pairs => keyed valueString? pairs
    | _ => none
  alternative? _ v := v.alternative?

/-- The text of a written scalar. -/
def writtenText? (w : Yaml.Written) (n : Yaml.Node) : Option String :=
  match w.resolve n with
  | .scalar _ text => some text
  | _ => none

/-- Is it null? -/
def writtenIsNull (w : Yaml.Written) (n : Yaml.Node) : Bool :=
  match w.resolve n with
  | .scalar style text => Yaml.scalarValue? style text == some .null
  | _ => false

/-- The name that stands for one of some alternatives: a scalar, or the only key of a mapping to null. A
tag that names an alternative itself is refused. -/
def writtenAlternative? (w : Yaml.Written) (names : List String) (n : Yaml.Node) : Option String :=
  match w.resolve n with
  | .scalar (.tagged tag) text => if tag.handle == "!" && names.contains tag.suffix then none else some text
  | .scalar _ text => some text
  | .mapping [(.scalar _ text, v)] => if writtenIsNull w v then some text else none
  | _ => none

/-- Records as they are written in a document: a string field takes any scalar. -/
def ofWritten (w : Yaml.Written) : View Yaml.Node where
  string? := writtenText? w
  items? n :=
    match w.resolve n with
    | .sequence items => some items
    | _ => none
  pairs? n :=
    match w.resolve n with
    | .mapping pairs => keyed (writtenText? w) pairs
    | _ => none
  alternative? := writtenAlternative? w

/-- The fields of a record that are given. -/
abbrev Record (α : Type) := List (String × α)

namespace View

/-- A record with the fields of these names; a field is given once. -/
def record (w : View α) (names : List String) (v : α) : Option (Record α) :=
  match w.pairs? v with
  | some pairs =>
    let known := pairs.filter fun p => names.contains p.1
    if (known.map (·.1)).Nodup then some known else none
  | none =>
    match w.items? v with
    | some items => if items.length ≤ names.length then some (names.zip items) else none
    | none => none

/-- A list of things that are read by `f`. -/
def list (w : View α) (f : α → Option β) (v : α) : Option (List β) :=
  match w.items? v with
  | some items => items.mapM f
  | none => none

end View

namespace Record

/-- A field that may be left out. -/
def field (r : Record α) (name : String) (f : α → Option β) (default : β) : Option β :=
  match r.lookup name with
  | some v => f v
  | none => some default

/-- A field that has to be given. -/
def required (r : Record α) (name : String) (f : α → Option β) : Option β :=
  (r.lookup name).bind f

end Record

/-! ### Settings -/

/-- Reads how trees are spread over files. -/
def fileMode? (w : View α) (v : α) : Option FileMode :=
  match w.alternative? ["single", "per_behavior"] v with
  | some "single" => some .single
  | some "per_behavior" => some .perBehavior
  | _ => none

def rename? (w : View α) (v : α) : Option Rename := do
  let r ← w.record ["from", "to"] v
  let old ← r.required "from" w.string?
  let new ← r.required "to" w.string?
  return { old, new }

def configFields : List String :=
  ["trees_package", "types_package", "runtime_module", "types_import", "generated_folder",
   "behaviors_folder", "types_folder", "single_file_name", "file_mode", "type_renames"]

def config? (w : View α) (v : α) : Option Config := do
  let r ← w.record configFields v
  let d : Config := {}
  let treesPackage ← r.field "trees_package" w.string? d.treesPackage
  let typesPackage ← r.field "types_package" w.string? d.typesPackage
  let runtimeModule ← r.field "runtime_module" w.string? d.runtimeModule
  let typesImport ← r.field "types_import" w.string? d.typesImport
  let generatedFolder ← r.field "generated_folder" w.string? d.generatedFolder
  let behaviorsFolder ← r.field "behaviors_folder" w.string? d.behaviorsFolder
  let typesFolder ← r.field "types_folder" w.string? d.typesFolder
  let singleFileName ← r.field "single_file_name" w.string? d.singleFileName
  let fileMode ← r.field "file_mode" (fileMode? w) d.fileMode
  let renames ← r.field "type_renames" (w.list (rename? w)) d.renames
  return { treesPackage, typesPackage, runtimeModule, typesImport, generatedFolder, behaviorsFolder,
           typesFolder, singleFileName, fileMode, renames }

/-- Reads settings that make up a document of their own, as they are written. -/
def writtenConfig? (w : Yaml.Written) : Option Config := config? (ofWritten w) w.root

/-! ### Catalogs -/

/-- Reads a truth value. -/
def bool? : Yaml.Value → Option Bool
  | .bool b => some b
  | _ => none

/-- Reads a whole number of 64 bits. -/
def int? : Yaml.Value → Option Int
  | .int n => if Numeral.minInt64 ≤ n && n ≤ Numeral.maxInt64 then some n else none
  | _ => none

/-- Reads a string or null. -/
def optional? : Yaml.Value → Option (Option String)
  | .string s => some (some s)
  | .null => some none
  | _ => none

def property? (v : Yaml.Value) : Option Property := do
  let r ← ofValue.record
    ["name", "type", "customized", "readonly", "static", "inherited", "default", "description"] v
  let name ← r.field "name" valueString? ""
  let type ← r.field "type" valueString? ""
  let isCustomized ← r.field "customized" bool? false
  let isReadonly ← r.field "readonly" bool? false
  let isStatic ← r.field "static" bool? false
  let isInherited ← r.field "inherited" bool? false
  let initial ← r.field "default" optional? none
  let description ← r.field "description" valueString? ""
  return { name, type, isCustomized, isReadonly, isStatic, isInherited, initial, description }

def param? (v : Yaml.Value) : Option Param := do
  let r ← ofValue.record ["name", "type", "ref", "out", "description"] v
  let name ← r.field "name" valueString? ""
  let type ← r.field "type" valueString? ""
  let isRef ← r.field "ref" bool? false
  let isOut ← r.field "out" bool? false
  let description ← r.field "description" valueString? ""
  return { name, type, isRef, isOut, description }

def method? (v : Yaml.Value) : Option Method := do
  let r ← ofValue.record ["name", "return", "params", "description", "inherited"] v
  let name ← r.field "name" valueString? ""
  let result ← r.field "return" valueString? "void"
  let params ← r.field "params" (ofValue.list param?) []
  let description ← r.field "description" valueString? ""
  let isInherited ← r.field "inherited" bool? false
  return { name, result, params, description, isInherited }

def agent? (v : Yaml.Value) : Option AgentType := do
  let r ← ofValue.record
    ["name", "base", "implemented", "export_location", "description", "properties", "methods"] v
  let name ← r.field "name" valueString? ""
  let base ← r.field "base" valueString? agentBase
  let isImplemented ← r.field "implemented" bool? false
  let location ← r.field "export_location" optional? none
  let description ← r.field "description" valueString? ""
  let properties ← r.field "properties" (ofValue.list property?) []
  let methods ← r.field "methods" (ofValue.list method?) []
  return { name, base, isImplemented, location, description, properties, methods }

def enumMember? (v : Yaml.Value) : Option EnumMember := do
  let r ← ofValue.record ["name", "value", "display"] v
  let name ← r.field "name" valueString? ""
  let value ← r.field "value" int? 0
  let display ← r.field "display" valueString? ""
  return { name, value, display }

def enum? (v : Yaml.Value) : Option EnumType := do
  let r ← ofValue.record ["name", "description", "implemented", "export_location", "members"] v
  let name ← r.field "name" valueString? ""
  let description ← r.field "description" valueString? ""
  let isImplemented ← r.field "implemented" bool? false
  let location ← r.field "export_location" optional? none
  let members ← r.field "members" (ofValue.list enumMember?) []
  return { name, description, isImplemented, location, members }

def struct? (v : Yaml.Value) : Option StructType := do
  let r ← ofValue.record
    ["name", "base", "is_ref", "implemented", "export_location", "description", "properties"] v
  let name ← r.field "name" valueString? ""
  let base ← r.field "base" optional? none
  let isRef ← r.field "is_ref" bool? false
  let isImplemented ← r.field "implemented" bool? false
  let location ← r.field "export_location" optional? none
  let description ← r.field "description" valueString? ""
  let properties ← r.field "properties" (ofValue.list property?) []
  return { name, base, isRef, isImplemented, location, description, properties }

def catalog? (v : Yaml.Value) : Option Catalog := do
  let r ← ofValue.record ["agents", "enums", "structs", "instances", "behaviors"] v
  let agents ← r.field "agents" (ofValue.list agent?) []
  let enums ← r.field "enums" (ofValue.list enum?) []
  let structs ← r.field "structs" (ofValue.list struct?) []
  let instances ← r.field "instances" (ofValue.list valueString?) []
  let behaviors ← r.field "behaviors" (ofValue.list valueString?) []
  return { agents, enums, structs, instances, behaviors }

end GoTrees.Load
