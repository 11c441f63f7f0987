import GoTrees.Catalog.Lookup
import GoTrees.Spelling

/-!
# What a native spelling denotes

A spelling is resolved against the built-in names first and then against the enums, structs and agents
of the catalog. A spelling that is not of the grammar denotes an unknown type.
-/

namespace GoTrees.Catalog

def stringNames : List String :=
  ["string", "wstring", "std::string", "std::wstring", "behaviac::string", "behaviac::wstring",
   "szstring", "cszstring"]

def integerNames : List String :=
  ["int", "short", "long", "long long", "long int", "short int", "byte", "sbyte", "ubyte",
   "int8", "int16", "int32", "int64", "uint8", "uint16", "uint32", "uint64", "uint", "ushort",
   "ulong", "llong", "ullong", "size_t", "int8_t", "int16_t", "int32_t", "int64_t", "uint8_t",
   "uint16_t", "uint32_t", "uint64_t"]

/-- The type that a built-in name denotes, given the sign and the number of pointer marks. -/
def builtin? (name : String) (sign : Option Sign) (pointer : Nat) : Option ValueType :=
  match name with
  | "" => if sign.isSome then some .integer else none
  | "void" => some .void
  | "bool" => some .bool
  | "char" => some (if 0 < pointer then .string else if sign.isSome then .integer else .char)
  | "wchar_t" => some (if 0 < pointer then .string else .char)
  | "float" => some .float
  | "double" => some .double
  | "EBTStatus" | "behaviac::EBTStatus" => some .status
  | "Agent" | "behaviac::Agent" => some (.agent name)
  | _ =>
    if stringNames.contains name then some .string
    else if integerNames.contains name then some .integer
    else none

/-- The type that a name of the catalog denotes. -/
def classifyName (c : Catalog) (name : String) (pointer : Nat) : ValueType :=
  if (c.enum? name).isSome then .enum name
  else match c.struct? name with
    | some s => .struct name (s.isRef || 0 < pointer)
    | none => if (c.agent? name).isSome then .agent name else .unknown name

/-- The type of a spelling that is no vector. -/
def classifyPlain (c : Catalog) (name : String) (sign : Option Sign) (pointer : Nat) : ValueType :=
  (builtin? name sign pointer).getD (c.classifyName name pointer)

/-- The type that a parsed spelling denotes. -/
def classifySpelling (c : Catalog) : Spelling → ValueType
  | ⟨_, sign, name, [], pointer, _⟩ => c.classifyPlain name sign pointer
  | ⟨_, sign, name, element :: _, pointer, _⟩ =>
    if basicName name == "vector" then .array (c.classifySpelling element)
    else c.classifyPlain name sign pointer

/-- The type that a native spelling denotes. -/
def classify (c : Catalog) (native : String) : ValueType :=
  match Spelling.parse? native with
  | some (spelling, rest) =>
    if Text.isBlankText rest then c.classifySpelling spelling else .unknown (Text.trim native)
  | none => .unknown (Text.trim native)

end GoTrees.Catalog
