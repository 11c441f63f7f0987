import GoTrees.NamePath
import GoTrees.Text.Blank

/-!
# Execution status

What a node of a running tree answers. `invalid` also stands for "no status given".
-/

namespace GoTrees

inductive Status where
  | invalid
  | success
  | failure
  | running
  deriving DecidableEq, Repr

namespace Status

def all : List Status := [invalid, success, failure, running]

/-- The name of a status in documents. -/
def name : Status → String
  | invalid => "Invalid"
  | success => "Success"
  | failure => "Failure"
  | running => "Running"

/-- The status of a name in documents. -/
def ofName? (s : String) : Option Status := all.find? (·.name == s)

/-- The status that a member of the native status enum stands for, qualified or not; any other text
is `invalid`. -/
def ofMember (member : String) : Status :=
  match Text.trim (basicName member) with
  | "BT_SUCCESS" => success
  | "BT_FAILURE" => failure
  | "BT_RUNNING" => running
  | _ => invalid

end Status

end GoTrees
