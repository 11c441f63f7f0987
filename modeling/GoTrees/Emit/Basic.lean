import GoTrees.Go.File

/-!
# Code with what it needs

Code is emitted together with what has to stand elsewhere for it: the imports of the file, and the
constants captured as fields of the generated class with the steps that set them up. Needs only ever
grow, so emitting is a value beside a list of needs, and one emission after another appends them.
-/

namespace GoTrees

open Go

/-- What emitted code needs elsewhere in its file and its class. -/
structure Needs where
  imports : List Import := []
  /-- Captured constants as fields of the class. -/
  fields : List Row := []
  /-- Steps of the constructor that set the fields. -/
  setup : List Step := []
  deriving Repr

namespace Needs

/-- The needs of one piece of code and then of another. -/
def append (a b : Needs) : Needs where
  imports := a.imports ++ b.imports
  fields := a.fields ++ b.fields
  setup := a.setup ++ b.setup

instance : Append Needs := ⟨append⟩

end Needs

/-- A piece of code, or what it is made of, with its needs. -/
structure Emit (α : Type) where
  value : α
  needs : Needs := {}

namespace Emit

instance : Monad Emit where
  pure a := { value := a }
  bind x f :=
    let y := f x.value
    { value := y.value, needs := x.needs ++ y.needs }

def require (i : Import) : Emit Unit := { value := (), needs := { imports := [i] } }

def usePackage (package : String) : Emit Unit := require (.runtime package)

/-- Needs a field of the class and the steps that set it. -/
def capture (field : Row) (setup : List Step) : Emit Unit :=
  { value := (), needs := { fields := [field], setup } }

end Emit

end GoTrees
