import GoTrees.Text.Search

/-!
# Directory trees

The files and directories at and around an output root, by the names on the way to them. The directories
above the root exist, and `..` leads to them. Whatever exists stands in a directory. A file is a text, or
bytes that are no text. A name has at most 255 bytes and no null character.

What is asked for at a path may be refused there, for want of permission or of space.
-/

namespace GoTrees

/-- The names on the way from the root to a file or directory; `..` stands only at the front. -/
abbrev Path := List String

/-- What a path leads to. -/
inductive Entry where
  | text (contents : String)
  /-- A file that is no UTF-8. -/
  | binary (bytes : List UInt8)
  | directory
  deriving DecidableEq, Repr

/-- A file with these bytes. -/
def Entry.ofBytes (bytes : ByteArray) : Entry :=
  match String.fromUTF8? bytes with
  | some contents => .text contents
  | none => .binary bytes.toList

/-- What can be asked for at a path. -/
inductive Request where
  /-- Read the file. -/
  | read
  /-- Make a directory. -/
  | makeDirectory
  /-- Create a file in the directory. -/
  | create
  /-- Write the contents of the file. -/
  | fill
  /-- Move a file there. -/
  | move
  deriving DecidableEq, Repr

/-- What stands at a path, given what exists besides the root and the directories above it. -/
def entryIn? (entries : List (Path × Entry)) (path : Path) : Option Entry :=
  if path.all (· == "..") then some .directory
  else (entries.find? fun e => e.1 == path).map Prod.snd

theorem entryIn?_put_of_ne {path q : Path} (h : q ≠ path) (entry : Entry) (entries : List (Path × Entry)) :
    entryIn? ((path, entry) :: entries.filter fun e => e.1 != path) q = entryIn? entries q := by
  have other : (path == q) = false := by simpa using h.symm
  have same : (fun e : Path × Entry => decide ((e.1 != path) = true ∧ (e.1 == q) = true)) = fun e =>
      e.1 == q := by
    funext e
    by_cases he : e.1 = q
    · simp [he, h]
    · simp [he]
  simp only [entryIn?, List.find?_cons, other, List.find?_filter, same]

/-- Each entry stands in a directory. -/
def Closed (entries : List (Path × Entry)) : Prop :=
  ∀ path entry, entryIn? entries path = some entry → entryIn? entries path.dropLast = some .directory

theorem closed_nil : Closed [] := by
  intro path entry found
  cases top : path.all (· == "..") with
  | false => simp [entryIn?, top] at found
  | true =>
    have above : path.dropLast.all (· == "..") = true :=
      List.all_eq_true.mpr fun name hname => List.all_eq_true.mp top name (List.dropLast_subset path hname)
    rw [entryIn?, if_pos above]

theorem Closed.put {entries : List (Path × Entry)} {path : Path} (closed : Closed entries)
    (parent : entryIn? entries path.dropLast = some .directory)
    (leaf : entryIn? entries path ≠ some .directory) (entry : Entry) :
    Closed ((path, entry) :: entries.filter fun e => e.1 != path) := by
  intro q e found
  by_cases hq : q = path
  · have own : path.dropLast ≠ path := fun same => leaf (same ▸ parent)
    rw [hq, entryIn?_put_of_ne own, parent]
  · rw [entryIn?_put_of_ne hq] at found
    have dir := closed q e found
    have other : q.dropLast ≠ path := fun same => leaf (same ▸ dir)
    rw [entryIn?_put_of_ne other, dir]

/-- The files and directories that exist besides the root and those above it. -/
structure FileSystem where
  entries : List (Path × Entry) := []
  /-- What is refused where. -/
  refused : List (Request × Path) := []
  closed : Closed entries := by exact closed_nil
  deriving Repr

namespace FileSystem

/-- What stands at a path. The root and what is above it are always directories. -/
def entry? (fs : FileSystem) (path : Path) : Option Entry := entryIn? fs.entries path

/-- Is what is asked for at a path refused? -/
def refuses (fs : FileSystem) (request : Request) (path : Path) : Bool := fs.refused.contains (request, path)

/-- Puts an entry in a directory, in a gap or in place of a file. -/
def put (fs : FileSystem) (path : Path) (entry : Entry) : FileSystem :=
  if h : fs.entry? path.dropLast = some .directory ∧ fs.entry? path ≠ some .directory then
    { fs with
      entries := (path, entry) :: fs.entries.filter fun e => e.1 != path
      closed := fs.closed.put h.1 h.2 entry }
  else fs

/-- The files and directories below the root. -/
def inside (fs : FileSystem) : List (Path × Entry) := fs.entries.filter fun e => e.1.head? != some ".."

/-- One step along a path; `.` stays and `..` goes back, or up from the root. -/
def enter (path : Path) (name : String) : Path :=
  match name with
  | "." => path
  | ".." => if path.all (· == "..") then path ++ [name] else path.dropLast
  | _ => path ++ [name]

/-- Can a name not be looked up at all? -/
def isTooLong (name : String) : Bool := 255 < name.utf8ByteSize

/-- Where a walk ends. -/
inductive Walk where
  | arrived (path : Path)
  /-- A directory on the way does not exist. -/
  | missing
  /-- A file stands where a directory should be, or a name cannot be looked up. -/
  | blocked
  deriving DecidableEq, Repr

/-- Walks along names; all but the last have to be directories. -/
def walk (fs : FileSystem) (path : Path) : List String → Walk
  | [] => .arrived path
  | name :: rest =>
    match fs.entry? path with
    | some .directory => if isTooLong name then .blocked else walk fs (enter path name) rest
    | some _ => .blocked
    | none => .missing

/-- What a file holds, as far as it can be read. -/
inductive Reading where
  | absent
  | text (contents : String)
  | unreadable
  deriving DecidableEq, Repr

/-- Reads what stands at a path. -/
def readAt (fs : FileSystem) (path : Path) : Reading :=
  match fs.entry? path with
  | none => .absent
  | some (.text contents) => if fs.refuses .read path then .unreadable else .text contents
  | some _ => .unreadable

def read (fs : FileSystem) (names : List String) : Reading :=
  if names.any fun name => name.toList.contains '\x00' then .unreadable
  else match fs.walk [] names with
    | .missing => .absent
    | .blocked => .unreadable
    | .arrived path => fs.readAt path

/-- Makes the directories along names that do not exist, as far as that is possible, and gives the last
one if all exist in the end. -/
def makeDirs (fs : FileSystem) (path : Path) : List String → FileSystem × Option Path
  | [] => (fs, some path)
  | name :: rest =>
    let next := enter path name
    match isTooLong name, fs.entry? next with
    | false, some .directory => makeDirs fs next rest
    | false, none =>
      if fs.refuses .makeDirectory next then (fs, none) else makeDirs (fs.put next .directory) next rest
    | _, _ => (fs, none)

/-- The names without those at the end that stay where they are. -/
def trimmed (names : List String) : List String := (names.reverse.dropWhile (· == ".")).reverse

/-- Writes a file next to its place and moves it there, making the directories on the way. Gives what could
not be done, if anything; then the directories stay, and of the file nothing is left. -/
def write (fs : FileSystem) (names : List String) (entry : Entry) : FileSystem × Option Request :=
  match (trimmed names).getLast? with
  | none => (fs, some .move)
  | some name =>
    let (fs, directory?) := fs.makeDirs [] (trimmed names).dropLast
    match directory? with
    | none => (fs, some .makeDirectory)
    | some directory =>
      let path := enter directory name
      if fs.refuses .create directory then (fs, some .create)
      else if fs.refuses .fill path then (fs, some .fill)
      else if isTooLong name || names.getLast? == some "." || fs.entry? path == some .directory ||
          fs.refuses .move path then (fs, some .move)
      else (fs.put path entry, none)

end FileSystem

end GoTrees
