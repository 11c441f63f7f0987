/-!
# Go code as data

The part of Go that is generated: expressions, statements and top-level declarations. Types are kept
as their Go spelling. A `Step` is a statement on one line; a `Stmt` is a step or a block of statements.
Text appears only when code is rendered.
-/

namespace GoTrees.Go

inductive Expr where
  /-- A variable in scope. -/
  | name (x : String)
  /-- A number, a truth value, `nil`, or a literal that is passed on as it was given. -/
  | literal (text : String)
  | string (s : String)
  /-- A member of an imported runtime package. -/
  | member (package item : String)
  /-- Something declared at package level, by its whole path. -/
  | path (text : String)
  | select (e : Expr) (field : String)
  | call (f : Expr) (args : List Expr)
  | index (e i : Expr)
  /-- A type assertion, `e.(T)`. -/
  | asserted (e : Expr) (type : String)
  /-- A conversion, `T(e)`. -/
  | converted (type : String) (e : Expr)
  /-- The address of a variable. -/
  | address (x : String)
  | binary (l : Expr) (operator : String) (r : Expr)
  | not (e : Expr)
  /-- A slice literal, `[]T{a, b}`; the type is that of the slice. -/
  | slice (type : String) (items : List Expr)
  /-- An empty composite literal. -/
  | empty (type : String)
  /-- A new zero value behind a pointer. -/
  | new (type : String)
  deriving Repr

/-- The value of pointers, slices and interfaces that hold nothing. -/
def Expr.nil : Expr := .literal "nil"

def Expr.bool (b : Bool) : Expr := .literal (if b then "true" else "false")

def Expr.int (n : Int) : Expr := .literal (toString n)

/-- A statement on one line. -/
inductive Step where
  /-- `x := e`. -/
  | define (x : String) (e : Expr)
  /-- `target = e`. -/
  | assign (target e : Expr)
  | eval (e : Expr)
  | ret (e : Expr)
  | comment (text : String)
  /-- A line as it was given. -/
  | verbatim (line : String)
  deriving Repr

inductive Stmt where
  | step (s : Step)
  /-- A block with a scope of its own. -/
  | block (body : List Stmt)
  | ifThen (condition : Expr) (body : List Stmt)
  deriving Repr

/-- A function or, with a receiver, a method on a pointer. -/
structure Func where
  /-- Name and type of the receiver. -/
  receiver : Option (String × String) := none
  name : String
  /-- Names and types of the parameters. -/
  params : List (String × String) := []
  result : Option String := none
  body : List Stmt
  deriving Repr

/-- A row of a struct or of a group of constants: a name, what it is, and a comment. -/
structure Row where
  name : String
  type : String
  comment : String := ""
  deriving DecidableEq, Repr

/-- A top-level declaration, or what stands between declarations. -/
inductive Decl where
  | blank
  | comment (text : String)
  | verbatim (line : String)
  /-- A named type over another. -/
  | defined (name underlying : String)
  /-- A struct that embeds a runtime type and holds captured constants. -/
  | embedding (name runtime : String) (fields : List Row)
  /-- A struct with aligned and commented fields, after the struct it embeds, if any. -/
  | record (name : String) (base : Option String) (rows : List Row)
  | variable (name type : String) (value : Option Expr)
  | constants (rows : List Row)
  | func (f : Func)
  deriving Repr

end GoTrees.Go
