import GoTrees.Go.Columns
import GoTrees.Go.Quote
import GoTrees.Go.Sheet
import GoTrees.Text.Search

/-!
# The text of Go code

The only place where code becomes text. A step is one line; blocks and bodies are one level deeper
than what surrounds them.
-/

namespace GoTrees.Go

mutual

def Expr.text : Expr → String
  | .name x => x
  | .literal t => t
  | .string s => quote s
  | .member package item => package ++ "." ++ item
  | .path t => t
  | .select e field => e.text ++ "." ++ field
  | .call f args => f.text ++ "(" ++ Text.join ", " (Expr.texts args) ++ ")"
  | .index e i => e.text ++ "[" ++ i.text ++ "]"
  | .asserted e type => e.text ++ ".(" ++ type ++ ")"
  | .converted type e => type ++ "(" ++ e.text ++ ")"
  | .address x => "&" ++ x
  | .binary l operator r => l.text ++ " " ++ operator ++ " " ++ r.text
  | .not e => "!" ++ e.text
  | .slice type items => type ++ "\x7b" ++ Text.join ", " (Expr.texts items) ++ "\x7d"
  | .empty type => type ++ "\x7b\x7d"
  | .new type => "new(" ++ type ++ ")"

def Expr.texts : List Expr → List String
  | [] => []
  | e :: es => e.text :: Expr.texts es

end

def Step.text : Step → String
  | .define x e => x ++ " := " ++ e.text
  | .assign target e => target.text ++ " = " ++ e.text
  | .eval e => e.text
  | .ret e => "return " ++ e.text
  | .comment t => "// " ++ t
  | .verbatim line => line

mutual

def Stmt.write : Stmt → Sheet → Sheet
  | .step s, sheet => sheet.line s.text
  | .block body, sheet => sheet.block "\x7b" "\x7d" (Stmt.writeAll body)
  | .ifThen condition body, sheet =>
    sheet.block ("if " ++ condition.text ++ " \x7b") "\x7d" (Stmt.writeAll body)

def Stmt.writeAll : List Stmt → Sheet → Sheet
  | [], sheet => sheet
  | s :: rest, sheet => Stmt.writeAll rest (s.write sheet)

end

/-- The line that opens a function. -/
def Func.header (f : Func) : String :=
  let receiver := match f.receiver with
    | some (name, type) => "(" ++ name ++ " *" ++ type ++ ") "
    | none => ""
  let params := f.params.map fun (name, type) => name ++ " " ++ type
  let result := match f.result with
    | some type => " " ++ type
    | none => ""
  "func " ++ receiver ++ f.name ++ "(" ++ Text.join ", " params ++ ")" ++ result ++ " \x7b"

/-- The line that opens a struct. -/
def structHeader (name : String) : String := "type " ++ name ++ " struct \x7b"

def Decl.write (d : Decl) (sheet : Sheet) : Sheet :=
  match d with
  | .blank => sheet.blank
  | .comment t => sheet.line ("// " ++ t)
  | .verbatim line => sheet.line line
  | .defined name underlying => sheet.line ("type " ++ name ++ " " ++ underlying)
  | .embedding name runtime fields =>
    sheet.block (structHeader name) "\x7d" fun s => (s.line runtime).lines (twoColumns fields)
  | .record name base rows =>
    sheet.block (structHeader name) "\x7d" fun s => (s.lines base.toList).lines (threeColumns rows)
  | .variable name type none => sheet.line ("var " ++ name ++ " " ++ type)
  | .variable name type (some value) =>
    sheet.line ("var " ++ name ++ " " ++ type ++ " = " ++ value.text)
  | .constants rows => sheet.block "const (" ")" fun s => s.lines (threeColumns rows)
  | .func f => sheet.block f.header "\x7d" (Stmt.writeAll f.body)

def Decl.writeAll (ds : List Decl) (sheet : Sheet) : Sheet := ds.foldl (fun s d => d.write s) sheet

def Decl.textOf (ds : List Decl) : String := (Decl.writeAll ds {}).text

/-- The text of statements at the margin. -/
def Stmt.textOf (ss : List Stmt) : String := (Stmt.writeAll ss {}).text

end GoTrees.Go
