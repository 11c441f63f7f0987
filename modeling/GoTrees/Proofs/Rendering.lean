import GoTrees.Go.File
import GoTrees.Proofs.Lines

/-!
# Files as lines

Writing on a sheet adds lines at its end and leaves the depth as it was. So each statement and each
declaration has lines of its own at a depth, and the contents of a file are the lines of its header and of
its declarations one after the other.
-/

namespace GoTrees.Go

open Text List

variable (s : Sheet)

namespace Sheet

def indented (depth : Nat) (line : String) : String := if line.isEmpty then "" else tabs depth ++ line

/-- The sheet with lines behind its text. -/
def add (s : Sheet) (ls : List String) : Sheet := { s with text := s.text ++ unlines ls }

@[simp] theorem depth_add (ls : List String) : (s.add ls).depth = s.depth := rfl

@[simp] theorem text_add (ls : List String) : (s.add ls).text = s.text ++ unlines ls := rfl

@[simp] theorem add_nil : s.add [] = s := by
  simp [add]

@[simp] theorem add_add (as bs : List String) : (s.add as).add bs = s.add (as ++ bs) := by
  simp [add, unlines_append, String.append_assoc]

theorem line_eq_add (line : String) : s.line line = s.add [indented s.depth line] := by
  simp [Sheet.line, add, lineText, indented, unlines]

theorem blank_eq_add : s.blank = s.add [""] := by
  simp [blank, add, unlines]

theorem lines_eq_add : ∀ (ls : List String) (s : Sheet), s.lines ls = s.add (ls.map (indented s.depth))
  | [], s => by simp [lines]
  | l :: ls, s => by
      have rest := lines_eq_add ls (s.line l)
      rw [lines, foldl_cons, ← lines, rest, line_eq_add, depth_add, add_add]
      rfl

/-- The lines of a body stand between the lines around it. -/
theorem block_eq_add {s : Sheet} {body : Sheet → Sheet} {inner : List String}
    (h : ∀ t : Sheet, t.depth = s.depth + 1 → body t = t.add inner) (opening closing : String) :
    s.block opening closing body =
      s.add (indented s.depth opening :: inner ++ [indented s.depth closing]) := by
  have cut (o c : String) : unlines (o :: (inner ++ [c])) = unlines [o] ++ (unlines inner ++ unlines [c]) := by
    rw [← singleton_append, unlines_append, unlines_append]
  rw [block, h _ (by rw [line_eq_add]; rfl), line_eq_add, line_eq_add]
  simp [indent, dedent, add, cut, String.append_assoc]

end Sheet

open Sheet

mutual

def Stmt.lines (depth : Nat) : Stmt → List String
  | .step s => [indented depth s.text]
  | .block body => indented depth "\x7b" :: Stmt.linesAll (depth + 1) body ++ [indented depth "\x7d"]
  | .ifThen condition body =>
    indented depth ("if " ++ condition.text ++ " \x7b") :: Stmt.linesAll (depth + 1) body
      ++ [indented depth "\x7d"]

def Stmt.linesAll (depth : Nat) : List Stmt → List String
  | [] => []
  | s :: rest => s.lines depth ++ Stmt.linesAll depth rest

end

mutual

theorem Stmt.write_eq_add : ∀ (s : Stmt) (sheet : Sheet),
    s.write sheet = sheet.add (s.lines sheet.depth)
  | .step s, sheet => by rw [Stmt.write, Stmt.lines, line_eq_add]
  | .block body, sheet => by
      rw [Stmt.write, Stmt.lines]
      exact block_eq_add (fun t deeper => deeper ▸ Stmt.writeAll_eq_add body t) _ _
  | .ifThen condition body, sheet => by
      rw [Stmt.write, Stmt.lines]
      exact block_eq_add (fun t deeper => deeper ▸ Stmt.writeAll_eq_add body t) _ _

theorem Stmt.writeAll_eq_add : ∀ (ss : List Stmt) (sheet : Sheet),
    Stmt.writeAll ss sheet = sheet.add (Stmt.linesAll sheet.depth ss)
  | [], sheet => by rw [Stmt.writeAll, Stmt.linesAll, add_nil]
  | s :: rest, sheet => by
      rw [Stmt.writeAll, Stmt.linesAll, Stmt.write_eq_add s, Stmt.writeAll_eq_add rest, depth_add, add_add]

end

theorem Stmt.linesAll_map_step (depth : Nat) : ∀ steps : List Step,
    Stmt.linesAll depth (steps.map .step) = steps.map fun s => indented depth s.text
  | [] => rfl
  | s :: rest => by
      rw [map_cons, Stmt.linesAll, Stmt.lines, Stmt.linesAll_map_step depth rest]
      rfl

def Decl.lines (depth : Nat) : Decl → List String
  | .blank => [""]
  | .comment t => [indented depth ("// " ++ t)]
  | .verbatim line => [indented depth line]
  | .defined name underlying => [indented depth ("type " ++ name ++ " " ++ underlying)]
  | .embedding name runtime fields =>
    indented depth (structHeader name)
      :: (runtime :: twoColumns fields).map (indented (depth + 1)) ++ [indented depth "\x7d"]
  | .record name base rows =>
    indented depth (structHeader name)
      :: (base.toList ++ threeColumns rows).map (indented (depth + 1)) ++ [indented depth "\x7d"]
  | .variable name type none => [indented depth ("var " ++ name ++ " " ++ type)]
  | .variable name type (some value) =>
    [indented depth ("var " ++ name ++ " " ++ type ++ " = " ++ value.text)]
  | .constants rows =>
    indented depth "const (" :: (threeColumns rows).map (indented (depth + 1)) ++ [indented depth ")"]
  | .func f => indented depth f.header :: Stmt.linesAll (depth + 1) f.body ++ [indented depth "\x7d"]

/-- Writing a declaration adds its lines. -/
theorem Decl.write_eq_add (d : Decl) (sheet : Sheet) : d.write sheet = sheet.add (d.lines sheet.depth) := by
  cases d with
  | blank => exact blank_eq_add sheet
  | comment t => exact line_eq_add sheet _
  | verbatim line => exact line_eq_add sheet _
  | defined name underlying => exact line_eq_add sheet _
  | embedding name runtime fields =>
    rw [Decl.write, Decl.lines]
    refine block_eq_add (fun t deeper => ?_) _ _
    rw [lines_eq_add, line_eq_add, depth_add, add_add, deeper]
    rfl
  | record name base rows =>
    rw [Decl.write, Decl.lines]
    refine block_eq_add (fun t deeper => ?_) _ _
    rw [lines_eq_add, lines_eq_add, depth_add, add_add, deeper, map_append]
  | «variable» name type value =>
    cases value with
    | none => exact line_eq_add sheet _
    | some e => exact line_eq_add sheet _
  | constants rows =>
    rw [Decl.write, Decl.lines]
    refine block_eq_add (fun t deeper => ?_) _ _
    rw [lines_eq_add, deeper]
  | func f => exact block_eq_add (fun t deeper => deeper ▸ Stmt.writeAll_eq_add f.body t) _ _

theorem Decl.writeAll_eq_add : ∀ (ds : List Decl) (sheet : Sheet),
    Decl.writeAll ds sheet = sheet.add (ds.flatMap (Decl.lines sheet.depth))
  | [], sheet => (add_nil sheet).symm
  | d :: ds, sheet => by
      have rest := Decl.writeAll_eq_add ds (d.write sheet)
      rw [Decl.writeAll, foldl_cons, ← Decl.writeAll, rest, Decl.write_eq_add, depth_add, add_add,
        flatMap_cons]

/-- The lines in front of the declarations of a file. -/
def headerLines (path package : String) (imports : List String) : List String :=
  [rule, warning, .comment ("Export file: " ++ path), rule, .blank].flatMap (Decl.lines 0)
    ++ [indented 0 ("package " ++ package)]
    ++ if imports.isEmpty then []
      else "" :: indented 0 "import (" :: imports.map (indented 1) ++ [indented 0 ")"]

/-- Writing the header adds its lines. -/
theorem writeHeader_eq_add (path package : String) (imports : List String) :
    writeHeader path package imports {} = ({} : Sheet).add (headerLines path package imports) := by
  have group (t : Sheet) : (t.depth = 0) → (t.blank.block "import (" ")" fun s => s.lines imports) =
      t.add ("" :: indented 0 "import (" :: imports.map (indented 1) ++ [indented 0 ")"]) := by
    intro margin
    have inner : ∀ u : Sheet, u.depth = t.blank.depth + 1 → u.lines imports =
        u.add (imports.map (indented 1)) := by
      intro u deeper
      rw [lines_eq_add, deeper, blank_eq_add, depth_add, margin]
    rw [block_eq_add inner, blank_eq_add, depth_add, margin, add_add]
    rfl
  rw [writeHeader, headerLines]
  simp only [Decl.writeAll_eq_add, line_eq_add, add_add, depth_add]
  split
  · rw [List.append_nil]
  · rw [group _ rfl, add_add]

theorem contents_assemble (path package : String) (imports : List String) (ds : List Decl) :
    (assemble path package imports ds).contents =
      unlines (headerLines path package imports ++ ds.flatMap (Decl.lines 0)) := by
  rw [assemble, writeHeader_eq_add, Decl.writeAll_eq_add, add_add]
  exact String.empty_append

end GoTrees.Go
