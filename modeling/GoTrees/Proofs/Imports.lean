import GoTrees.Proofs.Assembly
import GoTrees.Proofs.Recipes

/-!
# No missing import

The code of behaviors needs the import of every package that stands in front of a dot in it. The classes of a
behavior are those of the items that are visited in it, and the method that builds its tree follows a plan, in
which the items are created and wired. Then the lines of the header are added, which name packages only inside
strings.
-/

namespace GoTrees

open Go Text List

/-! ### Items -/

namespace Generation

variable {u : Usage} {pkg : String} {x : Context} {i : Item}

theorem covered_declareItem (hx : x.Beside u.pkg) (hi : i.Beside u.pkg) {className : String}
    (hc : AllChars IsFlush className) : (declareItem { toContext := x } (i, className)).Covered u
      (Decl.AllAllowed u.Permits) := by
  rw [declareItem_builtin]
  split
  · exact covered_class hx.toWatched hc hi.runtime (Item.covered_fixedSetup hx) (Item.covered_methods hx hi hc)
  · exact .pure (by rintro _ ⟨⟩)

theorem covered_construct {runtime : String × String} (hr : RuntimeWritten runtime) {className : Option String}
    (hc : ∀ c ∈ className, AllChars IsFlush c) : (construct runtime className).Covered u
      fun e => ∃ f, e = .call f [] ∧ Raw u.Permits e.text := by
  cases className with
  | some c =>
    have new : AllChars IsFlush ("New" ++ c) := AllChars.append (by decide) (hc c rfl)
    exact .pure ⟨_, rfl, raw_call (raw_flush new) (by rintro _ ⟨⟩)⟩
  | none =>
    have new : IsWord ("New" ++ runtime.2) := AllChars.append (by decide) hr.type
    exact .bind (.usePackage hr.package) fun _ imported =>
      .pure ⟨_, rfl, raw_call (raw_member hr.package (permits_runtime imported hr.other) new) (by rintro _ ⟨⟩)⟩

/-- An item is created with imported packages only. -/
theorem covered_createItem (w : Watched u.pkg) (hi : i.Beside u.pkg) {className : Option String}
    (hc : ∀ c ∈ className, AllChars IsFlush c) :
    (createItem { toContext := x } i className).Covered u
      (Stmt.AllAllowed u.Permits) := by
  cases i with
  | node n =>
    have name : AllChars IsFlush n.name := AllChars.append (by decide) (flush_toString n.id)
    have number : Raw u.Permits (Expr.int n.id).text := raw_flush (flush_toString n.id)
    rw [createItem, Registry.builtin_create]
    refine .bind (covered_construct hi.runtime hc) fun object ho =>
      .bind (.usePackage (by decide)) fun _ _ => ?_
    obtain ⟨-, -, raw⟩ := ho
    refine .pure (allAllowed_step (allowed_define_call name (raw_call (raw_bt w (by decide)) ?_)))
    exact forall_mem_cons.mpr ⟨number, forall_mem_singleton.mpr raw⟩
  | attachment a =>
    have name : AllChars IsFlush a.name := AllChars.append (by decide) (flush_toString a.id)
    rw [createItem, Registry.builtin_createAttachment]
    refine .bind (covered_construct hi.runtime hc) fun object ho => ?_
    obtain ⟨f, rfl, raw⟩ := ho
    exact .pure (allAllowed_step (allowed_define_call name raw))

end Generation

/-! ### Plans -/

namespace Generation

mutual

/-- The statements that a piece has of its own, at every depth. -/
def Piece.codes : Piece → List Stmt
  | .code s => [s]
  | .create .. => []
  | .block body => Piece.allCodes body

/-- The statements that pieces have of their own. -/
def Piece.allCodes : List Piece → List Stmt
  | [] => []
  | p :: ps => p.codes ++ Piece.allCodes ps

end

theorem Piece.allCodes_append : ∀ ps qs : List Piece,
    Piece.allCodes (ps ++ qs) = Piece.allCodes ps ++ Piece.allCodes qs
  | [], _ => rfl
  | p :: ps, qs => by simp [Piece.allCodes, Piece.allCodes_append ps qs]

theorem Piece.allCodes_code (ss : List Stmt) : Piece.allCodes (ss.map .code) = ss := by
  induction ss with
  | nil => rfl
  | cons s ss ih => simp [Piece.allCodes, Piece.codes, ih]

section

variable {u : Usage} {pkg : String} {g : Generation}

mutual

theorem covered_emit : ∀ {p : Piece}, (∀ s ∈ p.codes, Stmt.AllAllowed u.Permits [s]) →
    (∀ c ∈ p.creations, (g.createItem c.1 c.2).Covered u (Stmt.AllAllowed u.Permits)) →
      (p.emit g).Covered u (Stmt.AllAllowed u.Permits)
  | .code s, own, _ => .pure (own s mem_cons_self)
  | .create i className, _, created => created (i, className) mem_cons_self
  | .block _, own, created => .bind (covered_emitAll own created) fun _ hb => .pure (allAllowed_block hb)

theorem covered_emitAll : ∀ {ps : List Piece},
    (∀ s ∈ Piece.allCodes ps, Stmt.AllAllowed u.Permits [s]) →
    (∀ c ∈ Piece.allCreations ps,
      (g.createItem c.1 c.2).Covered u (Stmt.AllAllowed u.Permits)) →
      (Piece.emitAll g ps).Covered u (Stmt.AllAllowed u.Permits)
  | [], _, _ => .pure allAllowed_nil
  | p :: ps, own, created => by
      rw [Piece.allCodes, forall_mem_append] at own
      rw [Piece.allCreations, forall_mem_append] at created
      exact .bind (covered_emit own.1 created.1) fun _ first =>
        .bind (covered_emitAll own.2 created.2) fun _ rest => .pure (first.append rest)

end

end

/-! ### Wiring -/

section Wiring

variable {u : Usage} {pkg tree parent : String} {g : Generation}

/-- Something may be selected from a variable that ends with an id, which may be negative. -/
theorem selectable_numbered (w : Watched u.pkg) {front : String} (hf : IsWord front) (id : Int)
    (holder : IsHolder (front ++ toString id)) : Selectable u.Permits (front ++ toString id) := by
  have digits (k : Nat) : IsWord (toString k) :=
    fun _ hc => isIdentifierChar_of_isDigit (isDigit_of_mem_toString hc)
  cases id with
  | ofNat k =>
    have word : IsWord (front ++ toString (Int.ofNat k)) := hf.append (digits k)
    exact word.selectable (w.permits_holder holder)
  | negSucc k =>
    have number : Selectable u.Permits (toString (k + 1)) :=
      (digits (k + 1)).selectable (w.permits_digits fun _ hc => isDigit_of_mem_toString hc)
    have whole := (hf.clean (A := u.Permits)).stem (g := "-")
      (gaps_of_plain (by decide) (by decide)) number
    rw [String.append_assoc] at whole
    exact whole

theorem selectable_node (w : Watched u.pkg) (n : Node) : Selectable u.Permits n.name :=
  selectable_numbered w (by decide) n.id (.node n.id)

theorem selectable_fixed (w : Watched u.pkg) {name : String} (h : name ∈ ["agent", "n", "tree", "fsm"]) :
    Selectable u.Permits name := by
  have word : IsWord name := by
    fin_cases h <;> decide
  exact word.selectable (w.permits_holder (.fixed h))

theorem allAllowed_callOn (w : Watched u.pkg) (hp : Selectable u.Permits parent) {method : String}
    (hm : IsWord method) {args : List Expr} (ha : ∀ e ∈ args, Clean u.Permits e.text) :
    Stmt.AllAllowed u.Permits [callOn parent method args] := by
  have object : Selectable u.Permits (Expr.name parent).text := hp
  exact allAllowed_step (allowed_eval (selectable_call w.base (selectable_select object hm).clean ha).clean)

theorem allowed_attachPlan (w : Watched u.pkg) (hp : Selectable u.Permits parent) (a : Attachment) :
    ∀ s ∈ (g.attachPlan tree parent a).codes, Stmt.AllAllowed u.Permits [s] := by
  have name : Clean u.Permits (Expr.name a.name).text :=
    clean_bare (AllChars.append (by decide) (bare_toString a.id))
  rw [attachPlan, Piece.codes, Piece.allCodes, Piece.codes, List.nil_append, Piece.allCodes_code,
    forall_mem_append, forall_mem_singleton]
  constructor
  · refine allAllowed_callOn w hp (by decide) ?_
    rw [forall_mem_cons, forall_mem_cons, forall_mem_cons, forall_mem_singleton]
    exact ⟨name, clean_bool _, clean_bool _, clean_bool _⟩
  · split
    · exact forall_mem_singleton.mpr (allAllowed_callOn w hp (by decide)
        (forall_mem_singleton.mpr (clean_bool true)))
    · rintro _ ⟨⟩

theorem allAllowed_comment {text : String} (unbroken : '\n' ∉ text.toList) :
    Stmt.AllAllowed u.Permits [.step (.comment text)] :=
  allAllowed_step (allowed_comment unbroken)

theorem allowed_attachmentsPlan (w : Watched u.pkg) (hp : Selectable u.Permits parent)
    (as : List Attachment) : ∀ s ∈ Piece.allCodes (g.attachmentsPlan tree parent as),
      Stmt.AllAllowed u.Permits [s] := by
  have blocks : ∀ as : List Attachment, ∀ s ∈ Piece.allCodes (as.map (g.attachPlan tree parent)),
      Stmt.AllAllowed u.Permits [s] := by
    intro as
    induction as with
    | nil => rintro _ ⟨⟩
    | cons a as ih => exact forall_mem_append.mpr ⟨allowed_attachPlan w hp a, ih⟩
  rw [attachmentsPlan]
  split
  · rintro _ ⟨⟩
  · exact forall_mem_append.mpr ⟨forall_mem_singleton.mpr (allAllowed_comment (by decide)), blocks _⟩

theorem allowed_machinePlan (w : Watched u.pkg) (hp : Selectable u.Permits parent)
    (initial : Option Int) {states : List Piece}
    (hs : ∀ s ∈ Piece.allCodes states, Stmt.AllAllowed u.Permits [s]) :
    ∀ s ∈ (machinePlan parent initial states).codes, Stmt.AllAllowed u.Permits [s] := by
  have fsm : Clean u.Permits (Expr.name "fsm").text := clean_bare (by decide)
  have new : (Step.define "fsm" (.call (.member "bt" "NewFSM") [.int (-1), .int (initial.getD (-1))])).Allowed
      u.Permits :=
    allowed_define fsm (selectable_call w.base (selectable_runtime w (by decide)).clean
      (forall_mem_cons.mpr ⟨clean_int _, forall_mem_singleton.mpr (clean_int _)⟩)).clean
  rw [machinePlan, Piece.codes, Piece.allCodes_append, Piece.allCodes_append, forall_mem_append,
    forall_mem_append]
  refine ⟨⟨forall_mem_singleton.mpr (allAllowed_step new), hs⟩, forall_mem_singleton.mpr ?_⟩
  exact allAllowed_callOn w hp (by decide) (forall_mem_singleton.mpr fsm)

theorem allowed_nodePlan (w : Watched u.pkg) (hp : Selectable u.Permits parent) (n : Node) :
    ∀ s ∈ Piece.allCodes (g.nodePlan tree parent n), Stmt.AllAllowed u.Permits [s] := by
  have name : Clean u.Permits (Expr.name n.name).text :=
    clean_bare (AllChars.append (by decide) (bare_toString n.id))
  have method : IsWord (if n.asChild then "AddChild" else "SetCustomCondition") := by split <;> decide
  rw [nodePlan, Piece.allCodes, Piece.codes, List.nil_append, Piece.allCodes_append, forall_mem_append]
  refine ⟨allowed_attachmentsPlan w (selectable_node w n) n.attachments, forall_mem_singleton.mpr ?_⟩
  exact allAllowed_callOn w hp method (forall_mem_singleton.mpr name)

mutual

/-- Nodes are wired to each other through the variables that hold them. -/
theorem allowed_subtreePlan (w : Watched u.pkg) : ∀ (t : Subtree) {parent : String},
    Selectable u.Permits parent → ∀ s ∈ Piece.allCodes (g.subtreePlan tree t parent),
      Stmt.AllAllowed u.Permits [s]
  | .mk n children, parent, hp => by
      rw [subtreePlan]
      split
      · rw [Piece.allCodes, Piece.codes, Piece.allCodes_append, Piece.allCodes, List.append_nil,
          forall_mem_append]
        refine ⟨allowed_nodePlan w hp n, ?_⟩
        split
        · rintro _ ⟨⟩
        · split
          · rw [Piece.allCodes, Piece.allCodes, List.append_nil]
            exact allowed_machinePlan w (selectable_node w n) n.initialState
              (allowed_subtreesPlan w children (selectable_fixed w (by decide)))
          · exact allowed_subtreesPlan w children (selectable_node w n)
      · rintro _ ⟨⟩

theorem allowed_subtreesPlan (w : Watched u.pkg) : ∀ (ts : List Subtree) {parent : String},
    Selectable u.Permits parent → ∀ s ∈ Piece.allCodes (g.subtreesPlan tree ts parent),
      Stmt.AllAllowed u.Permits [s]
  | [], _, _ => by rintro _ ⟨⟩
  | t :: ts, parent, hp => by
      rw [subtreesPlan, Piece.allCodes_append]
      exact forall_mem_append.mpr ⟨allowed_subtreePlan w t hp, allowed_subtreesPlan w ts hp⟩

end

/-- Besides its creations, the plan of a tree uses imported packages only. -/
theorem allowed_plan (w : Watched u.pkg) (b : Behavior) :
    ∀ s ∈ Piece.allCodes (g.plan b), Stmt.AllAllowed u.Permits [s] := by
  have held : Selectable u.Permits "tree" := selectable_fixed w (by decide)
  have tree : Clean u.Permits (Expr.name "tree").text := held.clean
  have new : (Step.define "tree" (.call (.member "bt" "NewTree") [.string b.name])).Allowed
      u.Permits := by
    have name : ∀ e ∈ [Expr.string b.name], Clean u.Permits e.text :=
      forall_mem_singleton.mpr (clean_quote b.name)
    exact allowed_define tree (selectable_call w.base (selectable_runtime w (by decide)).clean name).clean
  have locals : ∀ s ∈ g.addLocals b, Stmt.AllAllowed u.Permits [s] := by
    rw [addLocals]
    split
    · rintro _ ⟨⟩
    · refine forall_mem_cons.mpr ⟨allAllowed_comment (by decide), forall_mem_map.mpr fun l _ => ?_⟩
      refine allAllowed_callOn w held (by decide) ?_
      rw [forall_mem_cons, forall_mem_cons, forall_mem_cons, forall_mem_singleton]
      exact ⟨clean_quote _, clean_quote _, clean_quote _, clean_quote _⟩
  have children : ∀ s ∈ Piece.allCodes
      (if b.fsm then [machinePlan "tree" b.initialState (g.subtreesPlan b.className b.children "fsm")]
      else g.subtreesPlan b.className b.children "tree"), Stmt.AllAllowed u.Permits [s] := by
    split
    · rw [Piece.allCodes, Piece.allCodes, List.append_nil]
      exact allowed_machinePlan w held b.initialState
        (allowed_subtreesPlan w b.children (selectable_fixed w (by decide)))
    · exact allowed_subtreesPlan w b.children held
  have comment : Stmt.AllAllowed u.Permits [.step (.comment "children")] :=
    allAllowed_comment (by decide)
  simp only [plan, Piece.allCodes_append, Piece.allCodes_code, Piece.allCodes, Piece.codes, List.append_nil,
    forall_mem_append, forall_mem_cons, not_mem_nil, false_imp_iff, implies_true, and_true]
  exact ⟨⟨⟨⟨allAllowed_step new, locals⟩, allowed_attachmentsPlan w held b.attachments⟩, comment, children⟩,
    allAllowed_step (allowed_ret tree)⟩

end Wiring

end Generation

/-! ### Behaviors -/

/-- What a behavior says is beside the package, in the items that are visited in it, and its texts are
lines. -/
structure Behavior.Beside (pkg : String) (b : Behavior) : Prop where
  name : AllChars IsFlush b.name
  path : '\n' ∉ b.path.toList
  comment : '\n' ∉ b.comment.toList
  agentType : PathBeside pkg b.agentType
  items : ∀ i ∈ b.visited, i.Beside pkg

section Behaviors

variable {u : Usage} {pkg : String} {x : Context} {b : Behavior}

theorem mem_of_mem_dropExtension {c : Char} {path : List Char} (h : c ∈ dropExtension path) : c ∈ path := by
  rw [dropExtension] at h
  split at h
  · next stem cut =>
    have mem : c ∈ '.' :: stem := mem_cons_of_mem _ (mem_reverse.mp h)
    exact mem_reverse.mp (mem_of_mem_drop (cut ▸ mem))
  · exact h

theorem Behavior.sourceName_line (h : '\n' ∉ b.path.toList) : '\n' ∉ b.sourceName.toList := by
  rw [Behavior.sourceName, String.toList_ofList]
  intro feed
  obtain ⟨c, hc, made⟩ := mem_map.mp (mem_of_mem_dropExtension feed)
  split at made
  · cases made
  · exact h (made ▸ hc)

theorem Behavior.className_flush (h : '\n' ∉ b.path.toList) : AllChars IsFlush b.className := by
  rw [Behavior.className]
  refine allChars_ofList.mpr (forall_mem_map.mpr fun c hc => ?_)
  split
  · decide
  · next other =>
    simp only [Bool.or_eq_true, decide_eq_true_eq, not_or] at other
    exact ⟨other.1.2, fun feed => Behavior.sourceName_line h (feed ▸ hc)⟩

theorem covered_declareEach {g : Generation} : ∀ {cs : List (Item × String)},
    (∀ c ∈ cs, (g.declareItem c).Covered u (Decl.AllAllowed u.Permits)) →
      (g.declareEach cs).Covered u (Decl.AllAllowed u.Permits)
  | [], _ => .pure (by rintro _ ⟨⟩)
  | c :: cs, h => by
      rw [forall_mem_cons] at h
      exact .bind h.1 fun _ first => .bind (covered_declareEach h.2) fun _ rest =>
        .pure (forall_mem_append.mpr ⟨first, rest⟩)

theorem flush_class? (hb : b.Beside pkg) {g : Generation} {i : Item} (hi : i.Beside pkg) :
    ∀ c ∈ g.class? b.className i, AllChars IsFlush c := by
  intro c hc
  rw [← (Generation.class?_eq_some.mp hc).2]
  exact flush_className hi (Behavior.className_flush hb.path)

theorem allowed_preamble (hb : b.Beside u.pkg) :
    Decl.AllAllowed u.Permits (Generation.preamble b) := by
  have source : '\n' ∉ ("Source file: " ++ b.sourceName).toList := by
    rw [String.toList_append, mem_append, not_or]
    exact ⟨by decide, Behavior.sourceName_line hb.path⟩
  have comment : Decl.AllAllowed u.Permits
      (if b.comment.isEmpty then [] else [.comment b.comment]) := by
    split
    · rintro _ ⟨⟩
    · exact forall_mem_singleton.mpr (Decl.allowed_comment hb.comment)
  have first : Decl.AllAllowed u.Permits
      [.blank, .comment ("Source file: " ++ b.sourceName), .blank] := by
    rw [Decl.AllAllowed, forall_mem_cons, forall_mem_cons, forall_mem_singleton]
    exact ⟨allowed_blank, Decl.allowed_comment source, allowed_blank⟩
  refine forall_mem_append.mpr ⟨forall_mem_append.mpr ⟨first, comment⟩, ?_⟩
  exact forall_mem_cons.mpr ⟨allowed_record_nil hb.name, forall_mem_singleton.mpr allowed_blank⟩

/-- A behavior uses imported packages only. -/
theorem covered_behavior (hx : x.Beside u.pkg) (hb : b.Beside u.pkg) :
    (Generation.behavior { toContext := x } b).Covered u (Decl.AllAllowed u.Permits) := by
  have visited := hb.items
  rw [Behavior.visited, forall_mem_append] at visited
  have declared (is : List Item) (h : ∀ i ∈ is, i.Beside u.pkg) :
      (Generation.declareEach { toContext := x }
        (Generation.classed { toContext := x } b.className is)).Covered u
        (Decl.AllAllowed u.Permits) := by
    refine covered_declareEach fun c mem => ?_
    obtain ⟨i, hi, made⟩ := mem_filterMap.mp mem
    obtain ⟨className, named, rfl⟩ := Option.map_eq_some_iff.mp made
    exact Generation.covered_declareItem hx (h i hi) (flush_class? hb (h i hi) className named)
  have created : ∀ c ∈ Generation.Piece.allCreations (Generation.plan { toContext := x } b),
      (Generation.createItem { toContext := x } c.1 c.2).Covered u
        (Stmt.AllAllowed u.Permits) := by
    rw [Generation.allCreations_plan]
    refine forall_mem_map.mpr fun i hi => ?_
    exact Generation.covered_createItem hx.toWatched (hb.items i hi) (flush_class? hb (hb.items i hi))
  rw [Generation.behavior_eq, Generation.declareAttachments_eq, Generation.declareSubtrees_eq,
    Generation.treeBody_eq]
  refine .bind (.usePackage (by decide)) fun _ _ => .bind (P := Decl.AllAllowed u.Permits) ?_
    fun classes hc => .bind (Generation.covered_emitAll (Generation.allowed_plan hx.toWatched b) created)
      fun body hbody => .pure ?_
  · exact .bind (declared _ visited.1) fun _ first => .bind (declared _ visited.2) fun _ rest =>
      .pure (forall_mem_append.mpr ⟨first, rest⟩)
  · have result : Raw u.Permits ("" ++ "*" ++ ("bt" ++ "." ++ "Tree")) :=
      (raw_flush (by rintro _ ⟨⟩)).append (by decide) (by decide) (raw_bt hx.toWatched (by decide))
    refine forall_mem_append.mpr ⟨forall_mem_append.mpr ⟨allowed_preamble hb, hc⟩,
      forall_mem_singleton.mpr (Func.Written.allowed ⟨?_, ?_, by rintro _ ⟨⟩, ?_⟩ hbody)⟩
    · rintro _ ⟨⟩
      exact ⟨(by decide : AllChars IsFlush "_o"), hb.name⟩
    · exact (by decide : AllChars IsFlush "NewTree")
    · rintro _ ⟨⟩
      exact result

end Behaviors

/-! ### Headers -/

/-- A character that stands for itself in a string. -/
def IsQuotable (c : Char) : Prop := c ≠ '"' ∧ c ≠ '\\' ∧ c ≠ '\n'

instance : DecidablePred IsQuotable := fun _ => inferInstanceAs (Decidable (_ ∧ _))

/-- No type is renamed, the package of the trees is a word, and import paths can be quoted as they are. -/
structure Config.Written (c : Config) : Prop where
  renames : c.renames = []
  package : IsWord c.treesPackage
  runtime : AllChars IsQuotable c.runtimeModule
  types : AllChars IsQuotable c.typesImport

section Headers

variable {A : List Char → Prop} {s path package : String} {c : Config}

theorem scan_quotable (rest : List Char) : ∀ {cs : List Char}, (∀ c ∈ cs, IsQuotable c) →
    scan .string (cs ++ '"' :: rest) = scan .code rest
  | [], _ => rfl
  | c :: cs, h => by
      rw [forall_mem_cons] at h
      rw [cons_append, scan, if_neg h.1.2.2, if_neg h.1.1, if_neg h.1.2.1, scan_quotable rest h.2]

theorem clean_quotable (h : AllChars IsQuotable s) : Clean A ("\"" ++ s ++ "\"") := by
  refine ⟨[' '], fun rest => ?_, allows_of_no_dot (by decide)⟩
  have chars : ("\"" ++ s ++ "\"").toList ++ rest = '"' :: (s.toList ++ '"' :: rest) := by simp
  rw [chars, scan, if_pos rfl, scan_quotable rest h]
  rfl

/-- The line of an import names packages only inside a string. -/
theorem clean_importText (hc : c.Written) {i : Import} (hi : ∀ p, i = .runtime p → IsWord p) :
    Clean A (i.text c) := by
  cases i with
  | runtime p =>
    have word : AllChars IsQuotable p := (hi p rfl).mono fun d hd => by
      refine ⟨?_, ?_, ?_⟩ <;> rintro rfl <;> exact absurd hd (by decide)
    exact clean_quotable ((hc.runtime.append (by decide)).append word)
  | types =>
    have split : Import.types.text c = typesAlias ++ " " ++ ("\"" ++ c.typesImport ++ "\"") :=
      String.toList_inj.mp (by simp [Import.text])
    have types : Clean A typesAlias := clean_bare (by decide)
    rw [split]
    exact types.append (gaps_of_plain (by decide) (by decide)) (clean_quotable hc.types)

/-- The header has no qualifiers but those of its import lines. -/
theorem lineAllows_header (hpath : '\n' ∉ path.toList) (hp : IsWord package) {lines : List String}
    (hl : ∀ l ∈ lines, Clean A l) : ∀ l ∈ headerLines path package lines, LineAllows A l := by
  have exported : '\n' ∉ ("Export file: " ++ path).toList := by
    rw [String.toList_append, mem_append, not_or]
    exact ⟨by decide, hpath⟩
  have banner : Decl.AllAllowed A [rule, warning, .comment ("Export file: " ++ path), rule, .blank] := by
    rw [Decl.AllAllowed, forall_mem_cons, forall_mem_cons, forall_mem_cons, forall_mem_cons,
      forall_mem_singleton]
    exact ⟨Decl.allowed_comment (by decide), Decl.allowed_comment (by decide), Decl.allowed_comment exported,
      Decl.allowed_comment (by decide), allowed_blank⟩
  have keyword : Clean A "package" := clean_bare (by decide)
  have clause : Clean A ("package" ++ " " ++ package) :=
    keyword.append (gaps_of_plain (by decide) (by decide)) hp.clean
  have opening : Clean A "import (" := clean_bare (by decide)
  have closing : Clean A ")" := clean_bare (by decide)
  rw [headerLines, forall_mem_append, forall_mem_append, forall_mem_singleton]
  refine ⟨⟨?_, clause.lineAllows.indented 0⟩, ?_⟩
  · intro l mem
    obtain ⟨d, hd, line⟩ := mem_flatMap.mp mem
    exact banner d hd l line
  · split
    · rintro _ ⟨⟩
    · rw [cons_append, cons_append, forall_mem_cons, forall_mem_cons, forall_mem_append,
        forall_mem_map, forall_mem_singleton]
      exact ⟨clean_empty.lineAllows, opening.lineAllows.indented 0,
        fun l mem => (hl l mem).lineAllows.indented 1, closing.lineAllows.indented 0⟩

end Headers

/-! ### Files -/

def Behavior.unknownPackages (b : Behavior) : List String :=
  (b.visited.filterMap Item.unknown?).map fun cls => (runtimeClass cls).1

/-- A package that is told apart from the names in the catalog and in the behaviors. -/
structure Context.Separates (pkg : String) (x : Context) (bs : List Behavior) : Prop where
  structs : ∀ s ∈ x.catalog.structs, ∀ p ∈ s.properties, ConstBeside pkg p.type
  behaviors : ∀ b ∈ bs, b.Beside pkg

namespace Generation

open List

variable {u : Usage} {pkg path : String} {x : Context} {bs : List Behavior} {i : Item}

/-- Several behaviors use imported packages only. -/
theorem covered_behaviors (hc : x.config.Written) (w : Watched u.pkg) :
    ∀ {bs : List Behavior}, x.Separates u.pkg bs →
    (behaviors { toContext := x } bs).Covered u (Decl.AllAllowed u.Permits)
  | [], _ => .pure (by rintro _ ⟨⟩)
  | b :: bs, hs => by
      have each := forall_mem_cons.mp hs.behaviors
      have beside : Context.Beside u.pkg { x with agentType := b.agentType } :=
        ⟨w, hc.renames, each.1.agentType, hs.structs⟩
      have rest := covered_behaviors hc w ⟨hs.structs, each.2⟩
      exact .bind (covered_behavior beside each.1) fun _ first => .bind rest fun _ others =>
        .pure (forall_mem_append.mpr ⟨first, others⟩)

theorem bt_mem_imports (g : Generation) (b : Behavior) (bs : List Behavior) :
    .runtime "bt" ∈ (g.behaviors (b :: bs)).needs.imports := by
  rw [behaviors, Emit.needs_bind, Needs.imports_append, behavior_eq, Emit.needs_bind, Needs.imports_append]
  exact mem_append_left _ (mem_append_left _ mem_cons_self)

mutual

theorem imports_emit (g : Generation) : ∀ (p : Piece), ∀ c ∈ p.creations,
    (g.createItem c.1 c.2).needs.imports ⊆ (p.emit g).needs.imports
  | .code _, _, h => by cases h
  | .create i className, c, h => by
      cases mem_singleton.mp h
      exact List.Subset.refl _
  | .block body, c, h => by
      rw [Piece.emit, Emit.needs_bind, Needs.imports_append]
      exact subset_append_of_subset_left _ (imports_emitAll g body c h)

theorem imports_emitAll (g : Generation) : ∀ (ps : List Piece), ∀ c ∈ Piece.allCreations ps,
    (g.createItem c.1 c.2).needs.imports ⊆ (Piece.emitAll g ps).needs.imports
  | [], _, h => by cases h
  | p :: ps, c, h => by
      rw [Piece.emitAll, Emit.needs_append, Needs.imports_append]
      rcases mem_append.mp h with h | h
      · exact subset_append_of_subset_left _ (imports_emit g p c h)
      · exact subset_append_of_subset_right _ (imports_emitAll g ps c h)

end

/-- An item of an unknown kind has no class, so it is made from its runtime type. -/
theorem runtime_mem_createItem {cls : String} (unknown : i.unknown? = some cls) (tree : String) :
    .runtime (runtimeClass cls).1 ∈
      (createItem { toContext := x } i (class? { toContext := x } tree i)).needs.imports := by
  cases i with
  | node n =>
    have kind := Item.unknown?_node.mp unknown
    have runtime : n.runtimeType = runtimeClass cls := by rw [Node.runtimeType, kind]
    have recipe : Registry.builtin.node n.tag = .bare := by
      rw [Node.tag, kind]
      rfl
    have bare : class? { toContext := x } tree (.node n) = none := by
      rw [class?, nodeClass?, recipe]
      rfl
    rw [bare, createItem, Registry.builtin_create, ← runtime]
    exact mem_cons_self
  | attachment a =>
    have kind := Item.unknown?_attachment.mp unknown
    have runtime : a.runtimeType = runtimeClass cls := by rw [Attachment.runtimeType, kind]
    have recipe : Registry.builtin.attachment a.tag = .bare := by
      rw [Attachment.tag, kind]
      rfl
    have bare : class? { toContext := x } tree (.attachment a) = none := by
      rw [class?, attachmentClass?, recipe]
      rfl
    rw [bare, createItem, Registry.builtin_createAttachment, ← runtime]
    exact mem_cons_self

/-- The package of an unknown class is imported. -/
theorem unknown_mem_imports {bs : List Behavior} (h : pkg ∈ bs.flatMap Behavior.unknownPackages) :
    .runtime pkg ∈ (behaviors { toContext := x } bs).needs.imports := by
  obtain ⟨b, hb, held⟩ := mem_flatMap.mp h
  obtain ⟨cls, found, rfl⟩ := mem_map.mp held
  obtain ⟨i, hi, unknown⟩ := mem_filterMap.mp found
  rw [mem_imports_behaviors]
  refine ⟨b, hb, ?_⟩
  have created : (i, class? { toContext := { x with agentType := b.agentType } } b.className i) ∈
      Piece.allCreations (plan { toContext := { x with agentType := b.agentType } } b) := by
    rw [allCreations_plan]
    exact mem_map_of_mem hi
  have body := imports_emitAll _ _ _ created (runtime_mem_createItem unknown b.className)
  rw [← treeBody_eq] at body
  rw [behaviors, Emit.needs_bind, Needs.imports_append, behavior_eq]
  simp only [Emit.needs_bind, Needs.imports_append, Emit.needs_pure, mem_append]
  exact .inl (.inr (.inr (.inl body)))

theorem allows_contents (hc : x.config.Written) (line : '\n' ∉ path.toList) {A : List Char → Prop}
    (words : ∀ p, .runtime p ∈ (behaviors { toContext := x } bs).needs.imports → IsWord p)
    (body : Decl.AllAllowed A (behaviors { toContext := x } bs).value) :
    Allows A (scan .code (file { toContext := x } path bs).contents.toList) := by
  rw [file, contents_assemble]
  refine allows_unlines (forall_mem_append.mpr ⟨lineAllows_header line hc.package ?_, ?_⟩)
  · intro l mem
    obtain ⟨i, hi, rfl⟩ := mem_importLines.mp mem
    exact clean_importText hc fun p same => words p (same ▸ hi)
  · intro l mem
    obtain ⟨d, hd, hl⟩ := mem_flatMap.mp mem
    exact body d hd l hl

/-- A file of behaviors is a header with import lines and the code behind it. A package that stands in
front of a dot in the code, outside of strings and comments, has its line in the header. -/
theorem no_missing_import (x : Context) (path : String) (bs : List Behavior) (hc : x.config.Written)
    (line : '\n' ∉ path.toList) : ∃ lines : List String,
      (file { toContext := x } path bs).contents = headerText path x.config.treesPackage lines ++
        Decl.textOf (behaviors { toContext := x } bs).value ∧
      ∀ pkg, (pkg = "bt" ∨ (pkg ∈ bs.flatMap Behavior.unknownPackages ∧ pkg ≠ typesAlias) ∨
          (pkg ∈ typesAlias :: runtimePackages ∨ Watched pkg) ∧ x.Separates pkg bs) →
        pkg ∈ qualifiers (file { toContext := x } path bs).contents →
        (packageImport pkg).text x.config ∈ lines := by
  refine ⟨importLines x.config (behaviors { toContext := x } bs).needs.imports,
    contents_assemble_eq _ _ _ _, ?_⟩
  intro pkg apart found
  obtain ⟨name, mem, dot, same⟩ := mem_qualifiers.mp found
  refine mem_importLines.mpr ⟨packageImport pkg, ?_, rfl⟩
  rcases apart with rfl | ⟨unknown, other⟩ | ⟨known, separates⟩
  · cases bs with
    | nil =>
      -- the header of an empty file has no qualifiers at all
      have none : Allows (fun _ => False) (scan .code (file { toContext := x } path []).contents.toList) :=
        allows_contents hc line (by rintro _ ⟨⟩) (by rintro _ ⟨⟩)
      exact absurd (none name mem dot) id
    | cons b bs => exact bt_mem_imports _ b bs
  · rw [packageImport, if_neg other]
    exact unknown_mem_imports unknown
  · have watched : Watched pkg := known.elim watched_runtime id
    let u : Usage := ⟨(behaviors { toContext := x } bs).needs.imports, pkg⟩
    obtain ⟨body, needs⟩ := covered_behaviors (u := u) hc watched separates (List.Subset.refl _)
    exact allows_contents hc line needs.words body name mem dot same

/-- A catalog with an enum. -/
def palace : Context where
  catalog := { enums := [{ name := "Color" }] }

/-- A tree with a node of an unknown kind and a condition on an enum. -/
def lookout : Behavior where
  name := "lookout"
  path := "ai/lookout.xml"
  agentType := "Guard"
  children := [
    .mk { id := 1, kind := .unknown "sensors.Radar" } [],
    .mk { id := 2, kind := .condition {
      left := some (.var (.property { name := "badge", type := "Color", className := "Guard" }))
      operator := .relation .equal
      right := some (.var (.const "Color" (.member "Red"))) } } []]

/-- The lines of the code behind the header of a file. -/
def codeLines (x : Context) (bs : List Behavior) : List String :=
  (behaviors { toContext := x } bs).value.flatMap (Decl.lines 0)

theorem mem_qualifiers_file {q l : String} (mem : l ∈ headerLines path x.config.treesPackage
      (importLines x.config (behaviors { toContext := x } bs).needs.imports) ++ codeLines x bs)
    (found : q ∈ qualifiers l ∧ l.toList.head? ≠ some '\'' ∧ l.toList.getLast? ≠ some '\'') :
    q ∈ qualifiers (file { toContext := x } path bs).contents := by
  rw [file, contents_assemble]
  exact qualifiers_subset_unlines mem found.2.1 found.2.2 found.1

theorem mem_qualifiers_code {q l : String} (mem : l ∈ codeLines x bs)
    (found : q ∈ qualifiers l ∧ l.toList.head? ≠ some '\'' ∧ l.toList.getLast? ≠ some '\'') :
    q ∈ qualifiers (file { toContext := x } path bs).contents :=
  mem_qualifiers_file (mem_append_right _ mem) found

theorem no_missing_import_lookout : ∃ lines : List String,
    (file { toContext := palace } "trees.go" [lookout]).contents =
      headerText "trees.go" "behavior_trees" lines ++
      Decl.textOf (behaviors { toContext := palace } [lookout]).value ∧
    "\"behaviac/bt\"" ∈ lines ∧ "\"behaviac/conditions\"" ∈ lines ∧ "\"behaviac/sensors\"" ∈ lines ∧
    "types \"behaviac_generated/types\"" ∈ lines := by
  have separates {pkg : String} (color : TypeBeside pkg "Color") : palace.Separates pkg [lookout] := by
    have path {word : String} (h : IsWord word) : PathBeside pkg word :=
      ⟨[word], by simp, by simpa using h, by simp, rfl⟩
    have badge : Property.Beside pkg { name := "badge", type := "Color", className := "Guard" } :=
      ⟨path (by decide), path (by decide), color, by rintro _ ⟨⟩⟩
    refine ⟨by rintro _ ⟨⟩, forall_mem_singleton.mpr ⟨by decide, by decide, by decide, path (by decide), ?_⟩⟩
    refine forall_mem_cons.mpr ⟨⟨by rintro _ ⟨⟩, ?_⟩, forall_mem_singleton.mpr ⟨?_, by rintro _ ⟨⟩⟩⟩
    · rintro _ ⟨⟩
      exact .inr ⟨"sensors", "Radar", by decide, by decide, by decide, by decide⟩
    · refine forall_mem_cons.mpr ⟨?_, forall_mem_singleton.mpr ?_⟩
      · rintro _ ⟨⟩
        exact badge
      · rintro _ ⟨⟩
        exact ⟨⟨color, color⟩, path (by decide)⟩
  obtain ⟨radar, condition, red⟩ :
      "\t\tnode1 := bt.NewNode(1, sensors.NewRadar())" ∈ codeLines palace [lookout] ∧
      "\tconditions.Condition" ∈ codeLines palace [lookout] ∧
      "\topr := types.Color.Red" ∈ codeLines palace [lookout] := by
    decide +kernel
  obtain ⟨block, whole, each⟩ :=
    no_missing_import palace "trees.go" [lookout] ⟨rfl, by decide, by decide, by decide⟩ (by decide)
  refine ⟨block, whole, each "bt" (.inl rfl) (mem_qualifiers_code radar (by decide +kernel)), ?_, ?_, ?_⟩
  · exact each "conditions" (.inr (.inr ⟨.inl (by decide), separates ⟨by decide, by decide +kernel⟩⟩))
      (mem_qualifiers_code condition (by decide +kernel))
  · exact each "sensors" (.inr (.inl (by decide +kernel))) (mem_qualifiers_code radar (by decide +kernel))
  · exact each "types" (.inr (.inr ⟨.inl (by decide), separates ⟨by decide, by decide +kernel⟩⟩))
      (mem_qualifiers_code red (by decide +kernel))

/-- Settings with a dot in the package of the trees. -/
def border : Context where
  catalog := {}
  config := { treesPackage := "actions.trees" }

/-- A tree with a runtime class behind the alias of the types, a disabled one behind the name of a
variable, and assignments to properties with odd types. -/
def trespass : Behavior where
  name := "trespass"
  path := "ai/trespass.xml"
  agentType := "game::Guard"
  children := [
    .mk { id := 1, kind := .unknown "types.Trap" } [],
    .mk { id := 2, kind := .unknown "agent.Scout", enabled := false } [],
    .mk { id := 3, kind := .assignment {
      target := some (.property { name := "mood", type := "compo*sites::Kind", className := "game::Guard" })
      source := some
        (.var (.property { name := "mood", type := "compo*sites::Kind", className := "game::Guard" }))
      casting := true } } [],
    .mk { id := 4, kind := .assignment {
      target := some (.property { name := "hint", type := "Kind\"", className := "game::Guard" })
      source := some (.var (.const "string" (.string "decorators.Loop")))
      casting := true } } []]

/-- The alias of the types, a variable, a package that a replacement makes up, one that a quote lets out of
a string and one in the package clause stand in front of a dot without being imported. -/
theorem qualifiers_not_imported :
    (∀ q ∈ ["types", "agent", "composites", "decorators", "actions"],
      q ∈ qualifiers (file { toContext := border } "trees.go" [trespass]).contents ∧
      (packageImport q).text border.config ∉ ["\"behaviac/bt\"", "\"behaviac/performers\"",
        "\"behaviac/types\""]) ∧
    (file { toContext := border } "trees.go" [trespass]).contents =
      headerText "trees.go" "actions.trees" ["\"behaviac/bt\"", "\"behaviac/performers\"",
        "\"behaviac/types\""] ++
        Decl.textOf (behaviors { toContext := border } [trespass]).value := by
  have needs : (behaviors { toContext := border } [trespass]).needs.imports =
      [.runtime "bt", .runtime "performers", .runtime "performers", .runtime "types", .runtime "bt",
        .runtime "bt", .runtime "bt"] := by
    decide +kernel
  have lines : importLines border.config (behaviors { toContext := border } [trespass]).needs.imports =
      ["\"behaviac/bt\"", "\"behaviac/performers\"", "\"behaviac/types\""] := by
    rw [needs]
    exact importLines_eq (by decide +kernel) (by decide +kernel) (by decide +kernel)
  obtain ⟨trap, mood, hint⟩ :
      "\t\tnode1 := bt.NewNode(1, types.NewTrap())" ∈ codeLines border [trespass] ∧
      "\tagent.(*game.Guard).Mood = composites.Kind(agent.(*game.Guard).Mood)" ∈ codeLines border [trespass] ∧
      "\tagent.(*game.Guard).Hint = Kind\"(\"decorators.Loop\")" ∈ codeLines border [trespass] := by
    decide +kernel
  have clause : "package actions.trees" ∈ headerLines "trees.go" border.config.treesPackage
      (importLines border.config (behaviors { toContext := border } [trespass]).needs.imports) :=
    mem_append_left _ (mem_append_right _ mem_cons_self)
  constructor
  · simp only [forall_mem_cons]
    refine ⟨⟨mem_qualifiers_code trap (by decide +kernel), by decide +kernel⟩,
      ⟨mem_qualifiers_code mood (by decide +kernel), by decide +kernel⟩,
      ⟨mem_qualifiers_code mood (by decide +kernel), by decide +kernel⟩,
      ⟨mem_qualifiers_code hint (by decide +kernel), by decide +kernel⟩,
      ⟨mem_qualifiers_file (mem_append_left _ clause) (by decide +kernel), by decide +kernel⟩, by rintro _ ⟨⟩⟩
  · rw [← lines]
    exact contents_assemble_eq _ _ _ _

end Generation

end GoTrees
