import GoTrees.Proofs.SkeletonLines

/-!
# Regenerating a hand-edited skeleton

The body of each method of a skeleton is a block under the Go name of the method, and what stands around the
blocks has no markers. So a merge of a hand-edited skeleton with the regenerated one finds each body again
under its name, and the hand-edited skeleton comes out.
-/

namespace GoTrees

open List

namespace Merge

open Text

/-! ### Blocks in place -/

variable {kept : List Block} {indent key : String} {body : List String}

theorem mergeFrom_lines (rest : List String) : ∀ {front : List String}, (∀ l ∈ front, beginKey? l = none) →
    mergeFrom kept none (front ++ rest) = front ++ mergeFrom kept none rest
  | [], _ => rfl
  | l :: front, h => by
      rw [forall_mem_cons] at h
      rw [cons_append, mergeFrom_plain _ h.1, mergeFrom_lines rest h.2, cons_append]

theorem blocksFrom_lines (rest : List String) : ∀ {front : List String}, (∀ l ∈ front, beginKey? l = none) →
    blocksFrom none (front ++ rest) = blocksFrom none rest
  | [], _ => rfl
  | l :: front, h => by
      rw [forall_mem_cons] at h
      rw [cons_append, blocksFrom_plain _ h.1, blocksFrom_lines rest h.2]

theorem mergeFrom_skip (rest : List String) : ∀ {body : List String}, (∀ l ∈ body, isEnd l = false) →
    mergeFrom kept (some ⟨indent, false⟩) (body ++ rest) = mergeFrom kept (some ⟨indent, false⟩) rest
  | [], _ => rfl
  | l :: body, h => by
      rw [forall_mem_cons] at h
      rw [cons_append, mergeFrom, if_neg (by simp [h.1]), if_neg (by simp), mergeFrom_skip rest h.2]

theorem mergeFrom_block {hand : List String} (blank : Blank indent) (solid : Solid key)
    (sound : ∀ l ∈ body, isEnd l = false) (found : kept.find? (·.key == key) = some ⟨key, hand⟩)
    (rest : List String) :
    mergeFrom kept none (opening indent key :: body ++ [closing indent] ++ rest) =
      opening indent key :: hand ++ [closing indent] ++ mergeFrom kept none rest := by
  have close : mergeFrom kept (some ⟨indent, false⟩) (closing indent :: rest) =
      closing indent :: mergeFrom kept none rest := by
    rw [mergeFrom, if_pos (isEnd_closing blank)]
    rfl
  rw [List.append_assoc, cons_append, mergeFrom_kept _ (beginKey?_opening blank solid) found,
    leadingBlanks_opening blank, mergeFrom_skip _ sound, singleton_append, close]
  simp

/-- A block is read back. -/
theorem blocksFrom_block (blank : Blank indent) (solid : Solid key) (sound : ∀ l ∈ body, isEnd l = false)
    (rest : List String) : blocksFrom none (opening indent key :: body ++ [closing indent] ++ rest) =
      ⟨key, body⟩ :: blocksFrom none rest := by
  rw [List.append_assoc, cons_append, blocksFrom_begin _ (beginKey?_opening blank solid),
    blocksFrom_append _ _ _ sound, singleton_append, blocksFrom, if_pos (isEnd_closing blank)]
  rfl

end Merge

open Text Go

namespace Skeleton

variable {k : Skeleton} {a : AgentType}

/-! ### Stubs -/

theorem solid_memberName {m : Method} (h : m.Writable) :
    Merge.Solid (memberName m.name) ∧ Unbroken (memberName m.name) := by
  have ink := pascalCase_isInk (allChars_basicName h.name.ink)
  exact ⟨ink.mono fun _ => And.left, ink.mono fun _ => IsInk.flat⟩

theorem unbroken_paramTypes (config : k.config.Unbroken) : ∀ ps : List Param,
    (∀ p ∈ ps, Unbroken p.name ∧ Unbroken p.type) →
      ∀ t ∈ (k.paramTypes ps).value, Unbroken t.1 ∧ Unbroken t.2
  | [], _ => nofun
  | p :: ps, h => by
      rw [forall_mem_cons] at h
      obtain ⟨⟨name, native⟩, others⟩ := h
      have type : Unbroken (k.goType p.type).value := GoType.unbroken_ofNative config.renames native
      have rest := unbroken_paramTypes config ps others
      simp only [paramTypes, Emit.value_bind, Emit.value_pure, forall_mem_cons]
      refine ⟨⟨name, ?_⟩, rest⟩
      split
      · exact .append (by decide) type
      · exact type

theorem quiet_stubHeader (config : k.config.Unbroken) {agent : String} (ha : Unbroken agent) {m : Method}
    (hm : m.Writable) : Quiet (Sheet.indented 0 (k.stubHeader agent m)) := by
  refine quiet_header ?_ (solid_memberName hm).2 (unbroken_paramTypes config _ hm.params) ?_
  · rintro r ⟨rfl⟩
    have object : Unbroken "_o" := by decide
    exact ⟨object, ha⟩
  · intro t ht
    obtain ⟨e, -, rfl⟩ := Option.map_eq_some_iff.mp ht
    exact GoType.unbroken_ofNative config.renames hm.result

/-- The generated bodies do not end their blocks early. -/
theorem ownBody_sound (config : k.config.Unbroken) {m : Method} (hm : m.Writable) :
    ∀ l ∈ k.ownBody m, IsLine l ∧ Merge.isEnd l = false := by
  intro l hl
  obtain ⟨e, he, rfl⟩ := mem_map.mp hl
  have ungiven : ∀ t ∈ (none : Option String), Unbroken t := nofun
  have value := unbroken_initialValue config hm.result ungiven e (Option.mem_toList.mp he)
  have coded : Coded ("return " ++ e.text) := Coded.append ⟨'r', by decide, by decide⟩ _
  have quiet := quiet_code coded (.append (by decide) value) 1
  refine ⟨quiet.unbroken.isLine, ?_⟩
  rw [indented_of_ne coded.ne_empty]
  obtain ⟨c, head, ink⟩ := coded
  exact Merge.isEnd_code (blank_tabs 1) head ink.1 ink.2

section Stubs

variable {agent : String} {bodies : Method → List String}

/-- What stands around the block of a stub begins no block. -/
theorem stubLines_eq (config : k.config.Unbroken) (ha : Unbroken agent) {m : Method} (hm : m.Writable) :
    ∃ before after, (∀ l ∈ before ++ after, Quiet l) ∧ ∀ body, k.stubLines agent m body =
      before ++ ((Merge.opening "\t" (memberName m.name) :: body ++ [Merge.closing "\t"]) ++ after) := by
  refine ⟨(commentOf m.description).flatMap (Decl.lines 0) ++ [Sheet.indented 0 (k.stubHeader agent m)],
    [Sheet.indented 0 "\x7d", ""], ?_, fun body => ?_⟩
  · simp only [forall_mem_append, forall_mem_cons]
    exact ⟨⟨quiet_commentOf hm.description, quiet_stubHeader config ha hm, by rintro _ ⟨⟩⟩, quiet_brace,
      quiet_empty, by rintro _ ⟨⟩⟩
  · rw [stubLines, List.append_assoc _ _ [_, _]]

theorem blocksFrom_stubs (config : k.config.Unbroken) (ha : Unbroken agent) : ∀ ms : List Method,
    (∀ m ∈ ms, m.Writable) → (∀ m ∈ ms, ∀ l ∈ bodies m, IsLine l ∧ Merge.isEnd l = false) →
      Merge.blocksFrom none (k.stubs agent bodies ms) = ms.map fun m => ⟨memberName m.name, bodies m⟩
  | [], _, _ => rfl
  | m :: ms, hm, hand => by
      rw [forall_mem_cons] at hm hand
      obtain ⟨before, after, quiet, lines⟩ := stubLines_eq config ha hm.1
      rw [forall_mem_append] at quiet
      have rest := blocksFrom_stubs config ha ms hm.2 hand.2
      rw [stubs] at rest
      rw [stubs, flatMap_cons, lines, List.append_assoc, List.append_assoc,
        Merge.blocksFrom_lines _ fun l hl => (quiet.1 l hl).begins,
        Merge.blocksFrom_block (by decide) (solid_memberName hm.1).1 fun l hl => (hand.1 l hl).2,
        Merge.blocksFrom_lines _ fun l hl => (quiet.2 l hl).begins, rest, map_cons]

/-- Merging puts the kept body into each stub. -/
theorem mergeFrom_stubs (config : k.config.Unbroken) (ha : Unbroken agent) {kept : List Merge.Block} :
    ∀ ms : List Method, (∀ m ∈ ms, m.Writable) →
      (∀ m ∈ ms, kept.find? (·.key == memberName m.name) = some ⟨memberName m.name, bodies m⟩) →
      Merge.mergeFrom kept none (k.stubs agent k.ownBody ms) = k.stubs agent bodies ms
  | [], _, _ => rfl
  | m :: ms, hm, found => by
      rw [forall_mem_cons] at hm found
      obtain ⟨before, after, quiet, lines⟩ := stubLines_eq config ha hm.1
      rw [forall_mem_append] at quiet
      have own : ∀ l ∈ k.ownBody m, Merge.isEnd l = false := fun l hl => (ownBody_sound config hm.1 l hl).2
      have rest := mergeFrom_stubs config ha ms hm.2 found.2
      rw [stubs, stubs] at rest
      rw [stubs, stubs, flatMap_cons, flatMap_cons, lines, lines, List.append_assoc,
        List.append_assoc, Merge.mergeFrom_lines _ fun l hl => (quiet.1 l hl).begins,
        Merge.mergeFrom_block (by decide) (solid_memberName hm.1).1 own found.1,
        Merge.mergeFrom_lines _ fun l hl => (quiet.2 l hl).begins, rest]
      simp only [List.append_assoc]

end Stubs

/-- The lines of an edited file are those in front of the stubs and the edited stubs. -/
theorem lines_handEdited (config : k.config.Unbroken) (agent : a.Writable) {bodies : Method → List String}
    (hand : ∀ m ∈ a.ownMethods, ∀ l ∈ bodies m, IsLine l ∧ Merge.isEnd l = false) :
    lines (k.handEdited a bodies) = k.frontLines a ++ k.stubs (basicName a.name) bodies a.ownMethods := by
  have name := allChars_basicName agent.name
  refine lines_unlines _ ?_
  rw [forall_mem_append]
  refine ⟨fun l hl => (quiet_frontLines config agent l hl).unbroken.isLine, ?_⟩
  intro l hl
  obtain ⟨m, hm, hl⟩ := mem_flatMap.mp hl
  have writable := agent.methods m (mem_of_mem_filter hm)
  obtain ⟨before, after, quiet, stub⟩ := stubLines_eq config name writable
  rw [forall_mem_append] at quiet
  have opens : Unbroken (Merge.opening "\t" (memberName m.name)) :=
    Merge.unbroken_opening (by decide) (solid_memberName writable).2
  have closes : Unbroken (Merge.closing "\t") := Merge.unbroken_closing (by decide)
  rw [stub] at hl
  simp only [mem_append, mem_cons, not_mem_nil, or_false] at hl
  rcases hl with hl | ((rfl | hl) | rfl) | hl
  · exact (quiet.1 l hl).unbroken.isLine
  · exact opens.isLine
  · exact (hand m hm l hl).1
  · exact closes.isLine
  · exact (quiet.2 l hl).unbroken.isLine

/-- Merging the generated file into the edited one gives the edited one. -/
theorem merge_ownBody (config : k.config.Unbroken) (agent : a.Writable) {bodies : Method → List String}
    (hand : ∀ m ∈ a.ownMethods, ∀ l ∈ bodies m, IsLine l ∧ Merge.isEnd l = false) :
    Merge.merge (k.handEdited a bodies) (k.handEdited a k.ownBody) = k.handEdited a bodies := by
  have name := allChars_basicName agent.name
  have writable : ∀ m ∈ a.ownMethods, m.Writable := fun m hm => agent.methods m (mem_of_mem_filter hm)
  have front : ∀ l ∈ k.frontLines a, Merge.beginKey? l = none :=
    fun l hl => (quiet_frontLines config agent l hl).begins
  have kept : Merge.blocks (k.handEdited a bodies) =
      a.ownMethods.map fun m => ⟨memberName m.name, bodies m⟩ := by
    rw [Merge.blocks, lines_handEdited config agent hand, Merge.blocksFrom_lines _ front,
      blocksFrom_stubs config name _ writable hand]
  have found : ∀ m ∈ a.ownMethods, (Merge.blocks (k.handEdited a bodies)).find?
      (·.key == memberName m.name) = some ⟨memberName m.name, bodies m⟩ := by
    intro m hm
    have distinct : ((Merge.blocks (k.handEdited a bodies)).map Merge.Block.key).Nodup := by
      rw [kept, map_map]
      exact agent.distinct
    exact Merge.find?_key distinct ⟨memberName m.name, bodies m⟩ (kept ▸ mem_map_of_mem hm)
  rw [Merge.merge, lines_handEdited config agent fun m hm => ownBody_sound config (writable m hm),
    Merge.mergeFrom_lines _ front, mergeFrom_stubs config name _ writable found]
  rfl

/-- Regenerating a skeleton leaves it as it was edited by hand, and a new one as it is. -/
theorem merge_handEdited (k : Skeleton) (a : AgentType) (config : k.config.Unbroken) (agent : a.Writable)
    (bodies : Method → List String)
    (hand : ∀ m ∈ a.ownMethods, ∀ l ∈ bodies m, IsLine l ∧ Merge.isEnd l = false) :
    k.handEdited a k.ownBody = (k.agentFile a).contents ∧
      Merge.merge (k.handEdited a bodies) (k.agentFile a).contents = k.handEdited a bodies ∧
      Merge.merge (k.agentFile a).contents (k.agentFile a).contents = (k.agentFile a).contents := by
  have own : ∀ m ∈ a.ownMethods, ∀ l ∈ k.ownBody m, IsLine l ∧ Merge.isEnd l = false :=
    fun m hm => ownBody_sound config (agent.methods m (mem_of_mem_filter hm))
  rw [← handEdited_ownBody]
  exact ⟨rfl, merge_ownBody config agent hand, merge_ownBody config agent own⟩

/-- A watchman who can sound an alarm and rest. -/
def watchman : AgentType where
  name := "town::Watchman"
  description := "Keeps watch."
  properties := [
    { name := "hit_points", type := "int", initial := some "10", description := "Health." },
    { name := "posts", type := "vector<int>", isStatic := true, initial := some "2:1|2" }]
  methods := [
    { name := "sound_alarm", result := "bool", params := [{ name := "level", type := "int", isOut := true }],
      description := "Calls for help." },
    { name := "rest" }]

/-- The alarm has a body of two lines, the first of which is a begin marker. -/
def watchmanBodies (m : Method) : List String :=
  if m.name = "sound_alarm" then [Merge.opening "" "Rest", "return ring(level)"] else []

theorem merge_handEdited_watchman :
    let k : Skeleton := { catalog := { agents := [watchman] } }
    k.config.Unbroken ∧ watchman.Writable ∧
      (∀ m ∈ watchman.ownMethods, ∀ l ∈ watchmanBodies m, IsLine l ∧ Merge.isEnd l = false) ∧
      Merge.merge (k.handEdited watchman watchmanBodies) (k.agentFile watchman).contents =
        k.handEdited watchman watchmanBodies := by
  intro k
  have config : k.config.Unbroken := ⟨by decide, by decide, by decide, by decide, by rintro _ ⟨⟩⟩
  have names : IsName "hit_points" ∧ IsName "posts" ∧ IsName "sound_alarm" ∧ IsName "rest" :=
    ⟨isName_of_word (c := 'h') (by decide) (by decide) (by decide),
      isName_of_word (c := 'p') (by decide) (by decide) (by decide),
      isName_of_word (c := 's') (by decide) (by decide) (by decide),
      isName_of_word (c := 'r') (by decide) (by decide) (by decide)⟩
  obtain ⟨hitPoints, posts, alarm, rest⟩ := names
  have agent : watchman.Writable := by
    refine ⟨by decide, by rintro _ ⟨⟩, ⟨by decide, by decide⟩, ?_, ?_, by decide⟩
    · simp only [watchman, forall_mem_cons]
      exact ⟨⟨hitPoints, by decide, by decide, by decide⟩,
        ⟨posts, by decide, by decide, by decide⟩, by rintro _ ⟨⟩⟩
    · simp only [watchman, forall_mem_cons]
      exact ⟨⟨alarm, by decide, by decide, by decide, by decide⟩,
        ⟨rest, by decide, by rintro _ ⟨⟩, by decide, by decide⟩, by rintro _ ⟨⟩⟩
  have ring : Merge.isEnd ("" ++ "return ring(level)") = false :=
    Merge.isEnd_code (by decide) (c := 'r') (by decide) (by decide) (by decide)
  have hand : ∀ m ∈ watchman.ownMethods, ∀ l ∈ watchmanBodies m, IsLine l ∧ Merge.isEnd l = false := by
    intro m _ l hl
    rw [watchmanBodies] at hl
    split at hl
    · simp only [mem_cons, not_mem_nil, or_false] at hl
      rcases hl with rfl | rfl
      · have marker : Unbroken (Merge.opening "" "Rest") := Merge.unbroken_opening (by decide) (by decide)
        exact ⟨marker.isLine, Merge.isEnd_opening (by decide) _⟩
      · have line : Unbroken "return ring(level)" := by decide
        exact ⟨line.isLine, by simpa using ring⟩
    · cases hl
  exact ⟨config, agent, hand, (merge_handEdited k watchman config agent watchmanBodies hand).2.1⟩

end Skeleton

end GoTrees
