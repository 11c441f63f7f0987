import GoTrees.Generator
import GoTrees.Proofs.Names
import GoTrees.Proofs.Occurrences
import GoTrees.Proofs.Publishing

/-!
# The paths of the files

Tree files are at the paths of their trees. A type file is at home in a folder below that of the types: an
agent in the folder of its namespace, a type with a location in that location, and the types without a location
share one file.

    game::Guard                  types/game/Guard.go
    Guard at "game"              types/game/Guard.go
    enums without a location     types/customized_types.go

Homes that follow from the names of agents are as different as the names. All others may meet.
-/

namespace GoTrees

open Text Go List

namespace Text

/-- A pattern that was replaced by a character can be put back, if the character stood nowhere before. -/
theorem flatMap_replaceFrom {pat : List Char} {m : Char} (filled : pat ≠ []) :
    ∀ (skip : Nat) (cs : List Char), m ∉ cs →
    (replaceFrom pat [m] skip cs).flatMap (fun c => if c = m then pat else [c]) = cs.drop skip
  | skip, [], _ => by simp [replaceFrom]
  | skip + 1, c :: cs, h => by
      rw [replaceFrom, drop_succ_cons]
      exact flatMap_replaceFrom filled skip cs fun mem => h (mem_cons_of_mem c mem)
  | 0, c :: cs, h => by
      have rest (skip : Nat) := flatMap_replaceFrom filled skip cs fun mem => h (mem_cons_of_mem c mem)
      have other : c ≠ m := fun same => h (same ▸ mem_cons_self)
      rw [replaceFrom, drop_zero]
      split
      · next lead =>
        obtain ⟨after, whole⟩ := isPrefixOf_iff_prefix.mp lead
        rw [flatMap_append, rest]
        cases pat with
        | nil => exact absurd rfl filled
        | cons p pat =>
          obtain ⟨rfl, rfl⟩ := List.cons.inj whole
          simp
      · simp [other, rest]

theorem replace_inj {pat s t : String} {m : Char} (filled : pat ≠ "") (hs : m ∉ s.toList) (ht : m ∉ t.toList)
    (h : replace s pat (.singleton m) = replace t pat (.singleton m)) : s = t := by
  have filled : pat.toList ≠ [] := by simpa using filled
  have chars : replaceFrom pat.toList [m] 0 s.toList = replaceFrom pat.toList [m] 0 t.toList := by
    simpa [replace, replaceChars, filled] using congrArg String.toList h
  have back := congrArg (List.flatMap fun c => if c = m then pat.toList else [c]) chars
  rw [flatMap_replaceFrom filled 0 _ hs, flatMap_replaceFrom filled 0 _ ht] at back
  exact String.toList_inj.mp back

theorem intercalate_splitChars (c : Char) : ∀ cs, [c].intercalate (splitChars (· == c) cs) = cs
  | [] => rfl
  | d :: cs => by
      have rest := intercalate_splitChars c cs
      obtain ⟨part, parts, split⟩ := exists_cons_of_ne_nil (splitChars_ne_nil (· == c) cs)
      rw [split] at rest
      rw [splitChars]
      by_cases sep : d = c
      · simp [sep, split, rest]
      · cases parts with
        | nil => simpa [sep, split] using rest
        | cons next parts => simpa [sep, split] using rest

/-- A text can be put together again from its parts. -/
theorem split_inj {s t : String} {c : Char} (h : split s c = split t c) : s = t := by
  have parts : splitChars (· == c) s.toList = splitChars (· == c) t.toList :=
    map_injective_iff.mpr (fun _ _ => String.ofList_injective) h
  have whole := congrArg [c].intercalate parts
  rw [intercalate_splitChars, intercalate_splitChars] at whole
  exact String.toList_inj.mp whole

end Text

theorem namespaceOf_of_not_contains {name : String} (h : contains name "::" = false) :
    namespaceOf name = "" := by
  rw [namespaceOf, splitLast, splitLastChars_eq_none h]
  rfl

namespace Skeleton

/-! ### Homes -/

/-- Where a type file is below the folder of the types: its own folder, if it has one, and its name. -/
structure Home where
  folder : Option String := none
  name : String
  deriving DecidableEq, Repr

namespace Home

/-- The home as a path. -/
def text (h : Home) : String :=
  match h.folder with
  | none => h.name
  | some folder => folder ++ "/" ++ h.name

/-- The home that follows from a qualified name. -/
def ofName (name : String) : Home where
  folder := if (namespaceOf name).isEmpty then none else some (replace (namespaceOf name) "::" "/")
  name := basicName name

def located (location name : String) : Home where
  folder := some (trimChar location '/')
  name := basicName name

/-- The home of the types that share a file. -/
def shared : Home where
  name := "customized_types"

theorem text_inj {h h' : Home} (hs : '/' ∉ h.name.toList) (hs' : '/' ∉ h'.name.toList)
    (same : h.text = h'.text) : h = h' := by
  have chars := congrArg String.toList same
  obtain ⟨folder, name⟩ := h
  obtain ⟨folder', name'⟩ := h'
  cases folder with
  | none => cases folder' with
    | none => exact congrArg (Home.mk none) same
    | some f => exact absurd (by simp [text] at chars; simp [chars]) hs
  | some f => cases folder' with
    | none => exact absurd (by simp [text] at chars; simp [← chars]) hs'
    | some f' =>
      obtain ⟨folders, names⟩ := append_last_inj hs hs' (by simpa [text] using chars)
      exact Home.mk.injEq .. ▸ ⟨congrArg some (String.toList_inj.mp folders), String.toList_inj.mp names⟩

end Home

/-- A name without slashes that is not qualified by an empty namespace. -/
def IsHomely (name : String) : Prop :=
  '/' ∉ name.toList ∧ (namespaceOf name = "" → basicName name = name)

instance (name : String) : Decidable (IsHomely name) := inferInstanceAs (Decidable (_ ∧ _))

/-- Homely names have different homes. -/
theorem Home.ofName_inj {s t : String} (hs : IsHomely s) (ht : IsHomely t) (same : ofName s = ofName t) :
    s = t := by
  obtain ⟨folders, names⟩ := Home.mk.inj same
  by_cases bare : namespaceOf s = ""
  · have bare' : namespaceOf t = "" := by
      by_contra qualified
      simp [bare, qualified] at folders
    rw [← hs.2 bare, ← ht.2 bare', names]
  · have bare' : namespaceOf t ≠ "" := by
      intro empty
      simp [bare, empty] at folders
    have whole {n : String} (h : namespaceOf n ≠ "") : n = namespaceOf n ++ "::" ++ basicName n := by
      refine (namespaceOf_append_basicName (Bool.of_not_eq_false fun absent => h ?_)).1
      exact namespaceOf_of_not_contains absent
    have clear {n : String} (h : namespaceOf n ≠ "") (slash : '/' ∉ n.toList) :
        '/' ∉ (namespaceOf n).toList := by
      intro mem
      rw [whole h] at slash
      simp [mem] at slash
    have spaces : namespaceOf s = namespaceOf t := by
      have replaced : replace (namespaceOf s) "::" "/" = replace (namespaceOf t) "::" "/" := by
        simpa [bare, bare'] using folders
      exact replace_inj (by decide) (clear bare hs.1) (clear bare' ht.1) replaced
    rw [whole bare, whole bare', spaces, names]

variable (k : Skeleton)

/-- The agent types that get a skeleton. -/
def agents : List AgentType := k.catalog.agents.filter fun a => !a.isImplemented && a.name != agentBase

def namedAgents : List AgentType := k.agents.filter fun a => a.location.isNone

def namedHomes : List Home := k.namedAgents.map fun a => .ofName a.name

/-- The homes of the types with a location and of the types that share a file. -/
def placedHomes : List Home :=
  k.agents.filterMap (fun a => a.location.map (Home.located · a.name))
    ++ k.sharedFile?.toList.map (fun _ => .shared)
    ++ (k.catalog.enums.filter fun e => !e.isImplemented).filterMap (fun e =>
      e.location.map (Home.located · e.name))
    ++ (k.catalog.structs.filter fun s => !s.isImplemented).filterMap
        (fun s => s.location.map (Home.located · s.name))

def pathTo (h : Home) : String := k.config.typesDir ++ "/" ++ h.text ++ ".go"

theorem pathTo_inj {h h' : Home} (same : k.pathTo h = k.pathTo h') : h.text = h'.text := by
  have chars := congrArg String.toList same
  simp only [pathTo, String.toList_append, append_cancel_right_eq, append_cancel_left_eq] at chars
  exact String.toList_inj.mp chars

def agentHome (a : AgentType) : Home :=
  match a.location with
  | some location => .located location a.name
  | none => .ofName a.name

theorem path_agentFile (a : AgentType) : (k.agentFile a).path = k.pathTo (agentHome a) := by
  simp only [agentFile, file, assemble, agentPlace, agentHome, pathTo]
  cases a.location with
  | some location => simp [locatedPath, Home.located, Home.text, String.append_assoc]
  | none =>
    by_cases bare : namespaceOf a.name = ""
    · simp [bare, Home.ofName, Home.text]
    · simp [bare, Home.ofName, Home.text, String.append_assoc]

theorem perm_agentHomes (as : List AgentType) : (as.map agentHome).Perm
    ((as.filter fun a => a.location.isNone).map (fun a => .ofName a.name)
      ++ as.filterMap fun a => a.location.map (Home.located · a.name)) := by
  induction as with
  | nil => exact .refl _
  | cons a as ih =>
    cases place : a.location with
    | none => simpa [place, agentHome] using ih
    | some location => simpa [place, agentHome] using (ih.cons _).trans perm_middle.symm

theorem paths_shared : k.sharedFile?.toList.map OutputFile.path =
    (k.sharedFile?.toList.map fun _ => Home.shared).map k.pathTo := by
  unfold sharedFile?
  dsimp only
  split
  · rfl
  · simp [file, assemble, pathTo, Home.shared, Home.text, String.append_assoc]

theorem paths_located {α : Type} (types : List α) (location : α → Option String) (name : α → String)
    (file? : α → Option OutputFile)
    (path : ∀ t, (file? t).map OutputFile.path =
      (location t).map fun l => k.locatedPath l (basicName (name t))) :
    (types.filterMap file?).map OutputFile.path =
      (types.filterMap fun t => (location t).map (Home.located · (name t))).map k.pathTo := by
  rw [map_filterMap, map_filterMap]
  congr 1
  funext t
  rw [path t, Option.map_map]
  congr 1
  funext l
  simp [pathTo, locatedPath, Home.located, Home.text, String.append_assoc]

/-- The paths of the type files are the paths to their homes. -/
theorem perm_paths_files :
    (k.files.map OutputFile.path).Perm ((k.namedHomes ++ k.placedHomes).map k.pathTo) := by
  have agents : ((k.catalog.agents.filter fun a => !a.isImplemented && a.name != agentBase).map
    k.agentFile).map
      OutputFile.path = (k.agents.map agentHome).map k.pathTo := by
    simp [agents, path_agentFile]
  have enums := k.paths_located (k.catalog.enums.filter fun e => !e.isImplemented) EnumType.location
    EnumType.name k.enumFile? fun e => by simp [enumFile?, file, assemble, Function.comp_def]
  have structs := k.paths_located (k.catalog.structs.filter fun s => !s.isImplemented) StructType.location
    StructType.name k.structFile? fun s => by simp [structFile?, file, assemble, Function.comp_def]
  rw [files, map_append, map_append, map_append, agents, paths_shared, enums, structs,
    placedHomes]
  simp only [← map_append, List.append_assoc]
  refine List.Perm.map _ ?_
  rw [← List.append_assoc k.namedHomes]
  exact (perm_agentHomes k.agents).append_right _

theorem nodup_namedHomes (agents : (k.catalog.agents.map AgentType.name).Nodup)
    (homely : ∀ a ∈ k.namedAgents, IsHomely a.name) : k.namedHomes.Nodup := by
  have distinct : (k.namedAgents.map AgentType.name).Nodup :=
    agents.sublist ((filter_sublist.trans filter_sublist).map _)
  have homes : k.namedHomes = (k.namedAgents.map AgentType.name).map Home.ofName := by
    rw [namedHomes, map_map]
    rfl
  rw [homes]
  refine distinct.map_on ?_
  intro s hs t ht same
  obtain ⟨a, ha, rfl⟩ := mem_map.mp hs
  obtain ⟨b, hb, rfl⟩ := mem_map.mp ht
  exact Home.ofName_inj (homely a ha) (homely b hb) same

/-- Type files have paths of their own exactly if their homes are different. -/
theorem nodup_paths_files (agents : (k.catalog.agents.map AgentType.name).Nodup)
    (names : ∀ h ∈ k.namedHomes ++ k.placedHomes, '/' ∉ h.name.toList)
    (homely : ∀ a ∈ k.namedAgents, IsHomely a.name) :
    (k.files.map OutputFile.path).Nodup ↔ k.placedHomes.Nodup ∧ List.Disjoint k.namedHomes k.placedHomes := by
  have named := k.nodup_namedHomes agents homely
  have homes : ((k.namedHomes ++ k.placedHomes).map k.pathTo).Nodup ↔ (k.namedHomes ++ k.placedHomes).Nodup :=
    ⟨List.Nodup.of_map _, fun nodup => nodup.map_on fun h hh h' hh' same =>
      Home.text_inj (names h hh) (names h' hh') (k.pathTo_inj same)⟩
  rw [k.perm_paths_files.nodup_iff, homes, nodup_append']
  exact and_iff_right named

end Skeleton

namespace Generation

variable (g : Generation)

/-- What the type files are made from. -/
def skeleton : Skeleton := { catalog := g.catalog, config := g.config }

/-- The paths of the tree files below the folder of the trees. -/
def treeNames (bs : List Behavior) : List String :=
  match g.config.fileMode with
  | .single => [g.config.singleFileName]
  | .perBehavior => bs.map fun b => b.sourceName ++ ".go"

theorem paths_treeFiles (bs : List Behavior) : (g.treeFiles bs).map OutputFile.path =
    (g.treeNames bs).map (g.config.behaviorsDir ++ "/" ++ ·) := by
  unfold treeFiles treeNames
  cases g.config.fileMode with
  | single => rfl
  | perBehavior => simp [file, assemble, behaviorPath, String.append_assoc, Function.comp_def]

/-- Trees from different sources have paths of their own. -/
theorem nodup_paths_treeFiles {bs : List Behavior} (sources : (bs.map Behavior.sourceName).Nodup) :
    ((g.treeFiles bs).map OutputFile.path).Nodup := by
  have names : (g.treeNames bs).Nodup := by
    unfold treeNames
    cases g.config.fileMode with
    | single => simp
    | perBehavior =>
      have ended := sources.map (f := (· ++ ".go")) fun s t same => by simpa using same
      simpa [Function.comp_def] using ended
  rw [paths_treeFiles]
  exact names.map fun s t same => by simpa using same

/-- No tree file is at the home of a type file. -/
def TreesApart (bs : List Behavior) : Prop :=
  ∀ t ∈ g.treeNames bs, ∀ h ∈ g.skeleton.namedHomes ++ g.skeleton.placedHomes,
    g.config.behaviorsFolder ++ "/" ++ t ≠ g.config.typesFolder ++ "/" ++ h.text ++ ".go"

theorem path_eq_iff (t : String) (h : Skeleton.Home) :
    g.config.behaviorsDir ++ "/" ++ t = g.skeleton.pathTo h ↔
      g.config.behaviorsFolder ++ "/" ++ t = g.config.typesFolder ++ "/" ++ h.text ++ ".go" := by
  simp [Config.behaviorsDir, Config.typesDir, Skeleton.pathTo, skeleton, ← String.toList_inj]

/-- Trees are apart exactly if no tree is written over a type. -/
theorem treesApart_iff (bs : List Behavior) : g.TreesApart bs ↔
    List.Disjoint ((g.treeFiles bs).map OutputFile.path) (g.typeFiles.map OutputFile.path) := by
  have types {path : String} : path ∈ g.typeFiles.map OutputFile.path ↔
      ∃ h ∈ g.skeleton.namedHomes ++ g.skeleton.placedHomes, g.skeleton.pathTo h = path := by
    rw [← mem_map]
    exact g.skeleton.perm_paths_files.mem_iff
  rw [paths_treeFiles]
  constructor
  · intro apart path tree type
    obtain ⟨t, ht, rfl⟩ := mem_map.mp tree
    obtain ⟨h, hh, same⟩ := types.mp type
    exact apart t ht h hh ((g.path_eq_iff t h).mp same.symm)
  · intro disjoint t ht h hh same
    exact disjoint (mem_map_of_mem ht) (types.mpr ⟨h, hh, ((g.path_eq_iff t h).mpr same).symm⟩)

/-- Neither of the folders of the trees and of the types is in the other. -/
def FoldersApart (c : Config) : Prop :=
  ¬ (c.behaviorsFolder ++ "/").toList <+: (c.typesFolder ++ "/").toList ∧
  ¬ (c.typesFolder ++ "/").toList <+: (c.behaviorsFolder ++ "/").toList

instance (c : Config) : Decidable (FoldersApart c) := inferInstanceAs (Decidable (_ ∧ _))

/-- Trees in a folder of their own are apart from types. -/
theorem treesApart_of_foldersApart (bs : List Behavior) (folders : FoldersApart g.config) :
    g.TreesApart bs := by
  intro t _ h _ same
  have trees : (g.config.behaviorsFolder ++ "/").toList <+: (g.config.behaviorsFolder ++ "/" ++ t).toList := by
    simp
  have types : (g.config.typesFolder ++ "/").toList <+: (g.config.behaviorsFolder ++ "/" ++ t).toList := by
    rw [same]
    simp
  rcases prefix_or_prefix_of_prefix trees types with inside | inside
  · exact folders.1 inside
  · exact folders.2 inside

end Generation

/-! ### Destinations -/

namespace Publish

open FileSystem

/-- No part of the path is empty, stays or leads back. -/
def IsDirect (path : String) : Prop := ∀ s ∈ split path '/', s ≠ "" ∧ s ≠ "." ∧ s ≠ ".."

instance (path : String) : Decidable (IsDirect path) := inferInstanceAs (Decidable (∀ _ ∈ _, _))

theorem placeFrom_of_names : ∀ {names : List String} (path : Path), (∀ s ∈ names, s ≠ "." ∧ s ≠ "..") →
    placeFrom path names = path ++ names
  | [], path, _ => (List.append_nil path).symm
  | name :: names, path, h => by
      obtain ⟨⟨dot, up⟩, rest⟩ := forall_mem_cons.mp h
      rw [placeFrom, foldl_cons, enter_name dot up]
      exact (placeFrom_of_names (path ++ [name]) rest).trans (by simp)

theorem placeOf_of_isDirect {f : OutputFile} (direct : IsDirect f.path) : placeOf f = split f.path '/' := by
  have names : resolve f.path = split f.path '/' :=
    filter_eq_self.mpr fun s hs => by simpa using (direct s hs).1
  rw [placeOf, names]
  exact placeFrom_of_names [] fun s hs => (direct s hs).2

/-- Direct paths lead to different places exactly if they are different. -/
theorem nodup_placeOf {files : List OutputFile} (direct : ∀ f ∈ files, IsDirect f.path) :
    (files.map placeOf).Nodup ↔ (files.map OutputFile.path).Nodup := by
  have places : files.map placeOf = (files.map OutputFile.path).map (split · '/') := by
    rw [map_map]
    exact map_congr_left fun f hf => placeOf_of_isDirect (direct f hf)
  rw [places]
  exact ⟨List.Nodup.of_map _, fun nodup => nodup.map fun _ _ => split_inj⟩

end Publish

namespace Generation

/-- For trees of different paths and agent types of different names, no file has the path of another exactly if
the types with a location and the shared types are at homes of their own and no tree file is among the types.
The latter holds if the two folders are apart. Files with direct paths then have different destinations. -/
theorem paths_nodup_iff (g : Generation) (bs : List Behavior)
    (sources : (bs.map Behavior.sourceName).Nodup) (agents : (g.catalog.agents.map AgentType.name).Nodup)
    (names : ∀ h ∈ g.skeleton.namedHomes ++ g.skeleton.placedHomes, '/' ∉ h.name.toList)
    (homely : ∀ a ∈ g.skeleton.namedAgents, Skeleton.IsHomely a.name) :
    (((g.allFiles bs).map OutputFile.path).Nodup ↔ g.skeleton.placedHomes.Nodup ∧
      List.Disjoint g.skeleton.namedHomes g.skeleton.placedHomes ∧ g.TreesApart bs) ∧
    (FoldersApart g.config → g.TreesApart bs) ∧
    ((∀ f ∈ g.allFiles bs, Publish.IsDirect f.path) →
      (((g.allFiles bs).map Publish.placeOf).Nodup ↔ ((g.allFiles bs).map OutputFile.path).Nodup)) := by
  refine ⟨?_, g.treesApart_of_foldersApart bs, Publish.nodup_placeOf⟩
  have trees := g.nodup_paths_treeFiles sources
  have types : (g.typeFiles.map OutputFile.path).Nodup ↔ _ := g.skeleton.nodup_paths_files agents names homely
  rw [allFiles, map_append, nodup_append', types, ← g.treesApart_iff, and_iff_right trees, and_assoc]

/-- Agents by namespace and by location, an enum in the shared file, and an enum and a struct of the same basic
name at different locations. -/
def garrison : Generation where
  catalog := {
    agents := [{ name := "game::Guard" }, { name := "Guard" },
      { name := "ai::Guard", location := some "posts" }]
    enums := [{ name := "Color" }, { name := "game::Mood", location := some "/moods/" }]
    structs := [{ name := "Mood", location := some "game" }] }
  config := { fileMode := .perBehavior }

def treeAt (path : String) : Behavior := { name := "Tree", path, agentType := agentBase }

theorem paths_nodup_iff_garrison :
    let bs := [treeAt "types/Guard.xml", treeAt "Guard.xml"]
    (bs.map Behavior.sourceName).Nodup ∧ (garrison.catalog.agents.map AgentType.name).Nodup ∧
    (∀ h ∈ garrison.skeleton.namedHomes ++ garrison.skeleton.placedHomes, '/' ∉ h.name.toList) ∧
    (∀ a ∈ garrison.skeleton.namedAgents, Skeleton.IsHomely a.name) ∧
    (∀ f ∈ garrison.allFiles bs, Publish.IsDirect f.path) ∧
    ((garrison.allFiles bs).map Publish.placeOf).Nodup := by
  intro bs
  have sources : (bs.map Behavior.sourceName).Nodup := by decide
  have agents : (garrison.catalog.agents.map AgentType.name).Nodup := by decide
  have names : ∀ h ∈ garrison.skeleton.namedHomes ++ garrison.skeleton.placedHomes, '/' ∉ h.name.toList := by
    decide +kernel
  have homely : ∀ a ∈ garrison.skeleton.namedAgents, Skeleton.IsHomely a.name := by decide +kernel
  have direct : ∀ f ∈ garrison.allFiles bs, Publish.IsDirect f.path := by decide +kernel
  obtain ⟨paths, apart, places⟩ := paths_nodup_iff garrison bs sources agents names homely
  have others : ∀ h ∈ garrison.skeleton.namedHomes, h ∉ garrison.skeleton.placedHomes := by decide +kernel
  refine ⟨sources, agents, names, homely, direct, (places direct).mpr (paths.mpr ⟨?_, others, apart ?_⟩)⟩
  · decide +kernel
  · decide

/-- Trees of different paths and types of different names of which one file has the path of another. -/
def Overwrites (g : Generation) (bs : List Behavior) : Prop :=
  (bs.map Behavior.sourceName).Nodup ∧
  (g.catalog.agents.map AgentType.name ++ g.catalog.enums.map EnumType.name
    ++ g.catalog.structs.map StructType.name).Nodup ∧
  ¬ ((g.allFiles bs).map OutputFile.path).Nodup

instance (g : Generation) (bs : List Behavior) : Decidable (Overwrites g bs) :=
  inferInstanceAs (Decidable (_ ∧ _))

/-- An agent type may be named like the shared file, be placed where a namespace leads, have an empty namespace
or a slash in its name, and the folder of the types may be that of the trees. -/
theorem files_overwritten :
    Overwrites { catalog := { agents := [{ name := "customized_types" }], enums := [{ name := "Color" }] } }
      [treeAt "Patrol.xml"] ∧
    Overwrites { catalog := { agents := [{ name := "game::Guard" },
      { name := "Guard", location := some "game" }] } } [treeAt "Patrol.xml"] ∧
    Overwrites { catalog := { agents := [{ name := "Guard" }, { name := "::Guard" }] } }
      [treeAt "Patrol.xml"] ∧
    Overwrites { catalog := { agents := [{ name := "game::Guard" }, { name := "game/Guard" }] } }
      [treeAt "Patrol.xml"] ∧
    Overwrites { catalog := { agents := [{ name := "Guard" }] }
                 config := { fileMode := .perBehavior, behaviorsFolder := "types" } }
      [treeAt "Guard.xml"] := by
  decide +kernel

end Generation

end GoTrees
