import GoTrees.Proofs.Resolution
import Mathlib.Data.Finset.Card

/-!
# Inherited members

A member of an agent type is its own or that of the nearest base that has one. Each base is looked up by
its name, which may lead back to an agent type that was met before, so that the chain of bases need not end:

    Guard ──▶ Soldier ──▶ Unit ──▶ Soldier ──▶ ...

The lookup follows the chain for one agent type more than the catalog has. By then one has been met twice,
and from there on the chain only repeats itself. So nothing that is further up is missed.
-/

namespace GoTrees.Catalog

open List

variable {i : Nat}

variable {c : Catalog} {cls name : String}

/-! ### The chain of bases -/

/-- The agent type that a name stands for: the first that has this very name, or, if there is none, the
first that has the same basic name. -/
inductive Resolves (c : Catalog) (name : String) (a : AgentType) : Prop
  | exactly (found : c.agents.find? (fun b => b.name == name) = some a)
  | basically (other : ∀ b ∈ c.agents, b.name ≠ name)
      (found : c.agents.find? (fun b => basicName b.name == basicName name) = some a)

/-- The agent type that stands so many steps above a class: the class itself, its base, the base of that,
and so on. -/
inductive Ancestor (c : Catalog) (cls : String) : Nat → AgentType → Prop
  | itself {a : AgentType} (found : c.Resolves cls a) : Ancestor c cls 0 a
  | above {i : Nat} {a b : AgentType} (h : Ancestor c cls i a) (found : c.Resolves a.base b) :
      Ancestor c cls (i + 1) b

theorem agent?_eq_some_iff {a : AgentType} : c.agent? name = some a ↔ c.Resolves name a := by
  rw [agent?, findNamed?]
  cases named : c.agents.find? fun b => b.name == name with
  | some b =>
    refine ⟨fun h => .exactly (named.trans h), fun h => ?_⟩
    cases h with
    | exactly found => exact named.symm.trans found
    | basically other found =>
      exact absurd (by simpa using find?_some named) (other b (mem_of_find?_eq_some named))
  | none =>
    have other : ∀ b ∈ c.agents, b.name ≠ name := by simpa using named
    refine ⟨fun h => .basically other h, fun h => ?_⟩
    cases h with
    | exactly found => exact absurd (named.symm.trans found) (by simp)
    | basically _ found => exact found

/-- The chain of bases as a function: no agent type once a base is not found. -/
def ancestor? (c : Catalog) (cls : String) : Nat → Option AgentType
  | 0 => c.agent? cls
  | i + 1 => (c.ancestor? cls i).bind fun a => c.agent? a.base

theorem ancestor?_eq_some_iff {a : AgentType} : c.ancestor? cls i = some a ↔ c.Ancestor cls i a := by
  induction i generalizing a with
  | zero =>
    rw [ancestor?, agent?_eq_some_iff]
    refine ⟨.itself, fun h => ?_⟩
    cases h with
    | itself found => exact found
  | succ i ih =>
    rw [ancestor?, Option.bind_eq_some_iff]
    constructor
    · rintro ⟨b, below, found⟩
      exact .above (ih.mp below) (agent?_eq_some_iff.mp found)
    · intro h
      cases h with
      | above below found => exact ⟨_, ih.mpr below, agent?_eq_some_iff.mpr found⟩

theorem Ancestor.unique {a b : AgentType} (ha : c.Ancestor cls i a) (hb : c.Ancestor cls i b) : a = b :=
  Option.some.inj ((ancestor?_eq_some_iff.mpr ha).symm.trans (ancestor?_eq_some_iff.mpr hb))

/-- The chain of a class is the class and then the chain of its base. -/
theorem ancestor?_succ (i : Nat) :
    c.ancestor? cls (i + 1) = (c.agent? cls).bind fun a => c.ancestor? a.base i := by
  induction i with
  | zero => rfl
  | succ i ih =>
    rw [ancestor?, ih, Option.bind_assoc]
    rfl

theorem getElem?_chain (n i : Nat) (cls : String) :
    (c.chain n (c.agent? cls))[i]? = if i < n then c.ancestor? cls i else none := by
  induction n generalizing cls i with
  | zero => simp [chain]
  | succ n ih =>
    cases i with
    | zero => cases found : c.agent? cls <;> simp [chain, ancestor?, found]
    | succ i => cases found : c.agent? cls <;> simp [chain, ancestor?_succ, found, ih]

theorem getElem?_lineage_eq_some {a : AgentType} :
    (c.lineage cls)[i]? = some a ↔ i ≤ c.agents.length ∧ c.Ancestor cls i a := by
  rw [lineage, getElem?_chain, ← ancestor?_eq_some_iff, ← Nat.lt_succ_iff]
  split <;> simp [*]

/-! ### The chain repeats itself -/

theorem mem_agents_of_ancestor? {a : AgentType} (h : c.ancestor? cls i = some a) : a ∈ c.agents := by
  cases i with
  | zero => exact mem_of_findNamed? h
  | succ i =>
    obtain ⟨b, -, found⟩ := Option.bind_eq_some_iff.mp h
    exact mem_of_findNamed? found

theorem exists_ancestor?_of_le {j : Nat} (le : j ≤ i) {a : AgentType} (h : c.ancestor? cls i = some a) :
    ∃ b, c.ancestor? cls j = some b := by
  induction le generalizing a with
  | refl => exact ⟨a, h⟩
  | step _ ih =>
    obtain ⟨b, below, -⟩ := Option.bind_eq_some_iff.mp h
    exact ih below

/-- Once the chain is back at an agent type, it goes on as it did from there. -/
theorem ancestor?_add {j k : Nat} (same : c.ancestor? cls j = c.ancestor? cls k) (m : Nat) :
    c.ancestor? cls (j + m) = c.ancestor? cls (k + m) := by
  induction m with
  | zero => exact same
  | succ m ih => rw [← Nat.add_assoc, ← Nat.add_assoc, ancestor?, ancestor?, ih]

/-- A chain that is longer than the catalog meets an agent type twice, by the pigeonhole principle. -/
theorem exists_ancestor?_eq (long : c.agents.length ≤ i) {a : AgentType}
    (h : c.ancestor? cls i = some a) :
    ∃ j k, j < k ∧ k ≤ c.agents.length ∧ c.ancestor? cls j = c.ancestor? cls k := by
  have few : (c.agents.map some).toFinset.card < (Finset.range (c.agents.length + 1)).card := by
    rw [Finset.card_range]
    exact Nat.lt_succ_of_le ((toFinset_card_le _).trans_eq (length_map _))
  have within : ∀ j ∈ Finset.range (c.agents.length + 1), c.ancestor? cls j ∈
      (c.agents.map some).toFinset := by
    intro j hj
    obtain ⟨b, hb⟩ := exists_ancestor?_of_le (Nat.le_trans (Nat.le_of_lt_succ (Finset.mem_range.mp hj)) long) h
    rw [hb, mem_toFinset]
    exact mem_map_of_mem (mem_agents_of_ancestor? hb)
  obtain ⟨j, hj, k, hk, differ, same⟩ := Finset.exists_ne_map_eq_of_card_lt_of_maps_to few within
  rw [Finset.mem_range] at hj hk
  rcases Nat.lt_or_gt_of_ne differ with lt | gt
  · exact ⟨j, k, lt, Nat.le_of_lt_succ hk, same⟩
  · exact ⟨k, j, gt, Nat.le_of_lt_succ hj, same.symm⟩

/-- Every agent type of the chain is among the first of it, as many as the catalog has. -/
theorem Ancestor.exists_lt {a : AgentType} (h : c.Ancestor cls i a) :
    ∃ j < c.agents.length, c.Ancestor cls j a := by
  simp only [← ancestor?_eq_some_iff] at h ⊢
  induction i using Nat.strongRecOn with
  | ind i ih =>
    by_cases short : i < c.agents.length
    · exact ⟨i, short, h⟩
    · obtain ⟨j, k, lt, le, same⟩ := exists_ancestor?_eq (Nat.le_of_not_lt short) h
      -- leave one round out
      have round := ancestor?_add same (i - k)
      rw [Nat.add_sub_cancel' (by omega), h] at round
      exact ih (j + (i - k)) (by omega) round

/-! ### Lookup along the chain -/

section Lookup

variable {β : Type} {f : AgentType → Option β}

theorem mem_lineage {a : AgentType} : a ∈ c.lineage cls ↔ ∃ i, c.Ancestor cls i a := by
  rw [mem_iff_getElem?]
  constructor
  · rintro ⟨i, h⟩
    exact ⟨i, (getElem?_lineage_eq_some.mp h).2⟩
  · rintro ⟨i, h⟩
    obtain ⟨j, lt, h⟩ := h.exists_lt
    exact ⟨j, getElem?_lineage_eq_some.mpr ⟨lt.le, h⟩⟩

theorem findSome?_lineage_eq_none :
    (c.lineage cls).findSome? f = none ↔ ∀ i a, c.Ancestor cls i a → f a = none := by
  simp only [findSome?_eq_none_iff, mem_lineage]
  exact ⟨fun h i a ha => h a ⟨i, ha⟩, fun h a ⟨i, ha⟩ => h i a ha⟩

theorem first_of_findSome?_lineage {m : β} (found : (c.lineage cls).findSome? f = some m) :
    ∃ i a, c.Ancestor cls i a ∧ f a = some m ∧ ∀ j < i, ∀ b, c.Ancestor cls j b → f b = none := by
  obtain ⟨front, a, back, parts, fits, unfit⟩ := findSome?_eq_some_iff.mp found
  have here : (c.lineage cls)[front.length]? = some a := by simp [parts]
  obtain ⟨short, at_front⟩ := getElem?_lineage_eq_some.mp here
  refine ⟨front.length, a, at_front, fits, fun j lt b at_j => unfit b ?_⟩
  have there : (c.lineage cls)[j]? = some b := getElem?_lineage_eq_some.mpr ⟨by omega, at_j⟩
  rw [parts, getElem?_append_left lt] at there
  exact mem_of_getElem? there

/-- A search along the lineage finds the nearest ancestor that has an answer. -/
theorem findSome?_lineage_eq_some {m : β} :
    (c.lineage cls).findSome? f = some m ↔
      ∃ i a, c.Ancestor cls i a ∧ f a = some m ∧ ∀ j < i, ∀ b, c.Ancestor cls j b → f b = none := by
  refine ⟨first_of_findSome?_lineage, ?_⟩
  rintro ⟨i, a, at_i, fits, unfit⟩
  cases found : (c.lineage cls).findSome? f with
  | none =>
    rw [findSome?_lineage_eq_none.mp found i a at_i] at fits
    cases fits
  | some m' =>
    obtain ⟨j, b, at_j, fits', unfit'⟩ := first_of_findSome?_lineage found
    -- both are the first one, so neither is before the other
    rcases Nat.lt_trichotomy i j with lt | rfl | gt
    · rw [unfit' i lt a at_i] at fits
      cases fits
    · rw [← fits, ← fits', at_i.unique at_j]
    · rw [unfit j gt b at_j] at fits'
      cases fits'

end Lookup

/-- Lookup finds the first matching member of the first agent type on the chain of bases that has one, and
finds none exactly if there is none on all of the chain. -/
theorem inherited_lookup (c : Catalog) (cls name : String) :
    (∀ p, c.property? cls name = some p ↔
      ∃ i a, c.Ancestor cls i a ∧ a.properties.find? (fun q => q.basicName == name) = some p ∧
        ∀ j < i, ∀ b, c.Ancestor cls j b → ∀ q ∈ b.properties, q.basicName ≠ name) ∧
    (c.property? cls name = none ↔ ∀ i a, c.Ancestor cls i a → ∀ q ∈ a.properties, q.basicName ≠ name) ∧
    (∀ m, c.method? cls name = some m ↔
      ∃ i a, c.Ancestor cls i a ∧ a.methods.find? (fun n => n.name == name) = some m ∧
        ∀ j < i, ∀ b, c.Ancestor cls j b → ∀ n ∈ b.methods, n.name ≠ name) ∧
    (c.method? cls name = none ↔ ∀ i a, c.Ancestor cls i a → ∀ n ∈ a.methods, n.name ≠ name) := by
  have property (a : AgentType) :
      propertyIn? a.properties name = none ↔ ∀ q ∈ a.properties, q.basicName ≠ name := by
    simp [propertyIn?]
  have method (a : AgentType) :
      (a.methods.find? fun n => n.name == name) = none ↔ ∀ n ∈ a.methods, n.name ≠ name := by
    simp
  refine ⟨fun p => ?_, ?_, fun m => ?_, ?_⟩
  · simp only [property?, findSome?_lineage_eq_some, property]
    rfl
  · simp only [property?, findSome?_lineage_eq_none, property]
  · simp only [method?, findSome?_lineage_eq_some, method]
  · simp only [method?, findSome?_lineage_eq_none, method]

/-- The default base of `game::Agent` is `behaviac::Agent`, which by its basic name is `game::Agent` again. -/
example :
    let c : Catalog := {
      agents := [{ name := "Guard" }, { name := "game::Agent", methods := [{ name := "rest" }] }] }
    c.method? "Guard" "rest" = some { name := "rest" } ∧ c.method? "Guard" "patrol" = none := by
  decide +kernel

end GoTrees.Catalog
