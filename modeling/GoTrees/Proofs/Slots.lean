import GoTrees.Emit.Operand
import GoTrees.Proofs.Names

/-!
# Slots and their names

Every operand has a slot, and its temporaries are named from it. A slot is made longer by one turn at a
time: `P` and a number for an argument, `Index`, `Out` and `Ret`. The turns are told apart by their first
letters, and these letters end a number, so slots form a tree: two slots that a name extends lie on one
branch. A name belongs to a slot if it extends the slot or the agent of the slot. Slots on different
branches share no names.
-/

namespace GoTrees

open List

variable {a b k y s : String}

namespace Slot

/-- The letters that a turn starts with. -/
def isTurn (c : Char) : Bool := c == 'P' || c == 'I' || c == 'O' || c == 'R'

/-- Some turns, or none. -/
def Turns (r : List Char) : Prop := r.head?.all isTurn = true

instance (r : List Char) : Decidable (Turns r) := inferInstanceAs (Decidable (_ = true))

/-- The second slot is the first one with some turns behind it. -/
def Under (a b : String) : Prop := ∃ r, Turns r ∧ b.toList = a.toList ++ r

theorem under_iff :
    Under a b ↔ a.toList <+: b.toList ∧ Turns (b.toList.drop a.toList.length) := by
  constructor
  · rintro ⟨r, turns, h⟩
    rw [h, drop_left]
    exact ⟨prefix_append _ _, turns⟩
  · rintro ⟨⟨r, h⟩, turns⟩
    rw [← h, drop_left] at turns
    exact ⟨r, turns, h.symm⟩

instance (a b : String) : Decidable (Under a b) := decidable_of_iff _ under_iff.symm

theorem Under.refl (a : String) : Under a a := ⟨[], rfl, (List.append_nil _).symm⟩

theorem turns_append {r t : List Char} (hr : Turns r) (ht : Turns t) : Turns (r ++ t) := by
  cases r with
  | nil => exact ht
  | cons c r => exact hr

theorem Under.trans {c : String} (hab : Under a b) (hbc : Under b c) : Under a c := by
  obtain ⟨r, turns, hb⟩ := hab
  obtain ⟨t, turns', hc⟩ := hbc
  exact ⟨r ++ t, turns_append turns turns', by rw [hc, hb, List.append_assoc]⟩

theorem under_append (turns : Turns k.toList) : Under a (a ++ k) :=
  ⟨k.toList, turns, String.toList_append⟩

theorem Under.length_le (h : Under a b) : a.toList.length ≤ b.toList.length := by
  obtain ⟨r, _, hb⟩ := h
  simp [hb]

/-- Slots that a name extends lie on one branch. -/
theorem Under.comparable (ha : Under a y) (hb : Under b y) :
    Under a b ∨ Under b a := by
  obtain ⟨r, turns, hr⟩ := ha
  obtain ⟨t, turns', ht⟩ := hb
  -- one slot is the front of the other, and what it lacks starts as what the name has behind it
  rcases append_eq_append_iff.mp (hr.symm.trans ht) with ⟨u, hb, hu⟩ | ⟨u, ha, hu⟩
  · refine .inl ⟨u, ?_, hb⟩
    cases u with
    | nil => rfl
    | cons c u => rw [hu] at turns; exact turns
  · refine .inr ⟨u, ?_, ha⟩
    cases u with
    | nil => rfl
    | cons c u => rw [hu] at turns'; exact turns'

/-! ### Names of a slot -/

/-- The variable that holds the agent of a slot. -/
def agent (s : String) : String := "pAgent_" ++ s

/-- The name belongs to the slot. -/
def Owns (s y : String) : Prop := Under s y ∨ Under (agent s) y

instance (s y : String) : Decidable (Owns s y) := inferInstanceAs (Decidable (_ ∨ _))

theorem Owns.refl (s : String) : Owns s s := .inl (.refl s)

theorem under_append_left : Under (s ++ a) (s ++ b) ↔ Under a b := by
  simp [Under, String.toList_append, List.append_assoc]

theorem Owns.shorten (hab : Under a b) (h : Owns b y) : Owns a y :=
  h.imp hab.trans (under_append_left.mpr hab).trans

/-- The slots lie on different branches. -/
def Apart (a b : String) : Prop := ¬ Under a b ∧ ¬ Under b a

instance (a b : String) : Decidable (Apart a b) := inferInstanceAs (Decidable (_ ∧ _))

theorem apart_append_left : Apart (s ++ a) (s ++ b) ↔ Apart a b := by
  rw [Apart, Apart, under_append_left, under_append_left]

/-- The slot has a first letter, which is not that of the variables of agents. -/
def Plain (s : String) : Prop := s.toList.head?.any (· != 'p') = true

instance (s : String) : Decidable (Plain s) := inferInstanceAs (Decidable (_ = true))

theorem Plain.append (plain : Plain s) (k : String) : Plain (s ++ k) := by
  rw [Plain, String.toList_append] at *
  cases h : s.toList with
  | nil => simp [h] at plain
  | cons c cs => simpa [h] using plain

theorem Plain.apart_agent (plain : Plain a) (b : String) : Apart a (agent b) := by
  have first : (agent b).toList = 'p' :: ("Agent_".toList ++ b.toList) := String.toList_append
  rw [Plain] at plain
  constructor
  · rintro ⟨r, _, h⟩
    rw [first] at h
    cases ha : a.toList with
    | nil => simp [ha] at plain
    | cons c cs =>
      rw [ha, cons_append, List.cons.injEq] at h
      simp [ha, ← h.1] at plain
  · rintro ⟨r, _, h⟩
    rw [h, first] at plain
    simp at plain

/-- Slots on different branches share no names. -/
theorem Owns.not_owns (plainA : Plain a) (plainB : Plain b) (apart : Apart a b)
    (ha : Owns a y) : ¬ Owns b y := by
  intro hb
  -- a name of a slot and a name of an agent differ in their first letters
  rcases ha with ha | ha <;> rcases hb with hb | hb
  · exact (ha.comparable hb).elim apart.1 apart.2
  · exact (ha.comparable hb).elim (plainA.apart_agent b).1 (plainA.apart_agent b).2
  · exact (hb.comparable ha).elim (plainB.apart_agent a).1 (plainB.apart_agent a).2
  · exact (ha.comparable hb).elim (apart.1 ∘ under_append_left.mp) (apart.2 ∘ under_append_left.mp)

/-! ### Turns -/

theorem apart_of_head {l : String} {c d : Char} (hk : k.toList.head? = some c)
    (hl : l.toList.head? = some d) (ne : c ≠ d) : Apart k l := by
  obtain ⟨ks, hk⟩ := head?_eq_some_iff.mp hk
  obtain ⟨ls, hl⟩ := head?_eq_some_iff.mp hl
  constructor
  · rintro ⟨r, _, h⟩
    simp_all
  · rintro ⟨r, _, h⟩
    simp_all

/-- The turn to an argument. -/
def argument (i : Nat) : String := "P" ++ toString i

theorem toList_argument (i : Nat) : (argument i).toList = 'P' :: (toString i).toList :=
  String.toList_append

theorem head_argument (i : Nat) : (argument i).toList.head? = some 'P' := by
  rw [toList_argument, head?_cons]

theorem argSlot_eq (s : String) (i : Nat) : Context.argSlot s i = s ++ argument i :=
  String.append_assoc

theorem not_under_argument {i j : Nat} (ne : i ≠ j) : ¬ Under (argument i) (argument j) := by
  rintro ⟨r, turns, h⟩
  rw [toList_argument, toList_argument, cons_append, List.cons.injEq] at h
  cases r with
  | nil => exact ne (Nat.repr_injective (String.toList_inj.mp (by simpa using h.2.symm)))
  | cons c r =>
    -- a turn would have to start with a digit
    have digit : c.isDigit = true := isDigit_of_mem_toString (n := j) (by rw [h.2]; simp)
    have letter : isTurn c = true := turns
    simp only [isTurn, Bool.or_eq_true, beq_iff_eq] at letter
    rcases letter with ((rfl | rfl) | rfl) | rfl <;> exact absurd digit (by decide)

theorem apart_argument {i j : Nat} (ne : i ≠ j) : Apart (argument i) (argument j) :=
  ⟨not_under_argument ne, not_under_argument ne.symm⟩

/-- The names of an operand apart from the slot: of its agent, its index and its arguments. -/
def Temporary (s y : String) : Prop :=
  y = agent s ∨ Owns (s ++ "Index") y ∨ ∃ i, Owns (s ++ argument i) y

theorem owns_agent (s : String) : Owns s (agent s) := .inr (.refl _)

theorem turns_argument (i : Nat) : Turns (argument i).toList := by
  rw [Turns, head_argument]
  rfl

theorem Temporary.owns : Temporary s y → Owns s y
  | .inl h => h ▸ owns_agent s
  | .inr (.inl h) => h.shorten (under_append (by decide))
  | .inr (.inr ⟨i, h⟩) => h.shorten (under_append (turns_argument i))

theorem not_under_append (turn : k ≠ "") : ¬ Under (s ++ k) s := by
  intro h
  have shorter := h.length_le
  rw [String.toList_append, length_append] at shorter
  have empty : k.toList = [] := length_eq_zero_iff.mp (by omega)
  exact turn (String.toList_eq_nil_iff.mp empty)

theorem not_owns_self (plain : Plain s) (turn : k ≠ "") : ¬ Owns (s ++ k) s
  | .inl h => not_under_append turn h
  | .inr h => (plain.apart_agent (s ++ k)).2 h

theorem not_owns_agent (plain : Plain s) (turn : k ≠ "") :
    ¬ Owns (s ++ k) (agent s)
  | .inl h => ((plain.append k).apart_agent s).1 h
  | .inr h => not_under_append turn (under_append_left.mp h)

theorem argument_ne (i : Nat) : argument i ≠ "" := by
  intro h
  have head := head_argument i
  rw [h] at head
  cases head

/-- A name of an operand does not belong to another turn of its slot. -/
theorem Temporary.not_owns {c : Char} (plain : Plain s)
    (head : k.toList.head? = some c) (hi : c ≠ 'I') (hp : c ≠ 'P') (h : Temporary s y) :
    ¬ Owns (s ++ k) y := by
  rcases h with rfl | h | ⟨i, h⟩
  · exact not_owns_agent plain (by rintro rfl; cases head)
  · exact h.not_owns (plain.append _) (plain.append _)
      (apart_append_left.mpr (apart_of_head rfl head hi.symm))
  · exact h.not_owns (plain.append _) (plain.append _)
      (apart_append_left.mpr (apart_of_head (head_argument i) head hp.symm))

theorem Temporary.ne (plain : Plain s) (h : Temporary s y) : y ≠ s := by
  rintro rfl
  rcases h with h | h | ⟨i, h⟩
  · exact (plain.apart_agent y).1 (h ▸ .refl y)
  · exact not_owns_self plain (by decide) h
  · exact not_owns_self plain (argument_ne i) h

end Slot

end GoTrees
