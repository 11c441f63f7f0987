import GoTrees.Proofs.ShortestDecimals

/-!
# Number literals of Go

A number literal of Go has digits, perhaps with a point among them and an exponent behind them. Digits
alone are decimal unless they start with a zero, then those after the zero are octal. A sign in front is an
operator. Literals in other bases and with underscores are left out: no text that is read as a number has them.

    10   +10   1.   .5   01.5   010e1     decimal
    010   007                             octal
    08   1.5f   inf                       no literals

A number in text is a literal for what it is read as, if it has no marks behind it, is finite, and is not
taken for octal. Octal digits stand for less than decimal ones by an eighth at least, if they stand for
eight or more.
-/

namespace GoTrees

open Text Numeral List

variable {cs ds : List Char}

/-! ### The grammar -/

namespace Go

/-- A number with a sign in front of it. -/
def signed {α : Type} [Neg α] (negative : Bool) (a : α) : α := if negative then -a else a

/-- The exponent behind the digits of a number, if there is one. -/
inductive Exponent : List Char → ℤ → Prop
  | absent : Exponent [] 0
  | present {mark : Char} {cs : List Char} (letter : mark = 'e' ∨ mark = 'E') (filled : (takeSign cs).2 ≠ [])
      (digits : ∀ c ∈ (takeSign cs).2, isDigit c = true) :
      Exponent (mark :: cs) (signed (takeSign cs).1 (ofDigits (takeSign cs).2 : ℤ))

def isOctal (c : Char) : Bool := '0' ≤ c && c ≤ '7'

/-- A number literal and the number that it stands for. -/
inductive Number : List Char → ℚ → Prop
  | decimal {ds : List Char} (filled : ds ≠ []) (digits : ∀ c ∈ ds, isDigit c = true)
      (lead : ds.head? = some '0' → ds = ['0']) : Number ds (ofDigits ds)
  | octal {ds : List Char} (filled : ds ≠ []) (digits : ∀ c ∈ ds, isOctal c = true) :
      Number ('0' :: ds) (Nat.ofDigitChars 8 ds 0)
  | point {whole fraction exponent : List Char} {k : ℤ} (filled : whole ≠ [] ∨ fraction ≠ [])
      (whole_digits : ∀ c ∈ whole, isDigit c = true) (fraction_digits : ∀ c ∈ fraction, isDigit c = true)
      (scale : Exponent exponent k) :
      Number (whole ++ '.' :: fraction ++ exponent) (ofDigits (whole ++ fraction) * 10 ^ (k - fraction.length))
  | scaled {whole exponent : List Char} {k : ℤ} (filled : whole ≠ []) (digits : ∀ c ∈ whole, isDigit c = true)
      (scale : Exponent exponent k) (marked : exponent ≠ []) : Number (whole ++ exponent)
      (ofDigits whole * 10 ^ k)

/-- A number literal with an optional sign, and the constant that it stands for. -/
def Constant (cs : List Char) (q : ℚ) : Prop :=
  ∃ magnitude, Number (takeSign cs).2 magnitude ∧ q = signed (takeSign cs).1 magnitude

/-! ### Characters of a literal -/

/-- A character that a number literal can have. -/
def IsNumberChar (c : Char) : Prop := isDigit c = true ∨ c ∈ ['+', '-', '.', 'e', 'E']

theorem chars_of_takeSign (h : ∀ c ∈ (takeSign cs).2, IsNumberChar c) : ∀ c ∈ cs, IsNumberChar c := by
  unfold takeSign at h
  split at h
  · exact forall_mem_cons.mpr ⟨.inr (by decide), h⟩
  · exact forall_mem_cons.mpr ⟨.inr (by decide), h⟩
  · exact h

theorem Exponent.chars {k : ℤ} (h : Exponent cs k) : ∀ c ∈ cs, IsNumberChar c := by
  cases h with
  | absent => rintro _ ⟨⟩
  | present letter _ digits =>
    refine forall_mem_cons.mpr ⟨.inr ?_, chars_of_takeSign fun c hc => .inl (digits c hc)⟩
    rcases letter with rfl | rfl <;> decide

theorem isDigit_of_isOctal {c : Char} (h : isOctal c = true) : isDigit c = true := by
  simp only [isOctal, isDigit, Bool.and_eq_true, decide_eq_true_eq, char_le_iff] at h ⊢
  exact ⟨h.1, h.2.trans (by decide)⟩

theorem Number.chars {q : ℚ} (h : Number cs q) : ∀ c ∈ cs, IsNumberChar c := by
  cases h with
  | decimal _ digits => exact fun c hc => .inl (digits c hc)
  | octal _ digits =>
    exact forall_mem_cons.mpr ⟨.inl (by decide), fun c hc => .inl (isDigit_of_isOctal (digits c hc))⟩
  | point _ whole fraction scale =>
    rw [forall_mem_append, forall_mem_append, forall_mem_cons]
    exact ⟨⟨fun c hc => .inl (whole c hc), .inr (by decide), fun c hc => .inl (fraction c hc)⟩, scale.chars⟩
  | scaled _ digits scale =>
    rw [forall_mem_append]
    exact ⟨fun c hc => .inl (digits c hc), scale.chars⟩

theorem Constant.chars {q : ℚ} (h : Constant cs q) : ∀ c ∈ cs, IsNumberChar c := by
  obtain ⟨magnitude, number, -⟩ := h
  exact chars_of_takeSign number.chars

theorem Number.nonneg {q : ℚ} (h : Number cs q) : 0 ≤ q := by
  cases h <;> positivity

/-! ### Digits alone -/

theorem toNat_of_isOctal {c : Char} (h : isOctal c = true) : c.toNat - '0'.toNat < 8 := by
  simp only [isOctal, Bool.and_eq_true, decide_eq_true_eq, char_le_iff] at h
  have : c.toNat ≤ 55 := h.2
  have zero : '0'.toNat = 48 := rfl
  omega

theorem ofDigits_concat (ds : List Char) (d : Char) :
    ofDigits (ds ++ [d]) = 10 * ofDigits ds + (d.toNat - '0'.toNat) := by
  simp [ofDigits]

theorem ofOctal_concat (ds : List Char) (d : Char) :
    Nat.ofDigitChars 8 (ds ++ [d]) 0 = 8 * Nat.ofDigitChars 8 ds 0 + (d.toNat - '0'.toNat) := by
  simp [Nat.ofDigitChars]

/-- Digits that stand for less than eight stand for the same in base eight. -/
theorem octal_of_lt (digits : ∀ c ∈ ds, isDigit c = true) (small : ofDigits ds < 8) :
    (∀ c ∈ ds, isOctal c = true) ∧ Nat.ofDigitChars 8 ds 0 = ofDigits ds := by
  induction ds using List.reverseRecOn with
  | nil => exact ⟨forall_mem_nil _, rfl⟩
  | append_singleton ds d ih =>
    rw [forall_mem_append, forall_mem_singleton] at digits ⊢
    rw [ofDigits_concat] at small
    obtain ⟨octal, same⟩ := ih digits.1 (by omega)
    have range := toNat_of_isDigit digits.2
    have zero : '0'.toNat = 48 := rfl
    refine ⟨⟨octal, ?_⟩, by rw [ofOctal_concat, ofDigits_concat, same]; omega⟩
    simp only [isOctal, Bool.and_eq_true, decide_eq_true_eq, char_le_iff]
    have seven : '7'.toNat = 55 := rfl
    omega

/-- Octal digits stand for no more than in base ten, but for something if they do there. -/
theorem octal_le (octal : ∀ c ∈ ds, isOctal c = true) :
    Nat.ofDigitChars 8 ds 0 ≤ ofDigits ds ∧ (0 < ofDigits ds → 0 < Nat.ofDigitChars 8 ds 0) := by
  induction ds using List.reverseRecOn with
  | nil => exact ⟨le_rfl, id⟩
  | append_singleton ds d ih =>
    rw [forall_mem_append] at octal
    obtain ⟨le, pos⟩ := ih octal.1
    rw [ofDigits_concat, ofOctal_concat]
    omega

/-- Octal digits that stand for eight or more stand for more by an eighth in base ten. -/
theorem octal_of_ge (octal : ∀ c ∈ ds, isOctal c = true) (large : 8 ≤ ofDigits ds) :
    8 ≤ Nat.ofDigitChars 8 ds 0 ∧ 9 * Nat.ofDigitChars 8 ds 0 ≤ 8 * ofDigits ds := by
  rcases eq_nil_or_concat' ds with rfl | ⟨front, d, rfl⟩
  · simp [ofDigits] at large
  · rw [forall_mem_append, forall_mem_singleton] at octal
    obtain ⟨le, pos⟩ := octal_le octal.1
    have digit := toNat_of_isOctal octal.2
    rw [ofDigits_concat] at large ⊢
    rw [ofOctal_concat]
    omega

/-- Without a sign, the text does not start with a zero, or nothing is left behind the zero that stands for
eight or more. -/
def ReadsDecimal (cs : List Char) : Prop :=
  ∀ ds, cs = '0' :: ds → (∀ c ∈ ds, isDigit c = true) → ofDigits ds < 8

theorem digits_of_not_readsDecimal (h : ¬ ReadsDecimal cs) : ∀ c ∈ cs, isDigit c = true := by
  rw [ReadsDecimal] at h
  push Not at h
  obtain ⟨ds, rfl, digits, -⟩ := h
  exact forall_mem_cons.mpr ⟨by decide, digits⟩

theorem ofDigits_cons_zero (ds : List Char) : ofDigits ('0' :: ds) = ofDigits ds := rfl

/-- Digits are a literal for what they stand for, unless they are taken for octal. -/
theorem number_of_readsDecimal (filled : ds ≠ []) (digits : ∀ c ∈ ds, isDigit c = true)
    (decimal : ReadsDecimal ds) : Number ds (ofDigits ds) := by
  by_cases lead : ds.head? = some '0' → ds = ['0']
  · exact .decimal filled digits lead
  · rw [Classical.not_imp] at lead
    obtain ⟨es, rfl⟩ : ∃ es, ds = '0' :: es := by
      cases ds with
      | nil => cases lead.1
      | cons d es => exact ⟨es, by rw [Option.some.inj lead.1]⟩
    rw [forall_mem_cons] at digits
    obtain ⟨octal, same⟩ := octal_of_lt digits.2 (decimal es rfl digits.2)
    rw [ofDigits_cons_zero, ← same]
    exact .octal (fun none => lead.2 (by rw [none])) octal

/-- Digits are decimal without a zero in front, and octal behind one. -/
theorem Number.of_digits {q : ℚ} (digits : ∀ c ∈ ds, isDigit c = true) (h : Number ds q) :
    (ds.head? = some '0' → ds = ['0']) ∧ q = ofDigits ds ∨
      ∃ es, es ≠ [] ∧ (∀ c ∈ es, isOctal c = true) ∧ ds = '0' :: es ∧ q = Nat.ofDigitChars 8 es 0 := by
  have none {c : Char} (hc : c ∈ ds) (other : isDigit c = false) : False :=
    absurd (digits c hc) (by rw [other]; exact Bool.false_ne_true)
  cases h with
  | decimal _ _ lead => exact .inl ⟨lead, rfl⟩
  | octal filled octal => exact .inr ⟨_, filled, octal, rfl, rfl⟩
  | point => exact (none (c := '.') (by simp) (by decide)).elim
  | scaled filled _ scale marked =>
    cases scale with
    | absent => exact absurd rfl marked
    | @present mark cs letter =>
      refine (none (c := mark) (by simp) ?_).elim
      rcases letter with rfl | rfl <;> decide

/-- Digits that are taken for octal stand for less than they do in base ten. -/
theorem Number.readsDecimal_or_less {q : ℚ} (digits : ∀ c ∈ ds, isDigit c = true) (h : Number ds q) :
    ReadsDecimal ds ∧ q = ofDigits ds ∨ ∃ n : ℕ, q = n ∧ 8 ≤ n ∧ (n * (9 / 8) : ℚ) ≤ ofDigits ds := by
  obtain ⟨lead, rfl⟩ | ⟨es, -, octal, rfl, rfl⟩ := h.of_digits digits
  · refine .inl ⟨fun es same _ => ?_, rfl⟩
    have zero := lead (by rw [same]; rfl)
    obtain rfl : es = [] := (List.cons.inj (same.symm.trans zero)).2
    decide
  · have es_digits : ∀ c ∈ es, isDigit c = true := fun c hc => digits c (mem_cons_of_mem _ hc)
    rw [ofDigits_cons_zero]
    rcases lt_or_ge (ofDigits es) 8 with small | large
    · refine .inl ⟨fun es' same _ => ?_, by rw [(octal_of_lt es_digits small).2]⟩
      obtain rfl : es = es' := (List.cons.inj same).2
      exact small
    · obtain ⟨eight, less⟩ := octal_of_ge octal large
      refine .inr ⟨_, rfl, eight, ?_⟩
      have : (9 * Nat.ofDigitChars 8 es 0 : ℚ) ≤ 8 * ofDigits es := by exact_mod_cast less
      linarith

/-! ### Written numbers -/

theorem constant_signText (negative : Bool) {q : ℚ} (number : Number cs q)
    (head : ∃ c ∈ cs.head?, isDigit c = true) :
    Constant ((Binary64.signText negative).toList ++ cs) (signed negative q) := by
  rw [Constant, takeSign_signText negative head]
  exact ⟨q, number, rfl⟩

theorem head_toDigits (n : ℕ) : ∃ c ∈ (Nat.toDigits 10 n).head?, isDigit c = true := by
  obtain ⟨c, cs, shape⟩ := exists_cons_of_ne_nil (Nat.toDigits_ne_nil (n := n) (b := 10))
  exact ⟨c, by rw [shape]; rfl, isDigit_of_mem_toDigits (by rw [shape]; exact mem_cons_self)⟩

/-- Only zero is written with a zero in front. -/
theorem toDigits_lead (n : ℕ) (lead : (Nat.toDigits 10 n).head? = some '0') : Nat.toDigits 10 n = ['0'] := by
  induction n using Nat.strongRecOn with
  | _ n ih =>
    rw [Nat.toDigits_eq_if (by decide)] at lead ⊢
    split at lead
    · next small =>
      rw [if_pos small, Option.some.inj lead]
    · next large =>
      rw [head?_append_of_ne_nil _ Nat.toDigits_ne_nil] at lead
      have zero := congrArg ofDigits (ih (n / 10) (by omega) lead)
      rw [ofDigits_toDigits] at zero
      have : n / 10 = 0 := zero
      omega

theorem number_toDigits (n : ℕ) : Number (Nat.toDigits 10 n) n := by
  have number : Number (Nat.toDigits 10 n) (ofDigits (Nat.toDigits 10 n)) :=
    .decimal Nat.toDigits_ne_nil (fun _ => isDigit_of_mem_toDigits) (toDigits_lead n)
  rwa [ofDigits_toDigits] at number

/-- A whole number is written as a literal for it. -/
theorem constant_toString (n : ℤ) : Constant (toString n).toList n := by
  obtain ⟨negative, k, text, value⟩ := exists_toString n
  have cast : (n : ℚ) = signed negative (k : ℚ) := by
    rw [value]
    cases negative <;> simp [signed]
  rw [text, cast]
  exact constant_signText negative (number_toDigits k) (head_toDigits k)

/-- Positional notation spells its number. -/
theorem number_positional {n : ℕ} (pos : 0 < n) (exponent : ℤ) :
    Number (Binary64.positional n exponent).toList (n * 10 ^ exponent) ∧
      ∃ c ∈ (Binary64.positional n exponent).toList.head?, isDigit c = true := by
  obtain ⟨whole, fraction, decimal, written, value, first⟩ := Binary64.exists_positional n exponent
  rw [written, String.toList_ofList]
  refine ⟨?_, decimal.head⟩
  cases fraction with
  | nil =>
    have lead : whole.head? = some '0' → whole = ['0'] := by
      intro zero
      have none := congrArg ofDigits (toDigits_lead n (first rfl ▸ zero))
      rw [ofDigits_toDigits] at none
      exact absurd none pos.ne'
    have number := Number.decimal decimal.filled decimal.whole lead
    rw [List.append_nil, length_nil, Nat.cast_zero, add_zero] at value
    rw [value] at number
    simpa [decimalChars] using number
  | cons d ds =>
    have number := Number.point (.inl decimal.filled) decimal.whole decimal.fraction .absent
    rw [value, mul_assoc, ← zpow_add₀ (by norm_num), zero_sub, add_neg_cancel_right] at number
    simpa [decimalChars] using number

/-- The text of a number spells a number that is rounded to it. -/
theorem constant_text (negative : Bool) {m : ℕ} {e : ℤ} (normal : Format.binary64.Normal m e)
    (finite : e ≤ Binary64.maxExponent) :
    ∃ q, Constant (Binary64.finite negative m e).text.toList (signed negative q) ∧
      0 ≤ q ∧ Format.binary64.Rounds q m e := by
  rcases Nat.eq_zero_or_pos m with rfl | pos
  · obtain rfl : e = Format.binary64.minExponent := normal.full.resolve_left (by decide)
    have text : (Binary64.finite negative 0 Format.binary64.minExponent).text.toList =
        (Binary64.signText negative).toList ++ Nat.toDigits 10 0 := String.toList_append
    have constant := constant_signText negative (number_toDigits 0) (head_toDigits 0)
    rw [← text, Nat.cast_zero] at constant
    exact ⟨0, constant, le_rfl, Format.rounds_zero le_rfl
      (mul_nonneg (by norm_num) (Format.two_zpow_pos _).le)⟩
  · obtain ⟨some, rounds⟩ := Binary64.rounds_shortest normal pos finite
    obtain ⟨number, head⟩ := number_positional some (Binary64.shortest m e).2
    obtain ⟨k, rfl⟩ := Nat.exists_eq_succ_of_ne_zero pos.ne'
    refine ⟨_, ?_, by positivity, rounds⟩
    have text : (Binary64.finite negative (k + 1) e).text.toList = (Binary64.signText negative).toList ++
        (Binary64.positional (Binary64.shortest (k + 1) e).1 (Binary64.shortest (k + 1) e).2).toList :=
      String.toList_append
    rw [text]
    exact constant_signText negative number head

/-! ### Numbers that are read -/

theorem wholeChars?_eq_some_iff {n : ℤ} : wholeChars? cs = some n ↔
    (takeSign cs).2 ≠ [] ∧ (∀ c ∈ (takeSign cs).2, isDigit c = true) ∧
      n = signed (takeSign cs).1 (ofDigits (takeSign cs).2 : ℤ) := by
  unfold wholeChars?
  dsimp only
  split
  · next none =>
    refine ⟨fun h => (by cases h), fun ⟨filled, digits, _⟩ => ?_⟩
    rw [isEmpty_eq_false_iff.mpr filled, all_eq_true.mpr digits] at none
    cases none
  · next some =>
    rw [Bool.not_eq_true, Bool.or_eq_false_iff, Bool.not_eq_false', isEmpty_eq_false_iff, all_eq_true] at some
    exact ⟨fun h => ⟨some.1, some.2, (Option.some.inj h).symm⟩, fun ⟨_, _, value⟩ => by rw [value]; rfl⟩

theorem exponentChars?_eq_some_iff {k : ℤ} : exponentChars? cs = some k ↔ Exponent cs k := by
  cases cs with
  | nil => exact ⟨fun h => by cases h; exact .absent, fun h => by cases h; rfl⟩
  | cons mark cs =>
    rw [exponentChars?]
    constructor
    · intro h
      split_ifs at h with letter
      obtain ⟨filled, digits, rfl⟩ := wholeChars?_eq_some_iff.mp h
      exact .present (by simpa using letter) filled digits
    · rintro ⟨⟩
      next letter filled digits =>
        rw [if_pos (by simpa using letter)]
        exact wholeChars?_eq_some_iff.mpr ⟨filled, digits, rfl⟩

/-- The number that the parts around an optional point stand for. -/
def mantissa (parts : List Char × List Char × List Char) (k : ℤ) : ℚ :=
  ofDigits (parts.1 ++ parts.2.1) * 10 ^ (k - parts.2.1.length)

/-- A text is split at its point or without one, and only digits stand before what follows. -/
theorem splitMantissa_cases (cs : List Char) :
    ∃ whole fraction rest, splitMantissa cs = (whole, fraction, rest) ∧
    (∀ c ∈ whole, isDigit c = true) ∧ (∀ c ∈ fraction, isDigit c = true) ∧
    (cs = whole ++ '.' :: fraction ++ rest ∨ fraction = [] ∧ cs = whole ++ rest) := by
  have digits (ds : List Char) : ∀ c ∈ ds.takeWhile isDigit, isDigit c = true := fun c => mem_takeWhile_imp
  have parts := (takeWhile_append_dropWhile (p := isDigit) (l := cs)).symm
  unfold splitMantissa
  split
  · next rest point =>
    refine ⟨_, _, _, rfl, digits cs, digits rest, .inl ?_⟩
    rw [List.append_assoc, cons_append, takeWhile_append_dropWhile, ← point]
    exact parts
  · exact ⟨_, _, _, rfl, digits cs, forall_mem_nil _, .inr ⟨rfl, parts⟩⟩

/-- Digits with a point or an exponent are a literal for what they are read as, and so are digits alone if
they are not taken for octal. -/
theorem number_of_splitMantissa {k : ℤ}
    (filled : ((splitMantissa cs).1.isEmpty && (splitMantissa cs).2.1.isEmpty) = false)
    (scale : Exponent (splitMantissa cs).2.2 k) :
    (ReadsDecimal cs → Number cs (mantissa (splitMantissa cs) k)) ∧
      ((∀ c ∈ cs, isDigit c = true) → mantissa (splitMantissa cs) k = ofDigits cs) := by
  have undigit {c : Char} (hc : c ∈ cs) (other : isDigit c = false)
      (all : ∀ c ∈ cs, isDigit c = true) : False :=
    absurd (all c hc) (by rw [other]; exact Bool.false_ne_true)
  obtain ⟨whole, fraction, rest, split, whole_digits, fraction_digits, shape⟩ := splitMantissa_cases cs
  rw [split] at filled scale ⊢
  rw [Bool.and_eq_false_iff, isEmpty_eq_false_iff, isEmpty_eq_false_iff] at filled
  rcases shape with rfl | ⟨rfl, rfl⟩
  · exact ⟨fun _ => .point filled whole_digits fraction_digits scale,
      fun all => (undigit (c := '.') (by simp) (by decide) all).elim⟩
  · have filled := filled.resolve_right (fun none => none rfl)
    have value : mantissa (whole, [], rest) k = ofDigits whole * 10 ^ k := by simp [mantissa]
    rw [value]
    cases scale with
    | absent =>
      rw [List.append_nil, zpow_zero, mul_one]
      exact ⟨number_of_readsDecimal filled whole_digits, fun _ => rfl⟩
    | @present mark cs letter some digits =>
      have scale := Exponent.present letter some digits
      refine ⟨fun _ => .scaled filled whole_digits scale (cons_ne_nil _ _),
        fun all => (undigit (c := mark) (by simp) ?_ all).elim⟩
      rcases letter with rfl | rfl <;> decide

/-- An exponent starts with neither a digit nor a point. -/
theorem Exponent.head {k : ℤ} (h : Exponent cs k) : ∀ c ∈ cs.head?, isDigit c = false ∧ c ≠ '.' := by
  cases h with
  | absent => rintro _ ⟨⟩
  | present letter =>
    rintro _ ⟨⟩
    rcases letter with rfl | rfl <;> decide

theorem takeWhile_digits {rest : List Char} (digits : ∀ c ∈ ds, isDigit c = true)
    (head : ∀ c ∈ rest.head?, isDigit c = false) :
    (ds ++ rest).takeWhile isDigit = ds ∧ (ds ++ rest).dropWhile isDigit = rest := by
  rw [dropWhile_append_stop head, dropWhile_eq_nil_iff.mpr digits]
  exact ⟨takeWhile_append_stop digits head, rfl⟩

/-- A number is an integer, or its mantissa and exponent are read as they are. -/
theorem Number.digits_or_read {q : ℚ} (h : Number cs q) : (∀ c ∈ cs, isDigit c = true) ∨
    ∃ k, exponentChars? (splitMantissa cs).2.2 = some k ∧ q = mantissa (splitMantissa cs) k := by
  cases h with
  | decimal _ digits => exact .inl digits
  | octal _ digits =>
    exact .inl (forall_mem_cons.mpr ⟨by decide, fun c hc => isDigit_of_isOctal (digits c hc)⟩)
  | @point whole fraction exponent k _ whole_digits fraction_digits scale =>
    have split : splitMantissa (whole ++ '.' :: fraction ++ exponent) = (whole, fraction, exponent) := by
      have stop : ∀ c ∈ ('.' :: (fraction ++ exponent)).head?, isDigit c = false := by
        rintro _ ⟨⟩
        decide
      obtain ⟨first, second⟩ := takeWhile_digits whole_digits stop
      obtain ⟨third, fourth⟩ := takeWhile_digits fraction_digits fun c hc => (scale.head c hc).1
      rw [List.append_assoc, cons_append, splitMantissa, first, second]
      simp only [third, fourth]
    rw [split]
    exact .inr ⟨k, exponentChars?_eq_some_iff.mpr scale, rfl⟩
  | @scaled whole exponent k _ digits scale =>
    have split : splitMantissa (whole ++ exponent) = (whole, [], exponent) := by
      obtain ⟨first, second⟩ := takeWhile_digits digits fun c hc => (scale.head c hc).1
      rw [splitMantissa, first, second]
      split
      · exact absurd rfl (scale.head '.' rfl).2
      · rfl
    rw [split]
    exact .inr ⟨k, exponentChars?_eq_some_iff.mpr scale, by simp [mantissa]⟩

/-- A literal stands for one number. -/
theorem Number.unique {q q' : ℚ} (h : Number cs q) (h' : Number cs q') : q = q' := by
  by_cases digits : ∀ c ∈ cs, isDigit c = true
  · obtain ⟨lead, rfl⟩ | ⟨es, filled, -, rfl, rfl⟩ := h.of_digits digits <;>
      obtain ⟨lead', rfl⟩ | ⟨es', filled', -, same, rfl⟩ := h'.of_digits digits
    · rfl
    · rw [same] at lead
      exact absurd (List.cons.inj (lead rfl)).2 filled'
    · exact absurd (List.cons.inj (lead' rfl)).2 filled
    · rw [(List.cons.inj same).2]
  · obtain ⟨k, scale, rfl⟩ := h.digits_or_read.resolve_left digits
    obtain ⟨k', scale', rfl⟩ := h'.digits_or_read.resolve_left digits
    rw [Option.some.inj (scale.symm.trans scale')]

theorem Constant.unique {q q' : ℚ} (h : Constant cs q) (h' : Constant cs q') : q = q' := by
  obtain ⟨a, number, rfl⟩ := h
  obtain ⟨a', number', rfl⟩ := h'
  rw [number.unique number']

/-- A text that is read as a finite number has a magnitude that rounds to it. The text is a literal for the
magnitude, unless it is taken for octal. -/
theorem number_of_binary64? {s : String} {negative : Bool} {m : ℕ} {e : ℤ}
    (h : binary64? s = some (.finite negative m e)) :
    (takeSign s.toList).1 = negative ∧ e ≤ Binary64.maxExponent ∧ ∃ q, 0 ≤ q ∧ Format.binary64.Rounds q m e ∧
      (ReadsDecimal (takeSign s.toList).2 → Number (takeSign s.toList).2 q) ∧
      ((∀ c ∈ (takeSign s.toList).2, isDigit c = true) → q = ofDigits (takeSign s.toList).2) := by
  unfold binary64? at h
  dsimp only at h
  split at h
  · cases h
  · cases h
  · cases h
  · split at h
    · cases h
    · next filled =>
      rw [Option.map_eq_some_iff] at h
      obtain ⟨k, exponent, same⟩ := h
      obtain ⟨rfl, finite, rounds⟩ := Binary64.rounds_ofDecimal same
      rw [Bool.not_eq_true] at filled
      obtain ⟨number, value⟩ := number_of_splitMantissa filled (exponentChars?_eq_some_iff.mp exponent)
      exact ⟨rfl, finite, _, by positivity, rounds, number, value⟩

end Go

end GoTrees
