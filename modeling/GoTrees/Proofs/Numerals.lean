import GoTrees.Binary64.Shortest
import GoTrees.Catalog.Constant
import GoTrees.Proofs.Encoding

/-!
# Written numbers

Whole numbers are read back as they are written. The text of a finite double-precision number is digits and
perhaps a point with more digits after it, so it can be read as a number again.
-/

namespace GoTrees

open Text Numeral List

variable (negative : Bool) {c : Char} {whole fraction : List Char}

/-! ### Digits -/

namespace Numeral

theorem isDigit_of_mem_toDigits {n : Nat} (h : c ∈ Nat.toDigits 10 n) : isDigit c = true :=
  Literal.isDigit_eq_isDigit (Nat.isDigit_of_mem_toDigits (by decide) (by decide) h)

theorem isDigit_of_mem_replicate {k : Nat} (h : c ∈ List.replicate k '0') : isDigit c = true := by
  rw [(mem_replicate.mp h).2]
  decide

theorem toNat_of_isDigit (h : isDigit c = true) : 48 ≤ c.toNat ∧ c.toNat ≤ 57 := by
  simp only [isDigit, Bool.and_eq_true, decide_eq_true_eq, char_le_iff] at h
  exact h

theorem isBlank_of_isDigit (h : isDigit c = true) : isBlank c = false := by
  have range := toNat_of_isDigit h
  simp only [isBlank, blankRanges, any_cons, any_nil, Bool.or_eq_false_iff, Bool.and_eq_false_iff,
    decide_eq_false_iff_not, and_true]
  omega

theorem ofDigits_append (ds es : List Char) :
    ofDigits (ds ++ es) = ofDigits ds * 10 ^ es.length + ofDigits es := by
  induction es using List.reverseRecOn with
  | nil => simp [ofDigits]
  | append_singleton es d ih =>
    have last (fs : List Char) : ofDigits (fs ++ [d]) = 10 * ofDigits fs + (d.toNat - '0'.toNat) := by
      simp [ofDigits]
    rw [← List.append_assoc, last, last, ih, length_append, length_singleton, pow_succ]
    ring

theorem ofDigits_replicate (k : Nat) : ofDigits (List.replicate k '0') = 0 := by
  induction k with
  | zero => rfl
  | succ k ih =>
    rw [replicate_succ', ofDigits_append, ih]
    rfl

theorem ofDigits_toDigits (n : Nat) : ofDigits (Nat.toDigits 10 n) = n := Nat.ofDigitChars_ten_toDigits

/-! ### Signs -/

theorem takeSign_of_digit (h : isDigit c = true) (cs : List Char) :
    takeSign (c :: cs) = (false, c :: cs) := by
  rw [takeSign]
  · rintro _ ⟨⟩
    exact absurd h (by decide)
  · rintro _ ⟨⟩
    exact absurd h (by decide)

theorem takeSign_signText {cs : List Char} (h : ∃ c ∈ cs.head?, isDigit c = true) :
    takeSign ((Binary64.signText negative).toList ++ cs) = (negative, cs) := by
  obtain ⟨c, hc, digit⟩ := h
  obtain ⟨rest, rfl⟩ : ∃ rest, cs = c :: rest := by
    cases cs with
    | nil => cases hc
    | cons d rest => exact ⟨rest, by rw [Option.some.inj hc]⟩
  cases negative with
  | false => exact takeSign_of_digit digit rest
  | true => rfl

/-! ### Whole numbers -/

theorem wholeChars?_digits {ds : List Char} (filled : ds ≠ []) (digits : ∀ c ∈ ds, isDigit c = true) :
    wholeChars? ((Binary64.signText negative).toList ++ ds) =
      some (if negative then -Int.ofNat (ofDigits ds) else Int.ofNat (ofDigits ds)) := by
  obtain ⟨c, cs, rfl⟩ := exists_cons_of_ne_nil filled
  have head : ∃ d ∈ (c :: cs).head?, isDigit d = true := ⟨c, rfl, digits c mem_cons_self⟩
  have sign := takeSign_signText negative head
  have all : (c :: cs).all isDigit = true := all_eq_true.mpr digits
  simp [wholeChars?, sign, all]

theorem exists_toString (n : Int) : ∃ negative k,
    (toString n).toList = (Binary64.signText negative).toList ++ Nat.toDigits 10 k ∧
      n = if negative then -Int.ofNat k else Int.ofNat k := by
  cases n with
  | ofNat k => exact ⟨false, k, Nat.toList_repr, rfl⟩
  | negSucc k =>
    refine ⟨true, k + 1, ?_, rfl⟩
    rw [← Nat.toList_repr]
    exact String.toList_append

/-- A whole number is read back. -/
theorem wholeChars?_toString (n : Int) : wholeChars? (toString n).toList = some n := by
  obtain ⟨negative, k, text, value⟩ := exists_toString n
  rw [text, wholeChars?_digits negative Nat.toDigits_ne_nil fun _ => isDigit_of_mem_toDigits,
    ofDigits_toDigits, ← value]

theorem int64?_toString (n : Int) :
    int64? (toString n) = if minInt64 ≤ n ∧ n ≤ maxInt64 then some n else none := by
  rw [int64?, wholeChars?_toString, Option.filter_some]
  simp

theorem solid_toString (n : Int) : Merge.Solid (toString n) := by
  intro c hc
  have numeral := isNumeral_of_mem_toString hc
  rw [isNumeral, Bool.or_eq_true, beq_iff_eq] at numeral
  rcases numeral with digit | rfl
  · exact isBlank_of_isDigit (Literal.isDigit_eq_isDigit digit)
  · decide

/-! ### Decimals -/

/-- Digits, and a point with more digits if there are any. -/
def decimalChars (whole fraction : List Char) : List Char :=
  whole ++ if fraction.isEmpty then [] else '.' :: fraction

/-- A decimal with digits in front of the point. -/
structure IsDecimal (whole fraction : List Char) : Prop where
  filled : whole ≠ []
  whole : ∀ c ∈ whole, isDigit c = true
  fraction : ∀ c ∈ fraction, isDigit c = true

theorem IsDecimal.head (h : IsDecimal whole fraction) :
    ∃ c ∈ (decimalChars whole fraction).head?, isDigit c = true := by
  obtain ⟨c, cs, rfl⟩ := exists_cons_of_ne_nil h.filled
  exact ⟨c, rfl, h.whole c mem_cons_self⟩

theorem IsDecimal.last (h : IsDecimal whole fraction) :
    ∀ c ∈ (decimalChars whole fraction).getLast?, isDigit c = true := by
  intro c hc
  cases fraction with
  | nil =>
    simp only [decimalChars, isEmpty_nil, if_true, List.append_nil] at hc
    exact h.whole c (mem_of_getLast? hc)
  | cons d ds =>
    simp only [decimalChars, isEmpty_cons, Bool.false_eq_true, if_false, getLast?_append_cons,
      getLast?_cons_cons] at hc
    exact h.fraction c (mem_of_getLast? hc)

theorem IsDecimal.isBlank (h : IsDecimal whole fraction) :
    ∀ c ∈ decimalChars whole fraction, Text.isBlank c = false := by
  intro c hc
  rcases mem_append.mp hc with hc | hc
  · exact isBlank_of_isDigit (h.whole c hc)
  · split at hc
    · cases hc
    · rcases mem_cons.mp hc with rfl | hc
      · decide
      · exact isBlank_of_isDigit (h.fraction c hc)

theorem splitMantissa_decimalChars (h : IsDecimal whole fraction) :
    splitMantissa (decimalChars whole fraction) = (whole, fraction, []) := by
  have front : whole.takeWhile isDigit = whole := takeWhile_eq_self_iff.mpr h.whole
  have nothing : whole.dropWhile isDigit = [] := dropWhile_eq_nil_iff.mpr h.whole
  cases fraction with
  | nil => simp [splitMantissa, decimalChars, front, nothing]
  | cons d ds =>
    have stop : ∀ c ∈ ('.' :: d :: ds).head?, isDigit c = false := by
      rintro c ⟨rfl⟩
      decide
    have back : (d :: ds).takeWhile isDigit = d :: ds := takeWhile_eq_self_iff.mpr h.fraction
    have rest : (d :: ds).dropWhile isDigit = [] := dropWhile_eq_nil_iff.mpr h.fraction
    simp only [splitMantissa, decimalChars, isEmpty_cons, Bool.false_eq_true, if_false]
    rw [takeWhile_append_stop h.whole stop, dropWhile_append_stop stop, nothing]
    simp only [List.nil_append, back, rest]

/-- A decimal is read as its digits and where the point stands. -/
theorem binary64?_decimalChars (h : IsDecimal whole fraction) :
    binary64? (Binary64.signText negative ++ .ofList (decimalChars whole fraction)) =
      some (.ofDecimal negative (ofDigits (whole ++ fraction)) (-Int.ofNat fraction.length)) := by
  have sign : takeSign (Binary64.signText negative ++ String.ofList (decimalChars whole fraction)).toList =
      (negative, decimalChars whole fraction) := by
    rw [String.toList_append, String.toList_ofList, takeSign_signText negative h.head]
  -- the names of infinities start with letters
  obtain ⟨c, hc, digit⟩ := h.head
  have number {name : String} {d : Char} (hd : name.toList.head? = some d) (letter : 65 ≤ d.toNat) :
      String.ofList ((decimalChars whole fraction).map lower) ≠ name := by
    rintro rfl
    rw [String.toList_ofList, head?_map, hc] at hd
    have range := toNat_of_isDigit digit
    have same : lower c = c := by
      simp only [lower, Bool.and_eq_true, decide_eq_true_eq, char_le_iff, ite_eq_right_iff]
      intro upper
      have := upper.1
      simp at this
      omega
    obtain rfl : lower c = d := Option.some.inj hd
    rw [same] at letter
    omega
  unfold binary64?
  simp only [sign]
  split
  · next same => exact absurd same (number (d := 'i') rfl (by decide))
  · next same => exact absurd same (number (d := 'i') rfl (by decide))
  · next same => exact absurd same (number (d := 'n') rfl (by decide))
  · have some' : (whole.isEmpty && fraction.isEmpty) = false := by simp [h.filled]
    simp [splitMantissa_decimalChars h, some', exponentChars?]

end Numeral

namespace Binary64

/-- Positional notation is a decimal of the same value. -/
theorem exists_positional (digits : Nat) (exponent : Int) : ∃ whole fraction, IsDecimal whole fraction ∧
    positional digits exponent = .ofList (decimalChars whole fraction) ∧
    (ofDigits (whole ++ fraction) : ℚ) = digits * 10 ^ (exponent + fraction.length) ∧
    (fraction = [] → whole.head? = (Nat.toDigits 10 digits).head?) := by
  fun_cases positional digits exponent with
  | case1 ds k =>
    refine ⟨ds ++ List.replicate k '0', [],
      ⟨by simp [ds, Nat.toDigits_ne_nil], ?_, by simp⟩, by simp [decimalChars],
      ?_, fun _ => head?_append_of_ne_nil _ Nat.toDigits_ne_nil⟩
    · exact forall_mem_append.mpr ⟨fun _ => isDigit_of_mem_toDigits, fun _ => isDigit_of_mem_replicate⟩
    · rw [List.append_nil, ofDigits_append, ofDigits_replicate, ofDigits_toDigits, length_replicate]
      simp
  | case2 ds k places short =>
    have length : (ds.drop (ds.length - places)).length = places := by
      rw [length_drop]
      omega
    refine ⟨ds.take (ds.length - places), ds.drop (ds.length - places), ⟨?_, ?_, ?_⟩, ?_, ?_, fun none => ?_⟩
    · refine ne_nil_of_length_pos ?_
      rw [length_take]
      omega
    · exact fun c hc => isDigit_of_mem_toDigits (mem_of_mem_take hc)
    · exact fun c hc => isDigit_of_mem_toDigits (mem_of_mem_drop hc)
    · have more : (ds.drop (ds.length - places)).isEmpty = false := by
        rw [isEmpty_eq_false_iff, Ne, drop_eq_nil_iff]
        omega
      simp [decimalChars, more]
    · rw [take_append_drop, ofDigits_toDigits, length, Int.negSucc_eq]
      simp [places]
    · rw [none] at length
      simp [places] at length
  | case3 ds k places short =>
    have length : (List.replicate (places - ds.length) '0' ++ ds).length = places := by
      rw [length_append, length_replicate]
      omega
    refine ⟨['0'], List.replicate (places - ds.length) '0' ++ ds,
      ⟨by simp, forall_mem_singleton.mpr (by decide), ?_⟩, ?_, ?_, fun none => ?_⟩
    · exact forall_mem_append.mpr ⟨fun _ => isDigit_of_mem_replicate, fun _ => isDigit_of_mem_toDigits⟩
    · have more : (List.replicate (places - ds.length) '0' ++ ds).isEmpty = false := by
        simp [ds, Nat.toDigits_ne_nil]
      simp [decimalChars, more]
    · rw [length, ← List.append_assoc, ofDigits_append, ofDigits_append, ofDigits_replicate, ofDigits_toDigits,
        Int.negSucc_eq]
      simp [places, ofDigits]
    · rw [none] at length
      simp [places] at length

theorem exists_text (mantissa : Nat) (exponent : Int) : ∃ whole fraction, IsDecimal whole fraction ∧
    (finite negative mantissa exponent).text = signText negative ++ .ofList (decimalChars whole fraction) := by
  cases mantissa with
  | zero => exact ⟨['0'], [], ⟨by simp, forall_mem_singleton.mpr (by decide), by simp⟩, rfl⟩
  | succ m =>
    obtain ⟨whole, fraction, decimal, written, -⟩ :=
      exists_positional (shortest (m + 1) exponent).1 (shortest (m + 1) exponent).2
    exact ⟨whole, fraction, decimal, by rw [← written]; rfl⟩

theorem solid_text (mantissa : Nat) (exponent : Int) :
    Merge.Solid (finite negative mantissa exponent).text := by
  obtain ⟨whole, fraction, decimal, written⟩ := exists_text negative mantissa exponent
  rw [written]
  refine AllChars.append ?_ (allChars_ofList.mpr decimal.isBlank)
  cases negative <;> decide

end Binary64

/-! ### Constants of a type -/

namespace Catalog

theorem parseValue?_scalar {c : Catalog} {native : String} {ty : ValueType} (type : c.classify native = ty)
    (scalar : isAggregate ty = false) (text : String) :
    c.parseValue? text native = scalarValue? ty (trim text) := by
  rw [parseValue?, type, scalar, valueOf?.eq_def]
  rfl

theorem scalarValue?_integer (text : String) :
    scalarValue? .integer text = (int64? (trim text)).map .int := rfl

theorem isSome_markedFloat?_text (mantissa : Nat) (exponent : Int) :
    (markedFloat? (Binary64.finite negative mantissa exponent).text).isSome := by
  obtain ⟨whole, fraction, decimal, written⟩ := Binary64.exists_text negative mantissa exponent
  have filled : decimalChars whole fraction ≠ [] := by simp [decimalChars, decimal.filled]
  have unmarked : trimEndBy (fun c => c == 'f' || c == 'F')
      (Binary64.signText negative ++ String.ofList (decimalChars whole fraction)).toList =
      (Binary64.signText negative ++ String.ofList (decimalChars whole fraction)).toList := by
    refine trimEndBy_eq_self fun c hc => ?_
    rw [String.toList_append, String.toList_ofList, getLast?_append_of_ne_nil _ filled] at hc
    have digit := decimal.last c hc
    simp only [Bool.or_eq_false_iff, beq_eq_false_iff_ne]
    constructor <;> rintro rfl <;> exact absurd digit (by decide)
  rw [markedFloat?, written, unmarked, String.ofList_toList, binary64?_decimalChars negative decimal]
  rfl

theorem scalarValue?_float (text : String) :
    scalarValue? .float text = (markedFloat? (trim text)).map .float := rfl

end Catalog

end GoTrees
