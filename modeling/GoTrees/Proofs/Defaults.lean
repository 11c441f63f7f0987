import GoTrees.Proofs.Comments
import GoTrees.Proofs.Loaded
import GoTrees.Proofs.NumberLiterals
import GoTrees.Proofs.Occurrences

/-!
# Literals of defaults and of constants

A text that encodes a value is written to Go in two ways. As a default it is passed on almost as it is, and
as a constant it is read and the value is written. Truth values, strings, statuses and members of enums
come out as the same expression. Numbers come out as two literals, which Go takes for the same value if the
text is spelled like a literal:

    text     default   constant
    +7       +7        7           the same
    010      010       10          8 and 10
    1.5f     1.5f      1.5         no literal, if the type is double
    inf      inf       inf         no literals

Single-precision numbers are rounded twice as constants, so that the value must not lie halfway between two
of them.
-/

namespace GoTrees

open Text Numeral Go List

variable {text : String} {f : Binary64} {v : Value}

/-! ### What literals denote -/

/-- A constant is stored as a number of the format. -/
def Format.Stores (F : Format) (q y : ℚ) : Prop :=
  ∃ negative magnitude m e, q = signed negative magnitude ∧ 0 ≤ magnitude ∧ F.Rounds magnitude m e ∧
    e ≤ F.maxExponent ∧ y = signed negative (m * 2 ^ e : ℚ)

namespace Go

/-- A value that a literal stands for. -/
inductive Datum
  | truth (b : Bool)
  | whole (n : ℤ)
  | real (y : ℚ)
  | text (s : String)
  /-- What is declared under a name. -/
  | named (name : String)

inductive Denotes : ValueType → Expr → Datum → Prop
  | truth {text : String} {b : Bool} (keyword : text = if b then "true" else "false") :
      Denotes .bool (.literal text) (.truth b)
  | integer {text : String} {n : ℤ} (constant : Constant text.toList n) :
      Denotes .integer (.literal text) (.whole n)
  | float {text : String} {q y : ℚ} (constant : Constant text.toList q) (stored : Format.binary32.Stores q y) :
      Denotes .float (.literal text) (.real y)
  | double {text : String} {q y : ℚ} (constant : Constant text.toList q)
      (stored : Format.binary64.Stores q y) :
      Denotes .double (.literal text) (.real y)
  | string (s : String) : Denotes .string (.string s) (.text s)
  | status (package item : String) : Denotes .status (.member package item) (.named (package ++ "." ++ item))
  | enum (name path : String) : Denotes (.enum name) (.path path) (.named path)

/-- The two expressions stand for one value, and for the same. -/
def Same (ty : ValueType) (e e' : Expr) : Prop :=
  ∃ datum, (∀ d, Denotes ty e d ↔ d = datum) ∧ ∀ d, Denotes ty e' d ↔ d = datum

end Go

/-- A type whose values are written as literals. -/
def ValueType.isScalar : ValueType → Bool
  | .bool | .integer | .float | .double | .string | .status | .enum _ => true
  | _ => false

/-! ### Texts that are spelled like literals -/

/-- There is no mark of a number behind the text. -/
def Unmarked (s : String) : Prop := ∀ c ∈ s.toList.getLast?, (c == 'f' || c == 'F') = false

/-- The text of a number is spelled like a literal of Go. -/
structure SpelledReal (s : String) (f : Binary64) : Prop where
  finite : ∃ negative m e, f = .finite negative m e
  unmarked : Unmarked s
  decimal : ReadsDecimal (takeSign s.toList).2

/-- The text of a value is spelled like a literal of Go. -/
def GoSpelled : ValueType → String → Value → Prop
  | .integer, text, _ => ReadsDecimal (takeSign text.toList).2
  | .float, text, .float f => SpelledReal ((beforeTail? text "f").getD text) f
  | .double, text, .float f => SpelledReal text f
  | _, _, _ => True

/-- A finite value of a single-precision type is nearer to one single-precision number than to every other. -/
def HasNearest : ValueType → Value → Prop
  | .float, .float (.finite _ m e) =>
      ∃ m' e', Format.binary32.Settles (m * 2 ^ e) m' e' ∧ e' ≤ Format.binary32.maxExponent
  | _, _ => True

/-! ### One value -/

theorem signed_injective {α : Type} [InvolutiveNeg α] (negative : Bool) {a b : α}
    (h : signed negative a = signed negative b) : a = b := by
  cases negative with
  | false => exact h
  | true => exact neg_injective h

theorem abs_signed (negative : Bool) {a : ℚ} (nonneg : 0 ≤ a) : |signed negative a| = a := by
  cases negative with
  | false => exact abs_of_nonneg nonneg
  | true => exact (abs_neg a).trans (abs_of_nonneg nonneg)

namespace Format

variable {F : Format}

theorem Stores.abs (negative : Bool) {a y : ℚ} (nonneg : 0 ≤ a) (h : F.Stores (signed negative a) y) :
    ∃ m e, F.Rounds a m e ∧ |y| = m * 2 ^ e := by
  obtain ⟨sign, magnitude, m, e, same, hm, rounds, -, rfl⟩ := h
  have := congrArg (|·|) same
  simp only [abs_signed _ nonneg, abs_signed _ hm] at this
  exact ⟨m, e, this ▸ rounds, abs_signed _ (mul_nonneg (Nat.cast_nonneg m) (two_zpow_pos e).le)⟩

theorem Stores.unique {q y y' : ℚ} (h : F.Stores q y) (h' : F.Stores q y') : y = y' := by
  obtain ⟨sign, a, m, e, rfl, nonneg, rounds, -, rfl⟩ := h
  obtain ⟨sign', a', m', e', same, nonneg', rounds', -, rfl⟩ := h'
  obtain rfl : a = a' := by rw [← abs_signed sign nonneg, same, abs_signed sign' nonneg']
  rw [rounds.unique rounds']
  by_cases other : sign = sign'
  · rw [other]
  · -- only zero is its own opposite, and it is stored as zero
    obtain rfl : a = 0 := by
      cases sign <;> cases sign' <;> simp [signed] at same other <;> linarith
    have zero := rounds'.unique (rounds_zero le_rfl (by positivity))
    rw [Nat.cast_zero, zero_mul] at zero
    cases sign <;> cases sign' <;> simp [signed, zero]

end Format

namespace Go

variable {ty : ValueType} {e e' : Expr} {d d' : Datum}

/-- An expression stands for one value. -/
theorem Denotes.unique (h : Denotes ty e d) (h' : Denotes ty e d') : d = d' := by
  cases h with
  | @truth _ b keyword =>
    cases h' with
    | @truth _ b' keyword' =>
      have other : "true" ≠ "false" := by decide
      cases b <;> cases b' <;> simp_all
  | integer constant =>
    cases h' with
    | integer constant' => rw [Int.cast_injective (constant.unique constant')]
  | float constant stored =>
    cases h' with
    | float constant' stored' => rw [stored.unique (constant.unique constant' ▸ stored')]
  | double constant stored =>
    cases h' with
    | double constant' stored' => rw [stored.unique (constant.unique constant' ▸ stored')]
  | _ => cases h'; rfl

theorem same_iff : Same ty e e' ↔ ∃ datum, Denotes ty e datum ∧ Denotes ty e' datum := by
  constructor
  · rintro ⟨datum, first, second⟩
    exact ⟨datum, (first datum).mpr rfl, (second datum).mpr rfl⟩
  · rintro ⟨datum, first, second⟩
    exact ⟨datum, fun d => ⟨fun h => h.unique first, fun h => h ▸ first⟩,
      fun d => ⟨fun h => h.unique second, fun h => h ▸ second⟩⟩

theorem Denotes.same (h : Denotes ty e d) : Same ty e e := same_iff.mpr ⟨d, h, h⟩

end Go

/-! ### Whole numbers -/

/-- A whole number means the same as it is given and as it is written, unless it is taken for octal. -/
theorem same_integer_iff {n : ℤ} (read : int64? text = some n) :
    Same .integer (.literal text) (.int n) ↔ ReadsDecimal (takeSign text.toList).2 := by
  obtain ⟨filled, digits, value⟩ := wholeChars?_eq_some_iff.mp (Option.eq_some_of_filter_eq_some read)
  have cast : (n : ℚ) = signed (takeSign text.toList).1 (ofDigits (takeSign text.toList).2 : ℚ) := by
    rw [value]
    unfold signed
    split <;> simp
  rw [same_iff]
  constructor
  · rintro ⟨datum, given, written⟩
    cases given with
    | @integer _ k given =>
      cases written with
      | integer written =>
        obtain ⟨a, number, same⟩ := given
        rw [written.unique (constant_toString n), cast] at same
        obtain rfl := signed_injective _ same
        obtain ⟨decimal, -⟩ | ⟨k, same, large, far⟩ := number.readsDecimal_or_less digits
        · exact decimal
        · have : (8 : ℚ) ≤ k := by exact_mod_cast large
          linarith
  · intro decimal
    exact ⟨.whole n, .integer ⟨_, number_of_readsDecimal filled digits decimal, cast⟩,
      .integer (constant_toString n)⟩

/-! ### Real numbers -/

/-- A number without marks behind it is read as it is. -/
theorem markedFloat?_of_unmarked {s : String} (h : Unmarked s) : Catalog.markedFloat? s = binary64? s := by
  rw [Catalog.markedFloat?, trimEndBy_eq_self h, String.ofList_toList]

/-- Only finite numbers are written as literals. -/
theorem exists_finite_of_constant {q : ℚ} (h : Constant f.text.toList q) :
    ∃ negative m e, f = .finite negative m e := by
  have other {c : Char} (hc : c ∈ f.text.toList) (letter : c = 'n' ∨ c = 'N') : False := by
    have := h.chars c hc
    rcases letter with rfl | rfl <;> revert this <;> unfold IsNumberChar <;> decide
  cases f with
  | nan => exact (other (c := 'N') (by decide) (.inr rfl)).elim
  | infinite negative => exact (other (c := 'n') (by cases negative <;> decide) (.inl rfl)).elim
  | finite negative m e => exact ⟨negative, m, e, rfl⟩

section Real

variable {s : String} {f : Binary64} (read : Catalog.markedFloat? s = some f)

include read

/-- If the text of a number means the same as the number that is written for it, it is spelled like a
literal. -/
theorem spelled_of_stores {F : Format} (bits : 8 ≤ F.precision) (least : F.minExponent ≤ -3) {q q' y : ℚ}
    (given : Constant s.toList q) (stored : F.Stores q y) (written : Constant f.text.toList q')
    (stored' : F.Stores q' y) : SpelledReal s f := by
  obtain ⟨negative, m, e, rfl⟩ := exists_finite_of_constant written
  have unmarked : Unmarked s := by
    intro c hc
    have char := given.chars c (mem_of_getLast? hc)
    rw [Bool.or_eq_false_iff, beq_eq_false_iff_ne, beq_eq_false_iff_ne]
    constructor <;> rintro rfl <;> revert char <;> unfold IsNumberChar <;> decide
  rw [markedFloat?_of_unmarked unmarked] at read
  refine ⟨⟨negative, m, e, rfl⟩, unmarked, ?_⟩
  obtain ⟨sign, finite, magnitude, nonneg, rounds, -, value⟩ := number_of_binary64? read
  obtain ⟨a, number, rfl⟩ := given
  obtain ⟨b, constant, nonneg', rounds'⟩ := constant_text negative rounds.toNormal finite
  obtain rfl := written.unique constant
  obtain ⟨m₁, e₁, hq, size⟩ := Format.Stores.abs _ number.nonneg stored
  obtain ⟨m₂, e₂, hq', size'⟩ := Format.Stores.abs _ nonneg' stored'
  by_contra octal
  have digits := digits_of_not_readsDecimal octal
  obtain ⟨decimal, -⟩ | ⟨n, rfl, large, far⟩ := number.readsDecimal_or_less digits
  · exact octal decimal
  · rw [← value digits] at far
    have apart := Format.Rounds.apart ⟨bits, by decide⟩ ⟨least, by decide⟩ large far rounds rounds' hq hq'
    rw [← size, ← size'] at apart
    exact lt_irrefl _ apart

/-- If the text of a number is spelled like a literal, it means the same as the number that is written for
it. -/
theorem exists_stores_of_spelled (spelled : SpelledReal s f) {F : Format}
    (settled : ∀ negative m e, f = .finite negative m e → ∃ m' e', e' ≤ F.maxExponent ∧
      ∀ q, 0 ≤ q → Format.binary64.Rounds q m e → F.Rounds q m' e') :
    ∃ q q' y, Constant s.toList q ∧ F.Stores q y ∧ Constant f.text.toList q' ∧ F.Stores q' y := by
  obtain ⟨negative, m, e, rfl⟩ := spelled.finite
  obtain ⟨m', e', finite', rounds_of⟩ := settled negative m e rfl
  rw [markedFloat?_of_unmarked spelled.unmarked] at read
  obtain ⟨sign, finite, magnitude, nonneg, rounds, number, -⟩ := number_of_binary64? read
  obtain ⟨magnitude', constant', nonneg', rounds'⟩ := constant_text negative rounds.toNormal finite
  refine ⟨signed negative magnitude, signed negative magnitude', signed negative (m' * 2 ^ e'), ?_, ?_,
    constant', ?_⟩
  · exact ⟨magnitude, number spelled.decimal, by rw [sign]⟩
  · exact ⟨negative, magnitude, m', e', rfl, nonneg, rounds_of _ nonneg rounds, finite', rfl⟩
  · exact ⟨negative, magnitude', m', e', rfl, nonneg', rounds_of _ nonneg' rounds', finite', rfl⟩

end Real

/-- One mark more or less behind a number is not seen when it is read. -/
theorem markedFloat?_beforeTail (s : String) :
    Catalog.markedFloat? ((beforeTail? s "f").getD s) = Catalog.markedFloat? s := by
  cases tail : beforeTail? s "f" with
  | none => rfl
  | some front =>
    have whole : s.toList = front.toList ++ ['f'] := by
      rw [Load.eq_append_of_beforeTail? tail, String.toList_append]
      rfl
    rw [Option.getD_some, Catalog.markedFloat?, Catalog.markedFloat?, whole, trimEndBy_append_blank (by simp)]

theorem widens_binary32 : Format.binary64.Widens .binary32 := ⟨by decide, by decide⟩

/-- A double-precision number means the same as it is given and as it is written, if it is spelled like a
literal. -/
theorem same_double_iff (read : Catalog.markedFloat? text = some f) :
    Same .double (.literal text) (.literal f.text) ↔ SpelledReal text f := by
  rw [same_iff]
  constructor
  · rintro ⟨datum, given, written⟩
    cases given with
    | double given stored =>
      cases written with
      | double written stored' =>
        exact spelled_of_stores read (by decide) (by decide) given stored written stored'
  · intro spelled
    have settled : ∀ negative m e, f = .finite negative m e → ∃ m' e', e' ≤ Format.binary64.maxExponent ∧
        ∀ q, 0 ≤ q → Format.binary64.Rounds q m e → Format.binary64.Rounds q m' e' := by
      rintro negative m e rfl
      rw [markedFloat?_of_unmarked spelled.unmarked] at read
      exact ⟨m, e, (number_of_binary64? read).2.1, fun _ _ => id⟩
    obtain ⟨q, q', y, given, stored, written, stored'⟩ := exists_stores_of_spelled read spelled settled
    exact ⟨.real y, .double given stored, .double written stored'⟩

/-- Only a spelled real gives the same number as default and as constant. -/
theorem spelled_of_same_float (read : Catalog.markedFloat? text = some f)
    (same : Same .float (.literal text) (.literal f.text)) : SpelledReal text f := by
  obtain ⟨datum, given, written⟩ := same_iff.mp same
  cases given with
  | float given stored =>
    cases written with
    | float written stored' =>
      exact spelled_of_stores read (by decide) (by decide) given stored written stored'

/-- A spelled real gives the same number as default and as constant. -/
theorem same_float (read : Catalog.markedFloat? text = some f)
    (settled : HasNearest .float (.float f)) (spelled : SpelledReal text f) :
    Same .float (.literal text) (.literal f.text) := by
  have settled : ∀ negative m e, f = .finite negative m e → ∃ m' e', e' ≤ Format.binary32.maxExponent ∧
      ∀ q, 0 ≤ q → Format.binary64.Rounds q m e → Format.binary32.Rounds q m' e' := by
    rintro negative m e rfl
    obtain ⟨m', e', settles, finite⟩ := settled
    exact ⟨m', e', finite, fun q nonneg rounds => rounds.narrow widens_binary32 nonneg settles⟩
  obtain ⟨q, q', y, given, stored, written, stored'⟩ := exists_stores_of_spelled read spelled settled
  exact same_iff.mpr ⟨.real y, .float given stored, .float written stored'⟩

/-! ### Other values -/

theorem basicName_basicName (name : String) : basicName (basicName name) = basicName name := by
  cases h : contains name "::" with
  | false => rw [basicName_of_not_contains h, basicName_of_not_contains h]
  | true => exact basicName_of_not_contains (namespaceOf_append_basicName h).2

theorem ofMember_basicName (member : String) :
    Status.ofMember (basicName member) = Status.ofMember member := by
  unfold Status.ofMember
  rw [basicName_basicName]

/-- A text of a type without parts is read as it is, however often its ends are trimmed. -/
theorem Catalog.parseValue?_text {c : Catalog} {native : String} {ty : ValueType}
    (type : c.classify native = ty)
    (scalar : isAggregate ty = false) (text : String) : c.parseValue? text native = scalarValue? ty text := by
  rw [parseValue?_scalar type scalar]
  simp only [scalarValue?.eq_def, trim_trim]

theorem Catalog.scalarValue?_double (text : String) :
    scalarValue? .double text = (markedFloat? (trim text)).map .float := rfl

namespace Context

structure Writes (x : Context) (native text : String) (v : Value) (default constant : Expr) : Prop where
  read : x.catalog.parseValue? text native = some v
  default : literalFor (x.catalog.classify native) (x.goType native).value (some text) = some default
  constant : (x.scalar native v).value = some constant

section Writes

variable (x : Context) {native text : String} (given : trim text ≠ "")

theorem givenText_some (given : trim text ≠ "") : givenText (some text) = some (trim text) := by
  simp [givenText, given]

theorem scalar_status (type : x.catalog.classify native = .status) (member : String) :
    (x.scalar native (.member member)).value = some (Status.ofMember member).expr := by
  rw [scalar]
  split
  · rfl
  · next other => exact absurd type other

theorem scalar_enum {name : String} (type : x.catalog.classify native = .enum name) (member : String) :
    (x.scalar native (.member member)).value = some (enumMember (x.goType native).value member) := by
  rw [scalar]
  split
  · next status => cases status.symm.trans type
  · rfl

section Numbers

variable {shown : String} (trimmed : trim text = shown) (filled : shown ≠ "")

include trimmed filled

theorem writes_integer {n : ℤ} (type : x.catalog.classify native = .integer) (read : int64? shown = some n) :
    x.Writes native text (.int n) (.literal shown) (.int n) := by
  subst trimmed
  refine ⟨?_, ?_, rfl⟩
  · rw [Catalog.parseValue?_text type rfl, Catalog.scalarValue?_integer, read]
    rfl
  · rw [type, literalFor, givenText_some filled]
    rfl

theorem writes_float (type : x.catalog.classify native = .float)
    (read : Catalog.markedFloat? shown = some f) :
    x.Writes native text (.float f) (.literal ((beforeTail? shown "f").getD shown)) (.literal f.text) := by
  subst trimmed
  refine ⟨?_, ?_, rfl⟩
  · rw [Catalog.parseValue?_text type rfl, Catalog.scalarValue?_float, read]
    rfl
  · rw [type, literalFor, givenText_some filled]
    rfl

theorem writes_double (type : x.catalog.classify native = .double)
    (read : Catalog.markedFloat? shown = some f) :
    x.Writes native text (.float f) (.literal shown) (.literal f.text) := by
  subst trimmed
  refine ⟨?_, ?_, rfl⟩
  · rw [Catalog.parseValue?_text type rfl, Catalog.scalarValue?_double, read]
    rfl
  · rw [type, literalFor, givenText_some filled]
    rfl

end Numbers

include given

theorem exists_writes_bool (type : x.catalog.classify native = .bool)
    (read : x.catalog.parseValue? text native = some v) :
    ∃ e, x.Writes native text v e e ∧ Same .bool e e := by
  have value := (Catalog.parseValue?_text type rfl text).symm.trans read
  rw [Catalog.scalarValue?] at value
  split at value
  · next same =>
    cases value
    refine ⟨.literal "true", ⟨read, ?_, rfl⟩, Denotes.same (.truth (b := true) rfl)⟩
    rw [type, literalFor, givenText_some given, Option.getD_some, same]
  · next same =>
    cases value
    refine ⟨.literal "false", ⟨read, ?_, rfl⟩, Denotes.same (.truth (b := false) rfl)⟩
    rw [type, literalFor, givenText_some given, Option.getD_some, same]
  · cases value

theorem exists_writes_string (type : x.catalog.classify native = .string)
    (read : x.catalog.parseValue? text native = some v) :
    ∃ e, x.Writes native text v e e ∧ Same .string e e := by
  cases (Catalog.parseValue?_text type rfl text).symm.trans read
  refine ⟨_, ⟨read, ?_, rfl⟩, Denotes.same (.string _)⟩
  rw [type, literalFor, givenText_some given, Option.getD_some]

theorem exists_writes_status (type : x.catalog.classify native = .status)
    (read : x.catalog.parseValue? text native = some v) :
    ∃ e, x.Writes native text v e e ∧ Same .status e e := by
  cases (Catalog.parseValue?_text type rfl text).symm.trans read
  have written := x.scalar_status type (basicName (trim text))
  rw [ofMember_basicName] at written
  refine ⟨_, ⟨read, ?_, written⟩, Denotes.same (.status _ _)⟩
  rw [type, literalFor, givenText_some given, Option.getD_some]

theorem exists_writes_enum {name : String} (type : x.catalog.classify native = .enum name)
    (read : x.catalog.parseValue? text native = some v) :
    ∃ e, x.Writes native text v e e ∧ Same (.enum name) e e := by
  cases (Catalog.parseValue?_text type rfl text).symm.trans read
  refine ⟨_, ⟨read, ?_, x.scalar_enum type _⟩, Denotes.same (.enum _ _)⟩
  rw [type, literalFor, givenText_some given]

end Writes

/-- A default means the same as the constant of the same text only if the text is spelled like a literal.
If it is, they do mean the same, unless they are rounded to different sides. -/
theorem same_iff_spelled (x : Context) {native text : String} {v : Value}
    (scalar : (x.catalog.classify native).isScalar = true) (given : trim text ≠ "")
    (read : x.catalog.parseValue? text native = some v) : ∃ e e', x.Writes native text v e e' ∧
      (Same (x.catalog.classify native) e e' → GoSpelled (x.catalog.classify native) (trim text) v) ∧
      (HasNearest (x.catalog.classify native) v → GoSpelled (x.catalog.classify native) (trim text) v →
        Same (x.catalog.classify native) e e') := by
  cases type : x.catalog.classify native with
  | integer =>
    rw [Catalog.parseValue?_text type rfl, Catalog.scalarValue?_integer, Option.map_eq_some_iff] at read
    obtain ⟨n, read, rfl⟩ := read
    have same := same_integer_iff read
    exact ⟨_, _, x.writes_integer rfl given type read, same.mp, fun _ => same.mpr⟩
  | float =>
    rw [Catalog.parseValue?_text type rfl, Catalog.scalarValue?_float, Option.map_eq_some_iff] at read
    obtain ⟨f, read, rfl⟩ := read
    have unmarked := (markedFloat?_beforeTail _).trans read
    exact ⟨_, _, x.writes_float rfl given type read, spelled_of_same_float unmarked, same_float unmarked⟩
  | double =>
    rw [Catalog.parseValue?_text type rfl, Catalog.scalarValue?_double, Option.map_eq_some_iff] at read
    obtain ⟨f, read, rfl⟩ := read
    have same := same_double_iff read
    exact ⟨_, _, x.writes_double rfl given type read, same.mp, fun _ => same.mpr⟩
  | bool =>
    obtain ⟨e, writes, same⟩ := x.exists_writes_bool given type read
    exact ⟨e, e, writes, fun _ => trivial, fun _ _ => same⟩
  | string =>
    obtain ⟨e, writes, same⟩ := x.exists_writes_string given type read
    exact ⟨e, e, writes, fun _ => trivial, fun _ _ => same⟩
  | status =>
    obtain ⟨e, writes, same⟩ := x.exists_writes_status given type read
    exact ⟨e, e, writes, fun _ => trivial, fun _ _ => same⟩
  | enum =>
    obtain ⟨e, writes, same⟩ := x.exists_writes_enum given type read
    exact ⟨e, e, writes, fun _ => trivial, fun _ _ => same⟩
  | _ => rw [type] at scalar; cases scalar

/-- A tree file without types of its own. -/
def untyped : Context where
  catalog := {}

def oneAndHalf : Binary64 := .finite false 6755399441055744 (-52)

theorem same_iff_spelled_marked : ∃ v, untyped.catalog.classify "float" = .float ∧ trim " +01.50f" ≠ "" ∧
    untyped.Writes "float" " +01.50f" v (.literal "+01.50") (.literal "1.5") ∧ HasNearest .float v ∧
    GoSpelled .float "+01.50f" v ∧ Same .float (.literal "+01.50") (.literal "1.5") := by
  have type : untyped.catalog.classify "float" = .float := by decide +kernel
  have trimmed : trim " +01.50f" = "+01.50f" := by decide +kernel
  have given : trim " +01.50f" ≠ "" := by rw [trimmed]; decide
  have unmarked : (beforeTail? "+01.50f" "f").getD "+01.50f" = "+01.50" := by decide +kernel
  have writes := untyped.writes_float (f := oneAndHalf) trimmed (by decide) type (by decide +kernel)
  rw [unmarked, show oneAndHalf.text = "1.5" by decide +kernel] at writes
  have nearest : HasNearest .float (.float oneAndHalf) := by
    have normal : Format.binary32.Normal 12582912 (-23) := ⟨by decide, by decide, .inl (by decide)⟩
    refine ⟨12582912, -23, ?_, by decide⟩
    convert normal.settles using 1
    norm_num
  have spelled : GoSpelled .float "+01.50f" (.float oneAndHalf) := by
    rw [GoSpelled, unmarked]
    refine ⟨⟨_, _, _, rfl⟩, ?_, fun ds same digits => ?_⟩
    · have last : "+01.50".toList.getLast? = some '0' := by decide +kernel
      rw [Unmarked, last]
      rintro _ ⟨⟩
      rfl
    · obtain rfl := (List.cons.inj same).2
      exact absurd (digits '.' (by decide)) (by decide)
  obtain ⟨e, e', writes', -, same⟩ := same_iff_spelled untyped (type ▸ rfl) given writes.read
  obtain rfl := Option.some.inj (writes.default.symm.trans writes'.default)
  obtain rfl := Option.some.inj (writes.constant.symm.trans writes'.constant)
  rw [type, trimmed] at same
  exact ⟨_, type, given, writes, nearest, spelled, same nearest spelled⟩

/-- A decimal between one and two is a literal for it. -/
theorem constant_point (fraction : String) (digits : fraction.toList.all isDigit = true) :
    Constant ("1." ++ fraction).toList (ofDigits ('1' :: fraction.toList) / 10 ^ fraction.toList.length) := by
  have number := @Number.point ['1'] fraction.toList [] 0 (.inl (cons_ne_nil _ _))
    (forall_mem_singleton.mpr rfl) (all_eq_true.mp digits) .absent
  rw [zero_sub, zpow_neg, zpow_natCast, ← div_eq_mul_inv, List.append_nil] at number
  rw [String.toList_append]
  exact ⟨_, number, rfl⟩

/-- Just below the point halfway between one and the next single-precision number, the number that is
written lies above it. -/
theorem not_same_halfway :
    ¬ Same .float (.literal "1.00000005960464477539062499999") (.literal "1.0000000596046448") := by
  rw [same_iff]
  rintro ⟨datum, given, written⟩
  have normal : Format.binary32.Normal 8388608 (-23) := ⟨by decide, by decide, .inl (by decide)⟩
  cases given with
  | float given stored =>
    cases written with
    | float written stored' =>
      obtain rfl := given.unique (constant_point "00000005960464477539062499999" (by decide +kernel))
      obtain rfl := written.unique (constant_point "0000000596046448" (by decide +kernel))
      obtain ⟨m₁, e₁, rounds, size⟩ := Format.Stores.abs false (by positivity) stored
      obtain ⟨m₂, e₂, rounds', size'⟩ := Format.Stores.abs false (by positivity) stored'
      have low : ofDigits ('1' :: "00000005960464477539062499999".toList) =
          100000005960464477539062499999 := by
        decide +kernel
      have high : ofDigits ('1' :: "0000000596046448".toList) = 10000000596046448 := by decide +kernel
      have count : "00000005960464477539062499999".toList.length = 29 := by decide +kernel
      have count' : "0000000596046448".toList.length = 16 := by decide +kernel
      rw [low, count] at rounds
      rw [high, count'] at rounds'
      have less := Format.Rounds.lt_of_halfway normal (by norm_num) (by norm_num) rounds rounds'
      rw [← size, ← size'] at less
      exact lt_irrefl _ less

/-- A number with a zero in front, with a mark behind it, or close to halfway between two single-precision
numbers means something else as a default than as a constant, or nothing at all. -/
theorem not_same_respelled :
    (untyped.Writes "int" "010" (.int 10) (.literal "010") (.literal "10") ∧
      ¬ Same .integer (.literal "010") (.literal "10")) ∧
    (untyped.Writes "double" "1.5f" (.float oneAndHalf) (.literal "1.5f") (.literal "1.5") ∧
      ¬ Same .double (.literal "1.5f") (.literal "1.5")) ∧
    (∃ v, untyped.Writes "float" "1.00000005960464477539062499999" v
      (.literal "1.00000005960464477539062499999") (.literal "1.0000000596046448")) ∧
      ¬ Same .float (.literal "1.00000005960464477539062499999") (.literal "1.0000000596046448") := by
  have half : oneAndHalf.text = "1.5" := by decide +kernel
  refine ⟨⟨?_, fun same => ?_⟩, ⟨?_, fun same => ?_⟩, ?_, not_same_halfway⟩
  · exact untyped.writes_integer (by decide +kernel) (by decide) (by decide +kernel) (by decide +kernel)
  · have read : int64? "010" = some 10 := by decide +kernel
    exact absurd ((same_integer_iff read).mp same ['1', '0'] rfl (all_eq_true.mp rfl)) (by decide)
  · have writes : untyped.Writes "double" "1.5f" (.float oneAndHalf) (.literal "1.5f")
        (.literal oneAndHalf.text) :=
      untyped.writes_double (by decide +kernel) (by decide) (by decide +kernel) (by decide +kernel)
    rwa [half] at writes
  · have read : Catalog.markedFloat? "1.5f" = some oneAndHalf := by decide +kernel
    have spelled := (same_double_iff read).mp (half ▸ same)
    cases spelled.unmarked 'f' (by decide +kernel)
  · have trimmed : trim "1.00000005960464477539062499999" = "1.00000005960464477539062499999" := by
      decide +kernel
    have writes := untyped.writes_float (f := .finite false 4503599895805952 (-52)) trimmed (by decide)
      (by decide +kernel : untyped.catalog.classify "float" = .float) (by decide +kernel)
    have unmarked : beforeTail? "1.00000005960464477539062499999" "f" = none := by decide +kernel
    have text : (Binary64.finite false 4503599895805952 (-52)).text = "1.0000000596046448" := by decide +kernel
    rw [unmarked, text] at writes
    exact ⟨_, writes⟩

end Context

end GoTrees
