import GoTrees.Proofs.Merging
import GoTrees.Proofs.Names

/-!
# Encoded literals are read back

A scalar is encoded as its text, an array as its length, a colon and its items with bars between them, and a
struct as its fields between braces, each closed by a semicolon. Every alternative of the grammar is told by
the first characters that are no blanks: a brace opens a struct, digits and a colon open an array, and
neither can stand in front of a scalar that holds no mark of the grammar. So each value is read up to the
mark behind it, whatever follows that mark.

    literal  ──▶  struct │ array │ scalar       items  ──▶  item ( | item )*
    field    ──▶  name = value ;                item   ──▶  struct │ scalar
-/

namespace GoTrees.Literal

open Text Numeral Merge List

variable {stop rest cs : List Char} {c : Char} {text : String}

/-! ### The encoding -/

mutual

def chars : Literal → List Char
  | .scalar text => text.toList
  | .array items => (toString items.length).toList ++ ':' :: itemChars items
  | .struct fields => '\x7b' :: fieldChars fields ++ ['\x7d']

/-- The items of an array with bars between them. -/
def itemChars : List Literal → List Char
  | [] => []
  | [item] => item.chars
  | item :: next :: items => item.chars ++ '|' :: itemChars (next :: items)

/-- The fields of a struct, each closed by a semicolon. -/
def fieldChars : List (String × Literal) → List Char
  | [] => []
  | (name, value) :: fields => name.toList ++ '=' :: value.chars ++ ';' :: fieldChars fields

end

def encode (r : Literal) : String := .ofList r.chars

def marks : List Char := ['\x7b', '\x7d', '|', ';', ':']

/-- The text holds no mark of the grammar and has no blank at its ends. -/
structure IsScalar (text : String) : Prop where
  first : ∀ c ∈ text.toList.head?, isBlank c = false
  last : ∀ c ∈ text.toList.getLast?, isBlank c = false
  unmarked : ∀ c ∈ text.toList, c ∉ marks

instance (text : String) : Decidable (IsScalar text) :=
  decidable_of_iff (text.toList.head?.all (!isBlank ·) = true ∧ text.toList.getLast?.all (!isBlank ·) = true ∧
    AllChars (· ∉ marks) text) (by
      simp only [Option.all_eq_true, Bool.not_eq_true']
      exact ⟨fun h => ⟨h.1, h.2.1, h.2.2⟩, fun h => ⟨h.first, h.last, h.unmarked⟩⟩)

/-- The text is a letter or an underscore, followed by letters, digits and underscores. -/
def IsIdentifier (name : String) : Prop :=
  name.toList.head?.any isWordStart = true ∧ name.toList.tail.all isWordChar = true

instance (name : String) : Decidable (IsIdentifier name) := inferInstanceAs (Decidable (_ ∧ _))

theorem IsIdentifier.cons {name : String} (h : IsIdentifier name) :
    ∃ c cs, name.toList = c :: cs ∧ isWordStart c = true ∧ ∀ d ∈ cs, isWordChar d = true := by
  obtain ⟨start, more⟩ := h
  cases hname : name.toList with
  | nil => simp [hname] at start
  | cons c cs =>
    rw [hname] at start more
    exact ⟨c, cs, rfl, start, all_eq_true.mp more⟩

def isArray : Literal → Bool
  | .array _ => true
  | _ => false

/-- The literals that the encoding is made for: an array is no item of an array. -/
inductive Encodable : Literal → Prop
  | scalar {text : String} (plain : IsScalar text) : Encodable (.scalar text)
  | array {items : List Literal} (flat : ∀ item ∈ items, item.isArray = false)
      (inner : ∀ item ∈ items, Encodable item) : Encodable (.array items)
  | struct {fields : List (String × Literal)} (named : ∀ f ∈ fields, IsIdentifier f.1)
      (inner : ∀ f ∈ fields, Encodable f.2) : Encodable (.struct fields)

/-! ### Scalars end at a mark -/

/-- The marks that can stand behind a value. -/
def closers : List Char := ['|', ';', '\x7d']

/-- The characters are at their end, or at a mark where a value stops. -/
def Stops (stop rest : List Char) : Prop := ∀ c ∈ rest.head?, c ∈ stop

theorem Stops.mono {stop' : List Char} (h : Stops stop rest) (sub : stop ⊆ stop') :
    Stops stop' rest := fun c hc => sub (h c hc)

theorem stops_cons (h : c ∈ stop) (rest : List Char) :
    Stops stop (c :: rest) := by
  rintro d ⟨rfl⟩
  exact h

theorem of_mem_closers (h : c ∈ closers) :
    isSpace c = false ∧ isDigit c = false ∧ c ≠ ':' ∧ c ≠ '\x7b' := by
  simp only [closers, mem_cons, not_mem_nil, or_false] at h
  rcases h with rfl | rfl | rfl <;> decide

theorem isSpace_of_isBlank (h : isBlank c = false) : isSpace c = false := by
  by_contra space
  simp only [isSpace, Bool.not_eq_false, Bool.or_eq_true, beq_iff_eq] at space
  rcases space with rfl | rfl <;> revert h <;> decide

/-- A scalar and the mark behind it start with no blank and open no struct. -/
theorem head_scalar (plain : IsScalar text) (h : Stops closers rest) :
    ∀ c ∈ (text.toList ++ rest).head?, isSpace c = false ∧ c ≠ '\x7b' := by
  intro c hc
  cases ht : text.toList with
  | nil =>
    rw [ht, List.nil_append] at hc
    obtain ⟨space, -, -, brace⟩ := of_mem_closers (h c hc)
    exact ⟨space, brace⟩
  | cons d ds =>
    rw [ht] at hc
    obtain rfl : d = c := by simpa using hc
    have unmarked := plain.unmarked d (by simp [ht])
    refine ⟨isSpace_of_isBlank (plain.first d (by simp [ht])), ?_⟩
    rintro rfl
    exact unmarked (by decide)

/-- A scalar is read up to what stops it. -/
theorem scalarUntil_append (plain : IsScalar text) (hstop : stop ⊆ marks) (h : Stops stop rest) :
    scalarUntil stop (text.toList ++ rest) = (.scalar text, rest) := by
  have inside : ∀ c ∈ text.toList, (!stop.contains c) = true := by
    intro c hc
    simpa using fun hs => plain.unmarked c hc (hstop hs)
  have outside : ∀ c ∈ rest.head?, (!stop.contains c) = false := by
    intro c hc
    simpa using h c hc
  have front : text.toList.dropWhile isBlank = text.toList := by
    cases ht : text.toList with
    | nil => rfl
    | cons c cs => exact dropWhile_cons_of_neg (by simp [plain.first c (by simp [ht])])
  have nothing : text.toList.dropWhile (fun c => !stop.contains c) = [] :=
    dropWhile_eq_nil_iff.mpr inside
  rw [scalarUntil, takeWhile_append_stop inside outside, dropWhile_append_stop outside, nothing,
    trimBy, front, trimEndBy_eq_self plain.last, String.ofList_toList, List.nil_append]

/-! ### Scalars open nothing -/

theorem parseStruct_none (h : ∀ c ∈ cs.head?, isSpace c = false ∧ c ≠ '\x7b') :
    ∀ fuel, parseStruct fuel cs = none
  | 0 => by rw [parseStruct]
  | fuel + 1 => by
      cases cs with
      | nil => rw [parseStruct]; rfl
      | cons c cs =>
        obtain ⟨space, brace⟩ := h c rfl
        rw [parseStruct, dropWhile_cons_of_neg (by simp [space])]
        split
        · next rest heq => exact absurd (List.cons.inj heq).1 brace
        · rfl

/-- A scalar has no length in front. -/
theorem count?_scalar (plain : IsScalar text) (h : Stops closers rest) :
    count? (text.toList ++ rest) = none := by
  have space : ∀ c ∈ rest.head?, isSpace c = false := fun c hc => (of_mem_closers (h c hc)).1
  have digit : ∀ c ∈ rest.head?, isDigit c = false := fun c hc => (of_mem_closers (h c hc)).2.1
  have colon : ∀ c ∈ rest.head?, c ≠ ':' := fun c hc => (of_mem_closers (h c hc)).2.2.1
  rw [count?]
  split
  · rfl
  · rw [dropWhile_append_stop space, dropWhile_append_stop digit, dropWhile_append_stop space]
    split
    · next front heq =>
      exfalso
      -- The colon would be a character of the scalar or the mark behind it.
      cases hm : ((text.toList.dropWhile isSpace).dropWhile isDigit).dropWhile isSpace with
      | nil =>
        rw [hm, List.nil_append] at heq
        exact colon ':' (by rw [heq]; rfl) rfl
      | cons c cs =>
        rw [hm] at heq
        obtain rfl : c = ':' := (List.cons.inj heq).1
        have mem : ':' ∈ ((text.toList.dropWhile isSpace).dropWhile isDigit).dropWhile isSpace := by
          rw [hm]
          exact mem_cons_self
        have mem : ':' ∈ text.toList := (dropWhile_suffix _).subset
          ((dropWhile_suffix _).subset ((dropWhile_suffix _).subset mem))
        exact plain.unmarked ':' mem (by decide)
    · rfl

/-! ### Lengths and names -/

theorem isDigit_eq_isDigit (h : c.isDigit = true) : isDigit c = true := by
  simp only [Char.isDigit, Bool.and_eq_true, decide_eq_true_eq] at h
  simp only [isDigit, Bool.and_eq_true, decide_eq_true_eq]
  exact h

theorem ofDigits_toString (n : Nat) : ofDigits (toString n).toList = n := by
  have digits : (toString n).toList = Nat.toDigits 10 n := Nat.toList_repr
  rw [digits]
  exact Nat.ofDigitChars_ten_toDigits

theorem toString_ne_nil (n : Nat) : (toString n).toList ≠ [] := by
  have digits : (toString n).toList = Nat.toDigits 10 n := Nat.toList_repr
  rw [digits]
  exact Nat.toDigits_ne_nil

/-- Digits are neither blanks nor braces. -/
theorem of_isDigit (h : isDigit c = true) : isSpace c = false ∧ c ≠ '\x7b' := by
  constructor
  · by_contra space
    simp only [isSpace, Bool.not_eq_false, Bool.or_eq_true, beq_iff_eq] at space
    rcases space with rfl | rfl <;> revert h <;> decide
  · rintro rfl
    revert h
    decide

theorem head_toString (n : Nat) (cs : List Char) :
    ∀ c ∈ ((toString n).toList ++ cs).head?, isSpace c = false ∧ c ≠ '\x7b' := by
  intro c hc
  rw [head?_append_of_ne_nil _ (toString_ne_nil n)] at hc
  exact of_isDigit (isDigit_eq_isDigit (isDigit_of_mem_toString (mem_of_mem_head? hc)))

/-- The length in front of an array is read back. -/
theorem count?_toString (n : Nat) (rest : List Char) :
    count? ((toString n).toList ++ ':' :: rest) = some (n, rest) := by
  have front : ((toString n).toList ++ ':' :: rest).dropWhile isSpace =
      (toString n).toList ++ ':' :: rest := by
    cases hcs : (toString n).toList ++ ':' :: rest with
    | nil => rfl
    | cons c cs =>
      have head := head_toString n (':' :: rest) c (by rw [hcs]; rfl)
      exact dropWhile_cons_of_neg (by simp [head.1])
  have digits : ∀ c ∈ (toString n).toList, isDigit c = true :=
    fun c hc => isDigit_eq_isDigit (isDigit_of_mem_toString hc)
  have colon : ∀ c ∈ (':' :: rest).head?, isDigit c = false := by
    rintro c ⟨rfl⟩
    decide
  have nothing : (toString n).toList.dropWhile isDigit = [] := dropWhile_eq_nil_iff.mpr digits
  rw [count?, front, takeWhile_append_stop digits colon, if_neg (by simp),
    dropWhile_append_stop colon, nothing, List.nil_append, ofDigits_toString,
    dropWhile_cons_of_neg (by decide)]
  rfl

theorem isBreakOrSpace_of_isWordStart (h : isWordStart c = true) :
    isBreakOrSpace c = false := by
  by_contra blank
  simp only [isBreakOrSpace, isSpace, Bool.not_eq_false, Bool.or_eq_true, beq_iff_eq, or_assoc] at blank
  rcases blank with rfl | rfl | rfl | rfl <;> revert h <;> decide

/-- The name of a field is read back up to its equals sign, and so are the blanks behind that. -/
theorem fieldName?_append {name : String} (h : IsIdentifier name) (head : ∀ c ∈ cs.head?, isSpace c = false) :
    fieldName? (name.toList ++ '=' :: cs) = some (name, cs) := by
  obtain ⟨c, word, hname, start, more⟩ := h.cons
  have equals : ∀ d ∈ ('=' :: cs).head?, isWordChar d = false := by
    rintro d ⟨rfl⟩
    decide
  have nothing : word.dropWhile isWordChar = [] := dropWhile_eq_nil_iff.mpr more
  have kept : cs.dropWhile isSpace = cs := by simpa using dropWhile_append_stop head []
  rw [fieldName?, hname, cons_append,
    dropWhile_cons_of_neg (by simp [isBreakOrSpace_of_isWordStart start]), identifier?, if_pos start,
    takeWhile_append_stop more equals, dropWhile_append_stop equals, nothing, List.nil_append, ← hname]
  simp only [dropWhile_cons_of_neg (show ¬ isSpace '=' = true by decide), kept, String.ofList_toList]

theorem fieldName?_close (rest : List Char) : fieldName? ('\x7d' :: rest) = none := by
  rw [fieldName?, dropWhile_cons_of_neg (by decide), identifier?, if_neg (by decide)]

/-! ### Values are read back -/

/-- What is read for the items of an array: even where there are none, one empty scalar is. -/
def padded : List Literal → List Literal
  | [] => [.scalar ""]
  | item :: items => item :: items

theorem bounded_padded (items : List Literal) : bounded items.length (padded items) = items := by
  cases items with
  | nil => rfl
  | cons item items =>
    rw [padded, bounded]
    split
    · exact take_length
    · rfl

theorem isScalar_empty : IsScalar "" := ⟨by simp, by simp, by simp⟩

theorem closers_subset_marks : closers ⊆ marks := by decide

/-- Values start with no blank. -/
theorem head_chars {r : Literal} (h : Encodable r) (stops : Stops closers rest) :
    ∀ c ∈ (r.chars ++ rest).head?, isSpace c = false := by
  cases h with
  | scalar plain => exact fun c hc => (head_scalar plain stops c hc).1
  | array flat inner =>
    intro c hc
    rw [chars, List.append_assoc] at hc
    exact (head_toString _ _ c hc).1
  | struct named inner =>
    rintro c ⟨rfl⟩
    decide

/-- An item is a scalar, unless it is read as a struct. -/
theorem item_chars (fuel : Nat) (item : Literal) (sub : stop ⊆ closers)
    (stops : Stops stop rest) (flat : item.isArray = false) (h : Encodable item)
    (read : ∀ fields, item = .struct fields →
      parseStruct fuel (item.chars ++ rest) = some (item, rest)) :
    (parseStruct fuel (item.chars ++ rest)).getD (scalarUntil stop (item.chars ++ rest)) =
      (item, rest) := by
  cases h with
  | scalar plain =>
    rw [chars, parseStruct_none (head_scalar plain (stops.mono sub)), Option.getD_none]
    exact scalarUntil_append plain (List.Subset.trans sub closers_subset_marks) stops
  | array _ _ => cases flat
  | struct _ _ => rw [read _ rfl, Option.getD_some]

theorem parseItems_last {fuel : Nat} {item : Literal}
    (read : (parseStruct fuel cs).getD (scalarUntil stop cs) = (item, rest))
    (bar : ∀ c ∈ rest.head?, c ≠ '|') : parseItems (fuel + 1) stop cs = ([item], rest) := by
  rw [parseItems, read]
  simp only
  split
  · exact absurd rfl (bar '|' rfl)
  · rfl

theorem parseItems_more {fuel : Nat} {cs' : List Char} {item : Literal} {items : List Literal}
    (read : (parseStruct fuel cs).getD (scalarUntil stop cs) = (item, '|' :: cs'))
    (more : parseItems fuel stop cs' = (items, rest)) :
    parseItems (fuel + 1) stop cs = (item :: items, rest) := by
  rw [parseItems, read]
  simp only [more]

mutual

/-- A struct is read up to its closing brace. -/
theorem parseStruct_chars : ∀ (fuel : Nat) (fields : List (String × Literal)) (rest : List Char),
    Encodable (.struct fields) → (chars (.struct fields)).length ≤ fuel →
    parseStruct fuel (chars (.struct fields) ++ rest) = some (.struct fields, rest)
  | 0, fields, rest, _, long => by simp [chars] at long
  | fuel + 1, fields, rest, h, long => by
      have inside := parseFields_chars fuel fields rest h (by simpa [chars] using long)
      have shape : chars (.struct fields) ++ rest = '\x7b' :: (fieldChars fields ++ '\x7d' :: rest) := by
        simp [chars]
      rw [shape, parseStruct, dropWhile_cons_of_neg (by decide)]
      simp only [inside]
      rw [dropWhile_cons_of_neg (by decide)]
      rfl

/-- Fields are read back from their characters. -/
theorem parseFields_chars : ∀ (fuel : Nat) (fields : List (String × Literal)) (rest : List Char),
    Encodable (.struct fields) → (fieldChars fields).length + 1 ≤ fuel →
    parseFields fuel (fieldChars fields ++ '\x7d' :: rest) = (fields, '\x7d' :: rest)
  | 0, fields, rest, _, long => by omega
  | fuel + 1, [], rest, _, _ => by rw [fieldChars, List.nil_append, parseFields, fieldName?_close]
  | fuel + 1, (name, value) :: fields, rest, .struct named inner, long => by
      rw [forall_mem_cons] at named inner
      have size : name.toList.length + value.chars.length + (fieldChars fields).length + 3 ≤
          fuel + 1 := by
        simp only [fieldChars, length_append, length_cons] at long
        omega
      have nonempty : 1 ≤ name.toList.length := by
        obtain ⟨c, cs, hname, -⟩ := named.1.cons
        simp [hname]
      have semicolon : Stops closers (';' :: (fieldChars fields ++ '\x7d' :: rest)) :=
        stops_cons (by decide) _
      have front := fieldName?_append named.1 (head_chars inner.1 semicolon)
      have first := parseFieldValue_chars fuel value (fieldChars fields ++ '\x7d' :: rest) inner.1
        (by omega)
      have more := parseFields_chars fuel fields rest (.struct named.2 inner.2) (by omega)
      have shape : fieldChars ((name, value) :: fields) ++ '\x7d' :: rest = name.toList ++ '=' ::
          (value.chars ++ ';' :: (fieldChars fields ++ '\x7d' :: rest)) := by
        simp [fieldChars]
      rw [shape, parseFields, front]
      simp only [first, dropSemicolon, more]

theorem parseFieldValue_chars : ∀ (fuel : Nat) (value : Literal) (rest : List Char), Encodable value →
    value.chars.length + 2 ≤ fuel →
    parseFieldValue fuel (value.chars ++ ';' :: rest) = (value, ';' :: rest)
  | 0, value, rest, _, long => by omega
  | fuel + 1, .scalar text, rest, .scalar plain, long => by
      have stops : Stops closers (';' :: rest) := stops_cons (by decide) _
      rw [chars, parseFieldValue, parseStruct_none (head_scalar plain stops), count?_scalar plain stops]
      exact scalarUntil_append plain (by decide) (stops_cons (by decide) _)
  | fuel + 1, .array items, rest, .array flat inner, long => by
      have size : (itemChars items).length + 1 ≤ fuel := by
        simp only [chars, length_append, length_cons] at long
        omega
      have read := parseItems_chars fuel fieldItemStop items (';' :: rest) (by decide) (by decide)
        (stops_cons (by decide) _) flat inner size
      rw [chars, List.append_assoc, cons_append, parseFieldValue,
        parseStruct_none (head_toString _ _), count?_toString]
      simp only [read, bounded_padded]
  | fuel + 1, .struct fields, rest, h, long => by
      rw [parseFieldValue, parseStruct_chars fuel fields (';' :: rest) h (by omega)]

/-- Items are read back from their characters, and an empty one from none. -/
theorem parseItems_chars : ∀ (fuel : Nat) (stop : List Char) (items : List Literal) (rest : List Char),
    '|' ∈ stop → stop ⊆ closers → Stops (stop.filter (· != '|')) rest →
    (∀ item ∈ items, item.isArray = false) → (∀ item ∈ items, Encodable item) →
    (itemChars items).length + 1 ≤ fuel →
    parseItems fuel stop (itemChars items ++ rest) = (padded items, rest)
  | 0, stop, items, rest, _, _, _, _, _, long => by omega
  | fuel + 1, stop, [], rest, _, sub, stops, _, _, _ => by
      have read := item_chars fuel (.scalar "") sub (stops.mono (filter_subset_self _)) rfl
        (.scalar isScalar_empty) (by rintro _ ⟨⟩)
      exact parseItems_last read fun c hc => by simpa using (mem_filter.mp (stops c hc)).2
  | fuel + 1, stop, [item], rest, _, sub, stops, flat, inner, long => by
      rw [forall_mem_singleton] at flat inner
      rw [itemChars] at long ⊢
      have read := item_chars fuel item sub (stops.mono (filter_subset_self _)) flat inner
        fun fields hf => by
          subst hf
          exact parseStruct_chars fuel fields rest inner (by omega)
      exact parseItems_last read fun c hc => by simpa using (mem_filter.mp (stops c hc)).2
  | fuel + 1, stop, item :: next :: items, rest, bar, sub, stops, flat, inner, long => by
      rw [forall_mem_cons] at flat inner
      rw [itemChars, length_append, length_cons] at long
      rw [itemChars, List.append_assoc, cons_append]
      have read := item_chars fuel item sub (stops_cons bar (itemChars (next :: items) ++ rest)) flat.1
        inner.1 fun fields hf => by
          subst hf
          exact parseStruct_chars fuel fields _ inner.1 (by omega)
      have more := parseItems_chars fuel stop (next :: items) rest bar sub stops flat.2 inner.2 (by omega)
      exact parseItems_more read more

end

/-- A literal is read back from its encoding, and nothing is left. -/
theorem parse_encode (r : Literal) (h : Encodable r) : parse (encode r) = (r, "") := by
  have finished (stop : List Char) : Stops stop [] := by simp [Stops]
  have whole : parseChars r.chars = (r, []) := by
    rw [parseChars]
    cases h with
    | scalar plain =>
      have brace := parseStruct_none (head_scalar plain (finished _))
      have count := count?_scalar plain (finished _)
      have read := scalarUntil_append plain (nil_subset _) (finished _)
      rw [List.append_nil] at brace count read
      simp only [chars, brace, count, read]
    | @array items flat inner =>
      have read := parseItems_chars (chars (.array items)).length.succ.succ.succ ['|'] items [] (by decide)
        (by decide) (finished _) flat inner (by simp [chars]; omega)
      rw [List.append_nil] at read
      rw [chars] at read ⊢
      simp only [parseStruct_none (head_toString _ _), count?_toString, read, bounded_padded]
    | @struct fields named inner =>
      have read := parseStruct_chars (chars (.struct fields)).length.succ.succ.succ fields []
        (.struct named inner) (by omega)
      rw [List.append_nil] at read
      simp only [read]
  rw [parse, encode, String.toList_ofList, whole]

/-- Empty and nested values: an empty array, an empty scalar, an empty struct, and an array of a struct and a
scalar, all of them in fields. -/
def pouch : Literal :=
  .struct [("coins", .array []), ("_note", .scalar ""), ("lid", .struct []),
    ("gems", .array [.struct [("cut", .array [.scalar "", .scalar "3 4"])], .scalar "-1.5"])]

theorem parse_encode_pouch : Encodable pouch ∧
    encode pouch = "\x7bcoins=0:;_note=;lid=\x7b\x7d;gems=2:\x7bcut=2:|3 4;\x7d|-1.5;\x7d" ∧
    parse (encode pouch) = (pouch, "") := by
  have cut : Encodable (.array [.scalar "", .scalar "3 4"]) :=
    .array (by simp [isArray]) (forall_mem_cons.mpr ⟨.scalar (by decide),
      forall_mem_singleton.mpr (.scalar (by decide))⟩)
  have gems : Encodable (.array [.struct [("cut", .array [.scalar "", .scalar "3 4"])], .scalar "-1.5"]) :=
    .array (by simp [isArray]) (forall_mem_cons.mpr
      ⟨.struct (forall_mem_singleton.mpr (by decide)) (forall_mem_singleton.mpr cut),
        forall_mem_singleton.mpr (.scalar (by decide))⟩)
  have encodable : Encodable pouch := by
    refine .struct (by decide) ?_
    rintro f (_ | ⟨_, _ | ⟨_, _ | ⟨_, _ | ⟨_, ⟨⟩⟩⟩⟩⟩)
    · exact .array (forall_mem_nil _) (forall_mem_nil _)
    · exact .scalar (by decide)
    · exact .struct (forall_mem_nil _) (forall_mem_nil _)
    · exact gems
  exact ⟨encodable, by decide, parse_encode pouch encodable⟩

end GoTrees.Literal
