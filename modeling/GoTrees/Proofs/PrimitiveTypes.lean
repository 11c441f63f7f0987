import GoTrees.Emit.Literal
import GoTrees.Proofs.Slices
import GoTrees.Proofs.Spellings

/-!
# The Go names of primitive types

A spelling is classified by its name, its sign and whether a `*` follows; its Go name comes from
replacements. On canonical texts the two agree exactly if the replacements know the name with the sign.
-/

namespace GoTrees.GoType

open Text Catalog
open Spelling (qualifiers markChars Framed)
open List hiding contains replace

variable {name : String} {sign : Option Sign} {pointer : Nat} {kind : ValueType}

/-- Go's names for what a primitive type denotes. -/
def goNames : ValueType → List String
  | .bool => ["bool"]
  | .integer =>
    ["int", "int8", "int16", "int32", "int64", "uint", "uint8", "uint16", "uint32", "uint64", "uintptr",
     "byte", "rune"]
  | .float => ["float32"]
  | .double => ["float64"]
  | .string => ["string"]
  | .status => ["bt.Status"]
  | _ => []

/-- The names that the replacements know with each sign and with none. -/
def signedNames : List String :=
  ["int", "short", "long", "long long", "llong", "char", "byte", "sbyte", "ubyte", "int8", "int16", "int32",
   "int64"]

/-- Those that they know without `unsigned`. -/
def unsignedNames : List String :=
  ["bool", "float", "double", "EBTStatus", "behaviac::EBTStatus", "string", "std::string",
   "behaviac::string", "behaviac::wstring", "szstring", "cszstring", "uint8", "uint16", "uint32", "uint64",
   "uint", "ushort", "ulong", "ullong"]

/-- The replacements know the name with the sign; `unsigned` does not go with pointers to `char`. -/
def Known (name : String) (sign : Option Sign) (pointer : Nat) : Prop :=
  name ∈ signedNames ++ unsignedNames ∧
    (sign = some .unsigned → name ∈ signedNames ∧ (name = "char" → pointer = 0))

instance : Decidable (Known name sign pointer) := inferInstanceAs (Decidable (_ ∧ _))

/-- The names that denote a primitive type; a sign can stand without one. -/
def nativeNames : List String :=
  ["", "bool", "char", "wchar_t", "float", "double", "EBTStatus", "behaviac::EBTStatus"] ++ stringNames ++
    integerNames

theorem mem_nativeNames (found : builtin? name sign pointer = some kind) (primitive : goNames kind ≠ []) :
    name ∈ nativeNames ∧ (name = "" → sign.isSome = true) := by
  unfold builtin? at found
  split at found <;> (try split_ifs at found) <;> cases found <;> simp_all [goNames, nativeNames]

/-! ### Replacements of characters -/

/-- Applies replacements to characters. -/
def rewritten (table : List (String × String)) (cs : List Char) : List Char :=
  (table.map fun r => (r.1.toList, r.2.toList)).foldl (fun cs r => replaceFrom r.1 r.2 0 cs) cs

theorem toList_replaceAll : ∀ {table : List (String × String)}, (∀ r ∈ table, r.1 ≠ "") → ∀ s : String,
    (replaceAll table s).toList = trimBy isBlank (rewritten table s.toList)
  | [], _, s => by simp [replaceAll, trim, rewritten]
  | r :: table, filled, s => by
      rw [forall_mem_cons] at filled
      rw [replaceAll_cons, toList_replaceAll filled.2]
      simp [rewritten, replace, replaceChars, filled.1]

theorem rewritten_const (cs : List Char) :
    rewritten nativeReplacements ("const ".toList ++ cs) = rewritten nativeReplacements cs := by
  simp only [rewritten, nativeReplacements, map_cons, map_nil, String.reduceToList]
  rfl

instance (cs : List Char) : Decidable (Framed cs) :=
  decidable_of_iff (cs ≠ [] ∧ cs.head?.all (!isBlank ·) = true ∧ cs.getLast?.all (!isBlank ·) = true)
    (by simpa [Option.all_eq_true] using ⟨fun h => ⟨h.1, h.2.1, h.2.2⟩, fun h => ⟨h.filled, h.head, h.last⟩⟩)

/-- The text of a spelling in front of the marks. -/
def wordChars (isConst : Bool) (sign : Option Sign) (name : String) : List Char :=
  (join " " (qualifiers isConst sign ++ if name.isEmpty then [] else [name])).toList

/-- The replacements are run on every name, with each sign and with none. -/
theorem known_iff : ∀ name ∈ nativeNames, ∀ sign ∈ [none, some Sign.signed, some .unsigned],
    (name = "" → sign.isSome = true) → ∀ pointer ∈ [0, 1],
    let native := rewritten nativeReplacements (wordChars false sign name ++ replicate pointer '*')
    let go := rewritten goReplacements native
    let names := goNames ((builtin? name sign pointer).getD .void)
    Framed native ∧ Framed go ∧ '<' ∉ go ∧
      (names ≠ [] → (go ∈ names.map String.toList ↔ Known name sign pointer)) := by
  simp only [rewritten, nativeReplacements, goReplacements, map_cons, map_nil, String.reduceToList]
  decide +kernel

/-! ### Marks -/

section
variable {pat new cs ms : List Char} (marks : ∀ c ∈ ms, isMark c = true)
include marks

/-- Marks at the end stay if no occurrence reaches into them. -/
theorem replaceFrom_marks (letter : ∃ c ∈ pat.head?, isMark c = false)
    (apart : ∀ t m rest, t <:+ cs → m :: rest <+: ms → pat ≠ t ++ m :: rest) :
    replaceFrom pat new 0 (cs ++ ms) = replaceFrom pat new 0 cs ++ ms := by
  obtain ⟨c, first, letter⟩ := letter
  have filled : pat ≠ [] := by rintro rfl; cases first
  have stay : replaceFrom pat new 0 (ms ++ []) = ms ++ [] := by
    refine replaceFrom_gap (fun d hd mem => ?_) filled []
    obtain rfl := Option.some.inj (first.symm.trans mem)
    simp [marks _ hd] at letter
  rw [replaceFrom_append filled ms cs fun t part _ lead => ?_, ← List.append_nil ms, stay]
  rcases prefix_or_prefix_of_prefix lead (prefix_append t ms) with within | ⟨_ | ⟨m, rest⟩, rfl⟩
  · exact within
  · simp
  · exact absurd rfl (apart t m rest part ((prefix_append_right_inj t).mp lead))

theorem rewritten_append : ∀ {table : List (String × String)} {cs : List Char},
    (∀ r ∈ table, r.1 ≠ "" ∧ AllChars (isMark · = false) r.1) →
    rewritten table (cs ++ ms) = rewritten table cs ++ ms
  | [], _, _ => rfl
  | r :: table, cs, h => by
      rw [forall_mem_cons] at h
      obtain ⟨c, rest, same⟩ := exists_cons_of_ne_nil (l := r.1.toList) (by simpa using h.1.1)
      have step : replaceFrom r.1.toList r.2.toList 0 (cs ++ ms) =
          replaceFrom r.1.toList r.2.toList 0 cs ++ ms := by
        refine replaceFrom_marks marks ⟨c, by simp [same], h.1.2 c (by simp [same])⟩ ?_
        intro t m rest _ lead eq
        have mark := marks m (lead.subset mem_cons_self)
        simp [h.1.2 m (by simp [eq])] at mark
      exact (congrArg (rewritten table) step).trans (rewritten_append h.2)

/-- Only the first `*` can belong to `char*`. -/
theorem rewritten_native (star : ms.head? = some '*' → ∃ before, cs = before ++ ['*']) :
    rewritten nativeReplacements (cs ++ ms) = rewritten nativeReplacements cs ++ ms := by
  have plain : ∀ r ∈ nativeReplacements.take 11 ++ nativeReplacements.drop 12,
      r.1 ≠ "" ∧ AllChars (isMark · = false) r.1 := by
    simp [nativeReplacements, AllChars, isMark]
  rw [forall_mem_append] at plain
  have split (cs : List Char) : rewritten nativeReplacements cs =
      rewritten (nativeReplacements.drop 12) (replaceFrom ['c', 'h', 'a', 'r', '*'] "string".toList 0
        (rewritten (nativeReplacements.take 11) cs)) := by
    simp [rewritten, nativeReplacements]
  rw [split, split, rewritten_append marks plain.1, replaceFrom_marks marks, rewritten_append marks plain.2]
  · exact ⟨'c', rfl, rfl⟩
  · rintro t m rest ⟨front, whole⟩ ⟨more, rfl⟩ eq
    have mark := marks m mem_cons_self
    rcases t with _ | ⟨_, _ | ⟨_, _ | ⟨_, _ | ⟨d, _ | ⟨_, t⟩⟩⟩⟩⟩ <;> simp at eq
    case cons.cons.cons.cons.nil =>
      obtain ⟨rfl, rfl, rfl, rfl, rfl, -⟩ := eq
      obtain ⟨before, rfl⟩ := star rfl
      rw [rewritten_append (by simp [isMark]) plain.1] at whole
      simpa using congrArg getLast? whole
    all_goals simp [isMark, ← eq] at mark

theorem rewritten_go : rewritten goReplacements (cs ++ ms) = rewritten goReplacements cs := by
  have split (cs : List Char) : rewritten goReplacements cs =
      rewritten (goReplacements.drop 3) (replaceFrom "&".toList "".toList 0
        (replaceFrom "*".toList "".toList 0 (rewritten (goReplacements.take 1) cs))) := by
    simp [rewritten, goReplacements]
  have none : ms.filter (fun c => c != '&' && c != '*') = [] := by
    simpa [filter_eq_nil_iff, isMark, or_iff_not_imp_right] using marks
  rw [split, split, rewritten_append marks (by simp [goReplacements, AllChars, isMark])]
  simp [replaceFrom_single, none]

/-- The marks behind a text go. -/
theorem toList_common_marks (star : ms.head? = some '*' → ∃ before, cs = before ++ ['*'])
    (native : Framed (rewritten nativeReplacements cs))
    (go : Framed (rewritten goReplacements (rewritten nativeReplacements cs))) :
    (common (.ofList (cs ++ ms))).toList = rewritten goReplacements (rewritten nativeReplacements cs) := by
  have filled : ∀ r ∈ nativeReplacements ++ goReplacements, r.1 ≠ "" := by decide
  rw [forall_mem_append] at filled
  have trim {cs : List Char} (h : Framed cs) : trimBy isBlank cs = cs := by
    simpa using trimBy_around h.head h.last (forall_mem_nil _) (forall_mem_nil _)
  have framed : Framed (rewritten nativeReplacements cs ++ ms) := by
    refine Spelling.framed_append native.filled native.head fun c hc => ?_
    rw [getLast?_append, Option.mem_def, Option.or_eq_some_iff] at hc
    rcases hc with last | ⟨-, last⟩
    · exact Spelling.isBlank_of_isMark (marks c (mem_of_getLast? last))
    · exact native.last c last
  rw [common, toList_replaceAll filled.2, toList_replaceAll filled.1, String.toList_ofList,
    rewritten_native marks star, trim framed, rewritten_go marks, trim go]

end

theorem ofNative_nil (t : String) : ofNative [] t = sliced (common t) := by
  rw [ofNative, renamed, find?_nil]
  rfl

/-- The words of a canonical text are among those that were checked, apart from `const`, and the marks go. -/
theorem ofNative_iff {s : Spelling} (plain : s.args = [])
    (found : builtin? s.name s.sign s.pointer = some kind) (primitive : goNames kind ≠ []) :
    ofNative [] s.render ∈ goNames kind ↔ Known s.name s.sign s.pointer := by
  obtain ⟨isConst, sign, name, args, pointer, reference⟩ := s
  obtain rfl : args = [] := plain
  obtain ⟨mem, signed⟩ := mem_nativeNames found primitive
  obtain ⟨native, go, clear, agree⟩ := known_iff name mem sign (by rcases sign with _ | _ | _ <;> simp) signed
    (min pointer 1) (by simp; omega)
  have same : rewritten nativeReplacements (wordChars isConst sign name ++ replicate (min pointer 1) '*') =
      rewritten nativeReplacements (wordChars false sign name ++ replicate (min pointer 1) '*') := by
    cases isConst with
    | false => rfl
    | true =>
      have front : wordChars true sign name = "const ".toList ++ wordChars false sign name := by
        rcases sign with _ | _ | _ <;> by_cases empty : name = "" <;>
          simp_all [wordChars, qualifiers, join]
      rw [front, List.append_assoc, rewritten_const]
  have text : Spelling.render ⟨isConst, sign, name, [], pointer, reference⟩ =
      .ofList (wordChars isConst sign name ++ replicate (min pointer 1) '*' ++
        markChars (pointer - 1) reference) := by
    cases pointer <;>
      simp [Spelling.render, Spelling.chars, Spelling.argChars, wordChars, markChars, replicate_succ]
  have marks := Spelling.isMark_markChars (pointer - 1) reference
  rw [← same] at native go clear agree
  have chars := toList_common_marks marks (fun head => ⟨wordChars isConst sign name, ?_⟩) native go
  · have kinds : builtin? name sign (min pointer 1) = builtin? name sign pointer := by simp [builtin?]
    rw [← chars, ← text] at clear agree
    rw [kinds, found, Option.getD_some, mem_map_of_injective fun _ _ => String.toList_inj.mp] at agree
    rw [ofNative_nil, sliced_of_not_mem clear]
    exact (agree primitive).trans (by simp [Known])
  · cases pointer with
    | zero => cases reference <;> simp [markChars] at head
    | succ n => simp

/-! ### Arguments -/

theorem bracket_mem_replaceAll : ∀ {table : List (String × String)} {t : String},
    (∀ r ∈ table, r.1 ≠ "" ∧ '<' ∉ r.1.toList) → '<' ∈ t.toList → '<' ∈ (replaceAll table t).toList
  | [], t, _, h => by
      obtain ⟨lead, tail, split, front, back⟩ := trimBy_split isBlank t.toList
      rw [split, mem_append, mem_append] at h
      rcases h with (mem | mem) | mem
      · cases front _ mem
      · simpa [replaceAll, trim] using mem
      · cases back _ mem
  | r :: table, t, clear, h => by
      rw [forall_mem_cons] at clear
      obtain ⟨front, rest, split⟩ := append_of_mem h
      have filled : r.1.toList ≠ [] := by simpa using clear.1.1
      refine bracket_mem_replaceAll (t := replace t r.1 r.2) clear.2 ?_
      simp [replace, replaceChars, split, replaceFrom_append_cons clear.1.2 filled, clear.1.1]

/-- A bracket stays, or the mark of a slice stands in its place. -/
theorem ofNative_of_bracket {t : String} (h : '<' ∈ t.toList) : ofNative [] t ∉ goNames kind := by
  have clear : ∀ table ∈ [nativeReplacements, goReplacements], ∀ r ∈ table,
      r.1 ≠ "" ∧ '<' ∉ r.1.toList := by decide +kernel
  have kept : '<' ∈ (common t).toList := bracket_mem_replaceAll (clear _ (by simp))
    (bracket_mem_replaceAll (clear _ (by simp)) h)
  have marked : '<' ∈ (sliced (common t)).toList ∨ '[' ∈ (sliced (common t)).toList := by
    rw [sliced]
    split
    · rw [replace_slice (by decide) (by decide)]
      exact .inr (by simp)
    · exact .inl kept
  have names : ∀ name ∈ goNames kind, '<' ∉ name.toList ∧ '[' ∉ name.toList := by
    cases kind <;> simp [goNames]
  rw [ofNative_nil]
  exact fun mem => marked.elim (names _ mem).1 (names _ mem).2

/-! ### Variables and literals -/

/-- A variable of the Go type takes the constant. -/
inductive Takes : String → Go.Expr → Prop
  | truth : Takes "bool" (.literal "false")
  | number {type : String} (numeric : ∃ kind ∈ [.integer, .float, .double], type ∈ goNames kind) :
      Takes type (.literal "0")
  | text (s : String) : Takes "string" (.string s)
  | status (s : Status) : Takes "bt.Status" s.expr

theorem takes_literal {type : String} (h : type ∈ goNames kind) (goType : String) :
    ∃ literal, literalFor kind goType none = some literal ∧ Takes type literal := by
  cases kind with
  | bool => exact ⟨_, rfl, mem_singleton.mp h ▸ .truth⟩
  | integer | float | double => exact ⟨_, rfl, .number ⟨_, by decide, h⟩⟩
  | string => exact ⟨_, rfl, mem_singleton.mp h ▸ .text _⟩
  | status => exact ⟨_, rfl, mem_singleton.mp h ▸ .status _⟩
  | _ => exact absurd h not_mem_nil

theorem builtin?_of_primitive {c : Catalog} (primitive : goNames (c.classifyPlain name sign pointer) ≠ []) :
    builtin? name sign pointer = some (c.classifyPlain name sign pointer) := by
  rw [classifyPlain] at primitive ⊢
  cases found : builtin? name sign pointer with
  | some kind => rfl
  | none =>
    refine absurd ?_ primitive
    rw [found, Option.getD_none, classifyName]
    split <;> [rfl; split <;> [rfl; split <;> rfl]]

end GoTrees.GoType
