import GoTrees.Proofs.Lexing

/-!
# String literals end where they should

A reader of Go takes an interpreted string literal from its opening quote to the first quote that no
backslash escapes. Quotes and backslashes of a text are written with a backslash each, so no quote of the
text is taken for the end, and no backslash for the start of an escape that the text does not have.
-/

namespace GoTrees.Go

/-- What a backslash and this character stand for in a string literal. -/
def unescape? : Char → Option Char
  | '"' => some '"'
  | '\\' => some '\\'
  | 'n' => some '\n'
  | 'r' => some '\r'
  | 't' => some '\t'
  | _ => none

/-- The characters of a string literal after its opening quote, and what follows the closing one. A line
end and any other escape is refused. -/
def readString : List Char → Option (List Char × List Char)
  | [] => none
  | '"' :: rest => some ([], rest)
  | '\\' :: c :: cs =>
    match unescape? c, readString cs with
    | some d, some (s, rest) => some (d :: s, rest)
    | _, _ => none
  | c :: cs => if c = '\\' ∨ c = '\n' then none else (readString cs).map fun (s, rest) => (c :: s, rest)

/-- The text that the string literal at the front of some code stands for, and the code behind it. -/
def readLiteral? (code : String) : Option (String × String) :=
  match code.toList with
  | '"' :: cs => (readString cs).map fun (s, rest) => (.ofList s, .ofList rest)
  | _ => none

theorem readString_plain {c : Char} (mark : c ≠ '"') (slash : c ≠ '\\') (feed : c ≠ '\n') (cs : List Char) :
    readString (c :: cs) = (readString cs).map fun (s, rest) => (c :: s, rest) := by
  rw [readString, if_neg (not_or.mpr ⟨slash, feed⟩)]
  · rintro rfl
    exact mark rfl
  · rintro d ds rfl
    exact absurd rfl slash

/-- What a character is written as is read as the character. -/
theorem readString_quoteChar (c : Char) (cs : List Char) :
    readString (quoteChar c ++ cs) = (readString cs).map fun (s, rest) => (c :: s, rest) := by
  fun_cases quoteChar c with
  | case6 _ mark slash feed _ _ => exact readString_plain mark slash feed cs
  | _ =>
    simp only [List.cons_append, List.nil_append, readString, unescape?]
    cases readString cs <;> rfl

theorem readString_quoted (rest : List Char) : ∀ cs : List Char,
    readString (cs.flatMap quoteChar ++ '"' :: rest) = some (cs, rest)
  | [] => rfl
  | c :: cs => by
      rw [List.flatMap_cons, List.append_assoc, readString_quoteChar, readString_quoted rest cs]
      rfl

/-- A quoted text is read back, whatever comes behind. -/
theorem readLiteral?_quote (s rest : String) : readLiteral? (quote s ++ rest) = some (s, rest) := by
  have chars : (quote s ++ rest).toList = '"' :: (s.toList.flatMap quoteChar ++ '"' :: rest.toList) := by
    simp [quote]
  rw [readLiteral?, chars]
  simp only [readString_quoted, Option.map_some, String.ofList_toList]

/-- A quoted text is read back, whatever stands behind it, and nothing of what stands behind it is read
with it. So two pieces of code that start with quoted texts are the same only if the texts and what follows
them are. What the literal leaves of itself in the code is a blank: no text changes how the code after its
literal is read. -/
theorem quote_delimits (s rest : String) :
    readLiteral? (quote s ++ rest) = some (s, rest) ∧
    (∀ s' rest' : String, quote s ++ rest = quote s' ++ rest' ↔ s = s' ∧ rest = rest') ∧
    scan .code (quote s ++ rest).toList = ' ' :: scan .code rest.toList := by
  refine ⟨readLiteral?_quote s rest, fun s' rest' => ⟨fun same => ?_, ?_⟩, ?_⟩
  · have read := readLiteral?_quote s rest
    rw [same, readLiteral?_quote] at read
    obtain ⟨rfl, rfl⟩ := Prod.mk.inj (Option.some.inj read)
    exact ⟨rfl, rfl⟩
  · rintro ⟨rfl, rfl⟩
    rfl
  · rw [String.toList_append, reads_quote, List.singleton_append]

example : readLiteral? (quote "a\\\"; b\n" ++ "; \"c\"") = some ("a\\\"; b\n", "; \"c\"") := by decide +kernel

end GoTrees.Go
