/-!
# Occurrences of one text in another

Replacement, containment and splitting at a separator, all on lists of characters, with a `String`
form of each. Occurrences are found from the left and do not overlap, except in `splitLast`, which
looks for the occurrence that starts furthest to the right.
-/

namespace GoTrees.Text

/-- The characters with every occurrence of the non-empty `pat` replaced; `skip` counts the
characters of the last occurrence that are still to be passed over. -/
def replaceFrom (pat new : List Char) : Nat → List Char → List Char
  | _, [] => []
  | skip + 1, _ :: cs => replaceFrom pat new skip cs
  | 0, c :: cs =>
    if pat.isPrefixOf (c :: cs) then new ++ replaceFrom pat new (pat.length - 1) cs
    else c :: replaceFrom pat new 0 cs

/-- Replaces every occurrence of `pat`. The empty text occurs before each character and at the
end. -/
def replaceChars (pat new s : List Char) : List Char :=
  if pat.isEmpty then new ++ s.flatMap (fun c => c :: new) else replaceFrom pat new 0 s

/-- `s` with every occurrence of `pat` replaced by `new`. -/
def replace (s pat new : String) : String :=
  .ofList (replaceChars pat.toList new.toList s.toList)

/-- Does `pat` occur in the characters? -/
def containsChars (pat : List Char) : List Char → Bool
  | [] => pat.isEmpty
  | c :: cs => pat.isPrefixOf (c :: cs) || containsChars pat cs

/-- Does `pat` occur in `s`? -/
def contains (s pat : String) : Bool := containsChars pat.toList s.toList

/-- The parts between the characters that satisfy `p`; there is one part more than separators. -/
def splitChars (p : Char → Bool) : List Char → List (List Char)
  | [] => [[]]
  | c :: cs =>
    if p c then [] :: splitChars p cs
    else match splitChars p cs with
      | [] => [[c]]
      | part :: parts => (c :: part) :: parts

/-- The parts of `s` between the occurrences of the character `c`. -/
def split (s : String) (c : Char) : List String :=
  (splitChars (· == c) s.toList).map .ofList

/-- What stands before and after the occurrence of `pat` that starts furthest to the right. -/
def splitLastChars (pat : List Char) : List Char → Option (List Char × List Char)
  | [] => none
  | c :: cs =>
    match splitLastChars pat cs with
    | some (before, after) => some (c :: before, after)
    | none =>
      if pat.isPrefixOf (c :: cs) then some ([], (c :: cs).drop pat.length) else none

/-- What stands before and after the last occurrence of `pat` in `s`. -/
def splitLast (s pat : String) : Option (String × String) :=
  (splitLastChars pat.toList s.toList).map fun (a, b) => (.ofList a, .ofList b)

/-- What stands before and after the first character equal to `c`. -/
def splitFirstChar (c : Char) : List Char → Option (List Char × List Char)
  | [] => none
  | d :: cs =>
    if d = c then some ([], cs)
    else (splitFirstChar c cs).map fun (before, after) => (d :: before, after)

/-- The characters after `lead`, if they start with it. -/
def dropLead? (lead : List Char) : List Char → Option (List Char)
  | cs => if lead.isPrefixOf cs then some (cs.drop lead.length) else none

/-- The rest of `s` after `lead`, if `s` starts with it. -/
def afterLead? (s lead : String) : Option String :=
  (dropLead? lead.toList s.toList).map .ofList

/-- The part of `s` before `tail`, if `s` ends with it. -/
def beforeTail? (s tail : String) : Option String :=
  (dropLead? tail.toList.reverse s.toList.reverse).map fun cs => .ofList cs.reverse

/-- Removes the non-empty `lead` from the front as often as it stands there; `fuel` bounds the
number of removals. -/
def dropLeads (lead : List Char) : Nat → List Char → List Char
  | 0, cs => cs
  | fuel + 1, cs =>
    match dropLead? lead cs with
    | some rest => dropLeads lead fuel rest
    | none => cs

/-- Removes `tail` from the end of `s` as often as it stands there. -/
def dropTails (s tail : String) : String :=
  .ofList (dropLeads tail.toList.reverse s.length s.toList.reverse).reverse

/-- The texts one after the other with `sep` between them. -/
def join (sep : String) : List String → String
  | [] => ""
  | [s] => s
  | s :: rest => s ++ sep ++ join sep rest

end GoTrees.Text
