/-
  Lower case of a text.

  Every character goes to its lower-case character, with two exceptions: the
  capital I with a dot above becomes two characters, and a capital sigma becomes
  the final form at the end of a word.  A sigma ends a word if a letter with case
  stands before it and none after it, characters that words may hold in passing
  not counting on either side.

  `Folded s t` is how names are compared when case does not matter.
-/
import DocPointer.Text.CaseTable

namespace DocPointer.Text

/-- Whether the next character that counts is a letter with case. -/
def casedNext (cs : List Char) : Bool :=
  match cs.dropWhile CaseTable.isIgnorable with
  | [] => false
  | c :: _ => CaseTable.isCased c

/-- The lower case of one character, between the characters `before` it, last
    first, and the ones `after` it. -/
def lowerChar (before after : List Char) (c : Char) : List Char :=
  if c = 'İ' then ['i', '\u0307']
  else if c = 'Σ' then
    if casedNext before && !casedNext after then ['ς'] else ['σ']
  else [CaseTable.lower c]

/-- The lower case of a text after the characters `before`, last first. -/
def lowerFrom (before : List Char) : List Char → List Char
  | [] => []
  | c :: cs => lowerChar before cs c ++ lowerFrom (c :: before) cs

/-- The lower case of a text. -/
def lower (s : String) : String := String.ofList (lowerFrom [] s.toList)

/-- Equality up to case. -/
def Folded (s t : String) : Prop := lower s = lower t

instance (s t : String) : Decidable (Folded s t) := by unfold Folded; infer_instance

end DocPointer.Text
