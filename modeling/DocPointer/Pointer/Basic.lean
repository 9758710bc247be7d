/-
  JSON pointers.

  A pointer is a text; the well-formed ones are the empty text, which is the
  root, and those made of tokens that each follow a slash.

  * `validate` says whether a text is well formed and what is wrong otherwise.
  * `next` and `pop` take a token off the front and off the back; `append` and
    `prepend` put one there; `tokens` are all of them.
  * `ofTokens` and `ofSegments` build the pointer of a list of tokens, or of raw
    texts.
-/
import DocPointer.Pointer.Token

namespace DocPointer

/-- A pointer, well formed or not. -/
structure Pointer where
  text : String
  deriving DecidableEq, Repr, Inhabited

/-- Why a text is no pointer. -/
inductive Malformed where
  /-- It is not empty and starts with something else than a slash. -/
  | start
  /-- A tilde is followed by something else than `0` or `1`. -/
  | encoding
  deriving DecidableEq, Repr

/-- The wording of the error. -/
def Malformed.message : Malformed → String
  | start => "malformed json pointer: must be empty or start with '/'"
  | encoding => "malformed json pointer: '~' must be followed by '0' or '1'"

namespace Pointer

/-- The pointer to the whole document. -/
def root : Pointer := ⟨""⟩

/-- Whether the pointer is the root. -/
def isRoot (p : Pointer) : Bool := p.text.isEmpty

/-! ## Well-formed texts -/

/-- Whether every tilde starts an escape. -/
def escapesComplete : List Char → Bool
  | [] => true
  | '~' :: '0' :: cs => escapesComplete cs
  | '~' :: '1' :: cs => escapesComplete cs
  | '~' :: _ => false
  | _ :: cs => escapesComplete cs

/-- Checks a list of characters. -/
def check : List Char → Except Malformed Unit
  | [] => .ok ()
  | '/' :: cs => if escapesComplete cs then .ok () else .error .encoding
  | _ :: _ => .error .start

/-- Checks that the pointer is well formed. -/
def validate (p : Pointer) : Except Malformed Unit := check p.text.toList

/-- The well-formed pointer of a text, which may be in fragment form, with a
    number sign in front. -/
def parse (s : String) : Except Malformed Pointer :=
  let p : Pointer := match s.toList with
    | '#' :: cs => ⟨String.ofList cs⟩
    | _ => ⟨s⟩
  p.validate.map fun _ => p

/-! ## Tokens -/

/-- The characters up to the next slash, and the rest from that slash on. -/
def splitSlash : List Char → List Char × List Char
  | [] => ([], [])
  | '/' :: cs => ([], '/' :: cs)
  | c :: cs => ((splitSlash cs).map (c :: ·) id)

/-- The pieces of a text between its slashes. -/
def pieces : List Char → List (List Char)
  | [] => [[]]
  | '/' :: cs => [] :: pieces cs
  | c :: cs =>
    match pieces cs with
    | [] => [[c]]
    | p :: ps => (c :: p) :: ps

/-- The tokens, as they are spelled. -/
def tokens (p : Pointer) : List Token :=
  match p.text.toList with
  | '/' :: cs => (pieces cs).map fun piece => ⟨String.ofList piece⟩
  | _ => []

/-- The raw texts of the tokens. -/
def segments (p : Pointer) : List String := p.tokens.map Token.decoded

/-- The first token and the pointer after it; `none` for the root and for a text
    that does not start with a slash. -/
def next (p : Pointer) : Option (Token × Pointer) :=
  match p.text.toList with
  | '/' :: cs =>
    let (t, rest) := splitSlash cs
    some (⟨String.ofList t⟩, ⟨String.ofList rest⟩)
  | _ => none

/-- The first token. -/
def nextToken (p : Pointer) : Option Token := p.next.map (·.1)

/-- The pointer without its last token, and that token. -/
def pop (p : Pointer) : Option (Pointer × Token) :=
  match p.text.toList with
  | '/' :: cs =>
    let (t, rest) := (('/' :: cs).reverse.takeWhile (· ≠ '/'), ('/' :: cs).reverse.dropWhile (· ≠ '/'))
    some (⟨String.ofList (rest.drop 1).reverse⟩, ⟨String.ofList t.reverse⟩)
  | _ => none

/-- The last token. -/
def lastToken (p : Pointer) : Option Token := p.pop.map (·.2)

/-- The pointer with a token put behind it. -/
def append (p : Pointer) (t : Token) : Pointer := ⟨p.text ++ "/" ++ t.text⟩

/-- The pointer with a token put before it. -/
def prepend (p : Pointer) (t : Token) : Pointer := ⟨"/" ++ t.text ++ p.text⟩

/-- The pointer of a list of tokens. -/
def ofTokens : List Token → Pointer
  | [] => root
  | t :: ts => (ofTokens ts).prepend t

/-- The pointer of a list of raw texts. -/
def ofSegments (segments : List String) : Pointer := ofTokens (segments.map Token.ofRaw)

/-! ## Order -/

/-- The order of texts by their bytes in UTF-8, which is that by code points. -/
def compareText (s t : String) : Ordering :=
  if s = t then .eq else if s < t then .lt else .gt

end Pointer

end DocPointer
