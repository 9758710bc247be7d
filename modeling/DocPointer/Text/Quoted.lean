/-
  Texts quoted in messages.

  A quoted text stands between quotes.  Quotes and backslashes in it are escaped
  by a backslash; tab, line feed, carriage return and null have escapes of one
  letter; other characters that do not show are given by their code point in
  braces.
-/
import DocPointer.Text.Digits
import DocPointer.Text.Unprintable

namespace DocPointer.Text

/-- A character as it stands between quotes. -/
def quoteChar (c : Char) : List Char :=
  if c = '"' then ['\\', '"']
  else if c = '\\' then ['\\', '\\']
  else if c = '\n' then ['\\', 'n']
  else if c = '\r' then ['\\', 'r']
  else if c = '\t' then ['\\', 't']
  else if c.toNat = 0 then ['\\', '0']
  else if isUnprintable c then '\\' :: 'u' :: '{' :: Digits.hexOfNat c.toNat ++ ['}']
  else [c]

/-- A text between quotes. -/
def quoted (s : String) : String :=
  String.ofList ('"' :: s.toList.flatMap quoteChar ++ ['"'])

end DocPointer.Text
