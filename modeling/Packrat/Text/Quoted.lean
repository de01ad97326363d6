import Packrat.Text.Printable

namespace Packrat.Text

def hexDigits : (width : Nat) → (n : Nat) → List Char
  | 0, _ => []
  | width + 1, n => hexDigits width (n / 16) ++ [Nat.digitChar (n % 16)]

/-- How one code point is written between quotes of the kind `quote`. The shortest of the three
hexadecimal forms that fits is taken; a code point need not be a character, so that the bounds of
a class can be shown whatever they are. -/
def escape (quote : Char) (c : Nat) : List Char :=
  if c = quote.toNat ∨ c = '\\'.toNat then ['\\', Char.ofNat c]
  else if c = '\t'.toNat then ['\\', 't']
  else if c = '\n'.toNat then ['\\', 'n']
  else if c = '\r'.toNat then ['\\', 'r']
  else if isPrintable c then [Char.ofNat c]
  else if c < 0x100 then '\\' :: 'x' :: hexDigits 2 c
  else if c < 0x10000 then '\\' :: 'u' :: hexDigits 4 c
  else '\\' :: 'U' :: hexDigits 8 c

/-- Double quotes are used only where they save escapes. -/
def quoteFor (codes : List Nat) : Char :=
  if codes.contains '\''.toNat && !codes.contains '"'.toNat then '"' else '\''

def quoteCodes (codes : List Nat) : String :=
  let quote := quoteFor codes
  String.ofList (quote :: codes.flatMap (escape quote) ++ [quote])

def quote (text : String) : String := quoteCodes (text.toList.map Char.toNat)

def bareCode (c : Nat) : String := String.ofList (escape (quoteFor [c]) c)

end Packrat.Text
