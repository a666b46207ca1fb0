import MacroAsm.Text.Printable

/-!
# MacroAsm.Text.Quoted

Texts in quotes, as messages show them.  The quote is single unless the text
holds a single quote and no double one.  The backslash, the quote in use and
whatever does not print are written as escapes, so a quoted text always prints
on one line.
-/

namespace MacroAsm.Text

/-- The last `width` hexadecimal digits of a number, in lower case. -/
def hexDigits : (width : Nat) → Nat → List Char
  | 0, _ => []
  | width + 1, n => hexDigits width (n / 16) ++ [Nat.digitChar (n % 16)]

/-- The escape of a character by its code point, in the shortest of the three
widths that holds it. -/
def codeEscape (c : Char) : List Char :=
  if c.toNat < 0x100 then '\\' :: 'x' :: hexDigits 2 c.toNat
  else if c.toNat < 0x10000 then '\\' :: 'u' :: hexDigits 4 c.toNat
  else '\\' :: 'U' :: hexDigits 8 c.toNat

/-- A character as it stands between two `quote`s. -/
def quotedChar (quote c : Char) : List Char :=
  if c = '\\' || c = quote then ['\\', c]
  else if c = '\t' then ['\\', 't']
  else if c = '\n' then ['\\', 'n']
  else if c = '\r' then ['\\', 'r']
  else if isPrintable c then [c]
  else codeEscape c

/-- The quote that a text is put in. -/
def quoteFor (text : List Char) : Char :=
  if text.contains '\'' && !text.contains '"' then '"' else '\''

/-- A text in quotes. -/
def quoted (text : String) : String :=
  let quote := quoteFor text.toList
  String.ofList (quote :: text.toList.flatMap (quotedChar quote) ++ [quote])

/-- A text between plain single quotes, nothing escaped: how messages mention
names. -/
def mention (name : String) : String := "'" ++ name ++ "'"

/-- Several mentioned names, separated by commas. -/
def mentions (names : List String) : String :=
  ", ".intercalate (names.map mention)

end MacroAsm.Text
