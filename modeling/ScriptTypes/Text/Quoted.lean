import ScriptTypes.Text.Hidden

/-!
# Quoted texts

A text between quotes, for messages. The quotes are single ones, or double ones if the text has a
single quote and no double one. A backslash, the chosen quote, line ends and tabs are written with
a backslash, other hidden characters by their code.
-/

namespace ScriptTypes.Text

/-- The single quote. -/
def singleQuote : Char := Char.ofNat 39

/-- The double quote. -/
def doubleQuote : Char := Char.ofNat 34

/-- The backslash. -/
def backslash : Char := Char.ofNat 92

/-- So many hexadecimal digits of a number, the last ones if there are more. -/
def hexDigits : Nat → Nat → List Char
  | 0, _ => []
  | count + 1, n => hexDigits count (n / 16) ++ [Nat.digitChar (n % 16)]

/-- The code of a character, with two, four or eight digits as it needs. -/
def escapedCode (code : Nat) : List Char :=
  if code < 0x100 then backslash :: 'x' :: hexDigits 2 code
  else if code < 0x10000 then backslash :: 'u' :: hexDigits 4 code
  else backslash :: 'U' :: hexDigits 8 code

/-- One character of a quoted text. -/
def quotedChar (quote c : Char) : List Char :=
  if c = backslash ∨ c = quote then [backslash, c]
  else if c = '\n' then [backslash, 'n']
  else if c = '\r' then [backslash, 'r']
  else if c = '\t' then [backslash, 't']
  else if isHidden c then escapedCode c.toNat
  else [c]

/-- The text between quotes. -/
def quoted (text : String) : String :=
  let chars := text.toList
  let quote :=
    if chars.contains singleQuote && !chars.contains doubleQuote then doubleQuote else singleQuote
  String.ofList (quote :: chars.flatMap (quotedChar quote) ++ [quote])

end ScriptTypes.Text
