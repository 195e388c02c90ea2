import BitAutomata.Text.Printable

/-!
# Quoted text

A quoted text stands between double quotes. A double quote or backslash gets a backslash in
front; other printable characters stand as they are. The bell, backspace, form feed, line
feed, carriage return, tab and vertical tab are written `\a \b \f \n \r \t \v`; any other
control character below the space, and delete, as `\x` with two hex digits; any other
non-printable character as `\u` with four hex digits or, above the basic plane, `\U` with
eight. Hex digits are lower case.
-/

namespace BitAutomata.Text

/-- The last `width` hex digits of `n`, most significant first, in lower case. -/
def hexDigits (width n : Nat) : String :=
  String.join ((List.range width).reverse.map fun i => (Nat.digitChar (n / Nat.pow 16 i % 16)).toString)

/-- The escape of a non-printable character that has no letter escape. -/
def numericEscape (n : Nat) : String :=
  if n < 0x20 || n = 0x7F then "\\x" ++ hexDigits 2 n
  else if n < 0x10000 then "\\u" ++ hexDigits 4 n
  else "\\U" ++ hexDigits 8 n

/-- How one character is written inside a quoted text. -/
def quoteChar (c : Char) : String :=
  if c = '"' then "\\\""
  else if c = '\\' then "\\\\"
  else if isPrintable c then c.toString
  else match c.toNat with
    | 0x07 => "\\a"
    | 0x08 => "\\b"
    | 0x0C => "\\f"
    | 0x0A => "\\n"
    | 0x0D => "\\r"
    | 0x09 => "\\t"
    | 0x0B => "\\v"
    | n => numericEscape n

/-- A text between double quotes, with its characters escaped as above. -/
def quote (s : String) : String :=
  "\"" ++ String.join (s.toList.map quoteChar) ++ "\""

end BitAutomata.Text
