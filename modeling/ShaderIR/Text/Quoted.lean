import ShaderIR.Text.Integer
import ShaderIR.Text.Printable

/-!
# Quoted text

Messages show foreign text between quotes on one line. Seven control characters have a letter of
their own, the quote in use and the backslash are escaped, and every other character that is not
printable is written by its number.
-/

set_option autoImplicit false

namespace ShaderIR.Text

def escapeNumber (c : Char) : String :=
  let n := c.toNat
  if n < 0x80 then "\\x" ++ hexPadded 2 n
  else if n < 0x10000 then "\\u" ++ hexPadded 4 n
  else "\\U" ++ hexPadded 8 n

def escapeChar (quote c : Char) : String :=
  if c = quote ∨ c = '\\' then String.ofList ['\\', c]
  else if isPrintable c then String.ofList [c]
  else match c.toNat with
    | 7 => "\\a"
    | 8 => "\\b"
    | 9 => "\\t"
    | 10 => "\\n"
    | 11 => "\\v"
    | 12 => "\\f"
    | 13 => "\\r"
    | _ => escapeNumber c

def quoted (s : String) : String :=
  "\"" ++ String.join (s.toList.map (escapeChar '"')) ++ "\""

def quotedChar (c : Char) : String :=
  "'" ++ escapeChar '\'' c ++ "'"

end ShaderIR.Text
