import BlockVM.Text.Hex
import BlockVM.Text.Printable

/-!
# Quoted text

Messages that mention a name from the user put it between double quotes and escape what would not
be seen: quotes and backslashes, the seven named controls, and every unprintable character by its
code point.
-/

namespace BlockVM.Text

/-- The controls that have an escape of one letter. -/
def namedControl? (c : Char) : Option Char :=
  match c.toNat with
  | 7 => some 'a'
  | 8 => some 'b'
  | 12 => some 'f'
  | 10 => some 'n'
  | 13 => some 'r'
  | 9 => some 't'
  | 11 => some 'v'
  | _ => none

/-- How one character is written between the given quotes. -/
def escape (quote c : Char) : String :=
  if c = quote ∨ c = '\\' then String.ofList ['\\', c]
  else if isPrintable c then c.toString
  else match namedControl? c with
    | some letter => String.ofList ['\\', letter]
    | none =>
      if c.toNat < 0x80 then "\\x" ++ Hex.padded 2 c.toNat
      else if c.toNat < 0x10000 then "\\u" ++ Hex.padded 4 c.toNat
      else "\\U" ++ Hex.padded 8 c.toNat

def quoted (s : String) : String :=
  "\"" ++ String.join (s.toList.map (escape '"')) ++ "\""

/-- One character between single quotes. -/
def quotedChar (c : Char) : String := "'" ++ escape '\'' c ++ "'"

end BlockVM.Text
