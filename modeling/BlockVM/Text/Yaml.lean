import BlockVM.Text.Hex
import BlockVM.Text.Printable

/-!
# Outlines

Results are printed as YAML outlines: scalars, lists with a dash before each item, and fields with a
name before each value. What stands inside a field or an item is indented by two more blanks.
-/

namespace BlockVM

/-- A result to be printed. A word is printed as it is, a text is quoted if it needs to be. -/
inductive Yaml where
  | word (s : String)
  | text (s : String)
  | list (items : List Yaml)
  | fields (entries : List (String × Yaml))

namespace Yaml

def nat (n : Nat) : Yaml := word (toString n)

def int (i : Int) : Yaml := word (toString i)

def bool (b : Bool) : Yaml := word (if b then "true" else "false")

/-! ## Texts -/

/-- Words that would be read back as something other than a text. -/
def reserved : List String := ["true", "True", "TRUE", "false", "False", "FALSE", "null", "Null",
  "NULL", "~", "yes", "Yes", "YES", "no", "No", "NO", "on", "On", "ON", "off", "Off", "OFF",
  "y", "Y", "n", "N", ".nan", ".NaN", ".NAN", ".inf", ".Inf", ".INF", "+.inf", "+.Inf", "+.INF",
  "-.inf", "-.Inf", "-.INF", "<<", "="]

/-- Whether `cs` looks like a number. -/
def isNumeric (cs : List Char) : Bool :=
  let body := match cs with
    | '-' :: rest | '+' :: rest => rest
    | rest => rest
  let isPart c :=
    Char.isDigit c || c == '_' || c == '.' || c == 'e' || c == 'E' || c == '+' || c == '-'
  let hex := match body with
    | '0' :: 'x' :: rest => !rest.isEmpty && rest.all fun c =>
        (Hex.digitValue? c).isSome || c == '_'
    | '0' :: 'o' :: rest | '0' :: 'b' :: rest => !rest.isEmpty && rest.all Char.isDigit
    | _ => false
  hex || ((body.headD ' ').isDigit || (body.headD ' ') == '.') && body.any Char.isDigit
    && body.all isPart

/-- Whether a text may stand without quotes. -/
def isPlain (cs : List Char) : Bool :=
  let first := cs.headD ' '
  let pairs := cs.zip (cs.drop 1)
  !cs.isEmpty && first != ' ' && cs.getLast? != some ' '
    && !("#,[]{}&*!|>'\"%@\x60".toList.contains first)
    && !(("-?:".toList.contains first) && (cs.length = 1 || cs.getD 1 'x' == ' '))
    && !(pairs.any fun (a, b) => (a == ':' && b == ' ') || (a == ' ' && b == '#'))
    && cs.getLast? != some ':'
    && !cs.take 3 == "---".toList && !cs.take 3 == "...".toList

/-- One character between double quotes. -/
def escaped (c : Char) : String :=
  if c = '"' then "\\\"" else if c = '\\' then "\\\\"
  else if c = '\n' then "\\n" else if c = '\t' then "\\t" else if c = '\r' then "\\r"
  else if Text.isPrintable c then c.toString
  else if c.toNat < 0x100 then "\\x" ++ (Hex.padded 2 c.toNat).toUpper
  else if c.toNat < 0x10000 then "\\u" ++ (Hex.padded 4 c.toNat).toUpper
  else "\\U" ++ (Hex.padded 8 c.toNat).toUpper

/-- A text with the quotes that it needs. -/
def scalar (s : String) : String :=
  let cs := s.toList
  if cs.isEmpty || reserved.contains s || isNumeric cs || !cs.all Text.isPrintable then
    "\"" ++ String.join (cs.map escaped) ++ "\""
  else if isPlain cs then s
  else "'" ++ String.join (cs.map fun c => if c = '\'' then "''" else c.toString) ++ "'"

/-! ## Lines -/

/-- Indents every line but the first, which follows `lead`. -/
def hang (lead : String) : List String → List String
  | [] => []
  | first :: rest => (lead ++ first) :: rest.map ("  " ++ ·)

mutual

def lines : Yaml → List String
  | word s => [s]
  | text s => [scalar s]
  | list [] => ["[]"]
  | list items => itemLines items
  | fields [] => ["{}"]
  | fields entries => entryLines entries

def itemLines : List Yaml → List String
  | [] => []
  | y :: rest => hang "- " (lines y) ++ itemLines rest

def entryLines : List (String × Yaml) → List String
  | [] => []
  | (k, y) :: rest =>
    (match y with
      | list (_ :: _) | fields (_ :: _) => (k ++ ":") :: (lines y).map ("  " ++ ·)
      | _ => (lines y).map ((k ++ ": ") ++ ·)) ++ entryLines rest

end

def render (y : Yaml) : String := String.join (y.lines.map (· ++ "\n"))

end Yaml

end BlockVM
