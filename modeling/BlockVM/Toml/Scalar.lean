import BlockVM.Numeric.Instances
import BlockVM.Text.Hex
import BlockVM.Time.Timestamp
import BlockVM.Toml.Table

/-!
# Texts, numbers and dates of configuration files

Each reader takes the characters from the start of a value on and gives the value and the characters
after it. It is checked beforehand that a text holds no control characters but tabs and the ends of
lines, so these readers do not look for them.
-/

namespace BlockVM.Toml

def isBlank (c : Char) : Bool := c == ' ' || c == '\t'

def isNewline (c : Char) : Bool := c == '\n' || c == '\r'

/-! ## Texts -/

/-- The character with a number written in hexadecimal digits. -/
def charOfHex? (digits : List Char) : Option Char := do
  let ds ← digits.mapM Hex.digitValue?
  let n := ds.foldl (fun n d => 16 * n + d) 0
  if n.isValidChar then some (Char.ofNat n) else none

/-- The character that a letter after a backslash stands for. -/
def escape? : Char → Option Char
  | 'b' => some '\x08'
  | 't' => some '\t'
  | 'n' => some '\n'
  | 'f' => some '\x0c'
  | 'r' => some '\r'
  | 'e' => some '\x1b'
  | '"' => some '"'
  | '\\' => some '\\'
  | _ => none

/-- A character in front of what was read after it. -/
def cons (c : Option Char) (r : Option (List Char × List Char)) :
    Option (List Char × List Char) := do
  let c ← c
  let (cs, rest) ← r
  return (c :: cs, rest)

/-- Reads the rest of a text in double quotes. -/
def quoted? : List Char → Option (List Char × List Char)
  | [] => none
  | '"' :: rest => some ([], rest)
  | '\\' :: 'x' :: a :: b :: rest => cons (charOfHex? [a, b]) (quoted? rest)
  | '\\' :: 'u' :: a :: b :: c :: d :: rest => cons (charOfHex? [a, b, c, d]) (quoted? rest)
  | '\\' :: 'U' :: a :: b :: c :: d :: e :: f :: g :: h :: rest =>
    cons (charOfHex? [a, b, c, d, e, f, g, h]) (quoted? rest)
  | '\\' :: c :: rest => cons (escape? c) (quoted? rest)
  | c :: rest => if isNewline c then none else cons (some c) (quoted? rest)

/-- Reads the rest of a text in single quotes. -/
def literal? : List Char → Option (List Char × List Char)
  | [] => none
  | '\'' :: rest => some ([], rest)
  | c :: rest => if isNewline c then none else cons (some c) (literal? rest)

/-- Ends a text of several lines after three quotes. One or two more quotes belong to it. -/
def closing (quote : Char) : List Char → Option (List Char × List Char)
  | a :: b :: c :: rest =>
    if a = quote ∧ b = quote ∧ c = quote then none
    else if a = quote ∧ b = quote then some ([a, b], c :: rest)
    else if a = quote then some ([a], b :: c :: rest)
    else some ([], a :: b :: c :: rest)
  | [a, b] =>
    if a = quote ∧ b = quote then some ([a, b], [])
    else if a = quote then some ([a], [b])
    else some ([], [a, b])
  | [a] => if a = quote then some ([a], []) else some ([], [a])
  | [] => some ([], [])

/-- A text of several lines may start with the end of a line, which does not belong to it. -/
def dropNewline : List Char → List Char
  | '\n' :: rest => rest
  | '\r' :: '\n' :: rest => rest
  | cs => cs

/-- Reads the rest of a text of several lines in double quotes. A backslash at the end of a line
takes away all blanks and ends of lines after it; `skipping` says that they are being taken away. -/
def quotedLines? (skipping : Bool) : List Char → Option (List Char × List Char)
  | [] => none
  | '"' :: '"' :: '"' :: rest => closing '"' rest
  | '\\' :: 'x' :: a :: b :: rest => cons (charOfHex? [a, b]) (quotedLines? false rest)
  | '\\' :: 'u' :: a :: b :: c :: d :: rest =>
    cons (charOfHex? [a, b, c, d]) (quotedLines? false rest)
  | '\\' :: 'U' :: a :: b :: c :: d :: e :: f :: g :: h :: rest =>
    cons (charOfHex? [a, b, c, d, e, f, g, h]) (quotedLines? false rest)
  | '\\' :: c :: rest =>
    if isBlank c ∨ isNewline c then
      let blanks := (c :: rest).takeWhile fun c => isBlank c || isNewline c
      if blanks.contains '\n' then quotedLines? true rest else none
    else cons (escape? c) (quotedLines? false rest)
  | c :: rest =>
    if skipping ∧ (isBlank c ∨ isNewline c) then quotedLines? true rest
    else cons (some c) (quotedLines? false rest)

/-- Reads the rest of a text of several lines in single quotes. -/
def literalLines? : List Char → Option (List Char × List Char)
  | [] => none
  | '\'' :: '\'' :: '\'' :: rest => closing '\'' rest
  | c :: rest => cons (some c) (literalLines? rest)

/-! ## Numbers -/

/-- Whether every underscore stands between digits. -/
def underscoresFit (cs : List Char) : Bool :=
  let after := cs.foldl (fun (ok : Option Bool) c =>
    match ok with
    | none => none
    | some before =>
      if c = '_' ∧ ¬ before then none else some (Hex.digitValue? c).isSome) (some false)
  after == some true

/-- Whether a number has a zero too many in front. -/
def hasLeadingZero : List Char → Bool
  | '0' :: c :: _ => !(c == 'b' || c == 'o' || c == 'x')
  | sign :: '0' :: _ :: _ => sign == '-' || sign == '+'
  | _ => false

def digitsValue? (base : Nat) (cs : List Char) : Option Nat :=
  if cs.isEmpty then none
  else do
    let ds ← cs.mapM Hex.digitValue?
    if ds.all (· < base) then some (ds.foldl (fun n d => base * n + d) 0) else none

/-- The integer written in `cs`, if it fits in 64 bits. -/
def integer? (cs : List Char) : Option Int := do
  if !underscoresFit cs || hasLeadingZero cs then none
  else do
    let i : Int ← match cs.filter (· != '_') with
      | '0' :: 'x' :: ds => (digitsValue? 16 ds).map Int.ofNat
      | '0' :: 'o' :: ds => (digitsValue? 8 ds).map Int.ofNat
      | '0' :: 'b' :: ds => (digitsValue? 2 ds).map Int.ofNat
      | '-' :: ds => (digitsValue? 10 ds).map fun n => -(n : Int)
      | '+' :: ds => (digitsValue? 10 ds).map Int.ofNat
      | ds => (digitsValue? 10 ds).map Int.ofNat
    if -2 ^ 63 ≤ i ∧ i < 2 ^ 63 then some i else none

/-- Splits at every point and exponent mark. -/
def parts (cs : List Char) : List (List Char) :=
  (cs.splitBy fun a b => !(isMark a || isMark b)).filter fun p => !p.any isMark
where
  isMark (c : Char) : Bool := c == '.' || c == 'e' || c == 'E'

/-- Whether `digits`, scaled by a power of ten, is too large for a number of 64 bits with 53 bits of
precision. -/
def overflows (digits : Nat) (exponent : Int) : Bool :=
  let bound := (2 ^ 54 - 1) * 2 ^ 970
  let size : Int := (Nat.toDigits 10 digits).length + exponent
  if digits = 0 ∨ size < 300 then false
  else if 320 < size then true
  else if 0 ≤ exponent then bound ≤ digits * 10 ^ exponent.toNat
  else bound * 10 ^ (-exponent).toNat ≤ digits

/-- Whether `cs` is a number with a fraction or an exponent, or both, of a size that can be held. -/
def isFloat (cs : List Char) : Bool :=
  let ps := parts cs
  let body := cs.filter (· != '_')
  let unsigned := match body with
    | '+' :: rest | '-' :: rest => rest
    | rest => rest
  let whole := unsigned.takeWhile Char.isDigit
  let rest := unsigned.dropWhile Char.isDigit
  let (fraction, rest) := match rest with
    | '.' :: rest => (rest.takeWhile Char.isDigit, rest.dropWhile Char.isDigit)
    | rest => ([], rest)
  let exponent : Option Int := match rest with
    | [] => some 0
    | e :: '-' :: ds => if e = 'e' ∨ e = 'E' then (digitsValue? 10 ds).map fun n => -(n : Int)
      else none
    | e :: '+' :: ds => if e = 'e' ∨ e = 'E' then (digitsValue? 10 ds).map Int.ofNat else none
    | e :: ds => if e = 'e' ∨ e = 'E' then (digitsValue? 10 ds).map Int.ofNat else none
  let pointsFit := (cs.zip (cs.drop 1 ++ [' '])).all fun (a, b) => a != '.' || b.isDigit
  match exponent with
  | none => false
  | some e =>
    let digits := (digitsValue? 10 (whole ++ fraction)).getD 0
    ps.all underscoresFit && !hasLeadingZero (ps.headD []) && pointsFit && !whole.isEmpty
      && !overflows digits (e - fraction.length)

/-! ## Dates -/

/-- Whether `cs` is a date, a time of day, or both, in which case an offset may follow. Seconds may
be left out, and every number has all its digits. -/
def isMoment (cs : List Char) : Bool :=
  let cs := cs.map fun c => if c = 't' ∨ c = ' ' then 'T' else if c = 'z' then 'Z' else c
  let clock (cs : List Char) : Option (List Char) := do
    let (_, _) ← Time.two? cs
    let (_, _, rest) ← Time.hourMinute? cs
    match rest with
    | ':' :: _ => (Time.second? rest).map (·.2.2)
    | _ => some rest
  match Time.date? cs with
  | some (_, []) => true
  | some (_, 'T' :: rest) =>
    match clock rest with
    | some [] => true
    | some rest => (Time.offset? rest).isSome
    | none => false
  | some _ => false
  | none => clock cs == some []

/-- Reads a number or a date that starts with a digit or a sign. -/
def number? (cs : List Char) : Option (Value × List Char) :=
  let float (cs : List Char) : Option (Value × List Char) :=
    let isPart c :=
      Char.isDigit c || c == '_' || c == '.' || c == '-' || c == '+' || c == 'e' || c == 'E'
    let text := cs.takeWhile isPart
    if isFloat text then some (.float (String.ofList text), cs.dropWhile isPart) else none
  let decimal (sign digits : List Char) : Option (Value × List Char) :=
    let isPart c := Char.isDigit c || c == '_'
    match digits.dropWhile isPart with
    | c :: rest =>
      if c = '.' ∨ c = 'e' ∨ c = 'E' then float (sign ++ digits)
      else (integer? (sign ++ digits.takeWhile isPart)).map fun i => (.integer i, c :: rest)
    | [] => (integer? (sign ++ digits)).map fun i => (.integer i, [])
  let based (isPart : Char → Bool) : Option (Value × List Char) :=
    let body := cs.drop 2
    if (body.headD ' ') = '_' then none
    else
      let isPart c := isPart c || c == '_'
      (integer? (cs.take 2 ++ body.takeWhile isPart)).map fun i =>
        (.integer i, body.dropWhile isPart)
  match cs with
  | '0' :: 'x' :: _ => based fun c => (Hex.digitValue? c).isSome
  | '0' :: 'o' :: _ => based fun c => '0' ≤ c && c ≤ '7'
  | '0' :: 'b' :: _ => based fun c => c == '0' || c == '1'
  | sign :: 'i' :: 'n' :: 'f' :: rest =>
    if sign = '+' ∨ sign = '-' then some (.float (String.ofList [sign, 'i', 'n', 'f']), rest)
      else none
  | sign :: 'n' :: 'a' :: 'n' :: rest =>
    if sign = '+' ∨ sign = '-' then some (.float (String.ofList [sign, 'n', 'a', 'n']), rest)
      else none
  | c :: rest =>
    if c = '+' ∨ c = '-' then
      if (rest.headD ' ').isDigit then decimal [c] rest else none
    else
      match cs.dropWhile Char.isDigit with
      | d :: _ =>
        if d = '-' ∨ d = ':' then
          let isPart c := Char.isDigit c || "-:Tt .Zz+".toList.contains c
          let text := ((cs.takeWhile isPart).reverse.dropWhile (· == ' ')).reverse
          if isMoment text then some (.moment (String.ofList text), cs.dropWhile isPart) else none
        else decimal [] cs
      | [] => decimal [] cs
  | [] => none

end BlockVM.Toml
