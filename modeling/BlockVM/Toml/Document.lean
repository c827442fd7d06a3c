import BlockVM.Toml.Scalar

/-!
# Configuration files

A file is a row of lines: headings, which name the table that the next lines fill, and keys with
their values. Arrays and tables may also be written as values, over several lines.

The readers take the characters still to be read and give those that are left. Values nest, so they
are read with a bound on the depth, for which the length of the file is enough.
-/

namespace BlockVM.Toml

/-- Control characters are refused, but for tabs and the ends of lines: a line feed, or a carriage
return and a line feed. -/
def isPlain : List Char → Bool
  | [] => true
  | '\r' :: '\n' :: rest => isPlain rest
  | c :: rest =>
    (c == '\t' || c == '\n' || (0x20 ≤ c.toNat && c.toNat != 0x7f)) && isPlain rest

def skipBlanks (cs : List Char) : List Char := cs.dropWhile isBlank

/-- What is left of the line after a comment that starts here, if one does. -/
def skipComment : List Char → List Char
  | '#' :: rest => rest.dropWhile fun c => !isNewline c
  | cs => cs

/-- Skips blanks, ends of lines and comments; `inside` says that a comment is being skipped. -/
def skipLines (inside : Bool) : List Char → List Char
  | [] => []
  | c :: rest =>
    if isNewline c then skipLines false rest
    else if inside ∨ isBlank c then skipLines inside rest
    else if c = '#' then skipLines true rest
    else c :: rest

/-! ## Keys -/

/-- Characters of a key that needs no quotes. -/
def isKeyChar (c : Char) : Bool := c.isAlphanum || c == '_' || c == '-'

def keyPart? (cs : List Char) : Option (String × List Char) :=
  match cs with
  | '"' :: rest => (quoted? rest).map fun (s, rest) => (String.ofList s, rest)
  | '\'' :: rest => (literal? rest).map fun (s, rest) => (String.ofList s, rest)
  | _ =>
    let name := cs.takeWhile isKeyChar
    if name.isEmpty then none else some (String.ofList name, cs.dropWhile isKeyChar)

/-- Reads a key, of at most `fuel` parts, and the blanks after it. -/
def key? : (fuel : Nat) → List Char → Option (List String × List Char)
  | 0, _ => none
  | fuel + 1, cs => do
    let (part, rest) ← keyPart? (skipBlanks cs)
    match skipBlanks rest with
    | '.' :: rest => (key? fuel rest).map fun (parts, rest) => (part :: parts, rest)
    | rest => return ([part], rest)

/-! ## Values -/

mutual

def value? : (fuel : Nat) → List Char → Option (Value × List Char)
  | 0, _ => none
  | fuel + 1, cs =>
    match cs with
    | '"' :: '"' :: '"' :: rest =>
      (quotedLines? false (dropNewline rest)).map fun (s, rest) => (.string (String.ofList s), rest)
    | '"' :: rest => (quoted? rest).map fun (s, rest) => (.string (String.ofList s), rest)
    | '\'' :: '\'' :: '\'' :: rest =>
      (literalLines? (dropNewline rest)).map fun (s, rest) => (.string (String.ofList s), rest)
    | '\'' :: rest => (literal? rest).map fun (s, rest) => (.string (String.ofList s), rest)
    | '[' :: rest => (items? fuel (skipLines false rest)).map fun (vs, rest) => (.array vs, rest)
    | '{' :: rest => (pairs? fuel [] (skipLines false rest)).map fun (t, rest) =>
        (.table false t, rest)
    | 't' :: 'r' :: 'u' :: 'e' :: rest => some (.boolean true, rest)
    | 'f' :: 'a' :: 'l' :: 's' :: 'e' :: rest => some (.boolean false, rest)
    | 'i' :: 'n' :: 'f' :: rest => some (.float "inf", rest)
    | 'n' :: 'a' :: 'n' :: rest => some (.float "nan", rest)
    | c :: _ => if c.isDigit ∨ c = '+' ∨ c = '-' then number? cs else none
    | [] => none

/-- Reads the values of an array, up to its end. A comma may follow the last one. -/
def items? : (fuel : Nat) → List Char → Option (List Value × List Char)
  | 0, _ => none
  | fuel + 1, cs =>
    match cs with
    | ']' :: rest => some ([], rest)
    | _ => do
      let (v, rest) ← value? fuel cs
      match skipLines false rest with
      | ',' :: rest => (items? fuel (skipLines false rest)).map fun (vs, rest) => (v :: vs, rest)
      | ']' :: rest => return ([v], rest)
      | _ => none

/-- Reads the keys and values of a table that is written as a value, up to its end, and adds them to
the table. -/
def pairs? : (fuel : Nat) → Table → List Char → Option (Table × List Char)
  | 0, _, _ => none
  | fuel + 1, t, cs =>
    match cs with
    | '}' :: rest => some (t, rest)
    | _ => do
      let (path, rest) ← key? cs.length cs
      let (v, rest) ← value? fuel (skipBlanks (← Time.expect? '=' rest))
      let t ← t.assign? path v
      match skipLines false rest with
      | ',' :: rest => pairs? fuel t (skipLines false rest)
      | '}' :: rest => return (t, rest)
      | _ => none

end

/-! ## Files -/

/-- What one line says. -/
inductive Line where
  | heading (path : List String)
  | repeated (path : List String)
  | entry (path : List String) (v : Value)

def line? (cs : List Char) : Option (Line × List Char) := do
  match cs with
  | '[' :: '[' :: rest =>
    let (path, rest) ← key? cs.length rest
    return (.repeated path, ← Time.expect? ']' (← Time.expect? ']' rest))
  | '[' :: rest =>
    let (path, rest) ← key? cs.length rest
    return (.heading path, ← Time.expect? ']' rest)
  | _ =>
    let (path, rest) ← key? cs.length cs
    let (v, rest) ← value? cs.length (skipBlanks (← Time.expect? '=' rest))
    return (.entry path v, rest)

/-- Adds what a line says to a table, and gives the path of the table to be filled next. -/
def Line.add? (context : List String) (t : Table) : Line → Option (List String × Table)
  | .heading path => do
    let k ← path.getLast?
    return (path, ← t.within? false (·.define? k (.table false [])) path.dropLast)
  | .repeated path => do
    let k ← path.getLast?
    return (path, ← t.within? false (·.append? k) path.dropLast)
  | .entry path v => do
    return (context, ← t.within? false (·.assign? path v) context)

/-- Reads lines, of which at most `fuel`, and adds them to a table. -/
def lines? : (fuel : Nat) → (context : List String) → Table → List Char → Option Table
  | 0, _, _, _ => none
  | fuel + 1, context, t, cs =>
    match skipLines false cs with
    | [] => some t
    | cs => do
      let (line, rest) ← line? cs
      let (context, t) ← line.add? context t
      match skipComment (skipBlanks rest) with
      | [] => some t
      | c :: rest => if isNewline c then lines? fuel context t rest else none

/-- The table that a file describes. A mark of the encoding in front is skipped. -/
def parse? (text : String) : Option Table :=
  let cs := match text.toList with
    | c :: rest => if c.toNat = 0xfeff then rest else c :: rest
    | [] => []
  if isPlain cs then lines? (cs.length + 1) [] [] cs else none

end BlockVM.Toml
