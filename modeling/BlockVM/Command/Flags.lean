import BlockVM.Text.Hex
import BlockVM.Text.Quoted
import BlockVM.Time.Duration

/-!
# Flags

A command takes flags before its other arguments. A flag is a name after one or two dashes; its
value is the next argument or stands after an equals sign. A switch needs no value.
-/

namespace BlockVM.Command

/-! ## Numbers -/

/-- Why a value is refused. -/
inductive ValueProblem where
  | form
  | range
deriving DecidableEq, Repr

def ValueProblem.message : ValueProblem → String
  | form => "parse error"
  | range => "value out of range"

/-- The base that the start of a number names, and the digits after it. A zero in front stands for
base 8. -/
def splitBase : List Char → Nat × List Char
  | '0' :: c :: d :: rest =>
    match c.toLower with
    | 'b' => (2, d :: rest)
    | 'o' => (8, d :: rest)
    | 'x' => (16, d :: rest)
    | _ => (8, c :: d :: rest)
  | '0' :: rest => (8, rest)
  | cs => (10, cs)

/-- Whether underscores stand between digits only; a base in front counts as a digit. -/
def underscoresFit (cs : List Char) : Bool :=
  let (base, digits) := splitBase cs
  let marked := base != 10 && (cs.getD 1 ' ').isAlpha
  let start := if marked then '0' else '^'
  let last := (if marked then digits else cs).foldl (fun before c =>
    if c = '_' then (if before = '0' then '_' else '!')
    else if before = '!' then '!' else '0') start
  last == '0' || last == '^'

/-- Adds digits in a base to `n`, below `2 ^ 64`. -/
def digitsFrom (base n : Nat) : List Char → Except ValueProblem Nat
  | [] => .ok n
  | '_' :: cs => digitsFrom base n cs
  | c :: cs =>
    match Hex.digitValue? c with
    | none => .error .form
    | some d =>
      if base ≤ d then .error .form
      else if 2 ^ 64 ≤ base * n + d then .error .range
      else digitsFrom base (base * n + d) cs

/-- A number without sign, below `2 ^ 64`. -/
def whole (cs : List Char) : Except ValueProblem Nat := do
  if cs.isEmpty then throw .form
  let (base, digits) := splitBase cs
  let n ← digitsFrom base 0 digits
  if cs.contains '_' && !underscoresFit cs then throw .form
  return n

/-- A number with or without sign, in 64 bits. -/
def signed (cs : List Char) : Except ValueProblem Int := do
  match cs with
  | '-' :: rest =>
    let n ← whole rest
    if 2 ^ 63 < n then throw .range else return -(n : Int)
  | _ =>
    let n ← whole (match cs with
      | '+' :: rest => rest
      | rest => rest)
    if 2 ^ 63 ≤ n then throw .range else return n

/-! ## Flags -/

/-- What kind of value a flag takes. -/
inductive FlagKind where
  | text
  | whole
  | signed
  | switch
  | duration
deriving DecidableEq, Repr

/-- The word for the value in a description of the flag. -/
def FlagKind.word : FlagKind → String
  | text => "string"
  | whole => "uint"
  | signed => "int"
  | switch => ""
  | duration => "duration"

/-- A flag, with the value that it has when it is not given. -/
structure Flag where
  name : String
  kind : FlagKind
  usage : String
  default : String

/-- The texts that a switch understands. -/
def switch? (s : String) : Option Bool :=
  if ["1", "t", "T", "TRUE", "true", "True"].contains s then some true
  else if ["0", "f", "F", "FALSE", "false", "False"].contains s then some false
  else none

def FlagKind.check (k : FlagKind) (s : String) : Except ValueProblem Unit :=
  match k with
  | text => .ok ()
  | whole => (Command.whole s.toList).map fun _ => ()
  | signed => (Command.signed s.toList).map fun _ => ()
  | switch => if (switch? s).isSome then .ok () else .error .form
  | duration => if (Time.duration? s).isSome then .ok () else .error .form

/-- Whether a default goes without saying. -/
def Flag.isZero (f : Flag) : Bool := ["", "0", "false", "0s"].contains f.default

def Flag.describe (f : Flag) : String :=
  let word := f.kind.word
  let default :=
    if f.isZero then ""
    else " (default " ++ (if f.kind = .text then Text.quoted f.default else f.default) ++ ")"
  "  -" ++ f.name ++ (if word = "" then "" else " " ++ word) ++ "\n    \t" ++ f.usage ++
    default ++ "\n"

/-- The description of the flags of a command, by name. -/
def usage (command : String) (flags : List Flag) : String :=
  let sorted := flags.mergeSort fun a b => a.name ≤ b.name
  "Usage of " ++ command ++ ":\n" ++ String.join (sorted.map Flag.describe)

/-- Why the arguments could not be read. -/
inductive FlagProblem where
  /-- Help was asked for. -/
  | help
  | message (text : String)

/-- The flags that were given, last first, and the other arguments. -/
structure Given where
  values : List (String × String) := []
  rest : List String := []

/-- Reads flags up to the first argument that is none. -/
def parseFlags (flags : List Flag) (given : List (String × String)) :
    List String → Except FlagProblem Given
  | [] => .ok ⟨given, []⟩
  | "--" :: rest => .ok ⟨given, rest⟩
  | s :: rest =>
    match s.toList with
    | '-' :: c :: cs =>
      let body := if c = '-' then cs else c :: cs
      let name := String.ofList (body.take 1 ++ (body.drop 1).takeWhile (· != '='))
      let value : Option String := match (body.drop 1).dropWhile (· != '=') with
        | _ :: v => some (String.ofList v)
        | [] => none
      if body.isEmpty || body.headD ' ' == '-' || body.headD ' ' == '=' then
        .error (.message ("bad flag syntax: " ++ s))
      else match flags.find? (·.name == name) with
        | none =>
          if name = "help" ∨ name = "h" then .error .help
          else .error (.message ("flag provided but not defined: -" ++ name))
        | some f =>
          if f.kind = .switch then
            let v := value.getD "true"
            match f.kind.check v with
            | .ok () => parseFlags flags ((name, v) :: given) rest
            | .error e => .error (.message
                ("invalid boolean value " ++ Text.quoted v ++ " for -" ++ name ++
                 ": " ++ e.message))
          else
            match value, rest with
            | none, [] => .error (.message ("flag needs an argument: -" ++ name))
            | none, v :: rest =>
              match f.kind.check v with
              | .ok () => parseFlags flags ((name, v) :: given) rest
              | .error e => .error (.message
                  ("invalid value " ++ Text.quoted v ++ " for flag -" ++ name ++ ": " ++ e.message))
            | some v, rest =>
              match f.kind.check v with
              | .ok () => parseFlags flags ((name, v) :: given) rest
              | .error e => .error (.message
                  ("invalid value " ++ Text.quoted v ++ " for flag -" ++ name ++ ": " ++ e.message))
    | _ => .ok ⟨given, s :: rest⟩

def Given.text (g : Given) (flags : List Flag) (name : String) : String :=
  (g.values.lookup name).getD (((flags.find? (·.name == name)).map (·.default)).getD "")

/-- The value of a flag for a number without sign. -/
def Given.whole (g : Given) (flags : List Flag) (name : String) : UInt64 :=
  match Command.whole (g.text flags name).toList with
  | .ok n => UInt64.ofNat n
  | .error _ => 0

/-- The value of a flag for a number with sign. -/
def Given.signed (g : Given) (flags : List Flag) (name : String) : Int64 :=
  match Command.signed (g.text flags name).toList with
  | .ok i => Int64.ofInt i
  | .error _ => 0

def Given.isOn (g : Given) (flags : List Flag) (name : String) : Bool :=
  (switch? (g.text flags name)).getD false

end BlockVM.Command
