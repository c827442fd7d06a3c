/-!
# Tables

A configuration file describes a tree of tables. A table that was only mentioned on the way to
another one is *implied*, and may still be given its own heading once. A key that has a value cannot
be given another.
-/

namespace BlockVM.Toml

/-- A value of a configuration file. Of numbers with a fraction and of dates only the text is
kept. -/
inductive Value where
  | string (s : String)
  | integer (i : Int)
  | float (text : String)
  | boolean (b : Bool)
  | moment (text : String)
  | array (items : List Value)
  /-- A table, and whether it is only implied so far. -/
  | table (implied : Bool) (entries : List (String × Value))
  /-- Tables under one repeated heading, of which the last one is being filled. -/
  | tables (earlier : List (List (String × Value))) (last : List (String × Value))

/-- Keys and their values, in the order of their first mention. -/
abbrev Table := List (String × Value)

namespace Table

/-- Gives a key a value, in the place that the key has. -/
def set (k : String) (v : Value) : Table → Table
  | [] => [(k, v)]
  | (k', v') :: rest => if k' = k then (k, v) :: rest else (k', v') :: set k v rest

/-- Changes the table that a path leads to. Tables that are missing on the way are implied. With
`settle`, those that are there count as mentioned from now on. -/
def within? (settle : Bool) (f : Table → Option Table) : (path : List String) → Table → Option Table
  | [], t => f t
  | k :: path, t =>
    match t.lookup k with
    | none => (within? settle f path []).map fun sub => t.set k (.table true sub)
    | some (.table implied sub) =>
      (within? settle f path sub).map fun sub => t.set k (.table (implied && !settle) sub)
    | some (.tables earlier last) =>
      (within? settle f path last).map fun last => t.set k (.tables earlier last)
    | some _ => none

/-- Gives a new key a value. An implied table stays as it is, and is no longer implied. -/
def define? (k : String) (v : Value) (t : Table) : Option Table :=
  match t.lookup k with
  | none => some (t.set k v)
  | some (.table true sub) => some (t.set k (.table false sub))
  | some _ => none

/-- Starts one more table under a repeated heading. -/
def append? (k : String) (t : Table) : Option Table :=
  match t.lookup k with
  | none => some (t.set k (.tables [] []))
  | some (.tables earlier last) => some (t.set k (.tables (earlier ++ [last]) []))
  | some _ => none

def assign? (path : List String) (v : Value) (t : Table) : Option Table :=
  match path.getLast? with
  | none => none
  | some k => within? true (define? k v) path.dropLast t

end Table

end BlockVM.Toml
