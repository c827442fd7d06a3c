import BlockVM.Machine.Dispatch

/-!
# Cores side by side

A group runs the cores of a process. Cores take turns of 1024 dispatches in the order of their
numbers; a core that stops gives its memory back. The first failure is that of the group, and it
makes the other cores give up when they next look. Once all cores have stopped, the context of the
group is done for good: a core that is spawned later gives up before its first dispatch.
-/

namespace BlockVM

/-- A core of a group. -/
structure Thread where
  core : Core
  /-- Dispatches so far. -/
  dispatches : Nat := 0
  running : Bool := true

structure Group where
  proc : Proc
  threads : List Thread := []
  /-- The first failure. -/
  error : Option Stop := none

namespace Group

/-- The failure of a core, as the group reports it. -/
def coreFailure (id : Nat) : Stop → Stop
  | .failure f => .failure (.within ("core " ++ toString id) f)
  | .abort r => .abort r

/-- Takes up the cores that were spawned. -/
def takeUp (g : Group) : Group :=
  { g with
    threads := g.threads ++ g.proc.spawned.map fun c => { core := c }
    proc := { g.proc with spawned := [] } }

def retire (m : Machine) : Machine := ⟨m.core.close, m.proc.closeCore m.core⟩

/-- One turn of a core, with the failure that it ends in. -/
def turn (t : Thread) (p : Proc) : Thread × Proc × Option Stop :=
  let m : Machine := ⟨t.core, p⟩
  -- A core announces its start in its first turn only.
  let m := if t.dispatches = 0 then m.begin else m
  match m.dispatchFor Machine.runBlock Machine.cancelInterval t.dispatches with
  | (m, .unfinished) =>
    ({ core := m.core, dispatches := t.dispatches + Machine.cancelInterval }, m.proc, none)
  | (m, .halted) =>
    let m := retire (m.finish none)
    ({ core := m.core, dispatches := t.dispatches, running := false }, m.proc, none)
  | (m, .stopped e) =>
    let m := retire (m.finish (some e))
    ({ core := m.core, dispatches := t.dispatches, running := false }, m.proc, some e)

/-- One turn of each core; the threads already served are in reverse order. -/
def turns (served : List Thread) : List Thread → Proc → Option Stop → Group
  | [], p, error => { proc := p, threads := served.reverse, error := error }
  | t :: rest, p, error =>
    if t.running then
      match turn t p with
      | (t, p, none) => turns (t :: served) rest p error
      | (t, p, some e) =>
        -- The others are told to give up, but only the first failure is kept.
        turns (t :: served) rest { p with canceled := true }
          (error.or (some (coreFailure t.core.id e)))
    else turns (t :: served) rest p error

def round (g : Group) : Group :=
  let g := g.takeUp
  turns [] g.threads g.proc g.error

/-- Whether a core still runs or waits to be taken up. -/
def isBusy (g : Group) : Bool := g.threads.any (·.running) || !g.proc.spawned.isEmpty

/-- Turns until every core has stopped, at most `fuel` rounds. -/
def settleFor : Nat → Group → Group
  | 0, g => g
  | fuel + 1, g => if g.isBusy then settleFor fuel g.round else g

/-- Runs until every core has stopped. -/
def settle (g : Group) : Group := settleFor Machine.endless g

/-! ## The interface -/

/-- The group of a process that has not been started. -/
def ofProc (p : Proc) : Group := { proc := p }

/-- Starts the first core at the program's start. -/
def start (g : Group) : Group × Except Failure Unit :=
  if g.proc.started then (g, .error (.cause .alreadyStarted))
  else
    let h := g.proc.program.header
    let (p, r) := ({ g.proc with started := true } : Proc).spawn
      (Int64.ofNat h.codeStart.toNat) h.param
    ({ g with proc := p }, r)

def spawn (g : Group) (start : Int64) (param : UInt64) : Group × Except Failure Unit :=
  let (p, r) := g.proc.spawn start param
  ({ g with proc := p }, r)

/-- Waits for every core and gives the first failure. -/
def wait (g : Group) : Group × Except Stop Unit :=
  if g.proc.started then
    let g := g.settle
    let g := { g with proc := { g.proc with canceled := true } }
    match g.error with
    | some e => (g, .error e)
    | none => (g, .ok ())
  else (g, .error (.failure (.cause .notStarted)))

def run (g : Group) : Group × Except Stop Unit :=
  match g.start with
  | (g, .error f) => (g, .error (.failure f))
  | (g, .ok ()) => g.wait

def cancel (g : Group) : Group := { g with proc := { g.proc with canceled := true } }

/-- The statistics of every core, in the order of their numbers. -/
def snapshot (g : Group) : List Stats :=
  g.threads.map (·.core.stats) ++ g.proc.spawned.map (·.stats)

end Group

end BlockVM
