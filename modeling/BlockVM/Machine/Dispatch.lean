import BlockVM.Machine.Native

/-!
# Dispatch

A dispatch performs one instruction or one block at the core's address. A core runs by dispatching
until it halts, fails or is told to give up; it looks for that every 1024 dispatches.

How a block is executed is a parameter, so that runs of machine code can be compared with other
meanings of a block.
-/

namespace BlockVM

/-- A way to execute a block. -/
abbrev Executor := Block → Machine → Machine × Option Stop

namespace Machine

/-- What the compiler needs to know of the core. -/
def codeTarget (m : Machine) : Target where
  globalSize := Int64.ofNat m.proc.global.size
  stackBase := m.core.stack.base
  stackSize := Int64.ofNat m.core.stack.size

/-- Compiles the block at the core's address. -/
def compileHere (m : Machine) : Except Stop Block :=
  compile m.proc.exec m.proc.program.code m.codeTarget m.proc.increment m.core.pc

/-- Executes a block. -/
def execute (exec : Executor) (b : Block) (m : Machine) : Machine × Option Stop :=
  let m := m.count fun s => { s with executed := s.executed + 1 }
  exec b (m.notify (.executed m.core.id))

/-- Executes a block that the cache holds. -/
def executeCached (exec : Executor) (b : Block) (m : Machine) : Machine × Option Stop :=
  let m := m.count fun s => { s with hits := s.hits + 1 }
  -- The block does not move the address; that is left to its owner.
  match m.execute exec b with
  | (m, some e) => (m, some e)
  | (m, none) => (m.setPc b.stop, none)

def keep (b : Block) (m : Machine) : Machine × Option Stop :=
  match m.core.cache.insert b.start b with
  | .error e => (m, some e)
  | .ok cache =>
    let m := { m with core := { m.core with cache := cache } }
    let m := m.count fun s => { s with
      blocks := s.blocks + 1
      codeBytes := s.codeBytes + UInt64.ofNat b.code.size }
    (m.setPc b.stop, none)

/-- Compiles the block at the core's address and executes it. A block whose first execution fails is
not kept. -/
def executeNew (exec : Executor) (m : Machine) : Machine × Option Stop :=
  match m.compileHere with
  | .error e => (m, some e)
  | .ok b =>
    let m := m.count fun s => { s with compiled := s.compiled + 1 }
    let m := m.notify (.compiled m.core.id b.insts b.code.size)
    match m.execute exec b with
    | (m, some e) => (m, some e)
    | (m, none) => m.keep b

def interpret (i : Isa.Inst) (m : Machine) : Machine × Option Stop :=
  let m := m.count fun s => { s with interpreted := s.interpreted + 1 }
  match m.step i with
  | (m, some e) => (m, some e)
  | (m, none) => (m.setPc i.next, none)

/-- Performs the instruction at the core's address, or the block that starts with it. -/
def dispatchFresh (exec : Executor) (m : Machine) : Machine × Option Stop :=
  match Isa.decode m.proc.program.code m.core.pc with
  | .error e => (m, some e)
  | .ok i =>
    if i.info.isControl then m.control i
    else match m.proc.mode with
      | .interpret => m.interpret i
      | .jit => m.executeNew exec

/-- Performs one block or one instruction at the core's address. -/
def dispatchWith (exec : Executor) (m : Machine) : Machine × Option Stop :=
  match m.proc.mode, m.core.cache.find? m.core.pc with
  | .jit, some b => m.executeCached exec b
  | _, _ => m.dispatchFresh exec

/-- A dispatch that runs machine code. -/
def dispatch (m : Machine) : Machine × Option Stop := m.dispatchWith runBlock

/-! ## Runs -/

/-- How a run ended. -/
inductive Outcome where
  | halted
  | stopped (s : Stop)
  /-- The run was cut off. -/
  | unfinished
deriving DecidableEq, Repr

/-- Dispatches between two looks at the context. -/
def cancelInterval : Nat := 1024

/-- Dispatches at most `fuel` times; `n` dispatches have been made before. -/
def dispatchFor (exec : Executor) : Nat → Nat → Machine → Machine × Outcome
  | 0, _, m => (m, .unfinished)
  | fuel + 1, n, m =>
    -- A context that is done wins over a core that has halted.
    if n % cancelInterval = 0 ∧ m.proc.canceled then
      (m, .stopped (.failure (.cause .canceled)))
    else if m.core.pc < 0 then (m, .halted)
    else match m.dispatchWith exec with
      | (m, some e) => (m, .stopped e)
      | (m, none) => dispatchFor exec fuel (n + 1) m

def begin (m : Machine) : Machine :=
  (m.count fun s => { s with running := true }).notify (.started m.core.id)

def finish (m : Machine) (error : Option Stop) : Machine :=
  (m.count fun s => { s with running := false }).notify (.stopped m.core.id error)

/-- Runs the core for at most `fuel` dispatches. -/
def runFor (exec : Executor) (fuel : Nat) (m : Machine) : Machine × Outcome :=
  match dispatchFor exec fuel 0 m.begin with
  | (m, .halted) => (m.finish none, .halted)
  | (m, .stopped e) => (m.finish (some e), .stopped e)
  | (m, .unfinished) => (m, .unfinished)

/-- More dispatches than any run can make. -/
def endless : Nat := 2 ^ 62

/-- Runs the core until it halts or stops. -/
def run (m : Machine) : Machine × Outcome := m.runFor runBlock endless

end Machine

end BlockVM
