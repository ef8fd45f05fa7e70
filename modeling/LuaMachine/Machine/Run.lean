/-
  RUNNING THE MACHINE, step by step, until an outermost call has its result.
-/
import LuaMachine.Machine.Execute
import LuaMachine.Machine.Library

namespace LuaMachine

/-- How a run ends. -/
inductive Outcome where
  | results (vs : List Value)
  | failed (f : Failure)
  /-- The code reached for something that is not there. -/
  | stuck
  /-- The run did not end in the steps given. -/
  | unfinished

inductive Progress where
  | more (m : Machine) (mode : Mode)
  | done (m : Machine) (o : Outcome)

namespace Machine

@[inline] def ofExec (x : Exec Mode) (m : Machine) : Progress :=
  match x m with
  | .ok mode m => .more m mode
  | .error (.fault f) m => .more m (.raise f)
  | .error .stuck m => .done m .stuck

def leave (a : Activation) (rest : List Activation) (m : Machine) : Machine :=
  { m with activations := rest, top := a.savedTop }

/-- Leave the innermost activation after a failure: its functions end, and the variables captured
    from them keep their values. -/
def unwind (a : Activation) (rest : List Activation) : Exec Unit := do
  modify fun m => { m with activations := rest }
  Exec.close a.slot
  modify fun m =>
    { m with frames := m.frames.drop (m.frames.length - a.depth), top := a.savedTop }

/-- One step. -/
def step (m : Machine) : Mode → Progress
  | .run =>
    ofExec (do
      let (f, i) ← Exec.fetch
      Exec.execute f i) m
  | .host h args ret => ofExec (Exec.host h args ret) m
  | .deliver vs =>
    match m.activations with
    | [] => .done m (.results vs)
    | a :: rest =>
      match a.purpose with
      | .outermost => .done (leave a rest m) (.results vs)
      | p => ofExec (Exec.settleResults p vs) (leave a rest m)
  | .raise f =>
    match m.activations with
    | [] => .done m (.failed f)
    | a :: rest =>
      match unwind a rest m with
      | .error _ m => .done m .stuck
      | .ok _ m =>
        match a.purpose with
        | .outermost => .done m (.failed f)
        | p => ofExec (Exec.settleFailure p f) m

def runFor : Nat → Machine → Mode → Machine × Outcome
  | 0, m, _ => (m, .unfinished)
  | n + 1, m, mode =>
    match m.step mode with
    | .more m mode => runFor n m mode
    | .done m o => (m, o)

/-- An empty machine: no library, an empty table of global variables. -/
def bare (limits : Limits) : Machine where
  stack := #[]
  frames := []
  activations := []
  top := 0
  openCells := []
  cells := #[]
  tables := #[.empty]
  functions := #[]
  limits := limits
  executed := 0
  globals := 0
  printed := []
  outputFault := none

def new (limits : Limits) : Machine :=
  match Exec.openLibrary (bare limits) with
  | .ok _ m | .error _ m => m

def global (m : Machine) (name : String) : Value := (m.tables[m.globals]?.getD .empty).getName name

def setGlobal (m : Machine) (name : String) (v : Value) : Machine :=
  match Exec.setGlobal name v m with
  | .ok _ m | .error _ m => m

/-- A chunk as a function of the machine; without an environment of its own it has the global
    variables. -/
def load (m : Machine) (chunk : Bytes) (name : String) (env : Option Value) :
    Machine × Except Failure Value :=
  match Exec.loadChunk chunk name (env.getD (.table m.globals)) m with
  | .ok r m => (m, r)
  | .error _ m => (m, .error .stackOverflow)

/-- Call a function from outside. The instructions are counted anew; `wanted` results are given, or
    all. -/
def call (m : Machine) (fuel : Nat) (f : Value) (args : List Value) (wanted : Option Nat) :
    Machine × Outcome :=
  let start := ofExec (Exec.activate f args .outermost) { m with executed := 0 }
  let (m, o) :=
    match start with
    | .more m mode => runFor fuel m mode
    | .done m o => (m, o)
  match o, wanted with
  | .results vs, some n => (m, .results (Exec.adjust n vs))
  | o, _ => (m, o)

end Machine

end LuaMachine
