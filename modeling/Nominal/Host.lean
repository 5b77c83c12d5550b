import Nominal.Compilation
import Nominal.Workspace.Basic
/-!
A host keeps one compiled program alive. When it is first asked, it starts a task that compiles; the task publishes a
program or a failure, and this is the answer until the host is closed. What the host handed out stays usable.
-/

namespace Nominal

structure HostConfig where
  threadName : String := "mirra-runtime"
  timeoutMilliseconds : Option UInt64 := none
  compile : CompileOptions := { name := "mirra-runtime" }

def thousandths (n : Nat) : String :=
  if n = 0 then ""
  else if n % 100 = 0 then s!".{n / 100}"
  else if n % 10 = 0 then s!".{n / 100}{n / 10 % 10}"
  else s!".{n / 100}{n / 10 % 10}{n % 10}"

def durationText (milliseconds : Nat) : String :=
  if milliseconds = 0 then "0ns"
  else if milliseconds < 1000 then s!"{milliseconds}ms"
  else s!"{milliseconds / 1000}{thousandths (milliseconds % 1000)}s"

inductive HostError where
  | initialization (cause : CompileError)
  | timeout (milliseconds : UInt64)
  /-- A task ended with neither a program nor a failure. -/
  | taskExited (text : String)

namespace HostError

def name : HostError → String
  | initialization _ => "Initialization"
  | timeout _ => "Timeout"
  | taskExited _ => "TaskExited"

def message : HostError → String
  | initialization _ => "runtime model initialization failed"
  | timeout ms => "runtime model was not ready within " ++ durationText ms.toNat
  | taskExited text => "runtime model task exited before signaling: " ++ text

def code : HostError → String
  | initialization _ => "mirra::runtime::initialization"
  | timeout _ => "mirra::runtime::timeout"
  | taskExited _ => "mirra::runtime::task_exited"

end HostError

structure HostHandle where
  generation : Nat
  domain : Domain

abbrev HostAnswer := Except HostError HostHandle

inductive HostState where
  | idle
  | initializing (generation : Nat)
  | ready (handle : HostHandle)
  | failed (generation : Nat) (error : HostError)

def HostState.settled (generation : Nat) : HostAnswer → HostState
  | .ok handle => ready handle
  | .error error => failed generation error

structure Host where
  config : HostConfig := {}
  generation : Nat := 0
  state : HostState := .idle

namespace Host

def launch (h : Host) : Host :=
  { h with generation := h.generation + 1, state := .initializing (h.generation + 1) }

/-- An outcome is kept if its task is the one that is waited for; others are stale. -/
def publish (generation : Nat) (answer : HostAnswer) (h : Host) : Host :=
  match h.state with
  | .initializing awaited => if awaited = generation then { h with state := .settled generation answer } else h
  | _ => h

def close (h : Host) : Host := { h with state := .idle }

end Host

abbrev HostM := StateT Host WorkM

namespace HostM

def liftWork {α : Type} (m : WorkM α) : HostM α := StateT.lift m

def heard? : List Notice → Option CompiledProgram
  | [] => none
  | .ready p :: _ => some p
  | .entered _ :: rest => heard? rest

/-- What a task publishes: the program as soon as it is ready, or else how the compilation failed, or that it came to
nothing. -/
def outcome (generation : Nat) : List Notice × Except CompileError CompiledProgram → WorkM HostAnswer
  | (notices, result) =>
    match heard? notices, result with
    | some p, _ => do
      let store ← WorkM.newStore p.store
      return .ok { generation, domain := { store, recipe := some Recipe.runtime } }
    | none, .error cause => return .error (.initialization cause)
    | none, .ok _ => return .error (.taskExited s!"generation {generation} ended without a model")

def task (generation : Nat) : HostM Unit := do
  let answer ← liftWork (outcome generation (← get).config.compile.course)
  modify (Host.publish generation answer)

/-- A caller looks at the state, takes the outcome if there is one, and starts a task if there is none. While a task is
on its way the caller waits until it has published. -/
def look (again : HostM HostAnswer) : HostM HostAnswer := do
  match (← get).state with
  | .ready handle => return .ok handle
  | .failed _ error => return .error error
  | .idle => do modify Host.launch; again
  | .initializing generation => do task generation; again

def obtainN : Nat → HostM HostAnswer
  | 0 => return .error (.timeout ((← get).config.timeoutMilliseconds.getD 0))
  | looks + 1 => look (obtainN looks)

/-- The outcome is there at the third look. -/
def obtain : HostM HostAnswer := obtainN 3

def close : HostM Unit := modify Host.close

end HostM

end Nominal
