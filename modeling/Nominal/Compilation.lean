import Nominal.Platform
import Nominal.Store.Completion
/-!
A compilation enters declarations into a fresh store. It may complete every type at once, and reject
the program if some of them are erroneous.
-/

namespace Nominal

structure CompileOptions where
  name : String := "mirra"
  platform : Bool := true
  analyze : Bool := false
  units : List PackageDecl := []
  eagerCompletion : Bool := false

inductive CompileError where
  | refused (name : String) (faults : Diagnostics Fault)
  | erroneous (name : String) (elements : List String)

namespace CompileError

def name : CompileError → String
  | refused .. => "Enter"
  | erroneous .. => "Analyze"

def message : CompileError → String
  | refused name faults =>
    s!"compilation `{name}` failed to enter its declarations:\n" ++ faults.text Fault.message
  | erroneous name elements =>
    s!"compilation `{name}` has erroneous elements: " ++ ", ".intercalate elements

def code : CompileError → String
  | refused .. => "mirra::compile::enter"
  | erroneous .. => "mirra::compile::analyze"

end CompileError

structure EnteredProgram where
  entered : Nat
  store : Store

structure CompiledProgram extends EnteredProgram where
  name : String
  completed : Nat

inductive Notice where
  | entered (topLevel : Nat)
  | ready (program : CompiledProgram)

namespace StoreM

/-- Enters the declarations of every unit, whether or not others are refused. -/
def enterUnits : List PackageDecl → StoreM (Nat × Diagnostics Fault)
  | [] => return (0, .empty)
  | p :: rest => do
    let outcome ← enterDeclarations p
    let (count, faults) ← enterUnits rest
    match outcome with
    | .ok ids => return (ids.length + count, faults)
    | .error found => return (count, found.extend faults.items)

def completeAll : StoreM (List String) := do
  let records ← (← get).typeElements.elements.mapM complete
  return (records.filter (·.erroneous)).map (·.qualifiedName)

end StoreM

namespace CompileOptions

def program (o : CompileOptions) : List PackageDecl :=
  (if o.platform then Platform.packages else []) ++ o.units

def enter (o : CompileOptions) : Except CompileError EnteredProgram :=
  let ((entered, faults), store) := (StoreM.enterUnits o.program).run .empty
  if faults.hasAny then .error (.refused o.name faults) else .ok { entered, store }

def finish (o : CompileOptions) (p : EnteredProgram) : Except CompileError CompiledProgram :=
  if o.eagerCompletion || o.analyze then
    let (erroneous, store) := StoreM.completeAll.run p.store
    if o.analyze && !erroneous.isEmpty then .error (.erroneous o.name erroneous)
    else .ok { p with store, name := o.name, completed := store.completions }
  else .ok { p with name := o.name, completed := p.store.completions }

def run (o : CompileOptions) : Except CompileError CompiledProgram := do o.finish (← o.enter)

/-- What is heard of a compilation while it runs, and its outcome. -/
def course (o : CompileOptions) : List Notice × Except CompileError CompiledProgram :=
  match o.enter with
  | .error e => ([], .error e)
  | .ok p =>
    match o.finish p with
    | .error e => ([.entered p.entered], .error e)
    | .ok program => ([.entered p.entered, .ready program], .ok program)

end CompileOptions

end Nominal
