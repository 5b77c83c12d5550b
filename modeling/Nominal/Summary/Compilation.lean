import Nominal.Summary.Construct
import Nominal.Summary.Problem
/-!
The course of a compilation in JSON: how many types were entered, the program when it was ready, and
the outcome. What was not reached is absent.
-/

namespace Nominal

def CompiledProgram.readyJson (p : CompiledProgram) : Json :=
  .obj [("types", .int p.store.typeElements.length),
    ("last_types", p.store.elementsJson (p.store.typeElements.elements.reverse.take 4)),
    ("completions", .int p.store.completions)]

def CompiledProgram.outcomeJson (p : CompiledProgram) : Json :=
  .obj [("name", .str p.name), ("entered", .int p.entered), ("completed", .int p.completed)]

namespace Notice

def topLevel? : Notice → Option Nat
  | entered n => some n
  | ready _ => none

def program? : Notice → Option CompiledProgram
  | entered _ => none
  | ready p => some p

end Notice

def CompileOptions.courseOf (o : CompileOptions) : Json :=
  let (notices, outcome) := o.course
  .obj [("entered", .ofOption ((notices.findSome? (·.topLevel?)).map fun n => .int n)),
    ("ready", .ofOption ((notices.findSome? (·.program?)).map (·.readyJson))),
    ("result",
      match outcome with
      | .ok p => p.outcomeJson
      | .error e => e.summary)]

end Nominal
