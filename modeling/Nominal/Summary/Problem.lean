import Nominal.Host
import Nominal.Json.Value
import Nominal.Recipe.Value
import Nominal.Workspace.TypeView
/-!
Failures in JSON: what kind of failure it is, what it says, and a code by which it is looked up.
-/

namespace Nominal

def Json.problem (kind message code : String) (more : List (String × Json)) : Json :=
  .obj ([("error", .str kind), ("message", .str message), ("code", .str code)] ++ more)

def Fault.summary (f : Fault) : Json := .problem f.family.name f.message f.code []

def ViewFault.summary (f : ViewFault) : Json := .problem f.name f.message f.code []

def Refusal.summary (r : Refusal) : Json :=
  .problem r.name r.message r.code (r.help?.toList.map fun h => ("help", .str h))

def CompileError.summary (e : CompileError) : Json :=
  .problem e.name e.message e.code <|
    match e with
    | .refused _ faults => [("diagnostics", .arr (faults.items.map Fault.summary))]
    | .erroneous _ elements => [("elements", .strings elements)]

def HostError.summary (e : HostError) : Json :=
  .problem e.name e.message e.code <|
    match e with
    | .initialization cause => [("source", cause.summary)]
    | .timeout _ | .taskExited _ => []

def Diagnostics.summary (d : Diagnostics Fault) : Json :=
  .obj [("error", .str "Errors"), ("message", .str (d.text Fault.message)),
    ("diagnostics", .arr (d.items.map Fault.summary))]

def Diagnostics.report (d : Diagnostics String) : Json :=
  .obj [("len", .int d.size), ("is_empty", .bool d.isEmpty), ("has_errors", .bool d.hasAny),
    ("first", .ofOption (d.first?.map .str)), ("display", .str (d.text id)),
    ("items", .strings d.items),
    ("result",
      match d.result (7 : Nat) with
      | .ok n => .tagged "ok" (.int n)
      | .error d => .tagged "err" (.strings d.items))]

end Nominal
