import Nominal.Declaration.Json
import Nominal.Host
import Nominal.Json.Printer
import Nominal.Json.Reader
/-!
The settings of a compilation and of a host in JSON. Every member may be left out.
-/

namespace Nominal

namespace CompileOptions

def ofJson? (j : Json) : Option CompileOptions := do
  let m ← Members.ofJson? ["name", "platform", "analyze", "units", "eager_completion"] j
  let d : CompileOptions := {}
  return {
    name := ← m.withDefault "name" d.name Json.str?
    platform := ← m.withDefault "platform" d.platform Json.bool?
    analyze := ← m.withDefault "analyze" d.analyze Json.bool?
    units := ← m.withDefault "units" d.units (Json.list? PackageDecl.ofJson?)
    eagerCompletion := ← m.withDefault "eager_completion" d.eagerCompletion Json.bool? }

def ofText? (text : String) : Option CompileOptions := (Json.ofText? text).bind ofJson?

def toJson (o : CompileOptions) : Json :=
  .obj [("name", .str o.name), ("platform", .bool o.platform), ("analyze", .bool o.analyze),
    ("units", .arr (o.units.map PackageDecl.toJson)), ("eager_completion", .bool o.eagerCompletion)]

end CompileOptions

namespace HostConfig

def readTimeout (j : Json) : Option UInt64 := .ofNat <$> j.natBelow? UInt64.size

def ofJson? (j : Json) : Option HostConfig := do
  let m ← Members.ofJson? ["thread_name", "init_timeout_ms", "compile"] j
  let d : HostConfig := {}
  return {
    threadName := ← m.withDefault "thread_name" d.threadName Json.str?
    timeoutMilliseconds :=
      ← m.withDefault "init_timeout_ms" d.timeoutMilliseconds (Json.optional? readTimeout)
    compile := ← m.withDefault "compile" d.compile CompileOptions.ofJson? }

def ofText? (text : String) : Option HostConfig := (Json.ofText? text).bind ofJson?

def timeoutJson (c : HostConfig) : Json := .ofOption (c.timeoutMilliseconds.map (.int ·.toNat))

def toJson (c : HostConfig) : Json :=
  .obj [("thread_name", .str c.threadName), ("init_timeout_ms", c.timeoutJson),
    ("compile", c.compile.toJson)]

end HostConfig

end Nominal
