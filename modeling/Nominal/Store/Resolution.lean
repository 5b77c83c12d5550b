import Nominal.Store.Basic
/-!
What a written type means where it is written. A name that means nothing there becomes an error
type and is counted.
-/

namespace Nominal

def commonPackage : String := "lang"

structure Scope where
  package : String
  owner : String
  visible : List (String × TypeId) := []
  unresolved : Nat := 0

namespace Scope

def boundVariable? (sc : Scope) (name : String) : Option TypeId :=
  (sc.visible.find? (·.1 == name)).map (·.2)

/-- What a name may stand for, the most likely first: a member of the owner or of a type around
it, a qualified name, a type of the package, a type that every program sees. -/
def candidates (sc : Scope) (name : String) : List String :=
  (outward sc.owner).map (s!"{·}.{name}") ++ [name, s!"{sc.package}.{name}", s!"{commonPackage}.{name}"]

def typeElement? (sc : Scope) (s : Store) (name : String) : Option ElementId :=
  (sc.candidates name).findSome? s.typeElement?

end Scope

abbrev ResolveM := StateT Scope StoreM

namespace ResolveM

def store : ResolveM Store := fun sc s => ((s, sc), s)

def newType (shape : TypeShape) : ResolveM TypeId := (StoreM.newType shape : StoreM TypeId)

def bindVariable (name : String) (t : TypeId) : ResolveM Unit :=
  modify fun sc => { sc with visible := (name, t) :: sc.visible }

def countUnresolved : ResolveM Unit := modify fun sc => { sc with unresolved := sc.unresolved + 1 }

/-- Runs `m` and takes its variables out of sight again. -/
def block {α : Type} (m : ResolveM α) : ResolveM α := do
  let outside := (← get).visible
  let a ← m
  modify ({ · with visible := outside })
  return a

def unresolvedType (name : String) : ResolveM TypeId := do
  countUnresolved
  newType (.error name)

mutual

def resolve : TypeExpr → ResolveM TypeId
  | .primitive k =>
    match k.primitive? with
    | some p => return .primitive p
    | none => unresolvedType k.name
  | .void => return .void
  | .var name => do
    match (← get).boundVariable? name with
    | some t => return t
    | none => unresolvedType name
  | .named name args => do
    let s ← store
    match (← get).typeElement? s name with
    | none => unresolvedType name
    | some e =>
      if !args.isEmpty && args.length != s.arity e then unresolvedType name
      else newType (.declared .none e (← resolveAll args))
  | .array c => do newType (.array (← resolve c))
  | .wildcard upper lower => do
    let upper ← resolve? upper
    let lower ← resolve? lower
    newType (.wildcard upper lower)

def resolveAll : List TypeExpr → ResolveM (List TypeId)
  | [] => return []
  | t :: rest => do
    let id ← resolve t
    return id :: (← resolveAll rest)

def resolve? : Option TypeExpr → ResolveM (Option TypeId)
  | none => return none
  | some t => some <$> resolve t

end

end ResolveM

end Nominal
