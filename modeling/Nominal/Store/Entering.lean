import Nominal.Diagnostics
import Nominal.Store.Basic
/-!
Entering declarations. An entered element has a name, a kind and a place; everything else waits for
its completion. A module or package that is there already is entered again without effect, a type
is refused.
-/

namespace Nominal.StoreM

def enterModule (name : String) : StoreM ElementId := do
  match (← get).module? name with
  | some id => return id
  | none =>
    let id ← newSlot { kind := .module, simpleName := name, qualifiedName := name
                       state := .pending .container }
    modify fun s => { s with modules := s.modules ++ [(name, id)] }
    return id

def enterPackage (module : Option ElementId) (name : String) : StoreM ElementId := do
  match (← get).package? name with
  | some id => return id
  | none =>
    let id ← newSlot { kind := .package, simpleName := lastSegment name, qualifiedName := name
                       enclosing := module, state := .pending .container }
    modify fun s => { s with packages := s.packages ++ [(name, id)] }
    if let some m := module then modify (·.addChild m id)
    return id

def newTypeElement (enclosing : ElementId) (qualifiedName : String) (h : TypeHeader) :
    StoreM ElementId := do
  let id ← newSlot { kind := h.kind, simpleName := h.name, qualifiedName, enclosing := some enclosing
                     arity := h.typeParameters.length, state := .pending (.type h) }
  modify fun s => { s with typeElements := s.typeElements ++ [(qualifiedName, id)] }
  modify (·.addChild enclosing id)
  return id

mutual

/-- Enters a type and then its nested types; what was entered before a refusal stays. -/
def enterTypeIn (enclosing : ElementId) (scope : String) : TypeDecl → Checked ElementId
  | .mk h nested => do
    if !h.kind.isType then throw (.notTypeKind h.name h.kind)
    let name := qualify scope h.name
    if ((← get).typeElement? name).isSome then throw (.duplicate name)
    let id ← newTypeElement enclosing name h
    enterTypesIn id name nested
    return id

def enterTypesIn (enclosing : ElementId) (scope : String) : List TypeDecl → Checked Unit
  | [] => return
  | d :: rest => do
    let _ ← enterTypeIn enclosing scope d
    enterTypesIn enclosing scope rest

end

def enterType (package : ElementId) (d : TypeDecl) : Checked ElementId := do
  match (← get).slot? package with
  | none => throw (.unknownElement package)
  | some slot =>
    if slot.kind ≠ .package then throw (.notPackage slot.qualifiedName)
    enterTypeIn package slot.qualifiedName d

def enterTypes (package : ElementId) : List TypeDecl → StoreM (List (Except Fault ElementId))
  | [] => return []
  | d :: rest => return (← (enterType package d).run) :: (← enterTypes package rest)

def enterDeclarations (p : PackageDecl) :
    StoreM (Except (Diagnostics Fault) (List ElementId)) := do
  let module ← p.module.mapM enterModule
  let package ← enterPackage module p.package
  let outcomes ← enterTypes package p.types
  let faults := outcomes.filterMap fun | .error f => some f | .ok _ => none
  return Diagnostics.result ⟨faults⟩ (outcomes.filterMap (·.toOption))

end Nominal.StoreM
