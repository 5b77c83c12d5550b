import Nominal.Store.Resolution
/-!
Completion: what an entered declaration means, found when it is first asked for. Parts that do not
resolve become error types and the record is marked erroneous, so completion always succeeds.

Completing one element may need others: the types around it, whose type variables it sees, and the
types of enum constants in its annotations. The functions below reach them through `again`. An
element that is needed while it is being completed shows a preliminary record without members.
-/

namespace Nominal

namespace Store

def packageNameN (s : Store) : Nat → Option ElementId → String
  | 0, _ | _, none => ""
  | fuel + 1, some e =>
    match s.slot? e with
    | none => ""
    | some slot => if slot.kind = .package then slot.qualifiedName else s.packageNameN fuel slot.enclosing

def packageName (s : Store) (e : ElementId) : String := s.packageNameN (s.elements.size + 1) (some e)

def ownerTypeN (s : Store) : Nat → Option ElementId → Option ElementId
  | 0, _ | _, none => none
  | fuel + 1, some e =>
    match s.slot? e with
    | none => none
    | some slot => if slot.kind.isType then some e else s.ownerTypeN fuel slot.enclosing

def ownerType? (s : Store) (e : ElementId) : Option ElementId :=
  s.ownerTypeN (s.elements.size + 1) (some e)

/-- What is shown of an element while it is being completed. -/
def preliminary (e : ElementId) (slot : Slot) : ElementRecord :=
  { id := e, kind := slot.kind, simpleName := slot.simpleName, qualifiedName := slot.qualifiedName
    enclosing := slot.enclosing, erroneous := true }

def containerRecord (e : ElementId) (slot : Slot) : ElementRecord :=
  { id := e, kind := slot.kind, simpleName := slot.simpleName, qualifiedName := slot.qualifiedName
    enclosing := slot.enclosing, enclosed := slot.children
    asType := if slot.kind = .module then .module else .package }

end Store

abbrev Again := ElementId → StoreM ElementRecord

namespace Completion

/-- Type variables visible from an element, the innermost first. Executables and member classes
that are not static see those of what is around them. -/
def visibleVariablesN (again : Again) : Nat → Option ElementId → StoreM (List (String × TypeId))
  | 0, _ | _, none => return []
  | fuel + 1, some e => do
    match (← get).kind? e with
    | none => return []
    | some k =>
      if !k.isParameterizable then return []
      let r ← again e
      let own ← r.typeParameters.mapM fun p => do
        let p ← again p
        return (p.simpleName, p.asType)
      let inherits := k.isExecutable || (k == .classType && !r.isStatic)
      let outer ← visibleVariablesN again fuel (if inherits then r.enclosing else none)
      return own.reverse ++ outer

def visibleVariables (again : Again) (e : Option ElementId) : StoreM (List (String × TypeId)) := do
  visibleVariablesN again ((← get).elements.size + 1) e

open ResolveM

def isConstantNamed (s : Store) (name : String) (e : ElementId) : Bool :=
  match s.record? e with
  | some r => r.kind == .enumConstant && r.simpleName == name
  | none => false

def resolveConstant (again : Again) (t : TypeId) (name : String) : ResolveM AnnotationValue := do
  let members ← match (← store).shape t |>.element? with
    | some e => do
      let r ← (again e : StoreM ElementRecord)
      pure r.enclosed
    | none => pure []
  let s ← store
  match members.find? (isConstantNamed s name) with
  | some constant => return .enumConstant constant
  | none =>
    countUnresolved
    return .str name

mutual

def resolveValue (again : Again) : ValueExpr → ResolveM AnnotationValue
  | .bool b => return .bool b
  | .int n => return .int n
  | .str text => return .str text
  | .type t => .type <$> resolve t
  | .enumConstant t name => do
    let t ← resolve t
    resolveConstant again t name
  | .array values => .array <$> resolveValues again values

def resolveValues (again : Again) : List ValueExpr → ResolveM (List AnnotationValue)
  | [] => return []
  | v :: rest => do
    let v ← resolveValue again v
    return v :: (← resolveValues again rest)

end

def resolveAnnotationUse (again : Again) (a : AnnotationDecl) : ResolveM AnnotationUse := do
  let type ← resolve a.type
  let values ← a.values.mapM fun (name, v) => do
    let v ← resolveValue again v
    return (name, v)
  return { type, values := .ofList values }

def reserveTypeParameter (owner : ElementId) (p : TypeParameterDecl) :
    ResolveM (ElementId × TypeId) := do
  let e ← (StoreM.newSlot { kind := .typeParameter, simpleName := p.name, qualifiedName := p.name
                            enclosing := some owner } : StoreM ElementId)
  let t ← newType (.typeVariable e .none)
  bindVariable p.name t
  return (e, t)

def completeTypeParameter (owner : ElementId) (p : TypeParameterDecl) (e : ElementId) (t : TypeId) :
    ResolveM Unit := do
  let bounds ← resolveAll p.bounds
  let upper ← match bounds with
    | [] => (StoreM.objectType : StoreM TypeId)
    | [b] => pure b
    | _ => newType (.intersection bounds)
  (StoreM.setShape t (.typeVariable e upper) : StoreM Unit)
  let bounds := if bounds.isEmpty then [upper] else bounds
  (StoreM.publish { id := e, kind := .typeParameter, simpleName := p.name, enclosing := some owner
                    asType := t, detail := .typeParameter owner bounds } : StoreM Unit)

/-- Type parameters may be bounded by one another, so all are in sight before any bound is
resolved. -/
def enterTypeParameters (owner : ElementId) (ps : List TypeParameterDecl) :
    ResolveM (List (ElementId × TypeId)) := do
  let entered ← ps.mapM (reserveTypeParameter owner)
  (ps.zip entered).forM fun (p, e, t) => completeTypeParameter owner p e t
  return entered

def newVariable (owner : ElementId) (kind : ElementKind) (name : String) (t : TypeId)
    (nesting : Nesting) (modifiers : List Modifier) : ResolveM ElementId :=
  (StoreM.newComplete fun id =>
    { id, kind, simpleName := name, enclosing := some owner, asType := t, nesting, modifiers } :
    StoreM ElementId)

def enterParameter (owner : ElementId) (name : String) (t : TypeExpr) :
    ResolveM (ElementId × TypeId) := do
  let t ← resolve t
  let e ← newVariable owner .parameter name t .body []
  return (e, t)

def constructorName : String := "<init>"

/-- Adds a constructor or method of `owner`; its type variables are out of sight afterwards. -/
def enterExecutable (again : Again) (owner : ElementId) (ownerType : TypeId) (kind : ElementKind)
    (d : ExecutableDecl) : ResolveM ElementId := do
  let name := if kind = .constructor then constructorName else d.name
  let id ← (StoreM.newSlot { kind, simpleName := name, qualifiedName := name
                             enclosing := some owner, arity := d.typeParameters.length } :
    StoreM ElementId)
  let before := (← get).unresolved
  block do
    let typeParameters ← enterTypeParameters id d.typeParameters
    let returnType ← if kind = .constructor then pure .void else resolve d.returnType
    let parameters ← d.parameters.mapM fun (name, t) => enterParameter id name t
    let thrown ← resolveAll d.thrown
    let annotations ← d.annotations.mapM (resolveAnnotationUse again)
    let receiver := if d.modifiers.contains .static || kind = .constructor then .none else ownerType
    let asType ← newType (.executable
      { typeVariables := typeParameters.map (·.2), receiver, parameters := parameters.map (·.2)
        result := returnType, thrown })
    let erroneous := before < (← get).unresolved
    (StoreM.publish
      { id, kind, simpleName := name, enclosing := some owner, modifiers := d.modifiers
        nesting := .member, asType, annotations, erroneous
        detail := .executable
          { typeParameters := typeParameters.map (·.1), parameters := parameters.map (·.1)
            returnType, thrown, varargs := d.varargs } } : StoreM Unit)
  return id

def enterMember (again : Again) (owner : ElementId) (ownerType : TypeId) :
    MemberDecl → ResolveM ElementId
  | .field name t modifiers => do newVariable owner .field name (← resolve t) .member modifiers
  | .enumConstant name =>
    newVariable owner .enumConstant name ownerType .member [.publicAccess, .static, .final]
  | .method d => enterExecutable again owner ownerType .method d
  | .constructor d => enterExecutable again owner ownerType .constructor d
  | .recordComponent name t => do newVariable owner .recordComponent name (← resolve t) .member []

def isComponent : MemberDecl → Bool
  | .recordComponent .. => true
  | _ => false

def usageOf (name : String) (arguments : List TypeId) : StoreM TypeId := do
  match (← get).typeElement? name with
  | some e => StoreM.newType (.declared .none e arguments)
  | none => return .none

def enumName : String := "lang.Enum"

def recordName : String := "lang.Record"

/-- The superclass that a declaration names or that its kind implies. -/
def superclassOf (h : TypeHeader) (qualifiedName : String) (asType : TypeId) : ResolveM TypeId :=
  match h.kind, h.superclass with
  | .enumType, _ => (usageOf enumName [asType] : StoreM TypeId)
  | .recordType, _ => (usageOf recordName [] : StoreM TypeId)
  | .classType, some t => resolve t
  | .classType, none =>
    if qualifiedName = objectName then return .none else (StoreM.objectType : StoreM TypeId)
  | _, _ => return .none

/-- What an interface names as its superclass is the first of its interfaces. -/
def interfacesOf (h : TypeHeader) : ResolveM (List TypeId) := do
  let interfaces ← resolveAll h.interfaces
  match h.superclass with
  | some t => if h.kind.isInterface then return (← resolve t) :: interfaces else return interfaces
  | none => return interfaces

/-- Member types other than classes are static whether or not they say so. -/
def modifiersOf (h : TypeHeader) (nesting : Nesting) : List Modifier :=
  if nesting = .member ∧ h.kind ≠ .classType ∧ .static ∉ h.modifiers then h.modifiers ++ [.static]
  else h.modifiers

def typeRecord (again : Again) (id : ElementId) (slot : Slot) (h : TypeHeader) (nesting : Nesting) :
    ResolveM ElementRecord := do
  let typeParameters ← enterTypeParameters id h.typeParameters
  let asType ← newType (.declared .none id (typeParameters.map (·.2)))
  let superclass ← superclassOf h slot.qualifiedName asType
  let interfaces ← interfacesOf h
  let members ← h.members.mapM (enterMember again id asType)
  let annotations ← h.annotations.mapM (resolveAnnotationUse again)
  let components := (h.members.zip members).filterMap fun (m, e) => if isComponent m then some e else none
  return { id, kind := h.kind, simpleName := h.name, qualifiedName := slot.qualifiedName
           enclosing := slot.enclosing, enclosed := members ++ slot.children
           modifiers := modifiersOf h nesting, nesting, asType, annotations
           erroneous := 0 < (← get).unresolved
           detail := .type
             { typeParameters := typeParameters.map (·.1), superclass, interfaces, components } }

def completeType (again : Again) (id : ElementId) (slot : Slot) (h : TypeHeader) :
    StoreM ElementRecord := do
  let s ← get
  let nesting := match slot.enclosing.bind s.kind? with
    | some k => if k.isType then Nesting.member else .topLevel
    | none => .topLevel
  let inherits := nesting = .member ∧ .static ∉ modifiersOf h nesting
  let visible ← if inherits then visibleVariables again slot.enclosing else pure []
  let scope : Scope := { package := s.packageName id, owner := slot.qualifiedName, visible }
  (typeRecord again id slot h nesting).run' scope

def step (again : Again) (id : ElementId) : StoreM ElementRecord := do
  match (← get).slot? id with
  | none => return .unknown id
  | some slot =>
    match slot.state with
    | .complete r => return r
    | .completing => return Store.preliminary id slot
    | .pending work =>
      modify (·.setState id .completing)
      let r ← match work with
        | .container => pure (Store.containerRecord id slot)
        | .type h => completeType again id slot h
      modify fun s => { s with completions := s.completions + 1 }
      StoreM.publish r
      return r

/-- Completion inside at most `fuel` others. Each of them is of an element that was pending. -/
def stepN : Nat → ElementId → StoreM ElementRecord
  | 0 => step fun id => return .unknown id
  | fuel + 1 => step (stepN fuel)

end Completion

namespace StoreM

/-- The record of an element, which is completed if it was not. A handle from elsewhere gives an
erroneous record without a name. -/
def complete (e : ElementId) : StoreM ElementRecord := do
  Completion.stepN (← get).elements.size e

/-- The shape of a type, whose element is completed on the way. -/
def inspect (t : TypeId) : StoreM TypeShape := do
  let shape := (← get).shape t
  match shape with
  | .declared _ e _ => discard (complete e)
  | _ => pure ()
  return shape

def scopeWithin (e : ElementId) : StoreM Scope := do
  let s ← get
  let owner := ((s.ownerType? e).bind s.qualifiedName?).getD ""
  let visible ← Completion.visibleVariables complete (some e)
  return { package := s.packageName e, owner, visible }

def enterLocal (owner : ElementId) (kind : ElementKind) (name : String) (type : TypeExpr) :
    Checked ElementId := do
  if !kind.isLocal then throw (.notLocalKind kind)
  let r ← complete owner
  if !r.kind.isExecutable then throw (.notExecutable r.qualifiedName)
  let (t, scope) ← (ResolveM.resolve type).run (← scopeWithin owner)
  let id ← newComplete fun id =>
    { id, kind, simpleName := name, enclosing := some owner, asType := t, nesting := .body
      erroneous := 0 < scope.unresolved }
  modify (·.addChild owner id)
  return id

end StoreM

end Nominal
