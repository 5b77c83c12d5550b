import Nominal.Store.Completion
/-!
Making types from types. Parts must be of this store and of a kind that fits.
-/

namespace Nominal.StoreM

def primitiveType (k : TypeKind) : Except Fault TypeId :=
  match k.primitive? with
  | some p => .ok (.primitive p)
  | none => .error (.notPrimitive k)

/-- The types of packages and modules are not for the asking. -/
def noType : TypeKind → Except Fault TypeId
  | .none => .ok .none
  | .void => .ok .void
  | k => .error (.notNoType k)

def isComponentKind (k : TypeKind) : Bool := (k.isPrimitive || k.isReference) && k != .null

def isArgumentKind (k : TypeKind) : Bool := (k.isReference || k == .wildcard) && k != .null

def isBoundKind (k : TypeKind) : Bool := k.isReference && k != .null

def arrayType (component : TypeId) : Checked TypeId := do
  let k ← (← get).knownKind component
  if !isComponentKind k then throw (.badComponent k)
  newType (.array component)

def checkArgument (s : Store) (t : TypeId) : Except Fault Unit := do
  let k ← s.knownKind t
  if !isArgumentKind k then throw (.badArgument k)

def checkEnclosing (s : Store) (t : TypeId) : Except Fault Unit := do
  let k ← s.knownKind t
  if k ≠ .declared ∧ k ≠ .none then throw (.badEnclosing k)

def checkUsage (s : Store) (enclosing : Option TypeId) (e : ElementId) (arguments : List TypeId) :
    Except Fault Unit := do
  match s.slot? e with
  | none => throw (.unknownElement e)
  | some slot =>
    if !slot.kind.isType then throw (.notTypeElement slot.qualifiedName)
    if !arguments.isEmpty && arguments.length != slot.arity then
      throw (.argumentCount slot.qualifiedName slot.arity arguments.length)
    arguments.forM (checkArgument s)
    enclosing.forM (checkEnclosing s)

/-- A usage of a type element; a generic one without arguments is raw. -/
def declaredType (enclosing : Option TypeId) (e : ElementId) (arguments : List TypeId) :
    Checked TypeId := do
  checkUsage (← get) enclosing e arguments
  newType (.declared (enclosing.getD .none) e arguments)

def checkBound (s : Store) (t : TypeId) : Except Fault Unit := do
  let k ← s.knownKind t
  if !isBoundKind k then throw (.badBound k)

def checkBounds (s : Store) : Option TypeId → Option TypeId → Except Fault Unit
  | some _, some _ => throw .twoBounds
  | some b, none | none, some b => checkBound s b
  | none, none => return

def wildcardType (upper lower : Option TypeId) : Checked TypeId := do
  checkBounds (← get) upper lower
  newType (.wildcard upper lower)

def typeVariable (e : ElementId) : Checked TypeId := do
  match (← get).kind? e with
  | none => throw (.unknownElement e)
  | some .typeParameter => return (← complete e).asType
  | some k => throw (.noVariable k)

end Nominal.StoreM
