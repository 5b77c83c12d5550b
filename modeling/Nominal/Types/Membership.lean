import Nominal.Store.Display
import Nominal.Types.Subtyping
/-!
Members as seen from a type, and members found by name.
-/

namespace Nominal.StoreM

def viewMember (owner member : ElementRecord) (view : TypeId) : StoreM TypeId := do
  let arguments := ((← get).shape view).arguments
  if owner.typeParameters.isEmpty then return member.asType
  else if arguments.isEmpty then erase member.asType
  else substitute ⟨owner.typeParameters, arguments⟩ member.asType

/-- The type of an element as a member of a declared type, unless a search for supertypes never
ends. What is static or no member of a type is the same from everywhere. -/
def asMemberOf? (containing : TypeId) (e : ElementId) : Searching (Except Fault TypeId) := do
  let s ← get
  if s.typeKind containing ≠ .declared then return .error (.notDeclared (s.typeText containing))
  let member ← (complete e : StoreM ElementRecord)
  match member.enclosing with
  | none => return .ok member.asType
  | some owner =>
    let owner ← (complete owner : StoreM ElementRecord)
    if member.isStatic || !owner.kind.isType then return .ok member.asType
    match ← asSuper? containing owner.id with
    | none => return .error (.notMember member.simpleName ((← get).typeText containing))
    | some view => return .ok (← (viewMember owner member view : StoreM TypeId))

/-- A search that never ends finds no owner. -/
def asMemberOf (containing : TypeId) (e : ElementId) : Checked TypeId := do
  match ← ((asMemberOf? containing e).run : StoreM (Option (Except Fault TypeId))) with
  | some answer => (answer : Except Fault TypeId)
  | none =>
    let member ← (complete e : StoreM ElementRecord)
    throw (.notMember member.simpleName ((← get).typeText containing))

def findM {α : Type} (p : α → StoreM Bool) : List α → StoreM (Option α)
  | [] => return none
  | a :: rest => do if ← p a then return some a else findM p rest

def erasesTo (e : ElementId) (wanted : TypeId) : StoreM Bool := do
  let erased ← erase (← complete e).asType
  return (← get).sameType erased wanted

def fitsSignature (kind : ElementKind) (name : String) (wanted : List TypeId) (e : ElementId) :
    StoreM Bool := do
  let r ← complete e
  if r.kind = kind ∧ r.simpleName = name ∧ r.parameters.length = wanted.length then
    (r.parameters.zip wanted).allM fun (p, t) => erasesTo p t
  else return false

def executable? (enclosing : ElementId) (kind : ElementKind) (name : String)
    (parameterTypes : List TypeId) : StoreM (Option ElementId) := do
  if !kind.isExecutable then return none
  let owner ← complete enclosing
  let wanted ← parameterTypes.mapM erase
  findM (fitsSignature kind name wanted) owner.enclosed

def isVariableNamed (name : String) (e : ElementId) : StoreM Bool := do
  let r ← complete e
  return (r.kind == .field || r.kind == .enumConstant || r.kind == .parameter) && r.simpleName == name

/-- A field or enum constant of a type, or a parameter of an executable. -/
def memberVariable? (enclosing : ElementId) (name : String) : StoreM (Option ElementId) := do
  let owner ← complete enclosing
  findM (isVariableNamed name) (if owner.kind.isExecutable then owner.parameters else owner.enclosed)

def isNamed (name : String) (e : ElementId) : StoreM Bool := return (← complete e).simpleName == name

def typeParameter? (generic : ElementId) (name : String) : StoreM (Option ElementId) := do
  findM (isNamed name) (← complete generic).typeParameters

/-- A component from the header of a type, whether or not it is a record. -/
def recordComponent? (e : ElementId) (name : String) : StoreM (Option ElementId) := do
  findM (isNamed name) (← complete e).declaredComponents

end Nominal.StoreM
