import Nominal.Types.Membership
import Nominal.Workspace.ElementView
/-!
Views of types. Two views are the same if they show the same type of the same domain; views of
different domains are not related in any way.
-/

namespace Nominal

inductive ViewFault where
  | notPrimitive (type : String)
  | foreignMember (member type : String)
  | fault (fault : Fault)

namespace ViewFault

def name : ViewFault → String
  | fault f => "Model." ++ f.family.name
  | _ => "InvalidArgument"

def message : ViewFault → String
  | notPrimitive type => s!"invalid argument: {type} is not a primitive type"
  | foreignMember member type => s!"invalid argument: {member} belongs to another domain than {type}"
  | fault f => f.message

def code : ViewFault → String
  | fault f => f.code
  | _ => "mirra::lang::invalid_argument"

end ViewFault

namespace TypeView

open WorkM

def new (d : Domain) (t : TypeId) : WorkM TypeView :=
  modifyGet fun w => (⟨d, t, w.typeMemos.size⟩, { w with typeMemos := w.typeMemos.push {} })

def memo (v : TypeView) : WorkM TypeMemo := return (← get).typeMemos.getD v.cell {}

def remember (v : TypeView) (f : TypeMemo → TypeMemo) : WorkM Unit :=
  modify fun w => { w with typeMemos := w.typeMemos.modify v.cell f }

def isBound (v : TypeView) : WorkM Bool := return (← v.memo).shape.isSome

/-- The shape of the type; looking at it completes the element of a usage. -/
def shape (v : TypeView) : WorkM TypeShape := do
  match (← v.memo).shape with
  | some s => return s
  | none =>
    let s ← within v.domain (StoreM.inspect v.id)
    v.remember ({ · with shape := some s })
    return s

def kind (v : TypeView) : WorkM TypeKind := return (← v.shape).kind

def element? (v : TypeView) : WorkM (Option ElementView) := do
  match (← v.shape).element? with
  | some e => some <$> ElementView.new v.domain e
  | none => return none

def same (a b : TypeView) : WorkM Bool := do
  if !a.domain.same b.domain then return false
  else if a.id = b.id then return true
  else look a.domain (·.sameType a.id b.id)

def key (v : TypeView) : DomainIdentity × TypeId := (v.domain.identity, v.id)

def hashData (v : TypeView) : WorkM HashData := do
  let s ← v.shape
  within v.domain (StoreM.hashData s)

def text (v : TypeView) : WorkM String := look v.domain (·.typeText v.id)

def detail (v : TypeView) : WorkM String := do
  let known := match (← v.memo).shape with
    | some s => s!", {s.kind.name}"
    | none => ""
  return s!"UniversalType({v.id.detail}{known})"

def primitiveKind (v : TypeView) : WorkM (Except ViewFault TypeKind) := do
  let k ← v.kind
  if k.isPrimitive then return .ok k else return .error (.notPrimitive (← v.text))

def isObject (v : TypeView) : WorkM Bool := do
  match ← v.shape with
  | .declared _ e _ => look v.domain (·.objectElement? == some e)
  | _ => return false

def isGeneric (v : TypeView) : WorkM Bool := do
  match ← v.shape with
  | .declared _ e _ => return (← within v.domain (StoreM.complete e)).isGeneric
  | _ => return false

def elementTypeN : Nat → TypeView → WorkM TypeView
  | 0, v => return v
  | fuel + 1, v => do
    match ← v.shape with
    | .array c => do elementTypeN fuel (← new v.domain c)
    | _ => return v

/-- What the innermost of nested arrays is an array of; the view itself if there is no array. -/
def elementType (v : TypeView) : WorkM TypeView := do elementTypeN (← look v.domain (·.chainBound)) v

/-- Whether this is a usage of a generic type element without arguments, or an array of them. -/
def isRaw (v : TypeView) : WorkM Bool := do
  let innermost ← v.elementType
  return !(← innermost.shape).isParameterized && (← innermost.isGeneric)

/-- The erasure, which is found once for each view. -/
def erasure (v : TypeView) : WorkM TypeView := do
  match (← v.memo).erasure with
  | some .itself => return v
  | some (.other w) => return w
  | none =>
    let erased ← within v.domain (StoreM.erase v.id)
    if erased = v.id then
      v.remember ({ · with erasure := some .itself })
      return v
    else
      let w ← new v.domain erased
      v.remember ({ · with erasure := some (.other w) })
      return w

def directSupertypes (v : TypeView) : WorkM (List TypeId) :=
  within v.domain (StoreM.directSupertypes v.id)

def isSubtypeOf (a b : TypeView) : WorkM Bool := do
  if a.domain.same b.domain then within a.domain (StoreM.isSubtype a.id b.id) else return false

def isAssignableTo (a b : TypeView) : WorkM Bool := do
  if a.domain.same b.domain then within a.domain (StoreM.isAssignable a.id b.id) else return false

def asMemberOf (v : TypeView) (member : ElementView) : WorkM (Except ViewFault TypeView) := do
  if !v.domain.same member.domain then
    return .error (.foreignMember (← member.detail) (← v.detail))
  match ← within v.domain (StoreM.asMemberOf v.id member.id).run with
  | .error f => return .error (.fault f)
  | .ok t => return .ok (← new v.domain t)

end TypeView

end Nominal
