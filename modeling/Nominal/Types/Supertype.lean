import Nominal.Store.Completion
import Nominal.Types.Erasure
import Nominal.Types.Substitution
/-!
Supertypes: the immediate ones of a type, and the search for one over a given element.
-/

namespace Nominal

namespace StoreM

/-- What a type element says its supertypes are, the superclass first. An interface is below the
top type. -/
def declaredSupertypes (r : ElementRecord) : StoreM (List TypeId) := do
  if r.superclass ≠ .none then return r.superclass :: r.interfaces
  else if r.kind.isInterface then
    let object ← objectType
    return if object = .none then r.interfaces else object :: r.interfaces
  else return r.interfaces

/-- The immediate supertypes; those of a raw usage are erased. -/
def directSupertypes (t : TypeId) : StoreM (List TypeId) := do
  let s ← get
  match s.shape t with
  | .declared _ e args =>
    let r ← complete e
    if !r.kind.isType then return []
    let supers ← declaredSupertypes r
    if r.typeParameters.isEmpty then return supers
    else if args.isEmpty then supers.mapM erase
    else supers.mapM (substitute ⟨r.typeParameters, args⟩)
  | .typeVariable _ upper =>
    match s.shape upper with
    | .intersection bounds => return bounds
    | _ => return [upper]
  | .intersection bounds => return bounds
  | .array _ =>
    let object ← objectType
    return if object = .none then [] else [object]
  | _ => return []

/-- A search in progress: elements whose supertypes are known, and the types to be seen next. -/
structure Frontier where
  seen : List ElementId
  next : List TypeId

/-- Looks at one type; each element is followed once, however often it is met. -/
def visit (target : ElementId) (f : Frontier) (t : TypeId) : StoreM (TypeId ⊕ Frontier) := do
  match (← get).shape t with
  | .declared _ e _ =>
    if e = target then return .inl t
    else if e ∈ f.seen then return .inr f
    else return .inr ⟨e :: f.seen, f.next ++ (← directSupertypes t)⟩
  | .typeVariable .. | .intersection _ => return .inr { f with next := f.next ++ (← directSupertypes t) }
  | _ => return .inr f

def visitAll (target : ElementId) : Frontier → List TypeId → StoreM (TypeId ⊕ Frontier)
  | f, [] => return .inr f
  | f, t :: rest => do
    match ← visit target f t with
    | .inl found => return .inl found
    | .inr f => visitAll target f rest

/-- A computation in which a search may go on for ever; then it has no result. -/
abbrev Searching := OptionT StoreM

def searchStep (target : ElementId) (again : Frontier → Searching (Option TypeId)) (f : Frontier) :
    Searching (Option TypeId) := do
  if f.next.isEmpty then return none
  match ← (visitAll target { f with next := [] } f.next : StoreM (TypeId ⊕ Frontier)) with
  | .inl t => return some t
  | .inr f => again f

/-- Levels that meet no new element, at most `idle` of them; after one that does, `renew` goes on. -/
def idleN (target : ElementId) (renew : Frontier → Searching (Option TypeId)) :
    Nat → Frontier → Searching (Option TypeId)
  | 0, _ => failure
  | idle + 1, f =>
    searchStep target
      (fun f' => if f'.seen.length = f.seen.length then idleN target renew idle f' else renew f') f

/-- A search that meets new elements fewer than `fuel` times. In between it follows the bounds of
type variables, and if that takes more levels than there are types, it goes round in circles. -/
def searchN (target : ElementId) : Nat → Frontier → Searching (Option TypeId)
  | 0, _ => failure
  | fuel + 1, f => do idleN target (searchN target fuel) ((← get).types.size + 1) f

/-- The supertype of `t` that is a usage of `target`, as seen from `t`, unless the search for it
never ends. -/
def asSuper? (t : TypeId) (target : ElementId) : Searching (Option TypeId) := do
  searchN target ((← get).typeElements.length + 1) ⟨[], [t]⟩

def asSuper (t : TypeId) (target : ElementId) : StoreM (Option TypeId) :=
  return (← (asSuper? t target).run).join

end StoreM

end Nominal
