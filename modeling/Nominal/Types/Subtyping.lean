import Nominal.Types.Sameness
import Nominal.Types.Supertype
/-!
Subtyping. An error is on both sides of everything, and a raw usage is below every usage of its
element. Bounds are followed to a fixed depth; beyond it types are not related.
-/

namespace Nominal.StoreM

/-- Whether the type argument `t` admits `s`, given when types are subtypes. -/
def contains (isSubtype : TypeId → TypeId → Searching Bool) (t s : TypeId) : Searching Bool := do
  let st ← get
  match st.shape t with
  | .wildcard (some bound) _ =>
    let upper ← match st.shape s with
      | .wildcard (some upper) _ => pure upper
      | .wildcard none _ => (objectType : StoreM TypeId)
      | _ => pure s
    isSubtype upper bound
  | .wildcard none (some bound) =>
    match st.shape s with
    | .wildcard _ (some lower) => isSubtype bound lower
    | .wildcard _ none => return false
    | _ => isSubtype bound s
  | .wildcard none none => return true
  | _ => return st.sameType t s

def argumentsFit (isSubtype : TypeId → TypeId → Searching Bool) (actual wanted : List TypeId) :
    Searching Bool := do
  if wanted.isEmpty || actual.isEmpty then return true
  else if actual.length ≠ wanted.length then return false
  else (actual.zip wanted).allM fun (s, t) => contains isSubtype t s

def isSubtypeStep (again : TypeId → TypeId → Searching Bool) (a b : TypeId) : Searching Bool := do
  let s ← get
  if s.sameType a b then return true
  match s.shape a, s.shape b with
  | .error _, _ | _, .error _ => return true
  | .primitive p, .primitive q => return p.widensTo q
  | .null, target => return target.kind.isReference
  | _, .intersection bounds => bounds.allM (again a)
  | .intersection bounds, _ => bounds.anyM (again · b)
  | .union alternatives, _ => alternatives.allM (again · b)
  | .typeVariable _ upper, _ => again upper b
  | .array c, .array d =>
    let (k, l) := (s.typeKind c, s.typeKind d)
    if k.isPrimitive || l.isPrimitive then return k = l else again c d
  | .array _, .declared _ e _ => return s.objectElement? == some e
  | .declared .., .declared _ e wanted =>
    match ← asSuper? a e with
    | none => return false
    | some view => argumentsFit again ((← get).shape view).arguments wanted
  | _, _ => return false

def isSubtypeN : Nat → TypeId → TypeId → Searching Bool
  | 0 => fun _ _ => return false
  | depth + 1 => isSubtypeStep (isSubtypeN depth)

/-- Whether `a` is below `b`, unless a search for supertypes never ends. -/
def isSubtype? (a b : TypeId) : Searching Bool := isSubtypeN boundDepth a b

def isSubtype (a b : TypeId) : StoreM Bool := return (← (isSubtype? a b).run).getD false

/-- Nothing is converted on assignment but raw usages, which subtyping admits already. -/
def isAssignable (a b : TypeId) : StoreM Bool := isSubtype a b

end Nominal.StoreM
