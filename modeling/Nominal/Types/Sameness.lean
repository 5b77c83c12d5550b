import Nominal.Store.Completion
/-!
When two types are the same: their shapes agree down to type elements and type variables. An error
is only the same as itself; alternatives and bounds may come in any order. Less goes into the hash of a type than makes
two types the same, so that the same types hash alike.
-/

namespace Nominal

namespace Store

def sameOption {α : Type} (same : α → α → Bool) : Option α → Option α → Bool
  | some a, some b => same a b
  | none, none => true
  | _, _ => false

def sameList {α : Type} (same : α → α → Bool) : List α → List α → Bool
  | a :: as, b :: bs => same a b && sameList same as bs
  | [], [] => true
  | _, _ => false

def sameSet {α : Type} (same : α → α → Bool) (as bs : List α) : Bool :=
  as.length == bs.length && as.all fun a => bs.any (same a)

/-- Receivers and the names of type variables make no difference to a signature. -/
def sameSignature (same : TypeId → TypeId → Bool) (a b : Signature) : Bool :=
  a.typeVariables.length == b.typeVariables.length && sameList same a.parameters b.parameters
    && same a.result b.result && sameList same a.thrown b.thrown

def sameShape (same : TypeId → TypeId → Bool) : TypeShape → TypeShape → Bool
  | .primitive p, .primitive q => p == q
  | .noType m, .noType n => m == n
  | .null, .null => true
  | .array c, .array d => same c d
  | .declared a d as, .declared b e bs => d == e && same a b && sameList same as bs
  | .typeVariable d _, .typeVariable e _ => d == e
  | .wildcard u l, .wildcard u' l' => sameOption same u u' && sameOption same l l'
  | .executable a, .executable b => sameSignature same a b
  | .union as, .union bs => sameSet same as bs
  | .intersection as, .intersection bs => sameSet same as bs
  | _, _ => false

def sameTypeStep (s : Store) (same : TypeId → TypeId → Bool) (a b : TypeId) : Bool :=
  a == b || sameShape same (s.shape a) (s.shape b)

def sameTypeN (s : Store) : Nat → TypeId → TypeId → Bool
  | 0 => (· == ·)
  | fuel + 1 => s.sameTypeStep (s.sameTypeN fuel)

def sameType (s : Store) (a b : TypeId) : Bool := s.sameTypeN s.chainBound a b

mutual

def sameValue (s : Store) : AnnotationValue → AnnotationValue → Bool
  | .bool a, .bool b => a == b
  | .int a, .int b => a == b
  | .str a, .str b => a == b
  | .type t, .type u => s.sameType t u
  | .enumConstant d, .enumConstant e => d == e
  | .array as, .array bs => s.sameValues as bs
  | _, _ => false

def sameValues (s : Store) : List AnnotationValue → List AnnotationValue → Bool
  | a :: as, b :: bs => s.sameValue a b && s.sameValues as bs
  | [], [] => true
  | _, _ => false

end

def sameAnnotationUse (s : Store) (a b : AnnotationUse) : Bool :=
  s.sameType a.type b.type
    && sameList (fun (m, v) (n, w) => m == n && s.sameValue v w) a.values b.values

end Store

inductive HashData where
  | plain (kind : TypeKind)
  | named (kind : TypeKind) (element : ElementId)
  | array (component : HashData)
  deriving DecidableEq

namespace StoreM

def hashDataN : Nat → TypeShape → StoreM HashData
  | 0, shape => return .plain shape.kind
  | fuel + 1, shape => do
    match shape with
    | .declared _ e _ | .typeVariable e _ => return .named shape.kind e
    | .array c => .array <$> hashDataN fuel (← inspect c)
    | _ => return .plain shape.kind

def hashData (shape : TypeShape) : StoreM HashData := do hashDataN (← get).chainBound shape

end StoreM

end Nominal
