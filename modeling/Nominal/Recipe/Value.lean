import Nominal.Recipe.Basic
import Nominal.Store.Basic
/-!
What recipes stand for in a domain, and why a recipe may stand for nothing.
-/

namespace Nominal

/-- The domain in which a recipe is followed, or the one over the model that the process hosts. -/
inductive HomeDomain where
  | own | runtime
  deriving DecidableEq

inductive Value where
  | null
  | bool (b : Bool)
  | int (n : Int64)
  | str (text : String)
  | name (key : NameKey)
  | elementKind (kind : ElementKind)
  | typeKind (kind : TypeKind)
  | domain (home : HomeDomain)
  | element (element : ElementId)
  | type (type : TypeId)
  | annotationUse (annotationUse : AnnotationUse)
  | list (items : List Value)
  | map (entries : List (Value × Value))
  | entry (key value : Value)

inductive Refusal where
  | domainMismatch
  | arity (factory : Factory) (expected found : Nat)
  | unresolved (role name : String)
  | unresolvedName (key : NameKey)
  | shape (context expected : String)
  | fault (fault : Fault)

namespace Refusal

def name : Refusal → String
  | domainMismatch => "DomainMismatch"
  | arity .. => "Arity"
  | unresolved .. | unresolvedName _ => "Unresolved"
  | shape .. => "Shape"
  | fault f => "Model." ++ f.family.name

def message : Refusal → String
  | domainMismatch => "descriptor belongs to another domain"
  | arity f expected found => s!"`{f.text}` takes {expected} arguments, got {found}"
  | unresolved role name => s!"{role} `{name}` does not resolve in this domain"
  | unresolvedName key => s!"name {key.text} does not resolve in this domain"
  | shape context expected => s!"{context} must be {expected}"
  | fault f => f.message

def code : Refusal → String
  | domainMismatch => "mirra::eval::domain_mismatch"
  | arity .. => "mirra::eval::arity"
  | unresolved .. | unresolvedName _ => "mirra::eval::unresolved"
  | shape .. => "mirra::eval::shape"
  | fault f => f.code

def help? : Refusal → Option String
  | domainMismatch => some "evaluate against a domain whose own descriptor matches the recipe"
  | _ => none

end Refusal

end Nominal
