import Nominal.Recipe.Basic
import Nominal.Types.Membership
/-!
Describing constructs: the recipe by which an element, a type or an annotation can be obtained again
from a domain. Local variables have none, nor has a type that involves an error, a signature,
alternatives, several bounds, or the type of a package or module.

A constructor or method is told from its namesakes by the erasures of its parameter types. These hold
no type variables, so a description never comes back to where it began.
-/

namespace Nominal

namespace Recipe

def within (domain : Recipe) (f : Factory) (args : List Recipe) : Recipe := invoke f (domain :: args)

def ofName (domain : Recipe) (name : String) : Recipe := domain.within .name [str name]

end Recipe

/-- A search for a recipe; what it completes and adds stays even if there is none. -/
abbrev Describing := OptionT StoreM

namespace Describing

open StoreM

mutual

/-- Describes an element by what encloses it, fewer than `fuel` levels up. -/
def recordN (domain : Recipe) : Nat → ElementRecord → Describing Recipe
  | 0, _ => failure
  | fuel + 1, r => do
    let name := domain.ofName
    let element (e? : Option ElementId) : Describing Recipe := do
      let e ← OptionT.mk (pure e?)
      recordN domain fuel (← complete e)
    match r.kind with
    | .module => return domain.within .moduleElement [name r.qualifiedName]
    | .package => return domain.within .packageElement [name r.qualifiedName]
    | .classType | .interfaceType | .enumType | .recordType | .annotationType =>
      return domain.within .typeElement [name r.qualifiedName]
    | .constructor | .method =>
      let enclosing ← element r.enclosing
      let parameters ← r.parameters.mapM fun p => do
        let erased ← erase (← complete p).asType
        shapeN domain fuel (← inspect erased)
      return domain.within .executableElement
        [enclosing, .elementKind r.kind, name r.simpleName, .ofItems parameters]
    | .field | .enumConstant | .parameter =>
      return domain.within .variableElement [← element r.enclosing, name r.simpleName]
    | .typeParameter =>
      return domain.within .typeParameterElement [← element r.genericElement?, name r.simpleName]
    | .recordComponent =>
      return domain.within .recordComponentElement [← element r.enclosing, name r.simpleName]
    | .localVariable | .exceptionParameter | .resourceVariable | .bindingVariable => failure

def shapeN (domain : Recipe) : Nat → TypeShape → Describing Recipe
  | 0, _ => failure
  | fuel + 1, shape => do
    let type (t : TypeId) : Describing Recipe := do shapeN domain fuel (← inspect t)
    let optional : Option TypeId → Describing Recipe
      | some t => type t
      | none => return .null
    match shape with
    | .primitive p => return domain.within .primitiveType [.typeKind p.kind]
    | .noType .none => return domain.within .noType [.typeKind .none]
    | .noType .void => return domain.within .noType [.typeKind .void]
    | .null => return domain.within .nullType []
    | .array c => return domain.within .arrayType [← type c]
    | .declared enclosing e args =>
      let enclosing ← optional (if enclosing = .none then none else some enclosing)
      let element ← recordN domain fuel (← complete e)
      let args ← args.mapM type
      return domain.within .declaredType [enclosing, element, .ofItems args]
    | .typeVariable e _ => return domain.within .typeVariable [← recordN domain fuel (← complete e)]
    | .wildcard upper lower =>
      let upper ← optional upper
      let lower ← optional lower
      return domain.within .wildcardType [upper, lower]
    | .noType .package | .noType .module | .error _ | .executable _ | .union _ | .intersection _ =>
      failure

end

/-- Levels of a type, of a type variable in it, and of the erased parameter types by which the
variable's executable is known. -/
def depth (s : Store) : Nat := s.types.size + boundDepth + 8

def record (domain : Recipe) (r : ElementRecord) : Describing Recipe := do
  recordN domain (depth (← get)) r

def shape (domain : Recipe) (s : TypeShape) : Describing Recipe := do
  shapeN domain (depth (← get)) s

def element (domain : Recipe) (e : ElementId) : Describing Recipe := do
  record domain (← complete e)

def type (domain : Recipe) (t : TypeId) : Describing Recipe := do
  shape domain (← inspect t)

mutual

/-- Plain values need no domain to be described. -/
def value (domain : Option Recipe) : AnnotationValue → Describing Recipe
  | .bool b => return .bool b
  | .int n => return .int n
  | .str text => return .str text
  | .type t => do type (← OptionT.mk (pure domain)) t
  | .enumConstant e => do element (← OptionT.mk (pure domain)) e
  | .array vs => return .ofItems (← values domain vs)

def values (domain : Option Recipe) : List AnnotationValue → Describing (List Recipe)
  | [] => return []
  | v :: rest => do
    let r ← value domain v
    return r :: (← values domain rest)

end

def annotationUse (domain : Recipe) (a : AnnotationUse) : Describing Recipe := do
  let type ← type domain a.type
  let entries ← a.values.mapM fun (name, v) => do
    let r ← value (some domain) v
    return (.str name, r)
  return domain.within .annotationUse [type, .ofEntries entries]

end Describing

end Nominal
