import Nominal.Recipe.Describe
import Nominal.Recipe.Rebuild
import Nominal.Workspace.TypeView
/-!
Describing views and following recipes in a domain. A domain describes what is its own; plain values
belong to every domain.
-/

namespace Nominal

structure AnnotationView where
  domain : Domain
  use : AnnotationUse

namespace ElementView

def annotations (v : ElementView) : WorkM (List AnnotationView) := do
  return (← v.record).annotations.map (⟨v.domain, ·⟩)

end ElementView

namespace AnnotationView

def same (a b : AnnotationView) : WorkM Bool := do
  if a.domain.same b.domain then WorkM.look a.domain (·.sameAnnotationUse a.use b.use)
  else return false

end AnnotationView

namespace Domain

open WorkM

/-- The recipe for constructs of `home`, if they are this domain's own. -/
def recipeFor? (d home : Domain) : Option Recipe := if d.same home then d.recipe else none

def describeElement (d : Domain) (v : ElementView) : WorkM (Option Recipe) := do
  match d.recipeFor? v.domain with
  | none => return none
  | some recipe =>
    let r ← v.record
    within v.domain (Describing.record recipe r).run

def describeType (d : Domain) (v : TypeView) : WorkM (Option Recipe) := do
  match d.recipeFor? v.domain with
  | none => return none
  | some recipe =>
    let s ← v.shape
    within v.domain (Describing.shape recipe s).run

def describeAnnotationUse (d : Domain) (v : AnnotationView) : WorkM (Option Recipe) := do
  match d.recipeFor? v.domain with
  | none => return none
  | some recipe => within v.domain (Describing.annotationUse recipe v.use).run

def describeValue (d home : Domain) (a : AnnotationValue) : WorkM (Option Recipe) :=
  if d.recipe.isNone then return none else within home (Describing.value (d.recipeFor? home) a).run

def rebuild (d : Domain) (r : Recipe) : WorkM (Except Refusal Value) :=
  within d (Rebuilding.rebuild d.recipe r).run

def rebuildType (d : Domain) (r : Recipe) : WorkM (Except Refusal TypeId) :=
  within d (Rebuilding.rebuildType d.recipe r).run

def rebuildElement (d : Domain) (r : Recipe) : WorkM (Except Refusal ElementId) :=
  within d (Rebuilding.rebuildElement d.recipe r).run

def rebuildAnnotationUse (d : Domain) (r : Recipe) : WorkM (Except Refusal AnnotationUse) :=
  within d (Rebuilding.rebuildAnnotationUse d.recipe r).run

end Domain

/-! Without a domain to ask, a construct is described by its own. -/

def ElementView.describe (v : ElementView) : WorkM (Option Recipe) := v.domain.describeElement v

def TypeView.describe (v : TypeView) : WorkM (Option Recipe) := v.domain.describeType v

namespace AnnotationView

def describe (v : AnnotationView) : WorkM (Option Recipe) := v.domain.describeAnnotationUse v

/-- A plain value has a recipe even if the domain of the annotation has none. -/
def describeValue (v : AnnotationView) (a : AnnotationValue) : WorkM (Option Recipe) :=
  WorkM.within v.domain (Describing.value v.domain.recipe a).run

end AnnotationView

def describeAll {α : Type} (describe : α → WorkM (Option Recipe)) (items : List α) :
    WorkM (Option Recipe) := OptionT.run do
  return .ofItems (← items.mapM fun a => OptionT.mk (describe a))

end Nominal
