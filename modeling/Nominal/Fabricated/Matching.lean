import Nominal.Fabricated.Basic
import Nominal.Workspace.ElementView
/-!
What can be told of fabricated nodes from outside: how they are shown, and which elements of a domain they match. An
element matches by kind and simple name, whatever is attached to it.
-/

namespace Nominal.Fabricated.Graph

def elementDetail (g : Graph) (e : ElementNode) : String :=
  match g.element? e with
  | some d => "SyntheticElement \x7b name: " ++ quoted d.name ++ ", kind: " ++ d.kind.name
      ++ ", annotations: " ++ toString d.annotations.length ++ " \x7d"
  | none => ""

def annotationTypes (g : Graph) (e : ElementNode) : List ElementNode :=
  (g.annotationsOf e).filterMap fun a => (g.annotationData? a).map (·.type)

def annotationsDetail (g : Graph) (e : ElementNode) : String :=
  "[" ++ ", ".intercalate ((g.annotationTypes e).map g.elementDetail) ++ "]"

def annotationDetail (g : Graph) (a : AnnotationNode) : String :=
  "@" ++ ((g.annotationData? a).map (g.nameOf ·.type)).getD ""

def matchesElement (g : Graph) (e : ElementNode) (v : ElementView) : WorkM Bool := do
  let r ← v.record
  return match g.element? e with
    | some d => d.kind == r.kind && d.name == r.simpleName
    | none => false

end Nominal.Fabricated.Graph
