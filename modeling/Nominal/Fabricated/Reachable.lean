import Nominal.Fabricated.Basic
/-!
What can be reached from a fabricated element through its annotations: their types and the elements
and annotations among their values. Nearer elements come first.
-/

namespace Nominal.Fabricated

inductive Item where
  | element (e : ElementNode)
  | annotationNode (a : AnnotationNode)
  | value (v : NodeValue)

mutual

/-- How many items a value leads to, itself counted, short of what its elements and annotations lead
to. -/
def NodeValue.weight : NodeValue → Nat
  | array vs => NodeValue.weights vs + 1
  | element _ | annotationNode _ => 2
  | _ => 1

def NodeValue.weights : List NodeValue → Nat
  | [] => 0
  | v :: rest => NodeValue.weight v + NodeValue.weights rest

end

namespace Graph

/-- What is met at the next step from an element or annotation that was not met before, or from a
value. -/
def following (g : Graph) : Item → List Item
  | .element e => (g.annotationsOf e).map .annotationNode
  | .annotationNode a =>
    match g.annotationData? a with
    | some d => .element d.type :: d.values.values.map .value
    | none => []
  | .value (.element e) => [.element e]
  | .value (.annotationNode a) => [.annotationNode a]
  | .value (.array vs) => vs.map .value
  | .value _ => []

/-- A traversal in progress: what was met and what is to be met, in order. -/
structure Traversal where
  elements : List ElementNode := []
  annotations : List AnnotationNode := []
  queue : List Item

namespace Traversal

def isKnown (t : Traversal) : Item → Bool
  | .element e => t.elements.contains e
  | .annotationNode a => t.annotations.contains a
  | .value _ => false

def meet (t : Traversal) : Item → Traversal
  | .element e => { t with elements := t.elements ++ [e] }
  | .annotationNode a => { t with annotations := t.annotations ++ [a] }
  | .value _ => t

end Traversal

def traverse (g : Graph) : Nat → Traversal → Traversal
  | 0, t => t
  | fuel + 1, t =>
    match t.queue with
    | [] => t
    | item :: rest =>
      if t.isKnown item then traverse g fuel { t with queue := rest }
      else traverse g fuel ({ t with queue := rest ++ g.following item }.meet item)

/-- More than all items that can ever be in the queue: each element and each annotation is followed
once. -/
def weight (g : Graph) : Nat :=
  g.elements.toList.foldr (fun d n => d.annotations.length + n) 0
    + g.annotations.toList.foldr (fun d n => NodeValue.weights d.values.values + 1 + n) 0 + 2

def reachable (g : Graph) (e : ElementNode) : List ElementNode :=
  (g.traverse g.weight { queue := [.element e] }).elements

end Graph

end Nominal.Fabricated
