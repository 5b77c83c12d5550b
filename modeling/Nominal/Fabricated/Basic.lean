import Nominal.ByName
import Nominal.Kind
/-!
Fabricated elements and annotations, which belong to no domain. A node is known by its place in the
graph, so two nodes are the same only if they are one node. The annotations of an element and the
values of an annotation may be changed at any time, also so that they lead back to where they are.
-/

namespace Nominal.Fabricated

structure ElementNode where
  index : Nat
  deriving DecidableEq

structure AnnotationNode where
  index : Nat
  deriving DecidableEq

inductive NodeValue where
  | bool (b : Bool)
  | int (n : Int64)
  | str (text : String)
  | element (e : ElementNode)
  | annotationNode (a : AnnotationNode)
  | array (values : List NodeValue)
  deriving BEq

structure ElementData where
  name : String
  kind : ElementKind
  annotations : List AnnotationNode := []

structure AnnotationData where
  type : ElementNode
  values : ByName NodeValue := []

structure Graph where
  elements : Array ElementData := #[]
  annotations : Array AnnotationData := #[]

namespace Graph

def empty : Graph := {}

def newElement (g : Graph) (name : String) (kind : ElementKind) : ElementNode × Graph :=
  (⟨g.elements.size⟩, { g with elements := g.elements.push { name, kind } })

def newAnnotationNode (g : Graph) (type : ElementNode) : AnnotationNode × Graph :=
  (⟨g.annotations.size⟩, { g with annotations := g.annotations.push { type } })

def element? (g : Graph) (e : ElementNode) : Option ElementData := g.elements[e.index]?

def annotationData? (g : Graph) (a : AnnotationNode) : Option AnnotationData := g.annotations[a.index]?

def nameOf (g : Graph) (e : ElementNode) : String := ((g.element? e).map (·.name)).getD ""

def annotationsOf (g : Graph) (e : ElementNode) : List AnnotationNode :=
  ((g.element? e).map (·.annotations)).getD []

def valuesOf (g : Graph) (a : AnnotationNode) : ByName NodeValue :=
  ((g.annotationData? a).map (·.values)).getD []

def value? (g : Graph) (a : AnnotationNode) (name : String) : Option NodeValue :=
  (g.valuesOf a).get? name

def attach (g : Graph) (e : ElementNode) (a : AnnotationNode) : Graph :=
  { g with elements := g.elements.modify e.index fun d => { d with annotations := d.annotations ++ [a] } }

def clear (g : Graph) (e : ElementNode) : Graph :=
  { g with elements := g.elements.modify e.index ({ · with annotations := [] }) }

def setValue (g : Graph) (a : AnnotationNode) (name : String) (v : NodeValue) : Graph :=
  { g with annotations := g.annotations.modify a.index fun d => { d with values := d.values.insert name v } }

end Graph

end Nominal.Fabricated
