import Nominal.Declaration
import Nominal.Fault
import Nominal.Names
import Nominal.Store.Record
import Nominal.Store.Shape
/-!
The store: every element and every type of a program under its handle, the names by which elements
are found, and how far each element has been completed. A store only grows; the one thing taken
back is the completion of a module or package that gets another member.
-/

namespace Nominal

inductive Pending where
  | container
  | type (header : TypeHeader)

inductive SlotState where
  | pending (work : Pending)
  | completing
  | complete (record : ElementRecord)

/-- What is known about an element before it is complete. -/
structure Slot where
  kind : ElementKind
  simpleName : String
  qualifiedName : String
  enclosing : Option ElementId := none
  /-- Packages of a module, types of a package or type, locals of an executable. -/
  children : List ElementId := []
  arity : Nat := 0
  state : SlotState := .completing

/-- Names in the order in which they were entered. -/
abbrev NameIndex := List (String × ElementId)

def NameIndex.find? (index : NameIndex) (name : String) : Option ElementId :=
  (List.find? (·.1 == name) index).map (·.2)

def NameIndex.elements (index : NameIndex) : List ElementId := index.map (·.2)

structure Store where
  names : NameTable := {}
  elements : Array Slot := #[]
  types : Array TypeShape := TypeShape.initial.toArray
  modules : NameIndex := []
  packages : NameIndex := []
  typeElements : NameIndex := []
  /-- The usage of the top type that is handed out wherever one is needed. -/
  objectUsage : Option TypeId := none
  completions : Nat := 0

abbrev StoreM := StateM Store

/-- A computation that may be refused; what was added before the refusal stays. -/
abbrev Checked := ExceptT Fault StoreM

def objectName : String := "lang.Object"

namespace Store

def empty : Store := {}

def slot? (s : Store) (e : ElementId) : Option Slot := s.elements[e.index]?

def kind? (s : Store) (e : ElementId) : Option ElementKind := (s.slot? e).map (·.kind)

def qualifiedName? (s : Store) (e : ElementId) : Option String := (s.slot? e).map (·.qualifiedName)

def arity (s : Store) (e : ElementId) : Nat := ((s.slot? e).map (·.arity)).getD 0

def record? (s : Store) (e : ElementId) : Option ElementRecord :=
  match s.slot? e with
  | some { state := .complete r, .. } => some r
  | _ => none

def isComplete (s : Store) (e : ElementId) : Bool := (s.record? e).isSome

def module? (s : Store) (name : String) : Option ElementId := s.modules.find? name

def package? (s : Store) (name : String) : Option ElementId := s.packages.find? name

def typeElement? (s : Store) (name : String) : Option ElementId := s.typeElements.find? name

def objectElement? (s : Store) : Option ElementId := s.typeElement? objectName

def shape? (s : Store) (t : TypeId) : Option TypeShape := s.types[t.index]?

/-- The shape of a type; a handle from elsewhere is an unknown type. -/
def shape (s : Store) (t : TypeId) : TypeShape := (s.shape? t).getD .unknown

def typeKind (s : Store) (t : TypeId) : TypeKind := (s.shape t).kind

def knownKind (s : Store) (t : TypeId) : Except Fault TypeKind :=
  match s.shape? t with
  | some shape => .ok shape.kind
  | none => .error (.unknownType t)

/-- The length of a chain through distinct types, with a handle from elsewhere at its end. -/
def chainBound (s : Store) : Nat := s.types.size + 2

def setState (s : Store) (e : ElementId) (state : SlotState) : Store :=
  { s with elements := s.elements.modify e.index ({ · with state }) }

/-- A container that was complete is to be completed again when it gets another member. -/
def Slot.addChild (child : ElementId) (slot : Slot) : Slot :=
  { slot with
    children := slot.children ++ [child]
    state :=
      match slot.state with
      | .complete r =>
        if slot.kind = .module ∨ slot.kind = .package then .pending .container else .complete r
      | state => state }

def addChild (s : Store) (parent child : ElementId) : Store :=
  { s with elements := s.elements.modify parent.index (Slot.addChild child) }

end Store

namespace StoreM

def internName (name : String) : StoreM NameKey :=
  modifyGet fun s =>
    let (key, names) := s.names.intern name
    (key, { s with names })

def newSlot (slot : Slot) : StoreM ElementId :=
  modifyGet fun s => (⟨s.elements.size⟩, { s with elements := s.elements.push slot })

def newType (shape : TypeShape) : StoreM TypeId :=
  modifyGet fun s => (⟨s.types.size⟩, { s with types := s.types.push shape })

def setShape (t : TypeId) (shape : TypeShape) : StoreM Unit :=
  modify fun s => { s with types := s.types.setIfInBounds t.index shape }

def publish (r : ElementRecord) : StoreM Unit := modify (·.setState r.id (.complete r))

def newComplete (record : ElementId → ElementRecord) : StoreM ElementId := do
  let id : ElementId := ⟨(← get).elements.size⟩
  let r := record id
  newSlot { kind := r.kind, simpleName := r.simpleName, qualifiedName := r.qualifiedName
            enclosing := r.enclosing, arity := r.typeParameters.length, state := .complete r }

/-- A usage of the top type, or the `none` type in a store that has no top type. -/
def objectType : StoreM TypeId := do
  let s ← get
  match s.objectUsage, s.objectElement? with
  | some t, _ => return t
  | none, none => return .none
  | none, some e =>
    let t ← newType (.declared .none e [])
    modify ({ · with objectUsage := some t })
    return t

end StoreM

end Nominal
