import Mathlib.Data.List.Forall2
import Mathlib.Data.List.Nodup
import Nominal.Store.Completion
/-!
Consistency of a store: its handles lead somewhere, the parts of a type are older than the type, the
indexes agree with the elements, and the record of a complete element lists exactly what the element
owns. Consistency is meant to hold also in the middle of a completion, when some elements are open.
-/

namespace Nominal

namespace ElementKind

def isContainer : ElementKind → Bool
  | module | package => true
  | _ => false

def isMember : ElementKind → Bool
  | constructor | method | field | enumConstant | recordComponent => true
  | _ => false

def isOwned (k : ElementKind) : Bool := k.isMember || k == parameter || k == typeParameter

def admits (outer : ElementKind) : ElementKind → Bool
  | module | package => true
  | constructor | method | field | enumConstant | recordComponent => outer.isType
  | typeParameter => outer.isParameterizable
  | parameter | localVariable | exceptionParameter | resourceVariable | bindingVariable =>
    outer.isExecutable
  | classType | interfaceType | enumType | recordType | annotationType =>
    outer == package || outer.isType

theorem isType_not_container {k : ElementKind} (h : k.isType) : ¬ k.isContainer := by
  revert h
  cases k <;> decide

theorem isOwned_not_container {k : ElementKind} (h : k.isOwned) : ¬ k.isContainer := by
  revert h
  cases k <;> decide

theorem isOwned_not_type {k : ElementKind} (h : k.isOwned) : ¬ k.isType := by
  revert h
  cases k <;> decide

theorem isOwned_not_qualified {k : ElementKind} (h : k.isOwned) : ¬ k.isQualified := by
  revert h
  cases k <;> decide

theorem not_admits_owned {outer k : ElementKind} (container : outer.isContainer) (owned : k.isOwned) :
    ¬ outer.admits k := by
  revert container owned
  cases outer <;> cases k <;> decide

theorem isType_of_admits {outer k : ElementKind} (admits : outer.admits k) (member : k.isMember) :
    outer.isType := by
  revert admits member
  cases k <;> simp [admits, isMember]

theorem parameterizable_not_container {k : ElementKind} (h : k.isParameterizable) : ¬ k.isContainer := by
  revert h
  cases k <;> decide

theorem encloses_of_admits {outer k : ElementKind} (admits : outer.admits k) (generic : k.isParameterizable) :
    outer = package ∨ outer.isParameterizable := by
  revert admits generic
  cases outer <;> cases k <;> decide

theorem roles (k : ElementKind) : k.isQualified ∨ k.isExecutable ∨ (k = field ∨ k = enumConstant) ∨
    k = recordComponent ∨ k.isLocal ∨ k = parameter ∨ k = typeParameter := by
  cases k <;> decide

theorem isMember_of_executable {k : ElementKind} (h : k.isExecutable) : k.isMember := by
  revert h
  cases k <;> decide

theorem isOwned_of_executable {k : ElementKind} (h : k.isExecutable) : k.isOwned := by
  simp [isOwned, isMember_of_executable h]

end ElementKind

def TypeShape.parts : TypeShape → List TypeId
  | array c => [c]
  | declared enclosing _ args => enclosing :: args
  | wildcard upper lower => upper.toList ++ lower.toList
  | executable sig =>
    sig.typeVariables ++ sig.receiver :: sig.parameters ++ sig.result :: sig.thrown
  | union ts | intersection ts => ts
  | primitive _ | noType _ | null | error _ | typeVariable .. => []

namespace Store

def HasType (s : Store) (t : TypeId) : Prop := t.index < s.types.size

def HasElement (s : Store) (e : ElementId) : Prop := e.index < s.elements.size

def simpleName? (s : Store) (e : ElementId) : Option String := (s.slot? e).map (·.simpleName)

def IsType (s : Store) (e : ElementId) : Prop := ∃ k, s.kind? e = some k ∧ k.isType

def IsUsage (s : Store) (t : TypeId) : Prop := ∃ o e args, s.shape? t = some (.declared o e args)

def IsTypeParameter (s : Store) (e : ElementId) : Prop := s.kind? e = some .typeParameter

def Open (s : Store) (e : ElementId) : Prop :=
  ∃ slot, s.slot? e = some slot ∧ slot.state = .completing

def ids (s : Store) : List ElementId := (List.range s.elements.size).map .mk

def picked (s : Store) (p : Slot → Bool) : List ElementId := s.ids.filter fun e => (s.slot? e).any p

def owned (s : Store) (o : ElementId) : List ElementId :=
  s.ids.filter fun e => (s.slot? e).any fun slot => slot.kind.isOwned && slot.enclosing == some o

def ownedOf (s : Store) (o : ElementId) (p : ElementKind → Bool) : List ElementId :=
  (s.owned o).filter fun e => (s.kind? e).any p

/-- The parts of a shape come before it, and what it names is of the right kind. -/
structure ShapeFits (s : Store) (t : TypeId) (shape : TypeShape) : Prop where
  older : ∀ p ∈ shape.parts, p.index < t.index
  primitive : ∀ p, shape = .primitive p → t = .primitive p
  noType : ∀ n, shape = .noType n → t = .noType n
  null : shape = .null → t = .null
  declared : ∀ enclosing e args, shape = .declared enclosing e args →
    s.IsType e ∧ (enclosing = .none ∨ s.IsUsage enclosing)
  typeVariable : ∀ e upper, shape = .typeVariable e upper →
    s.kind? e = some .typeParameter ∧ s.HasType upper ∧ ∀ r, s.record? e = some r → r.asType = t

def IsVariable (s : Store) (e : ElementId) (t : TypeId) : Prop := ∃ upper, s.shape? t = some (.typeVariable e upper)

def IsPrototype (s : Store) (e : ElementId) (parameters : List ElementId) (t : TypeId) : Prop :=
  ∃ vars, s.shape? t = some (.declared .none e vars) ∧ List.Forall₂ s.IsVariable parameters vars

/-- A record repeats what the slot says and lists what the element owns. -/
structure RecordFits (s : Store) (e : ElementId) (slot : Slot) (r : ElementRecord) : Prop where
  id : r.id = e
  kind : r.kind = slot.kind
  simpleName : r.simpleName = slot.simpleName
  qualifiedName : r.qualifiedName = slot.qualifiedName
  enclosing : r.enclosing = slot.enclosing
  arity : r.typeParameters.length = slot.arity
  asType : s.HasType r.asType
  superclass : s.HasType r.superclass
  noSuperclass : slot.kind.isInterface → r.superclass = .none
  interfaces : ∀ t ∈ r.interfaces, s.HasType t
  typeParameters : r.typeParameters = s.ownedOf e (· == .typeParameter)
  parameters : r.parameters = s.ownedOf e (· == .parameter)
  components : r.declaredComponents = s.ownedOf e (· == .recordComponent)
  enclosed : ∃ rest, r.enclosed = s.ownedOf e (·.isMember) ++ rest ∧
    ∀ c ∈ rest, ∃ k, s.kind? c = some k ∧ ¬ k.isOwned
  bound : slot.kind = .typeParameter → r.genericElement? = slot.enclosing ∧ r.bounds ≠ [] ∧
    ∃ upper, s.shape? r.asType = some (.typeVariable e upper) ∧
      (r.bounds = [upper] ∨ s.shape? upper = some (.intersection r.bounds))
  prototype : slot.kind.isType → s.IsPrototype e r.typeParameters r.asType

def StateFits (s : Store) (e : ElementId) (slot : Slot) : Prop :=
  match slot.state with
  | .pending .container => slot.kind.isContainer ∧ slot.arity = 0
  | .pending (.type h) => slot.kind.isType ∧ h.kind = slot.kind ∧ h.name = slot.simpleName ∧
      h.typeParameters.length = slot.arity ∧ s.owned e = []
  | .completing => ¬ slot.kind.isContainer
  | .complete r => s.RecordFits e slot r

structure SlotFits (s : Store) (e : ElementId) (slot : Slot) : Prop where
  placed : ¬ slot.kind.isContainer →
    ∃ o k, slot.enclosing = some o ∧ o.index < e.index ∧ s.kind? o = some k ∧ k.admits slot.kind
  children : ∀ c ∈ slot.children, ∃ k, s.kind? c = some k ∧ ¬ k.isOwned
  state : s.StateFits e slot

def Indexes (s : Store) (p : ElementKind → Bool) (index : NameIndex) : Prop :=
  ∀ name e, index.find? name = some e ↔
    ∃ slot, s.slot? e = some slot ∧ p slot.kind ∧ slot.qualifiedName = name

structure Consistent (s : Store) : Prop where
  initial : ∀ i shape, TypeShape.initial[i]? = some shape → s.shape? ⟨i⟩ = some shape
  shapes : ∀ t shape, s.shape? t = some shape → s.ShapeFits t shape
  slots : ∀ e slot, s.slot? e = some slot → s.SlotFits e slot
  modules : s.Indexes (· == .module) s.modules
  packages : s.Indexes (· == .package) s.packages
  typeElements : s.Indexes (·.isType) s.typeElements
  object : ∀ t, s.objectUsage = some t →
    ∃ e, s.objectElement? = some e ∧ s.shape? t = some (.declared .none e [])

/-- No element is half complete, as between any two questions to a store. -/
structure Sound (s : Store) : Prop extends Consistent s where
  settled : ∀ e, ¬ s.Open e

theorem has_element_iff {s : Store} {e : ElementId} :
    s.HasElement e ↔ ∃ slot, s.slot? e = some slot := by
  simp only [HasElement, slot?, Array.getElem?_eq_some_iff]
  exact ⟨fun h => ⟨_, h, rfl⟩, fun ⟨_, h, _⟩ => h⟩

theorem has_type_iff {s : Store} {t : TypeId} :
    s.HasType t ↔ ∃ shape, s.shape? t = some shape := by
  simp only [HasType, shape?, Array.getElem?_eq_some_iff]
  exact ⟨fun h => ⟨_, h, rfl⟩, fun ⟨_, h, _⟩ => h⟩

theorem ShapeFits.part_known {s : Store} {t p : TypeId} {shape : TypeShape} (fits : s.ShapeFits t shape)
    (known : s.HasType t) (part : p ∈ shape.parts) : s.HasType p :=
  Nat.lt_trans (fits.older p part) known

theorem kind?_eq_some_iff {s : Store} {e : ElementId} {k : ElementKind} :
    s.kind? e = some k ↔ ∃ slot, s.slot? e = some slot ∧ slot.kind = k := by
  simp [kind?]

theorem IsType.there {s : Store} {e : ElementId} (type : s.IsType e) : s.HasElement e := by
  obtain ⟨_, kind, _⟩ := type
  obtain ⟨slot, found, _⟩ := kind?_eq_some_iff.mp kind
  exact has_element_iff.mpr ⟨slot, found⟩

theorem record?_eq_some_iff {s : Store} {e : ElementId} {r : ElementRecord} :
    s.record? e = some r ↔ ∃ slot, s.slot? e = some slot ∧ slot.state = .complete r := by
  unfold record?
  split
  · rename_i found
    simp [found]
  · rename_i other
    simp only [reduceCtorEq, false_iff, not_exists, not_and]
    intro slot found state
    exact other slot.kind slot.simpleName slot.qualifiedName slot.enclosing slot.children slot.arity r
      (by rw [found, ← state])

theorem not_open_of_record {s : Store} {e : ElementId} {r : ElementRecord}
    (complete : s.record? e = some r) : ¬ s.Open e := by
  rintro ⟨slot, found, isOpen⟩
  obtain ⟨slot', found', state⟩ := record?_eq_some_iff.mp complete
  rw [found] at found'
  cases found'
  simp [isOpen] at state

theorem shape_of_shape? {s : Store} {t : TypeId} {shape : TypeShape} (h : s.shape? t = some shape) :
    s.shape t = shape := by
  simp [Store.shape, h]

theorem mem_ids {s : Store} {e : ElementId} : e ∈ s.ids ↔ s.HasElement e := by
  simp only [ids, List.mem_map, List.mem_range, HasElement]
  exact ⟨fun ⟨_, h, same⟩ => same ▸ h, fun h => ⟨e.index, h, rfl⟩⟩

theorem mem_picked {s : Store} {p : Slot → Bool} {e : ElementId} :
    e ∈ s.picked p ↔ ∃ slot, s.slot? e = some slot ∧ p slot := by
  simp only [picked, List.mem_filter, mem_ids, has_element_iff]
  constructor
  · rintro ⟨⟨slot, found⟩, fits⟩
    exact ⟨slot, found, by simpa [found] using fits⟩
  · rintro ⟨slot, found, fits⟩
    exact ⟨⟨slot, found⟩, by simp [found, fits]⟩

theorem picked_nodup (s : Store) (p : Slot → Bool) : (s.picked p).Nodup := by
  refine List.Nodup.filter _ (List.Nodup.map ?_ List.nodup_range)
  rintro _ _ ⟨⟩
  rfl

theorem mem_owned {s : Store} {o e : ElementId} :
    e ∈ s.owned o ↔ ∃ slot, s.slot? e = some slot ∧ slot.kind.isOwned ∧ slot.enclosing = some o := by
  refine mem_picked.trans ?_
  simp only [Bool.and_eq_true, beq_iff_eq]

theorem owned_nodup (s : Store) (o : ElementId) : (s.owned o).Nodup := s.picked_nodup _

theorem mem_ownedOf {s : Store} {o e : ElementId} {p : ElementKind → Bool} :
    e ∈ s.ownedOf o p ↔
      ∃ slot, s.slot? e = some slot ∧ slot.kind.isOwned ∧ slot.enclosing = some o ∧ p slot.kind := by
  simp only [ownedOf, List.mem_filter, mem_owned]
  constructor
  · rintro ⟨⟨slot, found, kind, enclosing⟩, fits⟩
    exact ⟨slot, found, kind, enclosing, by simpa [kind?, found] using fits⟩
  · rintro ⟨slot, found, kind, enclosing, fits⟩
    exact ⟨⟨slot, found, kind, enclosing⟩, by simp [kind?, found, fits]⟩

end Store

end Nominal
