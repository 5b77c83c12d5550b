import Nominal.Proofs.Store.Growth
/-!
The single steps by which a store grows: a type is added, an element is added, the record of an open
element is published, the bound of a type variable is settled. Each keeps the store consistent.
-/

namespace Nominal

namespace Store

def pushSlot (s : Store) (slot : Slot) : Store := { s with elements := s.elements.push slot }

def updateSlot (s : Store) (e : ElementId) (f : Slot → Slot) : Store :=
  { s with elements := s.elements.modify e.index f }

def updateShape (s : Store) (t : TypeId) (shape : TypeShape) : Store :=
  { s with types := s.types.setIfInBounds t.index shape }

def pushType (s : Store) (shape : TypeShape) : Store := { s with types := s.types.push shape }

section access

variable {s : Store} {e o : ElementId} {t : TypeId}

theorem slot?_push (slot : Slot) :
    (s.pushSlot slot).slot? e =
      if e.index = s.elements.size then some slot else s.slot? e :=
  Array.getElem?_push

theorem slot?_update {f : Slot → Slot} :
    (s.updateSlot o f).slot? e = if e = o then (s.slot? e).map f else s.slot? e := by
  rw [slot?, updateSlot, Array.getElem?_modify, slot?]
  congr 1
  cases e; cases o; simp [eq_comm]

theorem record?_congr {s' : Store} (same : s'.slot? e = s.slot? e) : s'.record? e = s.record? e := by
  rw [record?, record?, same]

theorem slot?_setState_ne (state : SlotState) (other : e ≠ o) : (s.setState o state).slot? e = s.slot? e := by
  change (s.updateSlot o _).slot? e = _
  rw [slot?_update, if_neg other]

theorem slot?_setState {slot : Slot} (state : SlotState) (found : s.slot? o = some slot) :
    (s.setState o state).slot? o = some { slot with state } := by
  change (s.updateSlot o _).slot? o = _
  rw [slot?_update, if_pos rfl, found, Option.map_some]

theorem setState_setState (a b : SlotState) :
    ((s.setState e a).setState e b).elements = (s.setState e b).elements := by
  refine Array.ext_getElem? fun i => ?_
  simp only [setState, Array.getElem?_modify]
  split
  · rw [Option.map_map]
    rfl
  · rfl

theorem shape?_push (shape : TypeShape) :
    (s.pushType shape).shape? t =
      if t.index = s.types.size then some shape else s.shape? t :=
  Array.getElem?_push

theorem shape?_update {u : TypeId} {shape : TypeShape} (old : s.HasType u) :
    (s.updateShape u shape).shape? t = if t = u then some shape else s.shape? t := by
  rw [shape?, updateShape, Array.getElem?_setIfInBounds, shape?]
  rw [HasType] at old
  cases t; cases u; simp_all [eq_comm]

theorem slot?_at_size : s.slot? ⟨s.elements.size⟩ = none := by
  simp [slot?]

theorem shape?_at_size : s.shape? ⟨s.types.size⟩ = none := by
  simp [shape?]

section picked

variable {p : Slot → Bool} {slot : Slot}

theorem picked_congr {s' : Store} (elements : s'.elements = s.elements) : s'.picked p = s.picked p := by
  rw [picked, ids, elements, picked, ids]
  exact List.filter_congr fun e _ => by rw [slot?, elements, slot?]

theorem picked_push (slot : Slot) :
    (s.pushSlot slot).picked p = s.picked p ++ if p slot then [⟨s.elements.size⟩] else [] := by
  have old : ∀ e ∈ s.ids, (s.pushSlot slot).slot? e = s.slot? e := by
    intro e mem
    rw [mem_ids, HasElement] at mem
    rw [slot?_push, if_neg (by omega)]
  have ids : (s.pushSlot slot).ids = s.ids ++ [⟨s.elements.size⟩] := by
    simp [Store.ids, pushSlot, List.range_succ]
  rw [picked, ids, List.filter_append, picked]
  congr 1
  · exact List.filter_congr fun e mem => by rw [old e mem]
  · rw [List.filter_singleton, slot?_push, if_pos rfl, Option.any_some, Bool.cond_eq_ite]

theorem picked_push_other (other : ¬ p slot) : (s.pushSlot slot).picked p = s.picked p := by
  rw [picked_push, if_neg other, List.append_nil]

theorem picked_update {f : Slot → Slot} (e : ElementId) (same : ∀ slot, p (f slot) = p slot) :
    (s.updateSlot e f).picked p = s.picked p := by
  have ids : (s.updateSlot e f).ids = s.ids := by simp [Store.ids, updateSlot]
  rw [picked, ids]
  refine List.filter_congr fun e _ => ?_
  rw [slot?_update]
  split
  · cases s.slot? e <;> simp [same]
  · rfl

end picked

theorem owned_congr {s' : Store} (elements : s'.elements = s.elements) : s'.owned o = s.owned o :=
  picked_congr elements

theorem owned_push (slot : Slot) :
    (s.pushSlot slot).owned o =
      s.owned o ++ if slot.kind.isOwned && slot.enclosing == some o then [⟨s.elements.size⟩] else [] :=
  picked_push slot

theorem owned_push_other {slot : Slot} (other : slot.kind.isOwned → slot.enclosing ≠ some o) :
    (s.pushSlot slot).owned o = s.owned o := by
  refine picked_push_other ?_
  rw [Bool.and_eq_true, beq_iff_eq]
  exact fun ⟨owned, enclosing⟩ => other owned enclosing

theorem owned_update {f : Slot → Slot} (e : ElementId)
    (same : ∀ slot, (f slot).kind = slot.kind ∧ (f slot).enclosing = slot.enclosing) :
    (s.updateSlot e f).owned o = s.owned o := by
  apply picked_update e
  intro slot
  rw [(same slot).1, (same slot).2]

end access

section kept

variable {mine : ElementId → Prop} {s s' : Store} {e o : ElementId} {slot : Slot} {r : ElementRecord}

theorem Grows.ownedOf (g : s.Grows mine s') (owned : s'.owned o = s.owned o)
    (p : ElementKind → Bool) : s'.ownedOf o p = s.ownedOf o p := by
  rw [Store.ownedOf, owned, Store.ownedOf]
  refine List.filter_congr fun e mem => ?_
  obtain ⟨slot, found, _⟩ := mem_owned.mp mem
  have kind : s.kind? e = some slot.kind := kind?_eq_some_iff.mpr ⟨slot, found, rfl⟩
  rw [kind, g.kind kind]

theorem Grows.variable_shape (g : s.Grows mine s') (other : ¬ mine e) (t upper : TypeId)
    (shape : s.shape? t = some (.typeVariable e upper)) :
    s'.shape? t = some (.typeVariable e upper) := by
  rcases g.shapes t _ shape with kept | ⟨_, _, _, may, same, _⟩
  · exact kept
  · cases same
    exact absurd may other

theorem IsVariable.grow {t : TypeId} (h : s.IsVariable e t) (g : s.Grows mine s') : s'.IsVariable e t := by
  obtain ⟨upper, shape⟩ := h
  rcases g.shapes t _ shape with kept | ⟨_, _, upper', _, same, changed⟩
  · exact ⟨upper, kept⟩
  · cases same
    exact ⟨upper', changed⟩

theorem IsVariable.known {t : TypeId} (h : s.IsVariable e t) : s.HasType t := by
  obtain ⟨upper, shape⟩ := h
  exact has_type_iff.mpr ⟨_, shape⟩

theorem IsPrototype.grow {ps : List ElementId} {t : TypeId} (h : s.IsPrototype e ps t) (g : s.Grows mine s') :
    s'.IsPrototype e ps t := by
  obtain ⟨vars, shape, all⟩ := h
  refine ⟨vars, ?_, all.imp fun _ _ var => var.grow g⟩
  rcases g.shapes t _ shape with kept | ⟨_, _, _, _, same, _⟩
  · exact kept
  · cases same

theorem RecordFits.restate (h : s.RecordFits e slot r) {children : List ElementId}
    {state : SlotState} : s.RecordFits e { slot with children, state } r :=
  ⟨h.id, h.kind, h.simpleName, h.qualifiedName, h.enclosing, h.arity, h.asType, h.superclass,
    h.noSuperclass, h.interfaces, h.typeParameters, h.parameters, h.components, h.enclosed, h.bound, h.prototype⟩

theorem RecordFits.grow (h : s.RecordFits e slot r) (g : s.Grows mine s')
    (bound : ∀ t upper, s.shape? t = some (.typeVariable e upper) →
      s'.shape? t = some (.typeVariable e upper))
    (owned : s'.owned e = s.owned e) : s'.RecordFits e slot r :=
  { h with
    asType := g.has_type h.asType
    superclass := g.has_type h.superclass
    interfaces := fun t mem => g.has_type (h.interfaces t mem)
    typeParameters := by rw [g.ownedOf owned, h.typeParameters]
    parameters := by rw [g.ownedOf owned, h.parameters]
    components := by rw [g.ownedOf owned, h.components]
    enclosed := by
      obtain ⟨rest, enclosed, kinds⟩ := h.enclosed
      refine ⟨rest, by rw [g.ownedOf owned, enclosed], fun c mem => ?_⟩
      obtain ⟨k, kind, free⟩ := kinds c mem
      exact ⟨k, g.kind kind, free⟩
    prototype := fun isType => (h.prototype isType).grow g
    bound := by
      intro kind
      obtain ⟨generic, some_, upper, shape, bounds⟩ := h.bound kind
      refine ⟨generic, some_, upper, bound _ _ shape, bounds.imp (fun same => same) fun shape => ?_⟩
      rcases g.shapes _ _ shape with kept | ⟨_, _, _, _, same, _⟩
      · exact kept
      · cases same }

theorem SlotFits.restate (h : s.SlotFits e slot) (g : s.Grows mine s') {state : SlotState}
    (fits : s'.StateFits e { slot with state }) : s'.SlotFits e { slot with state } where
  placed free := by
    obtain ⟨o, k, enclosing, before, kind, admits⟩ := h.placed free
    exact ⟨o, k, enclosing, before, g.kind kind, admits⟩
  children c mem := by
    obtain ⟨k, kind, free⟩ := h.children c mem
    exact ⟨k, g.kind kind, free⟩
  state := fits

theorem SlotFits.grow (h : s.SlotFits e slot) (g : s.Grows mine s')
    (other : ¬ mine e ∨ slot.state = .completing)
    (owned : slot.state ≠ .completing → s'.owned e = s.owned e) : s'.SlotFits e slot := by
  refine (h.restate g ?_ : s'.SlotFits e { slot with state := slot.state })
  change s'.StateFits e slot
  have fits := h.state
  unfold StateFits at fits ⊢
  split <;> rename_i state <;> simp only [state] at fits
  · exact fits
  · rw [owned (by simp [state])]
    exact fits
  · exact fits
  · refine fits.grow g (g.variable_shape (other.resolve_right ?_)) (owned ?_) <;> simp [state]

theorem ShapeFits.grow {t : TypeId} {shape : TypeShape} (h : s.ShapeFits t shape)
    (g : s.Grows mine s')
    (records : ∀ e upper r, shape = .typeVariable e upper → s'.record? e = some r →
      s.record? e = some r ∨ r.asType = t) : s'.ShapeFits t shape :=
  { h with
    declared := by
      intro enclosing e args same
      obtain ⟨⟨k, kind, isType⟩, outer⟩ := h.declared enclosing e args same
      exact ⟨⟨k, g.kind kind, isType⟩, outer.imp id g.isUsage⟩
    typeVariable := by
      intro e upper same
      obtain ⟨kind, known, unique⟩ := h.typeVariable e upper same
      refine ⟨g.kind kind, g.has_type known, fun r found => ?_⟩
      rcases records e upper r same found with before | this
      · exact unique r before
      · exact this }

theorem Indexes.grow {p : ElementKind → Bool} {index : NameIndex} (h : s.Indexes p index)
    (g : s.Grows mine s')
    (old : ∀ e slot, s'.slot? e = some slot → p slot.kind → s.HasElement e) : s'.Indexes p index := by
  intro name e
  rw [h name e]
  constructor
  · rintro ⟨slot, found, kind, qualified⟩
    obtain ⟨_, found', _, _, rfl, _⟩ := g.slots e slot found
    exact ⟨_, found', kind, qualified⟩
  · rintro ⟨slot', found', kind, qualified⟩
    obtain ⟨slot, found⟩ := has_element_iff.mp (old e slot' found' kind)
    obtain ⟨_, again, _, _, rfl, _⟩ := g.slots e slot found
    rw [found'] at again
    cases again
    exact ⟨slot, found, kind, qualified⟩

theorem find?_of_longer {index index' : NameIndex} {name : String} (begins : index <+: index')
    (found : index.find? name = some e) : index'.find? name = some e := by
  obtain ⟨rest, rfl⟩ := begins
  obtain ⟨entry, first, rfl⟩ := Option.map_eq_some_iff.mp found
  rw [NameIndex.find?, List.find?_append, first]
  rfl

theorem Consistent.enlarge (h : s.Consistent) (g : s.Grows mine s')
    (slots : ∀ e slot, s'.slot? e = some slot → s'.SlotFits e slot ∨
      s.slot? e = some slot ∧ (¬ mine e ∨ slot.state = .completing) ∧
        (slot.state ≠ .completing → s'.owned e = s.owned e))
    (shapes : ∀ t shape, s'.shape? t = some shape → s'.ShapeFits t shape ∨
      s.shape? t = some shape ∧ ∀ e upper r, shape = .typeVariable e upper →
        s'.record? e = some r → s.record? e = some r ∨ r.asType = t)
    (modules : s'.Indexes (· == .module) s'.modules) (packages : s'.Indexes (· == .package) s'.packages)
    (typeElements : s'.Indexes (·.isType) s'.typeElements)
    (object : ∀ t, s'.objectUsage = some t → s.objectUsage = some t ∨
      ∃ e, s'.objectElement? = some e ∧ s'.shape? t = some (.declared .none e [])) :
    s'.Consistent where
  initial i shape found := by
    rcases g.shapes _ _ (h.initial i shape found) with kept | ⟨e, u, u', _, rfl, _⟩
    · exact kept
    · have mem := List.mem_of_getElem? found
      simp [TypeShape.initial, Primitive.all] at mem
  shapes t shape found := by
    rcases shapes t shape found with fits | ⟨before, records⟩
    · exact fits
    · exact (h.shapes t shape before).grow g records
  slots e slot found := by
    rcases slots e slot found with fits | ⟨before, other, owned⟩
    · exact fits
    · exact (h.slots e slot before).grow g other owned
  modules := modules
  packages := packages
  typeElements := typeElements
  object t usage := by
    rcases object t usage with before | fits
    · obtain ⟨e, named, shape⟩ := h.object t before
      refine ⟨e, find?_of_longer g.typeElements named, ?_⟩
      rcases g.shapes _ _ shape with kept | ⟨_, _, _, _, same, _⟩
      · exact kept
      · cases same
    · exact fits

theorem Consistent.grow (h : s.Consistent) (g : s.Grows mine s')
    (slots : ∀ e slot, s'.slot? e = some slot → s'.SlotFits e slot ∨
      s.slot? e = some slot ∧ (¬ mine e ∨ slot.state = .completing) ∧
        (slot.state ≠ .completing → s'.owned e = s.owned e))
    (shapes : ∀ t shape, s'.shape? t = some shape → s'.ShapeFits t shape ∨
      s.shape? t = some shape ∧ ∀ e upper r, shape = .typeVariable e upper →
        s'.record? e = some r → s.record? e = some r ∨ r.asType = t)
    (fresh : ∀ e slot, s'.slot? e = some slot → slot.kind.isQualified → s.HasElement e)
    (modules : s'.modules = s.modules) (packages : s'.packages = s.packages)
    (typeElements : s'.typeElements = s.typeElements)
    (object : ∀ t, s'.objectUsage = some t → s.objectUsage = some t ∨
      ∃ e, s'.objectElement? = some e ∧ s'.shape? t = some (.declared .none e [])) :
    s'.Consistent := by
  refine h.enlarge g slots shapes ?_ ?_ ?_ object
  · rw [modules]
    exact h.modules.grow g fun e slot found kind =>
      fresh e slot found (by simp_all [ElementKind.isQualified])
  · rw [packages]
    exact h.packages.grow g fun e slot found kind =>
      fresh e slot found (by simp_all [ElementKind.isQualified])
  · rw [typeElements]
    exact h.typeElements.grow g fun e slot found kind =>
      fresh e slot found (by simp_all [ElementKind.isQualified])

end kept

section steps

variable {mine enlarged : ElementId → Prop} {s : Store} {e : ElementId} {slot : Slot}
  {shape : TypeShape}

theorem Consistent.becomes (h : s.Consistent) {mine : Prop} (found : s.slot? e = some slot) :
    slot.Becomes mine slot := by
  obtain ⟨slot', same, becomes⟩ := (Grows.refl h : s.Grows (fun _ => mine) s).slots e slot found
  rw [found] at same
  cases same
  exact becomes

theorem Grows.push_type (h : s.Consistent) : s.Grows mine (s.pushType shape) :=
  { Grows.refl h with
    shapes := fun t old found => by
      have bound : t.index < s.types.size := has_type_iff.mpr ⟨old, found⟩
      exact .inl (by rw [shape?_push, if_neg (by omega), found]) }

/-- A shape that can be added: its parts are in the store, and it is not one of those that have a
place of their own. -/
structure Composes (s : Store) (shape : TypeShape) : Prop where
  parts : ∀ p ∈ shape.parts, s.HasType p
  declared : ∀ enclosing e args, shape = .declared enclosing e args →
    s.IsType e ∧ (enclosing = .none ∨ s.IsUsage enclosing)
  composite : ∀ p n e upper,
    shape ≠ .primitive p ∧ shape ≠ .noType n ∧ shape ≠ .null ∧ shape ≠ .typeVariable e upper

theorem Composes.fits (c : s.Composes shape) : s.ShapeFits ⟨s.types.size⟩ shape where
  older := c.parts
  primitive p same := absurd same (c.composite p .none ⟨0⟩ .none).1
  noType n same := absurd same (c.composite .int n ⟨0⟩ .none).2.1
  null same := absurd same (c.composite .int .none ⟨0⟩ .none).2.2.1
  declared := c.declared
  typeVariable e upper same := absurd same (c.composite .int .none e upper).2.2.2

theorem Consistent.push_type (h : s.Consistent)
    (fits : (s.pushType shape).ShapeFits ⟨s.types.size⟩ shape) : (s.pushType shape).Consistent := by
  refine h.grow (Grows.push_type h : s.Grows Nothing _)
    (fun e slot found => .inr ⟨found, .inl id, fun _ => rfl⟩) (fun t old found => ?_)
    (fun e slot found _ => has_element_iff.mpr ⟨slot, found⟩) rfl rfl rfl fun t usage => .inl usage
  rw [shape?_push] at found
  split at found
  · rename_i place
    cases found
    have same : t = ⟨s.types.size⟩ := by cases t; simp_all
    exact .inl (same ▸ fits)
  · exact .inr ⟨found, fun _ _ _ _ record => .inl record⟩

theorem Extension.push_type (h : s.Consistent) (c : s.Composes shape) :
    s.Extension mine enlarged (s.pushType shape) := by
  have g {mine : ElementId → Prop} : s.Grows mine (s.pushType shape) := .push_type h
  refine ⟨h.push_type ?_, g, rfl, rfl, rfl, fun _ _ _ _ => rfl, fun t e upper absent found => ?_,
    fun _ _ => heeds_same rfl⟩
  · exact c.fits.grow (g : s.Grows Nothing _) fun _ _ _ _ record => .inl record
  · rw [shape?_push] at found
    split at found
    · exact absurd (Option.some.inj found) (c.composite .int .none e upper).2.2.2
    · simp [absent] at found

theorem newType_ensures (h : s.Consistent) (c : s.Composes shape) :
    Ensures (Extension mine enlarged) s (StoreM.newType shape) fun t s' => s'.shape? t = some shape := by
  have last : (s.pushType shape).shape? ⟨s.types.size⟩ = some shape := by
    rw [shape?_push, if_pos rfl]
  exact ⟨.push_type h c, last⟩

theorem Grows.push_slot (h : s.Consistent)
    (owner : slot.kind.isOwned → ∀ o, slot.enclosing = some o → s.Open o)
    (opens : slot.state = .completing → mine ⟨s.elements.size⟩) :
    s.Grows mine (s.pushSlot slot) :=
  { Grows.refl h with
    slots := fun e old found => by
      have bound : e.index < s.elements.size := has_element_iff.mpr ⟨old, found⟩
      exact ⟨old, by rw [slot?_push, if_neg (by omega), found], h.becomes found⟩
    opens := fun e isOpen => by
      obtain ⟨slot', found, state⟩ := isOpen
      rw [slot?_push] at found
      split at found
      · rename_i place
        cases found
        have same : e = ⟨s.elements.size⟩ := by cases e; simp_all
        exact .inr (same ▸ opens state)
      · exact .inl ⟨slot', found, state⟩
    owned := fun o old r found _ complete => by
      refine owned_push_other fun owned enclosing => ?_
      obtain ⟨_, again, completing⟩ := owner owned o enclosing
      rw [found] at again
      cases again
      simp [complete] at completing }

theorem Consistent.push_slot (h : s.Consistent)
    (fits : (s.pushSlot slot).SlotFits ⟨s.elements.size⟩ slot) (plain : ¬ slot.kind.isQualified)
    (owner : slot.kind.isOwned → ∀ o, slot.enclosing = some o → s.Open o) :
    (s.pushSlot slot).Consistent := by
  have g : s.Grows (· = ⟨s.elements.size⟩) (s.pushSlot slot) := .push_slot h owner fun _ => rfl
  refine h.grow g (fun e new found => ?_) (fun t old found => .inr ⟨found, fun e upper r same record => ?_⟩)
    (fun e new found qualified => ?_) rfl rfl rfl fun t usage => .inl usage
  · rw [slot?_push] at found
    split at found
    · rename_i place
      cases found
      have same : e = ⟨s.elements.size⟩ := by cases e; simp_all
      exact .inl (same ▸ fits)
    · rename_i other
      refine .inr ⟨found, .inl fun same => other (by rw [same]), fun settled => ?_⟩
      refine owned_push_other fun owned enclosing => ?_
      obtain ⟨_, again, completing⟩ := owner owned e enclosing
      rw [found] at again
      cases again
      exact settled completing
  · obtain ⟨kind, _⟩ := (h.shapes t old found).typeVariable e upper same
    obtain ⟨slot', found', _⟩ := kind?_eq_some_iff.mp kind
    have bound : e.index < s.elements.size := has_element_iff.mpr ⟨slot', found'⟩
    obtain ⟨slot'', found'', state⟩ := record?_eq_some_iff.mp record
    rw [slot?_push, if_neg (by omega)] at found''
    exact .inl (record?_eq_some_iff.mpr ⟨slot'', found'', state⟩)
  · rw [slot?_push] at found
    split at found
    · cases found
      exact absurd qualified plain
    · exact has_element_iff.mpr ⟨new, found⟩

theorem Extension.push_slot (h : s.Consistent)
    (fits : (s.pushSlot slot).SlotFits ⟨s.elements.size⟩ slot) (plain : ¬ slot.kind.isQualified)
    (owner : slot.kind.isOwned → ∀ o, slot.enclosing = some o → s.Open o ∧ enlarged o)
    (opens : slot.state = .completing → mine ⟨s.elements.size⟩) :
    s.Extension mine enlarged (s.pushSlot slot) := by
  have isOpen : slot.kind.isOwned → ∀ o, slot.enclosing = some o → s.Open o :=
    fun owned o enclosing => (owner owned o enclosing).1
  refine ⟨h.push_slot fits plain isOpen, .push_slot h isOpen opens, rfl, rfl, rfl, fun o _ _ small => ?_,
    fun t e upper absent (found : s.shape? t = _) => by simp [absent] at found, fun e _ => ?_⟩
  · exact owned_push_other fun owned enclosing => small (owner owned o enclosing).2
  · by_cases last : e = ⟨s.elements.size⟩
    · exact last ▸ heeds_absent slot?_at_size
    · exact heeds_same (by rw [slot?_push, if_neg fun same => last (congrArg ElementId.mk same)])

theorem Grows.update_slot {f : Slot → Slot} (h : s.Consistent) (found : s.slot? e = some slot)
    (same : ∀ slot, (f slot).kind = slot.kind ∧ (f slot).enclosing = slot.enclosing)
    (becomes : slot.Becomes (mine e) (f slot))
    (opens : (f slot).state = .completing → slot.state = .completing ∨ mine e) :
    s.Grows mine (s.updateSlot e f) :=
  { Grows.refl h with
    slots := fun e' old found' => by
      rw [slot?_update]
      split
      · rename_i here
        rw [here, found] at found'
        cases found'
        exact ⟨f slot, by rw [here, found, Option.map_some], here ▸ becomes⟩
      · exact ⟨old, found', h.becomes found'⟩
    opens := fun e' isOpen => by
      obtain ⟨slot', found', state⟩ := isOpen
      rw [slot?_update] at found'
      split at found'
      · rename_i here
        rw [here, found, Option.map_some] at found'
        cases found'
        rcases opens state with before | may
        · exact .inl ⟨slot, here ▸ found, before⟩
        · exact .inr (here ▸ may)
      · exact .inl ⟨slot', found', state⟩
    owned := fun o _ _ _ _ _ => owned_update e same }

theorem Consistent.update_slot {f : Slot → Slot} (h : s.Consistent) (found : s.slot? e = some slot)
    (same : ∀ slot, (f slot).kind = slot.kind ∧ (f slot).enclosing = slot.enclosing)
    (becomes : slot.Becomes True (f slot)) (fits : (s.updateSlot e f).SlotFits e (f slot))
    (unique : ∀ r, (f slot).state = .complete r → slot.state = .complete r ∨
      ∀ t upper, s.shape? t = some (.typeVariable e upper) → r.asType = t) :
    (s.updateSlot e f).Consistent := by
  have g : s.Grows (· = e) (s.updateSlot e f) :=
    .update_slot h found same (becomes.weaken fun _ => rfl) fun _ => .inr rfl
  refine h.grow g (fun e' new found' => ?_)
    (fun t old shape => .inr ⟨shape, fun e' upper r same' record => ?_⟩)
    (fun e' new found' _ => ?_) rfl rfl rfl fun t usage => .inl usage
  · rw [slot?_update] at found'
    split at found'
    · rename_i here
      rw [here, found, Option.map_some] at found'
      cases found'
      exact .inl (here ▸ fits)
    · rename_i other
      exact .inr ⟨found', .inl other, fun _ => owned_update e same⟩
  · obtain ⟨slot', found', state⟩ := record?_eq_some_iff.mp record
    rw [slot?_update] at found'
    split at found'
    · rename_i here
      rw [here, found, Option.map_some] at found'
      cases found'
      rcases unique r state with before | only
      · exact .inl (record?_eq_some_iff.mpr ⟨slot, here ▸ found, before⟩)
      · exact .inr (only t upper (here ▸ same' ▸ shape))
    · exact .inl (record?_eq_some_iff.mpr ⟨slot', found', state⟩)
  · rw [slot?_update] at found'
    split at found'
    · rename_i here
      exact has_element_iff.mpr ⟨slot, here ▸ found⟩
    · exact has_element_iff.mpr ⟨new, found'⟩

theorem Extension.update_slot {f : Slot → Slot} (h : s.Consistent) (found : s.slot? e = some slot)
    (same : ∀ slot, (f slot).kind = slot.kind ∧ (f slot).enclosing = slot.enclosing)
    (becomes : slot.Becomes (mine e) (f slot))
    (opens : (f slot).state = .completing → slot.state = .completing ∨ mine e)
    (fits : (s.updateSlot e f).SlotFits e (f slot))
    (unique : ∀ r, (f slot).state = .complete r → slot.state = .complete r ∨
      ∀ t upper, s.shape? t = some (.typeVariable e upper) → r.asType = t)
    (begins : ∀ header, slot.state = .pending (.type header) → mine e) :
    s.Extension mine enlarged (s.updateSlot e f) := by
  refine ⟨h.update_slot found same (becomes.weaken fun _ => trivial) fits unique,
    .update_slot h found same becomes opens, rfl, rfl, rfl, fun _ _ _ _ => owned_update e same,
    fun t e upper absent (found : s.shape? t = _) => by simp [absent] at found, fun o other => ?_⟩
  by_cases here : o = e
  · rintro slot' header _ found' _ isPending _
    cases (here ▸ found').symm.trans found
    exact absurd (here ▸ begins header isPending) other
  · exact heeds_same (slot?_update.trans (if_neg here))

theorem publish_ensures {r : ElementRecord} (h : s.Consistent) (found : s.slot? e = some slot)
    (isOpen : slot.state = .completing) (may : mine e) (fits : s.RecordFits e slot r)
    (unique : ∀ t upper, s.shape? t = some (.typeVariable e upper) → r.asType = t) :
    Ensures (Extension mine enlarged) s (StoreM.publish r) fun _ s' => s'.record? e = some r := by
  have here : r.id = e := fits.id
  have plain : ¬ slot.kind.isContainer := by
    have state := (h.slots e slot found).state
    simpa [StateFits, isOpen] using state
  let f : Slot → Slot := ({ · with state := .complete r })
  have becomes {p : Prop} (holds : p) : slot.Becomes p (f slot) := by
    refine ⟨slot.children, .complete r, rfl, List.prefix_refl _, ?_⟩
    simp [SlotState.Evolves, isOpen, plain, holds]
  have g : s.Grows (· = e) (s.updateSlot e f) :=
    .update_slot h found (fun _ => ⟨rfl, rfl⟩) (becomes rfl) fun _ => .inr rfl
  have same : RecordFits (s.updateSlot e f) e slot r :=
    fits.grow g (fun _ _ shape => shape) (owned_update e fun _ => ⟨rfl, rfl⟩)
  have record : (s.updateSlot e f).record? e = some r :=
    record?_eq_some_iff.mpr ⟨f slot, by rw [slot?_update, if_pos rfl, found, Option.map_some], rfl⟩
  have run : (StoreM.publish r s).2 = s.updateSlot e f := by rw [← here]; rfl
  rw [Ensures, run]
  refine ⟨.update_slot h found (fun _ => ⟨rfl, rfl⟩) (becomes may) (fun _ => .inr may) ?_ ?_ fun _ _ => may,
    record⟩
  · exact (h.slots e slot found).restate g same.restate
  · rintro _ ⟨⟩
    exact .inr unique

theorem Extension.begin (h : s.Consistent) (found : s.slot? e = some slot) {header : TypeHeader}
    (isPending : slot.state = .pending (.type header)) (may : mine e) :
    s.Extension mine enlarged (s.setState e .completing) := by
  have isType : slot.kind.isType := by
    have state := (h.slots e slot found).state
    simp only [StateFits, isPending] at state
    exact state.1
  have plain : ¬ slot.kind.isContainer := ElementKind.isType_not_container isType
  let f : Slot → Slot := ({ · with state := .completing })
  have becomes {p : Prop} (holds : p) : slot.Becomes p (f slot) := by
    refine ⟨slot.children, .completing, rfl, List.prefix_refl _, ?_⟩
    simp [SlotState.Evolves, isPending, plain, holds]
  have g : s.Grows (· = e) (s.updateSlot e f) :=
    .update_slot h found (fun _ => ⟨rfl, rfl⟩) (becomes rfl) fun _ => .inr rfl
  exact .update_slot h found (fun _ => ⟨rfl, rfl⟩) (becomes may) (fun _ => .inr may)
    ((h.slots e slot found).restate g plain) (fun _ complete => by cases complete) fun _ _ => may

theorem setShape_ensures {t upper upper' : TypeId} (h : s.Consistent)
    (isOpen : s.Open e) (may : mine e) (shape : s.shape? t = some (.typeVariable e upper))
    (known : s.HasType upper') :
    Ensures (Extension mine enlarged) s (StoreM.setShape t (.typeVariable e upper')) fun _ s' =>
      s'.shape? t = some (.typeVariable e upper') ∧ (∀ u, u ≠ t → s'.shape? u = s.shape? u) ∧
        s'.elements = s.elements := by
  have old : s.HasType t := has_type_iff.mpr ⟨_, shape⟩
  let s' := s.updateShape t (.typeVariable e upper')
  have now : s'.shape? t = some (.typeVariable e upper') := by rw [shape?_update old, if_pos rfl]
  have g {mine : ElementId → Prop} (may : mine e) : s.Grows mine s' :=
    { Grows.refl h with
      shapes := fun u shape' found => by
        by_cases here : u = t
        · rw [here, shape] at found
          cases found
          exact .inr ⟨e, upper, upper', may, rfl, here ▸ now⟩
        · exact .inl (by rw [shape?_update old, if_neg here, found]) }
  have fresh : ∀ u e' upper'', s.shape? u = none → s'.shape? u = some (.typeVariable e' upper'') →
      s.slot? e' = none := by
    intro u e' upper'' absent found
    rw [shape?_update old] at found
    split at found
    · rename_i here
      simp [here, shape] at absent
    · simp [absent] at found
  have others (u : TypeId) (other : u ≠ t) : s'.shape? u = s.shape? u := by
    rw [shape?_update old, if_neg other]
  suffices fits : s'.Consistent from
    ⟨⟨fits, g may, rfl, rfl, rfl, fun _ _ _ _ => rfl, fresh, fun _ _ => heeds_same rfl⟩, now, others, rfl⟩
  refine h.grow (g rfl : s.Grows (· = e) s') (fun e' slot found => .inr ⟨found, ?_, fun _ => rfl⟩)
    (fun u shape' found => ?_) (fun e slot found _ => has_element_iff.mpr ⟨slot, found⟩) rfl rfl rfl
    fun t usage => .inl usage
  · by_cases here : e' = e
    · obtain ⟨_, again, completing⟩ := isOpen
      have same : s.slot? e' = some slot := found
      rw [here, again] at same
      cases same
      exact .inr completing
    · exact .inl here
  · by_cases here : u = t
    · rw [here, now] at found
      cases found
      have fits := h.shapes t _ shape
      obtain ⟨kind, _, unique⟩ := fits.typeVariable e upper rfl
      refine .inl (here ▸ ⟨by simp [TypeShape.parts], nofun, nofun, nofun, nofun, ?_⟩)
      rintro _ _ ⟨⟩
      refine ⟨kind, ?_, unique⟩
      exact (g rfl : s.Grows (· = e) s').has_type known
    · have found' := found
      rw [shape?_update old, if_neg here] at found'
      exact .inr ⟨found', fun _ _ _ _ record => .inl record⟩

theorem Consistent.owned_absent (h : s.Consistent) (absent : s.slot? e = none) : s.owned e = [] := by
  refine List.eq_nil_iff_forall_not_mem.mpr fun c mem => ?_
  obtain ⟨slot, found, owned, enclosing⟩ := mem_owned.mp mem
  obtain ⟨o, k, enclosing', _, kind, _⟩ :=
    (h.slots c slot found).placed (ElementKind.isOwned_not_container owned)
  rw [enclosing] at enclosing'
  cases enclosing'
  simp [kind?, absent] at kind

theorem Consistent.ownedOf_container (h : s.Consistent) (found : s.slot? e = some slot)
    (isContainer : slot.kind.isContainer) (p : ElementKind → Bool) : s.ownedOf e p = [] := by
  refine List.eq_nil_iff_forall_not_mem.mpr fun c mem => ?_
  obtain ⟨member, foundMember, owned, enclosing, _⟩ := mem_ownedOf.mp mem
  obtain ⟨o, k, enclosing', _, kind, admits⟩ :=
    (h.slots c member foundMember).placed (ElementKind.isOwned_not_container owned)
  rw [enclosing] at enclosing'
  cases enclosing'
  obtain ⟨slot', again, rfl⟩ := kind?_eq_some_iff.mp kind
  rw [found] at again
  cases again
  exact ElementKind.not_admits_owned isContainer owned admits

theorem Consistent.variable_absent (h : s.Consistent) (absent : s.slot? e = none) (t upper : TypeId) :
    s.shape? t ≠ some (.typeVariable e upper) := by
  intro shape
  obtain ⟨kind, _⟩ := (h.shapes t _ shape).typeVariable e upper rfl
  simp [kind?, absent] at kind

theorem Consistent.has_initial (h : s.Consistent) {i : Nat} (bound : i < 13) : s.HasType ⟨i⟩ :=
  has_type_iff.mpr ⟨_, h.initial i _ (List.getElem?_eq_getElem bound)⟩

theorem Consistent.head?_initial (h : s.Consistent) {i : Nat} (bound : i < 13) : s.head? ⟨i⟩ = none := by
  have plain : ∀ shape ∈ TypeShape.initial, shape.head? = none := by decide
  have there : i < TypeShape.initial.length := bound
  rw [head?, h.initial i _ (List.getElem?_eq_getElem there), Option.bind_some]
  exact plain _ (List.getElem_mem there)

theorem Consistent.has_none (h : s.Consistent) : s.HasType .none := h.has_initial (by decide)

theorem Consistent.has_primitive (h : s.Consistent) (p : Primitive) : s.HasType (.primitive p) :=
  h.has_initial (by cases p <;> decide)

def IsObject (s : Store) (t : TypeId) : Prop :=
  match s.objectElement? with
  | some e => s.shape? t = some (.declared .none e [])
  | none => t = .none

theorem Consistent.has_object (h : s.Consistent) {t : TypeId} (object : s.IsObject t) :
    s.HasType t := by
  unfold IsObject at object
  split at object
  · exact has_type_iff.mpr ⟨_, object⟩
  · exact object ▸ h.has_none

theorem Consistent.object_head (h : s.Consistent) {t : TypeId} (object : s.IsObject t) : s.head? t = s.objectElement? := by
  unfold IsObject at object
  split at object
  · rename_i named
    rw [head?, object, named]
    rfl
  · rename_i absent
    rw [object, absent]
    exact h.head?_initial (by decide)

theorem Consistent.objectElement_isType (h : s.Consistent) (named : s.objectElement? = some e) :
    ∃ k, s.kind? e = some k ∧ k.isType := by
  obtain ⟨slot, found, kind, _⟩ := (h.typeElements objectName e).mp named
  exact ⟨slot.kind, kind?_eq_some_iff.mpr ⟨slot, found, rfl⟩, kind⟩

theorem Extension.retouch {s' : Store} (h : s.Consistent) (elements : s'.elements = s.elements)
    (types : s'.types = s.types) (modules : s'.modules = s.modules)
    (packages : s'.packages = s.packages) (typeElements : s'.typeElements = s.typeElements)
    (names : s.names.names.toList <+: s'.names.names.toList)
    (object : ∀ t, s.objectUsage = some t → s'.objectUsage = some t)
    (object' : ∀ t, s'.objectUsage = some t → s.objectUsage = some t ∨
      ∃ e, s.objectElement? = some e ∧ s.shape? t = some (.declared .none e [])) :
    s.Extension mine enlarged s' := by
  have slot (e : ElementId) : s'.slot? e = s.slot? e := by rw [slot?, elements, slot?]
  have shape (t : TypeId) : s'.shape? t = s.shape? t := by rw [shape?, types, shape?]
  have owned (o : ElementId) : s'.owned o = s.owned o := owned_congr elements
  have record (e : ElementId) : s'.record? e = s.record? e := by rw [record?, slot, record?]
  have g {mine : ElementId → Prop} : s.Grows mine s' :=
    { slots := fun e slot' found => ⟨slot', by rw [slot, found], h.becomes found⟩
      opens := fun e isOpen => .inl (isOpen.imp fun slot' is => ⟨slot e ▸ is.1, is.2⟩)
      owned := fun o _ _ _ _ _ => owned o
      shapes := fun t shape' found => .inl (by rw [shape, found])
      names
      modules := modules ▸ List.prefix_refl _
      packages := packages ▸ List.prefix_refl _
      typeElements := typeElements ▸ List.prefix_refl _
      object }
  refine ⟨?_, g, modules, packages, typeElements, fun o _ _ _ => owned o,
    fun t e upper absent found => by simp [shape, absent] at found, fun e _ => heeds_same (slot e)⟩
  refine h.grow (g : s.Grows Nothing s')
    (fun e slot' found => .inr ⟨slot e ▸ found, .inl id, fun _ => owned e⟩)
    (fun t shape' found => .inr ⟨shape t ▸ found, fun e _ r _ found' => .inl (record e ▸ found')⟩)
    (fun e slot' found _ => has_element_iff.mpr ⟨slot', slot e ▸ found⟩) modules packages
    typeElements fun t usage => (object' t usage).imp id (Exists.imp fun e is => ⟨?_, ?_⟩)
  · rw [objectElement?, typeElement?, typeElements]
    exact is.1
  · rw [shape, is.2]

theorem objectType_ensures (h : s.Consistent) :
    Ensures (Extension mine enlarged) s StoreM.objectType fun t s' => s'.IsObject t := by
  refine Ensures.get ?_
  cases usage : s.objectUsage with
  | some t =>
    obtain ⟨e, named, shape⟩ := h.object t usage
    refine .pure (.refl h) ?_
    rw [IsObject, named]
    exact shape
  | none =>
    cases named : s.objectElement? with
    | none =>
      refine .pure (.refl h) ?_
      rw [IsObject, named]
    | some e =>
      have c : s.Composes (.declared .none e []) :=
        ⟨by simpa [TypeShape.parts] using h.has_none,
          by rintro _ _ _ ⟨⟩; exact ⟨h.objectElement_isType named, .inl rfl⟩, by simp⟩
      let s₁ := s.pushType (.declared .none e [])
      let s₂ : Store := { s₁ with objectUsage := some ⟨s.types.size⟩ }
      have first : s.Extension mine enlarged s₁ := .push_type h c
      have shape : s₁.shape? ⟨s.types.size⟩ = some (.declared .none e []) := by
        rw [shape?_push, if_pos rfl]
      have named' : s₁.objectElement? = some e := named
      have second : s₁.Extension mine enlarged s₂ := by
        refine .retouch first.consistent rfl rfl rfl rfl rfl (List.prefix_refl _)
          (fun u (before : s.objectUsage = some u) => by simp [usage] at before) fun u now => ?_
        cases now
        exact .inr ⟨e, named', shape⟩
      have object : s₂.IsObject ⟨s.types.size⟩ := by
        rw [IsObject, show s₂.objectElement? = some e from named']
        exact shape
      exact ⟨Movement.trans first second, object⟩

theorem internName_ensures (h : s.Consistent) (name : String) :
    Ensures (Extension mine enlarged) s (StoreM.internName name) fun k s' =>
      (k, s'.names) = s.names.intern name := by
  refine ⟨.retouch h rfl rfl rfl rfl rfl ?_ (fun _ usage => usage) (fun _ usage => .inl usage), rfl⟩
  change s.names.names.toList <+: (s.names.intern name).2.names.toList
  unfold NameTable.intern
  split
  · exact List.prefix_refl _
  · rw [Array.toList_push]
    exact List.prefix_append _ _

theorem SlotFits.of_new {o : ElementId} {k : ElementKind} (enclosing : slot.enclosing = some o)
    (kind : s.kind? o = some k) (admits : k.admits slot.kind) (children : slot.children = [])
    (state : (s.pushSlot slot).StateFits ⟨s.elements.size⟩ slot) :
    (s.pushSlot slot).SlotFits ⟨s.elements.size⟩ slot := by
  obtain ⟨outer, found, _⟩ := kind?_eq_some_iff.mp kind
  have older : o.index < s.elements.size := has_element_iff.mpr ⟨outer, found⟩
  refine ⟨fun _ => ⟨o, k, enclosing, older, ?_, admits⟩, by simp [children], state⟩
  rw [kind?, slot?_push, if_neg (by omega)]
  exact kind

theorem Consistent.owned_new {o : ElementId} {k : ElementKind} (h : s.Consistent)
    (enclosing : slot.enclosing = some o) (kind : s.kind? o = some k) :
    (s.pushSlot slot).owned ⟨s.elements.size⟩ = [] := by
  rw [owned_push_other, h.owned_absent slot?_at_size]
  intro _ itself
  obtain ⟨outer, found, _⟩ := kind?_eq_some_iff.mp kind
  rw [enclosing] at itself
  cases itself
  simp [slot?_at_size] at found

theorem newSlot_ensures {o : ElementId} {k : ElementKind} (h : s.Consistent)
    (isOpen : s.Open o) (grown : enlarged o) (kind : s.kind? o = some k)
    (enclosing : slot.enclosing = some o) (admits : k.admits slot.kind) (owned : slot.kind.isOwned)
    (children : slot.children = []) (state : slot.state = .completing)
    (may : mine ⟨s.elements.size⟩) :
    Ensures (Extension mine enlarged) s (StoreM.newSlot slot) fun e s' =>
      e = ⟨s.elements.size⟩ ∧ s'.slot? e = some slot ∧ s'.owned o = s.owned o ++ [e] ∧
        s'.owned e = [] := by
  have now : (s.pushSlot slot).slot? ⟨s.elements.size⟩ = some slot := by
    rw [slot?_push, if_pos rfl]
  have more : (s.pushSlot slot).owned o = s.owned o ++ [⟨s.elements.size⟩] := by
    rw [owned_push, if_pos (by simp [owned, enclosing])]
  have none_ : (s.pushSlot slot).owned ⟨s.elements.size⟩ = [] := h.owned_new enclosing kind
  refine ⟨.push_slot h (.of_new enclosing kind admits children ?_)
    (ElementKind.isOwned_not_qualified owned) ?_ fun _ => may, rfl, now, more, none_⟩
  · simpa [StateFits, state] using ElementKind.isOwned_not_container owned
  · intro _ o' same
    rw [enclosing] at same
    cases same
    exact ⟨isOpen, grown⟩

theorem newComplete_ensures {record : ElementId → ElementRecord} {o : ElementId} {k : ElementKind}
    {r : ElementRecord} (h : s.Consistent) (same : record ⟨s.elements.size⟩ = r)
    (id : r.id = ⟨s.elements.size⟩) (detail : r.detail = .plain) (enclosed : r.enclosed = [])
    (qualified : ¬ r.kind.isQualified) (variable_ : r.kind ≠ .typeParameter)
    (enclosing : r.enclosing = some o) (kind : s.kind? o = some k) (admits : k.admits r.kind)
    (known : s.HasType r.asType) (owner : r.kind.isOwned → s.Open o ∧ enlarged o) :
    Ensures (Extension mine enlarged) s (StoreM.newComplete record) fun e s' =>
      e = ⟨s.elements.size⟩ ∧ s'.record? e = some r ∧ s'.kind? e = some r.kind ∧
        (r.kind.isOwned → s'.owned o = s.owned o ++ [e]) := by
  let slot : Slot :=
    { kind := r.kind, simpleName := r.simpleName, qualifiedName := r.qualifiedName
      enclosing := r.enclosing, arity := r.typeParameters.length, state := .complete r }
  have run : StoreM.newComplete record s = (⟨s.elements.size⟩, s.pushSlot slot) := by
    subst same
    rfl
  have now : (s.pushSlot slot).slot? ⟨s.elements.size⟩ = some slot := by
    rw [slot?_push, if_pos rfl]
  have own : (s.pushSlot slot).owned ⟨s.elements.size⟩ = [] := h.owned_new enclosing kind
  have empty (p : ElementKind → Bool) : (s.pushSlot slot).ownedOf ⟨s.elements.size⟩ p = [] := by
    simp [ownedOf, own]
  have fits : (s.pushSlot slot).RecordFits ⟨s.elements.size⟩ slot r :=
    { id, kind := rfl, simpleName := rfl, qualifiedName := rfl, enclosing := rfl, arity := rfl
      asType := known
      superclass := by
        rw [ElementRecord.superclass, detail]
        exact h.has_none
      noSuperclass := fun _ => by rw [ElementRecord.superclass, detail]
      interfaces := by simp [ElementRecord.interfaces, detail]
      typeParameters := by simp [ElementRecord.typeParameters, detail, empty]
      parameters := by simp [ElementRecord.parameters, detail, empty]
      components := by simp [ElementRecord.declaredComponents, detail, empty]
      enclosed := ⟨[], by simp [enclosed, empty], by simp⟩
      bound := fun parameter => absurd parameter variable_
      prototype := fun isType => absurd (by simp [ElementKind.isQualified, show r.kind.isType from isType]) qualified }
  rw [Ensures, run]
  refine ⟨.push_slot h (.of_new enclosing kind admits rfl fits) qualified ?_ (by simp [slot]), rfl,
    record?_eq_some_iff.mpr ⟨slot, now, rfl⟩, kind?_eq_some_iff.mpr ⟨slot, now, rfl⟩, fun owned => ?_⟩
  · intro owned o' same'
    rw [show slot.enclosing = some o from enclosing] at same'
    cases same'
    exact owner owned
  · rw [owned_push, if_pos (by simp [slot, owned, enclosing])]

end steps

end Store

namespace StoreM

section objectType

variable {s : Store} {e : ElementId} {t : TypeId}

theorem objectType_of_usage (usage : s.objectUsage = some t) : objectType s = (t, s) := by
  unfold objectType
  rw [stateM_get_bind, usage]
  rfl

theorem objectType_of_absent (usage : s.objectUsage = none) (absent : s.objectElement? = none) :
    objectType s = (.none, s) := by
  unfold objectType
  rw [stateM_get_bind, usage, absent]
  rfl

theorem objectType_of_first (usage : s.objectUsage = none) (named : s.objectElement? = some e) :
    objectType s =
      (⟨s.types.size⟩, { s.pushType (.declared .none e []) with objectUsage := some ⟨s.types.size⟩ }) := by
  unfold objectType
  rw [stateM_get_bind, usage, named]
  rfl

end objectType

end StoreM

end Nominal
