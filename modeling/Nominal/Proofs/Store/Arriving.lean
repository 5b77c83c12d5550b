import Nominal.Proofs.Store.Entering
/-!
What it does to a store to enter one module, package or type: there is one more element, which waits, is listed
by its qualified name and is a child of what encloses it.
-/

namespace Nominal

namespace Store

def moduleSlot (name : String) : Slot :=
  { kind := .module, simpleName := name, qualifiedName := name, state := .pending .container }

def packageSlot (module : Option ElementId) (name : String) : Slot :=
  { kind := .package, simpleName := lastSegment name, qualifiedName := name, enclosing := module
    state := .pending .container }

def typeSlot (enclosing : ElementId) (qualifiedName : String) (h : TypeHeader) : Slot :=
  { kind := h.kind, simpleName := h.name, qualifiedName, enclosing := some enclosing
    arity := h.typeParameters.length, state := .pending (.type h) }

def receive (s : Store) (slot : Slot) : Store :=
  match slot.enclosing with
  | none => s.entered slot
  | some o => (s.entered slot).addChild o ⟨s.elements.size⟩

variable {s : Store} {slot old : Slot} {e : ElementId}

theorem indexes_receive (s : Store) (slot : Slot) :
    (s.receive slot).modules = NameIndex.enter (· == .module) slot ⟨s.elements.size⟩ s.modules ∧
      (s.receive slot).packages = NameIndex.enter (· == .package) slot ⟨s.elements.size⟩ s.packages ∧
      (s.receive slot).typeElements = NameIndex.enter (·.isType) slot ⟨s.elements.size⟩ s.typeElements := by
  rw [receive]
  split <;> exact ⟨rfl, rfl, rfl⟩

theorem slot?_receive_new (outside : slot.enclosing ≠ some ⟨s.elements.size⟩) :
    (s.receive slot).slot? ⟨s.elements.size⟩ = some slot := by
  rw [receive]
  split <;> rename_i enclosing
  · exact slot?_new slot
  · change (updateSlot _ _ _).slot? _ = _
    rw [slot?_update, if_neg, slot?_new]
    rintro rfl
    exact outside enclosing

theorem slot?_receive_old (found : s.slot? e = some old) :
    (s.receive slot).slot? e =
      some (if slot.enclosing = some e then Slot.addChild ⟨s.elements.size⟩ old else old) := by
  have there : e.index ≠ s.elements.size := Nat.ne_of_lt (has_element_iff.mpr ⟨old, found⟩)
  have kept : (s.entered slot).slot? e = some old := by rw [slot?_entered, if_neg there, found]
  rw [receive]
  split <;> rename_i enclosing
  · rw [kept, if_neg (by simp [enclosing])]
  · change (updateSlot _ _ _).slot? _ = _
    rw [slot?_update, kept, enclosing]
    by_cases same : e = ‹ElementId›
    · rw [if_pos same, if_pos (congrArg some same.symm), Option.map_some]
    · rw [if_neg same, if_neg fun other => same (Option.some.inj other).symm]

theorem slot?_receive_cases (outside : slot.enclosing ≠ some ⟨s.elements.size⟩) {slot' : Slot}
    (found : (s.receive slot).slot? e = some slot') :
    e = ⟨s.elements.size⟩ ∧ slot' = slot ∨
      ∃ old, s.slot? e = some old ∧ slot' = if slot.enclosing = some e then Slot.addChild ⟨s.elements.size⟩ old else old := by
  by_cases new : e = ⟨s.elements.size⟩
  · rw [new, slot?_receive_new outside] at found
    exact .inl ⟨new, (Option.some.inj found).symm⟩
  · cases there : s.slot? e with
    | some old =>
      rw [slot?_receive_old there] at found
      exact .inr ⟨old, rfl, (Option.some.inj found).symm⟩
    | none =>
      have absent : (s.entered slot).slot? e = none := by
        rw [slot?_entered, if_neg (fun same => new (by rw [← same])), there]
      rw [receive] at found
      split at found
      · cases absent.symm.trans found
      · change (updateSlot _ _ _).slot? _ = _ at found
        rw [slot?_update, absent] at found
        split at found <;> cases found

end Store

namespace StoreM

open Store

variable {s : Store} {e : ElementId} {name : String} {module : Option ElementId}

theorem enterModule_of_some (found : s.module? name = some e) : enterModule name s = (e, s) := by
  unfold enterModule
  rw [stateM_get_bind, found]
  rfl

theorem enterModule_of_none (free : s.module? name = none) :
    enterModule name s = (⟨s.elements.size⟩, s.receive (moduleSlot name)) := by
  unfold enterModule
  rw [stateM_get_bind, free]
  rfl

theorem enterPackage_of_some (found : s.package? name = some e) : enterPackage module name s = (e, s) := by
  unfold enterPackage
  rw [stateM_get_bind, found]
  rfl

theorem enterPackage_of_none (free : s.package? name = none) :
    enterPackage module name s = (⟨s.elements.size⟩, s.receive (packageSlot module name)) := by
  unfold enterPackage
  rw [stateM_get_bind, free]
  cases module <;> rfl

theorem newTypeElement_eq (o : ElementId) (qualifiedName : String) {h : TypeHeader} (isType : h.kind.isType) (s : Store) :
    newTypeElement o qualifiedName h s = (⟨s.elements.size⟩, s.receive (typeSlot o qualifiedName h)) := by
  have modules : (h.kind == .module) = false := by
    revert isType
    cases h.kind <;> decide
  have packages : (h.kind == .package) = false := by
    revert isType
    cases h.kind <;> decide
  have listed : s.entered (typeSlot o qualifiedName h) =
      { s.pushSlot (typeSlot o qualifiedName h) with
        typeElements := s.typeElements ++ [(qualifiedName, ⟨s.elements.size⟩)] } := by
    simp only [entered, NameIndex.enter, typeSlot, modules, packages, isType, if_true, Bool.false_eq_true, if_false]
    rfl
  rw [receive]
  change _ = (_, (s.entered (typeSlot o qualifiedName h)).addChild o _)
  rw [listed]
  rfl

end StoreM

end Nominal
