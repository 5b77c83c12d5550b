import Nominal.Proofs.Compilation.Forest
import Nominal.Proofs.Store.Arriving
import Nominal.Proofs.Store.Nested
/-!
Where everything is. The indexes list what was entered under the names that its place gives it, and what an element
lists as inside it is what lies inside it. The single steps by which a store grows keep it so.
-/

namespace Nominal

def Pending.Suits : Pending → ElementKind → Prop
  | .container, k => k.isContainer
  | .type _, k => k.isType

namespace Store

def inside (s : Store) (o : ElementId) : List ElementId :=
  s.picked fun slot => slot.enclosing == some o && slot.kind != .typeParameter

/-- Every type is in the index, every type has the name that its place gives it, and modules, packages and types list
what lies inside them; before it is complete a type lists the types among that. -/
structure Arranged (s : Store) : Prop where
  modules : s.Indexes (· == .module) s.modules
  packages : s.Indexes (· == .package) s.packages
  typeElements : s.Indexes (·.isType) s.typeElements
  once : s.typeElements.names.Nodup
  housed : s.Housed
  suits : ∀ e slot work, s.slot? e = some slot → slot.state = .pending work → work.Suits slot.kind
  named : ∀ e slot, s.slot? e = some slot → slot.kind.isType → ∃ o outer, slot.enclosing = some o ∧
    s.slot? o = some outer ∧ slot.qualifiedName = qualify outer.qualifiedName slot.simpleName
  children : ∀ e slot, s.slot? e = some slot → slot.kind.isContainer ∨ slot.isPending →
    slot.children.Perm (s.inside e)
  enclosed : ∀ e slot r, s.slot? e = some slot → slot.kind.isContainer ∨ slot.kind.isType →
    slot.state = .complete r → r.enclosed.Perm (s.inside e)

def Hosts (s : Store) (o : ElementId) (k : ElementKind) : Prop :=
  ∃ slot, s.slot? o = some slot ∧ slot.kind = k ∧ ¬ k.isContainer ∧ ¬ slot.isPending ∧
    (k.isType → slot.state = .completing)

variable {s s' : Store} {e o : ElementId} {slot : Slot} {k : ElementKind}

section inside

theorem mem_inside : e ∈ s.inside o ↔ ∃ slot, s.slot? e = some slot ∧ slot.enclosing = some o ∧ slot.kind ≠ .typeParameter := by
  refine mem_picked.trans ?_
  simp only [Bool.and_eq_true, beq_iff_eq, bne_iff_ne]

theorem inside_nodup (s : Store) (o : ElementId) : (s.inside o).Nodup := s.picked_nodup _

theorem inside_congr (elements : s'.elements = s.elements) : s'.inside o = s.inside o := picked_congr elements

theorem inside_push (place : slot.enclosing = some o) (kind : slot.kind ≠ .typeParameter) :
    (s.pushSlot slot).inside o = s.inside o ++ [⟨s.elements.size⟩] := by
  refine (picked_push slot).trans ?_
  simp [inside, place, kind]

theorem inside_push_other (other : slot.enclosing = some o → slot.kind = .typeParameter) :
    (s.pushSlot slot).inside o = s.inside o := by
  apply picked_push_other
  simpa only [Bool.and_eq_true, beq_iff_eq, bne_iff_ne, not_and, not_not] using other

theorem inside_update {f : Slot → Slot} (e : ElementId) (keeps : ∀ slot, (f slot).heading = slot.heading) :
    (s.updateSlot e f).inside o = s.inside o := by
  apply picked_update e
  intro slot
  rw [Slot.kind_of_heading (keeps slot), Slot.enclosing_of_heading (keeps slot)]

theorem Housed.inside_absent (housed : s.Housed) (absent : s.slot? o = none) : s.inside o = [] := by
  apply List.eq_nil_iff_forall_not_mem.mpr
  intro e mem
  obtain ⟨slot, found, place, _⟩ := mem_inside.mp mem
  obtain ⟨outer, there⟩ := has_element_iff.mp (housed e slot o found place)
  cases absent.symm.trans there

end inside

section indexes

variable {p : ElementKind → Bool} {index : NameIndex}

theorem Indexes.push (h : s.Indexes p index) (other : ¬ p slot.kind) : (s.pushSlot slot).Indexes p index := by
  have entered := h.enter (fun fits => absurd fits other)
  rwa [NameIndex.enter, if_neg other] at entered

theorem Indexes.update {f : Slot → Slot} (h : s.Indexes p index) (keeps : ∀ slot, (f slot).heading = slot.heading) :
    (s.updateSlot o f).Indexes p index := by
  have kind (slot : Slot) : (f slot).kind = slot.kind := Slot.kind_of_heading (keeps slot)
  have name (slot : Slot) : (f slot).qualifiedName = slot.qualifiedName := Slot.qualifiedName_of_heading (keeps slot)
  intro name' e
  rw [h name' e, slot?_update]
  split
  · cases s.slot? e <;> simp [kind, name]
  · rfl

end indexes

namespace Arranged

theorem empty : empty.Arranged where
  modules _ _ := ⟨nofun, fun ⟨_, found, _⟩ => by simp [slot?, Store.empty] at found⟩
  packages _ _ := ⟨nofun, fun ⟨_, found, _⟩ => by simp [slot?, Store.empty] at found⟩
  typeElements _ _ := ⟨nofun, fun ⟨_, found, _⟩ => by simp [slot?, Store.empty] at found⟩
  once := List.nodup_nil
  housed e slot o found := by simp [slot?, Store.empty] at found
  suits e slot work found := by simp [slot?, Store.empty] at found
  named e slot found := by simp [slot?, Store.empty] at found
  children e slot found := by simp [slot?, Store.empty] at found
  enclosed e slot r found := by simp [slot?, Store.empty] at found

theorem aside (h : s.Arranged) (elements : s'.elements = s.elements) (indexes : s'.indexes = s.indexes) : s'.Arranged := by
  obtain ⟨modules, packages, types⟩ : s'.modules = s.modules ∧ s'.packages = s.packages ∧ s'.typeElements = s.typeElements := by
    simpa only [Store.indexes, Prod.mk.injEq] using indexes
  have slots (e : ElementId) : s'.slot? e = s.slot? e := by rw [slot?, elements, slot?]
  have places (o : ElementId) : s'.inside o = s.inside o := inside_congr elements
  have listed {p : ElementKind → Bool} {index : NameIndex} (h : s.Indexes p index) : s'.Indexes p index := by
    intro name e
    rw [h name e, slots]
  refine ⟨?_, ?_, ?_, ?_, ?_, ?_, ?_, ?_, ?_⟩
  · exact modules ▸ listed h.modules
  · exact packages ▸ listed h.packages
  · exact types ▸ listed h.typeElements
  · exact types ▸ h.once
  · intro e slot o found place
    rw [HasElement, elements]
    exact h.housed e slot o (slots e ▸ found) place
  · simpa only [slots] using h.suits
  · simpa only [slots] using h.named
  · simpa only [slots, places] using h.children
  · simpa only [slots, places] using h.enclosed

theorem push (h : s.Arranged) (hosts : s.Hosts o k) (place : slot.enclosing = some o) (settled : ¬ slot.isPending)
    (plain : ¬ slot.kind.isContainer) (other : ¬ slot.kind.isType) : (s.pushSlot slot).Arranged := by
  obtain ⟨host, there, rfl, noContainer, notWaiting, opened⟩ := hosts
  have old {e : ElementId} {slot' : Slot} (found : s.slot? e = some slot') : (s.pushSlot slot).slot? e = some slot' := by
    rw [slot?_push, if_neg (Nat.ne_of_lt (has_element_iff.mpr ⟨slot', found⟩)), found]
  have cases_ {e : ElementId} {slot' : Slot} (found : (s.pushSlot slot).slot? e = some slot') :
      slot' = slot ∨ s.slot? e = some slot' := by
    rw [slot?_push] at found
    split at found
    · exact .inl (Option.some.inj found).symm
    · exact .inr found
  have elsewhere {e : ElementId} (apart : e ≠ o) : (s.pushSlot slot).inside e = s.inside e := by
    refine inside_push_other fun same => absurd ?_ apart
    exact (Option.some.inj (place.symm.trans same)).symm
  have isModule : ¬ (slot.kind == .module) := fun same => plain (by rw [eq_of_beq same]; rfl)
  have isPackage : ¬ (slot.kind == .package) := fun same => plain (by rw [eq_of_beq same]; rfl)
  refine ⟨h.modules.push isModule, h.packages.push isPackage, h.typeElements.push other, h.once, ?_, ?_, ?_, ?_, ?_⟩
  · intro e slot' o' found place'
    apply has_element_iff.mpr
    rcases cases_ found with rfl | found
    · cases place.symm.trans place'
      exact ⟨host, old there⟩
    · obtain ⟨outer, there'⟩ := has_element_iff.mp (h.housed e slot' o' found place')
      exact ⟨outer, old there'⟩
  · intro e slot' work found state
    rcases cases_ found with rfl | found
    · exact absurd (by rw [Slot.isPending, state]) settled
    · exact h.suits e slot' work found state
  · intro e slot' found isType
    rcases cases_ found with rfl | found
    · exact absurd isType other
    · obtain ⟨o', outer, place', there', name⟩ := h.named e slot' found isType
      exact ⟨o', outer, place', old there', name⟩
  · intro e slot' found kind
    rcases cases_ found with rfl | found
    · exact (kind.elim plain settled).elim
    · rw [elsewhere]
      · exact h.children e slot' found kind
      · rintro rfl
        cases there.symm.trans found
        exact kind.elim noContainer notWaiting
  · intro e slot' r found kind state
    rcases cases_ found with rfl | found
    · exact (kind.elim plain other).elim
    · rw [elsewhere]
      · exact h.enclosed e slot' r found kind state
      · rintro rfl
        cases there.symm.trans found
        cases (opened (kind.resolve_left noContainer)).symm.trans state

theorem update (h : s.Arranged) (found : s.slot? e = some slot) {f : Slot → Slot}
    (keeps : ∀ slot, (f slot).heading = slot.heading)
    (suits : ∀ work, (f slot).state = .pending work → work.Suits slot.kind)
    (children : slot.kind.isContainer ∨ (f slot).isPending → (f slot).children.Perm (s.inside e))
    (enclosed : ∀ r, slot.kind.isContainer ∨ slot.kind.isType → (f slot).state = .complete r →
      r.enclosed.Perm (s.inside e)) : (s.updateSlot e f).Arranged := by
  have updated (e' : ElementId) : (s.updateSlot e f).slot? e' = if e' = e then some (f slot) else s.slot? e' := by
    rw [slot?_update]
    split <;> rename_i here
    · rw [here, found, Option.map_some]
    · rfl
  have places (o : ElementId) : (s.updateSlot e f).inside o = s.inside o := inside_update e keeps
  have headings : s.SameHeadings (s.updateSlot e f) := headings_updateSlot keeps
  have cases_ {e' : ElementId} {slot' : Slot} (there : (s.updateSlot e f).slot? e' = some slot') :
      e' = e ∧ slot' = f slot ∨ s.slot? e' = some slot' := by
    rw [updated] at there
    split at there <;> rename_i here
    · exact .inl ⟨here, (Option.some.inj there).symm⟩
    · exact .inr there
  have kind : (f slot).kind = slot.kind := Slot.kind_of_heading (keeps slot)
  refine ⟨h.modules.update keeps, h.packages.update keeps, h.typeElements.update keeps, h.once, ?_, ?_, ?_, ?_, ?_⟩
  · intro e' slot' o there place
    rw [HasElement, show (s.updateSlot e f).elements.size = s.elements.size from Array.size_modify]
    rcases cases_ there with ⟨rfl, rfl⟩ | there
    · exact h.housed _ slot o found (by rwa [← Slot.enclosing_of_heading (keeps slot)])
    · exact h.housed e' slot' o there place
  · intro e' slot' work there state
    rcases cases_ there with ⟨rfl, rfl⟩ | there
    · rw [kind]
      exact suits work state
    · exact h.suits e' slot' work there state
  · intro e' slot' there isType
    have old : ∃ old, s.slot? e' = some old ∧ slot'.heading = old.heading := by
      rcases cases_ there with ⟨rfl, rfl⟩ | there
      · exact ⟨slot, found, keeps slot⟩
      · exact ⟨slot', there, rfl⟩
    obtain ⟨old, there', same⟩ := old
    obtain ⟨o, outer, place, around, name⟩ := h.named e' old there' (by rwa [← Slot.kind_of_heading same])
    obtain ⟨outer', around', same'⟩ := headings o outer around
    refine ⟨o, outer', (Slot.enclosing_of_heading same).trans place, around', ?_⟩
    rw [Slot.qualifiedName_of_heading same, Slot.simpleName_of_heading same, Slot.qualifiedName_of_heading same', name]
  · intro e' slot' there kind'
    rw [places]
    rcases cases_ there with ⟨rfl, rfl⟩ | there
    · rw [kind] at kind'
      exact children kind'
    · exact h.children e' slot' there kind'
  · intro e' slot' r there kind' state
    rw [places]
    rcases cases_ there with ⟨rfl, rfl⟩ | there
    · rw [kind] at kind'
      exact enclosed r kind' state
    · exact h.enclosed e' slot' r there kind' state

section receive

variable {work : Pending}

theorem inside_receive (kind : slot.kind ≠ .typeParameter) (o : ElementId) :
    (s.receive slot).inside o = s.inside o ++ if slot.enclosing = some o then [⟨s.elements.size⟩] else [] := by
  have pushed : (s.pushSlot slot).inside o = s.inside o ++ if slot.enclosing = some o then [⟨s.elements.size⟩] else [] := by
    split <;> rename_i place
    · exact inside_push place kind
    · rw [inside_push_other fun same => absurd same place, List.append_nil]
  rw [receive]
  split
  · exact (inside_congr rfl).trans pushed
  · rename_i outer _
    have told : ((s.entered slot).updateSlot outer (Slot.addChild ⟨s.elements.size⟩)).inside o = (s.entered slot).inside o :=
      inside_update outer fun _ => rfl
    exact told.trans ((inside_congr rfl).trans pushed)

theorem addChild_not_complete (child : ElementId) (container : slot.kind.isContainer) (r : ElementRecord) :
    (Slot.addChild child slot).state ≠ .complete r := by
  have kinds : slot.kind = .module ∨ slot.kind = .package := by
    revert container
    cases slot.kind <;> simp [ElementKind.isContainer]
  intro same
  simp only [Slot.addChild] at same
  split at same
  · rw [if_pos kinds] at same
    cases same
  · rename_i other
    exact other r same

theorem receive (h : s.Arranged) (state : slot.state = .pending work) (suits : work.Suits slot.kind)
    (childless : slot.children = [])
    (around : ∀ o, slot.enclosing = some o → ∃ outer, s.slot? o = some outer ∧ (outer.kind.isContainer ∨ outer.isPending))
    (named : slot.kind.isType → ∃ o outer, slot.enclosing = some o ∧ s.slot? o = some outer ∧
      slot.qualifiedName = qualify outer.qualifiedName slot.simpleName)
    (freeModule : slot.kind == .module → s.modules.find? slot.qualifiedName = none)
    (freePackage : slot.kind == .package → s.packages.find? slot.qualifiedName = none)
    (freeType : slot.kind.isType → s.typeElements.find? slot.qualifiedName = none) : (s.receive slot).Arranged := by
  let new : ElementId := ⟨s.elements.size⟩
  have outside : slot.enclosing ≠ some new := by
    intro same
    obtain ⟨outer, there, _⟩ := around new same
    cases slot?_at_size.symm.trans there
  have kind : slot.kind ≠ .typeParameter := by
    intro same
    rw [same] at suits
    cases work <;> cases suits
  have places := inside_receive (s := s) kind
  have listed {p : ElementKind → Bool} {index : NameIndex} (h : s.Indexes p index)
      (free : p slot.kind → index.find? slot.qualifiedName = none) :
      (s.receive slot).Indexes p (NameIndex.enter p slot new index) := by
    rw [Store.receive]
    split
    · exact h.enter free
    · exact (h.enter free).update fun _ => rfl
  obtain ⟨modules, packages, types⟩ := indexes_receive s slot
  have keeps {e : ElementId} {old : Slot} (found : s.slot? e = some old) :
      ∃ slot', (s.receive slot).slot? e = some slot' ∧ slot'.heading = old.heading := by
    refine ⟨_, slot?_receive_old found, ?_⟩
    split <;> rfl
  refine ⟨?_, ?_, ?_, ?_, ?_, ?_, ?_, ?_, ?_⟩
  · exact modules ▸ listed h.modules freeModule
  · exact packages ▸ listed h.packages freePackage
  · exact types ▸ listed h.typeElements freeType
  · rw [types, NameIndex.enter]
    split <;> rename_i isType
    · rw [NameIndex.names, List.map_append]
      refine List.nodup_append.mpr ⟨h.once, List.nodup_singleton _, ?_⟩
      rintro name mem _ last rfl
      cases List.mem_singleton.mp last
      exact NameIndex.find?_eq_none_iff.mp (freeType isType) mem
    · exact h.once
  · intro e slot' o found place
    have there : s.HasElement o := by
      rcases slot?_receive_cases outside found with ⟨_, rfl⟩ | ⟨old, found', rfl⟩
      · obtain ⟨outer, there, _⟩ := around o place
        exact has_element_iff.mpr ⟨outer, there⟩
      · refine h.housed e old o found' ?_
        rw [← place]
        split <;> rfl
    obtain ⟨outer, there⟩ := has_element_iff.mp there
    obtain ⟨outer', there', _⟩ := keeps there
    exact has_element_iff.mpr ⟨outer', there'⟩
  · intro e slot' work' found state'
    rcases slot?_receive_cases outside found with ⟨_, rfl⟩ | ⟨old, found', rfl⟩
    · cases state.symm.trans state'
      exact suits
    · split at state'
      · rcases addChild_state new old with same | ⟨container, again⟩
        · rw [if_pos ‹_›]
          exact h.suits e old work' found' (same.symm.trans state')
        · cases again.symm.trans state'
          rw [if_pos ‹_›]
          exact container
      · rw [if_neg ‹_›]
        exact h.suits e old work' found' state'
  · intro e slot' found isType
    have placed : ∃ o outer, slot'.enclosing = some o ∧ s.slot? o = some outer ∧
        slot'.qualifiedName = qualify outer.qualifiedName slot'.simpleName := by
      rcases slot?_receive_cases outside found with ⟨_, rfl⟩ | ⟨old, found', rfl⟩
      · exact named isType
      · split at isType
        · rw [if_pos ‹_›]
          exact h.named e old found' isType
        · rw [if_neg ‹_›]
          exact h.named e old found' isType
    obtain ⟨o, outer, place, there, name⟩ := placed
    obtain ⟨outer', there', same⟩ := keeps there
    exact ⟨o, outer', place, there', by rw [Slot.qualifiedName_of_heading same, name]⟩
  · intro e slot' found kind'
    rw [places]
    rcases slot?_receive_cases outside found with ⟨rfl, rfl⟩ | ⟨old, found', rfl⟩
    · rw [childless, h.housed.inside_absent slot?_at_size, if_neg outside]
      exact .refl []
    · split <;> rename_i place
      · obtain ⟨outer, there, kind''⟩ := around e place
        cases found'.symm.trans there
        exact (h.children e old found' kind'').append_right [new]
      · rw [if_neg place] at kind'
        rw [List.append_nil]
        exact h.children e old found' kind'
  · intro e slot' r found kind' state'
    rw [places]
    rcases slot?_receive_cases outside found with ⟨rfl, rfl⟩ | ⟨old, found', rfl⟩
    · cases state.symm.trans state'
    · split at state' <;> rename_i place
      · obtain ⟨outer, there, kind''⟩ := around e place
        cases found'.symm.trans there
        rcases kind'' with container | waits
        · exact absurd state' (addChild_not_complete new container r)
        · rcases addChild_state new old with same | ⟨_, again⟩
          · rw [Slot.isPending, same.symm.trans state'] at waits
            cases waits
          · cases again.symm.trans state'
      · rw [if_neg place] at kind'
        rw [if_neg place, List.append_nil]
        exact h.enclosed e old r found' kind' state'

end receive

end Arranged

end Store

end Nominal
