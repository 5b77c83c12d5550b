import Nominal.Proofs.Store.Allocation
/-!
What no computation ever takes back, whatever it is asked about: types keep their shapes, elements keep
their names and places and lose no children, records of complete elements stay unless the element is a
module or package, and what a computation opens it closes. None of this needs a consistent store.
-/

namespace Nominal

def Slot.Keeps (slot slot' : Slot) : Prop :=
  ∃ children state, slot' = { slot with children, state } ∧ slot.children <+: children ∧
    (¬ slot.kind.isContainer → ∀ r, slot.state = .complete r → state = .complete r)

def Slot.Tidy (e : ElementId) (slot : Slot) : Prop :=
  slot.kind.isContainer →
    slot.state = .pending .container ∨ slot.state = .complete (Store.containerRecord e slot)

namespace Slot.Keeps

variable {a b c : Slot}

theorem refl (slot : Slot) : slot.Keeps slot :=
  ⟨slot.children, slot.state, rfl, List.prefix_refl _, fun _ _ => id⟩

theorem trans (first : a.Keeps b) (second : b.Keeps c) : a.Keeps c := by
  obtain ⟨_, _, rfl, more, kept⟩ := first
  obtain ⟨_, _, rfl, more', kept'⟩ := second
  exact ⟨_, _, rfl, more.trans more', fun kind r done => kept' kind r (kept kind r done)⟩

theorem settle {slot : Slot} {state : SlotState} (free : ∀ r, slot.state ≠ .complete r) :
    slot.Keeps { slot with state } :=
  ⟨slot.children, state, rfl, List.prefix_refl _, fun _ r done => absurd done (free r)⟩

end Slot.Keeps

namespace Store

def Tidy (s : Store) : Prop := ∀ e slot, s.slot? e = some slot → slot.Tidy e

/-- The store has moved from `s` to `s'`, taking nothing back and leaving the elements of `busy` open, which
nobody worked on before. -/
structure KeepsBut (busy : ElementId → Prop) (s s' : Store) : Prop where
  shapes : ∀ t shape, s.shape? t = some shape → s'.shape? t = some shape
  slots : ∀ e slot, s.slot? e = some slot → ∃ slot', s'.slot? e = some slot' ∧ slot.Keeps slot'
  opens : ∀ e, s'.Open e ↔ s.Open e ∨ busy e
  own : ∀ e, busy e → ¬ s.Open e
  tidy : s.Tidy → s'.Tidy

def Keeps (s s' : Store) : Prop := s.KeepsBut Nothing s'

section relation

variable {busy more : ElementId → Prop} {s s' s'' : Store} {e : ElementId}

theorem KeepsBut.congr (k : s.KeepsBut busy s') (same : ∀ e, busy e ↔ more e) : s.KeepsBut more s' :=
  { k with
    opens := fun e => by rw [k.opens e, same e]
    own := fun e now => k.own e ((same e).mpr now) }

theorem KeepsBut.restate (k : s.KeepsBut busy s') (slots : ∀ e, s''.slot? e = s'.slot? e)
    (shapes : ∀ t, s''.shape? t = s'.shape? t) : s.KeepsBut busy s'' where
  shapes t shape found := by rw [shapes]; exact k.shapes t shape found
  slots e slot found := by rw [slots]; exact k.slots e slot found
  opens e := by rw [← k.opens e, Open, slots, Open]
  own := k.own
  tidy start e slot found := k.tidy start e slot (by rw [← slots]; exact found)

theorem Keeps.refl (s : Store) : s.Keeps s where
  shapes _ _ := id
  slots _ slot found := ⟨slot, found, .refl slot⟩
  opens _ := by simp [Nothing]
  own _ := False.elim
  tidy := id

theorem KeepsBut.trans (first : s.KeepsBut busy s') (second : s'.KeepsBut more s'') :
    s.KeepsBut (fun e => busy e ∨ more e) s'' where
  shapes t shape found := second.shapes t shape (first.shapes t shape found)
  slots e slot found := by
    obtain ⟨_, found', keeps⟩ := first.slots e slot found
    obtain ⟨_, found'', keeps'⟩ := second.slots e _ found'
    exact ⟨_, found'', keeps.trans keeps'⟩
  opens e := by rw [second.opens e, first.opens e, or_assoc]
  own e now isOpen := now.elim (first.own e · isOpen)
    fun later => second.own e later ((first.opens e).mpr (.inl isOpen))
  tidy := second.tidy ∘ first.tidy

theorem KeepsBut.step (first : s.KeepsBut busy s') (second : s'.Keeps s'') : s.KeepsBut busy s'' :=
  (first.trans second).congr fun _ => or_iff_left id

theorem Keeps.trans (first : s.Keeps s') (second : s'.Keeps s'') : s.Keeps s'' := first.step second

theorem KeepsBut.absent (k : s.KeepsBut busy s') (absent : s'.slot? e = none) : s.slot? e = none := by
  cases found : s.slot? e with
  | none => rfl
  | some slot =>
    obtain ⟨_, found', _⟩ := k.slots e slot found
    simp [absent] at found'

theorem KeepsBut.absent_shape (k : s.KeepsBut busy s') {t : TypeId} (absent : s'.shape? t = none) :
    s.shape? t = none := by
  cases found : s.shape? t with
  | none => rfl
  | some shape => simp [k.shapes t shape found] at absent

theorem KeepsBut.there (k : s.KeepsBut busy s') (there : s.HasElement e) : s'.HasElement e := by
  obtain ⟨slot, found⟩ := has_element_iff.mp there
  obtain ⟨slot', found', _⟩ := k.slots e slot found
  exact has_element_iff.mpr ⟨slot', found'⟩

theorem KeepsBut.kind (k : s.KeepsBut busy s') {kind : ElementKind} (known : s.kind? e = some kind) :
    s'.kind? e = some kind := by
  obtain ⟨slot, found, rfl⟩ := kind?_eq_some_iff.mp known
  obtain ⟨_, found', _, _, rfl, _⟩ := k.slots e slot found
  exact kind?_eq_some_iff.mpr ⟨_, found', rfl⟩

/-- The record of what is no module or package is never changed. -/
theorem KeepsBut.record (k : s.KeepsBut busy s') {kind : ElementKind} {r : ElementRecord}
    (known : s.kind? e = some kind) (plain : ¬ kind.isContainer) (complete : s.record? e = some r) :
    s'.record? e = some r := by
  obtain ⟨slot, found, state⟩ := record?_eq_some_iff.mp complete
  obtain ⟨_, found', children, state', rfl, _, kept⟩ := k.slots e slot found
  obtain ⟨_, again, rfl⟩ := kind?_eq_some_iff.mp known
  cases found.symm.trans again
  exact record?_eq_some_iff.mpr ⟨_, found', kept plain r state⟩

theorem Tidy.record (tidy : s.Tidy) {slot : Slot} {r : ElementRecord} (found : s.slot? e = some slot)
    (container : slot.kind.isContainer) (complete : s.record? e = some r) : r = containerRecord e slot := by
  obtain ⟨_, again, state⟩ := record?_eq_some_iff.mp complete
  cases found.symm.trans again
  rcases tidy e slot found container with waiting | done
  · cases waiting.symm.trans state
  · cases done.symm.trans state
    rfl

/-- The record of a module or package is only ever replaced by one that lists more. -/
theorem Keeps.container_record (k : s.Keeps s') (tidy : s.Tidy) {kind : ElementKind} {r r' : ElementRecord}
    (known : s.kind? e = some kind) (container : kind.isContainer) (complete : s.record? e = some r)
    (complete' : s'.record? e = some r') :
    ∃ more, r' = { r with enclosed := r.enclosed ++ more } := by
  obtain ⟨slot, found, rfl⟩ := kind?_eq_some_iff.mp known
  obtain ⟨_, found', children, state, rfl, ⟨more, longer⟩, _⟩ := k.slots e slot found
  refine ⟨more, ?_⟩
  rw [(k.tidy tidy).record found' container complete', tidy.record found container complete]
  simp only [containerRecord, longer]

end relation

section primitives

variable {busy : ElementId → Prop} {s s' : Store} {e : ElementId}

theorem keepsBut_pushSlot {slot : Slot} (ordered : slot.Tidy ⟨s.elements.size⟩) :
    s.KeepsBut (fun e => e = ⟨s.elements.size⟩ ∧ slot.state = .completing) (s.pushSlot slot) where
  shapes _ _ := id
  slots e old found := by
    have there : e.index < s.elements.size := has_element_iff.mpr ⟨old, found⟩
    rw [slot?_push, if_neg (Nat.ne_of_lt there)]
    exact ⟨old, found, .refl old⟩
  opens e := by
    have new : e.index = s.elements.size ↔ e = ⟨s.elements.size⟩ := by cases e; simp
    rw [Open, slot?_push, Open]
    split <;> rename_i last
    · cases new.mp last
      simp [slot?_at_size]
    · simp [mt new.mpr last]
  own e := by
    rintro ⟨rfl, _⟩ ⟨slot, found, _⟩
    simp [slot?_at_size] at found
  tidy tidy e slot' found := by
    rw [slot?_push] at found
    split at found <;> rename_i last
    · cases found
      cases e
      cases last
      exact ordered
    · exact tidy e slot' found

theorem keeps_pushType (shape : TypeShape) : s.Keeps (s.pushType shape) where
  shapes t old found := by
    have there : t.index < s.types.size := has_type_iff.mpr ⟨old, found⟩
    rw [shape?_push, if_neg (Nat.ne_of_lt there)]
    exact found
  slots _ slot found := ⟨slot, found, .refl slot⟩
  opens _ := (or_iff_left id).symm
  own _ := False.elim
  tidy := id

theorem KeepsBut.updateShape (k : s.KeepsBut busy s') {t : TypeId} (new : s.shape? t = none)
    (shape : TypeShape) : s.KeepsBut busy (s'.updateShape t shape) where
  shapes u old found := by
    have other : t.index ≠ u.index := fun same => by
      cases t; cases u; cases same
      simp [new] at found
    rw [shape?, Store.updateShape, Array.getElem?_setIfInBounds_ne other]
    exact k.shapes u old found
  slots := k.slots
  opens := k.opens
  own := k.own
  tidy := k.tidy

theorem keepsBut_updateSlot {f : Slot → Slot} (began : ∀ e', busy e' → e' = e ∧ s.HasElement e ∧ ¬ s.Open e)
    (kept : ∀ slot, s.slot? e = some slot → slot.Keeps (f slot) ∧ (slot.Tidy e → (f slot).Tidy e) ∧
      ((f slot).state = .completing ↔ slot.state = .completing ∨ busy e)) :
    s.KeepsBut busy (s.updateSlot e f) where
  shapes _ _ := id
  slots e' slot found := by
    rw [slot?_update]
    split <;> rename_i here
    · subst here
      exact ⟨f slot, by rw [found]; rfl, (kept slot found).1⟩
    · exact ⟨slot, found, .refl slot⟩
  opens e' := by
    rw [Open, slot?_update, Open]
    split <;> rename_i here
    · subst here
      cases found : s.slot? e' with
      | none =>
        have idle : ¬ busy e' := fun now => by simpa [found] using has_element_iff.mp (began e' now).2.1
        simp [idle]
      | some slot => simpa using (kept slot found).2.2
    · exact (or_iff_left fun now => here (began e' now).1).symm
  own e' now := (began e' now).1 ▸ (began e' now).2.2
  tidy tidy e' slot' found := by
    rw [slot?_update] at found
    split at found <;> rename_i here
    · subst here
      obtain ⟨slot, old, rfl⟩ := Option.map_eq_some_iff.mp found
      exact (kept slot old).2.1 (tidy e' slot old)
    · exact tidy e' slot' found

theorem keeps_addChild (parent child : ElementId) : s.Keeps (s.addChild parent child) := by
  refine keepsBut_updateSlot (fun _ => False.elim) fun slot found => ⟨?_, ?_, ?_⟩
  · refine ⟨_, _, rfl, List.prefix_append _ _, fun plain r done => ?_⟩
    have other : ¬ (slot.kind = .module ∨ slot.kind = .package) := by
      rintro (kind | kind) <;> simp [kind, ElementKind.isContainer] at plain
    simp [done, other]
  · intro plain container
    have kind : slot.kind = .module ∨ slot.kind = .package := by
      revert container
      change slot.kind.isContainer = true → _
      cases slot.kind <;> simp [ElementKind.isContainer]
    rcases plain container with state | state <;> simp [Slot.addChild, state, kind]
  · simp only [Slot.addChild, Nothing, or_false]
    split
    · split <;> simp_all
    · rfl

theorem keepsBut_begin {slot : Slot} {h : TypeHeader} (found : s.slot? e = some slot)
    (state : slot.state = .pending (.type h)) : s.KeepsBut (· = e) (s.setState e .completing) := by
  have closed : ¬ s.Open e := by
    rintro ⟨_, again, completing⟩
    cases found.symm.trans again
    simp [state] at completing
  have there : s.HasElement e := has_element_iff.mpr ⟨slot, found⟩
  refine keepsBut_updateSlot (fun e' here => ⟨here, there, closed⟩) fun slot' again => ?_
  cases found.symm.trans again
  refine ⟨.settle (by simp [state]), fun plain container => ?_, by simp⟩
  simpa [state] using plain container

theorem keeps_container {slot : Slot} (found : s.slot? e = some slot) (state : slot.state = .pending .container) :
    s.Keeps (s.setState e (.complete (containerRecord e slot))) := by
  refine keepsBut_updateSlot (fun _ => False.elim) fun slot' again => ?_
  cases found.symm.trans again
  exact ⟨.settle (by simp [state]), fun _ _ => .inr rfl, by simp [state, Nothing]⟩

theorem record?_publish {r : ElementRecord} (there : s.HasElement r.id) :
    (s.setState r.id (.complete r)).record? r.id = some r := by
  obtain ⟨slot, found⟩ := has_element_iff.mp there
  refine record?_eq_some_iff.mpr ⟨{ slot with state := .complete r }, ?_, rfl⟩
  exact slot?_update.trans (by rw [if_pos rfl, found, Option.map_some])

theorem KeepsBut.publish (k : s.KeepsBut busy s') {r : ElementRecord} (mine : busy r.id) :
    s.KeepsBut (fun e => busy e ∧ e ≠ r.id) (s'.setState r.id (.complete r)) where
  shapes := k.shapes
  slots e slot found := by
    obtain ⟨slot', found', keeps⟩ := k.slots e slot found
    change ∃ slot'', (s'.updateSlot r.id _).slot? e = some slot'' ∧ _
    rw [slot?_update]
    split <;> rename_i here
    · obtain ⟨_, again, completing⟩ := (k.opens r.id).mpr (.inr mine)
      cases here
      cases found'.symm.trans again
      exact ⟨_, by rw [found']; rfl, keeps.trans (.settle (by simp [completing]))⟩
    · exact ⟨slot', found', keeps⟩
  opens e := by
    change (s'.updateSlot r.id _).Open e ↔ _
    rw [Open, slot?_update]
    split <;> rename_i here
    · cases here
      simp [k.own r.id mine]
    · exact (k.opens e).trans (by simp [here])
  own e now := k.own e now.1
  tidy tidy e slot found := by
    change (s'.updateSlot r.id _).slot? e = some slot at found
    rw [slot?_update] at found
    split at found <;> rename_i here
    · obtain ⟨slot', again, completing⟩ := (k.opens r.id).mpr (.inr mine)
      cases here
      rw [again] at found
      cases found
      intro container
      rcases k.tidy tidy r.id slot' again container with state | state <;> simp [completing] at state
    · exact k.tidy tidy e slot found

end primitives

end Store

end Nominal
