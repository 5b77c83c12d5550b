import Nominal.Proofs.Store.Completion
/-!
Advances of a store between one question to it and the next: what is asked is completed, and what was
known before stays as it was.
-/

namespace Nominal

namespace Store

/-- Growth between two stores that nobody is working on. -/
structure Grown (s s' : Store) : Prop where
  start : s.Sound
  sound : s'.Sound
  grows : s.Grows Nothing s'

/-- Growth that leaves the top type what it was. Whatever was settled is settled in the same way. -/
structure Retains (s s' : Store) : Prop extends Grown s s' where
  object : s'.objectElement? = s.objectElement?

/-- Growth in which nothing is entered. -/
structure Advances (s s' : Store) : Prop extends Retains s s' where
  moves : s.Extends s'

instance : Movement Grown where
  trans first second := ⟨first.start, second.sound, first.grows.trans second.grows⟩
  stay h := ⟨h.sound, h.sound, .refl h.sound.toConsistent⟩

instance : Movement Retains where
  trans first second := ⟨Movement.trans first.toGrown second.toGrown, second.object.trans first.object⟩
  stay h := ⟨Movement.stay h.toGrown, rfl⟩

variable {s s' : Store} {e : ElementId} {r : ElementRecord}

theorem Extends.advances (ext : s.Extends s') (start : s.Sound) (sound : s'.Sound) : s.Advances s' where
  start := start
  sound := sound
  grows := ext.grows
  object := by rw [objectElement?, objectElement?, typeElement?, ext.typeElements]; rfl
  moves := ext

instance : Movement Advances where
  trans first second :=
    Extends.advances (Movement.trans first.moves second.moves) first.start second.sound
  stay h := Extends.advances (.refl h.sound.toConsistent) h.sound h.sound

theorem Grown.retains (move : s.Grown s') {top : ElementId} (object : s.objectElement? = some top) :
    s.Retains s' :=
  ⟨move, (find?_of_longer move.grows.typeElements object).trans object.symm⟩

theorem Sound.extend (h : s.Sound) (ext : s.Extends s') : s'.Sound :=
  ⟨ext.consistent, fun e isOpen => (ext.grows.opens e isOpen).elim (h.settled e) id⟩

theorem Sound.stays (h : s.Sound) : s.Advances s := Extends.advances (.refl h.toConsistent) h h

theorem Sound.ensures {α : Type} {m : StoreM α} {P : α → Store → Prop} (h : s.Sound)
    (ensured : Ensures Extends s m P) : Ensures Advances s m P :=
  ⟨Extends.advances ensured.1 h (h.extend ensured.1), ensured.2⟩

theorem Sound.fits (h : s.Sound) (complete : s.record? e = some r) :
    ∃ slot, s.slot? e = some slot ∧ s.RecordFits e slot r := by
  obtain ⟨slot, found, state⟩ := record?_eq_some_iff.mp complete
  have fits := (h.slots e slot found).state
  simp only [StateFits, state] at fits
  exact ⟨slot, found, fits⟩

theorem Sound.record_of_owned (h : s.Sound) {k : ElementKind} (kind : s.kind? e = some k)
    (owned : k.isOwned) : ∃ r, s.record? e = some r := by
  obtain ⟨slot, found, rfl⟩ := kind?_eq_some_iff.mp kind
  have fits := (h.slots e slot found).state
  cases state : slot.state with
  | complete r => exact ⟨r, record?_eq_some_iff.mpr ⟨slot, found, state⟩⟩
  | completing => exact absurd ⟨slot, found, state⟩ (h.settled e)
  | pending work =>
    cases work with
    | container =>
      simp only [StateFits, state] at fits
      exact absurd fits.1 (ElementKind.isOwned_not_container owned)
    | type header =>
      simp only [StateFits, state] at fits
      exact absurd fits.1 (ElementKind.isOwned_not_type owned)

theorem Grown.shape (move : s.Grown s') {t : TypeId} (known : s.HasType t) :
    s'.shape t = s.shape t := by
  obtain ⟨shape, found⟩ := has_type_iff.mp known
  rw [shape_of_shape? found, shape_of_shape? (move.grows.shape found)]

theorem Grown.slot (move : s.Grown s') {slot : Slot} (found : s.slot? e = some slot) :
    ∃ children state, s'.slot? e = some { slot with children, state } := by
  obtain ⟨_, found', children, state, rfl, _⟩ := move.grows.slots e slot found
  exact ⟨children, state, found'⟩

theorem Grown.fits (move : s.Grown s') {slot : Slot} (found : s.slot? e = some slot)
    (complete : s'.record? e = some r) : s'.RecordFits e slot r := by
  obtain ⟨slot', found', fits⟩ := move.sound.fits complete
  obtain ⟨children, state, found''⟩ := move.slot found
  rw [found''] at found'
  cases found'
  exact fits.restate

theorem Grown.record (move : s.Grown s') {k : ElementKind} (kind : s.kind? e = some k)
    (owned : k.isOwned) : s'.record? e = s.record? e := by
  obtain ⟨r, complete⟩ := move.start.record_of_owned kind owned
  obtain ⟨slot, found, state⟩ := record?_eq_some_iff.mp complete
  obtain ⟨_, found', rfl⟩ := kind?_eq_some_iff.mp kind
  rw [found] at found'
  cases found'
  rw [complete]
  exact move.grows.record found (ElementKind.isOwned_not_container owned) state

theorem Grown.ownedOf (move : s.Grown s') {k : ElementKind} (kind : s.kind? e = some k)
    (owned : k.isOwned) (p : ElementKind → Bool) : s'.ownedOf e p = s.ownedOf e p := by
  obtain ⟨r, complete⟩ := move.start.record_of_owned kind owned
  obtain ⟨slot, found, state⟩ := record?_eq_some_iff.mp complete
  obtain ⟨_, found', rfl⟩ := kind?_eq_some_iff.mp kind
  rw [found] at found'
  cases found'
  exact move.grows.ownedOf
    (move.grows.owned e slot r found (ElementKind.isOwned_not_container owned) state) p

theorem Sound.kind_answered (h : s.Sound) (is : Completion.IsRecordOf s e r) (other : r.kind ≠ .classType) :
    s.kind? e = some r.kind := by
  unfold Completion.IsRecordOf at is
  split at is
  · rw [is] at other
    exact absurd rfl other
  · rename_i slot found
    rcases is with complete | ⟨completing, _⟩
    · obtain ⟨slot', found', fits⟩ := h.fits complete
      exact kind?_eq_some_iff.mpr ⟨slot', found', fits.kind.symm⟩
    · exact absurd ⟨slot, found, completing⟩ (h.settled e)

end Store

namespace StoreM

open Store Completion

variable {s : Store} {e : ElementId}

theorem complete_ensures (h : s.Consistent) (e : ElementId) :
    Ensures Extends s (complete e) fun r s' => IsRecordOf s' e r :=
  .get (stepN_ensures _ h e)

theorem answers_complete : Answers complete := fun _ e h =>
  (complete_ensures h e).imp fun _ _ ext is => is.answer ext.consistent

theorem complete_record (h : s.Sound) (there : s.HasElement e) :
    Ensures Advances s (complete e) fun r s' => s'.record? e = some r := by
  refine (h.ensures (complete_ensures h.toConsistent e)).imp fun r s' move is => ?_
  obtain ⟨slot, found⟩ := has_element_iff.mp (move.grows.has_element there)
  simp only [IsRecordOf, found] at is
  exact is.resolve_right fun completing => move.sound.settled e ⟨slot, found, completing.1⟩

theorem inspect_ensures (h : s.Sound) (t : TypeId) :
    Ensures Advances s (inspect t) fun shape _ => shape = s.shape t := by
  refine .get ?_
  dsimp only
  split
  · exact (h.ensures (complete_ensures h.toConsistent _)).bind fun r s' move _ =>
      .pure move.sound.stays rfl
  · exact .pure h.stays rfl

end StoreM

end Nominal
