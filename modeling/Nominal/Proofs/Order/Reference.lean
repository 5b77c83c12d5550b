import Mathlib.Data.Finset.Max
import Nominal.Proofs.Order.Recalling
import Nominal.Proofs.Store.InTurn
/-!
A store to compare with: everything that was entered is complete, and what waited was completed one after the other,
each element when all that it needs was at hand. So what one completion added lies together.
-/

namespace Nominal

open Completion

namespace Store

/-- Nothing is half complete, what is around an element is there, and no class overtook the type around it. -/
structure Poised (s : Store) : Prop where
  sound : s.Sound
  around : ∀ e slot o, s.slot? e = some slot → slot.enclosing = some o → s.HasElement o
  turn : ∀ e o, ¬ s.Overtakes e o

theorem Poised.orderly {s : Store} (poised : s.Poised) : s.Orderly := poised.sound.toConsistent.orderly

theorem Poised.closed {s : Store} {e : ElementId} {slot : Slot} (poised : s.Poised) (found : s.slot? e = some slot) :
    slot.state ≠ .completing := fun state => poised.sound.settled e ⟨slot, found, state⟩

/-- All of `s` is in `s'` as it was entered there, however far its completion has come, and no other type is
found by a name. -/
structure Underlies (s s' : Store) : Prop where
  slots : ∀ e slot, s.slot? e = some slot → ∃ state, s'.slot? e = some { slot with state } ∧
    ∀ work, state = .pending work → slot.state = .pending work
  types : ∀ t shape, s.shape? t = some shape → s'.shape? t = some shape
  typeElements : s'.typeElements = s.typeElements

/-- What is complete stays so, types keep their shapes and elements their kinds. -/
structure Endures (s s' : Store) : Prop where
  kinds : ∀ e k, s.kind? e = some k → s'.kind? e = some k
  records : ∀ e r, s.record? e = some r → s'.record? e = some r
  shapes : ∀ t shape, s.shape? t = some shape → s'.shape? t = some shape

def Precedes (s s' : Store) : Prop := s.elements.size ≤ s'.elements.size ∧ s.types.size ≤ s'.types.size

/-- Nothing is half complete, and a usage of the top type is at hand if there is a top type, a new one unless there
was one before. -/
structure Steady (s₀ s : Store) : Prop where
  consistent : s.Consistent
  closed : ∀ e, ¬ s.Open e
  underlies : s₀.Underlies s
  endures : s₀.Endures s
  usage : s.objectUsage.isSome ∨ s₀.objectElement? = none
  reuses : ∀ t, s₀.objectUsage = some t → s.objectUsage = some t
  spare : s₀.objectUsage = none → ∀ t, s.objectUsage = some t → ¬ s₀.HasType t

section relations

variable {s s' s'' : Store} {e : ElementId} {slot : Slot}

theorem Underlies.there (under : s.Underlies s') (there : s.HasElement e) : s'.HasElement e := by
  obtain ⟨slot, found⟩ := has_element_iff.mp there
  obtain ⟨_, found', _⟩ := under.slots e slot found
  exact has_element_iff.mpr ⟨_, found'⟩

theorem Underlies.refl (s : Store) : s.Underlies s :=
  ⟨fun _ slot found => ⟨slot.state, found, fun _ => id⟩, fun _ _ => id, rfl⟩

theorem Underlies.trans (first : s.Underlies s') (second : s'.Underlies s'') : s.Underlies s'' where
  slots e slot found := by
    obtain ⟨state, found', waits⟩ := first.slots e slot found
    obtain ⟨state', found'', waits'⟩ := second.slots e _ found'
    exact ⟨state', found'', fun work same => waits work (waits' work same)⟩
  types t shape found := second.types t shape (first.types t shape found)
  typeElements := second.typeElements.trans first.typeElements

theorem Underlies.pushType (under : s.Underlies s') (shape : TypeShape) : s.Underlies (s'.pushType shape) := by
  refine ⟨under.slots, fun t old found => ?_, under.typeElements⟩
  have known := under.types t old found
  have there : t.index < s'.types.size := has_type_iff.mpr ⟨old, known⟩
  rw [shape?_push, if_neg (Nat.ne_of_lt there), known]

theorem Underlies.pushSlot (under : s.Underlies s') (slot : Slot) : s.Underlies (s'.pushSlot slot) := by
  refine ⟨fun e old found => ?_, under.types, under.typeElements⟩
  obtain ⟨state, known, waits⟩ := under.slots e old found
  exact ⟨state, spares_pushSlot (p := fun _ => True) slot e _ trivial known, waits⟩

theorem Underlies.updateShape {t : TypeId} (under : s.Underlies s') (new : ¬ s.HasType t) (there : s'.HasType t)
    (shape : TypeShape) : s.Underlies (s'.updateShape t shape) := by
  refine ⟨under.slots, fun u old found => ?_, under.typeElements⟩
  have other : u ≠ t := fun same => new (same ▸ has_type_iff.mpr ⟨old, found⟩)
  rw [shape?_update there, if_neg other]
  exact under.types u old found

theorem Underlies.setState {a : ElementId} (under : s.Underlies s') (new : ¬ s.HasElement a) (state : SlotState) :
    s.Underlies (s'.setState a state) := by
  refine ⟨fun e old found => ?_, under.types, under.typeElements⟩
  have other : e ≠ a := fun same => new (same ▸ has_element_iff.mpr ⟨old, found⟩)
  change ∃ state, (s'.updateSlot a _).slot? e = _ ∧ _
  rw [slot?_update, if_neg other]
  exact under.slots e old found

theorem Underlies.begin (under : s.Underlies s') (e : ElementId) : s.Underlies (s'.setState e .completing) := by
  refine ⟨fun a slot found => ?_, under.types, under.typeElements⟩
  obtain ⟨state, found', waits⟩ := under.slots a slot found
  change ∃ state, (s'.updateSlot e _).slot? a = _ ∧ _
  rw [slot?_update, found']
  split
  · exact ⟨.completing, rfl, nofun⟩
  · exact ⟨state, rfl, waits⟩

theorem Underlies.served (under : s.Underlies s') (e : ElementId) (r : ElementRecord) : s.Underlies (served s' e r) := by
  refine ⟨fun a slot found => ?_, under.types, under.typeElements⟩
  obtain ⟨state, found', waits⟩ := under.slots a slot found
  by_cases here : a = e
  · subst here
    have published : (Completion.served s' a r).slot? a = _ := slot?_setState (s := { s' with completions := s'.completions + 1 }) _ found'
    exact ⟨_, published, nofun⟩
  · exact ⟨state, (slot?_served_ne here).trans found', waits⟩

theorem Underlies.kind (under : s.Underlies s') {k : ElementKind} (known : s.kind? e = some k) : s'.kind? e = some k := by
  obtain ⟨slot, found, rfl⟩ := kind?_eq_some_iff.mp known
  obtain ⟨_, found', _⟩ := under.slots e slot found
  exact kind?_eq_some_iff.mpr ⟨_, found', rfl⟩

theorem Underlies.nestingOf (under : s.Underlies s') (fits : s.Consistent) (found : s.slot? e = some slot)
    (plain : ¬ slot.kind.isContainer) : s'.nestingOf slot = s.nestingOf slot := by
  obtain ⟨o, k, enclosing, _, kind, _⟩ := (fits.slots e slot found).placed plain
  simp only [Store.nestingOf, enclosing, Option.bind_some, kind, under.kind kind]

theorem Underlies.entered_slot (under : s.Underlies s') (there : s.HasElement e) :
    ∃ slot state, s.slot? e = some slot ∧ s'.slot? e = some { slot with state } := by
  obtain ⟨slot, found⟩ := has_element_iff.mp there
  obtain ⟨state, found', _⟩ := under.slots e slot found
  exact ⟨slot, state, found, found'⟩

theorem Underlies.kind_eq (under : s.Underlies s') (there : s.HasElement e) : s'.kind? e = s.kind? e := by
  obtain ⟨slot, state, found, found'⟩ := under.entered_slot there
  rw [kind?, kind?, found, found']
  rfl

theorem Underlies.arity (under : s.Underlies s') (there : s.HasElement e) : s'.arity e = s.arity e := by
  obtain ⟨slot, state, found, found'⟩ := under.entered_slot there
  rw [Store.arity, Store.arity, found, found']
  rfl

theorem typeElement_there (fits : s.Consistent) {sc : Scope} {name : String} (named : sc.typeElement? s name = some e) :
    s.HasElement e := by
  obtain ⟨k, kind, isType⟩ := ResolveM.typeElement_isType fits named
  exact IsType.there ⟨k, kind, isType⟩

theorem Underlies.typeElement (under : s.Underlies s') (sc : Scope) (name : String) :
    sc.typeElement? s' name = sc.typeElement? s name := by
  unfold Scope.typeElement? Store.typeElement?
  rw [under.typeElements]

theorem Underlies.packageNameN (under : s.Underlies s') (orderly : s.Orderly) (fuel : Nat) (encloses : s.Encloses e) :
    s'.packageNameN fuel (some e) = s.packageNameN fuel (some e) := by
  induction fuel generalizing e with
  | zero => rfl
  | succ fuel ih =>
    obtain ⟨slot, found, kind⟩ := encloses
    obtain ⟨state, found', _⟩ := under.slots e slot found
    rw [Store.packageNameN, Store.packageNameN, found, found']
    dsimp only
    split <;> rename_i package
    · rfl
    · cases enclosing : slot.enclosing with
      | none => cases fuel <;> rfl
      | some o => exact ih (orderly.placed e slot o found (kind.resolve_left package) enclosing).2

theorem Underlies.packageName (under : s.Underlies s') (orderly : s.Orderly) (encloses : s.Encloses e) :
    s'.packageName e = s.packageName e := by
  have there' := under.there encloses.there
  unfold Store.packageName
  rw [under.packageNameN orderly _ encloses]
  exact packageNameN_enough orderly encloses (Nat.lt_succ_of_lt there') (Nat.lt_succ_of_lt encloses.there)

theorem Endures.trans (first : s.Endures s') (second : s'.Endures s'') : s.Endures s'' where
  kinds e k known := second.kinds e k (first.kinds e k known)
  records e r complete := second.records e r (first.records e r complete)
  shapes t shape found := second.shapes t shape (first.shapes t shape found)

theorem Precedes.trans (first : s.Precedes s') (second : s'.Precedes s'') : s.Precedes s'' :=
  ⟨first.1.trans second.1, first.2.trans second.2⟩

theorem Grows.precedes {mine : ElementId → Prop} (g : s.Grows mine s') : s.Precedes s' := by
  constructor
  · by_contra fewer
    exact absurd (g.has_element (e := ⟨s'.elements.size⟩) (Nat.lt_of_not_le fewer)) (Nat.lt_irrefl _)
  · by_contra fewer
    exact absurd (g.has_type (t := ⟨s'.types.size⟩) (Nat.lt_of_not_le fewer)) (Nat.lt_irrefl _)

end relations

end Store

namespace Completion

open Store

section recollect

variable {s₀ s : Store} {e : ElementId} {slot : Slot}

theorem step_recollect_slot (found : s.slot? e = some slot) (closed : slot.state ≠ .completing) :
    (step recollect e s).2.slot? e = some { slot with state := .complete (step recollect e s).1 } := by
  have published {s₁ : Store} (r : ElementRecord) (found₁ : s₁.slot? e = some { slot with state := .completing }) :
      (served s₁ e r).slot? e = some { slot with state := .complete r } := by
    change (Store.updateSlot _ e _).slot? e = _
    rw [slot?_update, if_pos rfl]
    exact congrArg (Option.map _) found₁
  have begun : (s.setState e .completing).slot? e = some { slot with state := .completing } := by
    change (s.updateSlot e _).slot? e = _
    rw [slot?_update, if_pos rfl, found, Option.map_some]
  cases state : slot.state with
  | complete r =>
    rw [step_of_complete found state, found, ← state]
  | completing => exact absurd state closed
  | pending work =>
    cases work with
    | container =>
      rw [step_of_container found state]
      exact published _ begun
    | type h =>
      rw [step_of_type found state rfl]
      have inside := spares_completeType (p := (· = e)) (fun _ => recollect_keeps) e slot h (s.setState e .completing)
      exact published _ (inside e _ rfl begun)

theorem step_recollect_steady (steady : s₀.Steady s) (found : s.slot? e = some slot) :
    s₀.Steady (step recollect e s).2 ∧ s.Endures (step recollect e s).2 ∧ s.Precedes (step recollect e s).2 ∧
      (step recollect e s).2.objectUsage = s.objectUsage := by
  have closed : slot.state ≠ .completing := fun state => steady.closed e ⟨slot, found, state⟩
  have ext := (step_ensures recollect_answers steady.consistent e).1
  have keeps := (step_settles (fun e => recollect_keeps e) s e).1
  have spares := step_recollect_spares s e
  have slot' := step_recollect_slot found closed
  have under : s₀.Underlies (step recollect e s).2 := by
    refine ⟨fun a slot₀ found₀ => ?_, fun t shape known => ?_, ext.typeElements.trans steady.underlies.typeElements⟩
    · obtain ⟨state, found', waits'⟩ := steady.underlies.slots a slot₀ found₀
      by_cases here : a = e
      · subst here
        cases found.symm.trans found'
        exact ⟨_, slot', nofun⟩
      · exact ⟨state, spares a _ here found', waits'⟩
    · exact ext.grows.shape (steady.underlies.types t shape known)
  have usage : (step recollect e s).2.objectUsage = s.objectUsage := by
    rcases steady.usage with some | none
    · obtain ⟨t, usage⟩ := Option.isSome_iff_exists.mp some
      rw [usage, ext.grows.object t usage]
    · have never {s' : Store} (h : s'.Consistent) (under : s₀.Underlies s') : s'.objectUsage = .none := by
        cases usage : s'.objectUsage with
        | none => rfl
        | some t =>
          obtain ⟨o, named, _⟩ := h.object t usage
          rw [objectElement?, typeElement?, under.typeElements] at named
          cases none.symm.trans named
      rw [never steady.consistent steady.underlies, never ext.consistent under]
  have endures : s.Endures (step recollect e s).2 := by
    refine ⟨fun _ _ => ext.grows.kind, fun a r complete => ?_, fun t shape known => ext.grows.shape known⟩
    obtain ⟨slot'', found'', state⟩ := record?_eq_some_iff.mp complete
    by_cases here : a = e
    · subst here
      rwa [step_of_complete found'' state]
    · exact record?_eq_some_iff.mpr ⟨slot'', spares a slot'' here found'', state⟩
  refine ⟨?_, endures, ext.grows.precedes, usage⟩
  exact
    { consistent := ext.consistent
      closed := fun a isOpen => ((keeps.opens a).mp isOpen).elim (steady.closed a) id
      underlies := under
      endures := steady.endures.trans endures
      usage := by rw [usage]; exact steady.usage
      reuses := fun t before => usage.trans (steady.reuses t before)
      spare := fun unused t now => steady.spare unused t (usage.symm.trans now) }

end recollect

end Completion

namespace Store

variable {s₀ : Store}

/-- The elements of `done` completed one after the other. -/
structure Reference (s₀ : Store) (done : ElementId → Prop) where
  store : Store
  before : ElementId → Store
  steady : s₀.Steady store
  waits : ∀ e slot, ¬ done e → s₀.slot? e = some slot → store.slot? e = some slot
  there : ∀ e, done e → s₀.HasElement e
  turn : ∀ e, done e → s₀.Steady (before e)
  waited : ∀ e slot, done e → s₀.slot? e = some slot → (before e).slot? e = some slot
  ranked : ∀ e e', done e → s₀.HasElement e' → s₀.rank e' < s₀.rank e → (before e).isComplete e'
  usage : ∀ e, done e → (before e).objectUsage = store.objectUsage
  endures : ∀ e, done e → (step recollect e (before e)).2.Endures store
  precedes : ∀ e, done e → (step recollect e (before e)).2.Precedes store
  apart : ∀ e e', done e → done e' → e ≠ e' →
    (step recollect e (before e)).2.Precedes (before e') ∨ (step recollect e' (before e')).2.Precedes (before e)

namespace Reference

variable {done : ElementId → Prop} (R : Reference s₀ done) {e : ElementId}

def after (e : ElementId) : Store := (step recollect e (R.before e)).2

def record (e : ElementId) : ElementRecord := (step recollect e (R.before e)).1

variable (poised : s₀.Poised)

include poised

theorem after_record (mine : done e) : (R.after e).record? e = some (R.record e) := by
  obtain ⟨slot, found⟩ := has_element_iff.mp (R.there e mine)
  exact record?_eq_some_iff.mpr ⟨_, step_recollect_slot (R.waited e slot mine found) (poised.closed found), rfl⟩

theorem complete (mine : done e) : R.store.record? e = some (R.record e) :=
  (R.endures e mine).records e _ (R.after_record poised mine)

omit poised in
theorem start_endures (mine : done e) : (R.before e).Endures R.store := by
  obtain ⟨slot, found⟩ := has_element_iff.mp (R.there e mine)
  exact (step_recollect_steady (R.turn e mine) (R.waited e slot mine found)).2.1.trans
    (R.endures e mine)

theorem record_describes (mine : done e) {slot : Slot} (found : s₀.slot? e = some slot) :
    (R.record e).Describes e slot := by
  have waited := R.waited e slot mine found
  have fits := poised.orderly.slots e slot found
  rw [record]
  cases state : slot.state with
  | complete r =>
    rw [step_of_complete waited state]
    exact fits.described r state
  | completing => exact absurd state (poised.closed found)
  | pending work =>
    cases work with
    | container =>
      rw [step_of_container waited state]
      exact ⟨rfl, rfl, rfl, rfl, rfl, (fits.bare (.inr state)).symm⟩
    | type h =>
      rw [step_of_type waited state rfl]
      exact completeType_describes recollect _ (fits.announced h state)

theorem record_modifiers (mine : done e) {slot : Slot} {h : TypeHeader} (found : s₀.slot? e = some slot)
    (state : slot.state = .pending (.type h)) : (R.record e).modifiers = modifiersOf h (s₀.nestingOf slot) := by
  have waited := R.waited e slot mine found
  have under : s₀.Underlies ((R.before e).setState e .completing) := (R.turn e mine).underlies.begin e
  have plain : ¬ slot.kind.isContainer := by
    have announced := (poised.orderly.slots e slot found).announced h state
    exact ElementKind.isType_not_container (announced.kind ▸ announced.isType)
  rw [record, step_of_type waited state rfl, completeType_modifiers, under.nestingOf poised.sound.toConsistent found plain]

noncomputable def extend (e : ElementId) (there : s₀.HasElement e) (new : ¬ done e)
    (lower : ∀ e', s₀.HasElement e' → s₀.rank e' < s₀.rank e → done e') :
    Reference s₀ fun e' => done e' ∨ e' = e := by
  classical
  have step_ : s₀.Steady (step recollect e R.store).2 ∧ R.store.Endures (step recollect e R.store).2 ∧
      R.store.Precedes (step recollect e R.store).2 ∧ (step recollect e R.store).2.objectUsage = R.store.objectUsage := by
    obtain ⟨slot, found⟩ := has_element_iff.mp there
    exact step_recollect_steady R.steady (R.waits e slot new found)
  have old (e' : ElementId) (mine : done e') : e' ≠ e := fun same => new (same ▸ mine)
  let before (e' : ElementId) : Store := if e' = e then R.store else R.before e'
  have before_new : before e = R.store := if_pos rfl
  have before_old (e' : ElementId) (mine : done e') : before e' = R.before e' := if_neg (old e' mine)
  exact
    { store := (step recollect e R.store).2
      before
      steady := step_.1
      waits := fun e' slot other found => by
        have apart : e' ≠ e := fun same => other (.inr same)
        exact step_recollect_spares R.store e e' slot apart (R.waits e' slot (fun mine => other (.inl mine)) found)
      there := by
        rintro e' (mine | rfl)
        · exact R.there e' mine
        · exact there
      turn := by
        rintro e' (mine | rfl)
        · rw [before_old e' mine]
          exact R.turn e' mine
        · rw [before_new]
          exact R.steady
      waited := by
        rintro e' slot (mine | rfl) found
        · rw [before_old e' mine]
          exact R.waited e' slot mine found
        · rw [before_new]
          exact R.waits e' slot new found
      ranked := by
        rintro e' e'' (mine | rfl) there' less
        · rw [before_old e' mine]
          exact R.ranked e' e'' mine there' less
        · rw [before_new, isComplete, R.complete poised (lower e'' there' less)]
          rfl
      usage := by
        rintro e' (mine | rfl)
        · rw [before_old e' mine, step_.2.2.2]
          exact R.usage e' mine
        · rw [before_new, step_.2.2.2]
      endures := by
        rintro e' (mine | rfl)
        · rw [before_old e' mine]
          exact (R.endures e' mine).trans step_.2.1
        · rw [before_new]
          exact ⟨fun _ _ => id, fun _ _ => id, fun _ _ => id⟩
      precedes := by
        rintro e' (mine | rfl)
        · rw [before_old e' mine]
          exact (R.precedes e' mine).trans step_.2.2.1
        · rw [before_new]
          exact ⟨Nat.le_refl _, Nat.le_refl _⟩
      apart := by
        rintro e' e'' (mine | rfl) (mine' | rfl) other
        · rw [before_old e' mine, before_old e'' mine']
          exact R.apart e' e'' mine mine' other
        · rw [before_old e' mine, before_new]
          exact .inl (R.precedes e' mine)
        · rw [before_old e'' mine', before_new]
          exact .inr (R.precedes e'' mine')
        · exact absurd rfl other }

end Reference

theorem Poised.start (poised : s₀.Poised) : s₀.Steady (StoreM.objectType s₀).2 := by
  have ext : s₀.Extends (StoreM.objectType s₀).2 := (objectType_ensures poised.sound.toConsistent).1
  have keeps : s₀.Keeps (StoreM.objectType s₀).2 := keeping_objectType s₀
  have spares : s₀.Spares (fun _ => True) (StoreM.objectType s₀).2 := keeping_objectType s₀
  have usage : ((StoreM.objectType s₀).2.objectUsage.isSome ∨ s₀.objectElement? = none) ∧
      (s₀.objectUsage = none → ∀ t, (StoreM.objectType s₀).2.objectUsage = some t → ¬ s₀.HasType t) := by
    cases usage : s₀.objectUsage with
    | some t =>
      rw [StoreM.objectType_of_usage usage, usage]
      exact ⟨.inl rfl, nofun⟩
    | none =>
      cases named : s₀.objectElement? with
      | none =>
        rw [StoreM.objectType_of_absent usage named, usage]
        exact ⟨.inr rfl, fun _ => nofun⟩
      | some o =>
        rw [StoreM.objectType_of_first usage named]
        refine ⟨.inl rfl, ?_⟩
        rintro _ _ ⟨⟩
        exact Nat.lt_irrefl _
  exact
    { consistent := ext.consistent
      closed := fun e isOpen => ((keeps.opens e).mp isOpen).elim (poised.sound.settled e) id
      underlies :=
        ⟨fun e slot found => ⟨slot.state, spares e slot trivial found, fun _ => id⟩, fun t shape => ext.grows.shape,
          ext.typeElements⟩
      endures := by
        refine ⟨fun _ _ => ext.grows.kind, fun e r complete => ?_, fun t shape => ext.grows.shape⟩
        obtain ⟨slot, found, state⟩ := record?_eq_some_iff.mp complete
        exact record?_eq_some_iff.mpr ⟨slot, spares e slot trivial found, state⟩
      usage := usage.1
      reuses := fun t before => ext.grows.object t before
      spare := usage.2 }

noncomputable def Poised.reference (poised : s₀.Poised) : Reference s₀ fun _ => False where
  store := (StoreM.objectType s₀).2
  before _ := s₀
  steady := poised.start
  waits e slot _ found := (keeping_objectType s₀ : s₀.Spares (fun _ => True) _) e slot trivial found
  there _ := False.elim
  turn _ := False.elim
  waited _ _ := False.elim
  ranked _ _ := False.elim
  usage _ := False.elim
  endures _ := False.elim
  precedes _ := False.elim
  apart _ _ := False.elim

theorem Reference.finish (poised : s₀.Poised) (done : Finset ElementId) (R : Reference s₀ (· ∈ done)) :
    Nonempty (Reference s₀ s₀.HasElement) := by
  classical
  by_cases rest : (s₀.ids.toFinset \ done).Nonempty
  · obtain ⟨e, mem, least⟩ := Finset.exists_min_image _ s₀.rank rest
    obtain ⟨listed, new⟩ := Finset.mem_sdiff.mp mem
    have there : s₀.HasElement e := mem_ids.mp (List.mem_toFinset.mp listed)
    have lower (e' : ElementId) (there' : s₀.HasElement e') (less : s₀.rank e' < s₀.rank e) : e' ∈ done := by
      by_contra other
      have listed' := List.mem_toFinset.mpr (mem_ids.mpr there')
      exact absurd (least e' (Finset.mem_sdiff.mpr ⟨listed', other⟩)) (Nat.not_le_of_lt less)
    have more := R.extend poised e there new lower
    have fewer : (s₀.ids.toFinset \ insert e done).card < (s₀.ids.toFinset \ done).card := by
      refine Finset.card_lt_card ⟨Finset.sdiff_subset_sdiff (Finset.Subset.refl _) (Finset.subset_insert e done), ?_⟩
      exact fun within => (Finset.mem_sdiff.mp (within mem)).2 (Finset.mem_insert_self e done)
    refine Reference.finish poised (insert e done) ?_
    rwa [show (fun e' => e' ∈ done ∨ e' = e) = (· ∈ insert e done) from
      funext fun e' => by rw [Finset.mem_insert, or_comm]] at more
  · rw [Finset.not_nonempty_iff_eq_empty, Finset.sdiff_eq_empty_iff_subset] at rest
    have all : (· ∈ done) = s₀.HasElement := by
      refine funext fun e => propext ⟨R.there e, fun there => ?_⟩
      exact rest (List.mem_toFinset.mpr (mem_ids.mpr there))
    exact ⟨all ▸ R⟩
termination_by (s₀.ids.toFinset \ done).card

/-- There is a store in which all that was entered is complete, each element after those of lower rank. -/
theorem Poised.has_reference (poised : s₀.Poised) : Nonempty (Reference s₀ s₀.HasElement) := by
  refine Reference.finish poised ∅ ?_
  have start := poised.reference
  rwa [show (fun _ => False) = (· ∈ (∅ : Finset ElementId)) from funext fun e => by simp] at start

end Store

end Nominal
