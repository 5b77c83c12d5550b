import Nominal.Proofs.Order.Reference
import Nominal.Proofs.Store.Lexical
/-!
What a declaration is understood to say when its element is completed. The record that is published says what the
header says, where names mean what is in sight; whatever is completed on the way is understood in the same manner.
-/

namespace Nominal

open Completion

namespace Store

def Lent (s : Store) : Prop :=
  ∀ e r, s.record? e = some r → r.kind.isParameterizable → ∃ vs, s.Lends r.typeParameters vs

structure Understood (s : Store) (e : ElementId) (h : TypeHeader) (r : ElementRecord) : Prop where
  complete : s.record? e = some r
  generic : r.kind.isParameterizable
  reads : s.ReadsHeader s.Binds e h r
  means : ∀ x, ∃ b, s.Binds e x b

def Understands (s : Store) (e : ElementId) (slot : Slot) (h : TypeHeader) : Prop :=
  s.slot? e = some slot ∨ ∃ r, s.Understood e h r

/-- On the way from `s` to `s'` nothing was entered that waits, what was open stayed open unless it was one of `mine`,
and the declarations that waited were understood as far as they wait no longer. -/
structure Course (mine : ElementId → Prop) (s s' : Store) : Prop where
  conserves : s.Conserves s'
  underlies : s.Underlies s'
  waiting : s'.waiting ⊆ s.waiting
  opens : ∀ e, s.Open e → ¬ mine e → s'.Open e
  lent : s.Orderly → s.Lent → s'.Lent
  understands : s.Orderly → ∀ e slot h, s.slot? e = some slot → slot.state = .pending (.type h) → s'.Understands e slot h

def ShowsEnums (s : Store) (sc : Scope) (ts : List TypeExpr) : Prop :=
  ∀ t ∈ ts, ∀ e, sc.element? s t = some e → s.kind? e = some .enumType

/-- Whatever waits shows constants of enumerations only. -/
def ShowsOnlyEnums (s : Store) : Prop :=
  ∀ e slot h, s.slot? e = some slot → slot.state = .pending (.type h) → s.ShowsEnums (s.scopeOf e slot) h.shown

/-- What may be relied on whenever an element is asked for. -/
structure Clear (s : Store) : Prop where
  orderly : s.Orderly
  listed : ∀ name e, s.typeElement? name = some e → s.HasElement e
  initial : ∀ i shape, TypeShape.initial[i]? = some shape → s.shape? ⟨i⟩ = some shape
  lent : s.Lent
  shows : s.ShowsOnlyEnums
  housed : ∀ e slot h o k, s.slot? e = some slot → slot.state = .pending (.type h) → slot.enclosing = some o →
    s.kind? o = some k → ¬ k.isExecutable

def Askable (s : Store) (e : ElementId) : Prop :=
  ¬ s.isPending e ∨ s.kind? e = some .enumType ∨ ∀ a, s.Open a → e.index < a.index

variable {s s' s'' : Store} {e : ElementId} {slot : Slot} {mine : ElementId → Prop}

theorem Understood.conserve {h : TypeHeader} {r : ElementRecord} (understood : s.Understood e h r) (move : s.Conserves s')
    (orderly : s.Orderly) : s'.Understood e h r where
  complete := move.record orderly understood.complete (ElementKind.parameterizable_not_container understood.generic)
  generic := understood.generic
  reads := understood.reads.mono (fun _ _ _ binds => binds.conserve move orderly) move orderly
  means x := by
    obtain ⟨b, binds⟩ := understood.means x
    exact ⟨b, binds.conserve move orderly⟩

theorem Understands.conserve {h : TypeHeader} (understands : s.Understands e slot h) (course : s.Course mine s')
    (orderly : s.Orderly) (state : slot.state = .pending (.type h)) : s'.Understands e slot h := by
  rcases understands with waits | ⟨r, understood⟩
  · exact course.understands orderly e slot h waits state
  · exact .inr ⟨r, understood.conserve course.conserves orderly⟩

namespace Course

theorem refl (s : Store) : s.Course mine s where
  conserves := .refl s
  underlies := .refl s
  waiting := Finset.Subset.refl _
  opens _ isOpen _ := isOpen
  lent _ := id
  understands _ _ _ _ found _ := .inl found

theorem trans (first : s.Course mine s') (second : s'.Course mine s'') : s.Course mine s'' where
  conserves := first.conserves.trans second.conserves
  underlies := first.underlies.trans second.underlies
  waiting := second.waiting.trans first.waiting
  opens e isOpen other := second.opens e (first.opens e isOpen other) other
  lent orderly := second.lent (first.conserves.orderly orderly) ∘ first.lent orderly
  understands orderly e slot h found state :=
    (first.understands orderly e slot h found state).conserve second (first.conserves.orderly orderly) state

theorem open_slot (course : s.Course mine s') (found : s.slot? e = some slot) (state : slot.state = .completing) (other : ¬ mine e) :
    s'.slot? e = some slot := by
  obtain ⟨state', found', _⟩ := course.underlies.slots e slot found
  obtain ⟨slot', again, completing⟩ := course.opens e ⟨slot, found, state⟩ other
  cases found'.symm.trans again
  cases slot
  cases state
  cases completing
  exact found'

theorem weaken {more : ElementId → Prop} (course : s.Course mine s')
    (wider : ∀ e, s.Open e → mine e → more e) : s.Course more s' :=
  { course with opens := fun e isOpen other => course.opens e isOpen fun same => other (wider e isOpen same) }

theorem of_spares (keeps : s.Keeps s') (follows : s.Follows s') (spares : s.Spares s.HasElement s')
    (typeElements : s'.typeElements = s.typeElements) (waiting : s'.waiting ⊆ s.waiting)
    (plain : ∀ e, s'.IsGeneric e → s.IsGeneric e) : s.Course mine s' where
  conserves := keeps.conserves follows
  underlies :=
    ⟨fun e slot found => ⟨slot.state, spares e slot (has_element_iff.mpr ⟨slot, found⟩) found, fun _ => id⟩, keeps.shapes,
      typeElements⟩
  waiting := waiting
  opens e isOpen _ := (keeps.opens e).mpr (.inl isOpen)
  lent orderly lent e r complete generic := by
    obtain ⟨k, known, _⟩ := plain e ⟨r.kind, (follows.orderly orderly).kind_of_record complete, generic⟩
    obtain ⟨slot, found, rfl⟩ := kind?_eq_some_iff.mp known
    obtain ⟨slot', found', state⟩ := record?_eq_some_iff.mp complete
    cases (spares e slot (has_element_iff.mpr ⟨slot, found⟩) found).symm.trans found'
    obtain ⟨vs, lends⟩ := lent e r (record?_eq_some_iff.mpr ⟨_, found, state⟩) generic
    exact ⟨vs, lends.conserve (keeps.conserves follows) orderly⟩
  understands _ e slot _ found _ := .inl (spares e slot (has_element_iff.mpr ⟨slot, found⟩) found)

end Course

def Adjoins (s s' : Store) : Prop := s'.typeElements = s.typeElements ∧ ∀ e, s'.IsGeneric e → s.IsGeneric e

theorem isGeneric_congr (same : s'.kind? e = s.kind? e) : s'.IsGeneric e ↔ s.IsGeneric e := by
  rw [IsGeneric, same, IsGeneric]

theorem kind_setState (e a : ElementId) (state : SlotState) : (s.setState e state).kind? a = s.kind? a := by
  change (s.updateSlot e _).kind? a = _
  rw [kind?, slot?_update, kind?]
  split
  · rw [Option.map_map]
    rfl
  · rfl

theorem adjoins_setState (e : ElementId) (state : SlotState) : s.Adjoins (s.setState e state) :=
  ⟨rfl, fun a generic => (isGeneric_congr (kind_setState e a state)).mp generic⟩

theorem adjoins_pushSlot (simple : ¬ slot.kind.isParameterizable) : s.Adjoins (s.pushSlot slot) := by
  refine ⟨rfl, fun e ⟨k, known, generic⟩ => ?_⟩
  rw [kind?, slot?_push] at known
  split at known
  · cases known
    exact absurd generic simple
  · exact ⟨k, known, generic⟩

end Store

open Store

instance : Gentle Adjoins where
  refl _ := ⟨rfl, fun _ => id⟩
  trans first second := ⟨second.1.trans first.1, fun e generic => first.2 e (second.2 e generic)⟩
  aside elements _ _ indexes _ :=
    ⟨congrArg (·.2.2) indexes, fun e => (isGeneric_congr (by rw [kind?, slot?, elements]; rfl)).mp⟩
  pushType _ _ := ⟨rfl, fun _ => id⟩
  pushSettled _ _ simple _ := adjoins_pushSlot simple

instance {mine : ElementId → Prop} : Gentle (Course mine) where
  refl := Course.refl
  trans := Course.trans
  aside elements types completions indexes reuses :=
    .of_spares (Mild.aside elements types completions indexes reuses) (follows_aside elements)
      (Mild.aside elements types completions indexes reuses) (congrArg (·.2.2) indexes) (waiting_congr elements).subset
      (Mild.aside (R := Adjoins) elements types completions indexes reuses).2
  pushType s shape := .of_spares (keeps_pushType shape) (follows_aside rfl) (fun _ _ _ => id) rfl (waiting_congr rfl).subset
    (Mild.pushType (R := Adjoins) s shape).2
  pushSettled {s slot r} state plain simple fits :=
    .of_spares (Gentle.pushSettled state plain simple fits)
      (follows_pushSlot fits fun _ generic => absurd generic simple) (spares_pushSlot slot) rfl
      (waiting_pushSlot (by simp [Slot.isPending, state])).subset (adjoins_pushSlot simple).2

namespace Store

section primitives

variable {s s' : Store} {e : ElementId} {slot : Slot} {mine : ElementId → Prop}

theorem course_pushSlot (fits : slot.Orderly ⟨s.elements.size⟩) (state : slot.state = .completing)
    (placed : s.Orderly → slot.kind.isParameterizable → ∀ o, slot.enclosing = some o → s.Encloses o)
    (plain : ¬ slot.kind.isContainer) : s.Course mine (s.pushSlot slot) where
  conserves := (keepsBut_pushSlot fun container => absurd container plain).conserves (follows_pushSlot fits placed)
  underlies := (Underlies.refl s).pushSlot slot
  waiting := (waiting_pushSlot (by simp [Slot.isPending, state])).subset
  opens e isOpen _ := by
    obtain ⟨old, found, completing⟩ := isOpen
    exact ⟨old, spares_pushSlot (p := s.HasElement) slot e old (has_element_iff.mpr ⟨old, found⟩) found, completing⟩
  lent orderly lent e r complete generic := by
    have follows := follows_pushSlot fits placed
    have conserves : s.Conserves (s.pushSlot slot) :=
      (keepsBut_pushSlot fun container => absurd container plain).conserves follows
    obtain ⟨slot', found, done⟩ := record?_eq_some_iff.mp complete
    rw [slot?_push] at found
    split at found
    · cases found
      cases state.symm.trans done
    · obtain ⟨vs, lends⟩ := lent e r (record?_eq_some_iff.mpr ⟨slot', found, done⟩) generic
      exact ⟨vs, lends.conserve conserves orderly⟩
  understands _ e old _ found _ :=
    .inl (spares_pushSlot (p := s.HasElement) slot e old (has_element_iff.mpr ⟨old, found⟩) found)

theorem conserves_publish {r : ElementRecord} (found : s.slot? e = some slot) (state : slot.state = .completing)
    (describes : r.Describes e slot) : s.Conserves (s.setState e (.complete r)) where
  toFollows := follows_publish found describes
  records a k r' known plain complete := by
    obtain ⟨slot', found', done⟩ := record?_eq_some_iff.mp complete
    have other : a ≠ e := by
      rintro rfl
      cases found.symm.trans found'
      cases state.symm.trans done
    exact record?_eq_some_iff.mpr ⟨slot', (slot?_setState_ne _ other).trans found', done⟩
  shapes _ _ found _ := found
  bound _ _ := id

theorem course_publish {r : ElementRecord} {vs : List (String × TypeId)} (found : s.slot? e = some slot) (state : slot.state = .completing)
    (describes : r.Describes e slot) (lends : s.Lends r.typeParameters vs) (may : mine e) :
    s.Course mine (s.setState e (.complete r)) where
  conserves := conserves_publish found state describes
  underlies := by
    refine ⟨fun a old there => ?_, fun _ _ => id, rfl⟩
    by_cases same : a = e
    · subst same
      exact ⟨.complete r, slot?_setState _ there, nofun⟩
    · exact ⟨old.state, (slot?_setState_ne _ same).trans there, fun _ => id⟩
  waiting := (waiting_publish found (by simp [Slot.isPending, state])).subset
  opens a isOpen other := by
    obtain ⟨old, there, completing⟩ := isOpen
    have apart : a ≠ e := by
      rintro rfl
      exact other may
    exact ⟨old, (slot?_setState_ne _ apart).trans there, completing⟩
  lent orderly lent a r' complete generic := by
    obtain ⟨slot', found', done⟩ := record?_eq_some_iff.mp complete
    have conserves := conserves_publish found state describes
    by_cases same : a = e
    · subst same
      cases (slot?_setState _ found).symm.trans found'
      cases done
      exact ⟨vs, lends.conserve conserves orderly⟩
    · rw [slot?_setState_ne _ same] at found'
      obtain ⟨ws, lends'⟩ := lent a r' (record?_eq_some_iff.mpr ⟨slot', found', done⟩) generic
      exact ⟨ws, lends'.conserve conserves orderly⟩
  understands _ a old h there pending := by
    have apart : a ≠ e := by
      rintro rfl
      cases found.symm.trans there
      cases state.symm.trans pending
    exact .inl ((slot?_setState_ne _ apart).trans there)

end primitives

section clear

variable {s s' : Store} {e : ElementId} {slot : Slot} {mine : ElementId → Prop} {sc sc' : Scope} {ts : List TypeExpr}

theorem Clear.showsEnums (clear : s.Clear) (under : s.Underlies s') (shows : s.ShowsEnums sc ts) (place : sc'.place = sc.place) :
    s'.ShowsEnums sc' ts := by
  intro t mem e found
  rw [element?_congr clear.listed under.typeElements (fun _ => under.arity) place] at found
  exact under.kind (shows t mem e found)

theorem Underlies.waited {work : Pending} (under : s.Underlies s') (waiting : s'.waiting ⊆ s.waiting)
    (found : s'.slot? e = some slot) (state : slot.state = .pending work) : s.slot? e = some slot := by
  have pending : s'.isPending e := by
    rw [isPending_of_slot found, Slot.isPending, state]
  have before := mem_waiting.mp (waiting (mem_waiting.mpr pending))
  obtain ⟨old, there, _⟩ := (Option.any_eq_true _ _).mp before
  obtain ⟨state', found', waits⟩ := under.slots e old there
  cases found.symm.trans found'
  have same := waits work state
  cases old
  cases same
  cases state
  exact there

theorem Orderly.generic (orderly : s.Orderly) {h : TypeHeader} (found : s.slot? e = some slot)
    (state : slot.state = .pending (.type h)) : slot.kind.isParameterizable := by
  have announced := (orderly.slots e slot found).announced h state
  rw [ElementKind.isParameterizable, ← announced.kind, announced.isType, Bool.true_or]

theorem Clear.move (clear : s.Clear) (under : s.Underlies s') (waiting : s'.waiting ⊆ s.waiting) (orderly : s'.Orderly)
    (lent : s'.Lent) : s'.Clear where
  orderly := orderly
  listed name e named := by
    rw [typeElement?, under.typeElements] at named
    exact under.there (clear.listed name e named)
  initial i shape there := under.types _ _ (clear.initial i shape there)
  lent := lent
  shows e slot h found state := by
    have before := under.waited waiting found state
    have encloses : s.Encloses e := ⟨slot, before, .inr (clear.orderly.generic before state)⟩
    refine clear.showsEnums under (clear.shows e slot h before state) ?_
    rw [scopeOf, scopeOf, under.packageName clear.orderly encloses]
  housed e slot h o k found state enclosing known := by
    have before := under.waited waiting found state
    obtain ⟨_, outer, there, _⟩ := clear.orderly.placed e slot o before (clear.orderly.generic before state) enclosing
    have known' : s.kind? o = some outer.kind := kind?_eq_some_iff.mpr ⟨outer, there, rfl⟩
    cases known.symm.trans (under.kind known')
    exact clear.housed e slot h o _ before state enclosing known'

theorem Course.clear (course : s.Course mine s') (clear : s.Clear) : s'.Clear :=
  clear.move course.underlies course.waiting (course.conserves.orderly clear.orderly) (course.lent clear.orderly clear.lent)

end clear

end Store

end Nominal
