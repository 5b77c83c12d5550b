import Nominal.Proofs.Order.Explaining
/-!
Two runs of one completion, side by side: one in whatever store the element is first asked for, the other in the
store to compare with, at the turn of the element. What they add is paired off as it is added.
-/

namespace Nominal

open Completion

/-- Where a completion sets out: the store that it finds, and what is known by then. -/
structure Outset where
  store : Store
  known : Renaming

/-- Handles of two stores in which one element is being completed: those that stood for each other before or
stand for each other since another element was completed, those that were added by the completion itself, and
the types among them that are type variables which a name may stand for. -/
structure Pairing (out : Outset) where
  known : Renaming
  own : Renaming
  bound : TypeId → TypeId → Prop

variable {out : Outset}

instance : LE (Pairing out) where
  le w v := w.known ≤ v.known ∧ w.own ≤ v.own ∧ ∀ {t u}, w.bound t u → v.bound t u

theorem Pairing.le_refl (w : Pairing out) : w ≤ w := ⟨⟨id, id⟩, ⟨id, id⟩, id⟩

theorem Pairing.le_trans {u v w : Pairing out} (first : u ≤ v) (second : v ≤ w) : u ≤ w :=
  ⟨⟨second.1.1 ∘ first.1.1, second.1.2 ∘ first.1.2⟩, ⟨second.2.1.1 ∘ first.2.1.1, second.2.1.2 ∘ first.2.1.2⟩,
    second.2.2 ∘ first.2.2⟩

namespace Pairing

def addElement (w : Pairing out) (a b : ElementId) : Pairing out :=
  { w with own := { w.own with element := fun a' b' => w.own.element a' b' ∨ a' = a ∧ b' = b } }

def addType (w : Pairing out) (t u : TypeId) : Pairing out :=
  { w with own := { w.own with type := fun t' u' => w.own.type t' u' ∨ t' = t ∧ u' = u } }

def bind (w : Pairing out) (t u : TypeId) : Pairing out :=
  { w with bound := fun t' u' => w.bound t' u' ∨ t' = t ∧ u' = u }

def learn (w : Pairing out) (π : Renaming) : Pairing out := { w with known := π }

theorem le_addElement (w : Pairing out) (a b : ElementId) : w ≤ w.addElement a b := ⟨⟨id, id⟩, ⟨.inl, id⟩, id⟩

theorem le_addType (w : Pairing out) (t u : TypeId) : w ≤ w.addType t u := ⟨⟨id, id⟩, ⟨id, .inl⟩, id⟩

theorem le_bind (w : Pairing out) (t u : TypeId) : w ≤ w.bind t u := ⟨⟨id, id⟩, ⟨id, id⟩, .inl⟩

end Pairing

structure Outset.Leads (out : Outset) (w : Pairing out) (s : Store) : Prop where
  elements : ∀ {e}, out.store.HasElement e → s.HasElement e
  types : ∀ {t}, out.store.HasType t → s.HasType t
  element : ∀ {a b}, w.known.element a b ∨ w.own.element a b → out.known.element a b ∨ ¬ out.store.HasElement a
  type : ∀ {t u}, w.known.type t u ∨ w.own.type t u → out.known.type t u ∨ ¬ out.store.HasType t

namespace Outset.Leads

variable {w : Pairing out} {s s' : Store}

theorem move (leads : out.Leads w s) (elements : ∀ {e}, s.HasElement e → s'.HasElement e)
    (types : ∀ {t}, s.HasType t → s'.HasType t) : out.Leads w s' :=
  { leads with
    elements := fun there => elements (leads.elements there)
    types := fun there => types (leads.types there) }

theorem addElement (leads : out.Leads w s) {a : ElementId} (new : ¬ s.HasElement a) (b : ElementId) :
    out.Leads (w.addElement a b) s :=
  { leads with
    element := by
      rintro a' b' (known | own | ⟨rfl, rfl⟩)
      · exact leads.element (.inl known)
      · exact leads.element (.inr own)
      · exact .inr fun old => new (leads.elements old) }

theorem addType (leads : out.Leads w s) {t : TypeId} (new : ¬ s.HasType t) (u : TypeId) :
    out.Leads (w.addType t u) s :=
  { leads with
    type := by
      rintro t' u' (known | own | ⟨rfl, rfl⟩)
      · exact leads.type (.inl known)
      · exact leads.type (.inr own)
      · exact .inr fun old => new (leads.types old) }

theorem learn (leads : out.Leads w s) {π : Renaming}
    (element : ∀ {a b}, π.element a b → w.known.element a b ∨ ¬ s.HasElement a)
    (type : ∀ {t u}, π.type t u → w.known.type t u ∨ ¬ s.HasType t) : out.Leads (w.learn π) s :=
  { leads with
    element := by
      rintro a b (known | own)
      · exact (element known).elim (fun old => leads.element (.inl old)) fun new => .inr fun old => new (leads.elements old)
      · exact leads.element (.inr own)
    type := by
      rintro t u (known | own)
      · exact (type known).elim (fun old => leads.type (.inl old)) fun new => .inr fun old => new (leads.types old)
      · exact leads.type (.inr own) }

end Outset.Leads

namespace Store

variable {s₀ : Store}

namespace Reference

variable (R : Reference s₀ s₀.HasElement) (x : ElementId)

def near (w : Pairing out) : Renaming where
  element a b := w.own.element a b ∨ w.known.element a b ∧ (R.before x).HasElement b
  type t u := w.own.type t u ∨ w.known.type t u ∧ (R.before x).HasType u

def Asks (w : Pairing out) (e e' : ElementId) : Prop :=
  (e = e' ∧ s₀.HasElement e ∧ (e = x ∨ s₀.rank e < s₀.rank x)) ∨ w.own.element e e' ∨
    (w.known.element e e' ∧ ¬ s₀.isPending e ∧ (R.before x).isComplete e')

structure Within (r : Store) : Prop where
  slot : ∃ slot, s₀.slot? x = some slot ∧ slot.isPending ∧ r.slot? x = some { slot with state := .completing }
  spares : (R.before x).Spares (· ≠ x) r
  shapes : ∀ t shape, (R.before x).shape? t = some shape → r.shape? t = some shape
  typeElements : r.typeElements = s₀.typeElements
  usage : r.objectUsage = R.store.objectUsage

/-- The completion of `x` is on its way in both stores, and has come equally far. -/
structure Abreast (w : Pairing out) (s r : Store) : Prop where
  explains : R.Explains w.known s
  busy : s.Open x
  opens : ∀ e, s₀.HasElement e → s.Open e → e = x ∨ s₀.rank x < s₀.rank e
  within : R.Within x r
  leads : out.Leads w s
  once : w.own.OneToOne
  element : ∀ {a b}, w.own.element a b → ∃ slot slot', s.slot? a = some slot ∧ r.slot? b = some slot' ∧
    (R.near x w).Slot slot slot' ∧ ¬ slot.kind.isContainer
  fresh : ∀ {a b}, w.own.element a b → ¬ (R.before x).HasElement b ∧ ∀ b', ¬ w.known.element a b'
  type : ∀ {t u}, w.own.type t u → ∃ shape shape', s.shape? t = some shape ∧ r.shape? u = some shape' ∧
    (R.near x w).Shape shape shape'
  freshType : ∀ {t u}, w.own.type t u → ¬ (R.before x).HasType u ∧ ∀ u', ¬ w.known.type t u'
  binds : ∀ {t u}, w.bound t u → (R.near x w).type t u ∧ ∃ p p' upper upper',
    s.shape? t = some (.typeVariable p upper) ∧ r.shape? u = some (.typeVariable p' upper') ∧ R.Asks x w p p'

end Reference

open Reference

variable {R : Reference s₀ s₀.HasElement} {x : ElementId} {w v : Pairing out} {s r : Store}

theorem Reference.near_mono (le : w ≤ v) : R.near x w ≤ R.near x v :=
  ⟨Or.imp le.2.1.1 (And.imp_left le.1.1), Or.imp le.2.1.2 (And.imp_left le.1.2)⟩

theorem Reference.Asks.mono (le : w ≤ v) {e e' : ElementId} (asks : R.Asks x w e e') : R.Asks x v e e' :=
  asks.imp_right (Or.imp le.2.1.1 (And.imp_left le.1.1))

section within

theorem Reference.Within.has_element (within : R.Within x r) {e : ElementId} (there : (R.before x).HasElement e) :
    r.HasElement e := by
  by_cases here : e = x
  · subst here
    obtain ⟨_, _, _, found⟩ := within.slot
    exact has_element_iff.mpr ⟨_, found⟩
  · obtain ⟨slot, found⟩ := has_element_iff.mp there
    exact has_element_iff.mpr ⟨slot, within.spares e slot here found⟩

theorem Reference.Within.has_type (within : R.Within x r) {t : TypeId} (there : (R.before x).HasType t) :
    r.HasType t := by
  obtain ⟨shape, found⟩ := has_type_iff.mp there
  exact has_type_iff.mpr ⟨shape, within.shapes t shape found⟩

theorem Reference.Within.under (within : R.Within x r) : s₀.Underlies r := by
  obtain ⟨slot, found₀, _, found⟩ := within.slot
  have there : s₀.HasElement x := has_element_iff.mpr ⟨slot, found₀⟩
  have under := (R.turn x there).underlies
  refine ⟨fun e slot' found' => ?_, fun t shape found => within.shapes t shape (under.types t shape found),
    within.typeElements⟩
  by_cases here : e = x
  · subst here
    cases found₀.symm.trans found'
    exact ⟨.completing, found, nofun⟩
  · obtain ⟨state, before, waits⟩ := under.slots e slot' found'
    exact ⟨state, within.spares e _ here before, waits⟩

theorem Reference.Within.pushType (within : R.Within x r) (shape : TypeShape) : R.Within x (r.pushType shape) :=
  { within with
    spares := within.spares
    shapes := fun t old found => by
      have there : t.index < r.types.size := within.has_type (has_type_iff.mpr ⟨old, found⟩)
      rw [shape?_push, if_neg (Nat.ne_of_lt there)]
      exact within.shapes t old found }

theorem Reference.Within.pushSlot (within : R.Within x r) (slot : Slot) : R.Within x (r.pushSlot slot) where
  slot := by
    obtain ⟨slot', found₀, waits, found⟩ := within.slot
    have there : x.index < r.elements.size := has_element_iff.mpr ⟨_, found⟩
    exact ⟨slot', found₀, waits, by rw [slot?_push, if_neg (Nat.ne_of_lt there), found]⟩
  spares := Calm.trans within.spares (spares_pushSlot slot)
  shapes := within.shapes
  typeElements := within.typeElements
  usage := within.usage

theorem Reference.Within.updateShape (within : R.Within x r) {t : TypeId} (new : ¬ (R.before x).HasType t)
    (there : r.HasType t) (shape : TypeShape) : R.Within x (r.updateShape t shape) :=
  { within with
    spares := within.spares
    shapes := fun u old found => by
      have other : u ≠ t := fun same => new (same ▸ has_type_iff.mpr ⟨old, found⟩)
      rw [shape?_update there, if_neg other]
      exact within.shapes u old found }

theorem Reference.Within.setState (within : R.Within x r) {e : ElementId} (new : ¬ (R.before x).HasElement e)
    (state : SlotState) : R.Within x (r.setState e state) where
  slot := by
    obtain ⟨slot, found₀, waits, found⟩ := within.slot
    have there : s₀.HasElement x := has_element_iff.mpr ⟨slot, found₀⟩
    have other : x ≠ e := fun same => new (same ▸ (R.turn x there).underlies.there there)
    refine ⟨slot, found₀, waits, ?_⟩
    change (r.updateSlot e _).slot? x = _
    rw [slot?_update, if_neg other, found]
  spares a slot other found := by
    have apart : a ≠ e := fun same => new (same ▸ has_element_iff.mpr ⟨slot, found⟩)
    change (r.updateSlot e _).slot? a = _
    rw [slot?_update, if_neg apart]
    exact within.spares a slot other found
  shapes := within.shapes
  typeElements := within.typeElements
  usage := within.usage

end within

section primitives

variable {a b : ElementId} {t u : TypeId}

namespace Reference.Abreast

variable (ab : R.Abreast x w s r)

include ab

theorem there (own : w.own.element a b) : s.HasElement a ∧ r.HasElement b := by
  obtain ⟨slot, slot', found, found', _⟩ := ab.element own
  exact ⟨has_element_iff.mpr ⟨slot, found⟩, has_element_iff.mpr ⟨slot', found'⟩⟩

theorem type_there (own : w.own.type t u) : s.HasType t ∧ r.HasType u := by
  obtain ⟨shape, shape', found, found', _⟩ := ab.type own
  exact ⟨has_type_iff.mpr ⟨shape, found⟩, has_type_iff.mpr ⟨shape', found'⟩⟩

theorem entered : s₀.HasElement x := by
  obtain ⟨slot, found, _⟩ := ab.within.slot
  exact has_element_iff.mpr ⟨slot, found⟩

theorem ne_own (own : w.own.element a b) {e : ElementId} (entered : s₀.HasElement e) : e ≠ a :=
  fun same => (ab.fresh own).2 e (same ▸ ab.explains.entered e entered)

theorem pushType {shape shape' : TypeShape} (same : (R.near x w).Shape shape shape') :
    R.Abreast x (w.addType ⟨s.types.size⟩ ⟨r.types.size⟩) (s.pushType shape) (r.pushType shape') := by
  have near := near_mono (R := R) (x := x) (w.le_addType ⟨s.types.size⟩ ⟨r.types.size⟩)
  have old {s : Store} {t : TypeId} (shape : TypeShape) (there : s.HasType t) : (s.pushType shape).shape? t = s.shape? t := by
    rw [shape?_push, if_neg (Nat.ne_of_lt there)]
  have last {s : Store} (shape : TypeShape) : (s.pushType shape).shape? ⟨s.types.size⟩ = some shape := by
    rw [shape?_push, if_pos rfl]
  have before : ¬ (R.before x).HasType ⟨r.types.size⟩ := fun there =>
    absurd (ab.within.has_type there) (Nat.lt_irrefl _)
  refine
    { explains := ab.explains.restate (ab.explains.under.pushType shape) (fun _ _ _ => rfl)
        (fun t u same => old shape (ab.explains.type_there same)) rfl
      busy := ab.busy
      opens := ab.opens
      within := ab.within.pushType shape'
      leads := (ab.leads.addType (Nat.lt_irrefl _) _).move id fun there => there.trans_le (by simp [Store.pushType])
      once := ⟨ab.once.element, ?_⟩
      element := fun own => ?_
      fresh := ab.fresh
      type := ?_
      freshType := ?_
      binds := fun bound => ?_ }
  · rintro t u t' u' (own | ⟨rfl, rfl⟩) (own' | ⟨rfl, rfl⟩)
    · exact ab.once.type own own'
    · obtain ⟨there, there'⟩ := ab.type_there own
      exact iff_of_false (fun same => absurd (same ▸ there) (Nat.lt_irrefl _))
        fun same => absurd (same ▸ there') (Nat.lt_irrefl _)
    · obtain ⟨there, there'⟩ := ab.type_there own'
      exact iff_of_false (fun same => absurd (same ▸ there) (Nat.lt_irrefl _))
        fun same => absurd (same ▸ there') (Nat.lt_irrefl _)
    · exact iff_of_true rfl rfl
  · obtain ⟨slot, slot', found, found', same, plain⟩ := ab.element own
    exact ⟨slot, slot', found, found', same.mono near, plain⟩
  · rintro t u (own | ⟨rfl, rfl⟩)
    · obtain ⟨shape₁, shape₂, found, found', same⟩ := ab.type own
      obtain ⟨there, there'⟩ := ab.type_there own
      exact ⟨shape₁, shape₂, (old shape there).trans found, (old shape' there').trans found', same.mono near⟩
    · exact ⟨shape, shape', last shape, last shape', same.mono near⟩
  · rintro t u (own | ⟨rfl, rfl⟩)
    · exact ab.freshType own
    · exact ⟨before, fun u' known => absurd (ab.explains.type_there known) (Nat.lt_irrefl _)⟩
  · obtain ⟨same, p, p', upper, upper', found, found', asks⟩ := ab.binds bound
    refine ⟨near.2 same, p, p', upper, upper', ?_, ?_, asks.mono (w.le_addType _ _)⟩
    · rw [old shape (has_type_iff.mpr ⟨_, found⟩), found]
    · rw [old shape' (has_type_iff.mpr ⟨_, found'⟩), found']

theorem bind (same : (R.near x w).type t u) {p p' : ElementId} {upper upper' : TypeId}
    (found : s.shape? t = some (.typeVariable p upper)) (found' : r.shape? u = some (.typeVariable p' upper'))
    (asks : R.Asks x w p p') : R.Abreast x (w.bind t u) s r :=
  { ab with
    leads := { ab.leads with }
    binds := by
      rintro t' u' (bound | ⟨rfl, rfl⟩)
      · exact ab.binds bound
      · exact ⟨same, p, p', upper, upper', found, found', asks⟩ }

theorem pushSlot {slot slot' : Slot}
    (same : (R.near x (w.addElement ⟨s.elements.size⟩ ⟨r.elements.size⟩)).Slot slot slot')
    (plain : ¬ slot.kind.isContainer) :
    R.Abreast x (w.addElement ⟨s.elements.size⟩ ⟨r.elements.size⟩) (s.pushSlot slot) (r.pushSlot slot') := by
  have near := near_mono (R := R) (x := x) (w.le_addElement ⟨s.elements.size⟩ ⟨r.elements.size⟩)
  have old {s : Store} {e : ElementId} (slot : Slot) (there : s.HasElement e) : (s.pushSlot slot).slot? e = s.slot? e := by
    rw [slot?_push, if_neg (Nat.ne_of_lt there)]
  have last {s : Store} (slot : Slot) : (s.pushSlot slot).slot? ⟨s.elements.size⟩ = some slot := by
    rw [slot?_push, if_pos rfl]
  have before : ¬ (R.before x).HasElement ⟨r.elements.size⟩ := fun there =>
    absurd (ab.within.has_element there) (Nat.lt_irrefl _)
  refine
    { explains := ab.explains.restate (ab.explains.under.pushSlot slot)
        (fun a b same => record?_congr (old slot (ab.explains.there same))) (fun _ _ _ => rfl) rfl
      busy := ?_
      opens := fun e entered isOpen => ab.opens e entered ?_
      within := ab.within.pushSlot slot'
      leads := (ab.leads.addElement (Nat.lt_irrefl _) _).move (fun there => there.trans_le (by simp [Store.pushSlot])) id
      once := ⟨?_, ab.once.type⟩
      element := ?_
      fresh := ?_
      type := fun own => ?_
      freshType := ab.freshType
      binds := fun bound => ?_ }
  · obtain ⟨slot', found, state⟩ := ab.busy
    exact ⟨slot', (old slot (has_element_iff.mpr ⟨slot', found⟩)).trans found, state⟩
  · obtain ⟨slot', found, state⟩ := isOpen
    exact ⟨slot', (old slot (ab.explains.under.there entered)).symm.trans found, state⟩
  · rintro a b a' b' (own | ⟨rfl, rfl⟩) (own' | ⟨rfl, rfl⟩)
    · exact ab.once.element own own'
    · obtain ⟨there, there'⟩ := ab.there own
      exact iff_of_false (fun same => absurd (same ▸ there) (Nat.lt_irrefl _))
        fun same => absurd (same ▸ there') (Nat.lt_irrefl _)
    · obtain ⟨there, there'⟩ := ab.there own'
      exact iff_of_false (fun same => absurd (same ▸ there) (Nat.lt_irrefl _))
        fun same => absurd (same ▸ there') (Nat.lt_irrefl _)
    · exact iff_of_true rfl rfl
  · rintro a b (own | ⟨rfl, rfl⟩)
    · obtain ⟨slot₁, slot₂, found, found', same, plain⟩ := ab.element own
      obtain ⟨there, there'⟩ := ab.there own
      exact ⟨slot₁, slot₂, (old slot there).trans found, (old slot' there').trans found', same.mono near, plain⟩
    · exact ⟨slot, slot', last slot, last slot', same, plain⟩
  · rintro a b (own | ⟨rfl, rfl⟩)
    · exact ab.fresh own
    · exact ⟨before, fun b' known => absurd (ab.explains.there known) (Nat.lt_irrefl _)⟩
  · obtain ⟨shape, shape', found, found', same⟩ := ab.type own
    exact ⟨shape, shape', found, found', same.mono near⟩
  · obtain ⟨same, p, p', upper, upper', found, found', asks⟩ := ab.binds bound
    exact ⟨near.2 same, p, p', upper, upper', found, found', asks.mono (w.le_addElement _ _)⟩

theorem updateShape (own : w.own.type t u) {p p' : ElementId} (parameter : w.own.element p p') {upper upper' : TypeId}
    (bound : (R.near x w).type upper upper') :
    R.Abreast x w (s.updateShape t (.typeVariable p upper)) (r.updateShape u (.typeVariable p' upper')) := by
  obtain ⟨there, there'⟩ := ab.type_there own
  obtain ⟨before, new⟩ := ab.freshType own
  have entered : ¬ s₀.HasType t := fun entered => new t (ab.explains.initial t entered)
  refine
    { explains := ab.explains.restate (ab.explains.under.updateShape entered there _) (fun _ _ _ => rfl)
        (fun t' u' same => ?_) rfl
      busy := ab.busy
      opens := ab.opens
      within := ab.within.updateShape before there' _
      leads := ab.leads.move id fun there => by simpa [HasType, Store.updateShape] using there
      once := ab.once
      element := ab.element
      fresh := ab.fresh
      type := fun {t' u'} own' => ?_
      freshType := ab.freshType
      binds := fun {t' u'} isBound => ?_ }
  · have other : t' ≠ t := fun here => new u' (here ▸ same)
    rw [shape?_update there, if_neg other]
  · rw [shape?_update there, shape?_update there']
    by_cases here : t' = t
    · have here' := (ab.once.type own' own).mp here
      rw [if_pos here, if_pos here']
      exact ⟨_, _, rfl, rfl, .typeVariable (.inl parameter) bound⟩
    · have other := mt (ab.once.type own' own).mpr here
      rw [if_neg here, if_neg other]
      exact ab.type own'
  · obtain ⟨same, q, q', upper₁, upper₂, found, found', asks⟩ := ab.binds isBound
    refine ⟨same, ?_⟩
    rw [shape?_update there, shape?_update there']
    have both : t' = t ↔ u' = u := by
      rcases same with own' | ⟨known, old⟩
      · exact ab.once.type own' own
      · exact iff_of_false (fun here => new u' (here ▸ known)) fun here => before (here ▸ old)
    by_cases here : t' = t
    · rw [if_pos here, if_pos (both.mp here)]
      exact ⟨p, p', upper, upper', rfl, rfl, .inr (.inl parameter)⟩
    · rw [if_neg here, if_neg (mt both.mpr here)]
      exact ⟨q, q', upper₁, upper₂, found, found', asks⟩

theorem setState (own : w.own.element a b) {q q' : ElementRecord} (same : (R.near x w).Record q q') :
    R.Abreast x w (s.setState a (.complete q)) (r.setState b (.complete q')) := by
  obtain ⟨before, new⟩ := ab.fresh own
  have entered : ¬ s₀.HasElement a := fun entered => new a (ab.explains.entered a entered)
  refine
    { explains := ab.explains.restate (ab.explains.under.setState entered _)
        (fun a' b' known => record?_congr (slot?_setState_ne _ fun here : a' = a => new b' (here ▸ known))) (fun _ _ _ => rfl) rfl
      busy := ?_
      opens := fun e entered isOpen => ab.opens e entered ?_
      within := ab.within.setState before _
      leads := ab.leads.move (fun there => by simpa [HasElement, Store.setState] using there) id
      once := ab.once
      element := fun {a' b'} own' => ?_
      fresh := ab.fresh
      type := ab.type
      freshType := ab.freshType
      binds := ab.binds }
  · obtain ⟨slot, found, state⟩ := ab.busy
    exact ⟨slot, (slot?_setState_ne _ (ab.ne_own own ab.entered)).trans found, state⟩
  · obtain ⟨slot, found, state⟩ := isOpen
    exact ⟨slot, (slot?_setState_ne _ (ab.ne_own own entered)).symm.trans found, state⟩
  · obtain ⟨slot, slot', found, found', like, plain⟩ := ab.element own'
    by_cases here : a' = a
    · have here' := (ab.once.element own' own).mp here
      subst here here'
      exact ⟨_, _, slot?_setState _ found, slot?_setState _ found', { like with state := .complete same }, plain⟩
    · have other := mt (ab.once.element own' own).mpr here
      exact ⟨slot, slot', (slot?_setState_ne _ here).trans found, (slot?_setState_ne _ other).trans found', like, plain⟩

theorem learn {π : Renaming} {s' : Store} (learns : R.Learns w.known s π s') (keeps : s.Keeps s') :
    R.Abreast x (w.learn π) s' r := by
  have le : w ≤ w.learn π := ⟨learns.le, ⟨id, id⟩, id⟩
  have near := near_mono (R := R) (x := x) le
  refine
    { explains := learns.explains
      busy := (keeps.opens x).mpr (.inl ab.busy)
      opens := fun e entered isOpen => ab.opens e entered (((keeps.opens e).mp isOpen).resolve_right id)
      within := ab.within
      leads := (ab.leads.learn learns.element learns.type).move keeps.there fun there => by
        obtain ⟨shape, found⟩ := has_type_iff.mp there
        exact has_type_iff.mpr ⟨shape, keeps.shapes _ shape found⟩
      once := ab.once
      element := fun own => ?_
      fresh := fun own => ⟨(ab.fresh own).1, fun b' known => ?_⟩
      type := fun own => ?_
      freshType := fun own => ⟨(ab.freshType own).1, fun u' known => ?_⟩
      binds := fun bound => ?_ }
  · obtain ⟨slot, slot', found, found', same, plain⟩ := ab.element own
    obtain ⟨_, now, children, state, rfl, _, kept⟩ := keeps.slots _ slot found
    refine ⟨_, slot', now, found', ?_, plain⟩
    cases was : slot.state with
    | complete q =>
      obtain rfl := kept plain q was
      exact ⟨same.kind, same.simpleName, same.qualifiedName, (same.mono near).enclosing, was ▸ (same.mono near).state⟩
    | completing =>
      obtain ⟨_, again, completing⟩ := (keeps.opens _).mpr (.inl ⟨slot, found, was⟩)
      cases now.symm.trans again
      obtain rfl : state = .completing := completing
      exact ⟨same.kind, same.simpleName, same.qualifiedName, (same.mono near).enclosing, was ▸ (same.mono near).state⟩
    | pending work =>
      have like := same.state
      rw [was] at like
      cases like
  · exact (learns.element known).elim ((ab.fresh own).2 b') fun absent => absent (ab.there own).1
  · obtain ⟨shape, shape', found, found', same⟩ := ab.type own
    exact ⟨shape, shape', keeps.shapes _ shape found, found', same.mono near⟩
  · exact (learns.type known).elim ((ab.freshType own).2 u') fun absent => absent (ab.type_there own).1
  · obtain ⟨same, p, p', upper, upper', found, found', asks⟩ := ab.binds bound
    exact ⟨near.2 same, p, p', upper, upper', keeps.shapes _ _ found, found', asks.mono le⟩

end Reference.Abreast

end primitives

section alongside

def Reference.Alongside (R : Reference s₀ s₀.HasElement) (x : ElementId) {α : Type} (w : Pairing out) (s r : Store)
    (m m' : StoreM α) (P : Pairing out → α → α → Prop) : Prop :=
  ∃ v, w ≤ v ∧ R.Abreast x v (m s).2 (m' r).2 ∧ P v (m s).1 (m' r).1

namespace Reference.Alongside

variable {α β : Type} {m m' : StoreM α} {f f' : α → StoreM β} {P : Pairing out → α → α → Prop} {Q : Pairing out → β → β → Prop}

theorem pure (ab : R.Abreast x w s r) {a a' : α} (holds : P w a a') :
    R.Alongside x w s r (Pure.pure a) (Pure.pure a') P := ⟨w, w.le_refl, ab, holds⟩

theorem imp {P' : Pairing out → α → α → Prop} (along : R.Alongside x w s r m m' P)
    (weaker : ∀ v a a', w ≤ v → P v a a' → P' v a a') : R.Alongside x w s r m m' P' := by
  obtain ⟨v, le, ab, holds⟩ := along
  exact ⟨v, le, ab, weaker v _ _ le holds⟩

theorem bindAt (first : R.Alongside x w s r m m' P)
    (next : ∀ v, w ≤ v → R.Abreast x v (m s).2 (m' r).2 → P v (m s).1 (m' r).1 →
      R.Alongside x v (m s).2 (m' r).2 (f (m s).1) (f' (m' r).1) Q) :
    R.Alongside x w s r (m >>= f) (m' >>= f') Q := by
  obtain ⟨v, le, ab, holds⟩ := first
  obtain ⟨v', le', rest⟩ := next v le ab holds
  exact ⟨v', Pairing.le_trans le le', rest⟩

theorem bind (first : R.Alongside x w s r m m' P)
    (next : ∀ v s' r' a a', w ≤ v → R.Abreast x v s' r' → P v a a' → R.Alongside x v s' r' (f a) (f' a') Q) :
    R.Alongside x w s r (m >>= f) (m' >>= f') Q :=
  first.bindAt fun v le ab holds => next v _ _ _ _ le ab holds

theorem get {f f' : Store → StoreM β} (along : R.Alongside x w s r (f s) (f' r) Q) :
    R.Alongside x w s r (MonadState.get >>= f) (MonadState.get >>= f') Q := along

theorem mapM {γ : Type} {S : Pairing out → γ → γ → Prop} {g g' : γ → StoreM β} {cs cs' : List γ}
    (stable : ∀ v v' b b', v ≤ v' → Q v b b' → Q v' b b') (weaken : ∀ v v' c c', v ≤ v' → S v c c' → S v' c c')
    (ab : R.Abreast x w s r) (all : List.Forall₂ (S w) cs cs')
    (each : ∀ v s r c c', w ≤ v → R.Abreast x v s r → S v c c' → R.Alongside x v s r (g c) (g' c') Q) :
    R.Alongside x w s r (cs.mapM g) (cs'.mapM g') fun v => List.Forall₂ (Q v) := by
  induction cs generalizing w s r cs' with
  | nil =>
    cases all
    exact pure ab .nil
  | cons c cs ih =>
    cases all with
    | cons head rest =>
      rw [List.mapM_cons, List.mapM_cons]
      refine (each w s r _ _ w.le_refl ab head).bind fun v s r b b' le ab related => ?_
      refine (ih ab (rest.imp fun c c' => weaken w v c c' le) fun v' s r c c' le' =>
        each v' s r c c' (Pairing.le_trans le le')).bind fun v' s r bs bs' le' ab all' => ?_
      exact pure ab (.cons (stable v v' b b' le' related) all')

end Reference.Alongside

end alongside

end Store

end Nominal
