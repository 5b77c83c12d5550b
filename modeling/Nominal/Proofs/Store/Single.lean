import Nominal.Proofs.Store.Chains
import Nominal.Proofs.Store.Immutable
/-!
What is said of an element is never several types at once: neither its type nor a bound of it is an intersection. A
type variable may be below an intersection, but that is made of the bounds and is no bound itself. So chains of bounds
are chains of type parameters, and as these are entered list by list, no chain ever goes on for ever unless one does
in a list that is written.
-/

namespace Nominal

open Store Completion

namespace Store

def Rigid (s : Store) (t : TypeId) : Prop :=
  ∃ shape, s.shape? t = some shape ∧ shape.kind ≠ .intersection ∧ shape.kind ≠ .typeVariable

def Single (s : Store) (t : TypeId) : Prop :=
  ∃ shape, s.shape? t = some shape ∧ shape.kind ≠ .intersection ∧
    ∀ e upper, shape = .typeVariable e upper → s.HasElement e

def SingleRecord (s : Store) (r : ElementRecord) : Prop := s.Single r.asType ∧ ∀ b ∈ r.bounds, s.Single b

/-- No complete element has an intersection for its type or among its bounds. -/
structure Singly (s : Store) : Prop where
  initial : ∀ t : TypeId, t.index < TypeShape.initial.length → s.Rigid t
  records : ∀ e r, s.record? e = some r → s.SingleRecord r
  object : ∀ t, s.objectUsage = some t → s.Rigid t

/-- A course of events in which that remains so, and in which chains of bounds go on ending if `written` holds of what
is declared on the way. -/
structure KeepsSingle (written : Prop) (s s' : Store) : Prop where
  start : s.Singly
  singly : s'.Singly
  single : ∀ t, s.Single t → s'.Single t
  ends : written → s.ChainsEnd → s'.ChainsEnd

def StaysSingle (written : Prop) (s s' : Store) : Prop := s.Singly → s.KeepsSingle written s'

variable {s s' s'' : Store} {t : TypeId} {e e' : ElementId} {r : ElementRecord} {written : Prop}

theorem Rigid.single (rigid : s.Rigid t) : s.Single t := by
  obtain ⟨shape, found, other, constant⟩ := rigid
  exact ⟨shape, found, other, fun e upper same => absurd (same ▸ rfl) constant⟩

theorem Rigid.constant (rigid : s.Rigid t) : ¬ s.IsVariable e t := by
  rintro ⟨upper, found⟩
  obtain ⟨shape, found', _, constant⟩ := rigid
  cases found.symm.trans found'
  exact constant rfl

theorem Single.element (single : s.Single t) (stands : s.IsVariable e t) : s.HasElement e := by
  obtain ⟨upper, found⟩ := stands
  obtain ⟨shape, found', _, there⟩ := single
  cases found.symm.trans found'
  exact there e upper rfl

theorem IsVariable.single (stands : s.IsVariable e t) (there : s.HasElement e) : s.Single t := by
  obtain ⟨upper, found⟩ := stands
  refine ⟨_, found, nofun, fun e' upper' same => ?_⟩
  cases same
  exact there

instance : Movement (KeepsSingle written) where
  trans first second := ⟨first.start, second.singly, fun t => second.single t ∘ first.single t,
    fun keeps => second.ends keeps ∘ first.ends keeps⟩
  stay move := ⟨move.singly, move.singly, fun _ => id, fun _ => id⟩

theorem Singly.stays (h : s.Singly) : s.KeepsSingle written s := ⟨h, h, fun _ => id, fun _ => id⟩

theorem KeepsSingle.weaken {more : Prop} (move : s.KeepsSingle written s') (weaker : more → written) :
    s.KeepsSingle more s' :=
  { move with ends := move.ends ∘ weaker }

theorem SingleRecord.mono (single : s.SingleRecord r) (move : ∀ t, s.Single t → s'.Single t) : s'.SingleRecord r :=
  ⟨move _ single.1, fun b mem => move b (single.2 b mem)⟩

structure KeepsAll (s s' : Store) : Prop where
  shapes : ∀ t shape, s.shape? t = some shape → s'.shape? t = some shape
  there : ∀ e, s.HasElement e → s'.HasElement e

theorem KeepsAll.rigid (move : s.KeepsAll s') (rigid : s.Rigid t) : s'.Rigid t := by
  obtain ⟨shape, found, kinds⟩ := rigid
  exact ⟨shape, move.shapes t shape found, kinds⟩

theorem KeepsAll.single (move : s.KeepsAll s') (single : s.Single t) : s'.Single t := by
  obtain ⟨shape, found, other, there⟩ := single
  exact ⟨shape, move.shapes t shape found, other, fun e upper same => move.there e (there e upper same)⟩

theorem KeepsAll.isVariable_iff (move : s.KeepsAll s') (single : s.Single t) :
    s'.IsVariable e t ↔ s.IsVariable e t := by
  obtain ⟨shape, found, _⟩ := single
  rw [IsVariable, move.shapes t shape found, IsVariable, found]

theorem Singly.move (h : s.Singly) (keeps : s.KeepsAll s')
    (records : ∀ e r, s'.record? e = some r → s.record? e = some r ∨ s'.SingleRecord r ∧ (written → r.bounds = []))
    (waits : written → ∀ e slot d, s'.slot? e = some slot → slot.state = .pending (.type d) →
      ∃ slot', s.slot? e = some slot' ∧ slot'.state = .pending (.type d))
    (object : ∀ t, s'.objectUsage = some t → s'.Rigid t) : s.KeepsSingle written s' where
  start := h
  singly :=
    { initial := fun t there => keeps.rigid (h.initial t there)
      records := fun e r complete =>
        (records e r complete).elim (fun before => (h.records e r before).mono fun _ => keeps.single) And.left
      object }
  single _ := keeps.single
  ends yes ends := by
    refine ends.mono ?_ (waits yes)
    rintro e e' ⟨r, complete, b, mem, stands⟩
    rcases records e r complete with before | ⟨_, unbounded⟩
    · exact ⟨r, before, b, mem, (keeps.isVariable_iff ((h.records e r before).2 b mem)).mp stands⟩
    · rw [unbounded yes] at mem
      cases mem

structure AddsTypes (s s' : Store) : Prop where
  elements : s'.elements = s.elements
  shapes : ∀ t shape, s.shape? t = some shape → s'.shape? t = some shape

theorem AddsTypes.slot (adds : s.AddsTypes s') : s'.slot? e = s.slot? e := by rw [slot?, adds.elements, slot?]

theorem AddsTypes.there (adds : s.AddsTypes s') : s'.HasElement e ↔ s.HasElement e := by
  rw [HasElement, adds.elements, HasElement]

theorem AddsTypes.keeps (adds : s.AddsTypes s') : s.KeepsAll s' := ⟨adds.shapes, fun _ => adds.there.mpr⟩

instance : Mild AddsTypes where
  refl _ := ⟨rfl, fun _ _ => id⟩
  trans first second :=
    ⟨second.elements.trans first.elements, fun t shape => second.shapes t shape ∘ first.shapes t shape⟩
  aside elements types _ _ _ := ⟨elements, fun t shape found => by rwa [shape?, types]⟩
  pushType _ shape := ⟨rfl, (keeps_pushType shape).shapes⟩

theorem Singly.adds (h : s.Singly) (adds : s.AddsTypes s') (object : ∀ t, s'.objectUsage = some t → s'.Rigid t) :
    s.KeepsSingle written s' := by
  refine h.move adds.keeps (fun e r complete => .inl ?_) (fun _ e slot d found state => ?_) object
  · rwa [record?, adds.slot] at complete
  · exact ⟨slot, adds.slot ▸ found, state⟩

theorem Singly.of_types (h : s.Singly) (types : s'.types = s.types) (usage : s'.objectUsage = s.objectUsage)
    (there : ∀ e, s.HasElement e → s'.HasElement e)
    (records : ∀ e r, s'.record? e = some r → s.record? e = some r ∨ s.SingleRecord r ∧ (written → r.bounds = []))
    (waits : written → ∀ e slot d, s'.slot? e = some slot → slot.state = .pending (.type d) →
      ∃ slot', s.slot? e = some slot' ∧ slot'.state = .pending (.type d)) : s.KeepsSingle written s' := by
  have keeps : s.KeepsAll s' := ⟨fun t shape found => by rwa [shape?, types], there⟩
  refine h.move keeps (fun e r complete => ?_) waits fun t usage' => ?_
  · exact (records e r complete).imp_right (And.imp_left (·.mono fun _ => keeps.single))
  · exact keeps.rigid (h.object t (by rwa [usage] at usage'))

theorem Singly.pushType (h : s.Singly) (shape : TypeShape) : s.KeepsSingle written (s.pushType shape) := by
  have adds : s.AddsTypes (s.pushType shape) := Mild.pushType s shape
  exact h.adds adds fun t usage => adds.keeps.rigid (h.object t usage)

theorem isVariable_setVariable (stands : s.IsVariable e t) (upper : TypeId) {u : TypeId} {a : ElementId} :
    (s.updateShape t (.typeVariable e upper)).IsVariable a u ↔ s.IsVariable a u := by
  have there : s.HasType t := has_type_iff.mpr (stands.imp' _ fun _ => id)
  by_cases same : u = t
  · subst same
    have settled : (s.updateShape u (.typeVariable e upper)).IsVariable e u :=
      ⟨upper, (shape?_update there).trans (if_pos rfl)⟩
    exact ⟨fun stands' => settled.unique stands' ▸ stands, fun stands' => stands.unique stands' ▸ settled⟩
  · rw [IsVariable, shape?_update there, if_neg same, IsVariable]

theorem Singly.setVariable (h : s.Singly) (stands : s.IsVariable e t) (element : s.HasElement e) (upper : TypeId) :
    s.KeepsSingle False (s.updateShape t (.typeVariable e upper)) := by
  have there : s.HasType t := has_type_iff.mpr (stands.imp' _ fun _ => id)
  have shape (u : TypeId) (other : u ≠ t) : (s.updateShape t (.typeVariable e upper)).shape? u = s.shape? u :=
    (shape?_update there).trans (if_neg other)
  have rigid (u : TypeId) (rigid : s.Rigid u) : (s.updateShape t (.typeVariable e upper)).Rigid u := by
    have other : u ≠ t := fun same => rigid.constant (same ▸ stands)
    rwa [Rigid, shape u other]
  have single (u : TypeId) (single : s.Single u) : (s.updateShape t (.typeVariable e upper)).Single u := by
    by_cases same : u = t
    · subst same
      exact ((isVariable_setVariable stands upper).mpr stands).single element
    · rwa [Single, shape u same]
  refine ⟨h, ⟨fun u bound => rigid u (h.initial u bound), fun a r complete => ?_, fun u usage => ?_⟩, single,
    False.elim⟩
  · exact (h.records a r complete).mono single
  · exact rigid u (h.object u usage)

theorem Singly.pushSlot (h : s.Singly) {slot : Slot}
    (fits : ∀ r, slot.state = .complete r → s.SingleRecord r ∧ (written → r.bounds = []))
    (waits : written → ∀ d, slot.state ≠ .pending (.type d)) : s.KeepsSingle written (s.pushSlot slot) := by
  refine h.of_types rfl rfl (fun e there => ?_) (fun e r complete => ?_) fun yes e slot' d found state => ?_
  · exact Nat.lt_of_lt_of_le there (by simp [Store.pushSlot])
  · obtain ⟨slot', found, state⟩ := record?_eq_some_iff.mp complete
    rw [slot?_push] at found
    split at found
    · cases found
      exact .inr (fits r state)
    · exact .inl (record?_eq_some_iff.mpr ⟨slot', found, state⟩)
  · rw [slot?_push] at found
    split at found
    · cases found
      exact absurd state (waits yes d)
    · exact ⟨slot', found, state⟩

theorem Singly.updateSlot (h : s.Singly) {f : Slot → Slot}
    (fits : ∀ slot r, (f slot).state = .complete r →
      slot.state = .complete r ∨ s.SingleRecord r ∧ (written → r.bounds = []))
    (waits : written → ∀ slot d, (f slot).state = .pending (.type d) → slot.state = .pending (.type d)) :
    s.KeepsSingle written (s.updateSlot e f) := by
  refine h.of_types rfl rfl (fun e there => ?_) (fun e' r complete => ?_) fun yes e' slot' d found state => ?_
  · exact Nat.lt_of_lt_of_le there (by simp [Store.updateSlot])
  · obtain ⟨slot', found, state⟩ := record?_eq_some_iff.mp complete
    rw [slot?_update] at found
    split at found
    · obtain ⟨slot, before, rfl⟩ := Option.map_eq_some_iff.mp found
      exact (fits slot r state).imp_left fun same => record?_eq_some_iff.mpr ⟨slot, before, same⟩
    · exact .inl (record?_eq_some_iff.mpr ⟨slot', found, state⟩)
  · rw [slot?_update] at found
    split at found
    · obtain ⟨slot, before, rfl⟩ := Option.map_eq_some_iff.mp found
      exact ⟨slot, before, waits yes slot d state⟩
    · exact ⟨slot', found, state⟩

theorem Singly.publish (h : s.Singly) (single : s.SingleRecord r) (unbounded : written → r.bounds = []) :
    s.KeepsSingle written (s.setState e (.complete r)) :=
  h.updateSlot (fun _ _ state => .inr (SlotState.complete.inj state ▸ ⟨single, unbounded⟩)) fun _ _ _ => nofun

theorem Singly.begin (h : s.Singly) : s.KeepsSingle written (s.setState e .completing) :=
  h.updateSlot (fun _ _ => nofun) fun _ _ _ => nofun

theorem Singly.addChild (h : s.Singly) (parent child : ElementId) : s.KeepsSingle False (s.addChild parent child) := by
  refine h.updateSlot (fun slot r state => .inl ?_) False.elim
  unfold Slot.addChild at state
  dsimp only at state
  split at state
  · split at state
    · cases state
    · exact state ▸ ‹_›
  · exact state

instance : Mild (StaysSingle written) where
  refl _ h := h.stays
  trans first second h := Movement.trans (first h) (second (first h).singly)
  aside elements types completions indexes reuses h := by
    refine h.adds (Mild.aside elements types completions indexes reuses) fun t usage => ?_
    rw [Rigid, shape?, types]
    obtain same | ⟨t', e, usage', -, shape⟩ := reuses
    · exact h.object t (same ▸ usage)
    · cases usage.symm.trans usage'
      exact ⟨_, shape, by simp [TypeShape.kind], by simp [TypeShape.kind]⟩
  pushType s shape h := h.pushType shape

end Store

def Scope.Single (sc : Scope) (s : Store) : Prop := ∀ v ∈ sc.visible, s.Single v.2

variable {s s' : Store} {sc sc' : Scope} {written : Prop}

theorem Scope.Single.move (sight : sc.Single s) (move : s.KeepsSingle written s') (same : sc'.visible = sc.visible) :
    sc'.Single s' := by
  intro v mem
  exact move.single _ (sight v (same ▸ mem))

theorem newType_single (h : s.Singly) {shape : TypeShape} (other : shape.kind ≠ .intersection)
    (constant : shape.kind ≠ .typeVariable) :
    Ensures (KeepsSingle written) s (StoreM.newType shape) fun t s' => s'.Single t :=
  ⟨h.pushType shape, Rigid.single ⟨shape, (shape?_push shape).trans (if_pos rfl), other, constant⟩⟩

theorem objectType_single (h : s.Singly) :
    Ensures (KeepsSingle written) s StoreM.objectType fun t s' => s'.Rigid t := by
  have kept : s.StaysSingle written (StoreM.objectType s).2 := keeping_objectType s
  refine ⟨kept h, ?_⟩
  have none : s.Rigid .none := h.initial _ (by decide)
  rw [StoreM.objectType, stateM_get_bind]
  cases usage : s.objectUsage with
  | some t => exact h.object t usage
  | none =>
    cases s.objectElement? with
    | none => exact none
    | some e =>
      exact ⟨.declared .none e [], (shape?_push _).trans (if_pos rfl), by simp [TypeShape.kind], by simp [TypeShape.kind]⟩

section resolving

open ResolveM

variable {vs : List (String × TypeId)} {e : ElementId} {t : TypeId}

theorem Store.Reads.rigid (h : s.Singly) (a : TypeExpr) (reads : s.Reads (StandsFor vs) a t) :
    s.Rigid t ∨ ∃ x, a = .var x ∧ inSight? vs x = some t := by
  cases a with
  | primitive k =>
    unfold Reads at reads
    split at reads
    · rename_i p _
      exact .inl (reads ▸ h.initial _ (by cases p <;> decide))
    · exact .inl ⟨_, reads, by simp [TypeShape.kind]⟩
  | void =>
    unfold Reads at reads
    exact .inl (reads ▸ h.initial _ (by decide))
  | var x =>
    unfold Reads at reads
    obtain found | ⟨-, error⟩ := reads
    · exact .inr ⟨x, rfl, found⟩
    · exact .inl ⟨_, error, by simp [TypeShape.kind]⟩
  | named name args =>
    unfold Reads at reads
    obtain error | ⟨e, ts, usage, -⟩ := reads
    · exact .inl ⟨_, error, by simp [TypeShape.kind]⟩
    · exact .inl ⟨_, usage, by simp [TypeShape.kind]⟩
  | array c =>
    unfold Reads at reads
    obtain ⟨u, array, -⟩ := reads
    exact .inl ⟨_, array, by simp [TypeShape.kind]⟩
  | wildcard upper lower =>
    unfold Reads at reads
    obtain ⟨u, l, wildcard, -⟩ := reads
    exact .inl ⟨_, wildcard, by simp [TypeShape.kind]⟩

theorem Store.ReadsAll.rigid (h : s.Singly) : (as : List TypeExpr) → {ts : List TypeId} →
    s.ReadsAll (StandsFor vs) as ts → ∀ t ∈ ts, s.Rigid t ∨ ∃ x, .var x ∈ as ∧ inSight? vs x = some t
  | [], _, reads => by
    rw [ReadsAll] at reads
    simp [reads]
  | a :: as, _, reads => by
    rw [ReadsAll] at reads
    obtain ⟨u, us, rfl, first, rest⟩ := reads
    refine List.forall_mem_cons.mpr ⟨(first.rigid h a).imp_right ?_, fun t mem => (rest.rigid h as t mem).imp_right ?_⟩
    · exact fun ⟨x, same, found⟩ => ⟨x, same ▸ List.mem_cons_self, found⟩
    · exact fun ⟨x, named, found⟩ => ⟨x, List.mem_cons_of_mem _ named, found⟩

theorem single_of_rigid (sight : ∀ v ∈ vs, s.Single v.2) {p : String → Prop}
    (rigid : s.Rigid t ∨ ∃ x, p x ∧ inSight? vs x = some t) : s.Single t := by
  rcases rigid with rigid | ⟨x, -, found⟩
  · exact rigid.single
  · exact sight _ (mem_of_inSight? found)

theorem resolve_single (h : s.Singly) (sight : sc.Single s) (a : TypeExpr) :
    Ensures (KeepsSingle written) s (resolve a sc) fun r s' => s'.Single r.1 ∧ r.2.visible = sc.visible := by
  have kept : s.StaysSingle written (resolve a sc s).2 := keeping_resolve a sc s
  obtain ⟨-, reads, visible⟩ : Ensures (Course Nothing) s (resolve a sc) _ := resolve_reads a sc s
  exact ⟨kept h, single_of_rigid (sight.move (kept h) rfl) (reads.rigid (kept h).singly a), visible⟩

theorem resolveAll_single (h : s.Singly) (sight : sc.Single s) (as : List TypeExpr) :
    Ensures (KeepsSingle written) s (resolveAll as sc) fun r s' =>
      ((∀ t ∈ r.1, s'.Single t) ∧ s'.Written sc.visible as r.1 ∧ s.AddsTypes s') ∧ r.2.visible = sc.visible := by
  have kept : s.StaysSingle written (resolveAll as sc s).2 := keeping_resolveAll as sc s
  have adds : s.AddsTypes (resolveAll as sc s).2 := keeping_resolveAll as sc s
  obtain ⟨-, reads, visible⟩ : Ensures (Course Nothing) s (resolveAll as sc) _ := resolveAll_reads as sc s
  have rigid := reads.rigid (kept h).singly
  have single t mem := single_of_rigid (sight.move (kept h) rfl) (rigid t mem)
  refine ⟨kept h, ⟨single, fun b mem e stands => ?_, adds⟩, visible⟩
  exact (rigid b mem).resolve_left fun constant => constant.constant stands

end resolving

namespace Completion

open ResolveM

variable {owner e : ElementId} {t : TypeId}

section typeParameters

variable {vs : List (String × TypeId)} {c : TypeParameterDecl × ElementId × TypeId}
  {cs : List (TypeParameterDecl × ElementId × TypeId)} {ps : List TypeParameterDecl}

structure Settles (vs : List (String × TypeId)) (cs : List (TypeParameterDecl × ElementId × TypeId))
    (s s' : Store) : Prop where
  there : ∀ e, s'.HasElement e ↔ s.HasElement e
  others : ∀ e, e ∉ cs.map (·.2.1) → s'.slot? e = s.slot? e
  stand : ∀ t, s.Single t → ∀ e, s'.IsVariable e t ↔ s.IsVariable e t
  bounds : ∀ c ∈ cs, ∀ r, s'.record? c.2.1 = some r → s'.Written vs c.1.bounds r.bounds
  settled : ∀ c ∈ cs, ∀ slot d, s'.slot? c.2.1 = some slot → slot.state ≠ .pending (.type d)

theorem Settles.after (adds : s.AddsTypes s') (settles : Settles vs cs s' s'') : Settles vs cs s s'' where
  there e := (settles.there e).trans adds.there
  others e other := (settles.others e other).trans adds.slot
  stand t single e := (settles.stand t (adds.keeps.single single) e).trans (adds.keeps.isVariable_iff single)
  bounds := settles.bounds
  settled := settles.settled

theorem Settles.cons (first : Settles vs [c] s s') (rest : Settles vs cs s' s'') (move : s.KeepsSingle written s')
    (apart : c.2.1 ∉ cs.map (·.2.1)) : Settles vs (c :: cs) s s'' where
  there e := (rest.there e).trans (first.there e)
  others e other := by
    rw [List.map_cons, List.mem_cons, not_or] at other
    exact (rest.others e other.2).trans (first.others e (by simpa using other.1))
  stand t single e := (rest.stand t (move.single t single) e).trans (first.stand t single e)
  bounds := by
    refine List.forall_mem_cons.mpr ⟨fun r complete => ?_, rest.bounds⟩
    rw [record?, rest.others _ apart] at complete
    intro b mem e stands
    have single := (move.singly.records _ r complete).2 b mem
    exact first.bounds c (by simp) r complete b mem e ((rest.stand b single e).mp stands)
  settled := by
    refine List.forall_mem_cons.mpr ⟨fun slot d found => ?_, rest.settled⟩
    rw [rest.others _ apart] at found
    exact first.settled c (by simp) slot d found

theorem reserve_single (h : s.Singly) (sight : sc.Single s) (owner : ElementId) (p : TypeParameterDecl) :
    Ensures (KeepsSingle False) s (reserveTypeParameter owner p sc) fun r s' =>
      r.2.Single s' ∧ ∀ e, s'.HasElement e ↔ s.HasElement e ∨ e = r.1.1 := by
  let slot : Slot := { kind := .typeParameter, simpleName := p.name, qualifiedName := p.name, enclosing := some owner }
  let e : ElementId := ⟨s.elements.size⟩
  have entered : s.KeepsSingle False (s.pushSlot slot) := h.pushSlot (by simp [slot]) False.elim
  have there (a : ElementId) : (s.pushSlot slot).HasElement a ↔ s.HasElement a ∨ a = e := by
    obtain ⟨i⟩ := a
    simp only [HasElement, Store.pushSlot, Array.size_push, e, ElementId.mk.injEq]
    omega
  have stands : ((s.pushSlot slot).pushType (.typeVariable e .none)).IsVariable e ⟨s.types.size⟩ :=
    ⟨.none, (shape?_push _).trans (if_pos rfl)⟩
  have move := Movement.trans entered (entered.singly.pushType (.typeVariable e .none))
  refine ⟨move, ?_, there⟩
  exact List.forall_mem_cons.mpr ⟨stands.single ((there e).mpr (.inr rfl)), sight.move move rfl⟩

theorem settle_single (h : s.Singly) (stands : s.IsVariable e t) (there : s.HasElement e) (owner : ElementId)
    (p : TypeParameterDecl) (upper : TypeId) (bounds : List TypeId) (bound : ∀ b ∈ bounds, s.Single b)
    (written : s.Written vs p.bounds bounds) (sc : Scope) :
    Ensures (KeepsSingle False) s ((do
        (StoreM.setShape t (.typeVariable e upper) : StoreM Unit)
        (StoreM.publish { id := e, kind := .typeParameter, simpleName := p.name, enclosing := some owner, asType := t
                          detail := .typeParameter owner bounds } : StoreM Unit) : ResolveM Unit) sc) fun r s' =>
      Settles vs [(p, e, t)] s s' ∧ r.2 = sc := by
  let s₁ := s.updateShape t (.typeVariable e upper)
  let r : ElementRecord :=
    { id := e, kind := .typeParameter, simpleName := p.name, enclosing := some owner, asType := t
      detail := .typeParameter owner bounds }
  let s₂ := s₁.setState e (.complete r)
  have settled : s.KeepsSingle False s₁ := h.setVariable stands there upper
  have single : s₁.SingleRecord r :=
    ⟨settled.single t (stands.single there), fun b mem => settled.single b (bound b mem)⟩
  have published : s₁.KeepsSingle False s₂ := settled.singly.publish single False.elim
  have found (slot : Slot) (found : s₂.slot? e = some slot) : slot.state = .complete r := by
    obtain ⟨slot', before⟩ := has_element_iff.mp there
    have before₁ : s₁.slot? e = some slot' := before
    cases found.symm.trans (slot?_setState _ before₁)
    rfl
  have stand (u : TypeId) (a : ElementId) : s₂.IsVariable a u ↔ s.IsVariable a u := isVariable_setVariable stands upper
  refine ⟨Movement.trans settled published, ⟨fun a => ?_, fun a other => ?_, fun u _ a => stand u a, ?_, ?_⟩, rfl⟩
  · change s₂.HasElement a ↔ s.HasElement a
    simp [HasElement, s₂, s₁, Store.setState, Store.updateShape]
  · exact slot?_setState_ne _ (by simpa using other)
  · refine List.forall_mem_singleton.mpr fun r' complete b mem a => ?_
    obtain ⟨slot, found', state⟩ := record?_eq_some_iff.mp complete
    cases state.symm.trans (found slot found')
    exact written b mem a ∘ (stand b a).mp
  · refine List.forall_mem_singleton.mpr fun slot d found' state => ?_
    cases state.symm.trans (found slot found')

theorem completeTypeParameter_single (h : s.Singly) (sight : sc.Single s) (stands : s.IsVariable e t)
    (there : s.HasElement e) (owner : ElementId) (p : TypeParameterDecl) :
    Ensures (KeepsSingle False) s (completeTypeParameter owner p e t sc) fun r s' =>
      Settles sc.visible [(p, e, t)] s s' ∧ r.2.visible = sc.visible := by
  have settle {s₁ : Store} {sc₁ : Scope} (h : s₁.Singly) (adds : s.AddsTypes s₁) (same : sc₁.visible = sc.visible)
      (upper : TypeId) (bounds : List TypeId) (bound : ∀ b ∈ bounds, s₁.Single b)
      (written : s₁.Written sc.visible p.bounds bounds) :=
    have stands₁ : s₁.IsVariable e t := (adds.keeps.isVariable_iff (stands.single there)).mpr stands
    (settle_single h stands₁ (adds.there.mpr there) owner p upper bounds bound written sc₁).imp fun _ _ _ told =>
      And.intro (told.1.after adds) ((congrArg Scope.visible told.2).trans same)
  rw [completeTypeParameter]
  refine (resolveAll_single h sight p.bounds).resolve_bind fun bounds sc₁ s₁ move₁ read => ?_
  obtain ⟨⟨bound, written, adds₁⟩, visible⟩ :
    ((∀ b ∈ bounds, s₁.Single b) ∧ s₁.Written sc.visible p.bounds bounds ∧ s.AddsTypes s₁) ∧
      sc₁.visible = sc.visible := read
  rcases bounds with _ | ⟨b, _ | ⟨b', rest⟩⟩
  · have adds₂ : s₁.AddsTypes (StoreM.objectType s₁).2 := keeping_objectType s₁
    obtain ⟨move₂, rigid⟩ : Ensures (KeepsSingle False) s₁ StoreM.objectType _ := objectType_single move₁.singly
    refine Ensures.lift_bind (P := fun upper s' => s'.Rigid upper ∧ s₁.AddsTypes s') ⟨move₂, rigid, adds₂⟩ ?_
    rintro upper s₂ move₂ ⟨rigid, adds₂⟩
    refine settle move₂.singly (Calm.trans adds₁ adds₂) visible upper [upper] ?_ ?_
    · simpa using rigid.single
    · intro b mem e stands
      cases List.mem_singleton.mp mem
      exact absurd stands rigid.constant
  · exact settle move₁.singly adds₁ visible b [b] bound written
  · let meet : TypeShape := .intersection (b :: b' :: rest)
    have adds₂ : s₁.AddsTypes (s₁.pushType meet) := Mild.pushType s₁ meet
    have made : s₁.KeepsSingle False (s₁.pushType meet) := move₁.singly.pushType meet
    refine Ensures.resolve_bind (P := fun r s' => r.2.visible = sc₁.visible ∧ s' = s₁.pushType meet) ⟨made, rfl, rfl⟩ ?_
    rintro upper sc₂ _ _ ⟨same, rfl⟩
    refine settle made.singly (Calm.trans adds₁ adds₂) (same.trans visible) upper (b :: b' :: rest)
      (fun c mem => made.single c (bound c mem)) ?_
    exact fun c mem a stands => written c mem a ((adds₂.keeps.isVariable_iff (bound c mem)).mp stands)

theorem completeAll_single (owner : ElementId) (h : s.Singly) (sight : sc.Single s)
    (entered : ∀ c ∈ cs, s.HasElement c.2.1 ∧ s.IsVariable c.2.1 c.2.2) (distinct : (cs.map (·.2.1)).Nodup) :
    Ensures (KeepsSingle False) s ((cs.forM fun c => completeTypeParameter owner c.1 c.2.1 c.2.2 : ResolveM Unit) sc)
      fun r s' => Settles sc.visible cs s s' ∧ r.2.visible = sc.visible := by
  induction cs generalizing s sc with
  | nil => exact .pure h.stays ⟨⟨fun _ => .rfl, fun _ _ => rfl, fun _ _ _ => .rfl, nofun, nofun⟩, rfl⟩
  | cons c cs ih =>
    obtain ⟨there, stands⟩ := entered c (by simp)
    obtain ⟨apart, distinct⟩ := List.nodup_cons.mp distinct
    refine (completeTypeParameter_single h sight stands there owner c.1).resolve_bind
      fun _ sc₁ s₁ move ⟨first, visible⟩ => ?_
    have entered₁ (c' : TypeParameterDecl × ElementId × TypeId) (mem : c' ∈ cs) :
        s₁.HasElement c'.2.1 ∧ s₁.IsVariable c'.2.1 c'.2.2 := by
      obtain ⟨there', stands'⟩ := entered c' (by simp [mem])
      exact ⟨(first.there _).mpr there', (first.stand _ (stands'.single there') _).mpr stands'⟩
    refine (ih move.singly (sight.move move visible) entered₁ distinct).imp fun r s₂ _ ⟨rest, visible'⟩ => ?_
    rw [visible] at rest visible'
    exact ⟨first.cons rest move apart, visible'⟩

theorem enterTypeParameters_single (h : s.Singly) (sight : sc.Single s) (owner : ElementId)
    (ends : written → WellFounded (Function.swap (LeansOn ps))) :
    Ensures (KeepsSingle written) s (enterTypeParameters owner ps sc) fun r s' => r.2.Single s' := by
  have keeps : s.Keeps (enterTypeParameters owner ps sc s).2 := keeping_enterTypeParameters owner ps sc s
  have spares : s.Spares s.HasElement (enterTypeParameters owner ps sc s).2 := spares_enterTypeParameters owner ps sc s
  have reserved : Ensures (KeepsSingle False) s (ps.mapM (reserveTypeParameter owner) sc) fun r s' =>
      r.2.Single s' ∧ ∀ e, s'.HasElement e ↔ s.HasElement e ∨ e ∈ r.1.map (·.1) := by
    refine .resolve_mapM (fun _ (xs : List (ElementId × TypeId)) sc' s' =>
      sc'.Single s' ∧ ∀ e, s'.HasElement e ↔ s.HasElement e ∨ e ∈ xs.map (·.1)) h.stays ⟨sight, by simp⟩ ?_
    rintro _ p xs sc' s' move ⟨sight', known⟩
    refine (reserve_single move.singly sight' owner p).imp fun r s'' move' ⟨sight'', known'⟩ => ⟨sight'', fun e => ?_⟩
    rw [known', known]
    simp [or_assoc]
  let r := ps.mapM (reserveTypeParameter owner) sc s
  obtain ⟨move₁, sight₁, known⟩ : s.KeepsSingle False r.2 ∧ r.1.2.Single r.2 ∧ ∀ e, r.2.HasElement e ↔ _ := reserved
  obtain ⟨_, awaits, visible⟩ : s.Course Nothing r.2 ∧ List.Forall₂ (Awaits r.2 owner) ps r.1.1 ∧
    r.1.2.visible = (variablesOf ps r.1.1).reverse ++ sc.visible := reserveAll_awaits owner ps sc s
  have distinct : (r.1.1.map (·.1)).Nodup := (reserveAll_setsAside ps sc s).1.distinct
  have seconds : (ps.zip r.1.1).map (·.2) = r.1.1 := List.map_snd_zip (Nat.le_of_eq awaits.length_eq.symm)
  have paired (x : ElementId × TypeId) (mem : x ∈ r.1.1) : ∃ c ∈ ps.zip r.1.1, c.2 = x := by
    rw [← seconds] at mem
    exact List.mem_map.mp mem
  have elements : (ps.zip r.1.1).map (·.2.1) = r.1.1.map (·.1) := by
    have firsts := congrArg (List.map (·.1)) seconds
    rw [List.map_map] at firsts
    exact firsts
  have entered (c : TypeParameterDecl × ElementId × TypeId) (mem : c ∈ ps.zip r.1.1) :
      r.2.HasElement c.2.1 ∧ r.2.IsVariable c.2.1 c.2.2 := by
    refine ⟨(known _).mpr (.inr ?_), ((List.forall₂_iff_zip.mp awaits).2 mem).2⟩
    exact elements ▸ List.mem_map_of_mem mem
  obtain ⟨move₂, settles, visible₂⟩ := completeAll_single owner move₁.singly sight₁ entered (elements ▸ distinct)
  have move : s.KeepsSingle False (enterTypeParameters owner ps sc s).2 := Movement.trans move₁ move₂
  have all : s.KeepsAll (enterTypeParameters owner ps sc s).2 := ⟨keeps.shapes, fun _ => keeps.there⟩
  have enters : s.Enters ps r.1.1 sc.visible (enterTypeParameters owner ps sc s).2 :=
    { lengths := awaits.length_eq
      stand := fun x mem => by
        obtain ⟨c, listed, rfl⟩ := paired x mem
        obtain ⟨there, stands⟩ := entered c listed
        exact (settles.stand _ (stands.single there) _).mpr stands
      there := fun e there => (known e).mp ((settles.there e).mp there)
      kept := fun e there => by
        obtain ⟨slot, found⟩ := has_element_iff.mp there
        rw [found, spares e slot there found]
      old := fun e r complete b mem e' stands => by
        have single := (h.records e r complete).2 b mem
        have before := (all.isVariable_iff single).mp stands
        exact ⟨before, single.element before⟩
      around := fun v mem e stands => (sight v mem).element ((all.isVariable_iff (sight v mem)).mp stands)
      written := visible ▸ settles.bounds
      waits := fun x mem => by
        obtain ⟨c, listed, rfl⟩ := paired x mem
        exact settles.settled c listed }
  exact ⟨⟨h, move.singly, move.single, fun yes chains => enters.chainsEnd chains (ends yes)⟩,
    sight₁.move move₂ visible₂⟩

end typeParameters

def SingleAnswers (written : Prop) (again : Again) : Prop :=
  ∀ e s, s.Singly → Ensures (KeepsSingle written) s (again e) fun r s' => s'.Single r.asType

section adding

theorem newVariable_single (h : s.Singly) (owner : ElementId) (kind : ElementKind) (name : String) (single : s.Single t)
    (nesting : Nesting) (modifiers : List Modifier) :
    Ensures (KeepsSingle written) s (newVariable owner kind name t nesting modifiers sc) fun r _ => r.2 = sc := by
  refine ⟨h.pushSlot (fun r state => ?_) fun _ d => nofun, rfl⟩
  cases state
  exact ⟨⟨single, nofun⟩, fun _ => rfl⟩

theorem enterParameter_single (h : s.Singly) (sight : sc.Single s) (owner : ElementId) (name : String) (a : TypeExpr) :
    Ensures (KeepsSingle written) s (enterParameter owner name a sc) fun r _ => r.2.visible = sc.visible := by
  refine (resolve_single h sight a).resolve_bind fun t sc₁ s₁ move ⟨single, visible⟩ => ?_
  refine (newVariable_single move.singly owner .parameter name single .body []).resolve_bind ?_
  rintro e _ s₂ move₂ rfl
  exact .pure move₂.singly.stays visible

variable {again : Again}

theorem SingleAnswers.weaken {more : Prop} (answers : SingleAnswers written again) (weaker : more → written) :
    SingleAnswers more again :=
  fun e s h => ⟨(answers e s h).1.weaken weaker, (answers e s h).2⟩

theorem SingleAnswers.keeping (answers : SingleAnswers written again) (e : ElementId) :
    Keeping (StaysSingle written) (again e) :=
  fun s h => (answers e s h).1

theorem visibleVariablesN_single (answers : SingleAnswers written again) (h : s.Singly) (fuel : Nat)
    (e? : Option ElementId) :
    Ensures (KeepsSingle written) s (visibleVariablesN again fuel e?) fun vs s' => ∀ v ∈ vs, s'.Single v.2 := by
  induction fuel generalizing e? s with
  | zero => exact .pure h.stays nofun
  | succ fuel ih =>
    cases e? with
    | none => exact .pure h.stays nofun
    | some e =>
      rw [visibleVariablesN]
      refine .get ?_
      cases s.kind? e with
      | none => exact .pure h.stays nofun
      | some k =>
        dsimp only
        split
        · exact .pure h.stays nofun
        refine (answers e s h).bind fun r s₁ move₁ _ => ?_
        have own : Ensures (KeepsSingle written) s₁ (r.typeParameters.mapM fun p => do
            let p ← again p
            return (p.simpleName, p.asType)) fun vs s' => ∀ v ∈ vs, s'.Single v.2 := by
          refine .mapM_all move₁.singly.stays (fun v _ _ move => move.single v.2) fun p _ s' move => ?_
          exact (answers p s' move.singly).bind fun r s'' move' single => .pure move'.singly.stays single
        refine own.bind fun vs s₂ move₂ singles => ?_
        refine (ih move₂.singly _).bind fun outer s₃ move₃ singles' => .pure move₃.singly.stays fun v mem => ?_
        rcases List.mem_append.mp mem with mem | mem
        · exact move₃.single _ (singles v (List.mem_reverse.mp mem))
        · exact singles' v mem

theorem visibleVariables_single (answers : SingleAnswers written again) (h : s.Singly) (e? : Option ElementId) :
    Ensures (KeepsSingle written) s (visibleVariables again e?) fun vs s' => ∀ v ∈ vs, s'.Single v.2 :=
  .get (visibleVariablesN_single answers h _ e?)

theorem annotations_single (answers : SingleAnswers written again) (h : s.Singly) (as : List AnnotationDecl) :
    Ensures (KeepsSingle written) s (as.mapM (resolveAnnotationUse again) sc) fun _ _ => True := by
  have kept : Keeping (StaysSingle written) (as.mapM (resolveAnnotationUse again)) :=
    keeping_mapM fun a => keeping_resolveAnnotationUse answers.keeping a
  exact ⟨kept sc s h, trivial⟩

theorem enterExecutable_single (answers : SingleAnswers written again) (h : s.Singly) (sight : sc.Single s)
    (owner : ElementId) (ownerType : TypeId) (kind : ElementKind) (d : ExecutableDecl)
    (ends : written → WellFounded (Function.swap (LeansOn d.typeParameters))) :
    Ensures (KeepsSingle written) s (enterExecutable again owner ownerType kind d sc) fun r _ =>
      r.2.visible = sc.visible := by
  rw [enterExecutable]
  have entered : Ensures (KeepsSingle written) s
      (StoreM.newSlot { kind, simpleName := if kind = .constructor then constructorName else d.name
                        qualifiedName := if kind = .constructor then constructorName else d.name
                        enclosing := some owner, arity := d.typeParameters.length })
      fun _ _ => True := ⟨h.pushSlot (by simp) (by simp), trivial⟩
  refine entered.lift_bind fun id s₁ move₁ _ => .scope ?_
  refine Ensures.resolve_bind (P := fun r _ => r.2.visible = sc.visible)
    ((Ensures.block (P := fun _ _ => True) ?_).imp fun _ _ _ told => told.1) fun _ sc' s' move visible =>
      .pure move.singly.stays visible
  refine (enterTypeParameters_single move₁.singly (sight.move move₁ rfl) id ends).resolve_bind
    fun generics sc₂ s₂ move₂ sight₂ => ?_
  have result : Ensures (KeepsSingle written) s₂
      ((if kind = .constructor then pure .void else resolve d.returnType : ResolveM TypeId) sc₂)
      fun r s' => r.2.visible = sc₂.visible := by
    split
    · exact .pure move₂.singly.stays rfl
    · exact (resolve_single move₂.singly sight₂ d.returnType).imp fun _ _ _ told => told.2
  refine Ensures.ite_bind result fun returnType sc₃ s₃ move₃ visible₃ => ?_
  have sight₃ := sight₂.move move₃ visible₃
  have parameters : Ensures (KeepsSingle written) s₃
      ((d.parameters.mapM fun p => enterParameter id p.1 p.2 : ResolveM _) sc₃)
      fun r _ => r.2.visible = sc₃.visible := by
    refine .resolve_mapM (fun _ _ sc' _ => sc'.visible = sc₃.visible) move₃.singly.stays rfl ?_
    rintro _ ⟨name, t⟩ _ sc' s' move same
    exact (enterParameter_single move.singly (sight₃.move move same) id name t).imp fun _ _ _ same' => same'.trans same
  refine parameters.resolve_bind fun ps sc₄ s₄ move₄ visible₄ => ?_
  refine (resolveAll_single move₄.singly (sight₃.move move₄ visible₄) d.thrown).resolve_bind
    fun thrown sc₅ s₅ move₅ _ => ?_
  refine (annotations_single answers move₅.singly d.annotations).resolve_bind fun annotations sc₆ s₆ move₆ _ => ?_
  refine Ensures.resolve_bind (P := fun r s' => s'.Single r.1)
    (newType_single move₆.singly (by simp [TypeShape.kind]) (by simp [TypeShape.kind]))
    fun asType sc₇ s₇ move₇ single => .scope ?_
  exact ⟨move₇.singly.publish ⟨single, by simp [ElementRecord.bounds]⟩ fun _ => rfl, trivial⟩

theorem enterMember_single (answers : SingleAnswers written again) (h : s.Singly) (sight : sc.Single s)
    (owner : ElementId) {ownerType : TypeId} (single : s.Single ownerType) (d : MemberDecl)
    (ends : written → WellFounded (Function.swap (LeansOn d.typeParameters))) :
    Ensures (KeepsSingle written) s (enterMember again owner ownerType d sc) fun r _ => r.2.visible = sc.visible := by
  have variable_ (kind : ElementKind) (name : String) (a : TypeExpr) (modifiers : List Modifier) :
      Ensures (KeepsSingle written) s
        ((do newVariable owner kind name (← resolve a) .member modifiers : ResolveM ElementId) sc)
        fun r _ => r.2.visible = sc.visible := by
    refine (resolve_single h sight a).resolve_bind fun t sc₁ s₁ move ⟨single, visible⟩ => ?_
    exact (newVariable_single move.singly owner kind name single .member modifiers).imp fun r _ _ same => same ▸ visible
  cases d with
  | field name a modifiers => exact variable_ .field name a modifiers
  | recordComponent name a => exact variable_ .recordComponent name a []
  | enumConstant name =>
    exact (newVariable_single h owner .enumConstant name single .member _).imp fun r _ _ same => by rw [same]
  | method d => exact enterExecutable_single answers h sight owner ownerType .method d ends
  | constructor d => exact enterExecutable_single answers h sight owner ownerType .constructor d ends

theorem enterMembers_single (answers : SingleAnswers written again) (h : s.Singly) (sight : sc.Single s)
    (owner : ElementId) {ownerType : TypeId} (single : s.Single ownerType) (ms : List MemberDecl)
    (ends : written → ∀ m ∈ ms, WellFounded (Function.swap (LeansOn m.typeParameters))) :
    Ensures (KeepsSingle written) s (ms.mapM (enterMember again owner ownerType) sc) fun r _ =>
      r.2.visible = sc.visible := by
  induction ms generalizing s sc with
  | nil =>
    rw [List.mapM_nil]
    exact .pure h.stays rfl
  | cons m ms ih =>
    rw [List.mapM_cons]
    refine (enterMember_single answers h sight owner single m fun yes => ends yes m (by simp)).resolve_bind
      fun e sc₁ s₁ move visible => ?_
    have rest := ih move.singly (sight.move move visible) (move.single _ single) fun yes m mem =>
      ends yes m (by simp [mem])
    refine rest.resolve_bind fun es sc₂ s₂ move₂ visible₂ => .pure move₂.singly.stays ?_
    exact (visible₂.trans visible : sc₂.visible = sc.visible)

theorem superclassOf_single (h : s.Singly) (d : TypeHeader) (qualifiedName : String) (asType : TypeId) :
    Ensures (KeepsSingle written) s (superclassOf d qualifiedName asType sc) fun r _ => r.2.visible = sc.visible := by
  have kept : s.StaysSingle written (superclassOf d qualifiedName asType sc s).2 :=
    keeping_superclassOf d qualifiedName asType sc s
  obtain ⟨-, -, visible⟩ : Ensures (Course Nothing) s (superclassOf d qualifiedName asType sc) _ :=
    superclassOf_reads d qualifiedName asType sc s
  exact ⟨kept h, visible⟩

theorem interfacesOf_single (h : s.Singly) (d : TypeHeader) :
    Ensures (KeepsSingle written) s (interfacesOf d sc) fun r _ => r.2.visible = sc.visible := by
  have kept : s.StaysSingle written (interfacesOf d sc s).2 := keeping_interfacesOf d sc s
  obtain ⟨-, -, visible⟩ : Ensures (Course Nothing) s (interfacesOf d sc) _ := interfacesOf_reads d sc s
  exact ⟨kept h, visible⟩

theorem typeRecord_single (answers : SingleAnswers written again) (h : s.Singly) (sight : sc.Single s)
    (id : ElementId) (slot : Slot) (d : TypeHeader) (nesting : Nesting) (ends : written → d.ChainsEnd) :
    Ensures (KeepsSingle written) s (typeRecord again id slot d nesting sc) fun r s' =>
      s'.SingleRecord r.1 ∧ r.1.bounds = [] := by
  rw [typeRecord]
  refine (enterTypeParameters_single h sight id fun yes => ends yes _ List.mem_cons_self).resolve_bind
    fun generics sc₁ s₁ move₁ sight₁ => ?_
  let usage : TypeShape := .declared .none id (generics.map (·.2))
  obtain ⟨made, single⟩ : Ensures (KeepsSingle written) s₁ (StoreM.newType usage) _ :=
    newType_single move₁.singly nofun nofun
  refine Ensures.resolve_bind (P := fun r s' => s'.Single r.1 ∧ r.2 = sc₁) ⟨made, single, rfl⟩ ?_
  rintro asType _ s₂ move₂ ⟨single, rfl⟩
  refine (superclassOf_single move₂.singly d slot.qualifiedName asType).resolve_bind
    fun superclass sc₃ s₃ move₃ visible₃ => ?_
  have sight₃ := (sight₁.move move₂ rfl).move move₃ visible₃
  refine (interfacesOf_single move₃.singly d).resolve_bind fun interfaces sc₄ s₄ move₄ visible₄ => ?_
  have sight₄ := sight₃.move move₄ visible₄
  have single₄ := move₄.single _ (move₃.single _ single)
  have members := enterMembers_single answers move₄.singly sight₄ id single₄ d.members fun yes m mem =>
    ends yes _ (List.mem_cons_of_mem _ (List.mem_map_of_mem mem))
  refine members.resolve_bind fun members sc₅ s₅ move₅ _ => ?_
  refine (annotations_single answers move₅.singly d.annotations).resolve_bind
    fun annotations sc₆ s₆ move₆ _ => .scope ?_
  exact .pure move₆.singly.stays ⟨⟨move₆.single _ (move₅.single _ single₄), nofun⟩, rfl⟩

theorem completeType_single (answers : SingleAnswers written again) (h : s.Singly) (id : ElementId) (slot : Slot)
    (d : TypeHeader) (ends : written → d.ChainsEnd) :
    Ensures (KeepsSingle written) s (completeType again id slot d) fun r s' => s'.SingleRecord r ∧ r.bounds = [] := by
  have finish (nesting : Nesting) (visible : List (String × TypeId)) {s : Store} (h : s.Singly)
      (sight : ∀ v ∈ visible, s.Single v.2) (package : String) :
      Ensures (KeepsSingle written) s
        ((typeRecord again id slot d nesting).run' { package, owner := slot.qualifiedName, visible })
        fun r s' => s'.SingleRecord r ∧ r.bounds = [] :=
    have inside : Scope.Single { package, owner := slot.qualifiedName, visible } s := sight
    .map (typeRecord_single answers h inside id slot d nesting ends)
  unfold completeType
  refine .get (iteInduction
    (motive := fun m => Ensures (KeepsSingle written) s m fun r s' => s'.SingleRecord r ∧ r.bounds = [])
    (fun _ => ?_) fun _ => ?_)
  · exact (visibleVariables_single answers h slot.enclosing).bind fun visible s₁ move sight =>
      finish _ visible move.singly sight _
  · exact finish _ [] h nofun _

theorem step_single (answers : SingleAnswers True again) : SingleAnswers True (step again) := by
  intro e s h
  have nothing : s.Single .none := (h.initial _ (by decide)).single
  refine .get ?_
  cases found : s.slot? e with
  | none => exact .pure h.stays nothing
  | some slot =>
    dsimp only
    cases state : slot.state with
    | complete r => exact .pure h.stays (h.records e r (record?_eq_some_iff.mpr ⟨slot, found, state⟩)).1
    | completing => exact .pure h.stays nothing
    | pending work =>
      have finish {written : Prop} {c : StoreM ElementRecord} (declared : s.ChainsEnd → written)
          (made : ∀ s, s.Singly → Ensures (KeepsSingle written) s c fun r s' => s'.SingleRecord r ∧ r.bounds = []) :
          Ensures (KeepsSingle True) s (do
            modify (·.setState e .completing)
            let r ← c
            modify fun s => { s with completions := s.completions + 1 }
            StoreM.publish r
            return r) fun r s' => s'.Single r.asType := by
        have begun : s.KeepsSingle written (s.setState e .completing) := h.begin
        obtain ⟨move, single, unbounded⟩ := made _ begun.singly
        have counted : s.KeepsSingle written { (c (s.setState e .completing)).2 with
            completions := (c (s.setState e .completing)).2.completions + 1 } :=
          Movement.trans begun (Movement.trans move (move.singly.adds ⟨rfl, fun _ _ => id⟩ move.singly.object))
        have published : KeepsSingle written _ _ :=
          counted.singly.publish (e := (c (s.setState e .completing)).1.id) single fun _ => unbounded
        have moved : s.KeepsSingle written _ := Movement.trans counted published
        exact ⟨{ moved with ends := fun _ chains => moved.ends (declared chains) chains }, published.single _ single.1⟩
      cases work with
      | container =>
        refine finish (fun _ => True.intro) fun s h => .pure h.stays ⟨⟨?_, nofun⟩, rfl⟩
        unfold Store.containerRecord
        dsimp only
        split <;> exact (h.initial _ (by decide)).single
      | type d =>
        refine finish (fun chains => chains.declared e slot d found state) fun s h => ?_
        exact completeType_single (answers.weaken fun _ => trivial) h e slot d id

theorem stepN_single (fuel : Nat) : SingleAnswers True (stepN fuel) := by
  induction fuel with
  | zero => exact step_single fun e s h => .pure h.stays (h.initial .none (by decide)).single
  | succ fuel ih => exact step_single ih

end adding

end Completion

theorem StoreM.complete_single : SingleAnswers True StoreM.complete :=
  fun e s h => .get (Completion.stepN_single _ e s h)

instance : Tame (StaysSingle True) where
  complete e s h := (StoreM.complete_single e s h).1

section requests

def Store.HostsSingle (s s' : Store) : Prop := s.SameHeadings s' ∧ s.StaysSingle False s'

instance : Hosting HostsSingle where
  refl s := ⟨fun _ slot found => ⟨slot, found, rfl⟩, Calm.refl s⟩
  trans first second := ⟨first.1.trans second.1, Calm.trans first.2 second.2⟩
  internName _ _ := ⟨(follows_aside rfl).headings, Mild.aside rfl rfl rfl rfl (.inl rfl)⟩
  headings := And.left
  listed {s s'} elements types _ usage := by
    have adds : s.AddsTypes s' := ⟨elements, fun t shape found => by rwa [shape?, types]⟩
    exact ⟨(follows_aside elements).headings, fun h => h.adds adds fun t same =>
      adds.keeps.rigid (h.object t (by rwa [usage] at same))⟩
  pushPending state _ fits placed :=
    ⟨(follows_pushSlot fits fun _ => placed).headings, fun h =>
      h.pushSlot (fun r complete => by cases state.symm.trans complete) False.elim⟩
  addChild s parent child := ⟨(follows_addChild parent child).headings, fun h => h.addChild parent child⟩

theorem enterLocal_single (h : s.Singly) (owner : ElementId) (kind : ElementKind) (name : String) (a : TypeExpr) :
    Ensures (KeepsSingle False) s (StoreM.enterLocal owner kind name a).run fun _ _ => True := by
  have answers : SingleAnswers False StoreM.complete := StoreM.complete_single.weaken fun _ => trivial
  unfold StoreM.enterLocal
  refine .except_guard h.stays (fun _ => trivial) fun _ => ?_
  refine (answers owner s h).except_step fun r s₁ move₁ _ => ?_
  refine .except_guard move₁.singly.stays (fun _ => trivial) fun _ => ?_
  have within : Ensures (KeepsSingle False) s₁ (StoreM.scopeWithin owner) fun sc s' => sc.Single s' := by
    refine .get ((Completion.visibleVariables_single answers move₁.singly (some owner)).bind
      fun visible s₂ move₂ sight => .pure move₂.singly.stays sight)
  refine within.except_step fun sc s₂ move₂ sight => ?_
  refine (resolve_single move₂.singly sight a).except_step ?_
  rintro ⟨t, sc'⟩ s₃ move₃ ⟨single, -⟩
  have entered : Ensures (KeepsSingle False) s₃ (StoreM.newComplete fun id =>
      { id, kind, simpleName := name, enclosing := some owner, asType := t, nesting := .body
        erroneous := 0 < sc'.unresolved }) fun _ _ => True := by
    refine ⟨move₃.singly.pushSlot (fun r state => ?_) False.elim, trivial⟩
    cases state
    exact ⟨⟨single, nofun⟩, False.elim⟩
  refine entered.except_step fun id s₄ move₄ _ => ?_
  exact ⟨move₄.singly.addChild owner id, trivial⟩

namespace Store

theorem Singly.request (h : s.Singly) (q : Request) : (q.run s).2.Singly := by
  have entering {m : StoreM Unit} (hosts : Keeping HostsSingle m) : (m s).2.Singly := ((hosts s).2 h).singly
  by_cases asks : q.asks
  · have kept : s.StaysSingle True (q.run s).2 := q.keeping_run_asks asks s
    exact (kept h).singly
  cases q with
  | enterModule name => exact entering (keeping_discard (StoreM.keeping_enterModule name))
  | enterPackage module name => exact entering (keeping_discard (StoreM.keeping_enterPackage module name))
  | enterType package d => exact entering (keeping_discard (keeping_checked_run (StoreM.keeping_enterType package d)))
  | enterDeclarations p => exact entering (keeping_discard (StoreM.keeping_enterDeclarations p))
  | enterLocal owner kind name a => exact (enterLocal_single h owner kind name a).1.singly
  | _ => exact absurd rfl asks

theorem singly_empty : Store.empty.Singly where
  initial t bound := by
    have rigid : ∀ shape ∈ TypeShape.initial, shape.kind ≠ .intersection ∧ shape.kind ≠ .typeVariable := by decide
    have there := List.getElem?_eq_getElem bound
    exact ⟨TypeShape.initial[t.index], by rw [← there]; exact List.getElem?_toArray, rigid _ (List.getElem_mem bound)⟩
  records e r complete := by simp [record?, slot?, empty] at complete
  object := nofun

theorem Reachable.singly (reachable : s.Reachable) : s.Singly := by
  induction reachable with
  | rest => exact singly_empty
  | ask q _ _ ih => exact ih.request q

end Store

end requests

end Nominal
