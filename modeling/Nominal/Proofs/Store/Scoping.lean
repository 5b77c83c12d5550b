import Nominal.Proofs.Store.Immutable
import Nominal.Proofs.Store.Wording
/-!
Type variables are scoped lexically. Completing a type and entering something local to an executable find out in
different ways what names mean, the one as it goes along and the other by walking outward afterwards, and both come to
what the declarations around the place say.
-/

namespace Nominal

open Completion

namespace Store

section serving

variable {s s₂ : Store} {e : ElementId} {slot : Slot} {r : ElementRecord} (waits : slot.isPending) (found : s.slot? e = some slot)

include waits found

theorem absent_record : s.record? e = none := by
  cases complete : s.record? e with
  | none => rfl
  | some r =>
    obtain ⟨slot', found', state⟩ := record?_eq_some_iff.mp complete
    cases found.symm.trans found'
    simp [Slot.isPending, state] at waits

theorem conserves_begin : s.Conserves (s.setState e .completing) where
  toFollows := follows_begin
  records a k r known plain complete := by
    have other : a ≠ e := by
      rintro rfl
      cases (absent_record waits found).symm.trans complete
    exact (record?_congr (slot?_setState_ne _ other)).trans complete
  shapes _ _ found _ := found
  bound _ _ := id

theorem lent_begin (orderly : s.Orderly) (lent : s.Lent) : (s.setState e .completing).Lent := by
  intro a r complete generic
  have before : s.record? a = some r := by
    by_cases same : a = e
    · subst same
      obtain ⟨slot', found', state⟩ := record?_eq_some_iff.mp complete
      cases (slot?_setState .completing found).symm.trans found'
      cases state
    · exact (record?_congr (slot?_setState_ne _ same)).symm.trans complete
  obtain ⟨vs, lends⟩ := lent a r before generic
  exact ⟨vs, lends.conserve (conserves_begin waits found) orderly⟩

theorem Clear.begin (clear : s.Clear) : (s.setState e .completing).Clear := by
  have orderly := (conserves_begin waits found).orderly clear.orderly
  refine clear.move ((Underlies.refl s).begin e) ?_ orderly (lent_begin waits found clear.orderly clear.lent)
  rw [waiting_begin found]
  exact Finset.erase_subset _ _

theorem course_served (inside : (s.setState e .completing).Course Nothing s₂) (describes : r.Describes e slot)
    {vs : List (String × TypeId)} (lends : s₂.Lends r.typeParameters vs)
    (understood : ∀ h, slot.state = .pending (.type h) → (served s₂ e r).Understood e h r) : s.Course Nothing (served s₂ e r) := by
  let s₁ := s.setState e .completing
  let s₃ : Store := { s₂ with completions := s₂.completions + 1 }
  have begun : s₁.slot? e = some { slot with state := .completing } := slot?_setState _ found
  have found₃ : s₃.slot? e = some { slot with state := .completing } := inside.open_slot begun rfl not_false
  have counted : s₂.Course (· = e) s₃ :=
    .of_spares ((Keeps.refl s₂).restate (fun _ => rfl) fun _ => rfl) (follows_aside rfl) (fun _ _ _ => id) rfl
      (waiting_congr rfl).subset fun _ => id
  have published : s₃.Course (· = e) (served s₂ e r) := by
    refine course_publish found₃ rfl (describes.congr rfl) (?_ : s₃.Lends r.typeParameters vs) rfl
    exact lends
  have whole : s₁.Course (· = e) (served s₂ e r) := (inside.weaken fun _ _ => False.elim).trans (counted.trans published)
  have apart {a : ElementId} (other : a ≠ e) : s₁.slot? a = s.slot? a := slot?_setState_ne _ other
  have closed : ¬ s.Open e := by
    rintro ⟨slot', found', state⟩
    cases found.symm.trans found'
    simp [Slot.isPending, state] at waits
  have first : s.Conserves s₁ := conserves_begin waits found
  refine ⟨first.trans whole.conserves, ((Underlies.refl s).begin e).trans whole.underlies, ?_, ?_, ?_, ?_⟩
  · refine whole.waiting.trans ?_
    rw [waiting_begin found]
    exact Finset.erase_subset _ _
  · intro a isOpen _
    have other : a ≠ e := fun same => closed (same ▸ isOpen)
    obtain ⟨slot', found', state⟩ := isOpen
    exact whole.opens a ⟨slot', (apart other).trans found', state⟩ other
  · exact fun orderly lent => whole.lent (first.orderly orderly) (lent_begin waits found orderly lent)
  · intro orderly a slot' h found' state
    by_cases same : a = e
    · subst same
      cases found.symm.trans found'
      exact .inr ⟨r, understood h state⟩
    · exact whole.understands (first.orderly orderly) a slot' h ((apart same).trans found') state

omit waits found in
theorem conserves_served (found : s.slot? e = some slot) (state : slot.state = .completing) (describes : r.Describes e slot) :
    s.Conserves (served s e r) := by
  have counted : s.Conserves { s with completions := s.completions + 1 } :=
    ⟨follows_aside rfl, fun _ _ _ _ _ => id, fun _ _ found _ => found, fun _ _ => id⟩
  exact counted.trans (conserves_publish found state describes)

omit waits found in
theorem understood_served {h : TypeHeader} {outer : List (String × TypeId)} (orderly : s.Orderly) (found : s.slot? e = some slot)
    (state : slot.state = .completing) (describes : r.Describes e slot) (generic : r.kind.isParameterizable)
    (surrounds : s.Surrounds outer r) (inside : s.ReadsInside outer e h r) : (served s e r).Understood e h r := by
  obtain ⟨vs, lends, reads⟩ := inside
  have move : s.Conserves (served s e r) := conserves_served found state describes
  have complete : (served s e r).record? e = some r := record?_served (has_element_iff.mpr ⟨slot, found⟩)
  have orderly' := move.orderly orderly
  have here (x : String) : (served s e r).Binds e x (inSight? (vs.reverse ++ outer) x) :=
    binds_of_inSight complete generic (lends.conserve move orderly) (surrounds.conserve move orderly found describes generic) x
  refine ⟨complete, generic, reads.mono ?_ move orderly, fun x => ⟨_, here x⟩⟩
  rintro a x b (⟨rfl, rfl⟩ | ⟨q, ws, complete', executable, enclosing, lends', rfl⟩)
  · exact here x
  · have generic' : q.kind.isParameterizable := by rw [ElementKind.isParameterizable, executable, Bool.or_true]
    have complete'' := move.record orderly complete' (ElementKind.parameterizable_not_container generic')
    have sees : (served s e r).SeesAround q e := ⟨enclosing, ⟨r.kind, orderly'.kind_of_record complete, generic⟩, .inl executable⟩
    exact binds_of_inSight complete'' generic' (lends'.conserve move orderly) (.inl ⟨e, sees, here⟩) x

end serving

structure Sights (s : Store) (e : ElementId) (vs : List (String × TypeId)) : Prop where
  binds : s.IsGeneric e → ∀ x, s.Binds e x (inSight? vs x)
  bare : ¬ s.IsGeneric e → vs = []
  bound : s.AllStand vs

theorem sights_of_surrounds {s : Store} {e : ElementId} {r : ElementRecord} {vs outer : List (String × TypeId)}
    (orderly : s.Orderly) (complete : s.record? e = some r) (generic : r.kind.isParameterizable)
    (lends : s.Lends r.typeParameters vs) (surrounds : s.Surrounds outer r) (bound : s.AllStand outer) :
    s.Sights e (vs.reverse ++ outer) where
  binds _ := binds_of_inSight complete generic lends surrounds
  bare bare := absurd ⟨r.kind, orderly.kind_of_record complete, generic⟩ bare
  bound := lends.allStand bound

end Store

namespace Completion

open Store

section visible

variable {n : Nat} {s : Store} {e o : ElementId} {ps : List ElementId} {vs outer : List (String × TypeId)} {r : ElementRecord}

theorem mapM_recalls (orderly : s.Orderly) (lends : s.Lends ps vs) :
    (ps.mapM fun p => do
      let p ← StoreM.complete p
      return (p.simpleName, p.asType) : StoreM (List (String × TypeId))) s = (vs, s) := by
  induction lends with
  | nil => rfl
  | @cons p v ps vs one _ ih =>
    obtain ⟨_, r, complete, _, name, type⟩ := one
    obtain ⟨slot, found, state⟩ := record?_eq_some_iff.mp complete
    have recalls : StoreM.complete p s = (r, s) := by
      rw [StoreM.complete_eq_step orderly p, step_of_complete found state]
    have first : (do
        let p ← StoreM.complete p
        return (p.simpleName, p.asType) : StoreM (String × TypeId)) s = (v, s) := by
      rw [stateM_bind, recalls]
      exact Prod.ext (Prod.ext name type) rfl
    rw [List.mapM_cons, stateM_bind, first, stateM_bind, ih]
    rfl

theorem visibleVariablesN_none (again : Again) (fuel : Nat) : visibleVariablesN again fuel none = pure [] := by
  cases fuel <;> rfl

theorem surrounds_seen (fuel : Nat) (seen : ∀ o, r.enclosing = some o →
      Ensures (Course Nothing) s (visibleVariablesN StoreM.complete fuel (some o)) fun vs s' => s'.Sights o vs) :
    Ensures (Course Nothing) s (visibleVariablesN StoreM.complete fuel
      (if (r.kind.isExecutable || (r.kind == .classType && !r.isStatic)) = true then r.enclosing else none)) fun outer s' =>
        s'.Surrounds outer r ∧ s'.AllStand outer := by
  split <;> rename_i inherits
  · cases enclosing : r.enclosing with
    | none =>
      rw [visibleVariablesN_none]
      refine .pure (.refl s) ⟨.inr ⟨rfl, fun o sees => ?_⟩, List.forall_mem_nil _⟩
      cases enclosing.symm.trans sees.1
    | some o =>
      refine (seen o enclosing).imp fun outer s' _ sights => ⟨?_, sights.bound⟩
      by_cases place : s'.IsGeneric o
      · exact .inl ⟨o, ⟨enclosing, place, by simpa using inherits⟩, sights.binds place⟩
      · refine .inr ⟨sights.bare place, fun o' sees => place ?_⟩
        cases enclosing.symm.trans sees.1
        exact sees.2.1
  · rw [visibleVariablesN_none]
    refine .pure (.refl s) ⟨.inr ⟨rfl, fun o sees => inherits ?_⟩, List.forall_mem_nil _⟩
    simpa using sees.2.2

theorem complete_seen (goes : Goes n) (clear : s.Clear) (few : s.waiting.card ≤ n) (younger : ∀ a, s.Open a → e.index < a.index)
    (there : s.HasElement e) :
    Ensures (Course Nothing) s (StoreM.complete e) fun r s' => s'.record? e = some r ∧ s.Keeps s' := by
  obtain ⟨keeps, complete⟩ := StoreM.complete_settles s e
  have closed : ¬ s.Open e := fun isOpen => Nat.lt_irrefl _ (younger e isOpen)
  exact ⟨goes s e clear few (.inr (.inr younger)), complete there closed, keeps⟩

theorem visibleVariablesN_seen (goes : Goes n) (fuel : Nat) (clear : s.Clear) (few : s.waiting.card ≤ n)
    (younger : ∀ a, s.Open a → e.index < a.index) (enough : e.index < fuel) :
    Ensures (Course Nothing) s (visibleVariablesN StoreM.complete fuel (some e)) fun vs s' => s'.Sights e vs := by
  induction fuel generalizing s e with
  | zero => exact absurd enough (Nat.not_lt_zero _)
  | succ fuel ih =>
    rw [visibleVariablesN]
    refine .get ?_
    cases known : s.kind? e with
    | none =>
      refine .pure (.refl s) ⟨?_, fun _ => rfl, List.forall_mem_nil _⟩
      rintro ⟨k, known', _⟩
      cases known.symm.trans known'
    | some k =>
      dsimp only
      split <;> rename_i generic
      · refine .pure (.refl s) ⟨?_, fun _ => rfl, List.forall_mem_nil _⟩
        rintro ⟨k', known', generic'⟩
        cases known.symm.trans known'
        simp [generic'] at generic
      · obtain ⟨slot, found, rfl⟩ := kind?_eq_some_iff.mp known
        refine (complete_seen goes clear few younger (has_element_iff.mpr ⟨slot, found⟩)).bind ?_
        rintro r s₁ course₁ ⟨complete, keeps⟩
        have clear₁ := course₁.clear clear
        obtain ⟨slot₁, found₁, state₁⟩ := record?_eq_some_iff.mp complete
        have described := (clear₁.orderly.slots e slot₁ found₁).described r state₁
        have kind : slot.kind = r.kind :=
          Option.some.inj ((course₁.conserves.headings.kind known).symm.trans (clear₁.orderly.kind_of_record complete))
        rw [kind] at generic ⊢
        have generic : r.kind.isParameterizable := by simpa using generic
        obtain ⟨vs, lends⟩ := clear₁.lent e r complete generic
        have own : Ensures (Course Nothing) s₁ (r.typeParameters.mapM fun p => do
            let p ← StoreM.complete p
            return (p.simpleName, p.asType)) fun vs' s' => vs' = vs ∧ s' = s₁ := by
          rw [Ensures, mapM_recalls clear₁.orderly lends]
          exact ⟨.refl s₁, rfl, rfl⟩
        refine own.bind ?_
        rintro _ s' _ ⟨same, here⟩
        rw [same, here]
        refine (surrounds_seen fuel fun o enclosing => ?_).bind ?_
        · -- What encloses an element is older, and nothing was opened since.
          have older : o.index < e.index :=
            (clear₁.orderly.placed e slot₁ o found₁ (described.kind ▸ generic) (described.enclosing ▸ enclosing)).1
          have younger₁ (a : ElementId) (isOpen : s₁.Open a) : o.index < a.index :=
            ((keeps.opens a).mp isOpen).elim (fun isOpen => older.trans (younger a isOpen)) False.elim
          exact ih clear₁ ((Finset.card_le_card course₁.waiting).trans few) younger₁
            (Nat.lt_of_lt_of_le older (Nat.le_of_lt_succ enough))
        · rintro outer s₂ course₂ ⟨surrounds, bound⟩
          have complete₂ := course₂.conserves.record clear₁.orderly complete (ElementKind.parameterizable_not_container generic)
          exact .pure (.refl s₂) (sights_of_surrounds (course₂.conserves.orderly clear₁.orderly) complete₂ generic
            (lends.conserve course₂.conserves clear₁.orderly) surrounds bound)

theorem visibleVariables_seen (goes : Goes n) (clear : s.Clear) (few : s.waiting.card ≤ n)
    (younger : ∀ a, s.Open a → e.index < a.index) (there : s.HasElement e) :
    Ensures (Course Nothing) s (visibleVariables StoreM.complete (some e)) fun vs s' => s'.Sights e vs :=
  .get (visibleVariablesN_seen goes _ clear few younger (Nat.lt_succ_of_lt there))

end visible

section types

variable {n : Nat} {s : Store} {e o : ElementId} {slot : Slot} {h : TypeHeader}

theorem completeType_eq (again : Again) (e : ElementId) (slot : Slot) (h : TypeHeader) :
    completeType again e slot h = (do
      let s ← get
      (if s.inherits slot h then visibleVariables again slot.enclosing else pure []) >>= fun visible =>
        (typeRecord again e slot h (s.nestingOf slot)).run' { s.scopeOf e slot with visible }) := by
  funext s
  unfold completeType
  rw [stateM_get_bind, stateM_get_bind]
  change (if s.nestingOf slot = .member ∧ .static ∉ modifiersOf h (s.nestingOf slot) then _ else _ : StoreM ElementRecord) s = _
  by_cases inherits : s.nestingOf slot = .member ∧ .static ∉ modifiersOf h (s.nestingOf slot)
  · rw [if_pos inherits, if_pos (by simpa [Store.inherits] using inherits)]
    rfl
  · rw [if_neg inherits, if_neg (by simpa [Store.inherits] using inherits)]
    rfl

theorem inherits_class (inherits : s.inherits slot h) :
    (∃ o k, slot.enclosing = some o ∧ s.kind? o = some k ∧ k.isType) ∧ h.kind = .classType ∧
      .static ∉ modifiersOf h (s.nestingOf slot) := by
  obtain ⟨member, dynamic⟩ : s.nestingOf slot = .member ∧ .static ∉ modifiersOf h (s.nestingOf slot) := by
    simpa [Store.inherits] using inherits
  refine ⟨?_, ?_, dynamic⟩
  · rw [nestingOf] at member
    split at member
    · rename_i k known
      obtain ⟨o, enclosing, known⟩ := Option.bind_eq_some_iff.mp known
      refine ⟨o, k, enclosing, known, ?_⟩
      by_contra other
      rw [if_neg other] at member
      cases member
    · cases member
  · by_contra other
    rw [member, modifiersOf] at dynamic
    split at dynamic
    · simp at dynamic
    · rename_i implied
      exact implied ⟨rfl, other, dynamic⟩

theorem nestingOf_setState (a : ElementId) (state : SlotState) : (s.setState a state).nestingOf slot = s.nestingOf slot := by
  have kinds : (s.setState a state).kind? = s.kind? := funext fun e => kind_setState a e state
  rw [nestingOf, kinds, nestingOf]

theorem inherits_of_sees {r : ElementRecord} (clear : s.Clear) (found : s.slot? e = some slot)
    (state : slot.state = .pending (.type h)) (describes : r.Describes e slot)
    (modifiers : r.modifiers = modifiersOf h (s.nestingOf slot)) (sees : s.SeesAround r o) : s.inherits slot h := by
  obtain ⟨enclosing, ⟨k, known, place⟩, inside⟩ := sees
  have announced := (clear.orderly.slots e slot found).announced h state
  have enclosing : slot.enclosing = some o := describes.enclosing ▸ enclosing
  have around : k.isType := by
    have other := clear.housed e slot h o k found state enclosing known
    simpa [ElementKind.isParameterizable, other] using place
  have member : s.nestingOf slot = .member := by
    simp only [nestingOf, enclosing, Option.bind_some, known, if_pos around]
  have dynamic : ¬ r.isStatic := by
    refine (inside.resolve_left fun executable => ?_).2
    rw [describes.kind, ← announced.kind] at executable
    have isType := announced.isType
    revert isType executable
    cases h.kind <;> decide
  rw [ElementRecord.isStatic, modifiers] at dynamic
  simpa [Store.inherits, member] using dynamic

section opened

variable (goes : Goes n) (clear : s.Clear) (found : s.slot? e = some slot) (state : slot.state = .pending (.type h))
  (askable : s.Askable e) (few : (s.setState e .completing).waiting.card ≤ n)

include goes clear found state askable few

theorem outward_seen : Ensures (Course Nothing) (s.setState e .completing)
    (if (s.setState e .completing).inherits slot h then visibleVariables StoreM.complete slot.enclosing else pure [])
    fun outer s' => s'.AllStand outer ∧
      ((∃ o, slot.enclosing = some o ∧ s'.IsGeneric o ∧ ∀ x, s'.Binds o x (inSight? outer x)) ∧ s.inherits slot h ∨
        outer = [] ∧ ¬ s.inherits slot h) := by
  have waits : slot.isPending := by simp [Slot.isPending, state]
  have same : (s.setState e .completing).inherits slot h = s.inherits slot h := by
    rw [Store.inherits, nestingOf_setState, Store.inherits]
  rw [same]
  split <;> rename_i inherits
  · obtain ⟨⟨o, k, enclosing, known, isType⟩, kind, _⟩ := inherits_class inherits
    obtain ⟨older, encloses⟩ := clear.orderly.placed e slot o found (clear.orderly.generic found state) enclosing
    have younger : ∀ a, s.Open a → e.index < a.index := by
      rcases askable with settled | enumeration | younger
      · exact absurd (by rwa [isPending_of_slot found]) settled
      · have announced := (clear.orderly.slots e slot found).announced h state
        rw [kind?, found, Option.map_some, ← announced.kind, kind] at enumeration
        cases enumeration
      · exact younger
    have younger₁ (a : ElementId) (isOpen : (s.setState e .completing).Open a) : o.index < a.index := by
      by_cases mine : a = e
      · exact mine ▸ older
      · obtain ⟨slot', found', state'⟩ := isOpen
        exact older.trans (younger a ⟨slot', (slot?_setState_ne _ mine).symm.trans found', state'⟩)
    have begun : s.Follows (s.setState e .completing) := follows_begin
    have place : s.IsGeneric o := ⟨k, known, by rw [ElementKind.isParameterizable, isType, Bool.true_or]⟩
    rw [enclosing]
    refine (visibleVariables_seen goes (clear.begin waits found) few younger₁ (begun.there encloses.there)).imp ?_
    intro outer s' course seen
    have generic := (place.follow begun).follow course.conserves.toFollows
    exact ⟨seen.bound, .inl ⟨⟨o, rfl, generic, seen.binds generic⟩, inherits⟩⟩
  · exact .pure (.refl _) ⟨List.forall_mem_nil _, .inr ⟨rfl, inherits⟩⟩

theorem completeType_reads : Ensures (Course Nothing) (s.setState e .completing) (completeType StoreM.complete e slot h)
    fun r s' => ∃ outer, s'.Surrounds outer r ∧ s'.ReadsInside outer e h r := by
  let s₁ := s.setState e .completing
  have waits : slot.isPending := by simp [Slot.isPending, state]
  have announced := (clear.orderly.slots e slot found).announced h state
  have inside : s.Encloses e := ⟨slot, found, .inr (clear.orderly.generic found state)⟩
  have clear₁ : s₁.Clear := clear.begin waits found
  have begun : s.Follows s₁ := follows_begin
  have under : s.Underlies s₁ := (Underlies.refl s).begin e
  have ready : Ready n s₁ (s₁.scopeOf e slot) h.shown := by
    refine ⟨clear₁, few, List.forall_mem_nil _, clear.showsEnums under (clear.shows e slot h found state) ?_⟩
    rw [scopeOf, scopeOf, under.packageName clear.orderly inside]
  have described : (completeType StoreM.complete e slot h s₁).1.Describes e slot := completeType_describes _ s₁ announced
  have modifiers := completeType_modifiers StoreM.complete e slot h s₁
  rw [nestingOf_setState] at modifiers
  have reads : Ensures (Course Nothing) s₁ (completeType StoreM.complete e slot h) fun r s' => ∃ outer,
      ((∃ o, slot.enclosing = some o ∧ s'.IsGeneric o ∧ ∀ x, s'.Binds o x (inSight? outer x)) ∧ s.inherits slot h ∨
        outer = [] ∧ ¬ s.inherits slot h) ∧ s'.ReadsInside outer e h r := by
    rw [completeType_eq]
    refine .get ?_
    refine (outward_seen goes clear found state askable few).bind ?_
    rintro outer s₂ course ⟨bound, around⟩
    have clear₂ := course.clear clear₁
    have ready₂ : Ready n s₂ { s₁.scopeOf e slot with visible := outer } h.shown :=
      ⟨clear₂, (Finset.card_le_card course.waiting).trans few, bound, clear₁.showsEnums course.underlies ready.shows rfl⟩
    have encloses := course.conserves.headings.encloses (begun.headings.encloses inside)
    refine Ensures.map ((typeRecord_reads goes encloses slot h _ ready₂).imp fun r s' course' reads => ⟨outer, ?_, reads⟩)
    refine around.imp_left ?_
    rintro ⟨⟨o, enclosing, generic, binds⟩, inherits⟩
    refine ⟨⟨o, enclosing, ?_, fun x => ?_⟩, inherits⟩
    · exact generic.follow course'.conserves.toFollows
    · exact (binds x).conserve course'.conserves clear₂.orderly
  obtain ⟨course, outer, around, inside⟩ := reads
  refine ⟨course, outer, ?_, inside⟩
  rcases around with ⟨⟨o, enclosing, generic, binds⟩, inherits⟩ | ⟨rfl, inherits⟩
  · obtain ⟨_, kind, dynamic⟩ := inherits_class inherits
    refine .inl ⟨o, ⟨described.enclosing.trans enclosing, generic, .inr ⟨described.kind.trans ?_, ?_⟩⟩, binds⟩
    · rw [← announced.kind, kind]
    · rw [ElementRecord.isStatic, modifiers]
      simpa using dynamic
  · refine .inr ⟨rfl, fun o sees => inherits ?_⟩
    have follows := begun.trans course.conserves.toFollows
    have generic : (completeType StoreM.complete e slot h s₁).1.kind.isParameterizable :=
      described.kind ▸ clear.orderly.generic found state
    exact inherits_of_sees clear found state described modifiers
      ((clear.orderly.sees_iff follows found described generic).mp sees)

end opened

theorem complete_goes (n : Nat) : Goes n := by
  induction n using Nat.strongRecOn with
  | ind n ih =>
    intro s e clear few askable
    rw [StoreM.complete_eq_step clear.orderly e]
    cases found : s.slot? e with
    | none =>
      rw [step_of_absent found]
      exact .refl s
    | some slot =>
      have fits := clear.orderly.slots e slot found
      cases state : slot.state with
      | complete r =>
        rw [step_of_complete found state]
        exact .refl s
      | completing =>
        rw [step_of_completing found state]
        exact .refl s
      | pending work =>
        have waits : slot.isPending := by simp [Slot.isPending, state]
        cases work with
        | container =>
          rw [step_of_container found state]
          have none : (s.setState e .completing).Lends (containerRecord e slot).typeParameters [] := .nil
          refine course_served waits found (.refl _) (containerRecord_describes (fits.bare (.inr state))) none ?_
          intro h state'
          cases state.symm.trans state'
        | type h =>
          rw [step_of_type found state rfl]
          have fewer : (s.setState e .completing).waiting.card < n := by
            rw [waiting_begin found]
            refine Nat.lt_of_lt_of_le (Finset.card_erase_lt_of_mem (mem_waiting.mpr ?_)) few
            rw [isPending_of_slot found, waits]
          have reads := completeType_reads (ih _ fewer) clear found state askable (Nat.le_refl _)
          obtain ⟨course, outer, surrounds, inside⟩ := reads
          have described : (completeType StoreM.complete e slot h (s.setState e .completing)).1.Describes e slot :=
            completeType_describes _ _ (fits.announced h state)
          have ⟨vs, lends, _⟩ := inside
          refine course_served waits found course described lends fun h' state' => ?_
          cases state.symm.trans state'
          have begun : (s.setState e .completing).slot? e = some { slot with state := .completing } := slot?_setState _ found
          have orderly := course.conserves.orderly (clear.begin waits found).orderly
          refine understood_served orderly (course.open_slot begun rfl not_false) rfl (described.congr rfl) ?_ surrounds inside
          exact described.kind ▸ clear.orderly.generic found state

end types

end Completion

end Nominal
