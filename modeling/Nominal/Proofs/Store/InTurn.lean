import Nominal.Proofs.Order.Needs
import Nominal.Proofs.Store.Exhausting
/-!
Completion in turn. A member class that is not static sees the type variables of the type around it, so its completion
asks for that type first. Whatever is requested, wherever such a class is complete the type around it waits no longer.
-/

namespace Nominal

open Store

def ElementRecord.IsClass (r : ElementRecord) : Prop := r.kind = .classType ∧ r.asType ≠ .package

namespace Store

def Awaits (s : Store) (o : ElementId) : Prop := ∃ slot, s.slot? o = some slot ∧ slot.kind.isType ∧ slot.isPending

structure Overtakes (s : Store) (e o : ElementId) : Prop where
  record : ∃ r, s.record? e = some r ∧ r.IsClass ∧ ¬ r.isStatic ∧ r.enclosing = some o
  older : o.index < e.index
  waits : s.Awaits o

/-- On the way from `s` to `s'` nothing that was there came to wait, and no class overtook the type around it. -/
structure InTurn (s s' : Store) : Prop where
  headings : s.SameHeadings s'
  waits : ∀ o, s.HasElement o → s'.Awaits o → s.Awaits o
  turn : ∀ e o, s'.Overtakes e o → s.Overtakes e o

variable {s s' : Store} {e o : ElementId} {slot : Slot} {r : ElementRecord} {state : SlotState}

theorem inTurn_of (headings : s.SameHeadings s')
    (records : ∀ e r, s'.record? e = some r → r.IsClass → s.record? e = some r)
    (waits : ∀ o, s.HasElement o → s'.Awaits o → s.Awaits o) : s.InTurn s' := by
  refine ⟨headings, waits, ?_⟩
  rintro e o ⟨⟨r, complete, isClass, sees, around⟩, older, awaits⟩
  have before := records e r complete isClass
  obtain ⟨slot, found, _⟩ := record?_eq_some_iff.mp before
  have there : e.index < s.elements.size := has_element_iff.mpr ⟨slot, found⟩
  exact ⟨⟨r, before, isClass, sees, around⟩, older, waits o (older.trans there) awaits⟩

theorem inTurn_aside (elements : s'.elements = s.elements) : s.InTurn s' := by
  have same (e : ElementId) : s'.slot? e = s.slot? e := by rw [slot?, elements, slot?]
  refine inTurn_of (follows_aside elements).headings (fun e r complete _ => ?_) fun o _ awaits => ?_
  · rwa [record?_congr (same e)] at complete
  · rwa [Awaits, same] at awaits

theorem inTurn_pushSlot (other : ∀ r, slot.state = .complete r → r.kind ≠ .classType) : s.InTurn (s.pushSlot slot) := by
  have headings : s.SameHeadings (s.pushSlot slot) := fun e old found => by
    have there : e.index < s.elements.size := has_element_iff.mpr ⟨old, found⟩
    exact ⟨old, by rw [slot?_push, if_neg (Nat.ne_of_lt there), found], rfl⟩
  refine inTurn_of headings (fun e r complete isClass => ?_) fun o there => ?_
  · obtain ⟨slot', found, state⟩ := record?_eq_some_iff.mp complete
    rw [slot?_push] at found
    split at found
    · cases found
      exact absurd isClass.1 (other r state)
    · exact record?_eq_some_iff.mpr ⟨slot', found, state⟩
  · rintro ⟨slot', found, waits⟩
    rw [slot?_push, if_neg (Nat.ne_of_lt there)] at found
    exact ⟨slot', found, waits⟩

theorem inTurn_setState (begun : ∀ work, state ≠ .pending work)
    (other : ∀ r, state = .complete r → r.kind ≠ .classType) : s.InTurn (s.setState e state) := by
  have slots {a : ElementId} {slot : Slot} (found : (s.setState e state).slot? a = some slot) :
      slot.state = state ∨ s.slot? a = some slot := by
    rw [show (s.setState e state).slot? a = _ from slot?_update] at found
    split at found
    · obtain ⟨slot', _, rfl⟩ := Option.map_eq_some_iff.mp found
      exact .inl rfl
    · exact .inr found
  refine inTurn_of (headings_updateSlot fun _ => rfl) (fun a r complete isClass => ?_) fun o _ => ?_
  · obtain ⟨slot, found, published⟩ := record?_eq_some_iff.mp complete
    refine (slots found).elim (fun now => ?_) fun found => record?_eq_some_iff.mpr ⟨slot, found, published⟩
    exact absurd isClass.1 (other r (now.symm.trans published))
  · rintro ⟨slot, found, isType, waits⟩
    refine (slots found).elim (fun now => ?_) fun found => ⟨slot, found, isType, waits⟩
    obtain ⟨work, pending⟩ : ∃ work, slot.state = .pending work := by
      rw [Slot.isPending] at waits
      split at waits
      · exact ⟨_, ‹_›⟩
      · cases waits
    exact absurd (now.symm.trans pending) (begun work)

theorem inTurn_begin (s : Store) (e : ElementId) : s.InTurn (s.setState e .completing) :=
  inTurn_setState nofun fun _ same => nomatch same

theorem not_awaits_served (s : Store) (e : ElementId) (r : ElementRecord) : ¬ (Completion.served s e r).Awaits e := by
  rintro ⟨slot, found, _, waits⟩
  rw [show (Completion.served s e r).slot? e = _ from slot?_update, if_pos rfl] at found
  obtain ⟨_, _, rfl⟩ := Option.map_eq_some_iff.mp found
  cases waits

theorem inTurn_addChild (parent child : ElementId) : s.InTurn (s.addChild parent child) := by
  -- Only a container comes to wait when something is entered into it.
  have slots {a : ElementId} {slot : Slot} (found : (s.addChild parent child).slot? a = some slot) :
      ∃ old, s.slot? a = some old ∧ slot.kind = old.kind ∧
        (slot.state = old.state ∨ old.kind.isContainer ∧ slot.state = .pending .container) := by
    rw [show (s.addChild parent child).slot? a = _ from slot?_update] at found
    split at found
    · obtain ⟨old, found', rfl⟩ := Option.map_eq_some_iff.mp found
      exact ⟨old, found', rfl, addChild_state child old⟩
    · exact ⟨slot, found, rfl, .inl rfl⟩
  refine inTurn_of (follows_addChild parent child).headings (fun a r complete _ => ?_) fun o _ awaits => ?_
  · obtain ⟨slot, found, state⟩ := record?_eq_some_iff.mp complete
    obtain ⟨old, found, _, same | ⟨_, again⟩⟩ := slots found
    · exact record?_eq_some_iff.mpr ⟨old, found, same.symm.trans state⟩
    · cases again.symm.trans state
  · obtain ⟨slot, found, isType, waits⟩ := awaits
    obtain ⟨old, found, kind, same | ⟨container, _⟩⟩ := slots found
    · exact ⟨old, found, kind ▸ isType, by rwa [Slot.isPending, ← same]⟩
    · exact absurd container (ElementKind.isType_not_container (kind ▸ isType))

theorem inTurn_served (turn : ∀ o, r.IsClass → ¬ r.isStatic → r.enclosing = some o → o.index < e.index →
    ¬ s.Awaits o) : s.InTurn (Completion.served s e r) := by
  have kept {o : ElementId} (awaits : (Completion.served s e r).Awaits o) : s.Awaits o := by
    have other : o ≠ e := fun here => not_awaits_served s o r (here ▸ awaits)
    obtain ⟨slot, found, isType, waits⟩ := awaits
    exact ⟨slot, (Completion.slot?_served_ne other).symm.trans found, isType, waits⟩
  refine ⟨headings_updateSlot fun _ => rfl, fun o _ => kept, ?_⟩
  rintro a o ⟨⟨q, complete, isClass, sees, around⟩, older, awaits⟩
  by_cases here : a = e
  · subst here
    obtain ⟨slot, found, state⟩ := record?_eq_some_iff.mp complete
    rw [show (Completion.served s a r).slot? a = _ from slot?_update, if_pos rfl] at found
    obtain ⟨_, _, rfl⟩ := Option.map_eq_some_iff.mp found
    cases state
    exact absurd (kept awaits) (turn o isClass sees around older)
  · exact ⟨⟨q, (Completion.record?_served_ne here).symm.trans complete, isClass, sees, around⟩, older, kept awaits⟩

theorem InTurn.there (move : s.InTurn s') (there : s.HasElement e) : s'.HasElement e := by
  obtain ⟨slot, found⟩ := has_element_iff.mp there
  obtain ⟨slot', found', _⟩ := move.headings e slot found
  exact has_element_iff.mpr ⟨slot', found'⟩

end Store

theorem ElementKind.classType_of_simple {k : ElementKind} (simple : ¬ k.isParameterizable) : k ≠ .classType := by
  rintro rfl
  exact simple rfl

instance : Gentle InTurn where
  refl s := inTurn_aside rfl
  trans first second :=
    { headings := first.headings.trans second.headings
      waits := fun o there awaits => first.waits o there (second.waits o (first.there there) awaits)
      turn := fun e o overtakes => first.turn e o (second.turn e o overtakes) }
  aside elements _ _ _ _ := inTurn_aside elements
  pushType _ _ := inTurn_aside rfl
  pushSettled {_ slot r} state _ simple fits := inTurn_pushSlot fun q same => by
    cases state.symm.trans same
    rw [(fits.described r state).kind]
    exact ElementKind.classType_of_simple simple

namespace Completion

section inside

variable {again : Again}

theorem inTurn_newSlot (slot : Slot) (completing : slot.state = .completing) : Keeping InTurn (StoreM.newSlot slot) :=
  fun _ => inTurn_pushSlot fun r same => by rw [completing] at same; cases same

theorem inTurn_publish (r : ElementRecord) (other : r.kind ≠ .classType) : Keeping InTurn (StoreM.publish r) :=
  fun _ => inTurn_setState nofun fun q same => by cases same; exact other

theorem inTurn_completeTypeParameter (owner : ElementId) (p : TypeParameterDecl) (e : ElementId) (t : TypeId) :
    Keeping InTurn (completeTypeParameter owner p e t) := by
  refine Keeper.bind (ResolveM.keeping_resolveAll _) fun bounds => ?_
  have settles (upper : TypeId) : Keeping InTurn (StoreM.setShape t (.typeVariable e upper)) :=
    fun _ => inTurn_aside rfl
  rcases bounds with _ | ⟨b, _ | ⟨b', rest⟩⟩
  all_goals
    refine Keeper.bind (by grind) fun upper => ?_
    exact Keeper.bind (keeping_lift (settles upper)) fun _ => keeping_lift (inTurn_publish _ nofun)

theorem inTurn_enterTypeParameters (owner : ElementId) (ps : List TypeParameterDecl) :
    Keeping InTurn (enterTypeParameters owner ps) := by
  have reserves (p : TypeParameterDecl) : Keeping InTurn (reserveTypeParameter owner p) :=
    Keeper.bind (keeping_lift (inTurn_newSlot _ rfl)) fun e => Keeper.bind (by grind) fun t => by grind
  have completes (xs : List (TypeParameterDecl × ElementId × TypeId)) :
      Keeping InTurn (xs.forM fun x => completeTypeParameter owner x.1 x.2.1 x.2.2) := by
    induction xs with
    | nil => exact Keeper.pure ()
    | cons x xs ih => exact Keeper.bind (inTurn_completeTypeParameter owner x.1 x.2.1 x.2.2) fun _ => ih
  refine Keeper.bind (keeping_mapM reserves) fun entered => ?_
  exact Keeper.bind (completes _) fun _ => Keeper.pure _

theorem inTurn_enterExecutable (asks : ∀ e, Keeping InTurn (again e)) (owner : ElementId) (ownerType : TypeId)
    {kind : ElementKind} (other : kind ≠ .classType) (d : ExecutableDecl) :
    Keeping InTurn (enterExecutable again owner ownerType kind d) := by
  have inside {α : Type} {m : ResolveM α} (keeps : Keeping InTurn m) : Keeping InTurn (ResolveM.block m) :=
    Keeper.bind keeping_scope fun _ => Keeper.bind keeps fun a => Keeper.bind (keeping_rescope _) fun _ => Keeper.pure a
  refine Keeper.bind (keeping_lift (inTurn_newSlot _ rfl)) fun id => Keeper.bind keeping_scope fun before => ?_
  refine Keeper.bind (inside ?_) fun _ => Keeper.pure id
  refine Keeper.bind (inTurn_enterTypeParameters id d.typeParameters) fun generics => ?_
  refine iteInduction (fun _ => ?_) fun _ => ?_
  all_goals
    refine Keeper.bind (by grind) fun returnType => ?_
    refine Keeper.bind (by grind) fun parameters => ?_
    refine Keeper.bind (by grind) fun thrown => ?_
    refine Keeper.bind (by grind) fun annotations => ?_
    refine Keeper.bind (by grind) fun asType => ?_
    exact Keeper.bind keeping_scope fun _ => keeping_lift (inTurn_publish _ other)

theorem inTurn_enterMember (asks : ∀ e, Keeping InTurn (again e)) (owner : ElementId) (ownerType : TypeId)
    (d : MemberDecl) : Keeping InTurn (enterMember again owner ownerType d) := by
  cases d with
  | field name t modifiers =>
    exact Keeper.bind (ResolveM.keeping_resolve t) fun t => keeping_newVariable owner (by decide) (by decide) name t _ _
  | enumConstant name => exact keeping_newVariable owner (by decide) (by decide) name ownerType _ _
  | method d => exact inTurn_enterExecutable asks owner ownerType (by decide) d
  | constructor d => exact inTurn_enterExecutable asks owner ownerType (by decide) d
  | recordComponent name t =>
    exact Keeper.bind (ResolveM.keeping_resolve t) fun t => keeping_newVariable owner (by decide) (by decide) name t _ _

theorem inTurn_typeRecord (asks : ∀ e, Keeping InTurn (again e)) (id : ElementId) (slot : Slot) (h : TypeHeader)
    (nesting : Nesting) : Keeping InTurn (typeRecord again id slot h nesting) := by
  refine Keeper.bind (inTurn_enterTypeParameters id h.typeParameters) fun generics => ?_
  refine Keeper.bind (ResolveM.keeping_newType _) fun asType => ?_
  refine Keeper.bind (keeping_superclassOf h slot.qualifiedName asType) fun superclass => ?_
  refine Keeper.bind (keeping_interfacesOf h) fun interfaces => ?_
  refine Keeper.bind (keeping_mapM fun d => inTurn_enterMember asks id asType d) fun members => ?_
  refine Keeper.bind (keeping_mapM fun a => keeping_resolveAnnotationUse asks a) fun annotations => ?_
  exact Keeper.bind keeping_scope fun _ => Keeper.pure _

theorem inTurn_completeType (asks : ∀ e, Keeping InTurn (again e)) (id : ElementId) (slot : Slot) (h : TypeHeader) :
    Keeping InTurn (completeType again id slot h) := by
  grind [completeType, inTurn_typeRecord]

end inside

theorem completeType_modifiers (again : Again) (id : ElementId) (slot : Slot) (h : TypeHeader) (s : Store) :
    (completeType again id slot h s).1.modifiers = modifiersOf h (s.nestingOf slot) := by
  unfold completeType
  exact iteInduction (motive := fun m : StoreM ElementRecord => (m s).1.modifiers = _) (fun _ => rfl) fun _ => rfl

theorem completeType_enclosing (again : Again) (id : ElementId) (slot : Slot) (h : TypeHeader) (s : Store) :
    (completeType again id slot h s).1.enclosing = slot.enclosing := by
  unfold completeType
  exact iteInduction (motive := fun m : StoreM ElementRecord => (m s).1.enclosing = _) (fun _ => rfl) fun _ => rfl

section turn

variable {s : Store} {o : ElementId} {slot : Slot} {h : TypeHeader} {again : Again}

theorem not_awaits_after {α : Type} {m : StoreM α} (keeps : Keeping InTurn m) (there : s.HasElement o)
    (turned : ¬ s.Awaits o) : Ensures InTurn s m fun _ s' => ¬ s'.Awaits o :=
  ⟨keeps s, fun awaits => turned ((keeps s).waits o there awaits)⟩

structure Relieves (again : Again) : Prop where
  keeps : ∀ e, Keeping InTurn (again e)
  relieves : ∀ e s, s.HasElement e → ¬ (again e s).2.Awaits e

theorem Relieves.visibleVariables (asks : Relieves again) (isType : s.IsType o) :
    Ensures InTurn s (visibleVariables again (some o)) fun _ s' => ¬ s'.Awaits o := by
  obtain ⟨k, kind, isType⟩ := isType
  have there : s.HasElement o := IsType.there ⟨k, kind, isType⟩
  have generic : k.isParameterizable := by
    change (k.isType || _) = true
    rw [isType, Bool.true_or]
  rw [Completion.visibleVariables]
  refine .get ?_
  rw [visibleVariablesN]
  refine .get ?_
  rw [kind]
  dsimp only
  rw [if_neg (by simp [generic])]
  have asked : Ensures InTurn s (again o) fun _ s' => ¬ s'.Awaits o := ⟨asks.keeps o s, asks.relieves o s there⟩
  refine asked.bind fun r s' move turned => ?_
  refine not_awaits_after (Keeper.bind (keeping_mapM fun p => ?_) fun own =>
    Keeper.bind (keeping_visibleVariablesN asks.keeps _ _) fun outer => Keeper.pure _) (move.there there) turned
  exact Keeper.bind (asks.keeps p) fun _ => Keeper.pure _

theorem Relieves.completeType (asks : Relieves again) {e : ElementId} (around : slot.enclosing = some o)
    (there : s.HasElement o) (sees : ¬ (completeType again e slot h s).1.isStatic) : ¬ (completeType again e slot h s).2.Awaits o := by
  have keeps : s.InTurn (Completion.completeType again e slot h s).2 := inTurn_completeType asks.keeps e slot h s
  rw [ElementRecord.isStatic, completeType_modifiers] at sees
  by_cases member : s.nestingOf slot = .member
  swap
  · intro awaits
    obtain ⟨outer, found, isType, _⟩ := keeps.waits o there awaits
    have kind : s.kind? o = some outer.kind := kind?_eq_some_iff.mpr ⟨outer, found, rfl⟩
    refine member ?_
    simp only [Store.nestingOf, around, Option.bind_some, kind, if_pos isType]
  have isType : s.IsType o := by
    rw [Store.nestingOf, around, Option.bind_some] at member
    cases kind : s.kind? o with
    | none => simp [kind] at member
    | some k =>
      refine ⟨k, kind, ?_⟩
      by_contra other
      simp [kind, other] at member
  refine (?_ : Ensures InTurn s (Completion.completeType again e slot h) fun _ s' => ¬ s'.Awaits o).2
  unfold Completion.completeType
  refine .get ?_
  change Ensures InTurn s (if s.nestingOf slot = .member ∧ .static ∉ modifiersOf h (s.nestingOf slot) then _ else _) _
  rw [if_pos ⟨member, by simpa using sees⟩, around]
  refine Ensures.bind (asks.visibleVariables isType) fun visible s' move turned => ?_
  exact not_awaits_after (keeping_run' (inTurn_typeRecord asks.keeps e slot h _) _) (move.there there) turned

theorem Relieves.step (asks : Relieves again) : Relieves (step again) where
  keeps e s := by
    cases found : s.slot? e with
    | none =>
      rw [step_of_absent found]
      exact Calm.refl s
    | some slot =>
      have there : e.index < s.elements.size := has_element_iff.mpr ⟨slot, found⟩
      have begun := s.inTurn_begin e
      cases state : slot.state with
      | complete r =>
        rw [step_of_complete found state]
        exact Calm.refl s
      | completing =>
        rw [step_of_completing found state]
        exact Calm.refl s
      | pending work =>
        cases work with
        | container =>
          rw [step_of_container found state]
          refine Calm.trans begun (inTurn_served fun o ⟨isClass, own⟩ => absurd ?_ own)
          have other : slot.kind ≠ .module := fun module => by simp [containerRecord, module] at isClass
          exact if_neg other
        | type h =>
          rw [step_of_type found state rfl]
          have inside := inTurn_completeType asks.keeps e slot h (s.setState e .completing)
          refine Calm.trans (Calm.trans begun inside) (inTurn_served fun o _ sees around older => ?_)
          rw [completeType_enclosing] at around
          exact asks.completeType around (begun.there (older.trans there)) sees
  relieves e s there := by
    obtain ⟨slot, found⟩ := has_element_iff.mp there
    have settled (other : ¬ slot.isPending) : ¬ s.Awaits e := by
      rintro ⟨_, again, _, waits⟩
      cases found.symm.trans again
      exact other waits
    cases state : slot.state with
    | complete r =>
      rw [step_of_complete found state]
      exact settled (by simp [Slot.isPending, state])
    | completing =>
      rw [step_of_completing found state]
      exact settled (by simp [Slot.isPending, state])
    | pending work =>
      cases work with
      | container =>
        rw [step_of_container found state]
        exact not_awaits_served _ e _
      | type h =>
        rw [step_of_type found state rfl]
        exact not_awaits_served _ e _

def begin : Again := fun e => do
  modify (·.setState e .completing)
  return .unknown e

theorem begin_relieves : Relieves begin where
  keeps e s := s.inTurn_begin e
  relieves e s _ := by
    rintro ⟨slot, found, _, waits⟩
    rw [show (begin e s).2.slot? e = _ from slot?_update, if_pos rfl] at found
    obtain ⟨_, _, rfl⟩ := Option.map_eq_some_iff.mp found
    cases waits

theorem nested_relieves (depth : Nat) : Relieves (nested begin depth) := by
  induction depth with
  | zero => exact begin_relieves
  | succ depth ih => exact ih.step

end turn

end Completion

namespace Store

structure Turnwise (s s' : Store) : Prop extends Follows s s' where
  inTurn : s.Orderly → s.InTurn s'

end Store

instance : Gentle Turnwise where
  refl s := ⟨.refl s, fun _ => Calm.refl s⟩
  trans first second :=
    ⟨first.toFollows.trans second.toFollows, fun orderly =>
      Calm.trans (first.inTurn orderly) (second.inTurn (first.orderly orderly))⟩
  aside elements _ _ _ _ := ⟨follows_aside elements, fun _ => inTurn_aside elements⟩
  pushType _ _ := ⟨follows_aside rfl, fun _ => inTurn_aside rfl⟩
  pushSettled state plain simple fits :=
    ⟨Gentle.pushSettled state plain simple fits, fun _ => Gentle.pushSettled state plain simple fits⟩

instance : Tame Turnwise where
  complete e s := by
    refine ⟨Attentive.complete e s, fun orderly => ?_⟩
    rw [← StoreM.complete_eq_nested orderly Completion.begin (Nat.lt_succ_self _)]
    exact (Completion.nested_relieves _).keeps e s

instance : Receptive Turnwise where
  headings move := move.headings
  listed elements _ _ _ := ⟨follows_aside elements, fun _ => inTurn_aside elements⟩
  pushPending state _ fits placed :=
    ⟨follows_pushSlot fits fun _ => placed, fun _ => inTurn_pushSlot fun r same => by cases state.symm.trans same⟩
  addChild s parent child := ⟨follows_addChild parent child, fun _ => inTurn_addChild parent child⟩

namespace Store

variable {s s' : Store} {e o : ElementId}

theorem LeadsTo.turnwise (leads : s.LeadsTo s') : s.Turnwise s' := by
  induction leads with
  | rest => exact Calm.refl s
  | ask r _ _ ih => exact Calm.trans ih (r.keeping_run _)

theorem Reachable.not_overtakes (reachable : s.Reachable) : ¬ s.Overtakes e o := by
  intro overtakes
  obtain ⟨⟨r, complete, _⟩, _⟩ := (reachable.turnwise.inTurn orderly_empty).turn e o overtakes
  obtain ⟨slot, found, _⟩ := record?_eq_some_iff.mp complete
  simp [slot?, empty] at found

end Store

end Nominal
