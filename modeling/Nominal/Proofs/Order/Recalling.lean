import Nominal.Proofs.Store.Completion
import Nominal.Proofs.Store.Nested
/-!
Completion with everything at hand: what is asked for is looked up and not completed. Such a completion
leaves every other element of the store as it is.
-/

namespace Nominal

open Store

namespace Store

def Spares (p : ElementId → Prop) (s s' : Store) : Prop := ∀ e slot, p e → s.slot? e = some slot → s'.slot? e = some slot

variable {p : ElementId → Prop} {s s' : Store}

theorem Spares.fresh (spares : s.Spares s.HasElement s') : ¬ s.HasElement ⟨s'.elements.size⟩ := by
  intro there
  obtain ⟨slot, found⟩ := has_element_iff.mp there
  simpa [slot?_at_size] using spares _ slot there found

theorem Spares.weaken (spares : s.Spares s.HasElement s') : s.Spares p s' :=
  fun e slot _ found => spares e slot (has_element_iff.mpr ⟨slot, found⟩) found

theorem spares_pushSlot (slot : Slot) : s.Spares p (s.pushSlot slot) := by
  intro e old _ found
  have there : e.index < s.elements.size := has_element_iff.mpr ⟨old, found⟩
  rw [slot?_push, if_neg (Nat.ne_of_lt there), found]

theorem spares_setState {e : ElementId} (state : SlotState) (free : ¬ p e) : s.Spares p (s.setState e state) := by
  intro e' slot mine found
  change (s.updateSlot e _).slot? e' = _
  rw [slot?_update, if_neg (fun same : e' = e => free (same ▸ mine)), found]

end Store

instance {p : ElementId → Prop} : Gentle (Spares p) where
  refl _ _ _ _ := id
  trans first second e slot mine found := second e slot mine (first e slot mine found)
  aside elements _ _ _ _ e slot _ found := by rw [slot?, elements]; exact found
  pushType _ _ _ _ _ := id
  pushSettled _ _ _ _ := spares_pushSlot _

namespace Completion

section sparing

variable {p : ElementId → Prop} {again : Again}

theorem spares_completeTypeParameter {owner e : ElementId} (decl : TypeParameterDecl) (t : TypeId) (free : ¬ p e) :
    Keeping (Spares p) (completeTypeParameter owner decl e t) := by
  refine Keeper.bind (ResolveM.keeping_resolveAll _) fun bounds => ?_
  have settles (upper : TypeId) : Keeping (Spares p) (StoreM.setShape t (.typeVariable e upper)) := fun _ _ _ _ => id
  have publishes (r : ElementRecord) (same : r.id = e) : Keeping (Spares p) (StoreM.publish r) :=
    fun s => spares_setState _ (by rwa [same])
  rcases bounds with _ | ⟨b, _ | ⟨b', rest⟩⟩
  all_goals
    refine Keeper.bind (by grind) fun upper => ?_
    exact Keeper.bind (keeping_lift (settles upper)) fun _ => keeping_lift (publishes _ rfl)

theorem spares_completeTypeParameters (owner : ElementId) (xs : List (TypeParameterDecl × ElementId × TypeId))
    (new : ∀ x ∈ xs, ¬ p x.2.1) :
    Keeping (Spares p) (xs.forM fun (q, e, t) => completeTypeParameter owner q e t) := by
  induction xs with
  | nil => exact Keeper.pure ()
  | cons x xs ih =>
    obtain ⟨decl, e, t⟩ := x
    exact Keeper.bind (spares_completeTypeParameter decl t (new (decl, e, t) (by simp))) fun _ =>
      ih fun y mem => new y (by simp [mem])

theorem spares_enterTypeParameters (owner : ElementId) (ps : List TypeParameterDecl) :
    Keeping (Spares p) (enterTypeParameters owner ps) := by
  intro sc s
  suffices s.Spares s.HasElement (enterTypeParameters owner ps sc s).2 from this.weaken
  have reserves : Ensures (Spares s.HasElement) s (ps.mapM (reserveTypeParameter owner) sc)
      fun (r : List (ElementId × TypeId) × Scope) _ => ∀ x ∈ r.1, ¬ s.HasElement x.1 := by
    refine Ensures.resolve_mapM (fun _ (xs : List (ElementId × TypeId)) _ _ => ∀ x ∈ xs, ¬ s.HasElement x.1)
      (Calm.refl s) (by simp) ?_
    intro _ decl xs _ s' spares new
    refine ⟨spares_pushSlot _, fun x mem => ?_⟩
    rcases List.mem_append.mp mem with old | last
    · exact new x old
    · cases List.mem_singleton.mp last
      exact spares.fresh
  refine Calm.trans reserves.1 (spares_completeTypeParameters owner _ (fun x mem => ?_) _ _)
  exact reserves.2 x.2 (List.of_mem_zip mem).2

theorem spares_enterExecutable (asks : ∀ p e, Keeping (Spares p) (again e)) (owner : ElementId) (ownerType : TypeId)
    (kind : ElementKind) (d : ExecutableDecl) : Keeping (Spares p) (enterExecutable again owner ownerType kind d) := by
  intro sc s
  suffices s.Spares s.HasElement (enterExecutable again owner ownerType kind d sc s).2 from this.weaken
  let g : Given (Spares s.HasElement) := { holds := s.Spares s.HasElement, lasts := fun move start => Calm.trans start move }
  let new (id : ElementId) : Given (Spares s.HasElement) := { holds := fun _ => ¬ s.HasElement id, lasts := fun _ free => free }
  have enters (slot : Slot) (s' : Store) (start : g.holds s') :
      Ensures (Spares s.HasElement) s' (StoreM.newSlot slot) fun id s'' => (new id).holds s'' :=
    ⟨spares_pushSlot slot, Spares.fresh start⟩
  have annotates (a : AnnotationDecl) : Keeping (Spares s.HasElement) (resolveAnnotationUse again a) :=
    keeping_resolveAnnotationUse (asks _) a
  suffices CoincideIn g (enterExecutable again owner ownerType kind d) (enterExecutable again owner ownerType kind d) from
    (this sc s fun _ _ _ => id).2.weaken
  refine .andThen (enters _) fun id => .scope fun before => CoincideIn.bind (.block ?_) fun _ => .pure id
  have publishes (r : ElementRecord) (same : r.id = id) :
      CoincideIn (new id) (liftM (StoreM.publish r)) (liftM (StoreM.publish r)) :=
    .lift (.same fun _ free => spares_setState _ (by rwa [same]))
  refine CoincideIn.bind (.keeping (spares_enterTypeParameters id d.typeParameters)) fun generics => .ite ?_ ?_
  all_goals
    refine CoincideIn.bind (.keeping (by grind)) fun returnType => ?_
    refine CoincideIn.bind (.keeping (by grind)) fun parameters => ?_
    refine CoincideIn.bind (.keeping (by grind)) fun thrown => ?_
    refine CoincideIn.bind (.keeping (by grind)) fun annotations => ?_
    refine CoincideIn.bind (.keeping (by grind)) fun asType => ?_
    exact .scope fun _ => publishes _ rfl

theorem spares_enterMember (asks : ∀ p e, Keeping (Spares p) (again e)) (owner : ElementId) (ownerType : TypeId)
    (d : MemberDecl) : Keeping (Spares p) (enterMember again owner ownerType d) := by
  cases d with
  | field name t modifiers =>
    exact Keeper.bind (ResolveM.keeping_resolve t) fun t => keeping_newVariable owner (by decide) (by decide) name t _ _
  | enumConstant name => exact keeping_newVariable owner (by decide) (by decide) name ownerType _ _
  | method d => exact spares_enterExecutable asks owner ownerType .method d
  | constructor d => exact spares_enterExecutable asks owner ownerType .constructor d
  | recordComponent name t =>
    exact Keeper.bind (ResolveM.keeping_resolve t) fun t => keeping_newVariable owner (by decide) (by decide) name t _ _

theorem spares_completeType (asks : ∀ p e, Keeping (Spares p) (again e)) (id : ElementId) (slot : Slot)
    (h : TypeHeader) : Keeping (Spares p) (completeType again id slot h) := by
  have records (nesting : Nesting) : Keeping (Spares p) (typeRecord again id slot h nesting) := by
    refine Keeper.bind (spares_enterTypeParameters id h.typeParameters) fun generics => ?_
    refine Keeper.bind (ResolveM.keeping_newType _) fun asType => ?_
    refine Keeper.bind (keeping_superclassOf h slot.qualifiedName asType) fun superclass => ?_
    refine Keeper.bind (keeping_interfacesOf h) fun interfaces => ?_
    refine Keeper.bind (keeping_mapM fun d => spares_enterMember asks id asType d) fun members => ?_
    refine Keeper.bind (keeping_mapM fun a => keeping_resolveAnnotationUse (asks p) a) fun annotations => ?_
    exact Keeper.bind keeping_scope fun _ => Keeper.pure _
  have visible (e? : Option ElementId) : Keeping (Spares p) (visibleVariables again e?) :=
    keeping_visibleVariables (asks p) e?
  grind [completeType]

end sparing

def recollect : Again := fun e => do
  match (← get).slot? e with
  | none => return .unknown e
  | some slot =>
    match slot.state with
    | .complete r => return r
    | _ => return Store.preliminary e slot

section recollect

variable {s : Store} {e : ElementId} {slot : Slot} {r : ElementRecord}

theorem recollect_stays (e : ElementId) (s : Store) : (recollect e s).2 = s := by
  unfold recollect
  change ((match s.slot? e with
    | none => _
    | some slot => _ : StoreM ElementRecord) s).2 = s
  cases s.slot? e with
  | none => rfl
  | some slot =>
    dsimp only
    cases slot.state <;> rfl

theorem recollect_of_complete (complete : s.record? e = some r) : recollect e s = (r, s) := by
  obtain ⟨slot, found, state⟩ := record?_eq_some_iff.mp complete
  unfold recollect
  change (match s.slot? e with
    | none => _
    | some slot => _ : StoreM ElementRecord) s = _
  rw [found]
  dsimp only
  rw [state]
  rfl

theorem recollect_of_completing (found : s.slot? e = some slot) (state : slot.state = .completing) :
    recollect e s = (preliminary e slot, s) := by
  unfold recollect
  change (match s.slot? e with
    | none => _
    | some slot => _ : StoreM ElementRecord) s = _
  rw [found]
  dsimp only
  rw [state]
  rfl

theorem recollect_answers : Answers recollect := by
  intro s e h
  have stays := recollect_stays e s
  refine ⟨by rw [stays]; exact .refl h, ?_⟩
  rw [stays]
  unfold recollect
  change AnswerFits s e ((match s.slot? e with
    | none => _
    | some slot => _ : StoreM ElementRecord) s).1
  cases found : s.slot? e with
  | none => exact .bare h rfl rfl
  | some slot =>
    dsimp only
    cases state : slot.state with
    | complete r => exact .of_record h (record?_eq_some_iff.mpr ⟨slot, found, state⟩)
    | _ => exact .bare h rfl rfl

theorem recollect_keeps {R : Store → Store → Prop} [Calm R] (e : ElementId) : Keeping R (recollect e) := by
  intro s
  rw [recollect_stays]
  exact Calm.refl s

theorem step_recollect_spares (s : Store) (e : ElementId) : s.Spares (· ≠ e) (step recollect e s).2 := by
  have other {s₁ : Store} (state : SlotState) : s₁.Spares (· ≠ e) (s₁.setState e state) :=
    spares_setState state fun free => free rfl
  have ends {s₁ : Store} (r : ElementRecord) : s₁.Spares (· ≠ e) (served s₁ e r) :=
    Calm.trans (Mild.aside rfl rfl rfl rfl (.inl rfl)) (other (.complete r))
  cases found : s.slot? e with
  | none =>
    rw [step_of_absent found]
    exact Calm.refl s
  | some slot =>
    cases state : slot.state with
    | complete r =>
      rw [step_of_complete found state]
      exact Calm.refl s
    | completing =>
      rw [step_of_completing found state]
      exact Calm.refl s
    | pending work =>
      cases work with
      | container =>
        rw [step_of_container found state]
        exact Calm.trans (other .completing) (ends _)
      | type h =>
        rw [step_of_type found state rfl]
        have inside := spares_completeType (p := (· ≠ e)) (fun _ => recollect_keeps) e slot h
        exact Calm.trans (other .completing) (Calm.trans (inside _) (ends _))

end recollect

end Completion

end Nominal
