import Nominal.Proofs.Store.Coinciding
/-!
Completions inside completions. Each of them is of an element that was waiting until then, so they are never
nested deeper than elements wait: what an element beyond that depth would answer does not matter. What a
completion leaves behind was counted, and agrees with what was said when the elements were entered.
-/

namespace Nominal

open Store

instance : Gentle Accounts where
  refl := Accounts.refl
  trans := Accounts.trans
  aside elements _ completions _ _ := accounts_aside elements completions
  pushType _ _ := accounts_aside rfl rfl
  pushSettled state _ simple fits :=
    accounts_pushSlot fits (fun _ generic => absurd generic simple) (by simp [Slot.isPending, state])

namespace Given

def few (n : Nat) : Given Accounts where
  holds s := s.Orderly ∧ s.waiting.card ≤ n
  lasts accounts few := ⟨accounts.orderly few.1, (Finset.card_le_card accounts.waiting).trans few.2⟩

def orderly : Given Accounts where
  holds := Orderly
  lasts accounts := accounts.orderly

def since (s : Store) : Given Accounts where
  holds := s.SameHeadings
  lasts accounts same := same.trans accounts.headings

def encloses (e : ElementId) : Given Accounts where
  holds s := s.Encloses e
  lasts accounts := accounts.headings.encloses

def entered (e : ElementId) (heading : Slot) : Given Accounts where
  holds s := ∃ slot, s.slot? e = some slot ∧ slot.heading = heading ∧ ¬ slot.isPending
  lasts := by
    rintro s s' accounts ⟨slot, found, same, settled⟩
    obtain ⟨slot', found', same'⟩ := accounts.headings e slot found
    refine ⟨slot', found', same'.trans same, ?_⟩
    rw [← isPending_of_slot found'] 
    exact accounts.closed (by rwa [isPending_of_slot found])

end Given

theorem Coincide.getSince {β : Type} {g : Given Accounts} {f f' : Store → StoreM β} (next : ∀ s, g.holds s → Coincide (g.and (.since s)) (f s) (f' s)) :
    Coincide g (MonadState.get >>= f) (MonadState.get >>= f') :=
  fun s holds => next s holds s ⟨holds, fun _ slot found => ⟨slot, found, rfl⟩⟩

namespace Completion

section publishing

variable {g : Given Accounts}

theorem coincide_publish {r : ElementRecord} {heading : Slot} (describes : r.Describes r.id heading)
    (entered : ∀ s, g.holds s → (Given.entered r.id heading).holds s) :
    Coincide g (StoreM.publish r) (StoreM.publish r) := by
  refine .same fun s holds => ?_
  obtain ⟨slot, found, rfl, settled⟩ := entered s holds
  exact accounts_publish found (describes.congr rfl) settled

def parameterHeading (owner : ElementId) (p : TypeParameterDecl) : Slot :=
  { kind := .typeParameter, simpleName := p.name, qualifiedName := p.name, enclosing := some owner }

theorem reserve_accounts (owner : ElementId) (p : TypeParameterDecl) (sc : Scope) (s : Store) :
    Ensures Accounts s (reserveTypeParameter owner p sc) fun r s' =>
      (Given.entered r.1.1 (parameterHeading owner p)).holds s' := by
  have fits : (parameterHeading owner p).Orderly ⟨s.elements.size⟩ := ⟨fun _ => rfl, fun _ => nofun, fun _ => nofun⟩
  have pushed : s.Accounts (s.pushSlot (parameterHeading owner p)) := accounts_pushSlot fits (fun _ => nofun) nofun
  refine ⟨pushed.trans (accounts_aside rfl rfl), parameterHeading owner p, ?_, rfl, nofun⟩
  exact (slot?_push _).trans (if_pos rfl)

def AllEntered (owner : ElementId) (ps : List TypeParameterDecl) (xs : List (ElementId × TypeId)) (s : Store) : Prop :=
  List.Forall₂ (fun p x => (Given.entered x.1 (parameterHeading owner p)).holds s) ps xs

theorem AllEntered.lasts {owner : ElementId} {ps : List TypeParameterDecl} {xs : List (ElementId × TypeId)}
    {s s' : Store} (entered : AllEntered owner ps xs s) (accounts : s.Accounts s') : AllEntered owner ps xs s' :=
  entered.imp fun _ _ => Given.lasts _ accounts

theorem reserveAll_accounts (owner : ElementId) (ps : List TypeParameterDecl) (sc : Scope) (s : Store) :
    Ensures Accounts s (ps.mapM (reserveTypeParameter owner) sc) fun r s' => AllEntered owner ps r.1 s' := by
  refine Ensures.resolve_mapM (fun done xs _ s' => AllEntered owner done xs s') (Accounts.refl s) .nil ?_
  intro done p xs sc' s' _ entered
  refine (reserve_accounts owner p sc' s').imp fun r s'' accounts new => ?_
  exact List.rel_append (entered.lasts accounts) (.cons new .nil)

theorem completeTypeParameter_accounts (owner : ElementId) (p : TypeParameterDecl) (e : ElementId) (t : TypeId) :
    CoincideIn (.entered e (parameterHeading owner p)) (completeTypeParameter owner p e t)
      (completeTypeParameter owner p e t) := by
  refine CoincideIn.bind (.keeping (ResolveM.keeping_resolveAll p.bounds)) fun bounds => ?_
  have publishes (r : ElementRecord) (describes : r.Describes e (parameterHeading owner p)) :
      CoincideIn (.entered e (parameterHeading owner p)) (liftM (StoreM.publish r)) (liftM (StoreM.publish r)) := by
    obtain rfl := describes.id
    exact .lift (coincide_publish describes fun _ => id)
  have settles (upper : TypeId) : Keeping Accounts (StoreM.setShape t (.typeVariable e upper)) :=
    fun s => accounts_aside rfl rfl
  rcases bounds with _ | ⟨b, _ | ⟨b', rest⟩⟩
  all_goals
    refine CoincideIn.bind (.keeping (by grind)) fun upper => ?_
    exact CoincideIn.bind (.keeping (keeping_lift (settles upper))) fun _ =>
      publishes _ ⟨rfl, rfl, rfl, rfl, rfl, rfl⟩

theorem completeAll_accounts (owner : ElementId) {ps : List TypeParameterDecl} {xs : List (ElementId × TypeId)}
    {s : Store} (entered : AllEntered owner ps xs s) (sc : Scope) :
    s.Accounts ((ps.zip xs).forM (fun (p, e, t) => completeTypeParameter owner p e t) sc s).2 := by
  induction ps generalizing xs s sc with
  | nil => exact .refl s
  | cons p ps ih =>
    cases entered with
    | @cons _ x _ xs first rest =>
      have completes := (completeTypeParameter_accounts owner p x.1 x.2 sc s first).2
      exact completes.trans (ih (AllEntered.lasts rest completes) _)

theorem enterTypeParameters_length (owner : ElementId) (ps : List TypeParameterDecl) (sc : Scope) (s : Store) :
    (enterTypeParameters owner ps sc s).1.1.length = ps.length :=
  (reserveAll_setsAside ps sc s).2

@[grind ←]
theorem accounting_enterTypeParameters (owner : ElementId) (ps : List TypeParameterDecl) :
    Keeping Accounts (enterTypeParameters owner ps) := by
  intro sc s
  obtain ⟨accounts, entered⟩ := reserveAll_accounts owner ps sc s
  exact accounts.trans (completeAll_accounts owner entered _)

end publishing

section asking

variable {g : Given Accounts} {again again' : Again}

theorem coincide_visibleVariablesN (asks : ∀ e, Coincide g (again e) (again' e)) (fuel : Nat) (e? : Option ElementId) :
    Coincide g (visibleVariablesN again fuel e?) (visibleVariablesN again' fuel e?) := by
  induction fuel generalizing e? with
  | zero => exact .pure []
  | succ fuel ih =>
    cases e? with
    | none => exact .pure []
    | some e =>
      rw [visibleVariablesN, visibleVariablesN]
      refine .get fun s => ?_
      cases s.kind? e with
      | none => exact .pure []
      | some k =>
        dsimp only
        split
        · exact .pure []
        · refine (asks e).bind fun r => ?_
          refine (Coincide.mapM fun p _ => (asks p).bind fun _ => .pure _).bind fun own => ?_
          exact (ih _).bind fun outer => .pure _

theorem coincide_visibleVariables (asks : ∀ e, Coincide g (again e) (again' e)) (e? : Option ElementId) :
    Coincide g (visibleVariables again e?) (visibleVariables again' e?) :=
  .get fun s => coincide_visibleVariablesN asks (s.elements.size + 1) e?

theorem coincide_resolveConstant (asks : ∀ e, Coincide g (again e) (again' e)) (t : TypeId) (name : String) :
    CoincideIn g (resolveConstant again t name) (resolveConstant again' t name) := by
  rw [resolveConstant, resolveConstant]
  refine .store fun s => ?_
  split
  · exact CoincideIn.bind (.lift (asks _)) fun r => .keeping (by grind)
  · exact .keeping (by grind)

mutual

theorem coincide_resolveValue (asks : ∀ e, Coincide g (again e) (again' e)) : (v : ValueExpr) →
    CoincideIn g (resolveValue again v) (resolveValue again' v)
  | .bool b | .int n | .str text => .pure _
  | .type t => by
    rw [resolveValue, resolveValue]
    exact .keeping (by grind)
  | .enumConstant t name => by
    rw [resolveValue, resolveValue]
    exact CoincideIn.bind (.keeping (ResolveM.keeping_resolve t)) fun t => coincide_resolveConstant asks t name
  | .array values => by
    rw [resolveValue, resolveValue, map_eq_pure_bind, map_eq_pure_bind]
    exact CoincideIn.bind (coincide_resolveValues asks values) fun _ => .pure _

theorem coincide_resolveValues (asks : ∀ e, Coincide g (again e) (again' e)) : (vs : List ValueExpr) →
    CoincideIn g (resolveValues again vs) (resolveValues again' vs)
  | [] => .pure []
  | v :: rest => by
    rw [resolveValues, resolveValues]
    exact CoincideIn.bind (coincide_resolveValue asks v) fun _ =>
      CoincideIn.bind (coincide_resolveValues asks rest) fun _ => .pure _

end

theorem coincide_resolveAnnotationUse (asks : ∀ e, Coincide g (again e) (again' e)) (a : AnnotationDecl) :
    CoincideIn g (resolveAnnotationUse again a) (resolveAnnotationUse again' a) := by
  refine CoincideIn.bind (.keeping (ResolveM.keeping_resolve a.type)) fun t => ?_
  refine CoincideIn.bind (.mapM (fun x => ?_) a.values) fun values => .pure _
  exact CoincideIn.bind (coincide_resolveValue asks x.2) fun _ => .pure _

theorem coincide_enterExecutable (asks : ∀ e, Coincide g (again e) (again' e)) {owner : ElementId}
    (inside : ∀ s, g.holds s → s.Encloses owner) (ownerType : TypeId) {kind : ElementKind}
    (plain : ¬ kind.isContainer) (d : ExecutableDecl) :
    CoincideIn g (enterExecutable again owner ownerType kind d) (enterExecutable again' owner ownerType kind d) := by
  let name := if kind = .constructor then constructorName else d.name
  let heading : Slot :=
    { kind, simpleName := name, qualifiedName := name, enclosing := some owner, arity := d.typeParameters.length }
  have enters (s : Store) (holds : g.holds s) : Ensures Accounts s (StoreM.newSlot heading) fun id s' =>
      (g.and (.entered id heading)).holds s' := by
    have fits : heading.Orderly ⟨s.elements.size⟩ := by
      refine ⟨?_, fun _ => nofun, fun _ => nofun⟩
      rintro (container | ⟨⟨⟩⟩)
      exact absurd container plain
    have pushed : s.Accounts (s.pushSlot heading) := by
      refine accounts_pushSlot fits (fun _ _ o same => ?_) nofun
      cases same
      exact inside s holds
    exact ⟨pushed, g.lasts pushed holds, heading, (slot?_push _).trans (if_pos rfl), rfl, nofun⟩
  refine .andThen enters fun id => .scope fun before => CoincideIn.bind (.block ?_) fun _ => .pure id
  have asks (e : ElementId) : Coincide (g.and (.entered id heading)) (again e) (again' e) :=
    (asks e).mono fun _ holds => holds.1
  have publishes (r : ElementRecord) (describes : r.Describes id heading) :
      CoincideIn (g.and (.entered id heading)) (liftM (StoreM.publish r)) (liftM (StoreM.publish r)) := by
    obtain rfl := describes.id
    exact .lift (coincide_publish describes fun _ holds => holds.2)
  refine .bindOf (P := fun generics => generics.length = d.typeParameters.length)
    (.keeping (accounting_enterTypeParameters id d.typeParameters))
    (enterTypeParameters_length id d.typeParameters) fun generics arity => ?_
  have arity : (generics.map (·.1)).length = d.typeParameters.length := by rw [List.length_map, arity]
  refine .ite ?_ ?_
  all_goals
    refine CoincideIn.bind (.keeping (by grind)) fun returnType => ?_
    refine CoincideIn.bind (.keeping (by grind)) fun parameters => ?_
    refine CoincideIn.bind (.keeping (by grind)) fun thrown => ?_
    refine CoincideIn.bind (.mapM (coincide_resolveAnnotationUse asks) d.annotations) fun annotations => ?_
    refine CoincideIn.bind (.keeping (by grind)) fun asType => ?_
    exact .scope fun _ => publishes _ ⟨rfl, rfl, rfl, rfl, rfl, arity⟩

theorem coincide_enterMember (asks : ∀ e, Coincide g (again e) (again' e)) {owner : ElementId}
    (inside : ∀ s, g.holds s → s.Encloses owner) (ownerType : TypeId) (d : MemberDecl) :
    CoincideIn g (enterMember again owner ownerType d) (enterMember again' owner ownerType d) := by
  cases d with
  | field name t modifiers =>
    exact .keeping (Keeper.bind (ResolveM.keeping_resolve t) fun t =>
      keeping_newVariable owner (by decide) (by decide) name t _ _)
  | enumConstant name => exact .keeping (keeping_newVariable owner (by decide) (by decide) name ownerType _ _)
  | method d => exact coincide_enterExecutable asks inside ownerType (by decide) d
  | constructor d => exact coincide_enterExecutable asks inside ownerType (by decide) d
  | recordComponent name t =>
    exact .keeping (Keeper.bind (ResolveM.keeping_resolve t) fun t =>
      keeping_newVariable owner (by decide) (by decide) name t _ _)

theorem coincide_typeRecord (asks : ∀ e, Coincide g (again e) (again' e)) {id : ElementId}
    (inside : ∀ s, g.holds s → s.Encloses id) (slot : Slot) (h : TypeHeader) (nesting : Nesting) :
    CoincideIn g (typeRecord again id slot h nesting) (typeRecord again' id slot h nesting) := by
  refine CoincideIn.bind (.keeping (accounting_enterTypeParameters id h.typeParameters)) fun generics => ?_
  refine CoincideIn.bind (.keeping (ResolveM.keeping_newType _)) fun asType => ?_
  refine CoincideIn.bind (.keeping (keeping_superclassOf h slot.qualifiedName asType)) fun superclass => ?_
  refine CoincideIn.bind (.keeping (keeping_interfacesOf h)) fun interfaces => ?_
  refine CoincideIn.bind (.mapM (coincide_enterMember asks inside asType) h.members) fun members => ?_
  refine CoincideIn.bind (.mapM (coincide_resolveAnnotationUse asks) h.annotations) fun annotations => ?_
  exact .scope fun _ => .pure _

theorem coincide_completeType (asks : ∀ e, Coincide g (again e) (again' e)) {id : ElementId}
    (inside : ∀ s, g.holds s → s.Encloses id) (slot : Slot) (h : TypeHeader) :
    Coincide g (completeType again id slot h) (completeType again' id slot h) := by
  have run (nesting : Nesting) (sc : Scope) : Coincide g ((typeRecord again id slot h nesting).run' sc)
      ((typeRecord again' id slot h nesting).run' sc) := by
    change Coincide g (Prod.fst <$> typeRecord again id slot h nesting sc) (Prod.fst <$> typeRecord again' id slot h nesting sc)
    rw [map_eq_pure_bind, map_eq_pure_bind]
    exact (coincide_typeRecord asks inside slot h nesting sc).bind fun _ => .pure _
  refine .get fun s => ?_
  exact .ite ((coincide_visibleVariables asks slot.enclosing).bind fun visible => run _ _)
    ((Coincide.pure []).bind fun visible => run _ _)

end asking

section cases

variable {again : Again} {s : Store} {e : ElementId} {slot : Slot}

theorem step_of_absent (absent : s.slot? e = none) : step again e s = (.unknown e, s) := by
  unfold step
  rw [stateM_get_bind, absent]
  rfl

theorem step_of_complete (found : s.slot? e = some slot) {r : ElementRecord} (state : slot.state = .complete r) :
    step again e s = (r, s) := by
  unfold step
  rw [stateM_get_bind, found]
  dsimp only
  rw [state]
  rfl

theorem step_of_completing (found : s.slot? e = some slot) (state : slot.state = .completing) :
    step again e s = (preliminary e slot, s) := by
  unfold step
  rw [stateM_get_bind, found]
  dsimp only
  rw [state]
  rfl

def served (s : Store) (e : ElementId) (r : ElementRecord) : Store :=
  { s with completions := s.completions + 1 }.setState e (.complete r)

theorem slot?_served_ne {a : ElementId} {r : ElementRecord} (other : a ≠ e) : (served s e r).slot? a = s.slot? a :=
  slot?_setState_ne _ other

theorem record?_served_ne {a : ElementId} {r : ElementRecord} (other : a ≠ e) : (served s e r).record? a = s.record? a :=
  record?_congr (slot?_served_ne other)

theorem record?_served {r : ElementRecord} (there : s.HasElement e) : (served s e r).record? e = some r := by
  obtain ⟨slot, found⟩ := has_element_iff.mp there
  have found' : ({ s with completions := s.completions + 1 } : Store).slot? e = some slot := found
  exact record?_eq_some_iff.mpr ⟨_, slot?_setState _ found', rfl⟩

theorem served_there {a : ElementId} {r : ElementRecord} : (served s e r).HasElement a ↔ s.HasElement a := by
  simp [served, HasElement, Store.setState]

theorem step_of_container (found : s.slot? e = some slot) (state : slot.state = .pending .container) :
    step again e s = (containerRecord e slot, served (s.setState e .completing) e (containerRecord e slot)) := by
  unfold step
  rw [stateM_get_bind, found]
  dsimp only
  rw [state]
  rfl

theorem step_of_type (found : s.slot? e = some slot) {h : TypeHeader} (state : slot.state = .pending (.type h))
    {x : ElementRecord × Store} (inside : completeType again e slot h (s.setState e .completing) = x) :
    step again e s = (x.1, served x.2 e x.1) := by
  have id : x.1.id = e := inside ▸ completeType_id again e slot h (s.setState e .completing)
  have publishes : (do
      modify (·.setState e .completing)
      let r ← completeType again e slot h
      modify fun s => { s with completions := s.completions + 1 }
      StoreM.publish r
      return r : StoreM ElementRecord) s = (x.1, served x.2 x.1.id x.1) := by
    subst inside
    rfl
  unfold step
  rw [stateM_get_bind, found]
  dsimp only
  rw [state]
  exact publishes.trans (by rw [id])

theorem containerRecord_describes (bare : slot.arity = 0) : (containerRecord e slot).Describes e slot :=
  ⟨rfl, rfl, rfl, rfl, rfl, bare.symm⟩

theorem completeType_describes (again : Again) (s : Store) {h : TypeHeader} (announced : h.Announces slot) :
    (completeType again e slot h s).1.Describes e slot := by
  have described (nesting : Nesting) (sc : Scope) (s : Store) :
      (typeRecord again e slot h nesting sc s).1.1.Describes e slot := by
    refine ⟨rfl, announced.kind, announced.name, rfl, rfl, ?_⟩
    have arity := enterTypeParameters_length e h.typeParameters sc s
    exact (List.length_map _).trans (arity.trans announced.arity)
  unfold completeType
  exact iteInduction (motive := fun m : StoreM ElementRecord => (m s).1.Describes e slot)
    (fun _ => described _ _ _) fun _ => described _ _ _

end cases

section nesting

variable {again again' : Again} {s : Store}

theorem step_coincides (orderly : s.Orderly)
    (asks : ∀ n < s.waiting.card, ∀ e, Coincide (.few n) (again e) (again' e)) (e : ElementId) :
    step again e s = step again' e s ∧ s.Accounts (step again e s).2 := by
  cases found : s.slot? e with
  | none =>
    rw [step_of_absent found, step_of_absent found]
    exact ⟨rfl, .refl s⟩
  | some slot =>
    have fits := orderly.slots e slot found
    cases state : slot.state with
    | complete r =>
      rw [step_of_complete found state, step_of_complete found state]
      exact ⟨rfl, .refl s⟩
    | completing =>
      rw [step_of_completing found state, step_of_completing found state]
      exact ⟨rfl, .refl s⟩
    | pending work =>
      have waits : slot.isPending := by simp [Slot.isPending, state]
      have mine : e ∈ s.waiting := mem_waiting.mpr (by rw [isPending_of_slot found, waits])
      cases work with
      | container =>
        rw [step_of_container found state, step_of_container found state]
        exact ⟨rfl, accounts_served found waits (.refl _) (containerRecord_describes (fits.bare (.inr state)))⟩
      | type h =>
        have announced := fits.announced h state
        let s₁ := s.setState e .completing
        have begun : s.Follows s₁ := follows_begin
        have fewer : s₁.waiting.card < s.waiting.card := by
          rw [waiting_begin found]
          exact Finset.card_erase_lt_of_mem mine
        have generic : slot.kind.isParameterizable := by
          rw [ElementKind.isParameterizable, ← announced.kind, announced.isType, Bool.true_or]
        let g : Given Accounts := .and (.few s₁.waiting.card) (.encloses e)
        have holds : g.holds s₁ :=
          ⟨⟨begun.orderly orderly, Nat.le_refl _⟩, begun.headings.encloses ⟨slot, found, .inr generic⟩⟩
        have inside (e' : ElementId) : Coincide g (again e') (again' e') :=
          (asks _ fewer e').mono fun _ holds => holds.1
        obtain ⟨same, accounts⟩ := coincide_completeType inside (fun _ holds => holds.2) slot h s₁ holds
        rw [step_of_type found state rfl, step_of_type found state same.symm]
        exact ⟨rfl, accounts_served found waits accounts (completeType_describes again _ announced)⟩

/-- Completions nested at most so deep, beyond which `innermost` answers. -/
def nested (innermost : Again) : Nat → Again
  | 0 => innermost
  | depth + 1 => step (nested innermost depth)

theorem stepN_eq_nested (fuel : Nat) : stepN fuel = nested (fun id => return .unknown id) (fuel + 1) := by
  induction fuel with
  | zero => rfl
  | succ fuel ih => rw [stepN, ih]; rfl

theorem nested_coincides (innermost innermost' : Again) {n depth depth' : Nat} (deep : n < depth) (deep' : n < depth')
    (e : ElementId) : Coincide (.few n) (nested innermost depth e) (nested innermost' depth' e) := by
  induction n using Nat.strongRecOn generalizing depth depth' e with
  | ind n ih =>
    obtain ⟨depth, rfl⟩ := Nat.exists_eq_succ_of_ne_zero (Nat.ne_zero_of_lt deep)
    obtain ⟨depth', rfl⟩ := Nat.exists_eq_succ_of_ne_zero (Nat.ne_zero_of_lt deep')
    intro s few
    refine step_coincides few.1 (fun m less e => ih m (Nat.lt_of_lt_of_le less few.2) ?_ ?_ e) e
    · exact Nat.lt_of_lt_of_le less (few.2.trans (Nat.le_of_lt_succ deep))
    · exact Nat.lt_of_lt_of_le less (few.2.trans (Nat.le_of_lt_succ deep'))

end nesting

end Completion

namespace StoreM

open Completion

variable {s : Store}

theorem waiting_card_le (s : Store) : s.waiting.card ≤ s.elements.size := by
  refine (List.toFinset_card_le _).trans ((List.length_filter_le _ _).trans ?_)
  simp [ids]

/-- Completion does not depend on a bound: any depth beyond the number of elements that wait will do. -/
theorem complete_eq_nested (orderly : s.Orderly) (innermost : Again) {depth : Nat} (deep : s.waiting.card < depth)
    (e : ElementId) : nested innermost depth e s = complete e s := by
  change _ = stepN s.elements.size e s
  rw [stepN_eq_nested]
  have enough := Nat.lt_succ_of_le (waiting_card_le s)
  exact (nested_coincides innermost _ deep enough e s ⟨orderly, Nat.le_refl _⟩).1

theorem complete_accounts (orderly : s.Orderly) (e : ElementId) : s.Accounts (complete e s).2 := by
  rw [← complete_eq_nested orderly complete (Nat.lt_succ_self _)]
  exact (nested_coincides complete complete (Nat.lt_succ_self _) (Nat.lt_succ_self _) e s ⟨orderly, Nat.le_refl _⟩).2

theorem complete_eq_step (orderly : s.Orderly) (e : ElementId) : complete e s = step complete e s := by
  rw [← complete_eq_nested orderly complete (Nat.lt_succ_self _)]
  refine (step_coincides orderly (fun n less e s' few => ?_) e).1
  rw [complete_eq_nested few.1 complete (Nat.lt_of_le_of_lt few.2 less)]
  exact ⟨rfl, complete_accounts few.1 e⟩

end StoreM

end Nominal
