import Nominal.Proofs.Order.Asking
/-!
The completion of a type, side by side in two stores, from the variables that it sees to the record that it
publishes.
-/

namespace Nominal

open Completion

namespace Store

open Reference ResolveM

variable {s₀ : Store} {R : Reference s₀ s₀.HasElement} {x : ElementId} {home : Scope} {out : Outset} {w v : Pairing out} {s r : Store}
  {again : Again} {e : ElementId}

section visible

theorem ElementKind.isType_of_around {outer k : ElementKind} (admits : outer.admits k) (isType : k.isType)
    (generic : outer.isParameterizable) : outer.isType := by
  revert admits isType generic
  cases outer <;> cases k <;> decide

theorem Reference.Abreast.parameter (poised : s₀.Poised) {n : Nat} (serves : R.Serves again n) (ab : R.Abreast x w s r)
    {p p' : ElementId} (known : w.known.element p p') (kind : (R.before x).kind? p' = some .typeParameter) :
    R.Alongside x w s r (do
        let p ← again p
        return (p.simpleName, p.asType)) (do
        let p ← recollect p'
        return (p.simpleName, p.asType)) fun v => ByName.Entry v.bound := by
  have steady := R.turn x ab.entered
  obtain ⟨q', complete'⟩ := steady.sound.record_of_owned kind rfl
  have new := ab.not_waiting poised known kind rfl
  obtain ⟨q, complete⟩ := isComplete_iff_record.mp (ab.explains.complete known new)
  obtain ⟨q'', complete'', like, _⟩ := ab.explains.record known complete
  cases (before_record ab.entered complete').symm.trans complete''
  obtain ⟨slot', found', state'⟩ := record?_eq_some_iff.mp complete'
  obtain ⟨_, again', isParameter⟩ := kind?_eq_some_iff.mp kind
  cases found'.symm.trans again'
  have fits := (steady.consistent.slots p' slot' found').state
  simp only [StateFits, state'] at fits
  obtain ⟨_, _, upper', shape', _⟩ := fits.bound isParameter
  obtain ⟨shape, shape'', found, found'', alike⟩ := ab.explains.shape like.asType
  cases ((R.start_endures ab.entered).shapes _ _ shape').symm.trans found''
  cases alike with
  | @typeVariable p₁ _ upper _ same _ =>
    obtain rfl : p₁ = p := (ab.explains.once.element same known).mpr rfl
    have near : (R.near x w).type q.asType q'.asType := .inr ⟨like.asType, has_type_iff.mpr ⟨_, shape'⟩⟩
    have bound := ab.bind near found (ab.within.shapes _ _ shape')
      (.inr (.inr ⟨known, new, isComplete_iff_record.mpr ⟨q', complete'⟩⟩))
    obtain ⟨slot, found₁, state⟩ := record?_eq_some_iff.mp complete
    have asked : again p₁ s = (q, s) := by
      rw [serves.idle found₁ (by simp [Slot.isPending, state]), recollect_of_complete complete]
    have recollected := recollect_of_complete (ab.within.record complete')
    refine ⟨w.bind q.asType q'.asType, w.le_bind _ _, ?_, ?_⟩
    · change R.Abreast x _ (again p₁ s).2 (recollect p' r).2
      rw [asked, recollected]
      exact bound
    · change ByName.Entry _ ((again p₁ s).1.simpleName, (again p₁ s).1.asType) ((recollect p' r).1.simpleName, (recollect p' r).1.asType)
      rw [asked, recollected]
      exact ⟨like.simpleName, .inr ⟨rfl, rfl⟩⟩

theorem Untangled.outward (untangled : s₀.Untangled) (fits : s₀.Consistent) {slot : Slot} {h : TypeHeader}
    {o : ElementId} (found : s₀.slot? e = some slot) (state : slot.state = .pending (.type h))
    (enclosing : slot.enclosing = some o) (inherits : s₀.inherits slot h) : s₀.rank o < s₀.rank e := by
  have announced := (fits.slots e slot found).state
  simp only [StateFits, state] at announced
  obtain ⟨_, _, around, older, kind, _⟩ :=
    (fits.slots e slot found).placed (ElementKind.isType_not_container announced.1)
  cases enclosing.symm.trans around
  obtain ⟨outer, found', _⟩ := kind?_eq_some_iff.mp kind
  have needs : s₀.Needs e o := (mem_needs found state).mpr (.inl ⟨inherits, enclosing⟩)
  refine untangled.rank_lt (has_element_iff.mpr ⟨outer, found'⟩) needs fun same => ?_
  exact Nat.lt_irrefl _ (same ▸ older)

theorem Poised.outward (poised : s₀.Poised) {q : ElementRecord} {o : ElementId} {k : ElementKind}
    (complete : s₀.record? e = some q) (isClass : q.kind = .classType) (sees : ¬ q.isStatic)
    (enclosing : q.enclosing = some o) (older : o.index < e.index) (kind : s₀.kind? o = some k) (around : k.isType) : ¬ s₀.isPending o := by
  have fits := poised.sound.toConsistent
  obtain ⟨slot, found, state⟩ := record?_eq_some_iff.mp complete
  have told := (fits.slots e slot found).state
  simp only [StateFits, state] at told
  obtain ⟨vars, shape, _⟩ := told.prototype (by rw [← told.kind, isClass]; rfl)
  have own : q.asType ≠ .package := by
    intro same
    have plain := fits.element_initial (.refl s₀) (i := TypeId.package.index) (by decide)
    rw [same] at shape
    simp [shape_of_shape? shape, TypeShape.element?] at plain
  intro waits
  obtain ⟨outer, found', rfl⟩ := kind?_eq_some_iff.mp kind
  rw [isPending_of_slot found'] at waits
  exact poised.turn e o ⟨⟨q, complete, ⟨isClass, own⟩, sees, enclosing⟩, older, outer, found', around, waits⟩

theorem Reference.outward (R : Reference s₀ s₀.HasElement) (poised : s₀.Poised) (untangled : s₀.Untangled) {slot : Slot}
    {o : ElementId} (found : s₀.slot? e = some slot) (isClass : slot.kind = .classType)
    (enclosing : slot.enclosing = some o) (older : o.index < e.index) {k : ElementKind} (kind : s₀.kind? o = some k) (around : k.isType)
    (inherits : ¬ (R.record e).isStatic) {n : Nat} (below : s₀.rank e < n) : s₀.rank o < n := by
  have there : s₀.HasElement e := has_element_iff.mpr ⟨slot, found⟩
  have fits := (poised.sound.slots e slot found).state
  cases state : slot.state with
  | pending work =>
    cases work with
    | container =>
      simp only [StateFits, state, isClass] at fits
      exact absurd fits.1 Bool.false_ne_true
    | type h =>
      have nested : s₀.nestingOf slot = .member := by
        simp only [Store.nestingOf, enclosing, Option.bind_some, kind, if_pos around]
      refine Nat.lt_trans (untangled.outward poised.sound.toConsistent found state enclosing ?_) below
      rw [ElementRecord.isStatic, R.record_modifiers poised there found state] at inherits
      simpa [Store.inherits, nested] using inherits
  | completing => exact absurd state (poised.closed found)
  | complete q =>
    have recorded : R.record e = q := by
      rw [Reference.record, step_of_complete (R.waited e slot there found) state]
    simp only [StateFits, state] at fits
    rw [recorded] at inherits
    have complete : s₀.record? e = some q := record?_eq_some_iff.mpr ⟨slot, found, state⟩
    have same := fits.enclosing.trans enclosing
    rw [rank_eq_zero (poised.outward complete (fits.kind.trans isClass) inherits same older kind around)]
    exact Nat.zero_lt_of_lt below

theorem Reference.Abreast.parameters (poised : s₀.Poised) {n : Nat} (serves : R.Serves again n) (ab : R.Abreast x w s r)
    {q q' : ElementRecord} (complete : (R.before x).record? e = some q') (like : w.known.Outline q q') :
    R.Alongside x w s r (q.typeParameters.mapM fun p => do
        let p ← again p
        return (p.simpleName, p.asType)) (q'.typeParameters.mapM fun p => do
        let p ← recollect p
        return (p.simpleName, p.asType)) fun v => List.Forall₂ (ByName.Entry v.bound) := by
  let S (v : Pairing out) (p p' : ElementId) : Prop := v.known.element p p' ∧ (R.before x).kind? p' = some .typeParameter
  have listed : ∀ p ∈ q'.typeParameters, (R.before x).kind? p = some .typeParameter := by
    obtain ⟨slot, found, state⟩ := record?_eq_some_iff.mp complete
    have fits := ((R.turn x ab.entered).consistent.slots e slot found).state
    simp only [StateFits, state] at fits
    intro p mem
    rw [fits.typeParameters] at mem
    obtain ⟨slot', found', _, _, isParameter⟩ := mem_ownedOf.mp mem
    exact kind?_eq_some_iff.mpr ⟨slot', found', by simpa using isParameter⟩
  have all : List.Forall₂ (S w) q.typeParameters q'.typeParameters := by
    have like := like.typeParameters
    refine List.forall₂_iff_zip.mpr ⟨like.length_eq, fun {p p'} mem => ?_⟩
    exact ⟨(List.forall₂_iff_zip.mp like).2 mem, listed p' (List.of_mem_zip mem).2⟩
  refine Alongside.mapM (S := S) (Q := fun v => ByName.Entry v.bound) ?_ ?_ ab all ?_
  · exact fun _ _ _ _ le entry => ⟨entry.1, le.2.2 entry.2⟩
  · exact fun _ _ _ _ le known => ⟨le.1.1 known.1, known.2⟩
  · exact fun u s r p p' _ ab known => ab.parameter poised serves known.1 known.2

theorem Reference.Explains.enclosing {π : Renaming} (ex : R.Explains π s) (poised : s₀.Poised) {slot : Slot}
    {o : ElementId} {q : ElementRecord} (found : s₀.slot? e = some slot) (enclosing : slot.enclosing = some o)
    (outer : s₀.HasElement o) (like : π.Outline q (R.record e)) : q.enclosing = some o ∧ (R.record e).enclosing = some o := by
  have around := (R.record_describes poised (has_element_iff.mpr ⟨slot, found⟩) found).enclosing.trans enclosing
  refine ⟨?_, around⟩
  have same := like.enclosing
  rw [around] at same
  generalize q.enclosing = o? at same
  cases same with
  | some same => rw [ex.entered_eq' same outer]

theorem Reference.Abreast.visibleVariablesN (poised : s₀.Poised) (untangled : s₀.Untangled)
    (serves : R.Serves again (s₀.rank x)) {fuel fuel' : Nat} (ab : R.Abreast x w s r) (there : s₀.HasElement e)
    (place : ∀ k, s₀.kind? e = some k → k.isParameterizable → k.isType)
    (lower : ∀ k, s₀.kind? e = some k → k.isType → s₀.rank e < s₀.rank x) (deep : e.index < fuel)
    (deep' : e.index < fuel') :
    R.Alongside x w s r (visibleVariablesN again fuel (some e)) (visibleVariablesN recollect fuel' (some e))
      fun v => List.Forall₂ (ByName.Entry v.bound) := by
  induction fuel generalizing fuel' e w s r with
  | zero => exact absurd deep (Nat.not_lt_zero _)
  | succ fuel ih =>
    obtain ⟨fuel', rfl⟩ := Nat.exists_eq_succ_of_ne_zero (Nat.ne_zero_of_lt deep')
    obtain ⟨slot, found⟩ := has_element_iff.mp there
    have kind : s₀.kind? e = some slot.kind := kind?_eq_some_iff.mpr ⟨slot, found, rfl⟩
    rw [Completion.visibleVariablesN, Completion.visibleVariablesN]
    refine .get ?_
    rw [ab.explains.under.kind_eq there, ab.within.under.kind_eq there, kind]
    dsimp only
    split <;> rename_i generic
    · exact .pure ab .nil
    · have isType := place _ kind (by simpa using generic)
      have below := lower _ kind isType
      refine (ab.asks poised serves there below).bind fun v s r q q' le ab told => ?_
      obtain ⟨same, like⟩ := told
      subst same
      refine (ab.parameters poised serves (R.recorded poised ab.entered there below) like).bind
        fun u s r own own' le' ab all => ?_
      refine Alongside.bind (P := fun v => List.Forall₂ (ByName.Entry v.bound)) ?_
        fun u' s r vs vs' le'' ab all' => .pure ab ?_
      · have static : q.isStatic = (R.record e).isStatic := by rw [ElementRecord.isStatic, like.modifiers, ElementRecord.isStatic]
        rw [static]
        split <;> rename_i inherits
        · obtain ⟨o, k, enclosing, older, around, admits⟩ :=
            (poised.sound.slots e slot found).placed (ElementKind.isType_not_container isType)
          obtain ⟨outer, found', _⟩ := kind?_eq_some_iff.mp around
          have there' : s₀.HasElement o := has_element_iff.mpr ⟨outer, found'⟩
          have related := like.mono le'.1
          rw [(ab.explains.enclosing poised found enclosing there' related).1,
            (ab.explains.enclosing poised found enclosing there' related).2]
          have inherits : slot.kind = .classType ∧ ¬ (R.record e).isStatic := by
            rcases Bool.or_eq_true_iff.mp inherits with executable | member
            · exact absurd isType (by revert executable; cases slot.kind <;> decide)
            · simpa using member
          refine ih ab there' (fun k' around' => ?_) (fun k' around' nested => ?_) (by omega) (by omega)
          · cases around.symm.trans around'
            exact ElementKind.isType_of_around admits isType
          · cases around.symm.trans around'
            exact R.outward poised untangled found inherits.1 enclosing older around nested inherits.2 below
        · cases fuel <;> cases fuel' <;> exact .pure ab .nil
      · refine List.rel_append (List.forall₂_reverse_iff.mpr (all.imp fun _ _ entry => ?_)) all'
        exact ⟨entry.1, le''.2.2 entry.2⟩

end visible

section members

variable {owner owner' : ElementId} {ownerType ownerType' : TypeId}

theorem walks_enterExecutable (poised : s₀.Poised) (serves : R.Serves again (s₀.rank x)) {kind : ElementKind}
    (plain : ¬ kind.isContainer) (d : ExecutableDecl) (admits : home.Admits s₀ x (d.annotations.flatMap (·.shown)))
    (inside : (R.near x w).element owner owner') (ownType : (R.near x w).type ownerType ownerType') :
    R.Walks x home w (enterExecutable again owner ownerType kind d) (enterExecutable recollect owner' ownerType' kind d)
      fun v e e' => v.own.element e e' := by
  refine Walks.bind (walks_newSlot rfl rfl rfl (.some inside) rfl rfl plain) fun v₁ e e' le₁ own => ?_
  refine .scope fun v₂ sc sc' le₂ sees => ?_
  rw [sees.unresolved]
  refine Walks.bind (P := fun _ _ _ => True) (.block ?_) fun u _ _ le _ => .pure fun u' _ _ le' _ =>
    (Pairing.le_trans le₂ (Pairing.le_trans le le')).2.1.1 own
  have inside' : (R.near x v₂).element e e' := .inl (le₂.2.1.1 own)
  refine Walks.bind (walks_enterTypeParameters poised d.typeParameters inside') fun v₃ _ _ le₃ generics => ?_
  refine .ite (Walks.bind (P := R.NearTypes x) (.pure fun _ _ _ _ ab => ab.near_initial (poised.sound.has_initial (by decide))) ?_)
    (Walks.bind (walks_resolve poised v₃ d.returnType) ?_)
  all_goals
    intro v₄ returnType returnType' le₄ sameReturn
    refine Walks.bind (Walks.mapM_same (Q := fun v y y' => v.own.element y.1 y'.1 ∧ (R.near x v).type y.2 y'.2)
      d.parameters ?_ ?_) fun v₅ _ _ le₅ sameParameters => ?_
    · exact fun _ _ _ _ le same => ⟨le.2.1.1 same.1, (near_mono le).2 same.2⟩
    · rintro v le ⟨name, t⟩ _
      exact walks_enterParameter poised name t ((near_mono (Pairing.le_trans le₃ (Pairing.le_trans le₄ le))).1 inside')
    refine Walks.bind (walks_resolveAll poised v₅ d.thrown) fun v₆ thrown thrown' le₆ sameThrown => ?_
    refine Walks.bind (walks_resolveAnnotations poised serves d.annotations admits) fun v₇ annotations annotations' le₇ sameUses => ?_
    refine .abreast fun v₈ _ _ le₈ ab => ?_
    have le₅₈ := Pairing.le_trans le₆ (Pairing.le_trans le₇ le₈)
    have le₃₈ := Pairing.le_trans le₄ (Pairing.le_trans le₅ le₅₈)
    have le₁₈ := Pairing.le_trans le₂ (Pairing.le_trans le₃ le₃₈)
    have receiver : (R.near x v₈).type (if d.modifiers.contains .static || kind = .constructor then .none else ownerType)
        (if d.modifiers.contains .static || kind = .constructor then .none else ownerType') := by
      split
      · exact ab.near_initial poised.sound.has_none
      · exact (near_mono (Pairing.le_trans le₁ le₁₈)).2 ownType
    have thrown := Renaming.le_types (near_mono (Pairing.le_trans le₇ le₈)) sameThrown
    have returnType := (near_mono (Pairing.le_trans le₅ le₅₈)).2 sameReturn
    refine Walks.bind (walks_newType (.executable
      { typeVariables := List.rel_map (fun _ _ same => .inl (le₃₈.2.1.2 same.2)) generics, receiver
        parameters := List.rel_map (fun _ _ same => (near_mono le₅₈).2 same.2) sameParameters
        result := returnType, thrown })) fun v₉ asType asType' le₉ sameType => ?_
    refine .scope fun v₁₀ sc sc' le₁₀ sees' => ?_
    rw [sees'.unresolved]
    have le := Pairing.le_trans le₉ le₁₀
    have near := near_mono (R := R) (x := x) le
    have published := (Pairing.le_trans le₁₈ le).2.1.1 own
    exact walks_publish published
      { id := .inl published, kind := rfl, simpleName := rfl, qualifiedName := rfl
        enclosing := .some ((near_mono (Pairing.le_trans le₁ (Pairing.le_trans le₁₈ le))).1 inside), enclosed := .nil
        modifiers := rfl, nesting := rfl, asType := .inl (le₁₀.2.1.2 sameType)
        annotations := sameUses.imp fun _ _ => Renaming.Use.mono (near_mono (Pairing.le_trans le₈ le)), erroneous := rfl
        detail := .executable
          { typeParameters := List.rel_map (fun _ _ same => .inl ((Pairing.le_trans le₃₈ le).2.1.1 same.1)) generics
            parameters := List.rel_map (fun _ _ same => .inl ((Pairing.le_trans le₅₈ le).2.1.1 same.1)) sameParameters
            returnType := near.2 returnType, thrown := Renaming.le_types near thrown, varargs := rfl } }

theorem walks_enterMember (poised : s₀.Poised) (serves : R.Serves again (s₀.rank x)) (d : MemberDecl)
    (admits : home.Admits s₀ x d.shown) (inside : (R.near x w).element owner owner')
    (ownType : (R.near x w).type ownerType ownerType') :
    R.Walks x home w (enterMember again owner ownerType d) (enterMember recollect owner' ownerType' d)
      fun v e e' => v.own.element e e' := by
  have variable_ {kind : ElementKind} (plain : ¬ kind.isContainer) (name : String) (t : TypeExpr)
      (modifiers : List Modifier) : R.Walks x home w
        (resolve t >>= fun t => newVariable owner kind name t .member modifiers)
        (resolve t >>= fun t => newVariable owner' kind name t .member modifiers) fun v e e' => v.own.element e e' :=
    Walks.bind (walks_resolve poised w t) fun _ _ _ le type =>
      walks_newVariable plain name .member modifiers ((near_mono le).1 inside) type
  cases d with
  | field name t modifiers => exact variable_ (show ¬ ElementKind.field.isContainer from nofun) name t modifiers
  | enumConstant name => exact walks_newVariable (show ¬ ElementKind.enumConstant.isContainer from nofun) name .member _ inside ownType
  | method d => exact walks_enterExecutable poised serves (show ¬ ElementKind.method.isContainer from nofun) d admits inside ownType
  | constructor d =>
    exact walks_enterExecutable poised serves (show ¬ ElementKind.constructor.isContainer from nofun) d admits inside ownType
  | recordComponent name t => exact variable_ (show ¬ ElementKind.recordComponent.isContainer from nofun) name t []

theorem components_alike {S : ElementId → ElementId → Prop} (ds : List MemberDecl) {es es' : List ElementId}
    (all : List.Forall₂ S es es') :
    List.Forall₂ S ((ds.zip es).filterMap fun (m, e) => if isComponent m then some e else none)
      ((ds.zip es').filterMap fun (m, e) => if isComponent m then some e else none) := by
  induction ds generalizing es es' with
  | nil => exact .nil
  | cons d ds ih =>
    cases all with
    | nil => exact .nil
    | cons head rest =>
      rw [List.zip_cons_cons, List.zip_cons_cons, List.filterMap_cons, List.filterMap_cons]
      dsimp only
      cases isComponent d with
      | true => exact .cons head (ih rest)
      | false => exact ih rest

theorem walks_typeRecord (poised : s₀.Poised) (serves : R.Serves again (s₀.rank x)) (slot : Slot) (h : TypeHeader)
    (nesting : Nesting) (admits : home.Admits s₀ x h.shown) (entered : s₀.HasElement x)
    (placed : ∀ o, slot.enclosing = some o → s₀.HasElement o) (children : ∀ c ∈ slot.children, s₀.HasElement c) :
    R.Walks x home w (typeRecord again x slot h nesting) (typeRecord recollect x slot h nesting)
      fun v => (R.near x v).Record := by
  refine .abreast fun v₀ _ _ _ ab => ?_
  have inside := ab.near_entered entered
  refine Walks.bind (walks_enterTypeParameters poised h.typeParameters inside) fun v₁ _ _ le₁ generics => ?_
  refine .abreast fun v₂ _ _ le₂ ab => ?_
  have none := ab.near_initial poised.sound.has_none
  refine Walks.bind (walks_newNearType (.declared none (ab.near_entered entered)
    (List.rel_map (fun _ _ same => .inl (le₂.2.1.2 same.2)) generics))) fun v₃ asType asType' le₃ sameType => ?_
  refine Walks.bind (walks_superclassOf poised h slot.qualifiedName sameType) fun v₄ superclass superclass' le₄ sameSuper => ?_
  refine Walks.bind (walks_interfacesOf poised h) fun v₅ interfaces interfaces' le₅ sameInterfaces => ?_
  have le₃₅ := Pairing.le_trans le₄ le₅
  have le₀₅ := Pairing.le_trans le₁ (Pairing.le_trans le₂ (Pairing.le_trans le₃ le₃₅))
  refine Walks.bind (Walks.mapM_same (Q := fun v e e' => v.own.element e e') h.members (fun _ _ _ _ le => le.2.1.1)
    fun v le d mem => walks_enterMember poised serves d (fun t shown => admits t ?_)
      ((near_mono (Pairing.le_trans le₀₅ le)).1 inside) ((near_mono (Pairing.le_trans le₃₅ le)).2 sameType))
    fun v₆ members members' le₆ sameMembers => ?_
  · exact List.mem_append_left _ (List.mem_flatMap.mpr ⟨d, mem, shown⟩)
  refine Walks.bind (walks_resolveAnnotations poised serves h.annotations fun t shown => admits t ?_)
    fun v₇ annotations annotations' le₇ sameUses => ?_
  · exact List.mem_append_right _ shown
  refine .scope fun v₈ sc sc' le₈ sees => ?_
  rw [sees.unresolved]
  refine .pure fun v₉ _ _ le₉ ab => ?_
  have le₇₉ := Pairing.le_trans le₈ le₉
  have le₆₉ := Pairing.le_trans le₇ le₇₉
  have le₅₉ := Pairing.le_trans le₆ le₆₉
  have le₄₉ := Pairing.le_trans le₅ le₅₉
  have le₃₉ := Pairing.le_trans le₄ le₄₉
  have le₁₉ := Pairing.le_trans le₂ (Pairing.le_trans le₃ le₃₉)
  have members : List.Forall₂ (R.near x v₉).element members members' := sameMembers.imp fun _ _ same => .inl (le₆₉.2.1.1 same)
  exact
    { id := ab.near_entered entered, kind := rfl, simpleName := rfl, qualifiedName := rfl
      enclosing := by
        cases around : slot.enclosing with
        | none => exact .none
        | some o => exact .some (ab.near_entered (placed o around))
      enclosed := List.rel_append members (List.forall₂_same.mpr fun c mem => ab.near_entered (children c mem))
      modifiers := rfl, nesting := rfl, asType := (near_mono le₃₉).2 sameType
      annotations := sameUses.imp fun _ _ => Renaming.Use.mono (near_mono le₇₉), erroneous := rfl
      detail := .type
        { typeParameters := List.rel_map (fun _ _ same => .inl (le₁₉.2.1.1 same.1)) generics
          superclass := (near_mono le₄₉).2 sameSuper, interfaces := Renaming.le_types (near_mono le₅₉) sameInterfaces
          components := components_alike h.members members } }

end members

section types

variable {slot : Slot} {h : TypeHeader}

theorem element_there (fits : s.Consistent) {sc : Scope} {t : TypeExpr} (meant : sc.element? s t = some e) :
    s.HasElement e := by
  cases t with
  | named name args => exact typeElement_there fits (Option.eq_some_of_filter_eq_some meant)
  | _ => cases meant

theorem Untangled.admits (untangled : s₀.Untangled) (fits : s₀.Consistent) (found : s₀.slot? x = some slot)
    (state : slot.state = .pending (.type h)) : (s₀.scopeOf x slot).Admits s₀ x h.shown := by
  intro t mem e meant
  have there := element_there fits meant
  refine ⟨there, or_iff_not_imp_left.mpr fun other => ?_⟩
  exact untangled.rank_lt there ((mem_needs found state).mpr (.inr ⟨t, mem, meant⟩)) other

theorem Reference.Abreast.completeType (poised : s₀.Poised) (untangled : s₀.Untangled)
    (serves : R.Serves again (s₀.rank x)) (found : s₀.slot? x = some slot) (state : slot.state = .pending (.type h))
    (ab : R.Abreast x w s r) :
    R.Alongside x w s r (completeType again x slot h) (completeType recollect x slot h) fun v => (R.near x v).Record := by
  have fits := poised.sound.toConsistent
  have announced := (poised.orderly.slots x slot found).announced h state
  have isType : slot.kind.isType := announced.kind ▸ announced.isType
  have plain := ElementKind.isType_not_container isType
  have encloses : s₀.Encloses x := ⟨slot, found, .inr (by simp [ElementKind.isParameterizable, isType])⟩
  obtain ⟨o, k, enclosing, older, around, admits⟩ := (fits.slots x slot found).placed plain
  obtain ⟨outer, found', _⟩ := kind?_eq_some_iff.mp around
  have there : s₀.HasElement o := has_element_iff.mpr ⟨outer, found'⟩
  have children (c : ElementId) (mem : c ∈ slot.children) : s₀.HasElement c := by
    obtain ⟨_, kind, _⟩ := (fits.slots x slot found).children c mem
    obtain ⟨slot', found', _⟩ := kind?_eq_some_iff.mp kind
    exact has_element_iff.mpr ⟨slot', found'⟩
  have records {v : Pairing out} {s r : Store} {visible visible' : List (String × TypeId)} (ab : R.Abreast x v s r)
      (same : List.Forall₂ (ByName.Entry v.bound) visible visible') : R.Alongside x v s r
        ((typeRecord again x slot h (s₀.nestingOf slot)).run' { s₀.scopeOf x slot with visible })
        ((typeRecord recollect x slot h (s₀.nestingOf slot)).run' { s₀.scopeOf x slot with visible := visible' })
        fun u => (R.near x u).Record := by
    have walks : R.Walks x (s₀.scopeOf x slot) v _ _ _ := walks_typeRecord poised serves slot h (s₀.nestingOf slot)
      (untangled.admits fits found state) encloses.there (fun o' same => by cases enclosing.symm.trans same; exact there) children
    obtain ⟨u, le, ab', _, holds⟩ := walks v s r { s₀.scopeOf x slot with visible } { s₀.scopeOf x slot with visible := visible' }
      v.le_refl ab ⟨⟨rfl, rfl⟩, ⟨rfl, rfl⟩, same, rfl⟩
    exact ⟨u, le, ab', holds⟩
  have body (nesting nesting' : Nesting) (package package' : String) (nested : nesting = s₀.nestingOf slot)
      (nested' : nesting' = s₀.nestingOf slot) (inside : package = s₀.packageName x) (inside' : package' = s₀.packageName x) :
      R.Alongside x w s r (do
        let visible ← if nesting = .member ∧ .static ∉ modifiersOf h nesting
          then visibleVariables again slot.enclosing else pure []
        (typeRecord again x slot h nesting).run' { package, owner := slot.qualifiedName, visible }) (do
        let visible ← if nesting' = .member ∧ .static ∉ modifiersOf h nesting'
          then visibleVariables recollect slot.enclosing else pure []
        (typeRecord recollect x slot h nesting').run' { package := package', owner := slot.qualifiedName, visible })
        fun v => (R.near x v).Record := by
    subst nested nested' inside inside'
    rw [enclosing]
    split <;> rename_i inherits
    · refine Alongside.bind (.get (ab.visibleVariablesN poised untangled serves there (fun k' around' => ?_)
        (fun k' around' nested => ?_) (Nat.lt_succ_of_lt (ab.explains.under.there there)) (Nat.lt_succ_of_lt (ab.within.under.there there))))
        fun v s r visible visible' le ab same => records ab same
      · cases around.symm.trans around'
        exact ElementKind.isType_of_around admits isType
      · exact untangled.outward fits found state enclosing (by simpa [Store.inherits] using inherits)
    · exact Alongside.bind (.pure ab List.Forall₂.nil) fun v s r visible visible' le ab same => records ab same
  unfold Completion.completeType
  exact .get (body _ _ _ _ (ab.explains.under.nestingOf fits found plain) (ab.within.under.nestingOf fits found plain)
    (ab.explains.under.packageName poised.orderly encloses) (ab.within.under.packageName poised.orderly encloses))

end types

end Store

end Nominal
