import Nominal.Proofs.Compilation.Proceeding
/-!
Every step of a completion counts the names that it does not resolve, so whatever goes wrong is told by the record
of the type that is completed. Others are only asked for if they are no modules or packages.
-/

namespace Nominal

open Store

namespace StoreM

variable {g : Given SameHeadings}

theorem newSlot_proceeding {slot : Slot} (plain : ¬ slot.kind.isContainer)
    (state : slot.state = .completing ∨ ∃ r, slot.state = .complete r ∧ r.erroneous = false ∧ r.typeParameters = []) :
    Proceeding g (newSlot slot) fun e => .ofKind e slot.kind := by
  intro s regular _
  refine ⟨regular.pushSlot plain state, kind?_eq_some_iff.mpr ⟨slot, ?_, rfl⟩⟩
  exact (slot?_push slot).trans (if_pos rfl)

theorem newType_proceeding {shape : TypeShape} (plain : ∀ s, g.holds s → ∀ e, shape.element? = some e → s.Plain e)
    (known : ∀ name, shape ≠ .error name) : Proceeding g (newType shape) fun _ => .always :=
  fun s regular holds => ⟨regular.pushType (plain s holds) fun name same => absurd same (known name), trivial⟩

theorem objectType_proceeding : Proceeding g objectType fun _ => .always := by
  intro s regular _
  cases usage : s.objectUsage with
  | some t =>
    rw [objectType_of_usage usage]
    exact ⟨regular.proceeds 0, trivial⟩
  | none =>
    cases named : s.objectElement? with
    | none =>
      rw [objectType_of_absent usage named]
      exact ⟨regular.proceeds 0, trivial⟩
    | some e =>
      rw [objectType_of_first usage named]
      have pushed : s.Proceeds 0 (s.pushType (.declared .none e [])) := by
        refine regular.pushType (fun e' same => ?_) nofun
        cases same
        exact regular.listed _ e named
      let kept : Store := { s.pushType (.declared .none e []) with objectUsage := some ⟨s.types.size⟩ }
      have keeps : (s.pushType (.declared .none e [])).Proceeds 0 kept := pushed.regular.aside rfl rfl rfl
      exact ⟨pushed.trans keeps, trivial⟩

theorem publish_proceeding {r : ElementRecord} {k : ElementKind} (plain : ¬ k.isContainer) (other : ¬ k.isType)
    (fine : r.erroneous = false) (parameters : r.typeParameters = []) :
    Proceeding (.ofKind r.id k) (publish r) fun _ => .always := by
  intro s regular known
  refine ⟨(regular.proceeds 0).publish known plain (fun p mem => ?_) (fun wrong => ?_) fun isType => absurd isType other, trivial⟩
  · rw [parameters] at mem
    cases mem
  · rw [fine] at wrong
    cases wrong

theorem setVariable_proceeding (e : ElementId) (t upper : TypeId) :
    Proceeding (.plain e) (setShape t (.typeVariable e upper)) fun _ => .always :=
  fun _ regular plain => ⟨regular.setVariable plain t upper, trivial⟩

end StoreM

namespace ResolveM

variable {g : Given SameHeadings}

theorem fair_newType {shape : TypeShape} (plain : ∀ s, g.holds s → ∀ e, shape.element? = some e → s.Plain e)
    (known : ∀ name, shape ≠ .error name) : Fair g (newType shape) fun _ => .always :=
  .lift (StoreM.newType_proceeding plain known)

theorem fair_newType_free {shape : TypeShape} (free : shape.element? = none) (known : ∀ name, shape ≠ .error name) :
    Fair g (newType shape) fun _ => .always :=
  fair_newType (fun _ _ _ same => by simp [free] at same) known

theorem fair_bindVariable (name : String) (t : TypeId) : Fair g (bindVariable name t) fun _ => .always :=
  fun _ _ regular _ => ⟨0, rfl, regular.proceeds 0, trivial⟩

theorem fair_countUnresolved : Fair g countUnresolved fun _ => .always :=
  fun _ _ regular _ => ⟨1, rfl, regular.proceeds 1, trivial⟩

theorem fair_unresolvedType (name : String) : Fair g (unresolvedType name) fun _ => .always :=
  fun _ _ regular _ => ⟨1, rfl, regular.pushType nofun fun _ _ => Nat.one_pos, trivial⟩

mutual

theorem fair_resolve : (t : TypeExpr) → ∀ {g : Given SameHeadings}, Fair g (resolve t) fun _ => .always
  | .primitive k, g => by
    rw [resolve]
    split
    · exact .done _
    · exact fair_unresolvedType _
  | .void, g => by
    rw [resolve]
    exact .done _
  | .var name, g => by
    rw [resolve]
    refine .scope fun sc => ?_
    split
    · exact .done _
    · exact fair_unresolvedType _
  | .named name args, g => by
    rw [resolve]
    refine .store fun s regular => .scope fun sc => ?_
    cases named : sc.typeElement? s name with
    | none => exact fair_unresolvedType name
    | some e =>
      have listed : s.Plain e := by
        obtain ⟨name', _, found⟩ := List.exists_of_findSome?_eq_some named
        exact regular.listed name' e found
      refine .ite (fair_unresolvedType name) ((fair_resolveAll args).next fun args => fair_newType ?_ nofun)
      rintro s' ⟨_, later⟩ _ ⟨⟩
      exact SameHeadings.plain later listed
  | .array c, g => by
    rw [resolve]
    exact (fair_resolve c).next fun _ => fair_newType_free rfl nofun
  | .wildcard upper lower, g => by
    rw [resolve]
    exact (fair_resolve? upper).next fun _ => (fair_resolve? lower).next fun _ => fair_newType_free rfl nofun

theorem fair_resolveAll : (ts : List TypeExpr) → ∀ {g : Given SameHeadings}, Fair g (resolveAll ts) fun _ => .always
  | [], g => by
    rw [resolveAll]
    exact .done _
  | t :: rest, g => by
    rw [resolveAll]
    exact (fair_resolve t).next fun _ => (fair_resolveAll rest).next fun _ => .done _

theorem fair_resolve? : (t? : Option TypeExpr) → ∀ {g : Given SameHeadings}, Fair g (resolve? t?) fun _ => .always
  | none, g => by
    rw [resolve?]
    exact .done _
  | some t, g => by
    rw [resolve?, map_eq_pure_bind]
    exact (fair_resolve t).next fun _ => .done _

end

end ResolveM

def Given.parameters (xs : List (ElementId × TypeId)) : Given SameHeadings where
  holds s := ∀ x ∈ xs, s.kind? x.1 = some .typeParameter
  lasts same all x mem := same.kind (all x mem)

def Again.Proceeds (again : Again) : Prop := ∀ e, Proceeding (.plain e) (again e) fun r => .allPlain r.typeParameters

namespace Completion

open ResolveM StoreM

variable {g : Given SameHeadings} {again : Again}

section parameters

theorem fair_reserve (owner : ElementId) (p : TypeParameterDecl) :
    Fair g (reserveTypeParameter owner p) fun x => .ofKind x.1 .typeParameter := by
  have plain : ¬ ElementKind.typeParameter.isContainer := by decide
  refine (Fair.lift (newSlot_proceeding plain (.inl rfl))).bind fun e => ?_
  have entered (s : Store) (holds : (g.and (.ofKind e .typeParameter)).holds s) : s.Plain e := ⟨_, holds.2, plain⟩
  have variable_ : Fair (g.and (.ofKind e .typeParameter)) (ResolveM.newType (.typeVariable e .none)) fun _ => .always := by
    refine fair_newType (fun s holds e' same => ?_) nofun
    cases same
    exact entered s holds
  refine variable_.next fun t => (fair_bindVariable p.name t).next fun _ => ?_
  exact .returns (e, t) fun _ holds => holds.2

theorem fair_reserveAll (owner : ElementId) (ps : List TypeParameterDecl) :
    Fair g (ps.mapM (reserveTypeParameter owner)) .parameters := by
  induction ps with
  | nil => exact .returns [] fun _ _ x mem => absurd mem List.not_mem_nil
  | cons p ps ih =>
    rw [List.mapM_cons]
    refine (fair_reserve owner p).bind fun x => ?_
    have others : Fair (g.and (.ofKind x.1 .typeParameter)) (ps.mapM (reserveTypeParameter owner)) .parameters :=
      ih.imp (fun _ => And.left) fun _ _ => id
    refine others.bind fun xs => .returns (x :: xs) fun s holds y mem => ?_
    rcases List.mem_cons.mp mem with rfl | mem
    · exact holds.1.2
    · exact holds.2 y mem

theorem fair_completeTypeParameter (owner : ElementId) (p : TypeParameterDecl) (e : ElementId) (t : TypeId) :
    Fair (.ofKind e .typeParameter) (completeTypeParameter owner p e t) fun _ => .always := by
  have plain (s : Store) (holds : (Given.ofKind e .typeParameter).holds s) : s.Plain e := ⟨_, holds, by decide⟩
  have settles (upper : TypeId) :
      Fair (.ofKind e .typeParameter) (liftM (StoreM.setShape t (.typeVariable e upper))) fun _ => .always :=
    (Fair.lift (setVariable_proceeding e t upper)).imp plain fun _ _ => id
  have publishes (r : ElementRecord) (same : r.id = e) (fine : r.erroneous = false) (bare : r.typeParameters = []) :
      Fair (.ofKind e .typeParameter) (liftM (StoreM.publish r)) fun _ => .always := by
    subst same
    exact .lift (publish_proceeding (by decide) (by decide) fine bare)
  refine (fair_resolveAll p.bounds).next fun bounds => ?_
  rcases bounds with _ | ⟨b, _ | ⟨b', rest⟩⟩
  · refine (Fair.lift objectType_proceeding).next fun upper => (settles upper).next fun _ => ?_
    exact publishes _ rfl rfl rfl
  · refine (Fair.done b).next fun upper => (settles upper).next fun _ => ?_
    exact publishes _ rfl rfl rfl
  · refine (fair_newType_free rfl fun _ same => by cases same).next fun upper => (settles upper).next fun _ => ?_
    exact publishes _ rfl rfl rfl

theorem fair_enterTypeParameters (owner : ElementId) (ps : List TypeParameterDecl) :
    Fair g (enterTypeParameters owner ps) .parameters := by
  refine (fair_reserveAll owner ps).bind fun entered => ?_
  refine (Fair.keep (q := fun _ => .always) ?_).bind fun _ => .returns entered fun _ holds => holds.1.2
  refine .forM_mem fun x mem => ?_
  refine (fair_completeTypeParameter owner x.1 x.2.1 x.2.2).imp (fun s holds => ?_) fun _ _ => id
  exact holds.2 x.2 (List.of_mem_zip mem).2

theorem plain_of_parameters {xs : List (ElementId × TypeId)} {s : Store} (entered : (Given.parameters xs).holds s) :
    ∀ e ∈ xs.map (·.1), s.Plain e := by
  intro e listed
  obtain ⟨x, mem, rfl⟩ := List.mem_map.mp listed
  exact ⟨_, entered x mem, by decide⟩

end parameters

section members

theorem fair_newVariable (owner : ElementId) {kind : ElementKind} (plain : ¬ kind.isContainer) (name : String)
    (t : TypeId) (nesting : Nesting) (modifiers : List Modifier) :
    Fair g (newVariable owner kind name t nesting modifiers) fun _ => .always := by
  intro sc s regular holds
  exact ⟨0, rfl, regular.pushSlot plain (.inr ⟨_, rfl, rfl, rfl⟩), trivial⟩

theorem fair_enterParameter (owner : ElementId) (name : String) (t : TypeExpr) :
    Fair g (enterParameter owner name t) fun _ => .always :=
  (fair_resolve t).next fun _ => (fair_newVariable owner (by decide) name _ _ _).next fun _ => .done _

theorem fair_usageOf (name : String) (arguments : List TypeId) :
    Fair g (liftM (usageOf name arguments)) fun _ => .always := by
  refine .lift (.get fun s regular => ?_)
  cases named : s.typeElement? name with
  | none => exact .returns _ fun _ _ _ => trivial
  | some e =>
    refine newType_proceeding (fun s' holds _ same => ?_) nofun
    cases same
    exact SameHeadings.plain holds.2 (regular.listed name e named)

theorem fair_superclassOf (h : TypeHeader) (qualifiedName : String) (asType : TypeId) :
    Fair g (superclassOf h qualifiedName asType) fun _ => .always := by
  rw [superclassOf.eq_def]
  split
  · exact fair_usageOf _ _
  · exact fair_usageOf _ _
  · exact fair_resolve _
  · exact .ite (.done _) (.lift objectType_proceeding)
  · exact .done _

theorem fair_interfacesOf (h : TypeHeader) : Fair g (interfacesOf h) fun _ => .always := by
  refine (fair_resolveAll h.interfaces).next fun interfaces => ?_
  cases h.superclass with
  | none => exact .done _
  | some t => exact .ite ((fair_resolve t).next fun _ => .done _) (.done _)

end members

section asking

theorem proceeding_visibleVariablesN (asks : again.Proceeds) (fuel : Nat) (e? : Option ElementId) :
    Proceeding g (visibleVariablesN again fuel e?) fun _ => .always := by
  induction fuel generalizing e? g with
  | zero => exact .returns [] fun _ _ _ => trivial
  | succ fuel ih =>
    cases e? with
    | none => exact .returns [] fun _ _ _ => trivial
    | some e =>
      rw [visibleVariablesN]
      refine .get fun s regular => ?_
      cases known : s.kind? e with
      | none => exact .returns [] fun _ _ _ => trivial
      | some k =>
        dsimp only
        split <;> rename_i generic
        · exact .returns [] fun _ _ _ => trivial
        · have plain : s.Plain e := ⟨k, known, ElementKind.parameterizable_not_container (by simpa using generic)⟩
          refine ((asks e).imp (fun s' holds => ?_) fun _ _ => id).bind fun r => ?_
          · exact SameHeadings.plain holds.2 plain
          · have own : Proceeding (g.and (.later s) |>.and (.allPlain r.typeParameters))
                (r.typeParameters.mapM fun p => do
                  let p ← again p
                  return (p.simpleName, p.asType)) fun _ => .always := by
              refine .mapM_mem fun p mem => ?_
              have asked : Proceeding (g.and (.later s) |>.and (.allPlain r.typeParameters)) (again p) fun _ => .always :=
                (asks p).imp (fun _ holds => holds.2 p mem) fun _ _ _ => trivial
              exact asked.bind fun _ => .returns _ fun _ _ _ => trivial
            exact own.bind fun _ => (ih _).bind fun _ => .returns _ fun _ _ _ => trivial

theorem proceeding_visibleVariables (asks : again.Proceeds) (e? : Option ElementId) :
    Proceeding g (visibleVariables again e?) fun _ => .always :=
  .get fun s _ => proceeding_visibleVariablesN asks (s.elements.size + 1) e?

theorem fair_findConstant (members : List ElementId) (name : String) : Fair g (do
    let s ← store
    match members.find? (isConstantNamed s name) with
    | some constant => return AnnotationValue.enumConstant constant
    | none =>
      countUnresolved
      return .str name) fun _ => .always := by
  refine .store fun s _ => ?_
  cases members.find? (isConstantNamed s name) with
  | some constant => exact .done _
  | none => exact fair_countUnresolved.next fun _ => .done _

theorem fair_resolveConstant (asks : again.Proceeds) (t : TypeId) (name : String) :
    Fair g (resolveConstant again t name) fun _ => .always := by
  rw [resolveConstant]
  refine .store fun s regular => ?_
  cases element : (s.shape t).element? with
  | none => exact (Fair.done []).next fun members => fair_findConstant members name
  | some e =>
    have plain : s.Plain e := by
      cases found : s.shape? t with
      | none =>
        rw [shape, found] at element
        cases element
      | some shape =>
        rw [shape_of_shape? found] at element
        exact regular.shapes t shape e found element
    have completes : Fair (g.and (.later s)) (liftM (again e)) fun r => .allPlain r.typeParameters :=
      .lift ((asks e).imp (fun s' holds => SameHeadings.plain holds.2 plain) fun _ _ => id)
    exact completes.bind fun r => (Fair.done r.enclosed).next fun members => fair_findConstant members name

mutual

theorem fair_resolveValue (asks : again.Proceeds) : (v : ValueExpr) → Fair g (resolveValue again v) fun _ => .always
  | .bool b | .int n | .str text => .done _
  | .type t => by
    rw [resolveValue, map_eq_pure_bind]
    exact (fair_resolve t).next fun _ => .done _
  | .enumConstant t name => by
    rw [resolveValue]
    exact (fair_resolve t).next fun t => fair_resolveConstant asks t name
  | .array values => by
    rw [resolveValue, map_eq_pure_bind]
    exact (fair_resolveValues asks values).next fun _ => .done _

theorem fair_resolveValues (asks : again.Proceeds) : (vs : List ValueExpr) → Fair g (resolveValues again vs) fun _ => .always
  | [] => .done []
  | v :: rest => by
    rw [resolveValues]
    exact (fair_resolveValue asks v).next fun _ => (fair_resolveValues asks rest).next fun _ => .done _

end

theorem fair_resolveAnnotationUse (asks : again.Proceeds) (a : AnnotationDecl) :
    Fair g (resolveAnnotationUse again a) fun _ => .always := by
  have values (x : String × ValueExpr) : Fair g (do
      let v ← resolveValue again x.2
      return (x.1, v)) fun _ => .always := (fair_resolveValue asks x.2).next fun _ => .done _
  exact (fair_resolve a.type).next fun t => (Fair.mapM values a.values).next fun _ => .done _

theorem fair_enterExecutable (asks : again.Proceeds) (owner : ElementId) (ownerType : TypeId) {kind : ElementKind}
    (plain : ¬ kind.isContainer) (other : ¬ kind.isType) (d : ExecutableDecl) :
    Fair g (enterExecutable again owner ownerType kind d) fun _ => .always := by
  refine (Fair.lift (newSlot_proceeding plain (.inl rfl))).bind fun id => .measured fun s₀ before => ?_
  refine Since.bind (q := fun _ => .always) (.block ?_) fun _ => (Fair.done id).since
  refine (fair_enterTypeParameters id d.typeParameters).after fun typeParameters => ?_
  refine .ite ?_ ?_
  all_goals
    refine Fair.past (q := fun _ => .always) (by first | exact .done _ | exact fair_resolve _) fun returnType => ?_
    refine Fair.past (.mapM (fun | (name, t) => fair_enterParameter id name t) d.parameters) fun parameters => ?_
    refine (fair_resolveAll d.thrown).past fun thrown => ?_
    refine (Fair.mapM (fair_resolveAnnotationUse asks) d.annotations).past fun annotations => ?_
    refine (fair_newType_free rfl fun _ same => by cases same).past fun asType => ?_
    refine .publish (fun _ => rfl) plain other (fun s holds => ?_) fun _ wrong => by simpa using wrong
    exact ⟨holds.1.2, fun _ => plain_of_parameters holds.2⟩

theorem fair_enterMember (asks : again.Proceeds) (owner : ElementId) (ownerType : TypeId) (d : MemberDecl) :
    Fair g (enterMember again owner ownerType d) fun _ => .always := by
  cases d with
  | field name t modifiers => exact (fair_resolve t).next fun _ => fair_newVariable owner (by decide) name _ _ _
  | enumConstant name => exact fair_newVariable owner (by decide) name _ _ _
  | method d => exact fair_enterExecutable asks owner ownerType (by decide) (by decide) d
  | constructor d => exact fair_enterExecutable asks owner ownerType (by decide) (by decide) d
  | recordComponent name t => exact (fair_resolve t).next fun _ => fair_newVariable owner (by decide) name _ _ _

theorem fair_typeRecord (asks : again.Proceeds) (id : ElementId) (slot : Slot) (h : TypeHeader) (nesting : Nesting) :
    Fair (.plain id) (typeRecord again id slot h nesting) fun r => .allPlain r.typeParameters := by
  refine (fair_enterTypeParameters id h.typeParameters).bind fun typeParameters => ?_
  have usage : Fair (Given.and (.plain id) (.parameters typeParameters))
      (ResolveM.newType (.declared .none id (typeParameters.map (·.2)))) fun _ => .always := by
    refine fair_newType (fun s holds e same => ?_) nofun
    cases same
    exact holds.1
  refine usage.next fun asType => ?_
  refine (fair_superclassOf h slot.qualifiedName asType).next fun superclass => ?_
  refine (fair_interfacesOf h).next fun interfaces => ?_
  refine (Fair.mapM (fair_enterMember asks id asType) h.members).next fun members => ?_
  refine (Fair.mapM (fair_resolveAnnotationUse asks) h.annotations).next fun annotations => ?_
  exact .scope fun _ => .returns _ fun _ holds => plain_of_parameters holds.2

end asking

section completing

variable {s : Store} {e : ElementId} {slot : Slot}

theorem completeType_proceeds (asks : again.Proceeds) (h : TypeHeader) (regular : s.Regular) (plain : s.Plain e) :
    ∃ n, s.Proceeds n (completeType again e slot h s).2 ∧ ((completeType again e slot h s).1.erroneous ↔ 0 < n) ∧
      ∀ p ∈ (completeType again e slot h s).1.typeParameters, (completeType again e slot h s).2.Plain p := by
  let Tells (s : Store) (m : StoreM ElementRecord) : Prop :=
    ∃ n, s.Proceeds n (m s).2 ∧ ((m s).1.erroneous ↔ 0 < n) ∧ ∀ p ∈ (m s).1.typeParameters, (m s).2.Plain p
  have runs (nesting : Nesting) (package owner : String) (visible : List (String × TypeId)) {s : Store}
      (regular : s.Regular) (plain : s.Plain e) :
      Tells s ((typeRecord again e slot h nesting).run' { package, owner, visible }) := by
    let sc : Scope := { package, owner, visible }
    obtain ⟨n, counted, move, parameters⟩ := fair_typeRecord asks e slot h nesting sc s regular plain
    have tells : (typeRecord again e slot h nesting sc s).1.1.erroneous =
        decide (0 < (typeRecord again e slot h nesting sc s).1.2.unresolved) := rfl
    rw [counted, Nat.zero_add] at tells
    exact ⟨n, move, (Bool.eq_iff_iff.mp tells).trans decide_eq_true_iff, parameters⟩
  unfold completeType
  refine iteInduction (motive := Tells s) (fun _ => ?_) fun _ => runs _ _ _ _ regular plain
  obtain ⟨move, _⟩ := proceeding_visibleVariables (g := .always) asks slot.enclosing s regular trivial
  obtain ⟨n, move', tells, parameters⟩ := runs _ _ _ _ move.regular (move.headings.plain plain)
  exact ⟨0 + n, move.trans move', by rwa [Nat.zero_add], parameters⟩

theorem step_proceeds (asks : again.Proceeds) (keeps : ∀ e, Keeping Keeps (again e)) :
    Again.Proceeds (step again) := by
  intro e s regular plain
  obtain ⟨k, known, free⟩ := plain
  obtain ⟨slot, found, rfl⟩ := kind?_eq_some_iff.mp known
  cases state : slot.state with
  | complete r =>
    rw [step_of_complete found state]
    exact ⟨regular.proceeds 0, fun p mem => regular.records e r p (record?_eq_some_iff.mpr ⟨slot, found, state⟩) mem⟩
  | completing =>
    rw [step_of_completing found state]
    exact ⟨regular.proceeds 0, fun p mem => absurd mem List.not_mem_nil⟩
  | pending work =>
    cases work with
    | container => exact absurd (regular.containers e slot found state) free
    | type h =>
      let s₁ := s.setState e .completing
      have begun : s.Proceeds 0 s₁ := regular.begin found free (by simp [Slot.isPending, state])
      have plain : s₁.Plain e := begun.headings.plain ⟨_, known, free⟩
      obtain ⟨n, move, tells, parameters⟩ := @completeType_proceeds _ _ _ slot asks h begun.regular plain
      have isOpen : (completeType again e slot h s₁).2.Open e := by
        refine ((keeping_completeType keeps e slot h s₁).opens e).mpr (.inl ⟨{ slot with state := .completing }, ?_, rfl⟩)
        exact slot?_update.trans (by rw [if_pos rfl, found, Option.map_some])
      have id := completeType_id again e slot h s₁
      rw [step_of_type found state rfl]
      generalize completeType again e slot h s₁ = x at move tells parameters isOpen id
      obtain ⟨r, s₂⟩ := x
      obtain rfl : r.id = e := id
      obtain ⟨slot₂, found₂, busy⟩ := isOpen
      let s₃ : Store := { s₂ with completions := s₂.completions + 1 }
      have counts : s₂.Proceeds 0 s₃ := move.regular.aside rfl rfl rfl
      have known₃ : s₃.kind? r.id = some slot.kind := (begun.headings.trans (move.headings.trans counts.headings)).kind known
      have fresh : s₃.record? r.id = none := by
        cases complete : s₃.record? r.id with
        | none => rfl
        | some r' =>
          obtain ⟨slot₃, found₃, done⟩ := record?_eq_some_iff.mp complete
          cases found₂.symm.trans found₃
          cases busy.symm.trans done
      have published := ((begun.trans move).trans counts).publish known₃ free
        (fun p mem => counts.headings.plain (parameters p mem)) (fun wrong => by simpa using tells.mp wrong) fun _ => fresh
      refine ⟨published.told fun counted => ?_, fun p mem => ?_⟩
      · have there : s₃.HasElement r.id := has_element_iff.mpr ⟨slot₂, found₂⟩
        refine ⟨r.id, r, slot.kind, record?_publish there, tells.mpr (by simpa using counted), ?_, ?_⟩
        · exact published.headings.kind known
        · exact regular.types _ _ _ found state
      · exact (headings_updateSlot fun _ => rfl : s₃.SameHeadings (s₃.setState r.id (.complete r))).plain
          (counts.headings.plain (parameters p mem))

theorem stepN_proceeds (fuel : Nat) : Again.Proceeds (stepN fuel) := by
  induction fuel with
  | zero =>
    refine step_proceeds (fun e => .returns _ fun _ _ _ p mem => absurd mem List.not_mem_nil) fun e => Keeper.pure _
  | succ fuel ih => exact step_proceeds ih fun e s => (stepN_settles fuel s e).1

end completing

end Completion

theorem StoreM.complete_proceeds : Again.Proceeds complete :=
  fun e s => Completion.stepN_proceeds s.elements.size e s

end Nominal
