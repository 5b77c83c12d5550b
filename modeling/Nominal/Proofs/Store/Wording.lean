import Nominal.Proofs.Store.Understanding
/-!
The record of a type says what its header says. Each part of a declaration is followed as it is resolved and entered,
and what was read of it is not disturbed by what follows.
-/

namespace Nominal

open Store Completion

section resolving

open ResolveM

variable {mine : ElementId → Prop}

theorem newType_new (shape : TypeShape) (sc : Scope) (s : Store) :
    Ensures (Course mine) s (newType shape sc) fun r s' => s'.shape? r.1 = some shape ∧ r.2.visible = sc.visible :=
  ⟨ResolveM.keeping_newType (R := Course mine) shape sc s, (shape?_push shape).trans (if_pos rfl), rfl⟩

theorem unresolvedType_new (name : String) (sc : Scope) (s : Store) :
    Ensures (Course mine) s (unresolvedType name sc) fun r s' =>
      s'.shape? r.1 = some (.error name) ∧ r.2.visible = sc.visible :=
  newType_new (.error name) { sc with unresolved := sc.unresolved + 1 } s

mutual

theorem resolve_reads : (t : TypeExpr) → (sc : Scope) → (s : Store) → Ensures (Course mine) s (resolve t sc) fun r s' =>
    s'.Reads (StandsFor sc.visible) t r.1 ∧ r.2.visible = sc.visible
  | .primitive k, sc, s => by
    rw [resolve]
    unfold Reads
    cases k.primitive? with
    | some p => exact .pure (.refl s) ⟨rfl, rfl⟩
    | none => exact unresolvedType_new k.name sc s
  | .void, sc, s => by
    rw [resolve]
    exact .pure (.refl s) ⟨by rw [Reads], rfl⟩
  | .var name, sc, s => by
    rw [resolve]
    unfold Reads
    refine .scope ?_
    cases found : sc.boundVariable? name with
    | some t => exact .pure (.refl s) ⟨.inl found, rfl⟩
    | none =>
      refine (unresolvedType_new name sc s).imp ?_
      intro r s' _ ⟨error, visible⟩
      exact ⟨.inr ⟨found, error⟩, visible⟩
  | .named name args, sc, s => by
    rw [resolve]
    unfold Reads
    have unresolved : Ensures (Course mine) s (unresolvedType name sc) fun r s' =>
        (s'.shape? r.1 = some (.error name) ∨ ∃ e ts, s'.shape? r.1 = some (.declared .none e ts) ∧
          s'.ReadsAll (StandsFor sc.visible) args ts) ∧ r.2.visible = sc.visible :=
      (unresolvedType_new name sc s).imp fun r s' _ ⟨error, visible⟩ => ⟨.inl error, visible⟩
    refine .store (.scope ?_)
    cases sc.typeElement? s name with
    | none => exact unresolved
    | some e =>
      dsimp only
      split
      · exact unresolved
      · refine (resolveAll_reads args sc s).resolve_bind fun ts sc₁ s₁ _ ⟨parts, visible₁⟩ => ?_
        refine (newType_new (.declared .none e ts) sc₁ s₁).imp fun r s₂ course ⟨shape, visible₂⟩ => ?_
        refine ⟨.inr ⟨e, ts, shape, ?_⟩, visible₂.trans visible₁⟩
        exact ReadsAll.mono (fun _ _ => id) course.conserves.shapes args parts
  | .array c, sc, s => by
    rw [resolve]
    unfold Reads
    refine (resolve_reads c sc s).resolve_bind fun u sc₁ s₁ _ ⟨part, visible₁⟩ => ?_
    refine (newType_new (.array u) sc₁ s₁).imp fun r s₂ course ⟨shape, visible₂⟩ => ?_
    exact ⟨⟨u, shape, Reads.mono (fun _ _ => id) course.conserves.shapes c part⟩, visible₂.trans visible₁⟩
  | .wildcard upper lower, sc, s => by
    rw [resolve]
    unfold Reads
    refine (resolve?_reads upper sc s).resolve_bind fun u sc₁ s₁ _ ⟨first, visible₁⟩ => ?_
    refine (resolve?_reads lower sc₁ s₁).resolve_bind fun l sc₂ s₂ course ⟨second, visible₂⟩ => ?_
    refine (newType_new (.wildcard u l) sc₂ s₂).imp fun r s₃ course' ⟨shape, visible₃⟩ => ?_
    rw [visible₁] at second visible₂
    refine ⟨⟨u, l, shape, ?_, ?_⟩, visible₃.trans visible₂⟩
    · exact Reads?.mono (fun _ _ => id) (course.trans course').conserves.shapes upper first
    · exact Reads?.mono (fun _ _ => id) course'.conserves.shapes lower second

theorem resolveAll_reads : (ts : List TypeExpr) → (sc : Scope) → (s : Store) →
    Ensures (Course mine) s (resolveAll ts sc) fun r s' =>
      s'.ReadsAll (StandsFor sc.visible) ts r.1 ∧ r.2.visible = sc.visible
  | [], sc, s => by
    rw [resolveAll]
    exact .pure (.refl s) ⟨by rw [ReadsAll], rfl⟩
  | t :: rest, sc, s => by
    rw [resolveAll]
    unfold ReadsAll
    refine (resolve_reads t sc s).resolve_bind fun u sc₁ s₁ _ ⟨first, visible₁⟩ => ?_
    refine (resolveAll_reads rest sc₁ s₁).resolve_bind fun us sc₂ s₂ course ⟨others, visible₂⟩ => ?_
    rw [visible₁] at others visible₂
    exact .pure (.refl s₂) ⟨⟨u, us, rfl, Reads.mono (fun _ _ => id) course.conserves.shapes t first, others⟩, visible₂⟩

theorem resolve?_reads : (t? : Option TypeExpr) → (sc : Scope) → (s : Store) →
    Ensures (Course mine) s (resolve? t? sc) fun r s' =>
      s'.Reads? (StandsFor sc.visible) t? r.1 ∧ r.2.visible = sc.visible
  | none, sc, s => by
    rw [resolve?]
    exact .pure (.refl s) ⟨by rw [Reads?], rfl⟩
  | some t, sc, s => by
    rw [resolve?, ← bind_pure_comp]
    unfold Reads?
    refine (resolve_reads t sc s).resolve_bind fun u sc₁ s₁ _ ⟨part, visible₁⟩ => ?_
    exact .pure (.refl s₁) ⟨⟨u, rfl, part⟩, visible₁⟩

end

end resolving

namespace Completion

open ResolveM

variable {s s' : Store} {sc : Scope} {mine : ElementId → Prop} {owner e : ElementId} {t : TypeId} {p : TypeParameterDecl}
  {ps : List TypeParameterDecl} {xs : List (ElementId × TypeId)}

section adjoining

theorem keeping_forM {R : Store → Store → Prop} {m : Type → Type} [Monad m] [Keeper R m] {α : Type} {f : α → m PUnit}
    (each : ∀ a, Keeping R (f a)) (as : List α) : Keeping R (as.forM f) := by
  induction as with
  | nil => exact Keeper.pure PUnit.unit
  | cons a as ih => exact Keeper.bind (each a) fun _ => ih

theorem adjoins_enterTypeParameters (owner : ElementId) (ps : List TypeParameterDecl) :
    Keeping Adjoins (enterTypeParameters owner ps) := by
  have reserves (p : TypeParameterDecl) : Keeping Adjoins (reserveTypeParameter owner p) :=
    Keeper.bind (keeping_lift fun s => (adjoins_pushSlot nofun : s.Adjoins (s.pushSlot (parameterHeading owner p)))) fun e =>
      Keeper.bind (ResolveM.keeping_newType _) fun t => Keeper.bind (keeping_bindVariable _ _) fun _ => Keeper.pure _
  have settles (t : TypeId) (shape : TypeShape) : Keeping Adjoins (StoreM.setShape t shape) := fun s => ⟨rfl, fun _ => id⟩
  have publishes (r : ElementRecord) : Keeping Adjoins (StoreM.publish r) := fun s => adjoins_setState _ _
  have completes (p : TypeParameterDecl) (e : ElementId) (t : TypeId) :
      Keeping Adjoins (completeTypeParameter owner p e t) := by
    refine Keeper.bind (keeping_resolveAll p.bounds) fun bounds => ?_
    rcases bounds with _ | ⟨b, _ | ⟨b', rest⟩⟩
    all_goals
      refine Keeper.bind (by grind) fun upper => ?_
      exact Keeper.bind (keeping_lift (settles t _)) fun _ => keeping_lift (publishes _)
  have all (entered : List (ElementId × TypeId)) :=
    keeping_forM (fun c : TypeParameterDecl × ElementId × TypeId => completes c.1 c.2.1 c.2.2) (ps.zip entered)
  exact Keeper.bind (keeping_mapM reserves) fun entered => Keeper.bind (all _) fun _ => Keeper.pure entered

theorem enterTypeParameters_course (owner : ElementId) (ps : List TypeParameterDecl) :
    Keeping (Course mine) (enterTypeParameters owner ps) := by
  intro sc s
  have keeps : s.Keeps _ := keeping_enterTypeParameters owner ps sc s
  have accounts : s.Accounts _ := accounting_enterTypeParameters owner ps sc s
  have spares : s.Spares s.HasElement _ := spares_enterTypeParameters owner ps sc s
  have adjoins : s.Adjoins _ := adjoins_enterTypeParameters owner ps sc s
  exact .of_spares keeps accounts.toFollows spares adjoins.1 accounts.waiting adjoins.2

end adjoining

section typeParameters

def Awaits (s : Store) (owner : ElementId) (p : TypeParameterDecl) (x : ElementId × TypeId) : Prop :=
  s.slot? x.1 = some (parameterHeading owner p) ∧ s.IsVariable x.1 x.2

def variablesOf (ps : List TypeParameterDecl) (xs : List (ElementId × TypeId)) : List (String × TypeId) :=
  List.zipWith (fun p x => (p.name, x.2)) ps xs

theorem Awaits.move {x : ElementId × TypeId} (awaits : Awaits s owner p x) (course : s.Course Nothing s') :
    Awaits s' owner p x :=
  ⟨course.open_slot awaits.1 rfl id, course.conserves.bound _ _ awaits.2⟩

theorem reserve_awaits (owner : ElementId) (p : TypeParameterDecl) (sc : Scope) (s : Store) :
    Ensures (Course Nothing) s (reserveTypeParameter owner p sc) fun r s' =>
      Awaits s' owner p r.1 ∧ r.2.visible = (p.name, r.1.2) :: sc.visible := by
  have fits : (parameterHeading owner p).Orderly ⟨s.elements.size⟩ := ⟨fun _ => rfl, fun _ => nofun, fun _ => nofun⟩
  have pushed : s.Course Nothing (s.pushSlot (parameterHeading owner p)) := course_pushSlot fits rfl (fun _ => nofun) nofun
  refine ⟨pushed.trans (Mild.pushType _ _), ⟨?_, .none, ?_⟩, rfl⟩
  · exact (slot?_push _).trans (if_pos rfl)
  · exact (shape?_push _).trans (if_pos rfl)

theorem reserveAll_awaits (owner : ElementId) (ps : List TypeParameterDecl) (sc : Scope) (s : Store) :
    Ensures (Course Nothing) s (ps.mapM (reserveTypeParameter owner) sc) fun r s' =>
      List.Forall₂ (Awaits s' owner) ps r.1 ∧ r.2.visible = (variablesOf ps r.1).reverse ++ sc.visible := by
  refine .resolve_mapM (fun ps xs sc' s' => List.Forall₂ (Awaits s' owner) ps xs ∧
    sc'.visible = (variablesOf ps xs).reverse ++ sc.visible) (.refl s) ⟨.nil, rfl⟩ ?_
  intro ps p xs sc' s' _ ⟨awaits, visible⟩
  refine (reserve_awaits owner p sc' s').imp fun r s'' course ⟨new, visible'⟩ => ⟨?_, ?_⟩
  · exact List.rel_append (awaits.imp fun _ _ old => old.move course) (.cons new .nil)
  · rw [visible', visible, variablesOf, variablesOf, List.zipWith_append awaits.length_eq]
    simp

theorem settle_reads {x : ElementId × TypeId} (awaits : Awaits s owner p x) {means : String → Option TypeId → Prop}
    {bounds : List TypeId} (upper : TypeId) (reads : p.bounds ≠ [] → s.ReadsAll means p.bounds bounds) (sc : Scope) :
    Ensures Conserves s ((do
        (StoreM.setShape x.2 (.typeVariable x.1 upper) : StoreM Unit)
        (StoreM.publish { id := x.1, kind := .typeParameter, simpleName := p.name, enclosing := some owner, asType := x.2
                          detail := .typeParameter owner bounds } : StoreM Unit) : ResolveM Unit) sc) fun r s' =>
      (s'.ReadsParameter means p x.1 ∧ s'.LendsOne x.1 (p.name, x.2) ∧
        ∀ a slot, a ≠ x.1 → s.slot? a = some slot → s'.slot? a = some slot) ∧ r.2 = sc := by
  obtain ⟨found, stands⟩ := awaits
  obtain ⟨upper', shape⟩ := stands
  let s₁ := s.updateShape x.2 (.typeVariable x.1 upper)
  have there : s.HasType x.2 := has_type_iff.mpr ⟨_, shape⟩
  have settled : s₁.shape? x.2 = some (.typeVariable x.1 upper) := (shape?_update there).trans (if_pos rfl)
  have others (u : TypeId) (other : u ≠ x.2) : s₁.shape? u = s.shape? u := (shape?_update there).trans (if_neg other)
  have first : s.Conserves s₁ := by
    refine ⟨follows_aside rfl, fun _ _ _ _ _ => id, fun u shape' known plain => ?_, fun a u stands => ?_⟩
    · have other : u ≠ x.2 := by
        rintro rfl
        cases shape.symm.trans known
        exact plain rfl
      rw [others u other, known]
    · obtain ⟨bound, known⟩ := stands
      by_cases same : u = x.2
      · subst same
        cases shape.symm.trans known
        exact ⟨upper, settled⟩
      · exact ⟨bound, (others u same).trans known⟩
  let r : ElementRecord :=
    { id := x.1, kind := .typeParameter, simpleName := p.name, enclosing := some owner, asType := x.2
      detail := .typeParameter owner bounds }
  have found₁ : s₁.slot? x.1 = some (parameterHeading owner p) := found
  have second : s₁.Conserves (s₁.setState x.1 (.complete r)) := conserves_publish found₁ rfl ⟨rfl, rfl, rfl, rfl, rfl, rfl⟩
  have complete : (s₁.setState x.1 (.complete r)).record? x.1 = some r :=
    record?_eq_some_iff.mpr ⟨_, slot?_setState _ found₁, rfl⟩
  refine ⟨first.trans second, ⟨⟨r, complete, rfl, rfl, fun bounded => ?_⟩, ⟨⟨upper, settled⟩, r, complete, rfl, rfl, rfl⟩, ?_⟩, rfl⟩
  · exact ReadsAll.mono (fun _ _ => id) (first.trans second).shapes _ (reads bounded)
  · intro a slot other known
    exact (slot?_setState_ne _ other).trans known

theorem completeTypeParameter_reads {x : ElementId × TypeId} (awaits : Awaits s owner p x) (sc : Scope) :
    Ensures Conserves s (completeTypeParameter owner p x.1 x.2 sc) fun r s' =>
      (s'.ReadsParameter (StandsFor sc.visible) p x.1 ∧ s'.LendsOne x.1 (p.name, x.2) ∧
        ∀ a slot, a ≠ x.1 → s.slot? a = some slot → slot.state = .completing → s'.slot? a = some slot) ∧
      r.2.visible = sc.visible := by
  have settle {s₁ : Store} {sc₁ : Scope} {bounds : List TypeId} (upper : TypeId) (course : s.Course Nothing s₁)
      (reads : p.bounds ≠ [] → s₁.ReadsAll (StandsFor sc.visible) p.bounds bounds) (visible : sc₁.visible = sc.visible) :
      Ensures Conserves s₁ ((do
        (StoreM.setShape x.2 (.typeVariable x.1 upper) : StoreM Unit)
        (StoreM.publish { id := x.1, kind := .typeParameter, simpleName := p.name, enclosing := some owner, asType := x.2
                          detail := .typeParameter owner bounds } : StoreM Unit) : ResolveM Unit) sc₁) fun r s' =>
      (s'.ReadsParameter (StandsFor sc.visible) p x.1 ∧ s'.LendsOne x.1 (p.name, x.2) ∧
        ∀ a slot, a ≠ x.1 → s.slot? a = some slot → slot.state = .completing → s'.slot? a = some slot) ∧
      r.2.visible = sc.visible := by
    refine (settle_reads (awaits.move course) upper reads sc₁).imp ?_
    rintro r s' _ ⟨⟨parameter, lends, kept⟩, same⟩
    refine ⟨⟨parameter, lends, fun a slot other found state => ?_⟩, by rw [same, visible]⟩
    exact kept a slot other (course.open_slot found state id)
  rw [completeTypeParameter]
  obtain ⟨course, reads, visible⟩ : Ensures (Course Nothing) s (resolveAll p.bounds sc) _ := resolveAll_reads p.bounds sc s
  refine Ensures.resolve_bind (P := fun r s' => r.2.visible = sc.visible ∧ s.Course Nothing s' ∧
    s'.ReadsAll (StandsFor sc.visible) p.bounds r.1) ⟨course.conserves, visible, course, reads⟩ ?_
  rintro bounds sc₁ s₁ _ ⟨visible, course, reads⟩
  rcases bounds with _ | ⟨b, _ | ⟨b', rest⟩⟩
  · have object : s₁.Course Nothing (StoreM.objectType s₁).2 := keeping_objectType s₁
    refine Ensures.lift_bind (P := fun _ s' => s₁.Course Nothing s') ⟨object.conserves, object⟩ fun upper s₂ _ later => ?_
    refine settle upper (course.trans later) (fun bounded => ?_) visible
    cases bounds : p.bounds with
    | nil => exact absurd bounds bounded
    | cons t ts =>
      rw [bounds, ReadsAll] at reads
      obtain ⟨_, _, ⟨⟩, _⟩ := reads
  · exact settle b course (fun _ => reads) visible
  · obtain ⟨later, _, same⟩ : Ensures (Course Nothing) s₁ (newType (.intersection (b :: b' :: rest)) sc₁) _ :=
      newType_new (.intersection (b :: b' :: rest)) sc₁ s₁
    refine Ensures.resolve_bind (P := fun r s' => r.2.visible = sc₁.visible ∧ s₁.Course Nothing s')
      ⟨later.conserves, same, later⟩ ?_
    rintro upper sc₂ s₂ _ ⟨same, later⟩
    exact settle upper (course.trans later) (fun _ => ReadsAll.mono (fun _ _ => id) later.conserves.shapes _ reads)
      (same.trans visible)

theorem completeAll_reads (owner : ElementId) {ps : List TypeParameterDecl} {xs : List (ElementId × TypeId)}
    (awaits : List.Forall₂ (Awaits s owner) ps xs) (distinct : (xs.map (·.1)).Nodup) (orderly : s.Orderly) (sc : Scope) :
    Ensures Conserves s (((ps.zip xs).forM fun (p, e, t) => completeTypeParameter owner p e t : ResolveM Unit) sc) fun r s' =>
      (List.Forall₂ (s'.ReadsParameter (StandsFor sc.visible)) ps (xs.map (·.1)) ∧
        s'.Lends (xs.map (·.1)) (variablesOf ps xs)) ∧ r.2.visible = sc.visible := by
  induction ps generalizing xs s sc with
  | nil =>
    cases awaits
    exact .pure (.refl s) ⟨⟨.nil, .nil⟩, rfl⟩
  | cons p ps ih =>
    obtain _ | ⟨first, rest⟩ := awaits
    rename_i x xs
    obtain ⟨apart, distinct⟩ := List.nodup_cons.mp distinct
    refine (completeTypeParameter_reads first sc).resolve_bind fun _ sc₁ s₁ move ⟨⟨parameter, lends, kept⟩, visible⟩ => ?_
    have later : List.Forall₂ (Awaits s₁ owner) ps xs := by
      refine List.forall₂_iff_zip.mpr ⟨rest.length_eq, fun {p' x'} paired => ?_⟩
      obtain ⟨found, stands⟩ := (List.forall₂_iff_zip.mp rest).2 paired
      have other : x'.1 ≠ x.1 := by
        intro same
        have listed : x'.1 ∈ xs.map (·.1) := List.mem_map_of_mem (List.of_mem_zip paired).2
        rw [same] at listed
        exact apart listed
      exact ⟨kept _ _ other found rfl, move.bound _ _ stands⟩
    refine (ih later distinct (move.orderly orderly) sc₁).imp fun r s₂ move' ⟨⟨parameters, lends'⟩, visible'⟩ => ?_
    have orderly₁ := move.orderly orderly
    rw [visible] at parameters visible'
    exact ⟨⟨.cons (parameter.mono (fun _ _ => id) move' orderly₁) parameters, .cons (lends.conserve move' orderly₁) lends'⟩,
      visible'⟩

theorem enterTypeParameters_reads (owner : ElementId) (ps : List TypeParameterDecl) (orderly : s.Orderly) (sc : Scope) :
    Ensures (Course mine) s (enterTypeParameters owner ps sc) fun r s' => ∃ vs,
      s'.Lends (r.1.map (·.1)) vs ∧ List.Forall₂ (s'.ReadsParameter (StandsFor (vs.reverse ++ sc.visible))) ps (r.1.map (·.1)) ∧
        r.2.visible = vs.reverse ++ sc.visible := by
  refine ⟨enterTypeParameters_course owner ps sc s, ?_⟩
  obtain ⟨course, awaits, visible⟩ := reserveAll_awaits owner ps sc s
  have distinct : ((ps.mapM (reserveTypeParameter owner) sc s).1.1.map (·.1)).Nodup := (reserveAll_setsAside ps sc s).1.distinct
  obtain ⟨_, ⟨parameters, lends⟩, visible'⟩ :=
    completeAll_reads owner awaits distinct (course.conserves.orderly orderly) (ps.mapM (reserveTypeParameter owner) sc s).1.2
  rw [visible] at parameters visible'
  exact ⟨_, lends, parameters, visible'⟩

end typeParameters

section elements

theorem newVariable_new (owner : ElementId) {k : ElementKind} (plain : ¬ k.isContainer) (simple : ¬ k.isParameterizable)
    (name : String) (t : TypeId) (nesting : Nesting) (modifiers : List Modifier) (sc : Scope) (s : Store) :
    Ensures (Course mine) s (newVariable owner k name t nesting modifiers sc) fun r s' =>
      (∃ q, s'.record? r.1 = some q ∧ q.kind = k ∧ q.asType = t) ∧ r.2 = sc := by
  let q : ElementRecord :=
    { id := ⟨s.elements.size⟩, kind := k, simpleName := name, enclosing := some owner, asType := t, nesting, modifiers }
  refine ⟨keeping_newVariable owner plain simple name t nesting modifiers sc s, ⟨q, ?_, rfl, rfl⟩, rfl⟩
  exact record?_eq_some_iff.mpr ⟨_, (slot?_push _).trans (if_pos rfl), rfl⟩

theorem enterVariable_reads (owner : ElementId) {k : ElementKind} (plain : ¬ k.isContainer) (simple : ¬ k.isParameterizable)
    (name : String) (t : TypeExpr) (nesting : Nesting) (modifiers : List Modifier) (sc : Scope) (s : Store) :
    Ensures (Course mine) s ((do newVariable owner k name (← resolve t) nesting modifiers : ResolveM ElementId) sc) fun r s' =>
      s'.ReadsVariable (StandsFor sc.visible) k t r.1 ∧ r.2.visible = sc.visible := by
  refine (resolve_reads t sc s).resolve_bind fun u sc₁ s₁ _ ⟨reads, visible⟩ => ?_
  refine (newVariable_new owner plain simple name u nesting modifiers sc₁ s₁).imp ?_
  rintro r s₂ course ⟨⟨q, complete, kind, rfl⟩, same⟩
  exact ⟨⟨q, complete, kind, Reads.mono (fun _ _ => id) course.conserves.shapes t reads⟩, by rw [same, visible]⟩

theorem enterParameter_reads (owner : ElementId) (name : String) (t : TypeExpr) (sc : Scope) (s : Store) :
    Ensures (Course mine) s (enterParameter owner name t sc) fun r s' =>
      (s'.Reads (StandsFor sc.visible) t r.1.2 ∧ s'.IsParameter r.1.1 r.1.2) ∧ r.2.visible = sc.visible := by
  refine (resolve_reads t sc s).resolve_bind fun u sc₁ s₁ _ ⟨reads, visible⟩ => ?_
  refine (newVariable_new owner (by decide) (by decide) name u .body [] sc₁ s₁).resolve_bind ?_
  rintro e sc₂ s₂ course ⟨parameter, rfl⟩
  exact .pure (.refl s₂) ⟨⟨Reads.mono (fun _ _ => id) course.conserves.shapes t reads, parameter⟩, visible⟩

theorem enterParameters_reads (owner : ElementId) (ps : List (String × TypeExpr)) (orderly : s.Orderly) (sc : Scope) :
    Ensures (Course mine) s ((ps.mapM fun (name, t) => enterParameter owner name t : ResolveM _) sc) fun r s' =>
      (s'.ReadsAll (StandsFor sc.visible) (ps.map (·.2)) (r.1.map (·.2)) ∧
        List.Forall₂ s'.IsParameter (r.1.map (·.1)) (r.1.map (·.2))) ∧ r.2.visible = sc.visible := by
  induction ps generalizing s sc with
  | nil =>
    rw [List.mapM_nil]
    exact .pure (.refl s) ⟨⟨by simp [ReadsAll], .nil⟩, rfl⟩
  | cons p ps ih =>
    rw [List.mapM_cons]
    refine (enterParameter_reads owner p.1 p.2 sc s).resolve_bind fun v sc₁ s₁ move ⟨⟨first, parameter⟩, visible⟩ => ?_
    have orderly₁ := move.conserves.orderly orderly
    refine (ih orderly₁ sc₁).resolve_bind fun vs sc₂ s₂ move' ⟨⟨rest, parameters⟩, visible'⟩ => ?_
    rw [visible] at rest visible'
    refine .pure (.refl s₂) ⟨⟨?_, .cons (parameter.conserve move'.conserves orderly₁) parameters⟩, visible'⟩
    rw [List.map_cons, ReadsAll]
    exact ⟨v.2, vs.map (·.2), rfl, Reads.mono (fun _ _ => id) move'.conserves.shapes p.2 first, rest⟩

end elements

section asking

variable {n : Nat} {ts more : List TypeExpr} {sc' : Scope}

def Goes (n : Nat) : Prop :=
  ∀ (s : Store) (e : ElementId), s.Clear → s.waiting.card ≤ n → s.Askable e → s.Course Nothing (StoreM.complete e s).2

structure Ready (n : Nat) (s : Store) (sc : Scope) (ts : List TypeExpr) : Prop where
  clear : s.Clear
  few : s.waiting.card ≤ n
  bound : s.AllStand sc.visible
  shows : s.ShowsEnums sc ts

theorem Ready.less (ready : Ready n s sc more) (sub : ts ⊆ more) : Ready n s sc ts :=
  { ready with shows := fun t mem => ready.shows t (sub mem) }

theorem Ready.move (ready : Ready n s sc ts) (course : s.Course mine s') (visible : sc'.visible = sc.visible)
    (place : sc'.place = sc.place) : Ready n s' sc' ts where
  clear := course.clear ready.clear
  few := (Finset.card_le_card course.waiting).trans ready.few
  bound v mem := by
    rw [visible] at mem
    obtain ⟨p, stands, settled⟩ := ready.bound v mem
    exact ⟨p, course.conserves.bound p _ stands, fun pending => settled (mem_waiting.mp (course.waiting (mem_waiting.mpr pending)))⟩
  shows := ready.clear.showsEnums course.underlies ready.shows place

theorem Ready.enter {gs : List ElementId} {vs : List (String × TypeId)} (ready : Ready n s sc ts) (lends : s.Lends gs vs)
    (visible : sc'.visible = vs.reverse ++ sc.visible) (place : sc'.place = sc.place) : Ready n s sc' ts where
  clear := ready.clear
  few := ready.few
  bound := visible ▸ lends.allStand ready.bound
  shows := ready.clear.showsEnums (.refl s) ready.shows place

theorem mapM_course {α β : Type} {f : α → ResolveM β} {shown : α → List TypeExpr} {P : α → β → Store → Prop} {as : List α}
    (ready : Ready n s sc (as.flatMap shown))
    (stable : ∀ a b s s', s.Orderly → s.Course Nothing s' → P a b s → P a b s')
    (each : ∀ a s₁ sc', s.Course Nothing s₁ → sc'.visible = sc.visible → Ready n s₁ sc' (shown a) →
      Ensures (Course Nothing) s₁ (f a sc') fun r s' => P a r.1 s' ∧ r.2.visible = sc'.visible ∧ r.2.place = sc'.place) :
    Ensures (Course Nothing) s (as.mapM f sc) fun r s' =>
      List.Forall₂ (P · · s') as r.1 ∧ r.2.visible = sc.visible ∧ r.2.place = sc.place := by
  induction as generalizing s sc with
  | nil =>
    rw [List.mapM_nil]
    exact .pure (.refl s) ⟨.nil, rfl, rfl⟩
  | cons a as ih =>
    rw [List.mapM_cons]
    rw [List.flatMap_cons] at ready
    have first := ready.less (List.subset_append_left (shown a) (as.flatMap shown))
    have others := ready.less (List.subset_append_right (shown a) (as.flatMap shown))
    refine (each a s sc (.refl s) rfl first).resolve_bind fun b sc₁ s₁ course ⟨now, visible, place⟩ => ?_
    have later := others.move course visible place
    refine (ih later fun a s₂ sc' course' same => each a s₂ sc' (course.trans course') (same.trans visible)).resolve_bind ?_
    intro bs sc₂ s₂ course' ⟨rest, visible', place'⟩
    have orderly := course.conserves.orderly ready.clear.orderly
    exact .pure (.refl s₂) ⟨.cons (stable a b s₁ s₂ orderly course' now) rest, visible'.trans visible, place'.trans place⟩

theorem unresolvedType_element (name : String) :
    ((unresolvedType name sc s).2.shape (unresolvedType name sc s).1.1).element? = none :=
  congrArg TypeShape.element? (newType_shape (.error name) { sc with unresolved := sc.unresolved + 1 } s)

theorem resolve_named_element {name : String} {args : List TypeExpr}
    (found : ((resolve (.named name args) sc s).2.shape (resolve (.named name args) sc s).1.1).element? = some e) :
    sc.element? s (.named name args) = some e := by
  have unresolved {name : String} : ((unresolvedType name sc s).2.shape (unresolvedType name sc s).1.1).element? ≠ some e := by
    rw [unresolvedType_element]
    nofun
  rw [resolve, store_bind, scope_bind] at found
  rw [Scope.element?]
  cases named : sc.typeElement? s name with
  | none =>
    rw [named] at found
    exact absurd found unresolved
  | some e' =>
    rw [named] at found
    dsimp only at found
    rw [Option.filter_some]
    cases fits : args.isEmpty || args.length == s.arity e' with
    | true =>
      rw [if_neg (by simpa [imp_iff_or_not, or_comm] using fits),
        bind_newType_shape (resolveAll args) (.declared .none e')] at found
      exact found
    | false =>
      rw [if_pos (by simpa using fits)] at found
      exact absurd found unresolved

theorem resolve_askable {t : TypeExpr} (ready : Ready n s sc [t])
    (found : ((resolve t sc s).2.shape (resolve t sc s).1.1).element? = some e) : (resolve t sc s).2.Askable e := by
  have course : s.Course Nothing (resolve t sc s).2 := ResolveM.keeping_resolve t sc s
  have initial {i : Nat} {shape : TypeShape} (there : TypeShape.initial[i]? = some shape) : s.shape ⟨i⟩ = shape :=
    shape_of_shape? (ready.clear.initial i shape there)
  cases t with
  | primitive k =>
    rw [resolve] at found
    cases p : k.primitive? with
    | none =>
      rw [p] at found
      exact absurd found (by rw [unresolvedType_element]; nofun)
    | some p' =>
      rw [p] at found
      have shape : s.shape (.primitive p') = .primitive p' := by cases p' <;> exact initial rfl
      change (s.shape (.primitive p')).element? = some e at found
      rw [shape] at found
      cases found
  | void =>
    change (s.shape .void).element? = some e at found
    rw [show s.shape .void = _ from initial rfl] at found
    cases found
  | var name =>
    rw [resolve, scope_bind] at found ⊢
    cases bound : sc.boundVariable? name with
    | none =>
      rw [bound] at found
      exact absurd found (by rw [unresolvedType_element]; nofun)
    | some u =>
      rw [bound] at found
      obtain ⟨p, ⟨upper, shape⟩, settled⟩ := ready.bound _ (mem_of_inSight? bound)
      change (s.shape u).element? = some e at found
      rw [shape_of_shape? shape] at found
      cases found
      exact .inl settled
  | named name args =>
    have shown := ready.shows _ (List.mem_singleton.mpr rfl) e (resolve_named_element found)
    exact .inr (.inl (course.conserves.headings.kind shown))
  | array c =>
    rw [resolve, bind_newType_shape (resolve c) .array] at found
    cases found
  | wildcard upper lower =>
    rw [resolve, bind_apply, bind_newType_shape] at found
    cases found

theorem resolveConstant_course (goes : Goes n) {t : TypeId} (ready : Ready n s sc ts) (asks : ∀ e, (s.shape t).element? = some e → s.Askable e)
    (name : String) : Ensures (Course Nothing) s (resolveConstant StoreM.complete t name sc) fun r _ =>
      r.2.visible = sc.visible ∧ r.2.place = sc.place := by
  rw [resolveConstant]
  refine .store ?_
  cases found : (s.shape t).element? with
  | none => exact .store (.pure (.refl s) ⟨rfl, rfl⟩)
  | some e =>
    have asked : Ensures (Course Nothing) s (StoreM.complete e) fun _ _ => True :=
      ⟨goes s e ready.clear ready.few (asks e found), trivial⟩
    refine asked.lift_bind fun r s' _ _ => .store (.store ?_)
    cases r.enclosed.find? (isConstantNamed s' name) <;> exact Ensures.pure (Course.refl s') ⟨rfl, rfl⟩

mutual

theorem resolveValue_course (goes : Goes n) {s : Store} {sc : Scope} : (v : ValueExpr) → Ready n s sc v.shown →
    Ensures (Course Nothing) s (resolveValue StoreM.complete v sc) fun r _ => r.2.visible = sc.visible ∧ r.2.place = sc.place
  | .bool _, _ | .int _, _ | .str _, _ => .pure (.refl s) ⟨rfl, rfl⟩
  | .type t, _ => by
    rw [resolveValue, ← bind_pure_comp]
    refine ((InPlace.resolve t).ensures (resolve_reads t sc s)).resolve_bind ?_
    intro u sc' s' _ ⟨⟨_, visible⟩, place⟩
    exact .pure (.refl s') ⟨visible, place⟩
  | .enumConstant t name, ready => by
    rw [resolveValue]
    have asks := fun e => resolve_askable (e := e) ready
    obtain ⟨course, _, visible⟩ : Ensures (Course Nothing) s (resolve t sc) _ := resolve_reads t sc s
    have place := InPlace.resolve t sc s
    have constant := resolveConstant_course goes (ready.move course visible place) asks name
    exact ⟨course.trans constant.1, constant.2.1.trans visible, constant.2.2.trans place⟩
  | .array values, ready => by
    rw [resolveValue, ← bind_pure_comp]
    refine (resolveValues_course goes values ready).resolve_bind fun vs sc' s' _ same => ?_
    exact .pure (.refl s') same

theorem resolveValues_course (goes : Goes n) {s : Store} {sc : Scope} : (vs : List ValueExpr) → Ready n s sc (ValueExpr.allShown vs) →
    Ensures (Course Nothing) s (resolveValues StoreM.complete vs sc) fun r _ => r.2.visible = sc.visible ∧ r.2.place = sc.place
  | [], _ => .pure (.refl s) ⟨rfl, rfl⟩
  | v :: rest, ready => by
    rw [resolveValues]
    have first := ready.less (List.subset_append_left v.shown (ValueExpr.allShown rest))
    have others := ready.less (List.subset_append_right v.shown (ValueExpr.allShown rest))
    refine (resolveValue_course goes v first).resolve_bind fun _ sc₁ s₁ course ⟨visible, place⟩ => ?_
    refine (resolveValues_course goes rest (others.move course visible place)).resolve_bind ?_
    intro _ sc₂ s₂ _ ⟨visible', place'⟩
    exact .pure (.refl s₂) ⟨visible'.trans visible, place'.trans place⟩

end

variable (goes : Goes n)

include goes

theorem resolveAnnotationUse_course (a : AnnotationDecl) (ready : Ready n s sc a.shown) :
    Ensures (Course Nothing) s (resolveAnnotationUse StoreM.complete a sc) fun r _ =>
      r.2.visible = sc.visible ∧ r.2.place = sc.place := by
  rw [resolveAnnotationUse]
  refine ((InPlace.resolve a.type).ensures (resolve_reads a.type sc s)).resolve_bind ?_
  rintro _ sc₁ s₁ course ⟨⟨_, visible⟩, place⟩
  refine (mapM_course (P := fun _ _ _ => True) (ready.move course visible place) (fun _ _ _ _ _ _ => id) ?_).resolve_bind ?_
  · intro entry s sc' _ _ ready
    exact (resolveValue_course goes entry.2 ready).resolve_bind fun _ _ s' _ same => .pure (.refl s') ⟨trivial, same⟩
  · rintro _ sc₂ s₂ _ ⟨_, visible', place'⟩
    exact .pure (.refl s₂) ⟨visible'.trans visible, place'.trans place⟩

theorem resolveAnnotations_course (as : List AnnotationDecl) (ready : Ready n s sc (as.flatMap (·.shown))) :
    Ensures (Course Nothing) s (as.mapM (resolveAnnotationUse StoreM.complete) sc) fun r _ =>
      r.2.visible = sc.visible ∧ r.2.place = sc.place := by
  refine (mapM_course (P := fun _ _ _ => True) ready (fun _ _ _ _ _ _ => id) ?_).imp fun _ _ _ same => same.2
  intro a s sc' _ _ ready
  exact (resolveAnnotationUse_course goes a ready).imp fun _ _ _ same => ⟨trivial, same⟩

omit goes in
theorem publish_reads {k : ElementKind} (executable : k.isExecutable) {d : ExecutableDecl} {slot : Slot} {r : ElementRecord}
    {sig : Signature} {vs outer : List (String × TypeId)} (found : s.slot? e = some slot) (state : slot.state = .completing)
    (describes : r.Describes e slot) (orderly : s.Orderly) (enclosing : r.enclosing = some owner)
    (shape : s.shape? r.asType = some (.executable sig)) (lends : s.Lends r.typeParameters vs)
    (reads : s.ReadsSignature (StandsFor (vs.reverse ++ outer)) k d r sig) (sc : Scope) :
    Ensures (Course (· = e)) s ((liftM (StoreM.publish r) : ResolveM Unit) sc) fun r s' =>
      s'.ReadsExecutable (s'.MeansWithin owner outer e) owner k d e ∧ r.2 = sc := by
  obtain rfl := describes.id
  have moves := conserves_publish found state describes
  have complete : (s.setState r.id (.complete r)).record? r.id = some r :=
    record?_eq_some_iff.mpr ⟨_, slot?_setState _ found, rfl⟩
  refine ⟨course_publish found state describes lends rfl, ⟨r, sig, complete, enclosing, shape, ?_⟩, rfl⟩
  refine reads.mono (fun x b stands => .inr ⟨r, vs, complete, ?_, enclosing, lends.conserve moves orderly, stands⟩) moves orderly
  rw [reads.kind]
  exact executable

omit goes in
theorem Ensures.wider {α : Type} {m : StoreM α} {P : α → Store → Prop} (h : Ensures (Course Nothing) s m P) :
    Ensures (Course mine) s m fun a s' => P a s' ∧ s.Course Nothing s' :=
  ⟨h.1.weaken fun _ _ => False.elim, h.2, h.1⟩

omit goes in
theorem Ensures.block_place {α : Type} {R : Store → Store → Prop} {m : ResolveM α} {P : α × Scope → Store → Prop}
    (h : Ensures R s (m sc) P) : Ensures R s (block m sc) fun r s' =>
      r.2.visible = sc.visible ∧ ∃ sc', r.2.place = sc'.place ∧ P (r.1, sc') s' :=
  ⟨h.1, rfl, (m sc s).1.2, rfl, h.2⟩

omit goes in
theorem InPlace.enterParameters (owner : ElementId) (ps : List (String × TypeExpr)) :
    InPlace (ps.mapM fun (name, t) => enterParameter owner name t) := by
  refine InPlace.mapM ?_ ps
  intro ⟨name, t⟩
  exact (InPlace.resolve t).bind fun u => (InPlace.lift _).bind fun e => .pure (e, u)

omit goes in
theorem Ensures.fresh {α : Type} {m : StoreM α} {P : α → Store → Prop}
    (h : Ensures (Course (· = ⟨s.elements.size⟩)) s m P) : Ensures (Course Nothing) s m P := by
  refine ⟨h.1.weaken fun e isOpen same => ?_, h.2⟩
  obtain ⟨slot, found, _⟩ := isOpen
  rw [same, slot?_at_size] at found
  cases found

omit goes in
theorem newSlot_enters {slot : Slot} (executable : slot.kind.isExecutable) (begun : slot.state = .completing)
    (inside : slot.enclosing = some owner) (encloses : s.Encloses owner) :
    Ensures (Course Nothing) s (StoreM.newSlot slot) fun e s' =>
      e = ⟨s.elements.size⟩ ∧ s'.slot? ⟨s.elements.size⟩ = some slot := by
  have plain : ¬ slot.kind.isContainer := ElementKind.isOwned_not_container (ElementKind.isOwned_of_executable executable)
  have fits : slot.Orderly ⟨s.elements.size⟩ := by
    refine ⟨?_, fun h waits => ?_, fun r done => ?_⟩
    · rintro (container | waits)
      · exact absurd container plain
      · rw [begun] at waits
        cases waits
    · rw [begun] at waits
      cases waits
    · rw [begun] at done
      cases done
  have pushed : s.Course Nothing (s.pushSlot slot) := by
    refine course_pushSlot fits begun (fun _ _ o same => ?_) plain
    cases inside.symm.trans same
    exact encloses
  exact ⟨pushed, rfl, (slot?_push _).trans (if_pos rfl)⟩

omit goes in
theorem returnType_reads (k : ElementKind) (t : TypeExpr) (sc : Scope) (s : Store) :
    Ensures (Course Nothing) s ((if k = .constructor then pure .void else resolve t : ResolveM TypeId) sc) fun r s' =>
      ((k ≠ .constructor → s'.Reads (StandsFor sc.visible) t r.1) ∧ r.2.visible = sc.visible) ∧ r.2.place = sc.place := by
  split <;> rename_i constructs
  · exact .pure (.refl s) ⟨⟨absurd constructs, rfl⟩, rfl⟩
  · refine ((InPlace.resolve t).ensures (resolve_reads t sc s)).imp ?_
    rintro _ _ _ ⟨⟨reads, visible⟩, place⟩
    exact ⟨⟨fun _ => reads, visible⟩, place⟩

theorem enterExecutable_reads {k : ElementKind} (executable : k.isExecutable) (encloses : s.Encloses owner)
    (ownerType : TypeId) (d : ExecutableDecl) (ready : Ready n s sc (d.annotations.flatMap (·.shown))) :
    Ensures (Course Nothing) s (enterExecutable StoreM.complete owner ownerType k d sc) fun r s' =>
      s'.ReadsExecutable (s'.MeansWithin owner sc.visible r.1) owner k d r.1 ∧ r.2.visible = sc.visible ∧ r.2.place = sc.place := by
  let id : ElementId := ⟨s.elements.size⟩
  let name := if k = .constructor then constructorName else d.name
  let slot : Slot :=
    { kind := k, simpleName := name, qualifiedName := name, enclosing := some owner, arity := d.typeParameters.length }
  have work : Ensures (Course (· = id)) s (enterExecutable StoreM.complete owner ownerType k d sc) fun r s' =>
      s'.ReadsExecutable (s'.MeansWithin owner sc.visible r.1) owner k d r.1 ∧ r.2.visible = sc.visible ∧ r.2.place = sc.place := by
    rw [enterExecutable]
    have entered : Ensures (Course Nothing) s (StoreM.newSlot slot) fun e s' => e = id ∧ s'.slot? id = some slot :=
      newSlot_enters executable rfl rfl encloses
    refine (Ensures.wider entered).lift_bind ?_
    rintro _ s₁ _ ⟨⟨rfl, found₁⟩, course₁⟩
    have ready₁ := ready.move course₁ rfl rfl
    refine .scope (Ensures.resolve_bind (Ensures.block_place (P := fun r s' =>
      s'.ReadsExecutable (s'.MeansWithin owner sc.visible id) owner k d id ∧ r.2.place = sc.place) ?_) ?_)
    · have orderly₁ := ready₁.clear.orderly
      refine (Ensures.wider ((InPlace.enterTypeParameters id d.typeParameters).ensures
        (enterTypeParameters_reads id d.typeParameters orderly₁ sc))).resolve_bind ?_
      rintro generics sc₂ s₂ _ ⟨⟨⟨vs, lends, parameters, visible₂⟩, place₂⟩, course₂⟩
      have orderly₂ := course₂.conserves.orderly orderly₁
      refine .ite_bind (Ensures.wider (returnType_reads k d.returnType sc₂ s₂)) ?_
      rintro returnType sc₃ s₃ _ ⟨⟨⟨returns, visible₃⟩, place₃⟩, course₃⟩
      have orderly₃ := course₃.conserves.orderly orderly₂
      refine (Ensures.wider ((InPlace.enterParameters id d.parameters).ensures
        (enterParameters_reads id d.parameters orderly₃ sc₃))).resolve_bind ?_
      rintro ps sc₄ s₄ _ ⟨⟨⟨⟨types, are⟩, visible₄⟩, place₄⟩, course₄⟩
      have orderly₄ := course₄.conserves.orderly orderly₃
      refine (Ensures.wider ((InPlace.resolveAll d.thrown).ensures (resolveAll_reads d.thrown sc₄ s₄))).resolve_bind ?_
      rintro thrown sc₅ s₅ _ ⟨⟨⟨throws, visible₅⟩, place₅⟩, course₅⟩
      rw [visible₂] at returns visible₃
      rw [visible₃] at types visible₄
      rw [visible₄] at throws visible₅
      have ready₂ : Ready n s₂ sc₂ (d.annotations.flatMap (·.shown)) := (ready₁.move course₂ rfl rfl).enter lends visible₂ place₂
      have from₃ := course₃.trans (course₄.trans course₅)
      have ready₅ : Ready n s₅ sc₅ (d.annotations.flatMap (·.shown)) := ready₂.move from₃ (visible₅.trans visible₂.symm)
        (place₅.trans (place₄.trans place₃))
      refine (Ensures.wider (resolveAnnotations_course goes d.annotations ready₅)).resolve_bind ?_
      rintro annotations sc₆ s₆ _ ⟨⟨_, place₆⟩, course₆⟩
      let sig : Signature :=
        { typeVariables := generics.map (·.2)
          receiver := if d.modifiers.contains .static || k = .constructor then .none else ownerType
          parameters := ps.map (·.2), result := returnType, thrown }
      refine (Ensures.wider ((InPlace.newType (.executable sig)).ensures
        (newType_new (.executable sig) sc₆ s₆))).resolve_bind ?_
      rintro asType sc₇ s₇ _ ⟨⟨⟨shape, _⟩, place₇⟩, course₇⟩
      refine .scope ?_
      have from₅ := course₆.trans course₇
      have from₄ := course₅.trans from₅
      have from₂ := from₃.trans from₅
      have found₇ : s₇.slot? id = some slot := (course₂.trans from₂).open_slot found₁ rfl not_false
      have orderly₅ := course₅.conserves.orderly orderly₄
      let r : ElementRecord :=
        { id, kind := k, simpleName := name, enclosing := some owner, modifiers := d.modifiers, nesting := .member, asType
          annotations, erroneous := sc.unresolved < sc₇.unresolved
          detail := .executable
            { typeParameters := generics.map (·.1), parameters := ps.map (·.1), returnType, thrown, varargs := d.varargs } }
      have arity : r.typeParameters.length = slot.arity := parameters.length_eq.symm
      have reads : s₇.ReadsSignature (StandsFor (vs.reverse ++ sc.visible)) k d r sig :=
        { kind := rfl
          typeParameters := parameters.imp fun _ _ => ReadsParameter.mono (fun _ _ stands => stands) from₂.conserves orderly₂
          types := ReadsAll.mono (fun _ _ stands => stands) from₄.conserves.shapes _ types
          parameters := are.imp fun _ _ => IsParameter.conserve from₄.conserves orderly₄
          result := fun plain => Reads.mono (fun _ _ stands => stands) (course₄.trans from₄).conserves.shapes _ (returns plain)
          returnType := rfl
          thrown := ReadsAll.mono (fun _ _ stands => stands) from₅.conserves.shapes _ throws
          thrownTypes := rfl }
      have published : Ensures (Course (· = id)) s₇ ((liftM (StoreM.publish r) : ResolveM Unit) sc₇) fun q s' =>
          s'.ReadsExecutable (s'.MeansWithin owner sc.visible id) owner k d id ∧ q.2 = sc₇ :=
        publish_reads executable found₇ rfl ⟨rfl, rfl, rfl, rfl, rfl, arity⟩ (from₅.conserves.orderly orderly₅) rfl shape
          (lends.conserve from₂.conserves orderly₂) reads sc₇
      refine published.imp ?_
      rintro _ s₈ _ ⟨reads, same⟩
      refine ⟨reads, ?_⟩
      rw [same, place₇, place₆, place₅, place₄, place₃, place₂]
    · rintro _ sc' s' _ ⟨visible, sc'', place, reads, place'⟩
      exact .pure (.refl s') ⟨reads, visible, place.trans place'⟩
  exact Ensures.fresh work

theorem enterMember_reads (encloses : s.Encloses owner) (ownerType : TypeId) (m : MemberDecl) (ready : Ready n s sc m.shown) :
    Ensures (Course Nothing) s (enterMember StoreM.complete owner ownerType m sc) fun r s' =>
      s'.ReadsMember (s'.MeansWithin owner sc.visible) owner m r.1 ∧ r.2.visible = sc.visible ∧ r.2.place = sc.place := by
  have simple {k : ElementKind} (plain : ¬ k.isContainer) (single : ¬ k.isParameterizable) (name : String) (t : TypeExpr)
      (modifiers : List Modifier) :
      Ensures (Course Nothing) s ((do newVariable owner k name (← resolve t) .member modifiers : ResolveM ElementId) sc)
        fun r s' => s'.ReadsVariable (s'.MeansWithin owner sc.visible owner) k t r.1 ∧ r.2.visible = sc.visible ∧
          r.2.place = sc.place := by
    have place : InPlace (do newVariable owner k name (← resolve t) .member modifiers : ResolveM ElementId) :=
      (InPlace.resolve t).bind fun u => .lift _
    refine (place.ensures (enterVariable_reads owner plain single name t .member modifiers sc s)).imp ?_
    rintro r s' course ⟨⟨reads, visible⟩, place⟩
    have orderly := course.conserves.orderly ready.clear.orderly
    exact ⟨reads.mono (fun x b stands => .inl ⟨rfl, stands⟩) (.refl s') orderly plain, visible, place⟩
  cases m with
  | field name t modifiers => exact simple (by decide) (by decide) name t modifiers
  | recordComponent name t => exact simple (by decide) (by decide) name t []
  | enumConstant name =>
    obtain ⟨course, _, same⟩ : Ensures (Course Nothing) s (newVariable owner .enumConstant name ownerType .member
      [.publicAccess, .static, .final] sc) _ := newVariable_new owner (by decide) (by decide) name ownerType .member _ sc s
    exact ⟨course, trivial, congrArg Scope.visible same, congrArg Scope.place same⟩
  | method d => exact enterExecutable_reads goes (by decide) encloses ownerType d ready
  | constructor d => exact enterExecutable_reads goes (by decide) encloses ownerType d ready

theorem enterMembers_reads (encloses : s.Encloses owner) (ownerType : TypeId) (ms : List MemberDecl)
    (ready : Ready n s sc (ms.flatMap (·.shown))) :
    Ensures (Course Nothing) s (ms.mapM (enterMember StoreM.complete owner ownerType) sc) fun r s' =>
      List.Forall₂ (s'.ReadsMember (s'.MeansWithin owner sc.visible) owner) ms r.1 ∧ r.2.visible = sc.visible ∧
        r.2.place = sc.place := by
  refine mapM_course (P := fun m e s' => s'.ReadsMember (s'.MeansWithin owner sc.visible) owner m e) ready ?_ ?_
  · intro m e s s' orderly course reads
    exact reads.mono (fun _ _ _ means => means.conserve course.conserves orderly) course.conserves orderly
  · intro m s₁ sc' course visible ready
    have inside := course.conserves.headings.encloses encloses
    exact (enterMember_reads goes inside ownerType m ready).imp fun r s' _ reads => visible ▸ reads

end asking

section types

theorem superclassOf_reads (h : TypeHeader) (name : String) (asType : TypeId) (sc : Scope) (s : Store) :
    Ensures (Course mine) s (superclassOf h name asType sc) fun r s' =>
      (∀ t, h.kind = .classType → h.superclass = some t → s'.Reads (StandsFor sc.visible) t r.1) ∧
        r.2.visible = sc.visible := by
  refine ⟨keeping_superclassOf h name asType sc s, ?_⟩
  unfold superclassOf
  cases kind : h.kind with
  | classType =>
    cases written : h.superclass with
    | some t =>
      obtain ⟨_, reads, visible⟩ : Ensures (Course mine) s (resolve t sc) _ := resolve_reads t sc s
      refine ⟨fun t' _ same => ?_, visible⟩
      cases same
      exact reads
    | none =>
      refine ⟨nofun, ?_⟩
      dsimp only
      split <;> rfl
  | _ => exact ⟨nofun, by rfl⟩

theorem interfacesOf_reads (h : TypeHeader) (sc : Scope) (s : Store) :
    Ensures (Course mine) s (interfacesOf h sc) fun r s' =>
      s'.ReadsAll (StandsFor sc.visible) h.superinterfaces r.1 ∧ r.2.visible = sc.visible := by
  rw [interfacesOf, TypeHeader.superinterfaces]
  refine (resolveAll_reads h.interfaces sc s).resolve_bind ?_
  rintro ts sc₁ s₁ _ ⟨reads, visible⟩
  cases h.superclass with
  | none => exact .pure (.refl s₁) ⟨by simpa using reads, visible⟩
  | some t =>
    dsimp only
    split <;> rename_i isInterface
    · refine (resolve_reads t sc₁ s₁).resolve_bind ?_
      rintro u sc₂ s₂ course ⟨first, visible'⟩
      rw [visible] at first visible'
      refine .pure (.refl s₂) ⟨?_, visible'⟩
      simp only [Option.toList_some, List.singleton_append, ReadsAll]
      exact ⟨u, ts, rfl, first, reads.mono (fun _ _ => id) course.conserves.shapes⟩
    · exact .pure (.refl s₁) ⟨by simpa [isInterface] using reads, visible⟩

theorem InPlace.interfacesOf (h : TypeHeader) : InPlace (interfacesOf h) := by
  refine (InPlace.resolveAll h.interfaces).bind fun ts => ?_
  cases h.superclass with
  | none => exact .pure ts
  | some t =>
    dsimp only
    split
    · exact (InPlace.resolve t).bind fun u => .pure (u :: ts)
    · exact .pure ts

theorem typeRecord_reads (goes : Goes n) {id : ElementId} (encloses : s.Encloses id) (slot : Slot) (h : TypeHeader)
    (nesting : Nesting) (ready : Ready n s sc h.shown) :
    Ensures (Course Nothing) s (typeRecord StoreM.complete id slot h nesting sc) fun r s' =>
      s'.ReadsInside sc.visible id h r.1 := by
  refine ((InPlace.enterTypeParameters id h.typeParameters).ensures
    (enterTypeParameters_reads id h.typeParameters ready.clear.orderly sc)).resolve_bind ?_
  rintro generics sc₁ s₁ course₁ ⟨⟨vs, lends, parameters, visible₁⟩, place₁⟩
  have ready₁ : Ready n s₁ sc₁ h.shown := (ready.move course₁ rfl rfl).enter lends visible₁ place₁
  let usage : TypeShape := .declared .none id (generics.map (·.2))
  refine ((InPlace.newType usage).ensures (newType_new usage sc₁ s₁)).resolve_bind ?_
  rintro asType sc₂ s₂ course₂ ⟨⟨_, visible₂⟩, place₂⟩
  refine ((InPlace.superclassOf h slot.qualifiedName asType).ensures
    (superclassOf_reads h slot.qualifiedName asType sc₂ s₂)).resolve_bind ?_
  rintro superclass sc₃ s₃ course₃ ⟨⟨super, visible₃⟩, place₃⟩
  refine ((InPlace.interfacesOf h).ensures (interfacesOf_reads h sc₃ s₃)).resolve_bind ?_
  rintro interfaces sc₄ s₄ course₄ ⟨⟨above, visible₄⟩, place₄⟩
  have visible₄ := visible₄.trans (visible₃.trans visible₂)
  have from₁ := course₂.trans (course₃.trans course₄)
  have ready₄ : Ready n s₄ sc₄ h.shown := ready₁.move from₁ visible₄ (place₄.trans (place₃.trans place₂))
  have inside : s₄.Encloses id := (course₁.trans from₁).conserves.headings.encloses encloses
  refine (enterMembers_reads goes inside asType h.members (ready₄.less (List.subset_append_left _ _))).resolve_bind ?_
  rintro members sc₅ s₅ course₅ ⟨each, visible₅, place₅⟩
  have ready₅ : Ready n s₅ sc₅ h.shown := ready₄.move course₅ visible₅ place₅
  refine (resolveAnnotations_course goes h.annotations (ready₅.less (List.subset_append_right _ _))).resolve_bind ?_
  rintro annotations sc₆ s₆ course₆ _
  refine .scope (.pure (.refl s₆) ⟨vs, ?_, ?_⟩)
  all_goals
    have orderly₁ := ready₁.clear.orderly
    have from₄ := course₅.trans course₆
    have from₂ := course₃.trans (course₄.trans from₄)
  · exact lends.conserve (course₂.trans from₂).conserves orderly₁
  · have here (x : String) (b : Option TypeId) (stands : StandsFor (vs.reverse ++ sc.visible) x b) :
        s₆.MeansWithin id (vs.reverse ++ sc.visible) id x b := .inl ⟨rfl, stands⟩
    rw [visible₂, visible₁] at super
    rw [visible₃, visible₂, visible₁] at above
    rw [visible₄, visible₁] at each
    have orderly₅ := ready₅.clear.orderly
    exact
      { typeParameters := parameters.imp fun _ _ => ReadsParameter.mono here (course₂.trans from₂).conserves orderly₁
        superclass := fun t kind named => Reads.mono here (course₄.trans from₄).conserves.shapes t (super t kind named)
        interfaces := ReadsAll.mono here from₄.conserves.shapes _ above
        members := ⟨members, slot.children, rfl, each.imp fun _ _ =>
          ReadsMember.mono (fun _ _ _ means => means.conserve course₆.conserves orderly₅) course₆.conserves orderly₅⟩ }

end types

end Completion

end Nominal
