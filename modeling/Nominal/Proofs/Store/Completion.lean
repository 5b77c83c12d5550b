import Nominal.Proofs.Store.Resolution
/-!
Completing one element keeps the store consistent and disturbs nothing else: what was complete stays,
what others have opened stays open, and the record that is published lists what the element owns.
-/

namespace Nominal.Completion

open Store ResolveM

variable {s : Store} {sc : Scope}

structure AnswerFits (s : Store) (e : ElementId) (r : ElementRecord) : Prop where
  asType : s.HasType r.asType
  typeParameters : ∀ p ∈ r.typeParameters, s.IsTypeParameter p
  variable_ : s.IsTypeParameter e → s.head? r.asType = none

def Answers (again : Again) : Prop :=
  ∀ s e, s.Consistent → Ensures Extends s (again e) fun r s' => AnswerFits s' e r

section visible

variable {again : Again} (answers : Answers again)

include answers

theorem visibleVariablesN_ensures (fuel : Nat) (e? : Option ElementId) (h : s.Consistent) :
    Ensures Extends s (visibleVariablesN again fuel e?) fun vs s' => ∀ v ∈ vs, s'.Bindable v.2 := by
  induction fuel generalizing e? s with
  | zero => exact .pure (.refl h) (by simp)
  | succ fuel ih =>
    cases e? with
    | none => exact .pure (.refl h) (by simp)
    | some e =>
      rw [visibleVariablesN]
      refine .get ?_
      cases s.kind? e with
      | none => exact .pure (.refl h) (by simp)
      | some k =>
        dsimp only
        split
        · exact .pure (.refl h) (by simp)
        · refine (answers s e h).bind fun r s₁ ext₁ fits => ?_
          have own : Ensures Extends s₁ (r.typeParameters.mapM fun p => do
              let p ← again p
              return (p.simpleName, p.asType)) fun vs s' => ∀ v ∈ vs, s'.Bindable v.2 := by
            refine .mapM_all (.refl ext₁.consistent) (fun v _ _ move known => known.grow move.grows)
              fun p mem s' move => ?_
            refine (answers s' p move.consistent).bind fun r s'' ext fits' => ?_
            have kind : s''.IsTypeParameter p := ext.grows.kind (move.grows.kind (fits.typeParameters p mem))
            exact .pure (.refl ext.consistent) ⟨fits'.asType, fits'.variable_ kind⟩
          refine own.bind fun vs s₂ ext₂ known => ?_
          refine (ih _ ext₂.consistent).bind fun outer s₃ ext₃ known' => ?_
          refine .pure (.refl ext₃.consistent) fun v mem => ?_
          rcases List.mem_append.mp mem with mem | mem
          · exact (known v (List.mem_reverse.mp mem)).grow ext₃.grows
          · exact known' v mem

theorem visibleVariables_ensures (e? : Option ElementId) (h : s.Consistent) :
    Ensures Extends s (visibleVariables again e?) fun vs s' => ∀ v ∈ vs, s'.Bindable v.2 :=
  .get (visibleVariablesN_ensures answers _ e? h)

end visible

section annotations

variable {again : Again}

theorem resolveConstant_ensures (answers : Answers again) (h : s.Consistent) (t : TypeId) (name : String) :
    Ensures Extends s (resolveConstant again t name sc) fun r _ => r.2.visible = sc.visible := by
  rw [resolveConstant]
  refine .store ?_
  cases (s.shape t).element? with
  | none => exact .store (.pure (.refl h) rfl)
  | some e =>
    refine (answers s e h).lift_bind fun r s' ext _ => .store (.store ?_)
    cases r.enclosed.find? (isConstantNamed s' name) <;> exact Ensures.pure (Extension.refl ext.consistent) rfl

mutual

theorem resolveValue_ensures (answers : Answers again) {s : Store} {sc : Scope} (h : s.Consistent)
    (known : sc.Known s) :
    (v : ValueExpr) → Ensures Extends s (resolveValue again v sc) fun r _ =>
      r.2.visible = sc.visible
  | .bool _ | .int _ | .str _ => .pure (.refl h) rfl
  | .type t => by
    rw [resolveValue, ← bind_pure_comp]
    refine (resolve_ensures h known t).resolve_bind fun t sc' s' ext ⟨_, visible⟩ => ?_
    exact .pure (.refl ext.consistent) visible
  | .enumConstant t name => by
    rw [resolveValue]
    refine (resolve_ensures h known t).resolve_bind fun t sc' s' ext ⟨_, visible⟩ => ?_
    refine (resolveConstant_ensures answers ext.consistent t name).imp fun r s'' _ visible' => ?_
    rw [visible', visible]
  | .array values => by
    rw [resolveValue, ← bind_pure_comp]
    refine (resolveValues_ensures answers h known values).resolve_bind fun vs sc' s' ext visible => ?_
    exact .pure (.refl ext.consistent) visible

theorem resolveValues_ensures (answers : Answers again) {s : Store} {sc : Scope} (h : s.Consistent)
    (known : sc.Known s) :
    (vs : List ValueExpr) → Ensures Extends s (resolveValues again vs sc) fun r _ =>
      r.2.visible = sc.visible
  | [] => .pure (.refl h) rfl
  | v :: rest => by
    rw [resolveValues]
    refine (resolveValue_ensures answers h known v).resolve_bind fun v sc₁ s₁ ext₁ visible₁ => ?_
    have known₁ : sc₁.Known s₁ := (known.grow ext₁.grows).congr visible₁
    refine (resolveValues_ensures answers ext₁.consistent known₁ rest).resolve_bind
      fun vs sc₂ s₂ ext₂ visible₂ => ?_
    exact .pure (.refl ext₂.consistent) (by rw [visible₂, visible₁])

end

theorem resolveAnnotationUse_ensures (answers : Answers again) (h : s.Consistent) (known : sc.Known s)
    (a : AnnotationDecl) :
    Ensures Extends s (resolveAnnotationUse again a sc) fun r _ => r.2.visible = sc.visible := by
  rw [resolveAnnotationUse]
  refine (resolve_ensures h known a.type).resolve_bind fun t sc₁ s₁ ext₁ ⟨_, visible₁⟩ => ?_
  have known₁ : sc₁.Known s₁ := (known.grow ext₁.grows).congr visible₁
  refine Ensures.resolve_bind (.resolve_mapM
    (fun _ _ sc' s' => sc'.Known s' ∧ sc'.visible = sc.visible)
    (.refl ext₁.consistent) ⟨known₁, visible₁⟩ ?_)
    fun vs sc₂ s₂ ext₂ ⟨_, visible₂⟩ => .pure (.refl ext₂.consistent) visible₂
  rintro _ ⟨name, v⟩ _ sc' s' move ⟨known', visible'⟩
  refine (resolveValue_ensures answers move.consistent known' v).resolve_bind
    fun v sc'' s'' ext visible'' => ?_
  have known'' : sc''.Known s'' := (known'.grow ext.grows).congr visible''
  exact .pure (.refl ext.consistent) ⟨known'', by rw [visible'', visible']⟩

theorem resolveAnnotations_ensures (answers : Answers again) (h : s.Consistent) (known : sc.Known s)
    (as : List AnnotationDecl) :
    Ensures Extends s (as.mapM (resolveAnnotationUse again) sc) fun r _ =>
      r.2.visible = sc.visible := by
  refine .resolve_mapM (fun _ _ sc' _ => sc'.visible = sc.visible)
    (.refl h) rfl ?_
  intro _ a _ sc' s' ext visible
  refine (resolveAnnotationUse_ensures answers ext.consistent ((known.grow ext.grows).congr visible)
    a).imp fun r s'' _ visible' => ?_
  rw [visible', visible]

end annotations

section typeParameters

variable {mine enlarged : ElementId → Prop} {s' : Store} {owner e : ElementId} {t : TypeId}
  {k : ElementKind} {p : TypeParameterDecl}

def reservedSlot (owner : ElementId) (p : TypeParameterDecl) : Slot :=
  { kind := .typeParameter, simpleName := p.name, qualifiedName := p.name, enclosing := some owner }

structure Reserved (s : Store) (owner : ElementId) (p : TypeParameterDecl) (e : ElementId)
    (t : TypeId) : Prop where
  slot : ∃ children, s.slot? e = some { reservedSlot owner p with children }
  shape : s.shape? t = some (.typeVariable e .none)
  unique : ∀ u upper, s.shape? u = some (.typeVariable e upper) → u = t
  bare : s.owned e = []

theorem Reserved.isOpen (r : Reserved s owner p e t) : s.Open e := by
  obtain ⟨children, found⟩ := r.slot
  exact ⟨_, found, rfl⟩

theorem Reserved.named (r : Reserved s owner p e t) : s.simpleName? e = some p.name := by
  obtain ⟨children, found⟩ := r.slot
  rw [simpleName?, found]
  rfl

theorem Reserved.ne_owner (r : Reserved s owner p e t) (h : s.Consistent) : e ≠ owner := by
  obtain ⟨children, found⟩ := r.slot
  obtain ⟨o, _, enclosing, before, _⟩ :=
    (h.slots e _ found).placed (by simp [reservedSlot, ElementKind.isContainer])
  cases enclosing
  rintro rfl
  exact Nat.lt_irrefl _ before

theorem Reserved.extend (r : Reserved s owner p e t) (ext : s.Extension mine enlarged s')
    (other : ¬ mine e) (small : ¬ enlarged e) : Reserved s' owner p e t where
  slot := by
    obtain ⟨children, found⟩ := r.slot
    obtain ⟨_, found', children', state, rfl, _, evolves⟩ := ext.grows.slots e _ found
    have still : state = .completing := by
      simpa [SlotState.Evolves, reservedSlot, other, ElementKind.isContainer] using evolves
    subst still
    exact ⟨children', found'⟩
  shape := ext.grows.variable_shape other t .none r.shape
  unique u upper found := by
    obtain ⟨children, old⟩ := r.slot
    cases before : s.shape? u with
    | none => simp [ext.fresh u e upper before found] at old
    | some shape =>
      rcases ext.grows.shapes u shape before with found' | ⟨e', u₁, u₂, may, _, found'⟩
      · rw [found] at found'
        cases found'
        exact r.unique u upper before
      · rw [found] at found'
        cases found'
        exact absurd may other
  bare := by rw [ext.kept e r.isOpen other small, r.bare]

theorem reserve_ensures (h : s.Consistent) (isOpen : s.Open owner) (grown : enlarged owner)
    (kind : s.kind? owner = some k) (admits : k.admits .typeParameter) :
    Ensures (Extension (· = ⟨s.elements.size⟩) enlarged) s (reserveTypeParameter owner p sc) fun r s' =>
      r.1.1 = ⟨s.elements.size⟩ ∧ Reserved s' owner p r.1.1 r.1.2 ∧
        s'.owned owner = s.owned owner ++ [r.1.1] ∧
        r.2.visible = (p.name, r.1.2) :: sc.visible := by
  let e : ElementId := ⟨s.elements.size⟩
  let t : TypeId := ⟨s.types.size⟩
  let s₁ := s.pushSlot (reservedSlot owner p)
  let s₂ := s₁.pushType (.typeVariable e .none)
  obtain ⟨first, _, found, owned, bare⟩ : s.Extension (· = e) enlarged s₁ ∧ e = e ∧
      s₁.slot? e = some (reservedSlot owner p) ∧ s₁.owned owner = s.owned owner ++ [e] ∧ s₁.owned e = [] :=
    newSlot_ensures h isOpen grown kind rfl admits rfl rfl rfl rfl
  have fits : s₂.ShapeFits t (.typeVariable e .none) := by
    refine ⟨by simp [TypeShape.parts], nofun, nofun, nofun, nofun, ?_⟩
    rintro _ _ ⟨⟩
    refine ⟨kind?_eq_some_iff.mpr ⟨_, found, rfl⟩, ?_, fun r record => ?_⟩
    · exact (Grows.push_type first.consistent : s₁.Grows Nothing s₂).has_type first.consistent.has_none
    · obtain ⟨slot, found', state⟩ := record?_eq_some_iff.mp record
      rw [show s₂.slot? e = some (reservedSlot owner p) from found] at found'
      cases found'
      cases state
  have second : s₂.Consistent := first.consistent.push_type fits
  have spares (e' : ElementId) (other : e' ≠ e) : s₂.slot? e' = s.slot? e' :=
    (slot?_push _).trans (if_neg fun same => other (congrArg ElementId.mk same))
  have shapes (u : TypeId) :
      s₂.shape? u = if u.index = s.types.size then some (.typeVariable e .none) else s.shape? u :=
    shape?_push _
  refine ⟨⟨second, first.grows.trans (.push_type first.consistent), rfl, rfl, rfl, first.kept,
    fun u e' upper absent' found' => ?_, fun e' other => heeds_same (spares e' other)⟩, rfl,
    ⟨⟨[], found⟩, ?_, fun u upper found' => ?_, bare⟩, owned, rfl⟩
  · change s₂.shape? u = some (.typeVariable e' upper) at found'
    rw [shapes u] at found'
    split at found'
    · cases found'
      exact slot?_at_size
    · simp [absent'] at found'
  · exact (shapes t).trans (if_pos rfl)
  · change s₂.shape? u = some (.typeVariable e upper) at found'
    rw [shapes u] at found'
    split at found'
    · rename_i place
      exact congrArg TypeId.mk place
    · exact absurd found' (h.variable_absent slot?_at_size u upper)

theorem completeTypeParameter_ensures (h : s.Consistent) (known : sc.Known s)
    (res : Reserved s owner p e t) :
    Ensures (Extension (· = e) Nothing) s (completeTypeParameter owner p e t sc) fun r s' =>
      (∃ record, s'.record? e = some record) ∧ r.2.visible = sc.visible := by
  have finish {s : Store} (h : s.Consistent) (res : Reserved s owner p e t) {bounds : List TypeId}
      {upper : TypeId} (knownUpper : s.HasType upper) (some_ : bounds ≠ [])
      (bound : bounds = [upper] ∨ s.shape? upper = some (.intersection bounds)) (sc' : Scope)
      (visible : sc'.visible = sc.visible) :
      Ensures (Extension (· = e) Nothing) s ((do
        (StoreM.setShape t (.typeVariable e upper) : StoreM Unit)
        (StoreM.publish { id := e, kind := .typeParameter, simpleName := p.name
                          enclosing := some owner, asType := t
                          detail := .typeParameter owner bounds } : StoreM Unit) :
        ResolveM Unit) sc') fun r s' =>
          (∃ record, s'.record? e = some record) ∧ r.2.visible = sc.visible := by
    have settled : Ensures (Extension (· = e) Nothing) s
        (StoreM.setShape t (.typeVariable e upper)) _ :=
      setShape_ensures h res.isOpen rfl res.shape knownUpper
    refine settled.lift_bind ?_
    rintro _ s₁ ext ⟨shape, others, elements⟩
    obtain ⟨children, found⟩ := res.slot
    have found₁ : s₁.slot? e = some { reservedSlot owner p with children } := by
      rw [slot?, elements]
      exact found
    have bare (q : ElementKind → Bool) : s₁.ownedOf e q = [] := by
      simp [ownedOf, owned_congr elements, res.bare]
    have apart : upper ≠ t ∨ s.shape? upper ≠ some (.intersection bounds) := by
      refine or_iff_not_imp_left.mpr fun same => ?_
      simp [not_not.mp same, res.shape]
    have fits : s₁.RecordFits e { reservedSlot owner p with children }
        { id := e, kind := .typeParameter, simpleName := p.name, enclosing := some owner
          asType := t, detail := .typeParameter owner bounds } :=
      { id := rfl, kind := rfl, simpleName := rfl, qualifiedName := rfl, enclosing := rfl, arity := rfl
        asType := has_type_iff.mpr ⟨_, shape⟩
        superclass := ext.consistent.has_none
        noSuperclass := fun _ => rfl
        interfaces := by simp [ElementRecord.interfaces]
        typeParameters := (bare _).symm
        parameters := (bare _).symm
        components := (bare _).symm
        enclosed := ⟨[], by simp [bare], by simp⟩
        bound := fun _ => ⟨rfl, some_, upper, shape, bound.imp (fun same => same) fun several =>
          (others upper (apart.resolve_right (not_not.mpr several))).trans several⟩
        prototype := fun isType => Bool.noConfusion isType }
    have published : Ensures (Extension (· = e) Nothing) s₁ (StoreM.publish _) _ :=
      publish_ensures ext.consistent found₁ rfl rfl fits fun u upper' variable_ => ?_
    · exact ⟨published.1, ⟨_, published.2⟩, visible⟩
    · by_contra other
      rw [others u (Ne.symm other)] at variable_
      exact other (res.unique u upper' variable_).symm
  rw [completeTypeParameter]
  refine (resolveAll_ensures h known p.bounds).widen.resolve_bind ?_
  rintro bounds sc₁ s₁ _ ⟨ext₁, parts, visible⟩
  have res₁ : Reserved s₁ owner p e t := res.extend ext₁ id id
  rcases bounds with _ | ⟨b, _ | ⟨b', rest⟩⟩
  · refine (objectType_ensures ext₁.consistent).widen.lift_bind ?_
    rintro upper s₂ _ ⟨ext₂, object⟩
    exact finish ext₂.consistent (res₁.extend ext₂ id id) (ext₂.consistent.has_object object)
      (by simp) (.inl rfl) sc₁ visible
  · exact finish ext₁.consistent res₁ (parts b (by simp)) (by simp) (.inl rfl) sc₁ visible
  · have c : s₁.Composes (.intersection (b :: b' :: rest)) := ⟨parts, by simp, by simp⟩
    refine (ResolveM.newType_ensures ext₁.consistent c).widen.resolve_bind ?_
    rintro upper sc₂ s₂ _ ⟨ext₂, shape, same⟩
    cases same
    exact finish ext₂.consistent (res₁.extend ext₂ id id) (has_type_iff.mpr ⟨_, shape⟩)
      (by simp) (.inr shape) sc₂ visible

theorem completeAll_ensures (owner : ElementId) (pairs : List (TypeParameterDecl × ElementId × TypeId))
    (h : s.Consistent) (known : sc.Known s)
    (distinct : (pairs.map (·.2.1)).Nodup) (all : ∀ c ∈ pairs, mine c.2.1)
    (reserved : ∀ c ∈ pairs, Reserved s owner c.1 c.2.1 c.2.2) :
    Ensures (Extension mine enlarged) s
      ((pairs.forM fun (p, e, t) => completeTypeParameter owner p e t : ResolveM Unit) sc)
      fun r s' => (∀ e, s'.Open e → s.Open e ∧ e ∉ pairs.map (·.2.1)) ∧
        (∀ o, s.Open o → o ∉ pairs.map (·.2.1) → s'.Open o ∧ s'.owned o = s.owned o) ∧
          r.2.visible = sc.visible := by
  induction pairs generalizing s sc with
  | nil => exact .pure (.refl h) ⟨fun _ isOpen => ⟨isOpen, by simp⟩, fun _ isOpen _ => ⟨isOpen, rfl⟩, rfl⟩
  | cons c rest ih =>
    obtain ⟨p, e, t⟩ := c
    obtain ⟨apart, distinct⟩ := List.nodup_cons.mp distinct
    have res : Reserved s owner p e t := reserved (p, e, t) (by simp)
    have first : Ensures (Extension mine enlarged) s (completeTypeParameter owner p e t sc) _ :=
      (completeTypeParameter_ensures h known res).mono (fun _ same => same ▸ all (p, e, t) (by simp))
        fun _ => False.elim
    refine first.resolve_bind fun _ sc₁ s₁ _ ⟨ext₁, ⟨record, complete⟩, visible₁⟩ => ?_
    have others (c) (mem : c ∈ rest) : c.2.1 ≠ e := fun same =>
      apart (same ▸ List.mem_map_of_mem (f := (·.2.1)) mem)
    have tail := ih ext₁.consistent ((known.grow ext₁.grows).congr visible₁) distinct
      (fun c mem => all c (by simp [mem]))
      fun c mem => (reserved c (by simp [mem])).extend ext₁ (others c mem) id
    refine tail.imp fun r s₂ _ ⟨opens, kept, visible₂⟩ => ⟨fun o isOpen => ?_, fun o isOpen other => ?_, ?_⟩
    · obtain ⟨isOpen₁, other⟩ := opens o isOpen
      have apart' : o ≠ e := by
        rintro rfl
        exact not_open_of_record complete isOpen₁
      exact ⟨(ext₁.grows.opens o isOpen₁).resolve_right apart', by simpa [apart'] using other⟩
    · simp only [List.map_cons, List.mem_cons, not_or] at other
      obtain ⟨isOpen₂, owned⟩ := kept o (ext₁.grows.still_open isOpen other.1) other.2
      exact ⟨isOpen₂, owned.trans (ext₁.kept o isOpen other.1 id)⟩
    · rw [visible₂, visible₁]

structure AllReserved (s₀ : Store) (owner : ElementId) (ps : List TypeParameterDecl)
    (vs : List (ElementId × TypeId)) (s : Store) : Prop where
  owned : s.owned owner = s₀.owned owner ++ vs.map (·.1)
  reserved : List.Forall₂ (fun p v => Reserved s owner p v.1 v.2) ps vs
  opens : ∀ e, s.Open e → s₀.Open e ∨ e ∈ vs.map (·.1)
  fresh : ∀ v ∈ vs, s₀.slot? v.1 = none

theorem reserveAll_ensures (ps : List TypeParameterDecl) (h : s.Consistent) (isOpen : s.Open owner)
    (kind : s.kind? owner = some k) (admits : k.admits .typeParameter) (known : sc.Known s) :
    Ensures (Extension (s.slot? · = none) (· = owner)) s (ps.mapM (reserveTypeParameter owner) sc)
      fun r s' => AllReserved s owner ps r.1 s' ∧ r.2.Known s' := by
  refine .resolve_mapM
    (fun ps vs sc' s' => AllReserved s owner ps vs s' ∧ sc'.Known s') (.refl h)
    ⟨⟨by simp, .nil, fun _ => .inl, by simp⟩, known⟩ ?_
  rintro ps p vs sc' s' ext ⟨all, known'⟩
  have there : ¬ s.slot? owner = none := by
    obtain ⟨slot, found, _⟩ := isOpen
    simp [found]
  have new : s.slot? ⟨s'.elements.size⟩ = none := by
    cases before : s.slot? ⟨s'.elements.size⟩ with
    | none => rfl
    | some slot =>
      obtain ⟨_, found, _⟩ := ext.grows.slots _ slot before
      simp [slot?_at_size] at found
  have isOpen' : s'.Open owner := ext.grows.still_open isOpen there
  have step : Ensures (Extension (· = ⟨s'.elements.size⟩) (· = owner)) s'
      (reserveTypeParameter owner p sc') _ :=
    reserve_ensures ext.consistent isOpen' rfl (ext.grows.kind kind) admits
  refine (step.mono (fun _ same => same ▸ new) fun _ => id).imp ?_
  rintro ⟨⟨_, t⟩, sc''⟩ s'' _ ⟨ext', rfl, res, owned, visible⟩
  dsimp only at owned res visible
  have others (p) (v : ElementId × TypeId) (r : Reserved s' owner p v.1 v.2) :
      Reserved s'' owner p v.1 v.2 := by
    refine r.extend ext' (fun same => ?_) (r.ne_owner ext.consistent)
    obtain ⟨_, found⟩ := r.slot
    simp [same, slot?_at_size] at found
  refine ⟨⟨by simp [owned, all.owned], ?_, fun e opened => ?_, fun v mem => ?_⟩, fun v mem => ?_⟩
  · exact List.rel_append (all.reserved.imp others) (.cons res .nil)
  · rcases ext'.grows.opens e opened with before | rfl
    · exact (all.opens e before).imp id fun mem => by simp_all
    · simp
  · rcases List.mem_append.mp mem with old | last
    · exact all.fresh v old
    · rw [List.mem_singleton.mp last]
      exact new
  · rw [visible] at mem
    rcases List.mem_cons.mp mem with rfl | old
    · exact ⟨has_type_iff.mpr ⟨_, res.shape⟩, by rw [head?, res.shape]; rfl⟩
    · exact (known' v old).grow ext'.grows

theorem enterTypeParameters_ensures (ps : List TypeParameterDecl) (h : s.Consistent)
    (isOpen : s.Open owner) (kind : s.kind? owner = some k) (admits : k.admits .typeParameter)
    (known : sc.Known s) :
    Ensures (Extension Nothing (· = owner)) s (enterTypeParameters owner ps sc) fun r s' =>
      s'.owned owner = s.owned owner ++ r.1.map (·.1) ∧ s'.Named ps (r.1.map (·.1)) ∧
        (∀ v ∈ r.1, s'.kind? v.1 = some .typeParameter ∧ s'.IsVariable v.1 v.2) ∧ r.2.Known s' := by
  have work : Ensures (Extension (s.slot? · = none) (· = owner)) s (enterTypeParameters owner ps sc)
      fun r s' => (∀ e, s'.Open e → s.Open e) ∧
        s'.owned owner = s.owned owner ++ r.1.map (·.1) ∧ s'.Named ps (r.1.map (·.1)) ∧
        (∀ v ∈ r.1, s'.kind? v.1 = some .typeParameter ∧ s'.IsVariable v.1 v.2) ∧ r.2.Known s' := by
    refine (reserveAll_ensures ps h isOpen kind admits known).resolve_bind
      fun vs sc₁ s₁ ext₁ ⟨all, known₁⟩ => ?_
    have there : ¬ s.slot? owner = none := by
      obtain ⟨slot, found, _⟩ := isOpen
      simp [found]
    obtain ⟨length, reserved⟩ := List.forall₂_iff_zip.mp all.reserved
    have named : s₁.Named ps (vs.map (·.1)) :=
      List.forall₂_map_left_iff.mpr
        (List.forall₂_map_right_iff.mpr (all.reserved.imp fun _ _ res => res.named).flip)
    have seconds : (ps.zip vs).map (·.2) = vs := List.map_snd_zip (Nat.le_of_eq length.symm)
    have names : (ps.zip vs).map (·.2.1) = vs.map (·.1) := by
      have firsts := congrArg (List.map (·.1)) seconds
      rw [List.map_map] at firsts
      exact firsts
    have distinct : (vs.map (·.1)).Nodup := by
      have nodup := s₁.owned_nodup owner
      rw [all.owned] at nodup
      exact nodup.of_append_right
    have apart : owner ∉ vs.map (·.1) := by
      rw [List.mem_map]
      rintro ⟨v, mem, same⟩
      exact there (same ▸ all.fresh v mem)
    have members : ∀ c ∈ ps.zip vs, c.2 ∈ vs := fun c mem => (List.of_mem_zip (a := c.1) (b := c.2) mem).2
    refine (completeAll_ensures owner (ps.zip vs) ext₁.consistent known₁ (names ▸ distinct)
      (fun c mem => all.fresh _ (members c mem)) fun c mem => reserved mem).resolve_bind
      fun _ sc₂ s₂ ext₂ ⟨opens, kept, visible⟩ => ?_
    rw [names] at opens kept
    refine .pure (.refl ext₂.consistent) ⟨fun e opened => ?_, ?_, named.grow ext₂.grows, fun v mem => ?_, ?_⟩
    · obtain ⟨opened₁, other⟩ := opens e opened
      exact (all.opens e opened₁).resolve_right other
    · rw [(kept owner (ext₁.grows.still_open isOpen there) apart).2, all.owned]
    · obtain ⟨p, paired⟩ : ∃ p, (p, v) ∈ ps.zip vs := by
        have mem' : v ∈ (ps.zip vs).map (·.2) := seconds.symm ▸ mem
        obtain ⟨⟨p, _⟩, paired, rfl⟩ := List.mem_map.mp mem'
        exact ⟨p, paired⟩
      have res := reserved paired
      obtain ⟨children, found⟩ := res.slot
      exact ⟨ext₂.grows.kind (kind?_eq_some_iff.mpr ⟨_, found, rfl⟩),
        IsVariable.grow ⟨_, res.shape⟩ ext₂.grows⟩
    · exact (known₁.grow ext₂.grows).congr visible
  refine ⟨work.1.close h (fun e absent => ⟨?_, fun opened => ?_, by simp [kind?, absent]⟩)
    fun e => heeds_absent, work.2.2⟩
  · rintro ⟨slot, found, _⟩
    simp [absent] at found
  · obtain ⟨slot, found, _⟩ := work.2.1 e opened
    simp [absent] at found

theorem InPlace.enterTypeParameters (owner : ElementId) (ps : List TypeParameterDecl) :
    InPlace (enterTypeParameters owner ps) := by
  have reserves (p : TypeParameterDecl) : InPlace (reserveTypeParameter owner p) :=
    (InPlace.lift _).bind fun e => (InPlace.newType _).bind fun t => (InPlace.bindVariable p.name t).bind fun _ => .pure _
  have completes (p : TypeParameterDecl) (e : ElementId) (t : TypeId) : InPlace (completeTypeParameter owner p e t) := by
    refine (InPlace.resolveAll p.bounds).bind fun bounds => ?_
    rcases bounds with _ | ⟨b, _ | ⟨b', rest⟩⟩
    all_goals exact InPlace.bind (by grind) fun upper => (InPlace.lift _).bind fun _ => .lift _
  exact (InPlace.mapM reserves ps).bind fun entered => (InPlace.forM (fun _ => completes _ _ _) _).bind fun _ => .pure entered

end typeParameters

section working

variable {mine enlarged : ElementId → Prop} {s' : Store} {slot : Slot} {id : ElementId}
  {es more : List ElementId} {p : ElementKind → Bool}

structure Working (s : Store) (slot : Slot) (id : ElementId) (es : List ElementId) : Prop where
  slot : ∃ children, s.slot? id = some { slot with children, state := .completing }
  owned : s.owned id = es

theorem Working.isOpen (w : Working s slot id es) : s.Open id := by
  obtain ⟨children, found⟩ := w.slot
  exact ⟨_, found, rfl⟩

theorem Working.kind (w : Working s slot id es) : s.kind? id = some slot.kind := by
  obtain ⟨children, found⟩ := w.slot
  exact kind?_eq_some_iff.mpr ⟨_, found, rfl⟩

theorem Working.enlarge (w : Working s slot id es) (ext : s.Extension Nothing enlarged s')
    (owned : s'.owned id = s.owned id ++ more) : Working s' slot id (es ++ more) := by
  obtain ⟨children, found⟩ := w.slot
  obtain ⟨_, found', children', state, rfl, _, evolves⟩ := ext.grows.slots id _ found
  have still : state = .completing := by
    unfold SlotState.Evolves at evolves
    split at evolves <;> simp_all [Nothing]
  exact ⟨⟨children', still ▸ found'⟩, by rw [owned, w.owned]⟩

theorem Working.extend (w : Working s slot id es) (ext : s.Extends s') : Working s' slot id es := by
  have kept : s'.owned id = s.owned id ++ [] := by simp [ext.kept id w.isOpen not_false not_false]
  simpa using w.enlarge ext kept

theorem Working.publish {r : ElementRecord} (w : Working s slot id es) (h : s.Consistent)
    (may : mine id) (plain : slot.kind ≠ .typeParameter) (fits : s.RecordFits id slot r) :
    Ensures (Extension mine enlarged) s (StoreM.publish r) fun _ s' => s'.record? id = some r := by
  obtain ⟨children, found⟩ := w.slot
  refine publish_ensures h found rfl may fits.restate fun t upper shape => ?_
  obtain ⟨kind, _⟩ := (h.shapes t _ shape).typeVariable id upper rfl
  rw [w.kind] at kind
  exact absurd (Option.some.inj kind) plain

theorem Working.publish_last {r : ElementRecord} (w : Working s slot id es) (h : s.Consistent)
    (may : mine id) (plain : slot.kind ≠ .typeParameter) (fits : s.RecordFits id slot r) :
    Ensures (Extension mine enlarged) s ((liftM (StoreM.publish r) : ResolveM Unit) sc) fun _ s' =>
      ∃ record, s'.record? id = some record := by
  have published : Ensures (Extension mine enlarged) s _ _ := w.publish h may plain fits
  exact ⟨published.1, r, published.2⟩

def AllKinds (s : Store) (p : ElementKind → Bool) (es : List ElementId) : Prop :=
  ∀ e ∈ es, ∃ k, s.kind? e = some k ∧ p k

theorem AllKinds.grow (h : AllKinds s p es) (g : s.Grows mine s') : AllKinds s' p es := by
  intro e mem
  obtain ⟨k, kind, fits⟩ := h e mem
  exact ⟨k, g.kind kind, fits⟩

theorem AllKinds.filter_self {q : ElementKind → Bool} (h : AllKinds s p es)
    (sub : ∀ k, p k → q k) : (es.filter fun e => (s.kind? e).any q) = es := by
  refine List.filter_eq_self.mpr fun e mem => ?_
  obtain ⟨k, kind, fits⟩ := h e mem
  simp [kind, sub k fits]

theorem AllKinds.filter_none {q : ElementKind → Bool} (h : AllKinds s p es)
    (apart : ∀ k, p k → ¬ q k) : (es.filter fun e => (s.kind? e).any q) = [] := by
  refine List.filter_eq_nil_iff.mpr fun e mem => ?_
  obtain ⟨k, kind, fits⟩ := h e mem
  simp [kind, apart k fits]

theorem Working.ownedOf (w : Working s slot id es) (q : ElementKind → Bool) :
    s.ownedOf id q = es.filter fun e => (s.kind? e).any q := by
  rw [Store.ownedOf, w.owned]

theorem Working.executable_fits {generics parameters : List ElementId} {r : ElementRecord}
    {d : ExecutableDetail} (w : Working s slot id (generics ++ parameters)) (h : s.Consistent)
    (first : AllKinds s (· == .typeParameter) generics)
    (second : AllKinds s (· == .parameter) parameters) (arity : generics.length = slot.arity)
    (isId : r.id = id) (kind : r.kind = slot.kind) (simpleName : r.simpleName = slot.simpleName)
    (qualifiedName : r.qualifiedName = slot.qualifiedName) (enclosing : r.enclosing = slot.enclosing)
    (enclosed : r.enclosed = []) (asType : s.HasType r.asType)
    (detail : r.detail = .executable d) (hasGenerics : d.typeParameters = generics)
    (hasParameters : d.parameters = parameters) (plain : slot.kind ≠ .typeParameter) (untyped : ¬ slot.kind.isType) :
    s.RecordFits id slot r where
  id := isId
  kind := kind
  simpleName := simpleName
  qualifiedName := qualifiedName
  enclosing := enclosing
  arity := by simp only [ElementRecord.typeParameters, detail, hasGenerics, arity]
  asType := asType
  superclass := by
    rw [ElementRecord.superclass, detail]
    exact h.has_none
  noSuperclass _ := by rw [ElementRecord.superclass, detail]
  interfaces := by simp [ElementRecord.interfaces, detail]
  typeParameters := by
    rw [w.ownedOf, List.filter_append, first.filter_self fun _ fits => fits,
      second.filter_none (by simp), List.append_nil]
    simp only [ElementRecord.typeParameters, detail, hasGenerics]
  parameters := by
    rw [w.ownedOf, List.filter_append, second.filter_self fun _ fits => fits,
      first.filter_none (by simp), List.nil_append]
    simp only [ElementRecord.parameters, detail, hasParameters]
  components := by
    rw [w.ownedOf, List.filter_append, first.filter_none (by simp), second.filter_none (by simp),
      ElementRecord.declaredComponents, detail, List.append_nil]
  enclosed := by
    refine ⟨[], ?_, by simp⟩
    rw [w.ownedOf, List.filter_append, first.filter_none (by simp [ElementKind.isMember]),
      second.filter_none (by simp [ElementKind.isMember]), enclosed]
    rfl
  bound parameter := absurd parameter plain
  prototype isType := absurd isType untyped

end working

section members

variable {s' : Store} {owner : ElementId} {k : ElementKind} {again : Again}

theorem newVariable_ensures (h : s.Consistent) (isOpen : s.Open owner)
    (kind : s.kind? owner = some k) {kind' : ElementKind} (admits : k.admits kind')
    (owned : kind'.isOwned) (plain : kind' ≠ .typeParameter) {t : TypeId} (known : s.HasType t)
    (name : String) (nesting : Nesting) (modifiers : List Modifier) :
    Ensures (Extension Nothing (· = owner)) s
      (newVariable owner kind' name t nesting modifiers sc) fun r s' =>
        s'.owned owner = s.owned owner ++ [r.1] ∧ s'.kind? r.1 = some kind' ∧ r.2 = sc := by
  let record (id : ElementId) : ElementRecord :=
    { id, kind := kind', simpleName := name, enclosing := some owner, asType := t, nesting, modifiers }
  have added : Ensures (Extension Nothing (· = owner)) s (StoreM.newComplete record) _ :=
    newComplete_ensures h rfl rfl rfl rfl
      (ElementKind.isOwned_not_qualified owned) plain rfl kind admits known fun _ => ⟨isOpen, rfl⟩
  exact ⟨added.1, added.2.2.2.2 owned, added.2.2.2.1, rfl⟩

theorem enterParameter_ensures (h : s.Consistent) (isOpen : s.Open owner)
    (kind : s.kind? owner = some k) (admits : k.admits .parameter) (known : sc.Known s)
    (name : String) (t : TypeExpr) :
    Ensures (Extension Nothing (· = owner)) s (enterParameter owner name t sc) fun r s' =>
      s'.owned owner = s.owned owner ++ [r.1.1] ∧ s'.kind? r.1.1 = some .parameter ∧
        s'.HasType r.1.2 ∧ r.2.visible = sc.visible := by
  refine (resolve_ensures h known t).widen.resolve_bind fun t sc₁ s₁ _ ⟨ext₁, type, visible⟩ => ?_
  have added : Ensures (Extension Nothing (· = owner)) s₁
      (newVariable owner .parameter name t .body [] sc₁) _ :=
    newVariable_ensures ext₁.consistent (ext₁.grows.still_open isOpen id) (ext₁.grows.kind kind) admits
      (by decide) (by decide) type name .body []
  refine added.resolve_bind fun e sc₂ s₂ ext₂ ⟨owned, kind', same⟩ => ?_
  refine .pure (.refl ext₂.consistent) ⟨?_, kind', ext₂.grows.has_type type, ?_⟩
  · rw [owned, ext₁.kept owner isOpen id id]
  · rw [same, visible]

theorem enterParameters_ensures (h : s.Consistent) (isOpen : s.Open owner)
    (kind : s.kind? owner = some k) (admits : k.admits .parameter) (known : sc.Known s)
    (ps : List (String × TypeExpr)) :
    Ensures (Extension Nothing (· = owner)) s
      ((ps.mapM fun (name, t) => enterParameter owner name t : ResolveM _) sc) fun r s' =>
        s'.owned owner = s.owned owner ++ r.1.map (·.1) ∧
          (∀ v ∈ r.1, s'.kind? v.1 = some .parameter ∧ s'.HasType v.2) ∧ r.2.visible = sc.visible := by
  let I (vs : List (ElementId × TypeId)) (sc' : Scope) (s' : Store) : Prop :=
    s'.owned owner = s.owned owner ++ vs.map (·.1) ∧
      (∀ v ∈ vs, s'.kind? v.1 = some .parameter ∧ s'.HasType v.2) ∧ sc'.visible = sc.visible
  refine .resolve_mapM (fun _ vs sc' s' => I vs sc' s') (.refl h)
    ⟨by simp, by simp, rfl⟩ ?_
  rintro _ ⟨name, t⟩ vs sc' s' ext ⟨owned, kinds, visible⟩
  have entered : Ensures (Extension Nothing (· = owner)) s' (enterParameter owner name t sc') _ :=
    enterParameter_ensures ext.consistent (ext.grows.still_open isOpen id) (ext.grows.kind kind) admits
      ((known.grow ext.grows).congr visible) name t
  refine entered.imp fun r s'' ext' ⟨owned', kind', type, visible'⟩ => ?_
  refine ⟨by simp [owned', owned], fun v mem => ?_, by rw [visible', visible]⟩
  rcases List.mem_append.mp mem with old | last
  · exact ⟨ext'.grows.kind (kinds v old).1, ext'.grows.has_type (kinds v old).2⟩
  · rw [List.mem_singleton.mp last]
    exact ⟨kind', type⟩

theorem enterExecutable_ensures (answers : Answers again) (h : s.Consistent)
    (isOpen : s.Open owner) (kind : s.kind? owner = some k) (isType : k.isType) (known : sc.Known s)
    {ownerType : TypeId} (ownType : s.HasType ownerType) {kind' : ElementKind}
    (executable : kind'.isExecutable) (d : ExecutableDecl) :
    Ensures (Extension Nothing (· = owner)) s (enterExecutable again owner ownerType kind' d sc)
      fun r s' => s'.owned owner = s.owned owner ++ [r.1] ∧ s'.kind? r.1 = some kind' ∧
        r.2.visible = sc.visible := by
  let id : ElementId := ⟨s.elements.size⟩
  let name := if kind' = .constructor then constructorName else d.name
  let slot : Slot :=
    { kind := kind', simpleName := name, qualifiedName := name, enclosing := some owner
      arity := d.typeParameters.length }
  have absent : s.slot? id = none := slot?_at_size
  have ownKind : kind'.isOwned ∧ kind' ≠ .typeParameter ∧ kind'.isParameterizable ∧
      kind'.admits .parameter ∧ k.admits kind' := by
    cases kind' <;> simp_all [ElementKind.isExecutable, ElementKind.isOwned, ElementKind.isMember,
      ElementKind.isParameterizable, ElementKind.admits]
  obtain ⟨owned', plain, generic, admits, member⟩ := ownKind
  -- While parameters are entered the executable is open beside its owner; afterwards only the owner is.
  have work : Ensures (Extension (· = id) fun o => o = owner ∨ o = id) s
      (enterExecutable again owner ownerType kind' d sc)
      fun r s' => (∃ record, s'.record? id = some record) ∧ s'.owned owner = s.owned owner ++ [r.1] ∧
        s'.kind? r.1 = some kind' ∧ r.2.visible = sc.visible := by
    rw [enterExecutable]
    have reserved : Ensures (Extension (· = id) (· = owner)) s (StoreM.newSlot slot) _ :=
      newSlot_ensures h isOpen rfl kind rfl member owned' rfl rfl rfl
    refine (reserved.mono (fun _ same => same) fun _ => .inl).lift_bind ?_
    rintro _ s₁ _ ⟨ext₁, rfl, found, owned₁, bare⟩
    have w₁ : Working s₁ slot id [] := ⟨⟨[], found⟩, bare⟩
    have known₁ : sc.Known s₁ := known.grow ext₁.grows
    refine .scope ?_
    refine (Ensures.mono (.block (P := fun _ s' => ∃ record, s'.record? id = some record) ?_)
      (fun e (same : e = id) => same) fun e (same : e = id) => .inr same).resolve_bind ?_
    · refine ((enterTypeParameters_ensures d.typeParameters ext₁.consistent w₁.isOpen w₁.kind
        (by simpa [ElementKind.admits] using generic) known₁).mono Nothing.within
          fun _ same => same).resolve_bind ?_
      rintro vs sc₂ s₂ _ ⟨ext₂, owned₂, named, kinds₂, known₂⟩
      have w₂ : Working s₂ slot id (vs.map (·.1)) := by simpa using w₁.enlarge ext₂ owned₂
      have result : Ensures Extends s₂
          ((if kind' = .constructor then pure .void else resolve d.returnType : ResolveM TypeId) sc₂)
          fun r s' => s'.HasType r.1 ∧ r.2.visible = sc₂.visible := by
        split
        · exact .pure (.refl ext₂.consistent) ⟨ext₂.consistent.has_initial (by decide), rfl⟩
        · exact resolve_ensures ext₂.consistent known₂ d.returnType
      refine .ite_bind result.widen ?_
      rintro returnType sc₃ s₃ _ ⟨ext₃, type₃, visible₃⟩
      have w₃ := w₂.extend ext₃
      have known₃ : sc₃.Known s₃ := (known₂.grow ext₃.grows).congr visible₃
      refine ((enterParameters_ensures ext₃.consistent w₃.isOpen w₃.kind admits known₃
        d.parameters).mono Nothing.within fun _ same => same).resolve_bind ?_
      rintro ps sc₄ s₄ _ ⟨ext₄, owned₄, kinds₄, visible₄⟩
      have w₄ := w₃.enlarge ext₄ owned₄
      have known₄ : sc₄.Known s₄ := (known₃.grow ext₄.grows).congr visible₄
      refine (resolveAll_ensures ext₄.consistent known₄ d.thrown).widen.resolve_bind ?_
      rintro thrown sc₅ s₅ _ ⟨ext₅, types₅, visible₅⟩
      have w₅ := w₄.extend ext₅
      have known₅ : sc₅.Known s₅ := (known₄.grow ext₅.grows).congr visible₅
      refine (resolveAnnotations_ensures answers ext₅.consistent known₅ d.annotations).widen.resolve_bind ?_
      rintro annotations sc₆ s₆ _ ⟨ext₆, _⟩
      have w₆ := w₅.extend ext₆
      have g₅ := ext₅.grows.trans ext₆.grows
      have g₄ := ext₄.grows.trans g₅
      have g₃ := ext₃.grows.trans g₄
      have c : s₆.Composes (.executable
          { typeVariables := vs.map (·.2)
            receiver := if d.modifiers.contains .static || kind' = .constructor then .none else ownerType
            parameters := ps.map (·.2), result := returnType, thrown }) := by
        refine ⟨fun t mem => ?_, by simp, by simp⟩
        simp only [TypeShape.parts, List.mem_append, List.mem_cons, List.mem_map] at mem
        rcases mem with (⟨v, mem, rfl⟩ | rfl | ⟨v, mem, rfl⟩) | rfl | mem
        · exact g₃.has_type (kinds₂ v mem).2.known
        · split
          · exact ext₆.consistent.has_none
          · exact (ext₁.grows.trans ((ext₂.grows.trans g₃).mono Nothing.within)).has_type ownType
        · exact g₅.has_type (kinds₄ v mem).2
        · exact g₄.has_type type₃
        · exact ext₆.grows.has_type (types₅ t mem)
      refine (ResolveM.newType_ensures ext₆.consistent c).widen.resolve_bind ?_
      rintro asType sc₇ s₇ _ ⟨ext₇, shape, _⟩
      refine .scope ?_
      have g : s₄.Grows Nothing s₇ := g₅.trans ext₇.grows
      have generics : AllKinds s₂ (· == .typeParameter) (vs.map (·.1)) := by
        simp only [AllKinds, List.mem_map]
        rintro _ ⟨v, mem, rfl⟩
        exact ⟨_, (kinds₂ v mem).1, rfl⟩
      have parameters : AllKinds s₄ (· == .parameter) (ps.map (·.1)) := by
        simp only [AllKinds, List.mem_map]
        rintro _ ⟨v, mem, rfl⟩
        exact ⟨_, (kinds₄ v mem).1, rfl⟩
      have w₇ := w₆.extend ext₇
      exact w₇.publish_last ext₇.consistent rfl plain (w₇.executable_fits ext₇.consistent
        (generics.grow (g₃.trans ext₇.grows)) (parameters.grow g) (by simpa using named.length_eq) rfl rfl rfl
        rfl rfl rfl (has_type_iff.mpr ⟨_, shape⟩) rfl rfl rfl plain (ElementKind.isOwned_not_type owned'))
    · rintro _ sc' s' _ ⟨ext', visible, _, record, complete⟩
      have apart : owner ≠ id := by
        obtain ⟨outer, before, _⟩ := isOpen
        rintro rfl
        simp [absent] at before
      have kept := ext'.kept owner (ext₁.grows.still_open isOpen apart) apart apart
      exact .pure (.refl ext'.consistent)
        ⟨⟨record, complete⟩, by rw [kept, owned₁], ext'.grows.kind w₁.kind, visible⟩
  obtain ⟨ext, ⟨record, complete⟩, rest⟩ := work
  refine ⟨?_, rest⟩
  refine (ext.close h (fun e same => ?_) fun e same => heeds_absent (same ▸ absent)).shrink
    fun o opened grown => grown.resolve_right fun same => ?_
  · refine same ▸ ⟨?_, not_open_of_record complete, by simp [kind?, absent]⟩
    rintro ⟨_, found, _⟩
    simp [absent] at found
  · obtain ⟨_, found, _⟩ := opened
    simp [same, absent] at found

def MemberFits (s : Store) (m : MemberDecl) (e : ElementId) : Prop :=
  ∃ k, s.kind? e = some k ∧ k.isMember ∧ (k = .recordComponent ↔ isComponent m)

theorem enterMember_ensures (answers : Answers again) (h : s.Consistent)
    (isOpen : s.Open owner) (kind : s.kind? owner = some k) (isType : k.isType) (known : sc.Known s)
    {ownerType : TypeId} (ownType : s.HasType ownerType) (m : MemberDecl) :
    Ensures (Extension Nothing (· = owner)) s (enterMember again owner ownerType m sc)
      fun r s' => s'.owned owner = s.owned owner ++ [r.1] ∧ MemberFits s' m r.1 ∧
        r.2.visible = sc.visible := by
  have typed (kind' : ElementKind) (admits : k.admits kind') (member : kind'.isMember)
      (plain : kind' ≠ .typeParameter) (component : kind' = .recordComponent ↔ isComponent m)
      (name : String) (t : TypeExpr) (modifiers : List Modifier) :
      Ensures (Extension Nothing (· = owner)) s
        ((do newVariable owner kind' name (← resolve t) .member modifiers : ResolveM ElementId) sc)
        fun r s' => s'.owned owner = s.owned owner ++ [r.1] ∧ MemberFits s' m r.1 ∧
          r.2.visible = sc.visible := by
    refine (resolve_ensures h known t).widen.resolve_bind ?_
    rintro t sc₁ s₁ _ ⟨ext₁, type, visible⟩
    refine (newVariable_ensures ext₁.consistent (ext₁.grows.still_open isOpen id)
      (ext₁.grows.kind kind) admits (by simp [ElementKind.isOwned, member]) plain type name .member
      modifiers).imp ?_
    rintro r s₂ _ ⟨owned, kind₂, same⟩
    exact ⟨by rw [owned, ext₁.kept owner isOpen id id], ⟨kind', kind₂, member, component⟩,
      by rw [same, visible]⟩
  cases m with
  | field name t modifiers =>
    exact typed .field isType (by decide) (by decide) (by simp [isComponent]) name t modifiers
  | enumConstant name =>
    have admits : k.admits .enumConstant := isType
    refine (newVariable_ensures h isOpen kind admits (by decide) (by decide) ownType name .member
      [.publicAccess, .static, .final]).imp ?_
    rintro r s' _ ⟨owned, kind', same⟩
    exact ⟨owned, ⟨_, kind', by decide, by simp [isComponent]⟩, by rw [same]⟩
  | method d =>
    have executable : ElementKind.method.isExecutable := rfl
    refine (enterExecutable_ensures answers h isOpen kind isType known ownType executable d).imp ?_
    rintro r s' _ ⟨owned, kind', visible⟩
    exact ⟨owned, ⟨_, kind', by decide, by simp [isComponent]⟩, visible⟩
  | constructor d =>
    have executable : ElementKind.constructor.isExecutable := rfl
    refine (enterExecutable_ensures answers h isOpen kind isType known ownType executable d).imp ?_
    rintro r s' _ ⟨owned, kind', visible⟩
    exact ⟨owned, ⟨_, kind', by decide, by simp [isComponent]⟩, visible⟩
  | recordComponent name t =>
    exact typed .recordComponent isType (by decide) (by decide) (by simp [isComponent]) name t []

theorem enterMembers_ensures (answers : Answers again) (h : s.Consistent)
    (isOpen : s.Open owner) (kind : s.kind? owner = some k) (isType : k.isType) (known : sc.Known s)
    {ownerType : TypeId} (ownType : s.HasType ownerType) (ms : List MemberDecl) :
    Ensures (Extension Nothing (· = owner)) s (ms.mapM (enterMember again owner ownerType) sc)
      fun r s' => s'.owned owner = s.owned owner ++ r.1 ∧ List.Forall₂ (MemberFits s') ms r.1 ∧
        r.2.visible = sc.visible := by
  refine .resolve_mapM (fun ms es sc' s' =>
    s'.owned owner = s.owned owner ++ es ∧ List.Forall₂ (MemberFits s') ms es ∧
      sc'.visible = sc.visible) (.refl h) ⟨by simp, .nil, rfl⟩ ?_
  rintro ms m es sc' s' ext ⟨owned, fits, visible⟩
  refine (enterMember_ensures answers ext.consistent (ext.grows.still_open isOpen id)
    (ext.grows.kind kind) isType ((known.grow ext.grows).congr visible)
    (ext.grows.has_type ownType) m).imp ?_
  rintro r s'' ext' ⟨owned', fits', visible'⟩
  refine ⟨by simp [owned', owned], List.rel_append (fits.imp ?_) (.cons fits' .nil),
    by rw [visible', visible]⟩
  rintro m e ⟨k, kind, rest⟩
  exact ⟨k, ext'.grows.kind kind, rest⟩

end members

section types

variable {again : Again}

theorem usageOf_ensures (h : s.Consistent) (name : String) {ts : List TypeId}
    (known : ∀ t ∈ ts, s.HasType t) :
    Ensures Extends s (usageOf name ts) fun t s' => s'.HasType t := by
  refine .get ?_
  cases found : s.typeElement? name with
  | none => exact .pure (.refl h) h.has_none
  | some e =>
    obtain ⟨slot, slotFound, isType, _⟩ := (h.typeElements name e).mp found
    have c : s.Composes (.declared .none e ts) := by
      refine ⟨by simpa [TypeShape.parts] using ⟨h.has_none, known⟩, ?_, by simp⟩
      rintro _ _ _ ⟨⟩
      exact ⟨⟨slot.kind, kind?_eq_some_iff.mpr ⟨slot, slotFound, rfl⟩, isType⟩, .inl rfl⟩
    exact (Store.newType_ensures h c).imp fun t s' _ shape => has_type_iff.mpr ⟨_, shape⟩

theorem superclassOf_ensures (h : s.Consistent) (known : sc.Known s) (header : TypeHeader)
    (name : String) {asType : TypeId} (ownType : s.HasType asType) :
    Ensures Extends s (superclassOf header name asType sc) fun r s' =>
      s'.HasType r.1 ∧ r.2.visible = sc.visible := by
  have nothing : Ensures Extends s ((pure .none : ResolveM TypeId) sc) fun r s' =>
      s'.HasType r.1 ∧ r.2.visible = sc.visible := .pure (.refl h) ⟨h.has_none, rfl⟩
  have usage (name : String) {ts : List TypeId} (known : ∀ t ∈ ts, s.HasType t) :
      Ensures Extends s ((liftM (usageOf name ts) : ResolveM TypeId) sc) fun r s' =>
        s'.HasType r.1 ∧ r.2.visible = sc.visible := by
    have made := usageOf_ensures h name known
    exact ⟨made.1, made.2, rfl⟩
  have implied : Ensures Extends s ((if name = objectName then return .none
      else (StoreM.objectType : StoreM TypeId) : ResolveM TypeId) sc) fun r s' =>
        s'.HasType r.1 ∧ r.2.visible = sc.visible := by
    split
    · exact nothing
    · have object : Ensures Extends s StoreM.objectType _ := objectType_ensures h
      exact ⟨object.1, object.1.consistent.has_object object.2, rfl⟩
  rw [superclassOf]
  revert implied
  generalize (if name = objectName then return .none
    else (StoreM.objectType : StoreM TypeId) : ResolveM TypeId) = m
  intro implied
  generalize header.kind = kind, header.superclass = upper
  split
  · exact usage enumName (by simpa using ownType)
  · exact usage recordName (by simp)
  · exact resolve_ensures h known _
  · exact implied
  · exact nothing

theorem usageOf_head (h : s.Consistent) (name : String) (ts : List TypeId) :
    (usageOf name ts s).2.head? (usageOf name ts s).1 = s.typeElement? name := by
  rw [usageOf, stateM_get_bind]
  cases s.typeElement? name with
  | none => exact h.head?_initial (by decide)
  | some e => exact newType_head (.declared .none e ts) { package := "", owner := "" } s

theorem superclassOf_head (h : s.Consistent) (known : sc.Known s) (header : TypeHeader) (asType : TypeId) :
    (superclassOf header sc.owner asType sc s).2.head? (superclassOf header sc.owner asType sc s).1.1 =
      header.superclassElement? sc s := by
  have nothing : s.head? .none = none := h.head?_initial (by decide)
  rw [superclassOf, TypeHeader.superclassElement?]
  generalize header.kind = kind, header.superclass = upper
  cases kind with
  | enumType | recordType => exact usageOf_head h _ _
  | classType =>
    cases upper with
    | some t => exact resolve_head h known t
    | none =>
      by_cases top : sc.owner = objectName
      · simp only [if_pos top]
        exact nothing
      · have made : Ensures (Extension Nothing Nothing) s StoreM.objectType fun t s' => s'.IsObject t := objectType_ensures h
        obtain ⟨ext, object⟩ := made
        simp only [if_neg top]
        refine (ext.consistent.object_head object).trans ?_
        rw [objectElement?, typeElement?, ext.typeElements]
        rfl
  | _ => cases upper <;> exact nothing

theorem InPlace.superclassOf (header : TypeHeader) (name : String) (asType : TypeId) :
    InPlace (superclassOf header name asType) := by
  unfold Completion.superclassOf
  split
  · exact .lift _
  · exact .lift _
  · exact .resolve _
  · split
    · exact .pure _
    · exact .lift _
  · exact .pure _

theorem superclassOf_interface {header : TypeHeader} (isInterface : header.kind.isInterface) (name : String)
    (asType : TypeId) (sc : Scope) (s : Store) : (superclassOf header name asType sc s).1.1 = .none := by
  revert isInterface
  unfold superclassOf
  generalize header.kind = kind, header.superclass = upper
  split <;> first | exact fun _ => rfl | exact nofun

theorem superclassOf_named (h : s.Consistent) (known : sc.Known s) (header : TypeHeader) {asType : TypeId}
    (ownType : s.HasType asType) :
    Ensures Extends s (superclassOf header sc.owner asType sc) fun r s' => s'.HasType r.1 ∧ r.2.visible = sc.visible ∧
      (header.kind.isInterface → r.1 = .none) ∧ s'.head? r.1 = header.superclassElement? sc s ∧ r.2.place = sc.place := by
  obtain ⟨ext, there, visible⟩ := superclassOf_ensures h known header sc.owner ownType
  exact ⟨ext, there, visible, fun isInterface => superclassOf_interface isInterface sc.owner asType sc s,
    superclassOf_head h known header asType, InPlace.superclassOf header sc.owner asType sc s⟩

theorem interfacesOf_named (h : s.Consistent) (known : sc.Known s) (header : TypeHeader) :
    Ensures Extends s (interfacesOf header sc) fun r s' => (∀ t ∈ r.1, s'.HasType t) ∧ r.2.visible = sc.visible ∧
      r.1.map s'.head? = header.interfaceElements sc s := by
  refine (resolveAll_named h known header.interfaces).resolve_bind ?_
  rintro ts sc₁ s₁ ext₁ ⟨types, visible, heads, place⟩
  have same : Ensures Extends s₁ ((pure ts : ResolveM (List TypeId)) sc₁) fun r s' =>
      (∀ t ∈ r.1, s'.HasType t) ∧ r.2.visible = sc.visible ∧ r.1.map s'.head? = header.interfaces.map (sc.element? s) :=
    .pure (.refl ext₁.consistent) ⟨types, visible, heads⟩
  unfold TypeHeader.interfaceElements
  cases header.superclass with
  | none => exact same
  | some t =>
    dsimp only
    split
    · refine (resolve_named ext₁.consistent ((known.grow ext₁.grows).congr visible) t).resolve_bind ?_
      rintro u sc₂ s₂ ext₂ ⟨type, visible₂, head, _⟩
      have types₂ (t : TypeId) (mem : t ∈ ts) : s₂.HasType t := ext₂.grows.has_type (types t mem)
      refine .pure (.refl ext₂.consistent) ⟨List.forall_mem_cons.mpr ⟨type, types₂⟩, visible₂.trans visible, ?_⟩
      have kept : ts.map s₂.head? = ts.map s₁.head? := List.map_congr_left fun t mem => ext₂.grows.head? (types t mem)
      rw [List.map_cons, head, kept, heads, ext₁.element? h place]
    · exact same

structure SupertypesNamed (header : TypeHeader) (sc : Scope) (s : Store) (superclass : TypeId) (interfaces : List TypeId)
    (s' : Store) : Prop where
  known : ∀ t ∈ superclass :: interfaces, s'.HasType t
  noSuperclass : header.kind.isInterface → superclass = .none
  heads : (superclass :: interfaces).map s'.head? = header.heads sc s

theorem supertypes_bind {α : Type} {f : TypeId → List TypeId → ResolveM α} {Q : α × Scope → Store → Prop} (h : s.Consistent)
    (known : sc.Known s) (header : TypeHeader) {asType : TypeId} (ownType : s.HasType asType)
    (next : ∀ superclass interfaces sc' s', s.Extends s' → sc'.visible = sc.visible →
      SupertypesNamed header sc s superclass interfaces s' →
        Ensures (Extension mine enlarged) s' (f superclass interfaces sc') Q) :
    Ensures (Extension mine enlarged) s ((do
      let superclass ← superclassOf header sc.owner asType
      let interfaces ← interfacesOf header
      f superclass interfaces : ResolveM α) sc) Q := by
  refine (superclassOf_named h known header ownType).widen.resolve_bind ?_
  rintro superclass sc₁ s₁ _ ⟨ext₁, super₁, visible₁, nothing, head, place⟩
  refine (interfacesOf_named ext₁.consistent ((known.grow ext₁.grows).congr visible₁) header).widen.resolve_bind ?_
  rintro interfaces sc₂ s₂ _ ⟨ext₂, interfaces₂, visible₂, heads⟩
  refine next superclass interfaces sc₂ s₂ (Movement.trans ext₁ ext₂) (visible₂.trans visible₁)
    ⟨List.forall_mem_cons.mpr ⟨ext₂.grows.has_type super₁, interfaces₂⟩, nothing, ?_⟩
  have later := ext₁.heads h place header
  rw [List.map_cons, ext₂.grows.head? super₁, head, heads, (List.cons.inj later).2]
  rfl

theorem SupertypesNamed.bears {header : TypeHeader} {superclass : TypeId} {interfaces : List TypeId} {s s₁ s₂ : Store}
    {sc home : Scope} {e : ElementId} {slot : Slot} {r : ElementRecord} (named : SupertypesNamed header sc s superclass interfaces s₁)
    (h : s.Consistent) (later : s.Extends s₁) (g : s₁.Grows mine s₂) (indexes : s₂.typeElements = s₁.typeElements)
    (place : sc.place = home.place) (inPackage : s₂.InPackage e home.package) (owner : home.owner = slot.qualifiedName)
    (same : r.superclass = superclass ∧ r.interfaces = interfaces) : s₂.Bears e slot header r := by
  refine ⟨home.package, inPackage, ?_⟩
  have here : Scope.place { package := home.package, owner := slot.qualifiedName } = sc.place := by
    rw [place, ← owner]
    rfl
  have kept : (superclass :: interfaces).map s₂.head? = (superclass :: interfaces).map s₁.head? :=
    List.map_congr_left fun t mem => g.head? (named.known t mem)
  have meant := h.heads_congr (indexes.trans later.typeElements) (fun e there =>
    (g.arity (later.grows.has_element there)).trans (later.grows.arity there)) here header
  rw [Store.heads, same.1, same.2, kept, named.heads, meant]

theorem components_eq {ms : List MemberDecl} {es : List ElementId}
    (fits : List.Forall₂ (MemberFits s) ms es) :
    ((ms.zip es).filterMap fun (m, e) => if isComponent m then some e else none) =
      es.filter fun e => (s.kind? e).any (· == .recordComponent) := by
  induction fits with
  | nil => rfl
  | @cons m e _ _ head _ ih =>
    obtain ⟨k, kind, _, component⟩ := head
    rw [List.zip_cons_cons, List.filterMap_cons, List.filter_cons, kind, ih]
    by_cases isComp : isComponent m <;> simp_all

theorem Working.type_fits {slot : Slot} {id : ElementId} {generics members : List ElementId}
    {ms : List MemberDecl} {r : ElementRecord} {d : TypeDetail}
    (w : Working s slot id (generics ++ members)) (first : AllKinds s (· == .typeParameter) generics)
    (second : List.Forall₂ (MemberFits s) ms members) (arity : generics.length = slot.arity)
    (children : ∀ c ∈ slot.children, ∃ k, s.kind? c = some k ∧ ¬ k.isOwned)
    (isId : r.id = id) (kind : r.kind = slot.kind) (simpleName : r.simpleName = slot.simpleName)
    (qualifiedName : r.qualifiedName = slot.qualifiedName) (enclosing : r.enclosing = slot.enclosing)
    (enclosed : r.enclosed = members ++ slot.children) (asType : s.HasType r.asType)
    (superclass : s.HasType d.superclass) (noSuperclass : slot.kind.isInterface → d.superclass = .none)
    (interfaces : ∀ t ∈ d.interfaces, s.HasType t)
    (detail : r.detail = .type d) (hasGenerics : d.typeParameters = generics)
    (components : d.components =
      (ms.zip members).filterMap fun (m, e) => if isComponent m then some e else none)
    (plain : slot.kind ≠ .typeParameter) (prototype : s.IsPrototype id generics r.asType) :
    s.RecordFits id slot r := by
  have member : AllKinds s (·.isMember) members := by
    intro e mem
    obtain ⟨_, k, kind, isMember, _⟩ : ∃ m, MemberFits s m e := by
      clear components w enclosed
      induction second with
      | nil => cases mem
      | cons head _ ih =>
        rcases List.mem_cons.mp mem with rfl | mem
        · exact ⟨_, head⟩
        · exact ih mem
    exact ⟨k, kind, isMember⟩
  have split (q : ElementKind → Bool) : s.ownedOf id q =
      (generics.filter fun e => (s.kind? e).any q) ++ members.filter fun e => (s.kind? e).any q := by
    rw [w.ownedOf, List.filter_append]
  exact
    { id := isId, kind, simpleName, qualifiedName, enclosing
      arity := by simp only [ElementRecord.typeParameters, detail, hasGenerics, arity]
      asType
      superclass := by
        rw [ElementRecord.superclass, detail]
        exact superclass
      noSuperclass := by
        rw [ElementRecord.superclass, detail]
        exact noSuperclass
      interfaces := by
        rw [ElementRecord.interfaces, detail]
        exact interfaces
      typeParameters := by
        rw [split, first.filter_self fun _ fits => fits, member.filter_none (by intro k; cases k <;> decide),
          List.append_nil]
        simp only [ElementRecord.typeParameters, detail, hasGenerics]
      parameters := by
        rw [split, first.filter_none (by simp), member.filter_none (by intro k; cases k <;> decide)]
        simp only [ElementRecord.parameters, detail, List.append_nil]
      components := by
        rw [split, first.filter_none (by simp), List.nil_append, ← components_eq second]
        simp only [ElementRecord.declaredComponents, detail, components]
      enclosed := by
        refine ⟨slot.children, ?_, children⟩
        rw [split, first.filter_none (by simp [ElementKind.isMember]), List.nil_append,
          member.filter_self fun _ fits => fits, enclosed]
      bound := fun parameter => absurd parameter plain
      prototype := fun _ => by
        simp only [ElementRecord.typeParameters, detail, hasGenerics]
        exact prototype }

theorem typeRecord_ensures (answers : Answers again) {slot : Slot} {id : ElementId}
    {header : TypeHeader} (h : s.Consistent) (w : Working s slot id []) (known : sc.Known s)
    (inPackage : s.InPackage id sc.package) (owner : sc.owner = slot.qualifiedName)
    (isType : slot.kind.isType) (kind : header.kind = slot.kind) (name : header.name = slot.simpleName) (arity : header.typeParameters.length = slot.arity)
    (children : ∀ c ∈ slot.children, ∃ k, s.kind? c = some k ∧ ¬ k.isOwned) (nesting : Nesting) :
    Ensures (Extension Nothing (· = id)) s (typeRecord again id slot header nesting sc) fun r s' =>
      (∃ es, Working s' slot id es) ∧ s'.RecordFits id slot r.1 ∧ s'.Fulfils id slot header r.1 := by
  have generic : slot.kind.admits .typeParameter := by
    simp [ElementKind.admits, ElementKind.isParameterizable, isType]
  have parameters := enterTypeParameters_ensures header.typeParameters h w.isOpen w.kind generic known
  refine ((InPlace.enterTypeParameters id header.typeParameters).ensures parameters).resolve_bind ?_
  rintro vs sc₁ s₁ ext₁ ⟨⟨owned₁, named, kinds₁, known₁⟩, place₁⟩
  have owner₁ : sc₁.owner = slot.qualifiedName := (congrArg (·.owner) place₁).trans owner
  have w₁ : Working s₁ slot id (vs.map (·.1)) := by simpa using w.enlarge ext₁ owned₁
  have c : s₁.Composes (.declared .none id (vs.map (·.2))) := by
    refine ⟨?_, ?_, by simp⟩
    · simp only [TypeShape.parts, List.mem_cons, List.mem_map]
      rintro _ (rfl | ⟨v, mem, rfl⟩)
      · exact ext₁.consistent.has_none
      · exact (kinds₁ v mem).2.known
    · rintro _ _ _ ⟨⟩
      exact ⟨⟨slot.kind, w₁.kind, isType⟩, .inl rfl⟩
  refine (ResolveM.newType_ensures ext₁.consistent c).widen.resolve_bind ?_
  rintro asType sc₂ s₂ _ ⟨ext₂, shape₂, same⟩
  cases same
  have ownType : s₂.HasType asType := has_type_iff.mpr ⟨_, shape₂⟩
  have known₂ := known₁.grow ext₂.grows
  rw [← owner₁]
  refine supertypes_bind ext₂.consistent known₂ header ownType ?_
  rintro superclass interfaces sc₃ s₃ ext₃ visible₃ named₃
  obtain ⟨super₃, interfaces₃⟩ := List.forall_mem_cons.mp named₃.known
  have known₃ := (known₂.grow ext₃.grows).congr visible₃
  have w₃ := (w₁.extend ext₂).extend ext₃
  have ownType₃ := ext₃.grows.has_type ownType
  refine (enterMembers_ensures answers ext₃.consistent w₃.isOpen w₃.kind isType known₃ ownType₃
    header.members).resolve_bind ?_
  rintro members sc₄ s₄ ext₄ ⟨owned₄, fits₄, visible₄⟩
  have w₄ := w₃.enlarge ext₄ owned₄
  refine (resolveAnnotations_ensures answers ext₄.consistent ((known₃.grow ext₄.grows).congr visible₄)
    header.annotations).widen.resolve_bind ?_
  rintro annotations sc₅ s₅ _ ⟨ext₅, _⟩
  refine .scope ?_
  have g₃ := ext₄.grows.trans ext₅.grows
  have g₁ := ext₂.grows.trans (ext₃.grows.trans g₃)
  have w₅ := w₄.extend ext₅
  have generics : AllKinds s₁ (· == .typeParameter) (vs.map (·.1)) := by
    simp only [AllKinds, List.mem_map]
    rintro _ ⟨v, mem, rfl⟩
    exact ⟨_, (kinds₁ v mem).1, rfl⟩
  have fits₅ : List.Forall₂ (MemberFits s₅) header.members members :=
    fits₄.imp fun m e => Exists.imp fun k fits => ⟨ext₅.grows.kind fits.1, fits.2⟩
  have children₅ : ∀ c ∈ slot.children, ∃ k, s₅.kind? c = some k ∧ ¬ k.isOwned := by
    intro c mem
    obtain ⟨k, kind, free⟩ := children c mem
    exact ⟨k, (ext₁.grows.trans g₁).kind kind, free⟩
  have plain : slot.kind ≠ .typeParameter := by
    intro same
    simp [same, ElementKind.isType, ElementKind.isClass, ElementKind.isInterface] at isType
  have prototype : s₅.IsPrototype id (vs.map (·.1)) asType := by
    refine IsPrototype.grow ⟨_, shape₂, ?_⟩ (ext₃.grows.trans g₃)
    refine List.forall₂_map_left_iff.mpr (List.forall₂_map_right_iff.mpr ?_)
    exact List.forall₂_same.mpr fun v mem => (kinds₁ v mem).2.grow ext₂.grows
  refine .pure (.refl ext₅.consistent) ⟨⟨_, w₅⟩, ?_, named.grow g₁, ?_⟩
  · exact w₅.type_fits (generics.grow g₁) fits₅ (by simpa [arity] using named.length_eq) children₅ rfl kind name owner₁ rfl
      rfl (g₃.has_type ownType₃) (g₃.has_type super₃) (fun isInterface => named₃.noSuperclass (kind ▸ isInterface))
      (fun t mem => g₃.has_type (interfaces₃ t mem)) rfl rfl rfl plain prototype
  · exact named₃.bears ext₂.consistent ext₃ g₃ (ext₅.typeElements.trans ext₄.typeElements) place₁
      (inPackage.grow (ext₁.grows.trans g₁)) owner ⟨rfl, rfl⟩

theorem completeType_ensures (answers : Answers again) {slot : Slot} {id : ElementId}
    {header : TypeHeader} (h : s.Consistent) (w : Working s slot id [])
    (isType : slot.kind.isType) (kind : header.kind = slot.kind)
    (name : header.name = slot.simpleName) (arity : header.typeParameters.length = slot.arity)
    (children : ∀ c ∈ slot.children, ∃ k, s.kind? c = some k ∧ ¬ k.isOwned) :
    Ensures (Extension Nothing (· = id)) s (completeType again id slot header) fun r s' =>
      (∃ es, Working s' slot id es) ∧ s'.RecordFits id slot r ∧ s'.Fulfils id slot header r := by
  have inPackage : s.InPackage id (s.packageName id) := h.inPackage ⟨slot.kind, w.kind, isType⟩
  let scope (visible : List (String × TypeId)) : Scope :=
    { package := s.packageName id, owner := slot.qualifiedName, visible }
  have rest (nesting : Nesting) (visible : List (String × TypeId)) {s₁ : Store} (ext : s.Extends s₁)
      (known : (scope visible).Known s₁) :
      Ensures (Extension Nothing (· = id)) s₁ ((typeRecord again id slot header nesting).run' (scope visible))
        fun r s' => (∃ es, Working s' slot id es) ∧ s'.RecordFits id slot r ∧ s'.Fulfils id slot header r := by
    refine .map (typeRecord_ensures answers ext.consistent (w.extend ext) known (inPackage.grow ext.grows) rfl isType kind
      name arity (fun c mem => ?_) nesting)
    obtain ⟨k, kind, free⟩ := children c mem
    exact ⟨k, ext.grows.kind kind, free⟩
  have both (nesting : Nesting) : Ensures (Extension Nothing (· = id)) s (do
      let visible ← if nesting = .member ∧ .static ∉ modifiersOf header nesting
        then visibleVariables again slot.enclosing else pure []
      (typeRecord again id slot header nesting).run' (scope visible))
      fun r s' => (∃ es, Working s' slot id es) ∧ s'.RecordFits id slot r ∧ s'.Fulfils id slot header r := by
    dsimp only
    split
    · exact (visibleVariables_ensures answers slot.enclosing h).widen.bind
        fun visible s₁ _ ⟨ext, known⟩ => rest nesting visible ext known
    · exact rest nesting [] (.refl h) (by simp [Scope.Known, scope])
  exact .get (both _)

end types

section complete

variable {again : Again} {e : ElementId}

def IsRecordOf (s : Store) (e : ElementId) (r : ElementRecord) : Prop :=
  match s.slot? e with
  | none => r = .unknown e
  | some slot => s.record? e = some r ∨ slot.state = .completing ∧ r = preliminary e slot

theorem container_fits {slot : Slot} (h : s.Consistent) (found : s.slot? e = some slot)
    (isContainer : slot.kind.isContainer) (arity : slot.arity = 0) :
    s.RecordFits e slot (containerRecord e slot) := by
  have bare := h.ownedOf_container found isContainer
  refine ⟨rfl, rfl, rfl, rfl, rfl, arity.symm, ?_, h.has_none, fun _ => rfl, nofun, (bare _).symm, (bare _).symm,
    (bare _).symm, ⟨slot.children, by simp [bare, containerRecord], (h.slots e slot found).children⟩, ?_,
    fun isType => absurd isContainer (ElementKind.isType_not_container isType)⟩
  · simp only [containerRecord]
    split <;> exact h.has_initial (by decide)
  · intro kind
    simp [kind, ElementKind.isContainer] at isContainer

theorem container_ensures {slot : Slot} (h : s.Consistent) (found : s.slot? e = some slot)
    (state : slot.state = .pending .container) :
    Ensures Extends s (do
      modify (·.setState e .completing)
      modify fun s => { s with completions := s.completions + 1 }
      StoreM.publish (containerRecord e slot)
      return containerRecord e slot) fun r s' => s'.record? e = some r := by
  obtain ⟨isContainer, arity⟩ : slot.kind.isContainer ∧ slot.arity = 0 := by
    have fits := (h.slots e slot found).state
    simpa [StateFits, state] using fits
  let r := containerRecord e slot
  let f : Slot → Slot := ({ · with state := .complete r })
  have becomes {p : Prop} : slot.Becomes p (f slot) := by
    refine ⟨slot.children, .complete r, rfl, List.prefix_refl _, ?_⟩
    simp [SlotState.Evolves, state, isContainer]
  have g : s.Grows Nothing (s.updateSlot e f) :=
    .update_slot h found (fun _ => ⟨rfl, rfl⟩) becomes (by simp [f])
  have ext : s.Extends (s.updateSlot e f) := by
    refine .update_slot h found (fun _ => ⟨rfl, rfl⟩) becomes (by simp [f]) ?_ ?_ (by simp [state])
    · have fits := (container_fits h found isContainer arity).grow g (fun _ _ shape => shape)
        (owned_update e fun _ => ⟨rfl, rfl⟩)
      exact (h.slots e slot found).restate g fits.restate
    · rintro _ ⟨⟩
      refine .inr fun t upper shape => ?_
      obtain ⟨kind, _⟩ := (h.shapes t _ shape).typeVariable e upper rfl
      obtain ⟨slot', again', isVariable⟩ := kind?_eq_some_iff.mp kind
      rw [found] at again'
      cases again'
      simp [isVariable, ElementKind.isContainer] at isContainer
  let s₁ : Store := { s.setState e .completing with completions := s.completions + 1 }
  have elements : (s₁.setState e (.complete r)).elements = (s.updateSlot e f).elements :=
    setState_setState .completing (.complete r)
  have ext' : (s.updateSlot e f).Extends (s₁.setState e (.complete r)) :=
    .retouch ext.consistent elements rfl rfl rfl rfl (List.prefix_refl _) (fun _ usage => usage)
      fun _ usage => .inl usage
  refine ⟨Movement.trans ext ext', record?_eq_some_iff.mpr ⟨f slot, ?_, rfl⟩⟩
  change (s₁.setState e (.complete r)).slot? e = some (f slot)
  rw [slot?, elements]
  exact slot?_update.trans (by rw [if_pos rfl, found, Option.map_some])

theorem type_ensures (answers : Answers again) {slot : Slot} {header : TypeHeader}
    (h : s.Consistent) (found : s.slot? e = some slot) (state : slot.state = .pending (.type header)) :
    Ensures Extends s (do
      modify (·.setState e .completing)
      let r ← completeType again e slot header
      modify fun s => { s with completions := s.completions + 1 }
      StoreM.publish r
      return r) fun r s' => s'.record? e = some r := by
  have fits := h.slots e slot found
  obtain ⟨isType, kind, name, arity, bare⟩ : slot.kind.isType ∧ header.kind = slot.kind ∧
      header.name = slot.simpleName ∧ header.typeParameters.length = slot.arity ∧ s.owned e = [] := by
    simpa [StateFits, state] using fits.state
  have plain : slot.kind ≠ .typeParameter := by
    rintro same
    simp [same, ElementKind.isType, ElementKind.isClass, ElementKind.isInterface] at isType
  let s₁ := s.setState e .completing
  have opened : s.Extension (· = e) (· = e) s₁ := .begin h found state rfl
  have w₁ : Working s₁ slot e [] := by
    let f : Slot → Slot := ({ · with state := .completing })
    refine ⟨⟨slot.children, ?_⟩, (owned_update (f := f) e fun _ => ⟨rfl, rfl⟩).trans bare⟩
    exact slot?_update.trans (by rw [if_pos rfl, found, Option.map_some])
  have children : ∀ c ∈ slot.children, ∃ k, s₁.kind? c = some k ∧ ¬ k.isOwned := by
    intro c mem
    obtain ⟨k, kind, free⟩ := fits.children c mem
    exact ⟨k, opened.grows.kind kind, free⟩
  have body : Ensures (Extension (· = e) (· = e)) s₁ (do
      let r ← completeType again e slot header
      modify fun s => { s with completions := s.completions + 1 }
      StoreM.publish r
      return r) fun r s' => s'.record? e = some r ∧ s'.Fulfils e slot header r := by
    refine ((completeType_ensures answers opened.consistent w₁ isType kind name arity children).mono
      Nothing.within fun _ same => same).bind ?_
    rintro r s₂ _ ⟨ext₂, ⟨es, w₂⟩, record₂, fulfils⟩
    have counted : s₂.Extends { s₂ with completions := s₂.completions + 1 } :=
      .retouch ext₂.consistent rfl rfl rfl rfl rfl (List.prefix_refl _) (fun _ usage => usage)
        fun _ usage => .inl usage
    have record₃ := record₂.grow counted.grows (fun _ _ shape => shape)
      (counted.kept e w₂.isOpen id id)
    have published : Ensures (Extension (· = e) (· = e)) _ _ _ :=
      (w₂.extend counted).publish counted.consistent rfl plain record₃
    have after := fulfils.grow ext₂.consistent (List.forall_mem_cons.mpr ⟨record₂.superclass, record₂.interfaces⟩)
      (Movement.trans counted.widen published.1).grows (published.1.typeElements.trans counted.typeElements)
    exact ⟨Movement.trans counted.widen published.1, published.2, after⟩
  obtain ⟨ext', complete, fulfils⟩ := body
  have ext := Movement.trans opened ext'
  have heeds := heeds_of_header found state complete fulfils
  refine ⟨(ext.close h (fun e' same => ?_) fun e' same => same ▸ heeds).shrink fun o isOpen same => ?_, complete⟩
  · subst same
    refine ⟨?_, not_open_of_record complete, ?_⟩
    · rintro ⟨slot', found', completing⟩
      rw [found] at found'
      cases found'
      simp [state] at completing
    · intro variable_
      obtain ⟨slot', found', kind'⟩ := kind?_eq_some_iff.mp variable_
      rw [found] at found'
      cases found'
      exact plain kind'
  · obtain ⟨slot', found', completing⟩ := isOpen
    rw [same, found] at found'
    cases found'
    simp [state] at completing

theorem step_ensures (answers : Answers again) (h : s.Consistent) (e : ElementId) :
    Ensures Extends s (step again e) fun r s' => IsRecordOf s' e r := by
  refine .get ?_
  cases found : s.slot? e with
  | none => exact .pure (.refl h) (by simp [IsRecordOf, found])
  | some slot =>
    dsimp only
    have recorded (r : ElementRecord) (s' : Store) (complete : s'.record? e = some r) :
        IsRecordOf s' e r := by
      obtain ⟨slot', found', _⟩ := record?_eq_some_iff.mp complete
      simp [IsRecordOf, found', complete]
    cases state : slot.state with
    | complete r =>
      exact .pure (.refl h) (recorded r s (record?_eq_some_iff.mpr ⟨slot, found, state⟩))
    | completing => exact .pure (.refl h) (by simp [IsRecordOf, found, state])
    | pending work =>
      cases work with
      | container => exact (container_ensures h found state).imp fun r s' _ => recorded r s'
      | type header => exact (type_ensures answers h found state).imp fun r s' _ => recorded r s'

theorem AnswerFits.bare {r : ElementRecord} (h : s.Consistent) (asType : r.asType = .none)
    (typeParameters : r.typeParameters = []) : AnswerFits s e r where
  asType := asType ▸ h.has_none
  typeParameters p mem := by simp [typeParameters] at mem
  variable_ _ := asType ▸ h.head?_initial (by decide)

theorem AnswerFits.of_record {r : ElementRecord} (h : s.Consistent) (complete : s.record? e = some r) :
    AnswerFits s e r := by
  obtain ⟨slot, found, state⟩ := record?_eq_some_iff.mp complete
  have fits := (h.slots e slot found).state
  simp only [StateFits, state] at fits
  refine ⟨fits.asType, fun p mem => ?_, fun isVariable => ?_⟩
  · rw [fits.typeParameters] at mem
    obtain ⟨slot', found', _, _, kind⟩ := mem_ownedOf.mp mem
    exact kind?_eq_some_iff.mpr ⟨slot', found', by simpa using kind⟩
  · obtain ⟨slot', again, kind⟩ := kind?_eq_some_iff.mp isVariable
    cases found.symm.trans again
    obtain ⟨_, _, upper, shape, _⟩ := fits.bound kind
    rw [head?, shape]
    rfl

theorem IsRecordOf.answer {r : ElementRecord} (h : s.Consistent) (is : IsRecordOf s e r) : AnswerFits s e r := by
  unfold IsRecordOf at is
  split at is
  · exact .bare h (by rw [is]; rfl) (by rw [is]; rfl)
  · rcases is with complete | ⟨_, rfl⟩
    · exact .of_record h complete
    · exact .bare h rfl rfl

theorem stepN_ensures (fuel : Nat) (h : s.Consistent) (e : ElementId) :
    Ensures Extends s (stepN fuel e) fun r s' => IsRecordOf s' e r := by
  induction fuel generalizing s e with
  | zero => exact step_ensures (fun s e h => .pure (.refl h) (.bare h rfl rfl)) h e
  | succ fuel ih =>
    refine step_ensures (fun s e h => ?_) h e
    exact (ih h e).imp fun r s' ext is => is.answer ext.consistent

end complete

end Nominal.Completion
