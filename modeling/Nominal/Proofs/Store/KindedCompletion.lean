import Nominal.Proofs.Store.Kinded
/-!
Completing what is declared with nothing but well-kinded types keeps every type of the store well kinded. What
is resolved on the way is of the kind that was written or an error, and nothing but type variables is ever in sight.
-/

namespace Nominal

open Store
open StoreM (isComponentKind isBoundKind)

def ResolveM.MindsKinds {α : Type} (x : ResolveM α) : Prop :=
  ∀ sc s, s.Kinded → sc.Variables s → Ensures KeepsKinds s (x sc) fun r s' => r.2.Variables s'

namespace ResolveM.MindsKinds

variable {α β : Type} {x : ResolveM α}

theorem pure (a : α) : MindsKinds (Pure.pure a) := fun _ _ k sight => .pure k.stays sight

theorem bind {f : α → ResolveM β} (first : MindsKinds x) (next : ∀ a, MindsKinds (f a)) : MindsKinds (x >>= f) :=
  fun sc s k sight => (first sc s k sight).resolve_bind fun a sc' s' move sight' => next a sc' s' move.kinded sight'

theorem map {f : α → β} (first : MindsKinds x) : MindsKinds (f <$> x) := by
  rw [map_eq_pure_bind]
  exact first.bind fun _ => .pure _

theorem store {f : Store → ResolveM β} (next : ∀ s, MindsKinds (f s)) : MindsKinds (ResolveM.store >>= f) :=
  fun sc s k sight => .store (next s sc s k sight)

theorem mapM {f : α → ResolveM β} {as : List α} (each : ∀ a ∈ as, MindsKinds (f a)) : MindsKinds (as.mapM f) := by
  induction as with
  | nil => rw [List.mapM_nil]; exact .pure []
  | cons a as ih =>
    rw [List.mapM_cons]
    exact (each a (by simp)).bind fun _ => (ih fun a mem => each a (by simp [mem])).bind fun _ => .pure _

theorem lift {m : StoreM α} (keeps : ∀ s, s.Kinded → Ensures KeepsKinds s m fun _ _ => True) :
    MindsKinds (liftM m : ResolveM α) :=
  fun _ s k sight => ⟨(keeps s k).1, sight.carry (keeps s k).1.carries⟩

theorem countUnresolved : MindsKinds countUnresolved := fun _ _ k sight => ⟨k.stays, sight⟩

theorem resolve {t : TypeExpr} (fits : t.wellKinded) : MindsKinds (resolve t) :=
  fun _ _ k sight => (resolve_kinds k sight t fits).imp fun _ _ _ ⟨_, sight'⟩ => sight'

theorem resolveAll {ts : List TypeExpr} (fits : ∀ t ∈ ts, t.wellKinded) : MindsKinds (resolveAll ts) :=
  fun _ _ k sight => (resolveAll_kinds k sight ts fits).imp fun _ _ _ ⟨_, sight'⟩ => sight'

end ResolveM.MindsKinds

namespace Completion

open ResolveM

variable {s : Store} {sc : Scope} {again : Again}

def AnswersAlong (R : Store → Store → Prop) (again : Again) : Prop :=
  ∀ s e, R s s → Ensures R s (again e) fun r s' =>
    s'.record? e = some r ∨ ¬ s'.isComplete e ∧ r.typeParameters = []

def AnswersKinds (again : Again) : Prop :=
  ∀ s e, s.Kinded → Ensures KeepsKinds s (again e) fun r s' =>
    s'.record? e = some r ∨ ¬ s'.isComplete e ∧ r.typeParameters = []

section visible

variable {R : Store → Store → Prop} [Movement R] (keeps : ∀ {a b : Store}, R a b → a.KeepsKinds b)

include keeps

theorem visibleVariable_kinds (answers : AnswersAlong R again) (stays : R s s) {p : ElementId}
    (known : s.KnownParameter p) :
    Ensures R s (do
      let p ← again p
      return (p.simpleName, p.asType)) fun v s' => s'.Is (· == .typeVariable) v.2 := by
  refine (answers s p stays).bind fun r s' move answered => ?_
  have known' := (keeps move).carries.parameters _ known
  have complete : s'.record? p = some r := answered.resolve_right fun waiting => waiting.1 known'.2
  exact .pure (Movement.stay move) (((keeps move).kinded.record known'.1 complete).variable_ rfl)

theorem visibleVariablesN_kinds (answers : AnswersAlong R again) (fuel : Nat) (e? : Option ElementId)
    (stays : R s s) :
    Ensures R s (visibleVariablesN again fuel e?) fun vs s' => ∀ v ∈ vs, s'.Is (· == .typeVariable) v.2 := by
  induction fuel generalizing e? s with
  | zero => exact .pure stays (by simp)
  | succ fuel ih =>
    cases e? with
    | none => exact .pure stays (by simp)
    | some e =>
      rw [visibleVariablesN]
      refine .get ?_
      cases kind : s.kind? e with
      | none => exact .pure stays (by simp)
      | some kd =>
        dsimp only
        split
        · exact .pure stays (by simp)
        · refine (answers s e stays).bind fun r s₁ move₁ answered => ?_
          have known : ∀ p ∈ r.typeParameters, s₁.KnownParameter p := by
            rcases answered with complete | ⟨_, bare⟩
            · exact ((keeps move₁).kinded.record ((keeps move₁).carries.kind kind) complete).parameters
            · simp [bare]
          have own : Ensures R s₁ (r.typeParameters.mapM fun p => do
              let p ← again p
              return (p.simpleName, p.asType)) fun vs s' => ∀ v ∈ vs, s'.Is (· == .typeVariable) v.2 := by
            refine .mapM_all (Movement.stay move₁) (fun v _ _ move => (keeps move).carries.kinds _ _)
              fun p mem s' move => ?_
            exact visibleVariable_kinds keeps answers (Movement.stay move)
              ((keeps move).carries.parameters _ (known p mem))
          refine own.bind fun vs s₂ move₂ known => ?_
          refine (ih _ (Movement.stay move₂)).bind fun outer s₃ move₃ known' => ?_
          refine .pure (Movement.stay move₃) fun v mem => ?_
          rcases List.mem_append.mp mem with mem | mem
          · exact (keeps move₃).carries.kinds _ _ (known v (List.mem_reverse.mp mem))
          · exact known' v mem

theorem visibleVariables_kinds (answers : AnswersAlong R again) (e? : Option ElementId) (stays : R s s) :
    Ensures R s (visibleVariables again e?) fun vs s' => ∀ v ∈ vs, s'.Is (· == .typeVariable) v.2 :=
  .get (visibleVariablesN_kinds keeps answers _ e? stays)

end visible

section annotations

theorem findConstant_kinds (members : List ElementId) (name : String) : MindsKinds (do
    let s ← ResolveM.store
    match members.find? (isConstantNamed s name) with
    | some constant => return .enumConstant constant
    | none => do
      countUnresolved
      return .str name : ResolveM AnnotationValue) := by
  refine .store fun s => ?_
  split
  · exact .pure _
  · exact MindsKinds.countUnresolved.bind fun _ => .pure _

theorem resolveConstant_kinds (answers : AnswersKinds again) (t : TypeId) (name : String) :
    MindsKinds (resolveConstant again t name) := by
  refine .store fun s => ?_
  split
  · exact MindsKinds.bind (MindsKinds.lift fun s k => (answers s _ k).imp fun _ _ _ _ => trivial) fun r =>
      findConstant_kinds _ name
  · exact findConstant_kinds [] name

mutual

theorem resolveValue_kinds (answers : AnswersKinds again) : (v : ValueExpr) → v.wellKinded →
    MindsKinds (resolveValue again v)
  | .bool _, _ | .int _, _ | .str _, _ => .pure _
  | .type _, fits => (MindsKinds.resolve fits).map
  | .enumConstant _ name, fits =>
    (MindsKinds.resolve fits).bind fun t => resolveConstant_kinds answers t name
  | .array values, fits => (resolveValues_kinds answers values fits).map

theorem resolveValues_kinds (answers : AnswersKinds again) : (vs : List ValueExpr) → ValueExpr.allWellKinded vs →
    MindsKinds (resolveValues again vs)
  | [], _ => .pure _
  | v :: rest, fits => by
    rw [ValueExpr.allWellKinded, Bool.and_eq_true] at fits
    rw [resolveValues]
    exact (resolveValue_kinds answers v fits.1).bind fun _ =>
      (resolveValues_kinds answers rest fits.2).bind fun _ => .pure _

end

theorem resolveAnnotationUse_kinds (answers : AnswersKinds again) {a : AnnotationDecl} (fits : a.wellKinded) :
    MindsKinds (resolveAnnotationUse again a) := by
  rw [AnnotationDecl.wellKinded, Bool.and_eq_true, List.all_eq_true] at fits
  refine (MindsKinds.resolve fits.1).bind fun t => MindsKinds.bind (.mapM fun x mem => ?_) fun _ => .pure _
  exact (resolveValue_kinds answers x.2 (fits.2 x mem)).bind fun _ => .pure _

theorem resolveAnnotations_kinds (answers : AnswersKinds again) {as : List AnnotationDecl}
    (fits : as.all (·.wellKinded)) : MindsKinds (as.mapM (resolveAnnotationUse again)) :=
  .mapM fun a mem => resolveAnnotationUse_kinds answers (List.all_eq_true.mp fits a mem)

end annotations

section typeParameters

variable {owner e : ElementId} {t : TypeId}

theorem newSlot_kinds (k : s.Kinded) {slot : Slot} (state : slot.state = .completing) :
    Ensures KeepsKinds s (StoreM.newSlot slot) fun e s' => s'.kind? e = some slot.kind := by
  refine ⟨k.pushSlot (by simp [AdmitsSlot, state]), kind?_eq_some_iff.mpr ⟨slot, ?_, rfl⟩⟩
  exact (slot?_push slot).trans (if_pos rfl)

theorem publish_kinds (k : s.Kinded) {r : ElementRecord} {kind : ElementKind} (there : s.kind? r.id = some kind)
    (admits : s.AdmitsRecord kind r) :
    Ensures KeepsKinds s (StoreM.publish r) fun _ s' => s'.record? r.id = some r := by
  obtain ⟨slot, found, rfl⟩ := kind?_eq_some_iff.mp there
  refine ⟨k.setState (fun slot' again => ?_) fun _ => ⟨r, rfl⟩, record?_publish (has_element_iff.mpr ⟨slot, found⟩)⟩
  cases found.symm.trans again
  exact admits

def Stands (s : Store) (v : ElementId × TypeId) : Prop := s.IsTypeParameter v.1 ∧ s.Is (· == .typeVariable) v.2

theorem Stands.carry {s' : Store} {v : ElementId × TypeId} (stands : Stands s v) (c : s.Carries s') : Stands s' v :=
  ⟨c.kind stands.1, c.kinds _ _ stands.2⟩

theorem reserve_kinds (k : s.Kinded) (sight : sc.Variables s) (p : TypeParameterDecl) :
    Ensures KeepsKinds s (reserveTypeParameter owner p sc) fun r s' => Stands s' r.1 ∧ r.2.Variables s' := by
  refine (newSlot_kinds k rfl).lift_bind fun e s₁ move₁ kind => ?_
  have admits : s₁.Admits (.typeVariable e .none) := Or.inl rfl
  refine (ResolveM.newType_kinds move₁.kinded (sight.carry move₁.carries) admits).resolve_bind
    fun t sc₂ s₂ move₂ ⟨shape, sight₂⟩ => ?_
  have is : s₂.Is (· == .typeVariable) t := ⟨_, shape, rfl⟩
  refine ⟨move₂.kinded.stays, ⟨move₂.carries.kind kind, is⟩, fun v mem => ?_⟩
  rcases List.mem_cons.mp mem with rfl | mem
  · exact is
  · exact sight₂ v mem

theorem ne_none_of_bound (k : s.Kinded) (bound : s.Is isBoundKind t) : t ≠ .none := by
  rintro rfl
  obtain ⟨shape, found, kind⟩ := bound
  obtain ⟨_, found', none⟩ := k.initial 0 (.noType .none) rfl
  cases found.symm.trans found'
  rw [eq_of_beq none] at kind
  cases kind

theorem completeTypeParameter_kinds (k : s.Kinded) (sight : sc.Variables s) (stands : Stands s (e, t))
    {p : TypeParameterDecl} (fits : p.wellKinded) :
    Ensures KeepsKinds s (completeTypeParameter owner p e t sc) fun r s' =>
      s'.KnownParameter e ∧ r.2.Variables s' := by
  have finish {s : Store} (k : s.Kinded) (stands : Stands s (e, t)) {sc : Scope} (sight : sc.Variables s)
      {upper : TypeId} (bound : s.Is isBoundKind upper) {bounds : List TypeId} (some_ : .none ∉ bounds) :
      Ensures KeepsKinds s ((do
        (StoreM.setShape t (.typeVariable e upper) : StoreM Unit)
        (StoreM.publish { id := e, kind := .typeParameter, simpleName := p.name
                          enclosing := some owner, asType := t
                          detail := .typeParameter owner bounds } : StoreM Unit) :
        ResolveM Unit) sc) fun r s' => s'.KnownParameter e ∧ r.2.Variables s' := by
    let record : ElementRecord :=
      { id := e, kind := .typeParameter, simpleName := p.name, enclosing := some owner, asType := t
        detail := .typeParameter owner bounds }
    have settled : Ensures KeepsKinds s (StoreM.setShape t (.typeVariable e upper)) fun _ _ => True :=
      ⟨k.updateShape stands.2 bound, trivial⟩
    refine settled.lift_bind fun _ s₁ move₁ _ => ?_
    have stands₁ := stands.carry move₁.carries
    have published : Ensures KeepsKinds s₁ (StoreM.publish record) _ :=
      publish_kinds move₁.kinded stands₁.1 ⟨some_, by simp [ElementRecord.typeParameters], fun _ => stands₁.2, by simp [ElementKind.isContainer]⟩
    refine ⟨published.1, ⟨published.1.carries.kind stands₁.1, ?_⟩,
      (sight.carry move₁.carries).carry published.1.carries⟩
    rw [isComplete, Option.isSome_iff_exists]
    exact ⟨_, published.2⟩
  rw [TypeParameterDecl.wellKinded, List.all_eq_true] at fits
  have written : ∀ b ∈ p.bounds, b.wellKinded ∧ isBoundKind b.kind := fun b mem => by simpa using fits b mem
  rw [completeTypeParameter]
  refine (resolveAll_kinds k sight p.bounds fun b mem => (written b mem).1).resolve_bind
    fun bounds sc₁ s₁ move₁ told => ?_
  obtain ⟨resolved, sight₁⟩ := told
  have bound : ∀ b ∈ bounds, s₁.Is isBoundKind b := fun b mem => by
    obtain ⟨t, mem', resolves⟩ := written_of_resolved resolved mem
    exact resolves.fits (written t mem').2 rfl
  have stands₁ := stands.carry move₁.carries
  rcases bounds with _ | ⟨b, _ | ⟨b', rest⟩⟩
  · refine (StoreM.objectType_kinds move₁.kinded).lift_bind fun upper s₂ move₂ object => ?_
    have bound : s₂.Is isBoundKind upper := object.imp fun k same => by rw [eq_of_beq same]; rfl
    refine finish move₂.kinded (stands₁.carry move₂.carries) (sight₁.carry move₂.carries) bound ?_
    simpa using (ne_none_of_bound move₂.kinded bound).symm
  · refine finish move₁.kinded stands₁ sight₁ (bound b (by simp)) ?_
    simpa using (ne_none_of_bound move₁.kinded (bound b (by simp))).symm
  · have admits : s₁.Admits (.intersection (b :: b' :: rest)) := fun b mem =>
      (bound b mem).imp fun k => by cases k <;> decide
    refine (ResolveM.newType_kinds move₁.kinded sight₁ admits).resolve_bind fun upper sc₂ s₂ move₂ told => ?_
    obtain ⟨shape, sight₂⟩ := told
    refine finish move₂.kinded (stands₁.carry move₂.carries) sight₂ ⟨_, shape, rfl⟩ fun mem => ?_
    exact ne_none_of_bound move₁.kinded (bound _ mem) rfl

theorem completeAll_kinds (owner : ElementId) (pairs : List (TypeParameterDecl × ElementId × TypeId)) (k : s.Kinded)
    (sight : sc.Variables s) (fits : ∀ c ∈ pairs, c.1.wellKinded) (stand : ∀ c ∈ pairs, Stands s c.2) :
    Ensures KeepsKinds s ((pairs.forM fun (p, e, t) => completeTypeParameter owner p e t : ResolveM Unit) sc)
      fun r s' => (∀ c ∈ pairs, s'.KnownParameter c.2.1) ∧ r.2.Variables s' := by
  induction pairs generalizing s sc with
  | nil => exact .pure k.stays ⟨nofun, sight⟩
  | cons c rest ih =>
    refine (completeTypeParameter_kinds k sight (stand c (by simp)) (fits c (by simp))).resolve_bind
      fun _ sc₁ s₁ move₁ ⟨known, sight₁⟩ => ?_
    refine (ih move₁.kinded sight₁ (fun c mem => fits c (by simp [mem]))
      fun c mem => (stand c (by simp [mem])).carry move₁.carries).imp fun r s₂ move₂ ⟨others, sight₂⟩ => ?_
    refine ⟨fun c' mem => ?_, sight₂⟩
    rcases List.mem_cons.mp mem with rfl | mem
    · exact move₂.carries.parameters _ known
    · exact others c' mem

theorem enterTypeParameters_kinds (owner : ElementId) {ps : List TypeParameterDecl} (fits : ps.all (·.wellKinded))
    (k : s.Kinded) (sight : sc.Variables s) :
    Ensures KeepsKinds s (enterTypeParameters owner ps sc) fun r s' =>
      (∀ v ∈ r.1, s'.KnownParameter v.1 ∧ s'.Is (· == .typeVariable) v.2) ∧ r.2.Variables s' := by
  have reserved : Ensures KeepsKinds s (ps.mapM (reserveTypeParameter owner) sc) fun r s' =>
      r.1.length = ps.length ∧ (∀ v ∈ r.1, Stands s' v) ∧ r.2.Variables s' := by
    refine .resolve_mapM (fun done vs sc' s' => vs.length = done.length ∧ (∀ v ∈ vs, Stands s' v) ∧ sc'.Variables s')
      k.stays ⟨rfl, nofun, sight⟩ ?_
    rintro done p vs sc' s' move ⟨length, stand, sight'⟩
    refine (reserve_kinds move.kinded sight' p).imp fun r s'' move' ⟨stands, sight''⟩ =>
      ⟨by simp [length], fun v mem => ?_, sight''⟩
    rcases List.mem_append.mp mem with old | last
    · exact (stand v old).carry move'.carries
    · rw [List.mem_singleton.mp last]
      exact stands
  refine reserved.resolve_bind fun vs sc₁ s₁ move₁ ⟨length, stand, sight₁⟩ => ?_
  have seconds : (ps.zip vs).map (·.2) = vs := List.map_snd_zip (Nat.le_of_eq length)
  refine (completeAll_kinds owner (ps.zip vs) move₁.kinded sight₁
    (fun c mem => List.all_eq_true.mp fits c.1 (List.of_mem_zip mem).1)
    fun c mem => stand c.2 (List.of_mem_zip mem).2).resolve_bind fun _ sc₂ s₂ move₂ ⟨known, sight₂⟩ => ?_
  refine .pure move₂.kinded.stays ⟨fun v mem => ?_, sight₂⟩
  obtain ⟨c, paired, rfl⟩ := List.mem_map.mp (seconds.symm ▸ mem)
  exact ⟨known c paired, move₂.carries.kinds _ _ (stand c.2 mem).2⟩

end typeParameters

section members

variable {owner : ElementId}

theorem newVariable_kinds (owner : ElementId) {kind : ElementKind} (plain : kind ≠ .typeParameter ∧ ¬ kind.isContainer)
    (name : String) (t : TypeId) (nesting : Nesting) (modifiers : List Modifier) :
    MindsKinds (newVariable owner kind name t nesting modifiers) :=
  MindsKinds.lift fun _ k =>
    ⟨k.pushSlot ⟨nofun, nofun, fun same => absurd same plain.1, fun container => absurd container plain.2⟩, trivial⟩

theorem enterParameter_kinds (owner : ElementId) (name : String) {t : TypeExpr} (fits : t.wellKinded) :
    MindsKinds (enterParameter owner name t) :=
  (MindsKinds.resolve fits).bind fun t =>
    (newVariable_kinds owner (by decide) name t .body []).bind fun _ => .pure _

theorem enterExecutable_kinds (answers : AnswersKinds again) (owner : ElementId) (ownerType : TypeId)
    {kind : ElementKind} (executable : kind.isExecutable) {d : ExecutableDecl}
    (fits : { d with returnType := .void }.wellKinded) (returns : kind ≠ .constructor → d.returnType.wellKinded) :
    MindsKinds (enterExecutable again owner ownerType kind d) := by
  obtain ⟨⟨⟨⟨generic, parameters⟩, -⟩, thrown⟩, annotations⟩ := by
    simpa only [ExecutableDecl.wellKinded, Bool.and_eq_true] using fits
  have plain : kind ≠ .typeParameter ∧ ¬ kind.isContainer := by
    revert executable
    cases kind <;> decide
  intro sc s k sight
  rw [enterExecutable]
  refine (newSlot_kinds k rfl).lift_bind fun id s₁ move₁ there => .scope ?_
  have sight₁ := sight.carry move₁.carries
  refine (Ensures.block (P := fun _ _ => True) ?_).resolve_bind fun _ sc₂ s₂ move₂ told => ?_
  · refine (enterTypeParameters_kinds id generic move₁.kinded sight₁).resolve_bind
      fun vs sc₂ s₂ move₂ entered => ?_
    obtain ⟨known, sight₂⟩ := entered
    have result : MindsKinds (if kind = .constructor then Pure.pure .void else resolve d.returnType) := by
      split <;> rename_i same
      · exact .pure _
      · exact .resolve (returns same)
    refine .ite_bind (result sc₂ s₂ move₂.kinded sight₂) fun returnType sc₃ s₃ move₃ sight₃ => ?_
    refine (MindsKinds.mapM (fun p mem => enterParameter_kinds id p.1 (List.all_eq_true.mp parameters p mem))
      sc₃ s₃ move₃.kinded sight₃).resolve_bind fun ps sc₄ s₄ move₄ sight₄ => ?_
    refine (MindsKinds.resolveAll (List.all_eq_true.mp thrown) sc₄ s₄ move₄.kinded sight₄).resolve_bind
      fun ts sc₅ s₅ move₅ sight₅ => ?_
    refine (resolveAnnotations_kinds answers annotations sc₅ s₅ move₅.kinded sight₅).resolve_bind
      fun as sc₆ s₆ move₆ sight₆ => ?_
    have signed (signature : Signature) : s₆.Admits (.executable signature) := trivial
    refine (ResolveM.newType_kinds move₆.kinded sight₆ (signed _)).resolve_bind fun asType sc₇ s₇ move₇ _ => .scope ?_
    have carries : s₂.Carries s₇ :=
      move₃.carries.trans (move₄.carries.trans (move₅.carries.trans (move₆.carries.trans move₇.carries)))
    have admits : s₇.AdmitsRecord kind
        { id, kind, simpleName := if kind = .constructor then constructorName else d.name, enclosing := some owner
          modifiers := d.modifiers, nesting := .member, asType, annotations := as
          erroneous := sc.unresolved < sc₇.unresolved
          detail := .executable
            { typeParameters := vs.map (·.1), parameters := ps.map (·.1), returnType, thrown := ts
              varargs := d.varargs } } := by
      refine ⟨by simp [ElementRecord.bounds], fun p mem => ?_, fun same => absurd same plain.1, fun container => absurd container plain.2⟩
      obtain ⟨v, listed, rfl⟩ := List.mem_map.mp mem
      exact carries.parameters _ (known v listed).1
    exact ⟨(publish_kinds move₇.kinded (carries.kind (move₂.carries.kind there)) admits).1, trivial⟩
  · obtain ⟨visible, _⟩ := told
    refine .pure move₂.kinded.stays fun v mem => ?_
    rw [visible] at mem
    exact move₂.carries.kinds _ _ (sight₁ v mem)

theorem enterMember_kinds (answers : AnswersKinds again) (owner : ElementId) (ownerType : TypeId) {m : MemberDecl}
    (fits : m.wellKinded) : MindsKinds (enterMember again owner ownerType m) := by
  cases m with
  | field name t modifiers =>
    exact (MindsKinds.resolve fits).bind fun t => newVariable_kinds owner (by decide) name t .member modifiers
  | enumConstant name => exact newVariable_kinds owner (by decide) name ownerType .member _
  | method d =>
    simp only [MemberDecl.wellKinded, ExecutableDecl.wellKinded, Bool.and_eq_true] at fits
    obtain ⟨⟨⟨⟨generic, parameters⟩, returns⟩, thrown⟩, annotations⟩ := fits
    have others : { d with returnType := .void }.wellKinded := by
      simp only [ExecutableDecl.wellKinded, Bool.and_eq_true]
      exact ⟨⟨⟨⟨generic, parameters⟩, rfl⟩, thrown⟩, annotations⟩
    exact enterExecutable_kinds answers owner ownerType rfl others fun _ => returns
  | constructor d => exact enterExecutable_kinds answers owner ownerType rfl fits (by simp)
  | recordComponent name t =>
    exact (MindsKinds.resolve fits).bind fun t => newVariable_kinds owner (by decide) name t .member []

end members

section types

theorem superclassOf_kinds {header : TypeHeader} (fits : header.superclass.all (·.wellKinded)) (name : String)
    {asType : TypeId} (k : s.Kinded) (sight : sc.Variables s) (own : s.Is (· == .declared) asType) :
    Ensures KeepsKinds s (superclassOf header name asType sc) fun r s' => r.2.Variables s' := by
  have usage {name : String} {ts : List TypeId} (kinds : ∀ t ∈ ts, s.Is (· == .declared) t)
      (count : ∀ e, s.typeElement? name = some e → ts = [] ∨ ts.length = s.arity e) :
      Ensures KeepsKinds s ((liftM (usageOf name ts) : ResolveM TypeId) sc) fun r s' => r.2.Variables s' := by
    have made : Ensures KeepsKinds s (usageOf name ts) fun _ _ => True := by
      refine .get ?_
      cases named : s.typeElement? name with
      | none => exact .pure k.stays trivial
      | some e =>
        have admits : s.Admits (.declared .none e ts) :=
          ⟨k.typeElements name e named, count e named,
            fun t mem => (kinds t mem).imp fun k same => by rw [eq_of_beq same]; rfl⟩
        exact (StoreM.newType_kinds k admits).imp fun _ _ _ _ => trivial
    exact ⟨made.1, sight.carry made.1.carries⟩
  have implied : Ensures KeepsKinds s ((if name = objectName then return .none
      else (StoreM.objectType : StoreM TypeId) : ResolveM TypeId) sc) fun r s' => r.2.Variables s' := by
    split
    · exact .pure k.stays sight
    · have object := StoreM.objectType_kinds k
      exact ⟨object.1, sight.carry object.1.carries⟩
  rw [superclassOf]
  revert implied fits
  generalize (if name = objectName then return .none
    else (StoreM.objectType : StoreM TypeId) : ResolveM TypeId) = m
  generalize header.kind = kind, header.superclass = upper
  intro fits implied
  split
  · obtain ⟨e, named, one⟩ := k.enums
    refine usage (by simpa using own) fun e' named' => ?_
    cases named.symm.trans named'
    exact .inr (by rw [one]; rfl)
  · exact usage (by simp) fun _ _ => .inl rfl
  · exact MindsKinds.resolve fits sc s k sight
  · exact implied
  · exact .pure k.stays sight

theorem interfacesOf_kinds {header : TypeHeader} (superclass : header.superclass.all (·.wellKinded))
    (interfaces : header.interfaces.all (·.wellKinded)) : MindsKinds (interfacesOf header) := by
  refine (MindsKinds.resolveAll (List.all_eq_true.mp interfaces)).bind fun ts => ?_
  cases same : header.superclass with
  | none => exact .pure _
  | some t =>
    dsimp only
    split
    · exact (MindsKinds.resolve (by simpa [same] using superclass)).bind fun _ => .pure _
    · exact .pure _

theorem typeRecord_kinds (answers : AnswersKinds again) {slot : Slot} {id : ElementId} {header : TypeHeader}
    (nesting : Nesting) (fits : header.wellKinded) (isType : slot.kind.isType) (k : s.Kinded)
    (there : s.kind? id = some slot.kind) (arity : header.typeParameters.length = s.arity id)
    (sight : sc.Variables s) :
    Ensures KeepsKinds s (typeRecord again id slot header nesting sc) fun r s' => s'.AdmitsRecord slot.kind r.1 := by
  obtain ⟨⟨⟨⟨generic, superclass⟩, interfaces⟩, members⟩, annotations⟩ := by
    simpa only [TypeHeader.wellKinded, Bool.and_eq_true] using fits
  have type : s.IsType id := ⟨slot.kind, there, isType⟩
  have length : (enterTypeParameters id header.typeParameters sc s).1.1.length = header.typeParameters.length :=
    enterTypeParameters_length id header.typeParameters sc s
  have entered : Ensures KeepsKinds s (enterTypeParameters id header.typeParameters sc) fun r s' =>
      r.1.length = s.arity id ∧ (∀ v ∈ r.1, s'.KnownParameter v.1 ∧ s'.Is (· == .typeVariable) v.2) ∧
        r.2.Variables s' :=
    have made := enterTypeParameters_kinds id generic k sight
    ⟨made.1, length.trans arity, made.2⟩
  refine entered.resolve_bind fun vs sc₁ s₁ move₁ ⟨count, known, sight₁⟩ => ?_
  have admits : s₁.Admits (.declared .none id (vs.map (·.2))) := by
    refine ⟨move₁.carries.isType type, .inr ?_, fun t mem => ?_⟩
    · rw [List.length_map, count, move₁.carries.arity type]
    · obtain ⟨v, listed, rfl⟩ := List.mem_map.mp mem
      exact (known v listed).2.imp fun k same => by rw [eq_of_beq same]; rfl
  refine (ResolveM.newType_kinds move₁.kinded sight₁ admits).resolve_bind fun asType sc₂ s₂ move₂ ⟨shape, sight₂⟩ => ?_
  refine (superclassOf_kinds superclass slot.qualifiedName move₂.kinded sight₂ ⟨_, shape, rfl⟩).resolve_bind
    fun above sc₃ s₃ move₃ sight₃ => ?_
  refine (interfacesOf_kinds superclass interfaces sc₃ s₃ move₃.kinded sight₃).resolve_bind
    fun others sc₄ s₄ move₄ sight₄ => ?_
  refine (MindsKinds.mapM (fun m mem => enterMember_kinds answers id asType (List.all_eq_true.mp members m mem))
    sc₄ s₄ move₄.kinded sight₄).resolve_bind fun es sc₅ s₅ move₅ sight₅ => ?_
  refine (resolveAnnotations_kinds answers annotations sc₅ s₅ move₅.kinded sight₅).resolve_bind
    fun as sc₆ s₆ move₆ _ => .scope ?_
  have carries : s₁.Carries s₆ :=
    move₂.carries.trans (move₃.carries.trans (move₄.carries.trans (move₅.carries.trans move₆.carries)))
  refine .pure move₆.kinded.stays ⟨nofun, fun p mem => ?_, fun same => ?_, fun container => ?_⟩
  · obtain ⟨v, listed, rfl⟩ := List.mem_map.mp mem
    exact carries.parameters _ (known v listed).1
  · rw [same] at isType
    cases isType
  · exact absurd container (ElementKind.isType_not_container isType)

theorem completeType_kinds (answers : AnswersKinds again) {slot : Slot} {id : ElementId} {header : TypeHeader}
    (fits : header.wellKinded) (isType : slot.kind.isType) (k : s.Kinded) (there : s.kind? id = some slot.kind)
    (arity : header.typeParameters.length = s.arity id) :
    Ensures KeepsKinds s (completeType again id slot header) fun r s' => s'.AdmitsRecord slot.kind r := by
  have rest (nesting : Nesting) (sc : Scope) {s₁ : Store} (move : s.KeepsKinds s₁) (sight : sc.Variables s₁) :
      Ensures KeepsKinds s₁ ((typeRecord again id slot header nesting).run' sc) fun r s' =>
        s'.AdmitsRecord slot.kind r := by
    refine .map (typeRecord_kinds answers nesting fits isType move.kinded (move.carries.kind there) ?_ sight)
    rw [move.carries.arity ⟨_, there, isType⟩, arity]
  have both (nesting : Nesting) : Ensures KeepsKinds s (do
      let visible ← if nesting = .member ∧ .static ∉ modifiersOf header nesting
        then visibleVariables again slot.enclosing else pure []
      (typeRecord again id slot header nesting).run'
        { package := s.packageName id, owner := slot.qualifiedName, visible }) fun r s' =>
        s'.AdmitsRecord slot.kind r := by
    dsimp only
    split
    · have visible := visibleVariables_kinds (fun move => move) (fun s e stays => answers s e stays.kinded)
        slot.enclosing k.stays
      exact visible.bind fun visible s₁ move known => rest nesting _ move known
    · exact rest nesting _ k.stays nofun
  exact .get (both _)

end types

section complete

variable {e : ElementId}

theorem serve_kinds (k : s.Kinded) {r : ElementRecord} {kind : ElementKind} (id : r.id = e)
    (there : s.kind? e = some kind) (admits : s.AdmitsRecord kind r) :
    Ensures KeepsKinds s (do
      modify fun s => { s with completions := s.completions + 1 }
      StoreM.publish r
      return r) fun r s' => s'.record? e = some r := by
  subst id
  have counted : s.KeepsKinds { s with completions := s.completions + 1 } := k.retouch rfl rfl rfl k.usage
  have published : Ensures KeepsKinds { s with completions := s.completions + 1 } (StoreM.publish r) _ :=
    publish_kinds counted.kinded (counted.carries.kind there) (admits.carry counted.carries)
  exact ⟨Movement.trans counted published.1, published.2⟩

theorem step_kinds (answers : AnswersKinds again) : AnswersKinds (step again) := by
  intro s e k
  refine .get ?_
  cases found : s.slot? e with
  | none => exact .pure k.stays (.inr ⟨by simp [isComplete_iff, found], rfl⟩)
  | some slot =>
    dsimp only
    have fits := k.slots e slot found
    have state_of {state : SlotState} (same : slot.state = state) (waits : ∀ r, state ≠ .complete r) :
        ¬ s.isComplete e := by
      rw [isComplete_iff]
      rintro ⟨slot', r, found', done⟩
      cases found.symm.trans found'
      exact waits r (same.symm.trans done)
    cases state : slot.state with
    | complete r => exact .pure k.stays (.inl (record?_eq_some_iff.mpr ⟨slot, found, state⟩))
    | completing => exact .pure k.stays (.inr ⟨state_of state (by simp), rfl⟩)
    | pending work =>
      have opened : s.KeepsKinds (s.setState e .completing) :=
        k.setState (fun _ _ => trivial) fun known => absurd known.2 (state_of state (by simp))
      have there : (s.setState e .completing).kind? e = some slot.kind :=
        opened.carries.kind (kind?_eq_some_iff.mpr ⟨slot, found, rfl⟩)
      have opens : Ensures KeepsKinds s (modify (·.setState e .completing)) fun _ s' => s' = s.setState e .completing :=
        ⟨opened, rfl⟩
      refine opens.bind ?_
      rintro _ _ _ rfl
      simp only [AdmitsSlot, state] at fits
      cases work with
      | container =>
        have admits : (s.setState e .completing).AdmitsRecord slot.kind (containerRecord e slot) :=
          ⟨by simp [containerRecord, ElementRecord.bounds], by simp [containerRecord, ElementRecord.typeParameters],
            fun same => absurd same fits, fun _ => by simp only [containerRecord]; split <;> simp⟩
        exact (serve_kinds opened.kinded rfl there admits).imp fun _ _ _ => .inl
      | type header =>
        obtain ⟨announced, fits⟩ := fits
        have isType : slot.kind.isType := announced.kind ▸ announced.isType
        have arity : header.typeParameters.length = (s.setState e .completing).arity e := by
          rw [opened.carries.arity ⟨_, kind?_eq_some_iff.mpr ⟨slot, found, rfl⟩, isType⟩, Store.arity, found]
          exact announced.arity
        have found : Ensures KeepsKinds (s.setState e .completing) (completeType again e slot header) fun r s' =>
            r.id = e ∧ s'.AdmitsRecord slot.kind r :=
          have completed := completeType_kinds answers fits isType opened.kinded there arity
          ⟨completed.1, completeType_id again e slot header _, completed.2⟩
        refine found.bind fun r s' move told => ?_
        obtain ⟨id, admits⟩ := told
        exact (serve_kinds move.kinded id (move.carries.kind there) admits).imp fun _ _ _ => .inl

def recorded : Again := fun e => do
  match (← get).record? e with
  | some r => return r
  | none => return .unknown e

theorem nested_kinds (depth : Nat) : AnswersKinds (nested recorded depth) := by
  induction depth with
  | zero =>
    intro s e k
    refine .get ?_
    cases complete : s.record? e with
    | some r => exact .pure k.stays (.inl complete)
    | none => exact .pure k.stays (.inr ⟨by simp [isComplete, complete], rfl⟩)
  | succ depth ih => exact step_kinds ih

end complete

end Completion

namespace StoreM

open Completion

theorem complete_kinds {s : Store} (orderly : s.Orderly) (k : s.Kinded) (e : ElementId) :
    s.KeepsKinds (complete e s).2 := by
  rw [← complete_eq_nested orderly recorded (Nat.lt_succ_self _)]
  exact (nested_kinds _ s e k).1

end StoreM

end Nominal
