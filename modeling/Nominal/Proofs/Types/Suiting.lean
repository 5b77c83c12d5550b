import Nominal.Proofs.Store.KindedCompletion
import Nominal.Proofs.Types.Substituting
import Nominal.Types.Erasure
/-!
Erasure and substitution among well-kinded types. Erasure leaves something that may be a component wherever it is
left of a type that may be one. Substitution puts wildcards where only references may be if a variable for which a
wildcard stands is a component or a bound; of all other types it makes well-kinded ones.
-/

namespace Nominal

open StoreM (isComponentKind isArgumentKind isBoundKind)

def TypeShape.replaced : TypeShape → List TypeId
  | array c => [c]
  | declared _ _ args => args
  | wildcard upper lower => upper.toList ++ lower.toList
  | executable sig => sig.receiver :: sig.parameters ++ sig.result :: sig.thrown
  | union ts | intersection ts => ts
  | primitive _ | noType _ | null | error _ | typeVariable .. => []

def TypeShape.guarded : TypeShape → List TypeId
  | array c => [c]
  | wildcard upper lower => upper.toList ++ lower.toList
  | _ => []

theorem TypeShape.parts_of_replaced {shape : TypeShape} {p : TypeId} (part : p ∈ shape.replaced) : p ∈ shape.parts := by
  cases shape <;> simp_all [replaced, parts]

theorem TypeShape.replaced_of_guarded {shape : TypeShape} {p : TypeId} (part : p ∈ shape.guarded) :
    p ∈ shape.replaced := by
  cases shape <;> simp_all [guarded, replaced]

namespace Store

/-- Somewhere in a type the variable of a type parameter stands where no wildcard may. -/
inductive Exposes (s : Store) (e : ElementId) : TypeId → Prop
  | here {t p : TypeId} {shape : TypeShape} : s.shape? t = some shape → p ∈ shape.guarded → s.IsVariable e p →
    Exposes s e t
  | inside {t p : TypeId} {shape : TypeShape} : s.shape? t = some shape → p ∈ shape.replaced → Exposes s e p →
    Exposes s e t

def Guards (s : Store) (i : Instantiation) (t : TypeId) : Prop :=
  ∀ e u, i.get? e = some u → s.Is (· == .wildcard) u → ¬ s.Exposes e t

/-- What stands for type parameters may be put in their places. -/
structure Suits (s : Store) (i : Instantiation) (t : TypeId) : Prop where
  arguments : ∀ e u, i.get? e = some u → s.Is isArgumentKind u
  guards : s.Guards i t

def Bounded (s : Store) : Prop := ∀ t e upper, s.shape? t = some (.typeVariable e upper) → s.Is isBoundKind upper

structure Adds (s s' : Store) : Prop extends KeepsKinds s s' where
  shapes : ∀ t shape, s.shape? t = some shape → s'.shape? t = some shape
  bounded : s'.Bounded

instance : Movement Adds where
  trans first second :=
    ⟨Movement.trans first.toKeepsKinds second.toKeepsKinds, fun t shape => second.shapes t shape ∘ first.shapes t shape,
      second.bounded⟩
  stay h := ⟨Movement.stay h.toKeepsKinds, fun _ _ => id, h.bounded⟩

section settled

variable {s s' : Store} {t : TypeId} {e : ElementId} {i : Instantiation}

theorem Kinded.bounded (k : s.Kinded) (h : s.Sound) : s.Bounded := by
  intro t e upper found
  refine Or.resolve_left (k.shapes t _ found) fun nothing => ?_
  obtain ⟨kind, _, unique⟩ := (h.shapes t _ found).typeVariable e upper rfl
  obtain ⟨r, recorded⟩ := h.record_of_owned kind (by decide)
  obtain ⟨slot, there, fits⟩ := h.fits recorded
  obtain ⟨_, _, upper', shape, which⟩ := fits.bound (by simpa [kind?, there] using kind)
  rw [unique r recorded, found] at shape
  cases shape
  subst nothing
  rcases which with one | several
  · exact (k.record kind recorded).bounds (by simp [one])
  · cases (h.initial 0 (.noType .none) rfl).symm.trans several

theorem Exposes.grow (exposes : s.Exposes e t) (move : s.Grown s') : s'.Exposes e t := by
  induction exposes with
  | here found part variable_ =>
    exact .here (move.grows.shape found) part (variable_.imp fun _ => move.grows.shape)
  | inside found part _ ih => exact .inside (move.grows.shape found) part ih

theorem Guards.shrink (guards : s'.Guards i t) (move : s.Grown s') : s.Guards i t := by
  rintro e u stands ⟨shape, found, wild⟩ exposes
  exact guards e u stands ⟨shape, move.grows.shape found, wild⟩ (exposes.grow move)

theorem Suits.inside (suits : s.Suits i t) {shape : TypeShape} (found : s.shape? t = some shape) {p : TypeId}
    (part : p ∈ shape.replaced) : s.Suits i p :=
  ⟨suits.arguments, fun e u stands wild exposes => suits.guards e u stands wild (.inside found part exposes)⟩

theorem Adds.stays (k : s.Kinded) (b : s.Bounded) : s.Adds s := ⟨k.stays, fun _ _ => id, b⟩

theorem Adds.pushType (k : s.Kinded) (b : s.Bounded) {shape : TypeShape} (admits : s.Admits shape)
    (plain : shape.kind ≠ .typeVariable) : s.Adds (s.pushType shape) where
  toKeepsKinds := k.pushType admits
  shapes t old found := by
    have there : t.index < s.types.size := has_type_iff.mpr ⟨old, found⟩
    rw [shape?_push, if_neg (Nat.ne_of_lt there), found]
  bounded t e upper found := by
    rw [shape?_push] at found
    split at found
    · cases found
      exact absurd rfl plain
    · exact (k.pushType admits).carries.kinds _ _ (b t e upper found)

end settled

end Store

namespace StoreM

open Store

variable {s s₀ : Store} {t : TypeId} {i : Instantiation}

theorem newType_adds (k : s.Kinded) (b : s.Bounded) (shape : TypeShape) (admits : s.Admits shape)
    (plain : shape.kind ≠ .typeVariable) : Ensures Adds s (newType shape) fun t s' => s'.shape? t = some shape :=
  ⟨.pushType k b admits plain, (shape?_push shape).trans (if_pos rfl)⟩

theorem objectType_adds (k : s.Kinded) (b : s.Bounded) :
    Ensures Adds s objectType fun t s' => s'.Is (· == .declared) t := by
  refine .get ?_
  cases usage : s.objectUsage with
  | some t => exact .pure (.stays k b) (k.usage t usage)
  | none =>
    obtain ⟨e, named⟩ := k.object
    rw [named]
    dsimp only
    have admits : s.Admits (.declared .none e []) := ⟨k.typeElements _ e named, .inl rfl, by simp⟩
    refine (newType_adds k b _ admits nofun).bind fun t s' move shape => ?_
    have is : s'.Is (· == .declared) t := ⟨_, shape, rfl⟩
    have noted : s'.KeepsKinds { s' with objectUsage := some t } := by
      refine move.kinded.retouch rfl rfl rfl ?_
      rintro _ ⟨⟩
      exact is
    exact ⟨⟨noted, fun _ _ => id, move.bounded⟩, is⟩

section erasure

theorem component_of_erasable {shape : TypeShape} (found : s.shape? t = some shape) (plain : shape.kind ≠ .wildcard)
    (erasable : s.Is isErasable t) : s.Is isComponentKind t := by
  obtain ⟨shape', found', kind⟩ := erasable
  cases found.symm.trans found'
  exact ⟨shape, found, by simpa [isErasable, plain] using kind⟩

theorem isErasable_of_bound {k : TypeKind} (bound : isBoundKind k) : isErasable k := by
  revert bound
  cases k <;> decide

theorem isErasable_of_component {k : TypeKind} (component : isComponentKind k) : isErasable k := by
  rw [isErasable, component, Bool.true_or]

theorem eraseN_adds (k : s.Kinded) (b : s.Bounded) (depth : Nat) (t : TypeId) :
    Ensures Adds s (eraseN depth t) fun u s' => s.Is isErasable t → s'.Is isComponentKind u := by
  have top {s : Store} (k : s.Kinded) (b : s.Bounded) {p : Prop} :
      Ensures Adds s objectType fun u s' => p → s'.Is isComponentKind u :=
    (objectType_adds k b).imp fun u s' _ object _ => object.imp fun k same => by rw [eq_of_beq same]; rfl
  induction depth generalizing s t with
  | zero => exact top k b
  | succ depth ih =>
    rw [eraseN]
    refine .get ?_
    cases found : s.shape? t with
    | none =>
      rw [show s.shape t = .unknown by rw [Store.shape, found]; rfl]
      refine .pure (.stays k b) ?_
      rintro ⟨shape, found', _⟩
      cases found.symm.trans found'
    | some shape =>
      rw [shape_of_shape? found]
      have admits := k.shapes t shape found
      -- A part may be erased after others, and of it something may be left that may be a component.
      have later {s₁ : Store} (move : s.Adds s₁) {p : TypeId} (part : s.Is isErasable p) :
          Ensures Adds s₁ (eraseN depth p) fun u s' => s'.Is isComponentKind u :=
        (ih move.kinded move.bounded p).imp fun u s' _ left => left (move.carries.kinds _ _ part)
      have any {s₁ : Store} (move : s.Adds s₁) (p : TypeId) : Ensures Adds s₁ (eraseN depth p) fun _ _ => True :=
        (ih move.kinded move.bounded p).imp fun _ _ _ _ => trivial
      cases shape with
      | declared enclosing e args =>
        obtain ⟨type, _⟩ := admits
        have raw {s₁ : Store} (move : s.Adds s₁) (outer : TypeId) : s₁.Admits (.declared outer e []) :=
          ⟨move.carries.isType type, .inl rfl, by simp⟩
        have finish {s₁ : Store} (move : s.Adds s₁) (outer : TypeId) : Ensures Adds s₁
            (if args.isEmpty && outer == enclosing then pure t else newType (.declared outer e [])) fun u s' =>
              s.Is isErasable t → s'.Is isComponentKind u := by
          split
          · exact .pure (Movement.stay move) fun erasable =>
              move.carries.kinds _ _ (component_of_erasable found (by simp [TypeShape.kind]) erasable)
          · exact (newType_adds move.kinded move.bounded _ (raw move outer) (by simp [TypeShape.kind])).imp
              fun u s' _ shape _ => ⟨_, shape, rfl⟩
        dsimp only
        split
        · exact finish (.stays k b) .none
        · exact (any (.stays k b) enclosing).bind fun outer s₁ move _ => finish move outer
      | array c =>
        refine (later (.stays k b) (admits.imp fun _ => isErasable_of_component)).bind fun c' s₁ move component => ?_
        split
        · exact .pure (Movement.stay move) fun erasable =>
            move.carries.kinds _ _ (component_of_erasable found (by simp [TypeShape.kind]) erasable)
        · exact (newType_adds move.kinded move.bounded (.array c') component (by simp [TypeShape.kind])).imp
            fun u s' _ shape _ => ⟨_, shape, rfl⟩
      | typeVariable e upper =>
        exact (later (.stays k b) ((b t e upper found).imp fun _ => isErasable_of_bound)).imp fun _ _ _ left _ => left
      | wildcard upper lower =>
        cases upper with
        | none => exact top k b
        | some u =>
          exact (later (.stays k b) ((admits.2.1 u rfl).imp fun _ => isErasable_of_bound)).imp fun _ _ _ left _ => left
      | intersection ts | union ts =>
        cases ts with
        | nil => exact .pure (.stays k b) (component_of_erasable found (by simp [TypeShape.kind]))
        | cons u us => exact (later (.stays k b) (admits u (by simp))).imp fun _ _ _ left _ => left
      | executable sig =>
        have all (ts : List TypeId) {s₁ : Store} (move : s.Adds s₁) :
            Ensures Adds s₁ (ts.mapM (eraseN depth)) fun _ _ => True :=
          (Ensures.mapM_all (P := fun _ _ => True) (Movement.stay move) (fun _ _ _ _ => id)
            fun p _ s' later => any (Movement.trans move later) p).imp fun _ _ _ _ => trivial
        refine (any (.stays k b) sig.receiver).bind fun receiver s₁ move₁ _ => ?_
        refine (all sig.parameters move₁).bind fun parameters s₂ move₂ _ => ?_
        have from₂ := Movement.trans move₁ move₂
        refine (any from₂ sig.result).bind fun result s₃ move₃ _ => ?_
        have from₃ := Movement.trans from₂ move₃
        refine (all sig.thrown from₃).bind fun thrown s₄ move₄ _ => ?_
        refine (newType_adds move₄.kinded move₄.bounded (.executable _) trivial (by simp [TypeShape.kind])).imp fun _ _ _ _ => ?_
        rintro ⟨shape, found', kind⟩
        cases found.symm.trans found'
        cases kind
      | primitive p =>
        exact .pure (.stays k b) (component_of_erasable found (by cases p <;> decide))
      | noType n => exact .pure (.stays k b) (component_of_erasable found (by cases n <;> decide))
      | null | error _ => exact .pure (.stays k b) (component_of_erasable found (by simp [TypeShape.kind]))

end erasure

section substitution

def Replaces (s : Store) (i : Instantiation) (t u : TypeId) (s' : Store) : Prop :=
  (∃ e, s.IsVariable e t ∧ i.get? e = some u) ∨ ∀ p, s.Is p t → s'.Is p u

theorem Replaces.carry {u : TypeId} {s' s'' : Store} (replaces : Replaces s i t u s') (c : s'.Carries s'') :
    Replaces s i t u s'' :=
  replaces.imp id fun same p is => c.kinds p u (same p is)

theorem Replaces.fits {u c : TypeId} {s' : Store} (replaces : Replaces s i c u s') (carries : s.Carries s')
    (suits : s.Suits i t) {p : TypeKind → Bool} (is : s.Is p c) (bound : ∀ k, isBoundKind k → p k)
    (guarded : p .wildcard ∨ ∀ e, s.IsVariable e c → s.Exposes e t) : s'.Is p u := by
  rcases replaces with ⟨e, variable_, stands⟩ | same
  · obtain ⟨shape, found, argument⟩ := suits.arguments e u stands
    refine carries.kinds _ _ ⟨shape, found, ?_⟩
    by_cases wild : shape.kind = .wildcard
    · rcases guarded with may | exposes
      · rwa [wild]
      · exact absurd (exposes e variable_) (suits.guards e u stands ⟨shape, found, by simp [wild]⟩)
    · refine bound _ ?_
      revert argument wild
      cases shape.kind <;> decide
  · exact same p is

theorem Replaces.of_kind {u : TypeId} {s' : Store} {shape shape' : TypeShape} (found : s.shape? t = some shape)
    (made : s'.shape? u = some shape') (kind : shape'.kind = shape.kind) : Replaces s i t u s' := by
  refine .inr fun p ⟨old, found', is⟩ => ⟨shape', made, ?_⟩
  cases found.symm.trans found'
  rwa [kind]

theorem Replaces.all_fit {ts us : List TypeId} {s' : Store} (replaces : List.Forall₂ (Replaces s i · · s') ts us)
    (carries : s.Carries s') (suits : s.Suits i t) {p : TypeKind → Bool} (are : ∀ t ∈ ts, s.Is p t)
    (bound : ∀ k, isBoundKind k → p k) (wild : p .wildcard) : ∀ u ∈ us, s'.Is p u := by
  induction replaces with
  | nil => nofun
  | cons first _ ih =>
    exact List.forall_mem_cons.mpr
      ⟨first.fits carries suits (are _ (by simp)) bound (.inl wild), ih fun t mem => are t (by simp [mem])⟩

theorem substituteN_adds (h : s₀.Sound) (known : s₀.HasType t) (suits : s₀.Suits i t) (move : s₀.Adds s) (fuel : Nat) :
    Ensures Adds s (substituteN i fuel t) (Replaces s₀ i t) := by
  have unchanged {t : TypeId} {s : Store} (move : s₀.Adds s) : Replaces s₀ i t t s :=
    .inr fun p => move.carries.kinds p t
  induction fuel generalizing s t with
  | zero => exact .pure (Movement.stay move) (unchanged move)
  | succ fuel ih =>
    obtain ⟨shape, found⟩ := has_type_iff.mp known
    have fits := h.shapes t shape found
    have admits := move.start.shapes t shape found
    have part {s₁ : Store} (move : s₀.Adds s₁) (p : TypeId) (mem : p ∈ shape.replaced) :
        Ensures Adds s₁ (substituteN i fuel p) (Replaces s₀ i p) :=
      ih (fits.part_known known (TypeShape.parts_of_replaced mem)) (suits.inside found mem) move
    have all {s₁ : Store} (move : s₀.Adds s₁) (ps : List TypeId) (mem : ∀ p ∈ ps, p ∈ shape.replaced) :
        Ensures Adds s₁ (ps.mapM (substituteN i fuel)) fun us s' => List.Forall₂ (Replaces s₀ i · · s') ps us :=
      .mapM (Movement.stay move) (fun _ _ _ _ later replaces => replaces.carry later.carries)
        fun p mem' s' later => part (Movement.trans move later) p (mem p mem')
    -- What is made of the type has its kind.
    have make {s₁ : Store} (move : s₀.Adds s₁) (shape' : TypeShape) (fits : s₁.Admits shape')
        (kind : shape'.kind = shape.kind) (plain : shape.kind ≠ .typeVariable) :
        Ensures Adds s₁ (newType shape') (Replaces s₀ i t) :=
      (newType_adds move.kinded move.bounded _ fits (kind ▸ plain)).imp fun _ _ _ made => .of_kind found made kind
    refine .get ?_
    rw [shape_of_shape? (move.shapes t shape found)]
    cases shape with
    | typeVariable e upper =>
      dsimp only
      cases stands : i.get? e with
      | none => exact .pure (Movement.stay move) (unchanged move)
      | some u => exact .pure (Movement.stay move) (.inl ⟨e, ⟨upper, found⟩, stands⟩)
    | declared enclosing e args =>
      obtain ⟨type, count, are⟩ := admits
      refine (all move args fun _ => id).bind fun args' s₁ move₁ replaces => ?_
      have from₁ := Movement.trans move move₁
      split
      · exact .pure (Movement.stay from₁) (unchanged from₁)
      · refine make from₁ _ ⟨from₁.carries.isType type, ?_, ?_⟩ rfl (by simp [TypeShape.kind])
        · rw [from₁.carries.arity type, ← replaces.length_eq]
          refine count.imp (fun raw => ?_) id
          subst raw
          cases replaces
          rfl
        · exact Replaces.all_fit replaces from₁.carries suits are (fun k => by cases k <;> decide) rfl
    | array c =>
      refine (part move c (by simp [TypeShape.replaced])).bind fun c' s₁ move₁ replaces => ?_
      have from₁ := Movement.trans move move₁
      split
      · exact .pure (Movement.stay from₁) (unchanged from₁)
      · have component : s₁.Is isComponentKind c' :=
          replaces.fits from₁.carries suits admits (fun k => by cases k <;> decide)
            (.inr fun e => .here found (by simp [TypeShape.guarded]))
        exact make from₁ (.array c') component rfl (by simp [TypeShape.kind])
    | wildcard upper lower =>
      obtain ⟨one, above, below⟩ := admits
      have bound {s₁ : Store} (move : s₀.Adds s₁) (b? : Option TypeId) (are : ∀ b ∈ b?, s₀.Is isBoundKind b)
          (mem : ∀ b ∈ b?, b ∈ upper.toList ++ lower.toList) :
          Ensures Adds s₁ (b?.mapM (substituteN i fuel)) fun u? s' =>
            (b? = none → u? = none) ∧ ∀ u ∈ u?, s'.Is isBoundKind u := by
        cases b? with
        | none => exact .pure (Movement.stay move) ⟨id, by simp⟩
        | some b =>
          refine .map ((part move b (mem b rfl)).imp fun u s' later replaces => ⟨by simp, ?_⟩)
          rintro _ ⟨⟩
          exact replaces.fits (Movement.trans move later).carries suits (are b rfl) (fun _ => id)
            (.inr fun e => .here found (mem b rfl))
      refine (bound move upper above (by simp_all)).bind fun upper' s₁ move₁ told => ?_
      obtain ⟨noUpper, above'⟩ := told
      have from₁ := Movement.trans move move₁
      refine (bound from₁ lower below (by simp_all)).bind fun lower' s₂ move₂ told => ?_
      obtain ⟨noLower, below'⟩ := told
      have admits' : s₂.Admits (.wildcard upper' lower') :=
        ⟨one.imp noUpper noLower, fun b mem => move₂.carries.kinds _ _ (above' b mem), below'⟩
      exact make (Movement.trans from₁ move₂) _ admits' rfl (by simp [TypeShape.kind])
    | executable sig =>
      refine (all move sig.parameters fun p mem => by simp [TypeShape.replaced, mem]).bind
        fun parameters s₁ move₁ _ => ?_
      have from₁ := Movement.trans move move₁
      refine (part from₁ sig.result (by simp [TypeShape.replaced])).bind fun result s₂ move₂ _ => ?_
      have from₂ := Movement.trans from₁ move₂
      refine (all from₂ sig.thrown fun p mem => by simp [TypeShape.replaced, mem]).bind fun thrown s₃ move₃ _ => ?_
      have from₃ := Movement.trans from₂ move₃
      refine (part from₃ sig.receiver (by simp [TypeShape.replaced])).bind fun receiver s₄ move₄ _ => ?_
      exact make (Movement.trans from₃ move₄) (.executable _) trivial rfl (by simp [TypeShape.kind])
    | intersection ts =>
      refine (all move ts fun _ => id).bind fun us s₁ move₁ replaces => ?_
      have from₁ := Movement.trans move move₁
      have erasable := Replaces.all_fit replaces from₁.carries suits admits (fun _ => isErasable_of_bound) rfl
      exact make from₁ (.intersection us) erasable rfl (by simp [TypeShape.kind])
    | union ts =>
      refine (all move ts fun _ => id).bind fun us s₁ move₁ replaces => ?_
      have from₁ := Movement.trans move move₁
      have erasable := Replaces.all_fit replaces from₁.carries suits admits (fun _ => isErasable_of_bound) rfl
      exact make from₁ (.union us) erasable rfl (by simp [TypeShape.kind])
    | primitive _ | noType _ | null | error _ => exact .pure (Movement.stay move) (unchanged move)

theorem substitute_adds (h : s.Sound) (k : s.Kinded) (known : s.HasType t) (suits : s.Suits i t) :
    s.Adds (substitute i t s).2 := by
  have stays : s.Adds s := .stays k (k.bounded h)
  suffices Ensures Adds s (substitute i t) fun _ _ => True from this.1
  unfold substitute
  split
  · exact .pure stays trivial
  · exact .get ((substituteN_adds h known suits stays _).imp fun _ _ _ _ => trivial)

end substitution

end StoreM

end Nominal
