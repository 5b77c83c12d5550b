import Nominal.Proofs.Order.Abreast
/-!
What a completion does in its scope, side by side in two stores: every step of it adds the same to both, under
handles that are paired off.
-/

namespace Nominal

variable {out : Outset}

open Completion Store

def Pairing.Parameter (w : Pairing out) (y y' : ElementId × TypeId) : Prop :=
  w.own.element y.1 y'.1 ∧ w.own.type y.2 y'.2

/-- The scopes are those of one declaration: names resolve alike, and the same variables are in sight. -/
structure Scope.Sees (home : Scope) (w : Pairing out) (sc sc' : Scope) : Prop where
  place : sc.package = home.package ∧ sc.owner = home.owner
  place' : sc'.package = home.package ∧ sc'.owner = home.owner
  visible : List.Forall₂ (ByName.Entry w.bound) sc.visible sc'.visible
  unresolved : sc.unresolved = sc'.unresolved

theorem Scope.Sees.mono {home sc sc' : Scope} {w v : Pairing out} (le : w ≤ v) (sees : home.Sees w sc sc') :
    home.Sees v sc sc' :=
  { sees with visible := sees.visible.imp fun _ _ entry => ⟨entry.1, le.2.2 entry.2⟩ }

theorem Scope.Sees.typeElement {home sc sc' : Scope} {w : Pairing out} (sees : home.Sees w sc sc') (s : Store)
    (name : String) : sc.typeElement? s name = home.typeElement? s name ∧ sc'.typeElement? s name = home.typeElement? s name := by
  simp only [Scope.typeElement?, Scope.candidates, sees.place, sees.place', and_self]

theorem Scope.Sees.element {home sc sc' : Scope} {w : Pairing out} (sees : home.Sees w sc sc') (s : Store) (t : TypeExpr) :
    sc.element? s t = home.element? s t ∧ sc'.element? s t = home.element? s t := by
  cases t with
  | named name args =>
    simp only [Scope.element?, (sees.typeElement s name).1, (sees.typeElement s name).2, and_self]
  | _ => exact ⟨rfl, rfl⟩

theorem Scope.Sees.boundVariable {home sc sc' : Scope} {w : Pairing out} (sees : home.Sees w sc sc') (name : String) :
    Option.Rel w.bound (sc.boundVariable? name) (sc'.boundVariable? name) := ByName.find_entries name sees.visible

namespace Store

variable {s₀ : Store}

def Reference.Walks (R : Reference s₀ s₀.HasElement) (x : ElementId) (home : Scope) {α : Type} (w : Pairing out)
    (m m' : ResolveM α) (P : Pairing out → α → α → Prop) : Prop :=
  ∀ v s r sc sc', w ≤ v → R.Abreast x v s r → home.Sees v sc sc' →
    R.Alongside x v s r (m sc) (m' sc') fun u a a' => home.Sees u a.2 a'.2 ∧ P u a.1 a'.1

open Reference

variable {R : Reference s₀ s₀.HasElement} {x : ElementId} {home : Scope} {w v : Pairing out} {s r : Store}

theorem Reference.Alongside.store {α : Type} {f f' : Store → ResolveM α} {sc sc' : Scope}
    {P : Pairing out → α × Scope → α × Scope → Prop} (along : R.Alongside x w s r (f s sc) (f' r sc') P) :
    R.Alongside x w s r ((ResolveM.store >>= f) sc) ((ResolveM.store >>= f') sc') P := along

namespace Reference.Walks

variable {α β : Type} {m m' : ResolveM α} {P : Pairing out → α → α → Prop} {Q : Pairing out → β → β → Prop}

theorem pure {a a' : α} (holds : ∀ v s r, w ≤ v → R.Abreast x v s r → P v a a') :
    R.Walks x home w (Pure.pure a) (Pure.pure a') P :=
  fun v s r _ _ le ab sees => .pure ab ⟨sees, holds v s r le ab⟩

theorem bind {f f' : α → ResolveM β} (first : R.Walks x home w m m' P)
    (next : ∀ v a a', w ≤ v → P v a a' → R.Walks x home v (f a) (f' a') Q) :
    R.Walks x home w (m >>= f) (m' >>= f') Q := fun v s r sc sc' le ab sees =>
  (first v s r sc sc' le ab sees).bind fun u s' r' a a' le' ab' ⟨sees', holds⟩ =>
    next u a.1 a'.1 (Pairing.le_trans le le') holds u s' r' a.2 a'.2 u.le_refl ab' sees'

theorem bindAt {sc sc' : Scope} {f f' : α → ResolveM β} {P : Pairing out → α × Scope → α × Scope → Prop}
    {Q : Pairing out → β × Scope → β × Scope → Prop} (first : R.Alongside x w s r (m sc) (m' sc') P)
    (next : ∀ v, w ≤ v → R.Abreast x v (m sc s).2 (m' sc' r).2 → P v (m sc s).1 (m' sc' r).1 →
      R.Alongside x v (m sc s).2 (m' sc' r).2 (f (m sc s).1.1 (m sc s).1.2) (f' (m' sc' r).1.1 (m' sc' r).1.2) Q) :
    R.Alongside x w s r ((m >>= f) sc) ((m' >>= f') sc') Q := by
  obtain ⟨v, le, ab, holds⟩ := first
  obtain ⟨v', le', rest⟩ := next v le ab holds
  exact ⟨v', Pairing.le_trans le le', rest⟩

theorem imp {P' : Pairing out → α → α → Prop} (walks : R.Walks x home w m m' P)
    (weaker : ∀ v a a', w ≤ v → P v a a' → P' v a a') : R.Walks x home w m m' P' :=
  fun v s r sc sc' le ab sees => (walks v s r sc sc' le ab sees).imp fun u a a' le' ⟨sees', holds⟩ =>
    ⟨sees', weaker u a.1 a'.1 (Pairing.le_trans le le') holds⟩

theorem map {f f' : α → β} (walks : R.Walks x home w m m' P) (holds : ∀ v a a', w ≤ v → P v a a' → Q v (f a) (f' a')) :
    R.Walks x home w (f <$> m) (f' <$> m') Q :=
  fun v _ _ _ _ le ab sees => by
    obtain ⟨u, le', ab', sees', related⟩ := walks v _ _ _ _ le ab sees
    exact ⟨u, le', ab', sees', holds u _ _ (Pairing.le_trans le le') related⟩

theorem scope {f f' : Scope → ResolveM β} (next : ∀ v sc sc', w ≤ v → home.Sees v sc sc' →
    R.Walks x home v (f sc) (f' sc') Q) : R.Walks x home w (get >>= f) (get >>= f') Q :=
  fun v s r sc sc' le ab sees => next v sc sc' le sees v s r sc sc' v.le_refl ab sees

theorem store {f f' : Store → ResolveM β} (next : ∀ v s r, w ≤ v → R.Abreast x v s r →
    R.Walks x home v (f s) (f' r) Q) : R.Walks x home w (ResolveM.store >>= f) (ResolveM.store >>= f') Q :=
  fun v s r sc sc' le ab sees => next v s r le ab v s r sc sc' v.le_refl ab sees

theorem rescope {f f' : Scope → Scope} (keeps : ∀ v sc sc', w ≤ v → home.Sees v sc sc' → home.Sees v (f sc) (f' sc')) :
    R.Walks x home w (modify f) (modify f') fun _ _ _ => True :=
  fun v _ _ sc sc' le ab sees => ⟨v, v.le_refl, ab, keeps v sc sc' le sees, trivial⟩

theorem lift {m m' : StoreM α} (along : ∀ v s r, w ≤ v → R.Abreast x v s r → R.Alongside x v s r m m' P) :
    R.Walks x home w (liftM m) (liftM m') P := fun v s r sc sc' le ab sees => by
  obtain ⟨u, le', ab', holds⟩ := along v s r le ab
  exact ⟨u, le', ab', sees.mono le', holds⟩

theorem block (walks : R.Walks x home w m m' P) :
    R.Walks x home w (ResolveM.block m) (ResolveM.block m') P := fun v s r sc sc' le ab sees => by
  obtain ⟨u, le', ab', sees', holds⟩ := walks v s r sc sc' le ab sees
  exact ⟨u, le', ab', { sees' with visible := (sees.mono le').visible }, holds⟩

theorem abreast (next : ∀ v s r, w ≤ v → R.Abreast x v s r → R.Walks x home v m m' P) : R.Walks x home w m m' P :=
  fun v s r sc sc' le ab sees => next v s r le ab v s r sc sc' v.le_refl ab sees

theorem ite {c : Prop} [Decidable c] {m₁ m₁' : ResolveM α} (yes : R.Walks x home w m m' P)
    (no : R.Walks x home w m₁ m₁' P) : R.Walks x home w (if c then m else m₁) (if c then m' else m₁') P := by
  split
  · exact yes
  · exact no

theorem mapM {γ : Type} {S : Pairing out → γ → γ → Prop} {g g' : γ → ResolveM β} {cs cs' : List γ}
    (stable : ∀ v v' b b', v ≤ v' → Q v b b' → Q v' b b') (weaken : ∀ v v' c c', v ≤ v' → S v c c' → S v' c c')
    (all : List.Forall₂ (S w) cs cs')
    (each : ∀ v c c', w ≤ v → S v c c' → R.Walks x home v (g c) (g' c') Q) :
    R.Walks x home w (cs.mapM g) (cs'.mapM g') fun v => List.Forall₂ (Q v) := by
  induction cs generalizing w cs' with
  | nil =>
    cases all
    exact .pure fun _ _ _ _ _ => .nil
  | cons c cs ih =>
    cases all with
    | cons head rest =>
      rw [List.mapM_cons, List.mapM_cons]
      refine (each w _ _ w.le_refl head).bind fun v b b' le related => ?_
      refine (ih (rest.imp fun c c' => weaken w v c c' le) fun v' c c' le' =>
        each v' c c' (Pairing.le_trans le le')).bind fun v' bs bs' le' all' => ?_
      exact .pure fun u _ _ le'' _ => .cons (stable v u b b' (Pairing.le_trans le' le'') related)
        (all'.imp fun b b' => stable v' u b b' le'')

theorem forM {γ : Type} {S : Pairing out → γ → γ → Prop} {g g' : γ → ResolveM Unit} {cs cs' : List γ}
    (weaken : ∀ v v' c c', v ≤ v' → S v c c' → S v' c c') (all : List.Forall₂ (S w) cs cs')
    (each : ∀ v c c', w ≤ v → S v c c' → R.Walks x home v (g c) (g' c') fun _ _ _ => True) :
    R.Walks x home w (cs.forM g) (cs'.forM g') fun _ _ _ => True := by
  induction cs generalizing w cs' with
  | nil =>
    cases all
    exact .pure fun _ _ _ _ _ => trivial
  | cons c cs ih =>
    cases all with
    | cons head rest =>
      refine Walks.bind (each w _ _ w.le_refl head) fun v _ _ le _ => ?_
      exact ih (rest.imp fun c c' => weaken w v c c' le) fun v' c c' le' => each v' c c' (Pairing.le_trans le le')

theorem mapM_same {γ : Type} {g g' : γ → ResolveM β} (cs : List γ)
    (stable : ∀ v v' b b', v ≤ v' → Q v b b' → Q v' b b')
    (each : ∀ v, w ≤ v → ∀ c ∈ cs, R.Walks x home v (g c) (g' c) Q) :
    R.Walks x home w (cs.mapM g) (cs.mapM g') fun v => List.Forall₂ (Q v) := by
  refine mapM (S := fun _ c c' => c = c' ∧ c ∈ cs) stable (fun _ _ _ _ _ => id) ?_ ?_
  · exact List.forall₂_same.mpr fun c mem => ⟨rfl, mem⟩
  · rintro v c _ le ⟨rfl, mem⟩
    exact each v le c mem

end Reference.Walks

section resolving

abbrev Reference.NearTypes (R : Reference s₀ s₀.HasElement) (x : ElementId) (w : Pairing out) (t t' : TypeId) : Prop :=
  (R.near x w).type t t'

theorem Reference.Abreast.near_initial (ab : R.Abreast x w s r) {t : TypeId} (there : s₀.HasType t) :
    (R.near x w).type t t := by
  obtain ⟨shape, found⟩ := has_type_iff.mp there
  exact .inr ⟨ab.explains.initial t there,
    has_type_iff.mpr ⟨shape, (R.turn x ab.entered).underlies.types t shape found⟩⟩

theorem Reference.Abreast.near_entered (ab : R.Abreast x w s r) {e : ElementId} (there : s₀.HasElement e) :
    (R.near x w).element e e :=
  .inr ⟨ab.explains.entered e there, (R.turn x ab.entered).underlies.there there⟩

open ResolveM

theorem Reference.Abreast.newType (ab : R.Abreast x w s r) {shape shape' : TypeShape}
    (same : (R.near x w).Shape shape shape') :
    R.Alongside x w s r (StoreM.newType shape) (StoreM.newType shape') fun v t t' => v.own.type t t' :=
  ⟨w.addType ⟨s.types.size⟩ ⟨r.types.size⟩, w.le_addType _ _, ab.pushType same, .inr ⟨rfl, rfl⟩⟩

theorem walks_newType {shape shape' : TypeShape} (same : (R.near x w).Shape shape shape') :
    R.Walks x home w (newType shape) (newType shape') fun v t t' => v.own.type t t' :=
  .lift fun _ _ _ le ab => ab.newType (same.mono (near_mono le))

theorem walks_newNearType {shape shape' : TypeShape} (same : (R.near x w).Shape shape shape') :
    R.Walks x home w (newType shape) (newType shape') (R.NearTypes x) := (walks_newType same).imp fun _ _ _ _ => .inl

theorem walks_unresolvedType (name : String) :
    R.Walks x home w (unresolvedType name) (unresolvedType name) (R.NearTypes x) := by
  refine Walks.bind (P := fun _ _ _ => True) (Walks.rescope fun v sc sc' _ sees => ?_) fun _ _ _ _ _ =>
    walks_newNearType (.error name)
  exact { sees with unresolved := congrArg (· + 1) sees.unresolved }

theorem walks_objectType (poised : s₀.Poised) :
    R.Walks x home w (liftM StoreM.objectType) (liftM StoreM.objectType) (R.NearTypes x) := by
  refine .lift fun v s r _ ab => ?_
  obtain ⟨π, learns, related⟩ := ab.explains.objectType poised
  have le : v ≤ { v with known := π } := ⟨learns.le, ⟨id, id⟩, id⟩
  have ab' := ab.learn learns (keeping_objectType s)
  rcases related with ⟨u, usage, same⟩ | ⟨usage, none⟩
  · have steady := R.turn x ab.entered
    obtain ⟨_, _, _, shape⟩ := steady.object poised.sound.toConsistent ((R.usage x ab.entered).trans usage)
    refine ⟨_, le, ?_, ?_⟩
    · rwa [StoreM.objectType_of_usage (ab.within.usage.trans usage)]
    · rw [StoreM.objectType_of_usage (ab.within.usage.trans usage)]
      exact .inr ⟨same, has_type_iff.mpr ⟨_, shape⟩⟩
  · have absent : r.objectElement? = .none := by
      rw [objectElement?, typeElement?, ab.within.typeElements]
      exact R.steady.usage.resolve_left (by simp [usage])
    refine ⟨_, le, ?_, ?_⟩
    · rwa [StoreM.objectType_of_absent (ab.within.usage.trans usage) absent]
    · rw [StoreM.objectType_of_absent (ab.within.usage.trans usage) absent, none]
      exact ab'.near_initial poised.sound.has_none

mutual

theorem walks_resolve (poised : s₀.Poised) (w : Pairing out) : (t : TypeExpr) → R.Walks x home w (resolve t) (resolve t) (R.NearTypes x)
  | .primitive k => by
    rw [resolve]
    cases k.primitive? with
    | none => exact walks_unresolvedType k.name
    | some p => exact .pure fun _ _ _ _ ab => ab.near_initial (poised.sound.has_primitive p)
  | .void => by
    rw [resolve]
    exact .pure fun _ _ _ _ ab => ab.near_initial (poised.sound.has_initial (by decide))
  | .var name => by
    rw [resolve]
    refine .scope fun v sc sc' _ sees => ?_
    have same := sees.boundVariable name
    generalize sc.boundVariable? name = bound at same
    generalize sc'.boundVariable? name = bound' at same
    cases same with
    | none => exact walks_unresolvedType name
    | some same => exact .pure fun u _ _ le ab => (ab.binds (le.2.2 same)).1
  | .named name args => by
    rw [resolve]
    refine .store fun v s r _ ab => .scope fun u sc sc' _ sees => ?_
    rw [ab.explains.under.typeElement, ab.within.under.typeElement, (sees.typeElement s₀ name).1,
      (sees.typeElement s₀ name).2]
    cases named : home.typeElement? s₀ name with
    | none => exact walks_unresolvedType name
    | some e =>
      have there := typeElement_there poised.sound.toConsistent named
      dsimp only
      rw [ab.explains.under.arity there, ab.within.under.arity there]
      refine .ite (walks_unresolvedType name) ((walks_resolveAll poised u args).bind fun u' ts ts' _ same => ?_)
      refine .abreast fun v s r le ab => walks_newNearType ?_
      exact .declared (ab.near_initial poised.sound.has_none) (ab.near_entered there) (Renaming.le_types (near_mono le) same)
  | .array c => by
    rw [resolve]
    exact (walks_resolve poised w c).bind fun v t t' _ same => walks_newNearType (.array same)
  | .wildcard upper lower => by
    rw [resolve]
    refine (walks_resolve? poised w upper).bind fun v u u' _ same => ?_
    refine (walks_resolve? poised v lower).bind fun v' l l' le same' => ?_
    exact walks_newNearType (.wildcard (Renaming.rel_mono (near_mono le).2 same) same')

theorem walks_resolveAll (poised : s₀.Poised) (w : Pairing out) : (ts : List TypeExpr) →
    R.Walks x home w (resolveAll ts) (resolveAll ts) fun v => List.Forall₂ (R.NearTypes x v)
  | [] => by
    rw [resolveAll]
    exact .pure fun _ _ _ _ _ => .nil
  | t :: rest => by
    rw [resolveAll]
    refine (walks_resolve poised w t).bind fun v t t' _ same => ?_
    refine (walks_resolveAll poised v rest).bind fun v' ts ts' le all => ?_
    exact .pure fun u _ _ le' _ => .cons ((near_mono (Pairing.le_trans le le')).2 same)
      (Renaming.le_types (near_mono le') all)

theorem walks_resolve? (poised : s₀.Poised) (w : Pairing out) : (t? : Option TypeExpr) →
    R.Walks x home w (resolve? t?) (resolve? t?) fun v => Option.Rel (R.NearTypes x v)
  | none => by
    rw [resolve?]
    exact .pure fun _ _ _ _ _ => .none
  | some t => by
    rw [resolve?]
    exact (walks_resolve poised w t).map fun _ _ _ _ same => .some same

end

end resolving

section typeParameters

open ResolveM

variable {owner owner' : ElementId}

theorem walks_newVariableType {p p' : ElementId} (own : w.own.element p p') {upper upper' : TypeId}
    (bound : (R.near x w).type upper upper') :
    R.Walks x home w (newType (.typeVariable p upper)) (newType (.typeVariable p' upper'))
      fun v t t' => v.own.type t t' ∧ v.bound t t' := fun v s r _ _ le ab sees => by
  let added := v.addType ⟨s.types.size⟩ ⟨r.types.size⟩
  have le' : v ≤ added.bind ⟨s.types.size⟩ ⟨r.types.size⟩ := Pairing.le_trans (v.le_addType _ _) (added.le_bind _ _)
  have last {s : Store} (shape : TypeShape) : (s.pushType shape).shape? ⟨s.types.size⟩ = some shape := by
    rw [shape?_push, if_pos rfl]
  have pushed := ab.pushType (.typeVariable (.inl (le.2.1.1 own)) ((near_mono le).2 bound))
  refine ⟨_, le', pushed.bind (.inl (.inr ⟨rfl, rfl⟩)) (last _) (last _) (.inr (.inl (le.2.1.1 own))), sees.mono le', ?_⟩
  exact ⟨.inr ⟨rfl, rfl⟩, .inr ⟨rfl, rfl⟩⟩

theorem walks_newSlot {slot slot' : Slot} (kind : slot.kind = slot'.kind) (name : slot.simpleName = slot'.simpleName)
    (qualified : slot.qualifiedName = slot'.qualifiedName)
    (enclosing : Option.Rel (R.near x w).element slot.enclosing slot'.enclosing) (state : slot.state = .completing)
    (state' : slot'.state = .completing) (plain : ¬ slot.kind.isContainer) :
    R.Walks x home w (liftM (StoreM.newSlot slot)) (liftM (StoreM.newSlot slot')) fun v e e' => v.own.element e e' := by
  refine .lift fun v s r le ab => ?_
  have le' := v.le_addElement ⟨s.elements.size⟩ ⟨r.elements.size⟩
  refine ⟨_, le', ab.pushSlot ⟨kind, name, qualified, ?_, ?_⟩ plain, .inr ⟨rfl, rfl⟩⟩
  · exact Renaming.rel_mono (near_mono (Pairing.le_trans le le')).1 enclosing
  · rw [state, state']
    exact .completing

theorem walks_bindVariable (name : String) {t t' : TypeId} (bound : w.bound t t') :
    R.Walks x home w (bindVariable name t) (bindVariable name t') fun _ _ _ => True :=
  .rescope fun _ _ _ le sees => { sees with visible := .cons ⟨rfl, le.2.2 bound⟩ sees.visible }

theorem walks_reserveTypeParameter (poised : s₀.Poised) (p : TypeParameterDecl)
    (inside : (R.near x w).element owner owner') :
    R.Walks x home w (reserveTypeParameter owner p) (reserveTypeParameter owner' p) Pairing.Parameter := by
  refine Walks.bind (walks_newSlot rfl rfl rfl (.some inside) rfl rfl nofun) fun v₁ e e' _ own => .abreast fun v₂ _ _ le₂ ab => ?_
  have none := ab.near_initial poised.sound.has_none
  refine (walks_newVariableType (le₂.2.1.1 own) none).bind fun v₃ t t' le₃ ⟨ownType, bound⟩ => ?_
  refine (walks_bindVariable p.name bound).bind fun v₄ _ _ le₄ _ => .pure fun v₅ _ _ le₅ _ => ?_
  have le := Pairing.le_trans le₄ le₅
  exact ⟨le.2.1.1 (le₃.2.1.1 (le₂.2.1.1 own)), le.2.1.2 ownType⟩

theorem walks_publish {q q' : ElementRecord} (own : w.own.element q.id q'.id) (same : (R.near x w).Record q q') :
    R.Walks x home w (liftM (StoreM.publish q)) (liftM (StoreM.publish q')) fun _ _ _ => True :=
  .lift fun v _ _ le ab => ⟨v, v.le_refl, ab.setState (le.2.1.1 own) (same.mono (near_mono le)), trivial⟩

theorem walks_settle {p p' : TypeParameterDecl} {e e' : ElementId} {t t' upper upper' : TypeId} {bounds bounds' : List TypeId}
    (name : p.name = p'.name) (inside : (R.near x w).element owner owner') (own : w.Parameter (e, t) (e', t'))
    (bound : (R.near x w).type upper upper') (all : List.Forall₂ (R.NearTypes x w) bounds bounds') :
    R.Walks x home w (do
        (StoreM.setShape t (.typeVariable e upper) : StoreM Unit)
        (StoreM.publish { id := e, kind := .typeParameter, simpleName := p.name, enclosing := some owner
                          asType := t, detail := .typeParameter owner bounds } : StoreM Unit)) (do
        (StoreM.setShape t' (.typeVariable e' upper') : StoreM Unit)
        (StoreM.publish { id := e', kind := .typeParameter, simpleName := p'.name, enclosing := some owner'
                          asType := t', detail := .typeParameter owner' bounds' } : StoreM Unit)) fun _ _ _ => True := by
  refine Walks.bind (P := fun _ _ _ => True) (.lift fun v _ _ le ab => ⟨v, v.le_refl, ?_, trivial⟩) fun v _ _ le _ => ?_
  · exact ab.updateShape (le.2.1.2 own.2) (le.2.1.1 own.1) ((near_mono le).2 bound)
  · have inside := (near_mono (R := R) (x := x) le).1 inside
    exact walks_publish (le.2.1.1 own.1)
      { id := .inl (le.2.1.1 own.1), kind := rfl, simpleName := name, qualifiedName := name, enclosing := .some inside
        enclosed := .nil, modifiers := rfl, nesting := rfl, asType := .inl (le.2.1.2 own.2), annotations := .nil
        erroneous := rfl, detail := .typeParameter inside (Renaming.le_types (near_mono le) all) }

theorem walks_completeTypeParameter (poised : s₀.Poised) (p : TypeParameterDecl)
    (inside : (R.near x w).element owner owner') {e e' : ElementId} {t t' : TypeId} (own : w.Parameter (e, t) (e', t')) :
    R.Walks x home w (completeTypeParameter owner p e t) (completeTypeParameter owner' p e' t') fun _ _ _ => True := by
  refine (walks_resolveAll poised w p.bounds).bind fun v bounds bounds' le all => ?_
  have inside {u : Pairing out} (le' : v ≤ u) := (near_mono (R := R) (x := x) (Pairing.le_trans le le')).1 inside
  have own {u : Pairing out} (le' : v ≤ u) : u.Parameter (e, t) (e', t') :=
    ⟨le'.2.1.1 (le.2.1.1 own.1), le'.2.1.2 (le.2.1.2 own.2)⟩
  cases all with
  | nil =>
    refine (walks_objectType poised).bind fun u upper upper' le' bound => ?_
    exact walks_settle rfl (inside le') (own le') bound (.cons bound .nil)
  | cons first rest =>
    cases rest with
    | nil =>
      refine Walks.bind (.pure fun _ _ _ le _ => (near_mono (R := R) (x := x) le).2 first) fun u upper upper' le' bound => ?_
      exact walks_settle rfl (inside le') (own le') bound (.cons ((near_mono le').2 first) .nil)
    | cons second rest =>
      have all := List.Forall₂.cons first (.cons second rest)
      refine (walks_newNearType (.intersection all)).bind fun u upper upper' le' bound => ?_
      exact walks_settle rfl (inside le') (own le') bound (Renaming.le_types (near_mono le') all)

theorem walks_enterTypeParameters (poised : s₀.Poised) (ps : List TypeParameterDecl)
    (inside : (R.near x w).element owner owner') :
    R.Walks x home w (enterTypeParameters owner ps) (enterTypeParameters owner' ps)
      fun v => List.Forall₂ v.Parameter := by
  have stable {v v' : Pairing out} {y y' : ElementId × TypeId} (le : v ≤ v') (same : v.Parameter y y') : v'.Parameter y y' :=
    ⟨le.2.1.1 same.1, le.2.1.2 same.2⟩
  refine Walks.bind (Walks.mapM_same (Q := Pairing.Parameter) ps (fun _ _ _ _ => stable) fun v le p _ =>
    walks_reserveTypeParameter poised p ((near_mono le).1 inside)) fun v entered entered' le all => ?_
  have pairs : List.Forall₂ (fun y y' => y.1 = y'.1 ∧ v.Parameter y.2 y'.2) (ps.zip entered) (ps.zip entered') := by
    clear le
    induction ps generalizing entered entered' with
    | nil => exact .nil
    | cons p ps ih =>
      cases all with
      | nil => exact .nil
      | cons head rest => exact .cons ⟨rfl, head⟩ (ih _ _ rest)
  let S (v : Pairing out) (y y' : TypeParameterDecl × ElementId × TypeId) : Prop := y.1 = y'.1 ∧ v.Parameter y.2 y'.2
  refine Walks.bind (Walks.forM (S := S) (fun _ _ _ _ le same => ⟨same.1, stable le same.2⟩) pairs ?_)
    fun u _ _ le' _ => .pure fun u' _ _ le'' _ => ?_
  · rintro u ⟨p, e, t⟩ ⟨_, e', t'⟩ le' ⟨rfl, same⟩
    exact walks_completeTypeParameter poised p ((near_mono (Pairing.le_trans le le')).1 inside) same
  · exact all.imp fun _ _ => stable (Pairing.le_trans le' le'')

end typeParameters

section entering

variable {owner owner' : ElementId}

theorem walks_newVariable {kind : ElementKind} (plain : ¬ kind.isContainer) (name : String) {t t' : TypeId}
    (nesting : Nesting) (modifiers : List Modifier) (inside : (R.near x w).element owner owner')
    (type : (R.near x w).type t t') :
    R.Walks x home w (newVariable owner kind name t nesting modifiers) (newVariable owner' kind name t' nesting modifiers)
      fun v e e' => v.own.element e e' := by
  refine .lift fun v s r le ab => ?_
  have le' := v.le_addElement ⟨s.elements.size⟩ ⟨r.elements.size⟩
  have near := near_mono (R := R) (x := x) (Pairing.le_trans le le')
  refine ⟨_, le', ab.pushSlot ⟨rfl, rfl, rfl, .some (near.1 inside), .complete ?_⟩ plain, .inr ⟨rfl, rfl⟩⟩
  exact
    { id := .inl (.inr ⟨rfl, rfl⟩), kind := rfl, simpleName := rfl, qualifiedName := rfl, enclosing := .some (near.1 inside)
      enclosed := .nil, modifiers := rfl, nesting := rfl, asType := near.2 type, annotations := .nil, erroneous := rfl
      detail := .plain }

theorem walks_enterParameter (poised : s₀.Poised) (name : String) (t : TypeExpr)
    (inside : (R.near x w).element owner owner') :
    R.Walks x home w (enterParameter owner name t) (enterParameter owner' name t)
      fun v y y' => v.own.element y.1 y'.1 ∧ (R.near x v).type y.2 y'.2 := by
  refine Walks.bind (walks_resolve poised w t) fun v t t' le type => ?_
  have plain : ¬ ElementKind.parameter.isContainer := nofun
  refine Walks.bind (walks_newVariable plain name .body [] ((near_mono le).1 inside) type) fun u e e' le' own => ?_
  exact .pure fun _ _ _ le'' _ => ⟨le''.2.1.1 own, (near_mono (Pairing.le_trans le' le'')).2 type⟩

theorem walks_usageOf (poised : s₀.Poised) (name : String) {ts ts' : List TypeId}
    (same : List.Forall₂ (R.NearTypes x w) ts ts') :
    R.Walks x home w (liftM (usageOf name ts)) (liftM (usageOf name ts')) (R.NearTypes x) := by
  refine .lift fun v s r le ab => .get ?_
  have known {s : Store} (under : s₀.Underlies s) : s.typeElement? name = s₀.typeElement? name := by
    rw [typeElement?, typeElement?, under.typeElements]
  rw [known ab.explains.under, known ab.within.under]
  cases named : s₀.typeElement? name with
  | none => exact .pure ab (ab.near_initial poised.sound.has_none)
  | some e =>
    obtain ⟨slot, found, _⟩ := (poised.sound.typeElements name e).mp named
    have top := ab.near_entered (has_element_iff.mpr ⟨slot, found⟩)
    have shape := Renaming.Shape.declared (ab.near_initial poised.sound.has_none) top (Renaming.le_types (near_mono le) same)
    exact (ab.newType shape).imp fun _ _ _ _ => .inl

theorem walks_superclassOf (poised : s₀.Poised) (h : TypeHeader) (qualifiedName : String) {asType asType' : TypeId}
    (same : (R.near x w).type asType asType') :
    R.Walks x home w (superclassOf h qualifiedName asType) (superclassOf h qualifiedName asType') (R.NearTypes x) := by
  have none : R.Walks x home w (pure .none) (pure .none) (R.NearTypes x) :=
    .pure fun _ _ _ _ ab => ab.near_initial poised.sound.has_none
  unfold superclassOf
  split
  · exact walks_usageOf poised enumName (.cons same .nil)
  · exact walks_usageOf poised recordName .nil
  · exact walks_resolve poised w _
  · exact .ite none (walks_objectType poised)
  · exact none

theorem walks_interfacesOf (poised : s₀.Poised) (h : TypeHeader) :
    R.Walks x home w (interfacesOf h) (interfacesOf h) fun v => List.Forall₂ (R.NearTypes x v) := by
  refine Walks.bind (walks_resolveAll poised w h.interfaces) fun v ts ts' _ all => ?_
  have kept : R.Walks x home v (pure ts) (pure ts') fun u => List.Forall₂ (R.NearTypes x u) :=
    .pure fun _ _ _ le _ => Renaming.le_types (near_mono le) all
  split
  · refine .ite (Walks.bind (walks_resolve poised v _) fun u t t' le same => ?_) kept
    exact .pure fun _ _ _ le' _ => .cons ((near_mono le').2 same) (Renaming.le_types (near_mono (Pairing.le_trans le le')) all)
  · exact kept

end entering

end Store

end Nominal
