import Nominal.Proofs.Store.Allocation
/-!
Resolving a written type gives a type of the store, adds nothing but types, and leaves what is in
sight as it was.
-/

namespace Nominal

open Store

def Store.Bindable (s : Store) (t : TypeId) : Prop := s.HasType t ∧ s.head? t = none

theorem Store.Bindable.grow {mine : ElementId → Prop} {s s' : Store} {t : TypeId} (h : s.Bindable t)
    (g : s.Grows mine s') : s'.Bindable t :=
  ⟨g.has_type h.1, (g.head? h.1).trans h.2⟩

def Scope.Known (sc : Scope) (s : Store) : Prop := ∀ v ∈ sc.visible, s.Bindable v.2

theorem Ensures.mono {α : Type} {mine mine' enlarged enlarged' : ElementId → Prop} {s : Store}
    {m : StoreM α} {P : α → Store → Prop} (h : Ensures (Extension mine enlarged) s m P)
    (more : ∀ e, mine e → mine' e) (larger : ∀ e, enlarged e → enlarged' e) :
    Ensures (Extension mine' enlarged') s m fun a s' => s.Extension mine enlarged s' ∧ P a s' :=
  ⟨h.1.mono more larger, h⟩

theorem Ensures.widen {α : Type} {mine enlarged : ElementId → Prop} {s : Store} {m : StoreM α}
    {P : α → Store → Prop} (h : Ensures Extends s m P) :
    Ensures (Extension mine enlarged) s m fun a s' => s.Extends s' ∧ P a s' :=
  h.mono (fun _ => False.elim) fun _ => False.elim

theorem Scope.Known.grow {mine : ElementId → Prop} {sc : Scope} {s s' : Store} (h : sc.Known s)
    (g : s.Grows mine s') : sc.Known s' :=
  fun v mem => (h v mem).grow g

theorem Scope.Known.congr {sc sc' : Scope} {s : Store} (h : sc.Known s)
    (same : sc'.visible = sc.visible) : sc'.Known s := by
  rw [Known, same]
  exact h

namespace ResolveM

variable {s : Store} {sc : Scope}

theorem newType_ensures {shape : TypeShape} (h : s.Consistent) (c : s.Composes shape) :
    Ensures Extends s (newType shape sc) fun r s' => s'.shape? r.1 = some shape ∧ r.2 = sc := by
  have added : Ensures Extends s (StoreM.newType shape) _ := Store.newType_ensures h c
  exact ⟨added.1, added.2, rfl⟩

theorem unresolvedType_ensures (h : s.Consistent) (name : String) :
    Ensures Extends s (unresolvedType name sc) fun r s' =>
      s'.HasType r.1 ∧ r.2.visible = sc.visible := by
  have c : s.Composes (.error name) := ⟨by simp [TypeShape.parts], nofun, by simp⟩
  let sc₁ : Scope := { sc with unresolved := sc.unresolved + 1 }
  have added : Ensures Extends s (newType (.error name) sc₁) _ := newType_ensures h c
  refine added.imp ?_
  rintro ⟨t, sc'⟩ s' _ ⟨shape, rfl⟩
  exact ⟨has_type_iff.mpr ⟨_, shape⟩, rfl⟩

theorem boundVariable_known (known : sc.Known s) {name : String} {t : TypeId}
    (found : sc.boundVariable? name = some t) : s.Bindable t := by
  obtain ⟨v, at_, rfl⟩ := Option.map_eq_some_iff.mp found
  exact known v (List.mem_of_find?_eq_some at_)

theorem typeElement_isType (h : s.Consistent) {name : String} {e : ElementId}
    (found : sc.typeElement? s name = some e) : ∃ k, s.kind? e = some k ∧ k.isType := by
  obtain ⟨candidate, _, named⟩ := List.exists_of_findSome?_eq_some found
  obtain ⟨slot, slotFound, isType, _⟩ := (h.typeElements candidate e).mp named
  exact ⟨slot.kind, kind?_eq_some_iff.mpr ⟨slot, slotFound, rfl⟩, isType⟩

mutual

theorem resolve_ensures {s : Store} {sc : Scope} (h : s.Consistent) (known : sc.Known s) :
    (t : TypeExpr) → Ensures Extends s (resolve t sc) fun r s' =>
      s'.HasType r.1 ∧ r.2.visible = sc.visible
  | .primitive k => by
    rw [resolve]
    cases k.primitive? with
    | none => exact unresolvedType_ensures h k.name
    | some p => exact .pure (.refl h) ⟨h.has_primitive p, rfl⟩
  | .void => .pure (.refl h) ⟨h.has_initial (by decide), rfl⟩
  | .var name => by
    rw [resolve]
    refine .scope ?_
    cases found : sc.boundVariable? name with
    | none => exact unresolvedType_ensures h name
    | some t => exact .pure (.refl h) ⟨(boundVariable_known known found).1, rfl⟩
  | .named name args => by
    rw [resolve]
    refine .store (.scope ?_)
    cases found : sc.typeElement? s name with
    | none => exact unresolvedType_ensures h name
    | some e =>
      dsimp only
      split
      · exact unresolvedType_ensures h name
      · refine (resolveAll_ensures h known args).resolve_bind fun ts sc' s' ext ⟨parts, visible⟩ => ?_
        have c : s'.Composes (.declared .none e ts) := by
          refine ⟨?_, ?_, by simp⟩
          · simpa [TypeShape.parts] using ⟨ext.consistent.has_none, parts⟩
          · rintro _ _ _ ⟨⟩
            obtain ⟨k, kind, isType⟩ := typeElement_isType h found
            exact ⟨⟨k, ext.grows.kind kind, isType⟩, .inl rfl⟩
        refine (newType_ensures ext.consistent c).imp fun r s'' _ ⟨shape, same⟩ => ?_
        exact ⟨has_type_iff.mpr ⟨_, shape⟩, by rw [same, visible]⟩
  | .array c => by
    rw [resolve]
    refine (resolve_ensures h known c).resolve_bind fun t sc' s' ext ⟨part, visible⟩ => ?_
    have c : s'.Composes (.array t) := ⟨by simpa [TypeShape.parts] using part, nofun, by simp⟩
    refine (newType_ensures ext.consistent c).imp fun r s'' _ ⟨shape, same⟩ => ?_
    exact ⟨has_type_iff.mpr ⟨_, shape⟩, by rw [same, visible]⟩
  | .wildcard upper lower => by
    rw [resolve]
    refine (resolve?_ensures h known upper).resolve_bind fun u sc₁ s₁ ext₁ ⟨part₁, visible₁⟩ => ?_
    have known₁ : sc₁.Known s₁ := (known.grow ext₁.grows).congr visible₁
    refine (resolve?_ensures ext₁.consistent known₁ lower).resolve_bind
      fun l sc₂ s₂ ext₂ ⟨part₂, visible₂⟩ => ?_
    have c : s₂.Composes (.wildcard u l) := by
      refine ⟨fun p mem => ?_, nofun, by simp⟩
      simp only [TypeShape.parts, List.mem_append, Option.mem_toList] at mem
      exact mem.elim (fun mem => ext₂.grows.has_type (part₁ p mem)) (part₂ p)
    refine (newType_ensures ext₂.consistent c).imp fun r s₃ _ ⟨shape, same⟩ => ?_
    exact ⟨has_type_iff.mpr ⟨_, shape⟩, by rw [same, visible₂, visible₁]⟩

theorem resolveAll_ensures {s : Store} {sc : Scope} (h : s.Consistent) (known : sc.Known s) :
    (ts : List TypeExpr) → Ensures Extends s (resolveAll ts sc) fun r s' =>
      (∀ t ∈ r.1, s'.HasType t) ∧ r.2.visible = sc.visible
  | [] => .pure (.refl h) ⟨by simp, rfl⟩
  | t :: rest => by
    rw [resolveAll]
    refine (resolve_ensures h known t).resolve_bind fun id sc₁ s₁ ext₁ ⟨part, visible₁⟩ => ?_
    have known₁ : sc₁.Known s₁ := (known.grow ext₁.grows).congr visible₁
    refine (resolveAll_ensures ext₁.consistent known₁ rest).resolve_bind
      fun ids sc₂ s₂ ext₂ ⟨parts, visible₂⟩ => ?_
    refine .pure (.refl ext₂.consistent) ⟨fun p mem => ?_, by rw [visible₂, visible₁]⟩
    rcases List.mem_cons.mp mem with rfl | mem
    · exact ext₂.grows.has_type part
    · exact parts p mem

theorem resolve?_ensures {s : Store} {sc : Scope} (h : s.Consistent) (known : sc.Known s) :
    (t? : Option TypeExpr) → Ensures Extends s (resolve? t? sc) fun r s' =>
      (∀ t ∈ r.1, s'.HasType t) ∧ r.2.visible = sc.visible
  | none => .pure (.refl h) ⟨by simp, rfl⟩
  | some t => by
    rw [resolve?, ← bind_pure_comp]
    refine (resolve_ensures h known t).resolve_bind fun id sc' s' ext ⟨part, visible⟩ => ?_
    exact .pure (.refl ext.consistent) ⟨by simpa using part, visible⟩

end

section place

variable {α β : Type} {x : ResolveM α}

def InPlace (x : ResolveM α) : Prop := ∀ sc s, (x sc s).1.2.place = sc.place

namespace InPlace

@[grind ←]
theorem pure (a : α) : InPlace (Pure.pure a) := fun _ _ => rfl

@[grind ←]
theorem bind {f : α → ResolveM β} (first : InPlace x) (next : ∀ a, InPlace (f a)) : InPlace (x >>= f) :=
  fun sc s => (next _ _ _).trans (first sc s)

@[grind ←]
theorem map {f : α → β} (first : InPlace x) : InPlace (f <$> x) := first

@[grind ←]
theorem lift (m : StoreM α) : InPlace (liftM m) := fun _ _ => rfl

@[grind ←]
theorem newType (shape : TypeShape) : InPlace (newType shape) := lift _

@[grind ←]
theorem bindVariable (name : String) (t : TypeId) : InPlace (bindVariable name t) := fun _ _ => rfl

@[grind ←]
theorem unresolvedType (name : String) : InPlace (unresolvedType name) := fun _ _ => rfl

@[grind ←]
theorem scope {f : Scope → ResolveM β} (next : ∀ sc, InPlace (f sc)) : InPlace (get >>= f) := fun sc => next sc sc

@[grind ←]
theorem store {f : Store → ResolveM β} (next : ∀ s, InPlace (f s)) : InPlace (ResolveM.store >>= f) :=
  fun sc s => next s sc s

theorem mapM {f : α → ResolveM β} (each : ∀ a, InPlace (f a)) (as : List α) : InPlace (as.mapM f) := by
  induction as with
  | nil => exact pure []
  | cons a as ih =>
    rw [List.mapM_cons]
    exact (each a).bind fun b => ih.bind fun bs => pure (b :: bs)

theorem forM {f : α → ResolveM Unit} (each : ∀ a, InPlace (f a)) (as : List α) : InPlace (as.forM f) := by
  induction as with
  | nil => exact pure ()
  | cons a as ih => exact (each a).bind fun _ => ih

mutual

theorem resolve : (t : TypeExpr) → InPlace (resolve t)
  | .primitive k => by grind [ResolveM.resolve]
  | .void => by grind [ResolveM.resolve]
  | .var name => by grind [ResolveM.resolve]
  | .named name args => by
    have parts := resolveAll args
    grind [ResolveM.resolve]
  | .array c => by
    have part := resolve c
    grind [ResolveM.resolve]
  | .wildcard upper lower => by
    have first := resolve? upper
    have second := resolve? lower
    grind [ResolveM.resolve]

theorem resolveAll : (ts : List TypeExpr) → InPlace (resolveAll ts)
  | [] => by grind [ResolveM.resolveAll]
  | t :: rest => by
    have first := resolve t
    have others := resolveAll rest
    grind [ResolveM.resolveAll]

theorem resolve? : (t? : Option TypeExpr) → InPlace (resolve? t?)
  | none => by grind [ResolveM.resolve?]
  | some t => by
    have part := resolve t
    grind [ResolveM.resolve?]

end

end InPlace

theorem InPlace.ensures {R : Store → Store → Prop} {P : α × Scope → Store → Prop} (stays : InPlace x)
    (h : Ensures R s (x sc) P) : Ensures R s (x sc) fun r s' => P r s' ∧ r.2.place = sc.place :=
  ⟨h.1, h.2, stays sc s⟩

end place

section heads

theorem newType_shape (shape : TypeShape) (sc : Scope) (s : Store) :
    (newType shape sc s).2.shape (newType shape sc s).1.1 = shape := by
  refine shape_of_shape? ?_
  change (s.pushType shape).shape? ⟨s.types.size⟩ = _
  rw [shape?_push, if_pos rfl]

theorem bind_apply {α β : Type} (m : ResolveM α) (f : α → ResolveM β) (sc : Scope) (s : Store) :
    (m >>= f) sc s = f (m sc s).1.1 (m sc s).1.2 (m sc s).2 := rfl

theorem store_bind {β : Type} (f : Store → ResolveM β) (sc : Scope) (s : Store) :
    (ResolveM.store >>= f) sc s = f s sc s := rfl

theorem scope_bind {β : Type} (f : Scope → ResolveM β) (sc : Scope) (s : Store) : (get >>= f) sc s = f sc sc s := rfl

theorem bind_newType_shape {α : Type} (m : ResolveM α) (f : α → TypeShape) (sc : Scope) (s : Store) :
    ((m >>= fun a => newType (f a)) sc s).2.shape ((m >>= fun a => newType (f a)) sc s).1.1 = f (m sc s).1.1 :=
  newType_shape _ _ _

theorem newType_head (shape : TypeShape) (sc : Scope) (s : Store) :
    (newType shape sc s).2.head? (newType shape sc s).1.1 = shape.head? := by
  have found : (newType shape sc s).2.shape? (newType shape sc s).1.1 = some shape :=
    (shape?_push shape).trans (if_pos rfl)
  rw [head?, found, Option.bind_some]

theorem bind_newType_head {α : Type} (m : ResolveM α) (f : α → TypeShape) (sc : Scope) (s : Store) :
    ((m >>= fun a => newType (f a)) sc s).2.head? ((m >>= fun a => newType (f a)) sc s).1.1 = (f (m sc s).1.1).head? :=
  newType_head _ _ _

theorem resolve_head (h : s.Consistent) (known : sc.Known s) (t : TypeExpr) :
    (resolve t sc s).2.head? (resolve t sc s).1.1 = sc.element? s t := by
  have unresolved (name : String) :
      (unresolvedType name sc s).2.head? (unresolvedType name sc s).1.1 = none := newType_head (.error name) _ s
  cases t with
  | primitive k =>
    rw [resolve]
    cases k.primitive? with
    | none => exact unresolved k.name
    | some p => exact h.head?_initial (by cases p <;> decide)
  | void => exact h.head?_initial (by decide)
  | var name =>
    rw [resolve, scope_bind]
    cases found : sc.boundVariable? name with
    | none => exact unresolved name
    | some t => exact (boundVariable_known known found).2
  | named name args =>
    rw [resolve, store_bind, scope_bind, Scope.element?]
    cases named : sc.typeElement? s name with
    | none => exact unresolved name
    | some e =>
      dsimp only
      rw [Option.filter_some]
      cases fits : args.isEmpty || args.length == s.arity e with
      | true =>
        rw [if_neg (by simpa [imp_iff_or_not, or_comm] using fits)]
        exact bind_newType_head (resolveAll args) (.declared .none e) sc s
      | false =>
        rw [if_pos (by simpa using fits)]
        exact unresolved name
  | array c => exact bind_newType_head (resolve c) .array sc s
  | wildcard upper lower =>
    rw [resolve, bind_apply]
    exact bind_newType_head (resolve? lower) (.wildcard _) _ _

theorem resolve_named (h : s.Consistent) (known : sc.Known s) (t : TypeExpr) :
    Ensures Extends s (resolve t sc) fun r s' => s'.HasType r.1 ∧ r.2.visible = sc.visible ∧
      s'.head? r.1 = sc.element? s t ∧ r.2.place = sc.place := by
  obtain ⟨ext, part, visible⟩ := resolve_ensures h known t
  exact ⟨ext, part, visible, resolve_head h known t, InPlace.resolve t sc s⟩

theorem resolveAll_named {s : Store} {sc : Scope} (h : s.Consistent) (known : sc.Known s) : (ts : List TypeExpr) →
    Ensures Extends s (resolveAll ts sc) fun r s' => (∀ t ∈ r.1, s'.HasType t) ∧ r.2.visible = sc.visible ∧
      r.1.map s'.head? = ts.map (sc.element? s) ∧ r.2.place = sc.place
  | [] => .pure (.refl h) ⟨nofun, rfl, rfl, rfl⟩
  | t :: rest => by
    rw [resolveAll]
    refine (resolve_named h known t).resolve_bind fun id sc₁ s₁ ext₁ ⟨part, visible₁, head, place₁⟩ => ?_
    have known₁ : sc₁.Known s₁ := (known.grow ext₁.grows).congr visible₁
    refine (resolveAll_named ext₁.consistent known₁ rest).resolve_bind
      fun ids sc₂ s₂ ext₂ ⟨parts, visible₂, heads, place₂⟩ => ?_
    refine .pure (.refl ext₂.consistent) ⟨?_, visible₂.trans visible₁, ?_, place₂.trans place₁⟩
    · exact List.forall_mem_cons.mpr ⟨ext₂.grows.has_type part, parts⟩
    · rw [List.map_cons, ext₂.grows.head? part, head, heads, ext₁.element? h place₁, List.map_cons]

end heads

end ResolveM

end Nominal
