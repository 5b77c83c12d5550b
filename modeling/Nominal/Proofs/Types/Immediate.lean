import Nominal.Proofs.Store.Single
import Nominal.Proofs.Types.Arrays
import Nominal.Proofs.Types.Descending
/-!
A type is below each of its immediate supertypes. They are listed and looked for in different ways, each time with types
that are made anew, so both are read on trees: what is listed is what a search meets on its second level, and the search
is not led astray as long as no two of the supertypes are usages of one element.
-/

namespace Nominal

open Store StoreM

namespace TypeTree

def IsResolved (u : TypeTree) : Prop := u.kind = .declared ∨ u.kind = .error

structure Asunder (e : ElementId) (us : List TypeTree) : Prop where
  resolved : ∀ u ∈ us, u.IsResolved
  distinct : (e :: us.filterMap element?).Nodup

variable {u v : TypeTree} {us : List TypeTree} {e f : ElementId}

theorem IsResolved.cases (resolved : u.IsResolved) : (∃ o f args, u = declared o f args) ∨ ∃ name, u = error name := by
  cases u with
  | declared o f args => exact .inl ⟨o, f, args, rfl⟩
  | error name => exact .inr ⟨name, rfl⟩
  | primitive p => cases p <;> rcases resolved with same | same <;> cases same
  | noType n => cases n <;> rcases resolved with same | same <;> cases same
  | _ => rcases resolved with same | same <;> cases same

theorem Asunder.map {g : TypeTree → TypeTree} (apart : Asunder e us)
    (keeps : ∀ u ∈ us, u.IsResolved → (g u).IsResolved ∧ (g u).element? = u.element?) : Asunder e (us.map g) where
  resolved u mem := by
    obtain ⟨v, there, rfl⟩ := List.mem_map.mp mem
    exact (keeps v there (apart.resolved v there)).1
  distinct := by
    rw [List.filterMap_map]
    have same : us.filterMap (element? ∘ g) = us.filterMap element? :=
      List.filterMap_congr fun u mem => (keeps u mem (apart.resolved u mem)).2
    rw [same]
    exact apart.distinct

theorem IsResolved.erase {c : Context} (resolved : u.IsResolved) (depth : Nat) :
    (u.erase c (depth + 1)).IsResolved ∧ (u.erase c (depth + 1)).element? = u.element? := by
  obtain ⟨o, f, args, rfl⟩ | ⟨name, rfl⟩ := resolved.cases
  · exact ⟨.inl rfl, rfl⟩
  · exact ⟨.inr rfl, rfl⟩

theorem IsResolved.substitute {σ : ElementId → Option TypeTree} (resolved : u.IsResolved) :
    (u.substitute σ).IsResolved ∧ (u.substitute σ).element? = u.element? := by
  obtain ⟨o, f, args, rfl⟩ | ⟨name, rfl⟩ := resolved.cases
  · exact ⟨.inl rfl, rfl⟩
  · exact ⟨.inr rfl, rfl⟩

theorem Asunder.ne (apart : Asunder e us) (mem : u ∈ us) (element : u.element? = some f) : e ≠ f := by
  rintro rfl
  exact (List.nodup_cons.mp apart.distinct).1 (List.mem_filterMap.mpr ⟨u, mem, element⟩)

theorem Asunder.unique (apart : Asunder e us) (mem : u ∈ us) (mem' : v ∈ us) (element : u.element? = some f)
    (element' : v.element? = some f) : u = v := by
  have distinct := (List.nodup_cons.mp apart.distinct).2
  clear apart
  induction us with
  | nil => cases mem
  | cons w ws ih =>
    have rest (found : w.element? = some f) : ∀ x ∈ ws, x.element? ≠ some f := by
      intro x there same
      rw [List.filterMap_cons_some found] at distinct
      exact (List.nodup_cons.mp distinct).1 (List.mem_filterMap.mpr ⟨x, there, same⟩)
    rcases List.mem_cons.mp mem with rfl | later
    · rcases List.mem_cons.mp mem' with rfl | later'
      · rfl
      · exact absurd element' (rest element v later')
    · rcases List.mem_cons.mp mem' with rfl | later'
      · exact absurd element (rest element' u later)
      · refine ih later later' ?_
        cases found : w.element? with
        | none => rwa [List.filterMap_cons_none found] at distinct
        | some d =>
          rw [List.filterMap_cons_some found] at distinct
          exact distinct.of_cons

end TypeTree

section search

theorem allM_true {α : Type} {p : α → Option Bool} {as : List α} (each : ∀ a ∈ as, p a = some true) :
    as.allM p = some true := by
  induction as with
  | nil => rfl
  | cons a as ih =>
    rw [List.allM, each a (by simp)]
    exact ih fun a mem => each a (by simp [mem])

theorem anyM_of_mem {α : Type} {p : α → Option Bool} {as : List α} {a : α} {b : Bool} (mem : a ∈ as)
    (holds : p a = some true) (known : as.anyM p = some b) : b = true := by
  induction as with
  | nil => cases mem
  | cons a' as ih =>
    rw [List.anyM] at known
    obtain ⟨first, answered, known⟩ := Option.bind_eq_some_iff.mp known
    cases first with
    | true => exact (Option.some.inj known).symm
    | false =>
      rcases List.mem_cons.mp mem with rfl | mem
      · cases answered.symm.trans holds
      · exact ih mem known

end search

namespace Store

variable {s s' : Store} {e f target : ElementId} {r : ElementRecord} {t u : TypeTree} {ts : List TypeTree} {depth : Nat}

section reflexive

theorem below?_refl (s : Store) (depth : Nat) (t : TypeTree) : s.below? (depth + 1) t t = some true := by
  rw [below?, if_pos t.same_refl]

theorem admits?_refl (s : Store) (depth : Nat) (t : TypeTree) : s.admits? (s.below? (depth + 1)) t t = some true := by
  cases t with
  | wildcard upper lower =>
    cases upper with
    | some bound => exact s.below?_refl depth bound
    | none =>
      cases lower with
      | some bound => exact s.below?_refl depth bound
      | none => rfl
  | _ => exact congrArg some (TypeTree.same_refl _)

theorem argumentsFit?_refl (s : Store) (depth : Nat) (args : List TypeTree) :
    s.argumentsFit? (s.below? (depth + 1)) args args = some true := by
  unfold argumentsFit?
  split
  · rfl
  · have pairs : args.zip args = args.map fun a => (a, a) := by
      simpa using (List.zip_map' : (args.map id).zip (args.map id) = _)
    rw [if_neg (by simp), pairs]
    refine allM_true fun pair mem => ?_
    obtain ⟨a, -, rfl⟩ := List.mem_map.mp mem
    exact s.admits?_refl depth a

end reflexive

section bounds

variable {again : TypeTree → TypeTree → Option Bool} {b : Bool}

theorem compare?_variable (plain : u.kind ≠ .intersection) (compared : s.compare? again (.typeVariable e) u = some b) :
    b = true ∨ (s.bound? e).bind (again · u) = some b := by
  cases u with
  | error => exact .inl (Option.some.inj compared).symm
  | intersection => exact absurd rfl plain
  | _ => exact .inr compared

theorem compare?_intersection (plain : u.kind ≠ .intersection) (compared : s.compare? again (.intersection ts) u = some b) :
    b = true ∨ ts.anyM (again · u) = some b := by
  cases u with
  | error => exact .inl (Option.some.inj compared).symm
  | intersection => exact absurd rfl plain
  | _ => exact .inr compared

/-- A type variable is below each of its bounds, if that is decided at all: what the bounds before it are below is asked
first. -/
theorem below?_bound {bound : TypeTree} (known : s.bound? e = some bound) (mem : u ∈ bound.members)
    (plain : u.kind ≠ .intersection) (below : s.below? (depth + 3) (.typeVariable e) u = some b) : b = true := by
  rw [below?] at below
  split at below
  · exact (Option.some.inj below).symm
  obtain done | below := compare?_variable plain below
  · exact done
  rw [known, Option.bind_some, below?] at below
  split at below
  · exact (Option.some.inj below).symm
  rename_i other
  cases bound with
  | intersection bounds =>
    obtain done | below := compare?_intersection plain below
    · exact done
    · exact anyM_of_mem (p := (s.below? (depth + 1) · u)) mem (s.below?_refl depth u) below
  | _ =>
    rw [List.mem_singleton.mp mem] at other
    exact absurd (TypeTree.same_refl _) other

end bounds

section usages

theorem Asunder.seenAbove (apart : TypeTree.Asunder e (s.declaredAbove r)) (args : List TypeTree) :
    TypeTree.Asunder e (s.seenAbove r args) := by
  unfold Store.seenAbove
  split
  · exact apart
  · split
    · exact apart.map fun u _ resolved => resolved.erase _
    · exact apart.map fun u _ resolved => resolved.substitute

theorem look_inl_iff {o : Outlook} : s.look target o t = some (.inl u) ↔ u = t ∧ t.element? = some target := by
  constructor
  · intro looked
    cases t with
    | declared outer e args =>
      rw [look] at looked
      split at looked
      · rename_i same
        cases looked
        exact ⟨rfl, congrArg some same⟩
      · split at looked
        · cases looked
        · simp at looked
    | typeVariable _ | intersection _ => simp [look] at looked
    | _ => cases looked
  · rintro ⟨rfl, element⟩
    cases u with
    | declared outer e args => rw [look, if_pos (Option.some.inj element)]
    | _ => cases element

theorem lookAll_meets {o : Outlook} {found : TypeTree ⊕ Outlook} (looked : s.lookAll target o ts = some found)
    (mem : u ∈ ts) (element : u.element? = some target) : ∃ v ∈ ts, found = .inl v ∧ v.element? = some target := by
  induction ts generalizing o with
  | nil => cases mem
  | cons t rest ih =>
    obtain ⟨first, seen, goes⟩ := Option.bind_eq_some_iff.mp looked
    cases first with
    | inl v =>
      obtain ⟨rfl, element'⟩ := look_inl_iff.mp seen
      exact ⟨v, by simp, (Option.some.inj goes).symm, element'⟩
    | inr o' =>
      have later : u ∈ rest := by
        rcases List.mem_cons.mp mem with rfl | later
        · cases seen.symm.trans (look_inl_iff.mpr ⟨rfl, element⟩)
        · exact later
      obtain ⟨v, there, same, element'⟩ := ih goes later
      exact ⟨v, List.mem_cons_of_mem _ there, same, element'⟩

end usages

end Store

namespace StoreM

variable {s s₁ s₂ : Store} {e f : ElementId} {t x : TypeId} {xs : List TypeId}

theorem asSuper?_immediate (h : s.Sound) (known : s.HasType t) {us : List TypeTree} {u : TypeTree}
    (usage : (s.tree t).element? = some e) (above : s.above? (s.tree t) = some us) (apart : TypeTree.Asunder e us)
    (mem : u ∈ us) (element : u.element? = some f) :
    Ensures Advances s (asSuper? t f).run fun r s' => ∃ v, r = some (some v) ∧ s'.HasType v ∧ s'.tree v = u := by
  have other : e ≠ f := apart.ne mem element
  obtain ⟨r₁, s₁, first⟩ : ∃ r s₁, visitAll f ⟨[], []⟩ [t] s = (r, s₁) := ⟨_, _, rfl⟩
  have there : ∀ x ∈ [t], s.HasType x := by simpa using known
  obtain ⟨move₁, known₁, looked₁⟩ := (visitAll_ensures h (f := ⟨[], []⟩) ⟨by simp, by simp, .nil⟩ there).result first
  have onward : visited s₁ r₁ = .inr ⟨[e], us⟩ := by
    have above₁ := move₁.toRetains.above? above
    cases tree : s.tree t with
    | declared o e' args =>
      rw [tree] at usage above₁
      cases usage
      rw [List.map_singleton, tree, lookAll, look, if_neg other, if_neg (by simp [Frontier.outlook]), above₁] at looked₁
      exact (Option.some.inj looked₁).symm
    | _ => simp [tree, TypeTree.element?] at usage
  cases r₁ with
  | inl v => cases onward
  | inr f₁ =>
    have outlook : f₁.outlook s₁ = ⟨[e], us⟩ := Sum.inr.inj onward
    have next : f₁.next.map s₁.tree = us := congrArg Outlook.next outlook
    obtain ⟨r₂, s₂, second⟩ : ∃ r s₂, visitAll f { f₁ with next := [] } f₁.next s₁ = (r, s₂) := ⟨_, _, rfl⟩
    obtain ⟨move₂, known₂, looked₂⟩ :=
      (visitAll_ensures move₁.sound (f := { f₁ with next := [] }) ⟨by simp, known₁.seen, known₁.once⟩ known₁.next).result second
    obtain ⟨v', there, met, element'⟩ := lookAll_meets looked₂ (next ▸ mem) element
    rw [next] at there
    obtain rfl := apart.unique mem there element element'
    cases r₂ with
    | inr f₂ => cases met
    | inl v =>
      obtain ⟨j, outcome⟩ := asSuper?_outcome h known f
      have more : f₁.next ≠ [] := by
        rintro nothing
        rw [← next, nothing] at mem
        cases mem
      have runs : (asSuper? t f).run s = (some (some v), s₂) := by
        rw [← outcome 2, Nat.add_comm, searching_succ, searchStep_on (by simp) first, searching_succ,
          searchStep_found more second]
      unfold Ensures
      rw [runs]
      exact ⟨Movement.trans move₁ move₂, v, rfl, known₂, Sum.inl.inj met⟩

/-- A usage is below what is immediately above it, and this is always decided. -/
theorem isSubtype?_immediate (h : s.Sound) {us : List TypeTree} {o : TypeId} {args : List TypeId}
    (usage : s.shape? t = some (.declared o e args)) (known : s.HasType x) (above : s.above? (s.tree t) = some us)
    (apart : TypeTree.Asunder e us) (mem : s.tree x ∈ us) : ((isSubtype? t x).run s).1 = some true := by
  have there : s.HasType t := has_type_iff.mpr ⟨_, usage⟩
  have tree := h.tree_of_shape usage
  obtain ⟨o', f, wanted, same⟩ | ⟨name, same⟩ := (apart.resolved _ mem).cases
  · obtain ⟨o'', args', usage'⟩ := h.usage_of_tree same
    have searched := asSuper?_immediate h there (f := f) (by rw [tree]; rfl) above apart mem (by rw [same]; rfl)
    have step : (isSubtype? t x).run s = (isSubtypeStep (isSubtypeN 64) t x).run s := rfl
    rw [step, isSubtypeStep, optionT_get_bind]
    split
    · rfl
    obtain ⟨r, s₁, runs⟩ : ∃ r s₁, (asSuper? t f).run s = (r, s₁) := ⟨_, _, rfl⟩
    obtain ⟨move, v, rfl, known₁, view⟩ := searched.result runs
    rw [shape_of_shape? usage, shape_of_shape? usage']
    dsimp only
    rw [optionT_bind_some runs]
    dsimp only
    rw [optionT_get_bind]
    obtain ⟨arguments, trees⟩ := arguments_known move.sound.toConsistent known₁
    obtain ⟨wanted', trees'⟩ := arguments_known h.toConsistent known
    rw [shape_of_shape? usage'] at wanted' trees'
    have fits := (argumentsFit_tells (isSubtypeN_tells 64) move.sound arguments
      fun u mem => move.moves.grows.has_type (wanted' u mem)).2
    rw [trees, move.map_tree wanted', view, trees'] at fits
    exact fits.symm.trans (Store.argumentsFit?_refl _ 63 _)
  · have below := (isSubtype?_ensures h there known).2
    rw [tree, same] at below
    rw [← below]
    rfl

section declared

def declaredSupers (e : ElementId) : StoreM (List TypeId) := do declaredSupertypes (← complete e)

theorem complete_done (h : s.Sound) {r : ElementRecord} (done : s.record? e = some r) : complete e s = (r, s) := by
  obtain ⟨slot, found, state⟩ := record?_eq_some_iff.mp done
  rw [StoreM.complete_eq_step h.toConsistent.orderly e, Completion.step_of_complete found state]

theorem directSupertypes_after {a : Store} {r : ElementRecord} {o : TypeId} {args : List TypeId} (h : s.Sound)
    (usage : s.shape? t = some (.declared o e args)) (completed : complete e s = (r, a)) :
    directSupertypes t s = directSupertypes t a := by
  have there : s.HasElement e := (((h.shapes t _ usage).declared o e args rfl).1).there
  obtain ⟨move, done⟩ := (complete_record h there).result completed
  have usage' := move.moves.grows.shape usage
  unfold directSupertypes
  rw [stateM_get_bind, stateM_get_bind, shape_of_shape? usage, shape_of_shape? usage']
  dsimp only
  rw [stateM_bind, stateM_bind, completed, complete_done move.sound done]

end declared

end StoreM

namespace Store

variable {s s₁ s₂ : Store} {e : ElementId} {r : ElementRecord} {t x : TypeId} {xs : List TypeId} {top : ElementId}

/-- What an element says its supertypes are was resolved, to usages of different elements other than itself or to
errors. -/
structure AsunderAbove (s : Store) (e : ElementId) : Prop where
  resolved : ∀ u ∈ ((declaredSupers e).run s).1,
    ((declaredSupers e).run s).2.typeKind u = .declared ∨ ((declaredSupers e).run s).2.typeKind u = .error
  distinct : (e :: ((declaredSupers e).run s).1.filterMap fun u => (((declaredSupers e).run s).2.shape u).element?).Nodup

theorem Sound.element?_tree (h : s.Sound) (resolved : (s.tree t).IsResolved) : (s.tree t).element? = (s.shape t).element? := by
  have unfolds := h.tree_eq t
  obtain ⟨o, f, args, same⟩ | ⟨name, same⟩ := resolved.cases
  · obtain ⟨o', args', usage⟩ := h.usage_of_tree same
    rw [same, shape_of_shape? usage]
    rfl
  · rw [same] at unfolds ⊢
    cases shape : s.shape t with
    | error _ => rfl
    | declared | typeVariable => simp [shape, TypeShape.unfold] at unfolds
    | _ => rfl

theorem AsunderAbove.declaredAbove {a : Store} (h : s.Sound) (apart : s.AsunderAbove e) (there : s.HasElement e)
    (completed : complete e s = (r, a)) : TypeTree.Asunder e (a.declaredAbove r) := by
  obtain ⟨move, done⟩ := (complete_record h there).result completed
  obtain ⟨supers, s₀, lists⟩ : ∃ supers s₀, declaredSupertypes r a = (supers, s₀) := ⟨_, _, rfl⟩
  obtain ⟨move₀, _, trees⟩ := (declaredSupertypes_ensures move.sound (move.sound.recordKnown done)).result lists
  have runs : (declaredSupers e).run s = (supers, s₀) := by
    change declaredSupers e s = _
    rw [declaredSupers, stateM_bind, completed, lists]
  obtain ⟨resolved, distinct⟩ := apart
  rw [runs] at resolved distinct
  have usages (u : TypeId) (mem : u ∈ supers) : (s₀.tree u).IsResolved := by
    simpa only [TypeTree.IsResolved, move₀.sound.tree_kind] using resolved u mem
  rw [← trees]
  refine ⟨fun u mem => ?_, ?_⟩
  · obtain ⟨v, listed, rfl⟩ := List.mem_map.mp mem
    exact usages v listed
  · rw [List.filterMap_map]
    have same : supers.filterMap (TypeTree.element? ∘ s₀.tree) = supers.filterMap fun u => (s₀.shape u).element? :=
      List.filterMap_congr fun u mem => move₀.sound.element?_tree (usages u mem)
    rw [same]
    exact distinct

/-- The types whose immediate supertypes are spoken of here: arrays, type variables, and usages of elements with
different elements above them. -/
inductive Placed (s : Store) (t : TypeId) : Prop where
  | array {c : TypeId} (shape : s.shape? t = some (.array c))
  | typeVariable {e : ElementId} {upper : TypeId} (shape : s.shape? t = some (.typeVariable e upper))
  | usage {o : TypeId} {e : ElementId} {args : List TypeId} (shape : s.shape? t = some (.declared o e args))
      (apart : s.AsunderAbove e)

theorem Sound.bounds_plain (h : s.Sound) (single : s.Singly) {upper : TypeId}
    (shape : s.shape? t = some (.typeVariable e upper)) : ∀ u ∈ (s.tree upper).members, u.kind ≠ .intersection := by
  obtain ⟨kind, _, unique⟩ := (h.shapes t _ shape).typeVariable e upper rfl
  obtain ⟨r, complete⟩ := h.record_of_owned kind rfl
  obtain ⟨slot, found, fits⟩ := h.fits complete
  obtain ⟨slot', found', kind'⟩ := kind?_eq_some_iff.mp kind
  cases found.symm.trans found'
  obtain ⟨_, _, upper', shape', bounds⟩ := fits.bound kind'
  rw [unique r complete, shape] at shape'
  cases shape'
  have plain := (single.records e r complete).2
  have listed : (s.tree upper).members = r.bounds.map s.tree := by
    rw [h.members_eq]
    rcases bounds with one | several
    · obtain ⟨shape'', found'', other, -⟩ := plain upper (by simp [one])
      rw [one, shape_of_shape? found'']
      cases shape'' with
      | intersection ts => exact absurd rfl other
      | _ => rfl
    · rw [shape_of_shape? several]
  intro u mem
  rw [listed] at mem
  obtain ⟨b, there, rfl⟩ := List.mem_map.mp mem
  obtain ⟨shape'', found'', other, -⟩ := plain b there
  rw [h.tree_kind, typeKind, shape_of_shape? found'']
  exact other

/-- What is listed above a usage is apart if what its element declares is. -/
theorem AsunderAbove.listed (h : s.Sound) (apart : s.AsunderAbove e) {o : TypeId} {args : List TypeId}
    (usage : s.shape? t = some (.declared o e args)) (lists : (directSupertypes t).run s = (xs, s₁)) :
    TypeTree.Asunder e (xs.map s₁.tree) := by
  obtain ⟨k, kind, isType⟩ := ((h.shapes t _ usage).declared o e args rfl).1
  have there : s.HasElement e := IsType.there ⟨k, kind, isType⟩
  obtain ⟨r, a, completed⟩ : ∃ r a, complete e s = (r, a) := ⟨_, _, rfl⟩
  obtain ⟨move, done⟩ := (complete_record h there).result completed
  have again : (directSupertypes t).run a = (xs, s₁) := (directSupertypes_after h usage completed).symm.trans lists
  obtain ⟨move₁, _, above⟩ := (directSupertypes_ensures move.sound t).result again
  obtain ⟨sameKind, lasts⟩ := move.sound.lasting_of_kind done (move.moves.grows.kind kind)
    (ElementKind.isType_not_container isType)
  have declared := apart.declaredAbove h there completed
  rw [← move₁.toRetains.declaredAbove (move.sound.recordKnown done)] at declared
  rw [move.sound.tree_of_shape (move.moves.grows.shape usage), TypeShape.unfold, above?, move₁.lasting lasts,
    Option.map_some, if_pos (by rw [sameKind, isType])] at above
  rw [← Option.some.inj above]
  exact Asunder.seenAbove declared _

end Store

/-- A type is below each type that is listed as immediately above it, in any store that is left later. Only if the type
is a variable could an answer fail to come, as other bounds are asked first. -/
theorem immediate_supertypes_are_above {s s₁ s₂ : Store} {top : ElementId} {t x : TypeId} {xs : List TypeId}
    (reachable : s.Reachable) (object : s.objectElement? = some top) (placed : s.Placed t)
    (lists : (directSupertypes t).run s = (xs, s₁)) (mem : x ∈ xs) (later : s₁.LeadsTo s₂)
    (ends : s.typeKind t = .typeVariable → ((isSubtype? t x).run s₂).1.isSome) :
    ((isSubtype t x).run s₂).1 = true := by
  have h := reachable.sound
  have known : s.HasType t := by
    cases placed with
    | array shape | typeVariable shape | usage shape => exact has_type_iff.mpr ⟨_, shape⟩
  obtain ⟨move, there, above⟩ := (directSupertypes_ensures h t).result lists
  have retains : s₁.Retains s₂ := (later.grown move.sound).retains (move.toRetains.object.trans object)
  have h₂ : s₂.Sound := (later.grown move.sound).sound
  have known₁ := move.moves.grows.has_type known
  have known₂ : s₂.HasType t := retains.grows.has_type known₁
  have there₂ : s₂.HasType x := retains.grows.has_type (there x mem)
  have tree : s₂.tree t = s.tree t := (retains.tree known₁).trans (move.tree known)
  have listed : xs.map s₂.tree = xs.map s₁.tree := List.map_congr_left fun u mem => retains.tree (there u mem)
  have above₂ := retains.above? above
  rw [← tree, ← listed] at above₂
  have among : s₂.tree x ∈ xs.map s₂.tree := List.mem_map_of_mem mem
  obtain ⟨answer, s₃, asks⟩ : ∃ answer s₃, (isSubtype? t x).run s₂ = (answer, s₃) := ⟨_, _, rfl⟩
  obtain ⟨move₃, below⟩ := (isSubtype?_ensures h₂ known₂ there₂).result asks
  suffices answered : answer = some true by
    change ((isSubtype? t x).run s₂).1.getD false = true
    rw [asks, answered]
    rfl
  cases placed with
  | array shape =>
    have top₂ : s₂.objectElement? = some top := retains.object.trans (move.toRetains.object.trans object)
    have objects : s₂.objectTree = .declared .none top [] := by rw [objectTree, top₂]
    rw [tree, h.tree_of_shape shape, TypeShape.unfold] at above₂ below
    rw [above?, objects, if_neg (by simp [TypeTree.isNone])] at above₂
    rw [← Option.some.inj above₂, List.mem_singleton] at among
    rw [among] at below
    exact below.symm.trans (below?_array_top (move₃.toRetains.object.trans top₂))
  | @typeVariable e upper shape =>
    have variable_ : s.typeKind t = .typeVariable := by rw [typeKind, shape_of_shape? shape]; rfl
    have bound := (Movement.trans retains move₃.toRetains).bound? (move.toRetains.bound? (h.bound?_eq shape))
    have answered := ends variable_
    rw [asks] at answered
    obtain ⟨b, rfl⟩ := Option.isSome_iff_exists.mp answered
    rw [tree, h.tree_of_shape shape, TypeShape.unfold] at above₂ below
    rw [above?, (retains.bound? (move.toRetains.bound? (h.bound?_eq shape))), Option.map_some] at above₂
    rw [← Option.some.inj above₂] at among
    rw [below?_bound bound among (h.bounds_plain reachable.singly shape _ among) below]
  | usage shape apart =>
    have usage₂ := retains.grows.shape (move.moves.grows.shape shape)
    have apart₂ := apart.listed h shape lists
    rw [← listed] at apart₂
    have above := isSubtype?_immediate h₂ usage₂ there₂ above₂ apart₂ among
    rwa [asks] at above

section sample

@[irreducible] def Store.wildBow : Store :=
  ((declaredType none ⟨3⟩ [⟨16⟩]).run ((wildcardType (some ⟨13⟩) none).run ringUsages).2).2

theorem reachable_wildBow : wildBow.Reachable := by
  unfold wildBow
  have bounded : ((wildcardType (some ⟨13⟩) none).run ringUsages).2.Reachable :=
    reachable_ringUsages.request (.wildcardType (some ⟨13⟩) none) (by decide +kernel) (by decide +kernel)
  exact bounded.request (.declaredType none ⟨3⟩ [⟨16⟩]) (by decide +kernel) (by decide +kernel)

theorem wildBow_below_all_above : ∃ xs s₁, (directSupertypes ⟨17⟩).run wildBow = (xs, s₁) ∧ xs.length = 2 ∧
    ∀ x ∈ xs, ((isSubtype ⟨17⟩ x).run s₁).1 = true := by
  have usage : wildBow.shape? ⟨17⟩ = some (.declared .none ⟨3⟩ [⟨16⟩]) := by decide +kernel
  have apart : wildBow.AsunderAbove ⟨3⟩ := ⟨by decide +kernel, by decide +kernel⟩
  have object : wildBow.objectElement? = some ⟨1⟩ := by decide +kernel
  refine ⟨_, _, rfl, by decide +kernel, fun x mem => ?_⟩
  refine immediate_supertypes_are_above reachable_wildBow object (.usage usage apart) rfl mem .rest fun variable_ => ?_
  rw [typeKind, shape_of_shape? usage] at variable_
  cases variable_

end sample

end Nominal
