import Mathlib.Logic.Relation
import Nominal.Proofs.Types.Abiding
import Nominal.Proofs.Types.Admitting
/-!
Subtyping is reachability. Types inherit from the types that their records declare, and the search for a supertype
over an element comes to an end, and finds one, exactly where the element is reached in this graph. The graph may
have circles, and the arguments may grow along them.
-/

namespace Nominal

open Store StoreM

def TypeTree.element? : TypeTree → Option ElementId
  | declared _ e _ => some e
  | _ => .none

namespace Store

def Inherits (s : Store) (c d : ElementId) : Prop :=
  ∃ r, s.lasting? c = some r ∧ r.kind.isType ∧
    ((∃ t ∈ r.superclass :: r.interfaces, ∃ o args, s.shape? t = some (.declared o d args)) ∨
      (r.kind.isInterface ∧ r.superclass = .none ∧ s.objectElement? = some d))

/-- Zero or more steps of inheritance lead from the first element to the second. -/
def Descends (s : Store) : ElementId → ElementId → Prop := Relation.ReflTransGen s.Inherits

/-- What is declared as a supertype by `c`, or by a type that `c` descends from, was resolved to a usage or an error. -/
def ResolvesAbove (s : Store) (c : ElementId) : Prop :=
  ∀ d r, s.Descends c d → s.lasting? d = some r →
    ∀ t ∈ r.superclass :: r.interfaces, t = .none ∨ s.typeKind t = .declared ∨ s.typeKind t = .error

def Ancestor (s : Store) (c : ElementId) : TypeTree → Prop
  | .declared _ d _ => s.Descends c d
  | .error _ | .noType _ => True
  | _ => False

variable {s s' : Store} {c d target : ElementId} {r : ElementRecord} {t u : TypeTree} {σ : ElementId → Option TypeTree}

section graph

theorem Retains.inherits (move : s.Retains s') (lasts : s.lasting? c = some r) :
    s'.Inherits c d ↔ s.Inherits c d := by
  have known := move.start.recordKnown (lasting?_eq_some_iff.mp lasts).1
  have shape (t : TypeId) (mem : t ∈ r.superclass :: r.interfaces) : s'.shape? t = s.shape? t := by
    have there : s.HasType t := List.forall_mem_cons.mpr ⟨known.superclass, known.interfaces⟩ t mem
    obtain ⟨shape, found⟩ := has_type_iff.mp there
    rw [found, move.grows.shape found]
  unfold Inherits
  rw [move.lasting lasts, lasts, move.object]
  refine exists_congr fun r' => and_congr_right fun same => and_congr_right fun _ => or_congr_left ?_
  cases same
  exact exists_congr fun t => and_congr_right fun mem => by rw [shape t mem]

theorem Retains.descends (move : s.Retains s') (descends : s.Descends c d) : s'.Descends c d := by
  refine Relation.ReflTransGen.mono (fun a b step => ?_) _ _ descends
  obtain ⟨r, lasts, _⟩ := id step
  exact (move.inherits lasts).mpr step

/-- What is resolved in the end was resolved before, as far as it was known. -/
theorem Retains.resolvesAbove (move : s.Retains s') (resolves : s'.ResolvesAbove c) : s.ResolvesAbove c := by
  intro d r descends lasts t mem
  have known := move.start.recordKnown (lasting?_eq_some_iff.mp lasts).1
  have there : s.HasType t := List.forall_mem_cons.mpr ⟨known.superclass, known.interfaces⟩ t mem
  have later := resolves d r (move.descends descends) (move.lasting lasts) t mem
  rwa [typeKind, move.shape there] at later

theorem declaredAbove_cases (mem : u ∈ s.declaredAbove r) : (∃ t ∈ r.superclass :: r.interfaces, u = s.tree t) ∨
    (r.kind.isInterface ∧ r.superclass = .none ∧ u = s.objectTree) := by
  have listed (mem : u ∈ r.interfaces.map s.tree) : ∃ t ∈ r.superclass :: r.interfaces, u = s.tree t := by
    obtain ⟨t, there, rfl⟩ := List.mem_map.mp mem
    exact ⟨t, List.mem_cons_of_mem _ there, rfl⟩
  simp only [declaredAbove] at mem
  split at mem
  · rcases List.mem_cons.mp mem with rfl | mem
    · exact .inl ⟨_, List.mem_cons_self, rfl⟩
    · exact .inl (listed mem)
  · rename_i nothing
    split at mem
    · rename_i top
      rcases List.mem_cons.mp mem with rfl | mem
      · exact .inr ⟨top.1, not_not.mp nothing, rfl⟩
      · exact .inl (listed mem)
    · exact .inl (listed mem)

theorem Sound.inherits_of_declared (h : s.Sound) (lasts : s.lasting? c = some r) (isType : r.kind.isType)
    {o : TypeTree} {args : List TypeTree} (mem : .declared o d args ∈ s.declaredAbove r) : s.Inherits c d := by
  refine ⟨r, lasts, isType, ?_⟩
  rcases declaredAbove_cases mem with ⟨t, listed, tree⟩ | ⟨isInterface, nothing, tree⟩
  · exact .inl ⟨t, listed, h.usage_of_tree tree.symm⟩
  · refine .inr ⟨isInterface, nothing, ?_⟩
    rw [objectTree] at tree
    cases object : s.objectElement? with
    | none => simp [object, TypeTree.none] at tree
    | some e =>
      simp only [object, TypeTree.declared.injEq] at tree
      rw [tree.2.1]

theorem Sound.declared_of_inherits (h : s.Sound) (lasts : s.lasting? c = some r) (inherits : s.Inherits c d) :
    ∃ o args, .declared o d args ∈ s.declaredAbove r := by
  obtain ⟨r', lasts', _, step⟩ := inherits
  cases lasts.symm.trans lasts'
  simp only [declaredAbove]
  rcases step with ⟨t, mem, o, args, found⟩ | ⟨isInterface, nothing, object⟩
  · have tree : s.tree t = .declared (s.tree o) d (args.map s.tree) := h.tree_of_shape found
    refine ⟨s.tree o, args.map s.tree, ?_⟩
    rw [← tree]
    rcases List.mem_cons.mp mem with rfl | mem
    · have usage : r.superclass ≠ .none := fun nothing => by
        rw [nothing, h.tree_none] at tree
        cases tree
      rw [if_pos usage]
      exact List.mem_cons_self
    · have interface : s.tree t ∈ r.interfaces.map s.tree := List.mem_map_of_mem mem
      split
      · exact List.mem_cons_of_mem _ interface
      · split
        · exact List.mem_cons_of_mem _ interface
        · exact interface
  · have top : s.objectTree = .declared .none d [] := by rw [objectTree, object]
    refine ⟨.none, [], ?_⟩
    rw [if_neg (not_not.mpr nothing), if_pos ⟨isInterface, by rw [top]; simp [TypeTree.isNone]⟩, top]
    exact List.mem_cons_self

end graph

section ancestors

theorem Retains.ancestor (move : s.Retains s') (ancestor : s.Ancestor c t) : s'.Ancestor c t := by
  cases t with
  | declared _ _ _ => exact move.descends ancestor
  | error _ | noType _ => trivial
  | _ => exact ancestor.elim

theorem Ancestor.substitute (ancestor : s.Ancestor c t) : s.Ancestor c (t.substitute σ) := by
  cases t with
  | declared _ _ _ | error _ | noType _ => exact ancestor
  | _ => exact ancestor.elim

theorem Ancestor.erased (ancestor : s.Ancestor c t) : s.Ancestor c (s.erased t) := by
  cases t with
  | declared _ _ _ | error _ | noType _ => exact ancestor
  | _ => exact ancestor.elim

theorem Consistent.resolved_tree (h : s.Consistent) {t : TypeId}
    (resolved : t = .none ∨ s.typeKind t = .declared ∨ s.typeKind t = .error) :
    s.tree t = .none ∨ (∃ o e args, s.tree t = .declared o e args) ∨ ∃ v, s.tree t = .error v := by
  rcases resolved with rfl | resolved
  · exact .inl h.tree_none
  · rw [h.tree_eq]
    unfold typeKind at resolved
    cases shape : s.shape t with
    | declared o e args => exact .inr (.inl ⟨_, _, _, rfl⟩)
    | error v => exact .inr (.inr ⟨_, rfl⟩)
    | primitive p => cases p <;> simp [shape, TypeShape.kind, Primitive.kind] at resolved
    | noType n => cases n <;> simp [shape, TypeShape.kind, NoType.kind] at resolved
    | _ => simp [shape, TypeShape.kind] at resolved

theorem ResolvesAbove.declaredAbove (h : s.Sound) (resolves : s.ResolvesAbove c) (descends : s.Descends c d)
    (lasts : s.lasting? d = some r) (isType : r.kind.isType) (mem : u ∈ s.declaredAbove r) : s.Ancestor c u := by
  have usage (o : TypeTree) (e : ElementId) (args : List TypeTree) (same : u = .declared o e args) : s.Ancestor c u :=
    same ▸ descends.tail (h.inherits_of_declared lasts isType (same ▸ mem))
  rcases declaredAbove_cases mem with ⟨t, listed, rfl⟩ | ⟨_, _, rfl⟩
  · rcases h.resolved_tree (resolves d r descends lasts t listed) with nothing | ⟨o, e, args, same⟩ | ⟨v, same⟩
    · rw [nothing]
      trivial
    · exact usage o e args same
    · rw [same]
      trivial
  · rcases s.context_fits with nothing | ⟨e, same⟩
    · rw [show s.objectTree = .none from nothing]
      trivial
    · exact usage .none e [] same

theorem ResolvesAbove.seenAbove (h : s.Sound) (resolves : s.ResolvesAbove c) (descends : s.Descends c d)
    (lasts : s.lasting? d = some r) (isType : r.kind.isType) {args : List TypeTree} (mem : u ∈ s.seenAbove r args) :
    s.Ancestor c u := by
  have declared (v : TypeTree) (mem : v ∈ s.declaredAbove r) : s.Ancestor c v :=
    resolves.declaredAbove h descends lasts isType mem
  rw [Store.seenAbove] at mem
  split at mem
  · exact declared u mem
  · split at mem
    · obtain ⟨v, listed, rfl⟩ := List.mem_map.mp mem
      exact (declared v listed).erased
    · obtain ⟨v, listed, rfl⟩ := List.mem_map.mp mem
      exact (declared v listed).substitute

theorem ResolvesAbove.look (h : s.Sound) (resolves : s.ResolvesAbove c) {o : Outlook}
    (next : ∀ v ∈ o.next, s.Ancestor c v) (ancestor : s.Ancestor c t) {x : TypeTree ⊕ Outlook}
    (looked : s.look target o t = some x) :
    (∀ v, x = .inl v → s.Ancestor c v) ∧ ∀ o', x = .inr o' → ∀ v ∈ o'.next, s.Ancestor c v := by
  cases t with
  | declared outer e args =>
    rw [Store.look] at looked
    split at looked
    · cases looked
      exact ⟨by rintro _ ⟨⟩; exact ancestor, by rintro _ ⟨⟩⟩
    · split at looked
      · cases looked
        exact ⟨by rintro _ ⟨⟩, by rintro _ ⟨⟩; exact next⟩
      · obtain ⟨ts, above, rfl⟩ := Option.map_eq_some_iff.mp looked
        obtain ⟨r, lasts, rfl⟩ := Option.map_eq_some_iff.mp above
        refine ⟨by rintro _ ⟨⟩, ?_⟩
        rintro _ ⟨⟩ v mem
        rcases List.mem_append.mp mem with mem | mem
        · exact next v mem
        · split at mem
          · exact resolves.seenAbove h ancestor lasts ‹_› mem
          · cases mem
  | error _ | noType _ =>
    cases looked
    exact ⟨by rintro _ ⟨⟩, by rintro _ ⟨⟩; exact next⟩
  | _ => exact ancestor.elim

theorem ResolvesAbove.lookAll (h : s.Sound) (resolves : s.ResolvesAbove c) {o : Outlook} {ts : List TypeTree}
    (next : ∀ v ∈ o.next, s.Ancestor c v) (ancestors : ∀ t ∈ ts, s.Ancestor c t) {x : TypeTree ⊕ Outlook}
    (looked : s.lookAll target o ts = some x) :
    (∀ v, x = .inl v → s.Ancestor c v) ∧ ∀ o', x = .inr o' → ∀ v ∈ o'.next, s.Ancestor c v := by
  induction ts generalizing o with
  | nil =>
    cases looked
    exact ⟨by rintro _ ⟨⟩, by rintro _ ⟨⟩; exact next⟩
  | cons t ts ih =>
    obtain ⟨first, looked₁, looked⟩ := Option.bind_eq_some_iff.mp looked
    obtain ⟨found, on⟩ := resolves.look h next (ancestors t (by simp)) looked₁
    cases first with
    | inl v =>
      cases looked
      exact ⟨found, by rintro _ ⟨⟩⟩
    | inr o₁ => exact ih (on o₁ rfl) (fun t mem => ancestors t (by simp [mem])) looked

theorem ResolvesAbove.search? (h : s.Sound) (resolves : s.ResolvesAbove c) {levels : Nat} {o : Outlook}
    (next : ∀ v ∈ o.next, s.Ancestor c v) (found : s.search? target levels o = some (some u)) : s.Ancestor c u := by
  induction levels generalizing o with
  | zero => cases found
  | succ levels ih =>
    rw [search?_succ, lookStep] at found
    split at found
    · cases found
    · obtain ⟨first, looked, found⟩ := Option.bind_eq_some_iff.mp found
      obtain ⟨here, on⟩ := resolves.lookAll h (o := { o with next := [] }) (by simp) next looked
      cases first with
      | inl v =>
        cases found
        exact here u rfl
      | inr o₁ => exact ih (on o₁ rfl) found

end ancestors

section closure

variable {seen seen' : List ElementId} {pending pending' ts : List TypeTree}

def Met (seen : List ElementId) (pending : List TypeTree) (e : ElementId) : Prop :=
  e ∈ seen ∨ some e ∈ pending.map TypeTree.element?

def Closes (s : Store) (target : ElementId) (seen : List ElementId) (pending : List TypeTree) : Prop :=
  ∀ e ∈ seen, e ≠ target ∧ (∃ r, s.lasting? e = some r) ∧ ∀ d, s.Inherits e d → Met seen pending d

theorem Sound.met_of_inherits (h : s.Sound) (lasts : s.lasting? c = some r) (inherits : s.Inherits c d)
    (args : List TypeTree) : some d ∈ (s.seenAbove r args).map TypeTree.element? := by
  obtain ⟨o, as, mem⟩ := h.declared_of_inherits lasts inherits
  rw [seenAbove]
  split
  · exact List.mem_map_of_mem mem
  · rw [apply_ite (List.map TypeTree.element?), List.map_map, List.map_map]
    split <;> exact List.mem_map_of_mem mem

theorem Closes.look (h : s.Sound) {o o' : Outlook} (closes : s.Closes target o.seen (o.next ++ t :: ts))
    (looked : s.look target o t = some (.inr o')) :
    s.Closes target o'.seen (o'.next ++ ts) ∧
      ∀ e, Met o.seen (o.next ++ t :: ts) e → Met o'.seen (o'.next ++ ts) e := by
  -- unless a new element is seen, it is enough that what was met stays met
  have unseen (same : o'.seen = o.seen)
      (stays : ∀ e, Met o.seen (o.next ++ t :: ts) e → Met o'.seen (o'.next ++ ts) e) :
      s.Closes target o'.seen (o'.next ++ ts) ∧
        ∀ e, Met o.seen (o.next ++ t :: ts) e → Met o'.seen (o'.next ++ ts) e := by
    refine ⟨fun e mem => ?_, stays⟩
    obtain ⟨other, lasts, inherits⟩ := closes e (same ▸ mem)
    exact ⟨other, lasts, fun d step => stays d (inherits d step)⟩
  have met (e : ElementId) (other : t.element? ≠ some e) (met : Met o.seen (o.next ++ t :: ts) e) :
      e ∈ o.seen ∨ some e ∈ o.next.map TypeTree.element? ∨ some e ∈ ts.map TypeTree.element? := by
    refine met.imp_right fun mem => ?_
    rw [List.map_append, List.map_cons, List.mem_append, List.mem_cons] at mem
    exact mem.imp_right fun mem => mem.resolve_left other.symm
  cases t with
  | declared outer e args =>
    rw [Store.look] at looked
    split at looked
    · cases looked
    · rename_i other
      split at looked
      · rename_i before
        cases looked
        refine unseen rfl fun d isMet => ?_
        by_cases same : d = e
        · exact .inl (same ▸ before)
        · simpa [Met] using met d (by simpa [TypeTree.element?] using Ne.symm same) isMet
      · obtain ⟨above, known, same⟩ := Option.map_eq_some_iff.mp looked
        cases same
        obtain ⟨r, lasts, rfl⟩ := Option.map_eq_some_iff.mp known
        have stays (d : ElementId) (isMet : Met o.seen (o.next ++ .declared outer e args :: ts) d) :
            Met (e :: o.seen) (o.next ++ (if r.kind.isType then s.seenAbove r args else []) ++ ts) d := by
          by_cases same : d = e
          · exact .inl (by simp [same])
          · have := met d (by simpa [TypeTree.element?] using Ne.symm same) isMet
            simp only [Met, List.mem_cons, List.map_append, List.mem_append]
            tauto
        refine ⟨fun d mem => ?_, stays⟩
        rcases List.mem_cons.mp mem with rfl | mem
        · refine ⟨other, ⟨r, lasts⟩, fun d' step => .inr ?_⟩
          obtain ⟨r', lasts', isType, _⟩ := id step
          cases lasts.symm.trans lasts'
          rw [if_pos isType, List.map_append, List.map_append]
          exact List.mem_append_left _ (List.mem_append_right _ (h.met_of_inherits lasts step args))
        · obtain ⟨other', lasts', inherits⟩ := closes d mem
          exact ⟨other', lasts', fun d' step => stays d' (inherits d' step)⟩
  | typeVariable _ | intersection _ =>
    rw [Store.look] at looked
    obtain ⟨above, _, same⟩ := Option.map_eq_some_iff.mp looked
    cases same
    refine unseen rfl fun d isMet => ?_
    have := met d (by simp [TypeTree.element?]) isMet
    simp only [Met, List.map_append, List.mem_append]
    tauto
  | _ =>
    cases looked
    refine unseen rfl fun d isMet => ?_
    simpa [Met] using met d (by simp [TypeTree.element?]) isMet

theorem Closes.lookAll (h : s.Sound) {o o' : Outlook} (closes : s.Closes target o.seen (o.next ++ ts))
    (looked : s.lookAll target o ts = some (.inr o')) :
    s.Closes target o'.seen o'.next ∧ ∀ e, Met o.seen (o.next ++ ts) e → Met o'.seen o'.next e := by
  induction ts generalizing o with
  | nil =>
    cases looked
    rw [List.append_nil] at closes ⊢
    exact ⟨closes, fun _ => id⟩
  | cons t ts ih =>
    obtain ⟨first, looked₁, looked⟩ := Option.bind_eq_some_iff.mp looked
    cases first with
    | inl v => cases looked
    | inr o₁ =>
      obtain ⟨closes₁, stays₁⟩ := closes.look h looked₁
      obtain ⟨closes', stays⟩ := ih closes₁ looked
      exact ⟨closes', fun e met => stays e (stays₁ e met)⟩

/-- When a search ends in vain, it has seen everything that there is to be met. -/
theorem Closes.search? (h : s.Sound) {levels : Nat} {o : Outlook} (closes : s.Closes target o.seen o.next)
    (vain : s.search? target levels o = some none) :
    ∃ seen, s.Closes target seen [] ∧ ∀ e, Met o.seen o.next e → e ∈ seen := by
  induction levels generalizing o with
  | zero => cases vain
  | succ levels ih =>
    rw [search?_succ, lookStep] at vain
    split at vain
    · rename_i ends
      rw [List.isEmpty_iff] at ends
      rw [ends] at closes ⊢
      exact ⟨o.seen, closes, fun e met => by simpa [Met] using met⟩
    · obtain ⟨first, looked, vain⟩ := Option.bind_eq_some_iff.mp vain
      cases first with
      | inl v => cases vain
      | inr o₁ =>
        obtain ⟨closes₁, stays₁⟩ := Closes.lookAll h (o := { o with next := [] }) (by simpa using closes) looked
        obtain ⟨seen, all, stays⟩ := ih closes₁ vain
        exact ⟨seen, all, fun e met => stays e (stays₁ e (by simpa using met))⟩

/-- Nothing else is ever descended to, whatever is entered and completed later. -/
theorem Closes.descends (closes : s.Closes target seen []) (move : s.Retains s') (start : c ∈ seen)
    (descends : s'.Descends c d) : d ∈ seen := by
  induction descends with
  | refl => exact start
  | tail _ step there =>
    obtain ⟨_, ⟨r, lasts⟩, inherits⟩ := closes _ there
    simpa [Met] using inherits _ ((move.inherits lasts).mp step)

end closure

end Store

namespace StoreM

variable {s s₁ : Store} {c target : ElementId} {t : TypeId} {f : Frontier} {answer : Option (Option TypeId)}

theorem follow_of_ancestor (h : s.Consistent) (ancestor : s.Ancestor c (s.tree t)) : s.follow t = [] := by
  rw [h.tree_eq] at ancestor
  rw [follow]
  cases shape : s.shape t with
  | typeVariable _ _ | intersection _ =>
    rw [shape] at ancestor
    exact ancestor.elim
  | _ => rfl

theorem searching_ends (h : s.Sound) (known : f.Known s) (ancestors : ∀ t ∈ f.next, s.Ancestor c (s.tree t)) {n : Nat}
    (enough : s.typeElements.length + 2 ≤ n + f.seen.length) (searched : (searching target n f).run s = (answer, s₁))
    (resolves : s₁.ResolvesAbove c) : answer.isSome := by
  have few := known.few h.toConsistent
  induction n generalizing s f with
  | zero => omega
  | succ n ih =>
    rw [searching_succ] at searched
    by_cases ends : f.next = []
    · rw [searchStep_end ends] at searched
      cases searched
      rfl
    obtain ⟨x, s', visits⟩ : ∃ x s', visitAll target { f with next := [] } f.next s = (x, s') := ⟨_, _, rfl⟩
    cases x with
    | inl u =>
      rw [searchStep_found ends visits] at searched
      cases searched
      rfl
    | inr f₁ =>
      rw [searchStep_on ends visits] at searched
      have begins : Frontier.Known s { f with next := [] } := ⟨by simp, known.seen, known.once⟩
      obtain ⟨move, known₁, looked⟩ := (visitAll_ensures h begins known.next).result visits
      have learned := ((visitAll_learned target { f with next := [] } f.next s).result visits).2
      rcases learned with ⟨_, same, _⟩ | ⟨_, longer⟩
      · have stops : f₁.next = [] := by
          rw [Sum.inr.inj same, List.nil_append]
          exact List.flatMap_eq_nil_iff.mpr fun t mem => follow_of_ancestor h.toConsistent (ancestors t mem)
        obtain ⟨m, rfl⟩ : ∃ m, n = m + 1 := ⟨n - 1, by omega⟩
        rw [searching_succ, searchStep_end stops] at searched
        cases searched
        rfl
      · have longer : f.seen.length < f₁.seen.length := longer f₁ rfl
        have fewer : s'.typeElements = s.typeElements := move.moves.typeElements
        have move₁ := ((searching_ensures n move.sound known₁).result searched).1
        have ancestors' (t : TypeTree) (mem : t ∈ f.next.map s.tree) : s'.Ancestor c t := by
          obtain ⟨u, there, rfl⟩ := List.mem_map.mp mem
          exact move.toRetains.ancestor (ancestors u there)
        have on := (move₁.toRetains.resolvesAbove resolves).lookAll move.sound (by simp [Frontier.outlook]) ancestors' looked
        refine ih move.sound known₁ (fun t mem => ?_) (by rw [fewer]; omega) searched (known₁.few move.sound.toConsistent)
        exact on.2 _ rfl _ (List.mem_map_of_mem mem)

theorem ancestor_of_usage (h : s.Consistent) {o : TypeId} {args : List TypeId}
    (usage : s.shape? t = some (.declared o c args)) : s.Ancestor c (s.tree t) := by
  rw [h.tree_of_shape usage]
  exact Relation.ReflTransGen.refl

theorem asSuper?_ends (h : s.Sound) (known : s.HasType t) (ancestor : s.Ancestor c (s.tree t))
    (searched : (asSuper? t target).run s = (answer, s₁)) (resolves : s₁.ResolvesAbove c) : answer.isSome := by
  obtain ⟨j, outcome⟩ := asSuper?_outcome h known target
  refine searching_ends h (Frontier.known_from known) (by simpa using ancestor) ?_
    ((outcome (s.typeElements.length + 2)).trans searched) resolves
  exact Nat.le_add_right _ _

theorem isSubtype?_of_search {u o o' : TypeId} {e : ElementId} {args : List TypeId} {u? : Option TypeId}
    (h : s.Consistent) (usage : s.shape? t = some (.declared o c args))
    (usage' : s.shape? u = some (.declared o' e [])) (searched : (asSuper? t e).run s = (some u?, s₁))
    (self : c = e → u?.isSome) : ((isSubtype? t u).run s).1 = some u?.isSome := by
  have step : (isSubtype? t u).run s = (isSubtypeStep (isSubtypeN 64) t u).run s := rfl
  rw [step, isSubtypeStep, optionT_get_bind]
  split
  · rename_i same
    rw [sameType_tree h, h.tree_of_shape usage, h.tree_of_shape usage'] at same
    simp only [TypeShape.unfold, TypeTree.same, Bool.and_eq_true, beq_iff_eq] at same
    rw [self same.1.1]
    rfl
  · rw [shape_of_shape? usage, shape_of_shape? usage']
    dsimp only
    rw [optionT_bind_some searched]
    cases u? with
    | none => rfl
    | some view => rfl

end StoreM

/-- Subtyping is reachability in the inheritance graph: the search for a supertype ends, it finds a usage of the
element if and only if that is reached, whatever is entered and completed later, and the usages without arguments are
above exactly the types that the element is reached from. -/
theorem subtyping_is_reachability {s s₁ : Store} {t o : TypeId} {c e : ElementId} {args : List TypeId}
    {answer : Option (Option TypeId)} (reachable : s.Reachable) (usage : s.shape? t = some (.declared o c args))
    (searched : (asSuper? t e).run s = (answer, s₁)) (resolves : s₁.ResolvesAbove c) :
    ∃ u?, answer = some u? ∧ (∀ u ∈ u?, ∃ o' args', s₁.shape? u = some (.declared o' e args')) ∧
      (∀ s₂, s₁.LeadsTo s₂ → s₂.objectElement? = s₁.objectElement? → (u?.isSome ↔ s₂.Descends c e)) ∧
      ∀ u o', s.shape? u = some (.declared o' e []) → ((isSubtype? t u).run s).1 = some u?.isSome := by
  have h := reachable.sound
  have known : s.HasType t := has_type_iff.mpr ⟨_, usage⟩
  have ancestor := ancestor_of_usage h.toConsistent usage
  obtain ⟨u?, rfl⟩ := Option.isSome_iff_exists.mp (asSuper?_ends h known ancestor searched resolves)
  obtain ⟨move, there, found⟩ := (asSuper?_ensures h known e).result searched
  have reaches (s₂ : Store) (later : s₁.Retains s₂) : u?.isSome ↔ s₂.Descends c e := by
    obtain ⟨levels, found⟩ := super?_eq_some_iff.mp found
    have ancestor₁ := move.toRetains.ancestor ancestor
    cases u? with
    | some u =>
      obtain ⟨o', args', same⟩ := super?_found (super?_eq_some_iff.mpr ⟨levels, found⟩)
      have reached := resolves.search? move.sound (by simpa using ancestor₁) found
      rw [same] at reached
      exact iff_of_true rfl (later.descends reached)
    | none =>
      obtain ⟨seen, closes, met⟩ := Closes.search? (s := s₁) move.sound (by simp [Closes]) found
      have start : c ∈ seen := met c (.inr (by simp [h.tree_of_shape usage, TypeShape.unfold, TypeTree.element?]))
      refine iff_of_false (by simp) fun descends => ?_
      exact (closes e (closes.descends later start descends)).1 rfl
  refine ⟨u?, rfl, fun u mem => ?_, fun s₂ leads same => ?_, fun u o' usage' => ?_⟩
  · cases mem
    obtain ⟨o', args', same⟩ := super?_found found
    exact move.sound.usage_of_tree same
  · exact reaches s₂ ⟨leads.grown move.sound, same⟩
  · refine isSubtype?_of_search h.toConsistent usage usage' searched fun same => ?_
    exact (reaches s₁ move.sound.stays.toRetains).mpr (same ▸ .refl)

section sample

namespace Store

def ringProgram : PackageDecl :=
  { package := commonPackage
    types :=
      [.mk { kind := .classType, name := "Object" } [],
        .mk { kind := .classType, name := "Ring", typeParameters := [{ name := "T" }]
              superclass := some (.named "lang.Bow" [.named "lang.Ring" [.named "lang.Ring" [.var "T"]]]) } [],
        .mk { kind := .classType, name := "Bow", typeParameters := [{ name := "T" }]
              superclass := some (.named "lang.Ring" [.var "T"]), interfaces := [.named "lang.Mark" []] } [],
        .mk { kind := .interfaceType, name := "Mark" } []] }

@[irreducible] def ring : Store := (Request.run (.enterDeclarations ringProgram) .empty).2

@[irreducible] def ringUsages : Store :=
  ((declaredType none ⟨4⟩ []).run ((declaredType none ⟨2⟩ [⟨13⟩]).run ((declaredType none ⟨1⟩ []).run ring).2).2).2

theorem reachable_ringUsages : ringUsages.Reachable := by
  have entered : ring.Reachable := by
    unfold ring
    exact .ask (.enterDeclarations ringProgram) .rest ⟨by simp [Request.elements], by simp [Request.types]⟩
  unfold ringUsages
  refine ((entered.declaredType ?_ (by simp)).declaredType ?_ fun t mem => ?_).declaredType ?_ (by simp)
  · exact show 1 < ring.elements.size by decide +kernel
  · exact show 2 < ((declaredType none ⟨1⟩ []).run ring).2.elements.size by decide +kernel
  · cases List.mem_singleton.mp mem
    exact show 13 < ((declaredType none ⟨1⟩ []).run ring).2.types.size by decide +kernel
  · exact show 4 < ((declaredType none ⟨2⟩ [⟨13⟩]).run ((declaredType none ⟨1⟩ []).run ring).2).2.elements.size by
      decide +kernel

theorem resolvesAbove_of_all {s : Store} {c : ElementId} (all : ∀ i < s.elements.size, ∀ r ∈ s.lasting? ⟨i⟩,
    ∀ t ∈ r.superclass :: r.interfaces, t = .none ∨ s.typeKind t = .declared ∨ s.typeKind t = .error) :
    s.ResolvesAbove c := by
  intro d r _ lasts
  obtain ⟨slot, found, _⟩ := record?_eq_some_iff.mp (lasting?_eq_some_iff.mp lasts).1
  exact all d.index (has_element_iff.mpr ⟨slot, found⟩) r lasts

end Store

theorem ring_is_below_mark : ∃ u s₁, (asSuper? ⟨14⟩ ⟨4⟩).run ringUsages = (some (some u), s₁) ∧
    s₁.Descends ⟨2⟩ ⟨4⟩ ∧ ((isSubtype? ⟨14⟩ ⟨15⟩).run ringUsages).1 = some true := by
  have usage : ringUsages.shape? ⟨14⟩ = some (.declared .none ⟨2⟩ [⟨13⟩]) := by decide +kernel
  have mark : ringUsages.shape? ⟨15⟩ = some (.declared .none ⟨4⟩ []) := by decide +kernel
  have searched : ((asSuper? ⟨14⟩ ⟨4⟩).run ringUsages).1 = some (some ⟨28⟩) := by decide +kernel
  have resolves := resolvesAbove_of_all (s := ((asSuper? ⟨14⟩ ⟨4⟩).run ringUsages).2) (c := ⟨2⟩) (by decide +kernel)
  obtain ⟨u?, answer, _, reaches, below⟩ :=
    subtyping_is_reachability reachable_ringUsages usage (leaves searched) resolves
  cases answer
  exact ⟨⟨28⟩, _, leaves searched, (reaches _ .rest rfl).mp rfl, below ⟨15⟩ .none mark⟩

end sample

end Nominal
