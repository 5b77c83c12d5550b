import Nominal.Proofs.Types.Abiding
/-!
Types that are the same may stand for each other in every question. What is answered is read off trees, and where
there are no alternatives and no several bounds, the same trees are equal ones.
-/

namespace Nominal

open Store StoreM

namespace Store

variable {s : Store}

/-- Once `ask` has been answered, `ask'` is answered next, and alike. A search that never ends is no answer. -/
def Agree {α : Type} (s : Store) (ask ask' : Searching α) (alike : Store → α → α → Prop) : Prop :=
  ∀ x s₁, ask.run s = (some x, s₁) → ∃ y s₂, ask'.run s₁ = (some y, s₂) ∧ alike s₂ x y

/-- Two questions agree if what they are answered is known from the same trees. -/
theorem Asks.agree {α β : Type} {ask ask' : Searching α} {known : Store → Option β} {view : Store → α → β}
    {there : Store → α → Prop} {alike : Store → α → α → Prop} (asks : s.Asks ask known view there)
    (asks' : s.Asks ask' known view there) (reachable : s.Reachable)
    (agree : ∀ t x y, t.Sound → view t x = view t y → alike t x y) : s.Agree ask ask' alike := by
  intro x s₁ answered
  obtain ⟨move, within, told⟩ := (asks.tells s reachable.sound.stays.toRetains reachable.neat).result answered
  have neat₁ := reachable.neat.asked asks.keeps move answered
  obtain ⟨move', _, told'⟩ := asks'.tells s₁ move.toRetains neat₁
  rw [asks.lasts s₁ _ _ move'.toRetains told] at told'
  obtain ⟨y, again, same⟩ := Option.map_eq_some_iff.mp told'.symm
  refine ⟨y, _, Prod.ext again rfl, agree _ x y move'.sound ?_⟩
  rw [same, asks.views s₁ _ x move'.toRetains (within x rfl)]

theorem Consistent.tree_of_same (h : s.Consistent) {a a' : TypeId} (simple : (s.tree a).simple)
    (same : s.sameType a a') : s.tree a' = s.tree a := by
  rw [sameType_tree h] at same
  exact (TypeTree.eq_of_same _ _ same (.inl simple)).symm

end Store

/-- A type without alternatives and several bounds may be replaced by one that is the same: it is below the same
types and above them, its erasure and its immediate supertypes are the same, and so is its supertype over any element. -/
theorem same_types_answer_alike {s : Store} {a a' b b' : TypeId} (reachable : s.Reachable) (known : s.HasType a)
    (known' : s.HasType a') (there : s.HasType b) (there' : s.HasType b') (simple : (s.tree a).simple)
    (simple' : (s.tree b).simple) (same : s.sameType a a') (same' : s.sameType b b') :
    s.Agree (isSubtype? a b) (isSubtype? a' b') (fun _ x y => x = y) ∧
      s.Agree (liftM (erase a)) (liftM (erase a')) (fun t u v => t.sameType u v) ∧
      s.Agree (liftM (directSupertypes a)) (liftM (directSupertypes a')) (fun t => List.Forall₂ (t.sameType · ·)) ∧
      ∀ e, s.Agree (asSuper? a e) (asSuper? a' e) fun t => Option.Rel (t.sameType · ·) := by
  have h := reachable.sound.toConsistent
  have trees : s.tree a' = s.tree a := h.tree_of_same simple same
  have trees' : s.tree b' = s.tree b := h.tree_of_same simple' same'
  refine ⟨?_, ?_, ?_, fun e => ?_⟩
  · have asks' := asks_isSubtype? known' there'
    rw [trees, trees'] at asks'
    exact (asks_isSubtype? known there).agree asks' reachable fun _ _ _ _ => id
  · have asks' := asks_erase known'
    rw [trees] at asks'
    exact (asks_erase known).agree asks' reachable fun _ _ _ h => h.same_of_tree
  · have asks' := asks_directSupertypes known'
    rw [trees] at asks'
    exact (asks_directSupertypes known).agree asks' reachable fun _ _ _ h => h.same_of_trees
  · have asks' := asks_asSuper? (e := e) known'
    rw [trees] at asks'
    exact (asks_asSuper? known).agree asks' reachable fun _ _ _ h => h.same_of_optional

section sample

namespace Store

@[irreducible] def withTop : Store := ((StoreM.declaredType none ⟨1⟩ []).run withUsage).2

theorem reachable_withTop : withTop.Reachable := by
  unfold withTop
  refine reachable_withUsage.declaredType ?_ nofun
  show 1 < withUsage.elements.size
  decide +kernel

end Store

/-- Another usage of the generic type is below another usage of the top type as well. -/
theorem usages_answer_alike :
    withTop.sameType ⟨15⟩ ⟨17⟩ ∧ withTop.sameType ⟨14⟩ ⟨18⟩ ∧
      ((isSubtype? ⟨15⟩ ⟨14⟩).run withTop).1 = some true ∧
      ((isSubtype? ⟨17⟩ ⟨18⟩).run ((isSubtype? ⟨15⟩ ⟨14⟩).run withTop).2).1 = some true := by
  have same : withTop.sameType ⟨15⟩ ⟨17⟩ := by decide +kernel
  have same' : withTop.sameType ⟨14⟩ ⟨18⟩ := by decide +kernel
  have known {i : Nat} (small : i ≤ 18) : withTop.HasType ⟨i⟩ :=
    Nat.lt_of_le_of_lt small (show 18 < withTop.types.size by decide +kernel)
  have below : ((isSubtype? ⟨15⟩ ⟨14⟩).run withTop).1 = some true := by decide +kernel
  obtain ⟨agree, _⟩ := same_types_answer_alike reachable_withTop (known (by decide)) (known (by decide))
    (known (by decide)) (known (by decide)) (by decide +kernel) (by decide +kernel) same same'
  obtain ⟨_, _, again, rfl⟩ := agree true _ (leaves below)
  exact ⟨same, same', below, congrArg Prod.fst again⟩

end sample

end Nominal
