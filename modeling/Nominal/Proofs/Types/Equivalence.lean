import Nominal.Proofs.Store.Reachable
/-!
What kind of relation sameness is. It is reflexive and transitive. Alternatives and bounds are only looked for from
one side, so it is symmetric no further than they are different from each other; repeated ones break it.
-/

namespace Nominal

section covering

variable {α β : Type} {r : α → β → Prop}

theorem covers_of_apart {as : List α} {bs : List β} (length : as.length = bs.length)
    (apart : as.Pairwise fun a a' => ∀ b, r a b → ¬ r a' b) (each : ∀ a ∈ as, ∃ b ∈ bs, r a b) :
    ∀ b ∈ bs, ∃ a ∈ as, r a b := by
  induction as generalizing bs with
  | nil =>
    intro b mem
    rw [List.eq_nil_of_length_eq_zero length.symm] at mem
    cases mem
  | cons a as ih =>
    obtain ⟨b, there, related⟩ := each a (by simp)
    obtain ⟨before, after, rfl⟩ := List.append_of_mem there
    obtain ⟨others, apart⟩ := List.pairwise_cons.mp apart
    have rest : ∀ a' ∈ as, ∃ b' ∈ before ++ after, r a' b' := by
      intro a' mem
      obtain ⟨b', there', related'⟩ := each a' (List.mem_cons_of_mem a mem)
      have elsewhere : b' ≠ b := by
        rintro rfl
        exact others a' mem b' related related'
      refine ⟨b', ?_, related'⟩
      simp only [List.mem_append, List.mem_cons] at there' ⊢
      exact there'.imp_right fun among => among.resolve_left elsewhere
    have covered := ih (by simp at length ⊢; omega) apart rest
    intro b' mem
    simp only [List.mem_append, List.mem_cons] at mem
    by_cases same : b' = b
    · exact ⟨a, by simp, same ▸ related⟩
    · obtain ⟨a', mem', related'⟩ := covered b' (by simp; tauto)
      exact ⟨a', List.mem_cons_of_mem a mem', related'⟩

end covering

namespace TypeTree

def apart : List TypeTree → Bool
  | [] => true
  | a :: as => !as.any (a.same ·) && apart as

mutual

/-- The alternatives of a union and the bounds of an intersection are different types, at any depth. -/
def distinct : TypeTree → Bool
  | primitive _ | noType _ | null | error _ | typeVariable _ => true
  | array a => a.distinct
  | declared a _ as => a.distinct && allDistinct as
  | wildcard u l => optDistinct u && optDistinct l
  | executable _ as a us => allDistinct as && a.distinct && allDistinct us
  | union as | intersection as => allDistinct as && apart as

def allDistinct : List TypeTree → Bool
  | [] => true
  | a :: as => a.distinct && allDistinct as

def optDistinct : Option TypeTree → Bool
  | .none => true
  | some a => a.distinct

end

theorem apart_iff {as : List TypeTree} : apart as ↔ as.Pairwise fun a b => ¬ a.same b := by
  induction as with
  | nil => simp [apart]
  | cons a as ih => simp [apart, ih]

theorem allAmong_iff {as bs : List TypeTree} : allAmong as bs ↔ ∀ a ∈ as, ∃ b ∈ bs, a.same b := by
  induction as with
  | nil => simp [allAmong]
  | cons a as ih => simp [allAmong, ih]

mutual

theorem same_trans : (a b c : TypeTree) → a.same b → b.same c → a.same c
  | primitive _, b, c, h, h' | noType _, b, c, h, h' | null, b, c, h, h' | error _, b, c, h, h'
  | typeVariable _, b, c, h, h' => by
    rw [eq_of_same _ b h (.inl rfl)]
    exact h'
  | array a, b, c, h, h' => by
    cases b <;> simp only [same, reduceCtorEq] at h
    cases c <;> simp only [same, reduceCtorEq] at h' ⊢
    exact same_trans a _ _ h h'
  | declared a e as, b, c, h, h' => by
    cases b <;> simp only [same, reduceCtorEq, Bool.and_eq_true, beq_iff_eq] at h
    cases c <;> simp only [same, reduceCtorEq, Bool.and_eq_true, beq_iff_eq] at h' ⊢
    obtain ⟨⟨element, outer⟩, arguments⟩ := h
    obtain ⟨⟨element', outer'⟩, arguments'⟩ := h'
    exact ⟨⟨element.trans element', same_trans a _ _ outer outer'⟩, sameAll_trans as _ _ arguments arguments'⟩
  | wildcard u l, b, c, h, h' => by
    cases b <;> simp only [same, reduceCtorEq, Bool.and_eq_true] at h
    cases c <;> simp only [same, reduceCtorEq, Bool.and_eq_true] at h' ⊢
    exact ⟨sameOpt_trans u _ _ h.1 h'.1, sameOpt_trans l _ _ h.2 h'.2⟩
  | executable n as a us, b, c, h, h' => by
    cases b <;> simp only [same, reduceCtorEq, Bool.and_eq_true, beq_iff_eq] at h
    cases c <;> simp only [same, reduceCtorEq, Bool.and_eq_true, beq_iff_eq] at h' ⊢
    obtain ⟨⟨⟨number, parameters⟩, result⟩, thrown⟩ := h
    obtain ⟨⟨⟨number', parameters'⟩, result'⟩, thrown'⟩ := h'
    exact ⟨⟨⟨number.trans number', sameAll_trans as _ _ parameters parameters'⟩,
      same_trans a _ _ result result'⟩, sameAll_trans us _ _ thrown thrown'⟩
  | union as, b, c, h, h' | intersection as, b, c, h, h' => by
    cases b <;> simp only [same, reduceCtorEq, Bool.and_eq_true, beq_iff_eq] at h
    cases c <;> simp only [same, reduceCtorEq, Bool.and_eq_true, beq_iff_eq] at h' ⊢
    exact ⟨h.1.trans h'.1, allAmong_trans as _ _ h.2 h'.2⟩

theorem sameAll_trans : (as bs cs : List TypeTree) → sameAll as bs → sameAll bs cs → sameAll as cs
  | [], bs, cs, h, h' => by
    cases bs <;> simp only [sameAll, reduceCtorEq] at h
    exact h'
  | a :: as, bs, cs, h, h' => by
    cases bs <;> simp only [sameAll, reduceCtorEq, Bool.and_eq_true] at h
    cases cs <;> simp only [sameAll, reduceCtorEq, Bool.and_eq_true] at h' ⊢
    exact ⟨same_trans a _ _ h.1 h'.1, sameAll_trans as _ _ h.2 h'.2⟩

theorem sameOpt_trans : (a b c : Option TypeTree) → sameOpt a b → sameOpt b c → sameOpt a c
  | .none, b, c, h, h' => by
    cases b <;> simp only [sameOpt, reduceCtorEq] at h
    exact h'
  | some a, b, c, h, h' => by
    cases b <;> simp only [sameOpt, reduceCtorEq] at h
    cases c <;> simp only [sameOpt, reduceCtorEq] at h' ⊢
    exact same_trans a _ _ h h'

theorem allAmong_trans : (as bs cs : List TypeTree) → allAmong as bs → allAmong bs cs → allAmong as cs
  | [], _, _, _, _ => by rw [allAmong]
  | a :: as, bs, cs, h, h' => by
    simp only [allAmong, Bool.and_eq_true, List.any_eq_true] at h ⊢
    obtain ⟨⟨b, mem, first⟩, rest⟩ := h
    obtain ⟨c, mem', second⟩ := allAmong_iff.mp h' b mem
    exact ⟨⟨c, mem', same_trans a b c first second⟩, allAmong_trans as bs cs rest h'⟩

end

theorem allAmong_swap {as bs : List TypeTree} (length : as.length = bs.length) (different : apart as)
    (symm : ∀ a ∈ as, ∀ b, a.same b → b.same a) (among : allAmong as bs) : allAmong bs as := by
  have unlike : as.Pairwise fun a a' => ∀ b, a.same b → ¬ a'.same b :=
    (apart_iff.mp different).imp_of_mem fun {a a'} _ mem' other b same same' =>
      other (same_trans a b a' same (symm a' mem' b same'))
  refine allAmong_iff.mpr fun b mem => ?_
  obtain ⟨a, mem', same⟩ := covers_of_apart length unlike (allAmong_iff.mp among) b mem
  exact ⟨a, mem', symm a mem' b same⟩

mutual

theorem same_symm : (a b : TypeTree) → a.distinct → a.same b → b.same a
  | primitive _, b, _, h | noType _, b, _, h | null, b, _, h | error _, b, _, h | typeVariable _, b, _, h => by
    rw [eq_of_same _ b h (.inl rfl)]
    exact same_refl b
  | array a, b, d, h => by
    cases b <;> simp only [same, reduceCtorEq] at h ⊢
    exact same_symm a _ d h
  | declared a e as, b, d, h => by
    cases b <;> simp only [same, reduceCtorEq, Bool.and_eq_true, beq_iff_eq] at h ⊢
    simp only [distinct, Bool.and_eq_true] at d
    exact ⟨⟨h.1.1.symm, same_symm a _ d.1 h.1.2⟩, sameAll_symm as _ d.2 h.2⟩
  | wildcard u l, b, d, h => by
    cases b <;> simp only [same, reduceCtorEq, Bool.and_eq_true] at h ⊢
    simp only [distinct, Bool.and_eq_true] at d
    exact ⟨sameOpt_symm u _ d.1 h.1, sameOpt_symm l _ d.2 h.2⟩
  | executable n as a us, b, d, h => by
    cases b <;> simp only [same, reduceCtorEq, Bool.and_eq_true, beq_iff_eq] at h ⊢
    simp only [distinct, Bool.and_eq_true] at d
    exact ⟨⟨⟨h.1.1.1.symm, sameAll_symm as _ d.1.1 h.1.1.2⟩, same_symm a _ d.1.2 h.1.2⟩,
      sameAll_symm us _ d.2 h.2⟩
  | union as, b, d, h | intersection as, b, d, h => by
    cases b <;> simp only [same, reduceCtorEq, Bool.and_eq_true, beq_iff_eq] at h ⊢
    simp only [distinct, Bool.and_eq_true] at d
    exact ⟨h.1.symm, allAmong_swap h.1 d.2 (each_symm as d.1) h.2⟩

theorem sameAll_symm : (as bs : List TypeTree) → allDistinct as → sameAll as bs → sameAll bs as
  | [], bs, _, h => by
    cases bs <;> simp only [sameAll, reduceCtorEq] at h ⊢
  | a :: as, bs, d, h => by
    cases bs <;> simp only [sameAll, reduceCtorEq, Bool.and_eq_true] at h ⊢
    simp only [allDistinct, Bool.and_eq_true] at d
    exact ⟨same_symm a _ d.1 h.1, sameAll_symm as _ d.2 h.2⟩

theorem sameOpt_symm : (a b : Option TypeTree) → optDistinct a → sameOpt a b → sameOpt b a
  | .none, b, _, h => by
    cases b <;> simp only [sameOpt, reduceCtorEq] at h ⊢
  | some a, b, d, h => by
    cases b <;> simp only [sameOpt, reduceCtorEq] at h ⊢
    exact same_symm a _ d h

theorem each_symm : (as : List TypeTree) → allDistinct as → ∀ a ∈ as, ∀ b, a.same b → b.same a
  | [], _, _, mem, _, _ => nomatch mem
  | a :: as, d, a', mem, b, h => by
    simp only [allDistinct, Bool.and_eq_true] at d
    rcases List.mem_cons.mp mem with same | mem
    · rw [same] at h ⊢
      exact same_symm a b d.1 h
    · exact each_symm as d.2 a' mem b h

end

end TypeTree

namespace Store

variable {s : Store}

/-- A type is the same as itself, and as what is the same as something that it is the same as. If it is the same as
another one, then the other one is the same as it, provided that in the first no alternative and no bound is repeated. -/
theorem sameness_is_preorder (reachable : s.Reachable) (a b c : TypeId) :
    s.sameType a a ∧ (s.sameType a b → s.sameType b c → s.sameType a c) ∧
      ((s.tree a).distinct → s.sameType a b → s.sameType b a) := by
  have h := reachable.sound.toConsistent
  simp only [sameType_tree h]
  exact ⟨TypeTree.same_refl _, TypeTree.same_trans _ _ _, TypeTree.same_symm _ _⟩

section sample

/-- Three unions: of two types, of the same two in the other order, and of the first of them twice. -/
@[irreducible] def unions : Store :=
  ([[.primitive .int, .primitive .long], [.primitive .long, .primitive .int],
    [.primitive .int, .primitive .int]].forM fun ts => Request.run (.unionType ts)) empty |>.2

theorem leadsTo_unions (tss : List (List TypeId)) (s : Store) (known : ∀ ts ∈ tss, ∀ t ∈ ts, s.HasType t) :
    s.LeadsTo ((tss.forM fun ts => Request.run (.unionType ts)) s).2 := by
  induction tss generalizing s with
  | nil => exact .rest
  | cons ts tss ih =>
    have inRange : (Request.unionType ts).InRange s := ⟨nofun, known ts (by simp)⟩
    refine (LeadsTo.ask (.unionType ts) .rest inRange).trans (ih _ fun us mem u mem' => ?_)
    have bound : u.index < s.types.size := known us (by simp [mem]) u mem'
    show u.index < (s.types.push _).size
    rw [Array.size_push]
    omega

theorem reachable_unions : unions.Reachable := by
  unfold unions
  exact leadsTo_unions _ _ fun ts mem t mem' => by
    show t.index < 13
    revert t ts
    decide

/-- The order of alternatives makes no difference, from either side. -/
theorem sameness_of_reordered :
    (unions.tree ⟨13⟩).distinct ∧ unions.sameType ⟨13⟩ ⟨14⟩ ∧ unions.sameType ⟨14⟩ ⟨13⟩ := by
  have distinct : (unions.tree ⟨13⟩).distinct := by decide +kernel
  have same : unions.sameType ⟨13⟩ ⟨14⟩ := by decide +kernel
  exact ⟨distinct, same, (sameness_is_preorder reachable_unions ⟨13⟩ ⟨14⟩ ⟨13⟩).2.2 distinct same⟩

/-- A union that repeats an alternative is the same as one that it is only a part of, and not the other way round. -/
theorem sameness_not_symmetric :
    unions.Reachable ∧ unions.HasType ⟨13⟩ ∧ unions.HasType ⟨15⟩ ∧
      unions.sameType ⟨15⟩ ⟨13⟩ = true ∧ unions.sameType ⟨13⟩ ⟨15⟩ = false := by
  refine ⟨reachable_unions, show 13 < unions.types.size from ?_, show 15 < unions.types.size from ?_, ?_, ?_⟩ <;>
    decide +kernel

end sample

end Store

end Nominal
