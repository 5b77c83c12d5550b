import Nominal.Proofs.Order.Inquiring
/-!
The limit on levels errs on one side. A question about subtypes that is asked further down has fewer levels left, and
what it finds to hold is found with more levels as well, if what is complete tells the two questions the same.
-/

namespace Nominal

open Store StoreM

namespace Store

variable {s s₁ t t' : Store} {a b : TypeId} {level level' : Nat} {r : Bool}

/-- Of two questions the later one is asked when all that the earlier one came to know is still known. -/
theorem Sound.below?_of_later (h : s.Sound) (known : s.HasType a) (known' : s.HasType b) {r₁ : Bool}
    (first : (isSubtypeAt? level a b).run s = (some r₁, s₁)) (leads : s₁.LeadsTo t)
    (object : t.objectElement? = s.objectElement?) (second : (isSubtypeAt? level' a b).run t = (some r, t')) :
    t'.below? (boundDepth - level) (s.tree a) (s.tree b) = some r₁ ∧
      t'.below? (boundDepth - level') (s.tree a) (s.tree b) = some r := by
  obtain ⟨move, told⟩ := h.below?_of_answer known known' first
  have later : s₁.Retains t := ⟨leads.grown move.sound, object.trans move.object.symm⟩
  have since : s.Retains t := Movement.trans move later
  obtain ⟨move', told'⟩ :=
    later.sound.below?_of_answer (since.grows.has_type known) (since.grows.has_type known') second
  rw [since.tree known, since.tree known'] at told'
  exact ⟨(Movement.trans later move').below? told, told'⟩

theorem below?_of_fewer_levels (s : Store) (le : level' ≤ level) {x y : TypeTree}
    (holds : s.below? (boundDepth - level) x y = some true) (answered : s.below? (boundDepth - level') x y = some r) :
    r = true := by
  cases r with
  | true => rfl
  | false => exact absurd answered (below?_raises s (Nat.sub_le_sub_left le boundDepth) x y holds)

end Store

/-- A question about subtypes that holds some levels down holds fewer levels down as well: if both are asked one
after the other, in either order, and where no two elements that wait need each other for their completion, also if
both are asked of the same store. -/
theorem fewer_levels_down_keeps_positive {s : Store} {a b : TypeId} {level level' : Nat} (reachable : s.Reachable)
    (known : s.HasType a) (known' : s.HasType b) (le : level' ≤ level) :
    (∀ s₁ t t' r, (isSubtypeAt? level a b).run s = (some true, s₁) → s₁.LeadsTo t →
        t.objectElement? = s.objectElement? → (isSubtypeAt? level' a b).run t = (some r, t') → r = true) ∧
      (∀ s₁ t t' r, (isSubtypeAt? level' a b).run s = (some r, s₁) → s₁.LeadsTo t →
        t.objectElement? = s.objectElement? → (isSubtypeAt? level a b).run t = (some true, t') → r = true) ∧
      (s.Untangled → ∀ s₁ s₂ r, (isSubtypeAt? level a b).run s = (some true, s₁) →
        (isSubtypeAt? level' a b).run s = (some r, s₂) → r = true) := by
  refine ⟨fun s₁ t t' r first leads object second => ?_, fun s₁ t t' r first leads object second => ?_,
    fun untangled s₁ s₂ r first second => ?_⟩
  · obtain ⟨holds, answered⟩ := reachable.sound.below?_of_later known known' first leads object second
    exact t'.below?_of_fewer_levels le holds answered
  · obtain ⟨answered, holds⟩ := reachable.sound.below?_of_later known known' first leads object second
    exact t'.below?_of_fewer_levels le holds answered
  · obtain ⟨R⟩ := reachable.poised.has_reference
    have holds := R.below?_of_answer reachable.poised untangled known known' first
    have answered := R.below?_of_answer reachable.poised untangled known known' second
    exact R.store.below?_of_fewer_levels le holds answered

section sample

namespace Store

def rackProgram (marked : Bool) : PackageDecl :=
  { package := "app"
    types :=
      [.mk { kind := .classType, name := "Rack" } [],
        .mk { kind := .annotationType, name := "Mark" } [],
        .mk { kind := .classType, name := "Outer", typeParameters := [{ name := "T", bounds := [.named "Rack" []] }]
              annotations := if marked
                then [{ type := .named "Mark" [], values := [("value", .enumConstant (.named "Inner" []) "ONE")] }]
                else [] }
          [.mk { kind := .classType, name := "Inner", superclass := some (.var "T") } []]] }

-- The sample is only ever evaluated as a whole.
@[irreducible] def rack (marked : Bool) : Store := (Request.run (.enterDeclarations (rackProgram marked)) .empty).2

@[irreducible] def rackUsages (marked : Bool) : Store :=
  ((Request.declaredType none ⟨1⟩ []).run
    ((Request.declaredType none ⟨3⟩ []).run ((Request.declaredType none ⟨4⟩ []).run (rack marked)).2).2).2

/-- The parts of the rack, with the outer class one level further down than the inner one. -/
@[irreducible] def rackParts (marked : Bool) : Store :=
  ((Request.intersectionType [⟨16⟩, ⟨13⟩]).run ((Request.intersectionType [⟨14⟩]).run (rackUsages marked)).2).2

theorem reachable_rackUsages (marked : Bool) : (rackUsages marked).Reachable := by
  unfold rackUsages
  refine Reachable.request (Reachable.request (Reachable.request ?_ _ ?_ ?_) _ ?_ ?_) _ ?_ ?_
  · unfold rack
    exact .ask (.enterDeclarations (rackProgram marked)) .rest ⟨nofun, nofun⟩
  all_goals
    revert marked
    decide +kernel

theorem reachable_rackParts (marked : Bool) : (rackParts marked).Reachable := by
  unfold rackParts
  refine Reachable.request (Reachable.request (reachable_rackUsages marked) _ ?_ ?_) _ ?_ ?_
  all_goals
    revert marked
    decide +kernel

theorem rackParts_holds : ∀ marked, 17 < (rackParts marked).types.size ∧
    ((StoreM.isSubtypeAt? 63 ⟨17⟩ ⟨15⟩).run (rackParts marked)).1 = some true ∧
    ((StoreM.isSubtypeAt? 0 ⟨17⟩ ⟨15⟩).run (rackParts marked)).1 = some !marked ∧
    (marked ∨ ∀ e ∈ (rackParts marked).ids, ∀ f ∈ (rackParts marked).needs e, f.index < e.index) := by
  decide +kernel

theorem untangled_rackParts : (rackParts false).Untangled :=
  untangled_of_older ((rackParts_holds false).2.2.2.resolve_left Bool.false_ne_true)

theorem rackParts_has_type (marked : Bool) {i : Nat} (small : i ≤ 17) : (rackParts marked).HasType ⟨i⟩ :=
  Nat.lt_of_le_of_lt small (rackParts_holds marked).1

end Store

open Store StoreM in
/-- Where the class inside is completed with the one around it, a question finds it to be below the bound, and where
it is completed first, it does not see the variable that it extends. So two questions that are asked of one store
may be at odds. -/
theorem fewer_levels_down_may_lose_positive :
    (rackParts true).Reachable ∧ (rackParts true).HasType ⟨17⟩ ∧ (rackParts true).HasType ⟨15⟩ ∧
      ((isSubtypeAt? 63 ⟨17⟩ ⟨15⟩).run (rackParts true)).1 = some true ∧
      ((isSubtypeAt? 0 ⟨17⟩ ⟨15⟩).run (rackParts true)).1 = some false :=
  have ⟨_, below, notBelow, _⟩ := rackParts_holds true
  ⟨reachable_rackParts true, rackParts_has_type true (by decide), rackParts_has_type true (by decide), below, notBelow⟩

/-- Asked one after the other the two questions agree, and without the mark also if each is asked first. -/
theorem rack_fewer_levels_down_keeps_positive :
    ((isSubtypeAt? 63 ⟨17⟩ ⟨15⟩).run (rackParts true)).1 = some true ∧
      ((isSubtypeAt? 0 ⟨17⟩ ⟨15⟩).run ((isSubtypeAt? 63 ⟨17⟩ ⟨15⟩).run (rackParts true)).2).1 = some true ∧
      ((isSubtypeAt? 63 ⟨17⟩ ⟨15⟩).run (rackParts false)).1 = some true ∧
      ((isSubtypeAt? 0 ⟨17⟩ ⟨15⟩).run (rackParts false)).1 = some true := by
  have holds (marked : Bool) := (rackParts_holds marked).2.1
  have keeps (marked : Bool) := fewer_levels_down_keeps_positive (reachable_rackParts marked)
    (rackParts_has_type marked (by decide : 17 ≤ 17)) (rackParts_has_type marked (by decide : 15 ≤ 17)) (Nat.zero_le 63)
  obtain ⟨r, later⟩ : ∃ r,
      ((isSubtypeAt? 0 ⟨17⟩ ⟨15⟩).run ((isSubtypeAt? 63 ⟨17⟩ ⟨15⟩).run (rackParts true)).2).1 = some r :=
    Option.isSome_iff_exists.mp (by decide +kernel)
  obtain ⟨r', first⟩ : ∃ r, ((isSubtypeAt? 0 ⟨17⟩ ⟨15⟩).run (rackParts false)).1 = some r :=
    ⟨_, (rackParts_holds false).2.2.1⟩
  obtain rfl := (keeps true).1 _ _ _ r (leaves (holds true)) .rest (by decide +kernel) (leaves later)
  obtain rfl := (keeps false).2.2 untangled_rackParts _ _ r' (leaves (holds false)) (leaves first)
  exact ⟨holds true, later, holds false, first⟩

end sample

end Nominal
