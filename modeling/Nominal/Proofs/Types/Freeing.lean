import Nominal.Proofs.Types.Erased
import Nominal.Proofs.Types.Suiting
/-!
Which type variables are left after substitution. Where the types that stand for some type parameters mention none of
their variables, neither does anything that substitution comes to; but it does not come to what encloses a usage, and
the variables that are mentioned there are all that is left.
-/

namespace Nominal

open Store StoreM

def TypeShape.around : TypeShape → List TypeId
  | declared enclosing _ _ => [enclosing]
  | _ => []

namespace Store

/-- The variable of a type parameter stands somewhere in a type: as the type itself or in an argument, an enclosing type,
a component, a bound, a member of a union or intersection, or the receiver, a parameter, the result or something thrown
of a signature. -/
inductive Mentions (s : Store) (e : ElementId) : TypeId → Prop
  | itself {t upper : TypeId} (found : s.shape? t = some (.typeVariable e upper)) : Mentions s e t
  | part {t p : TypeId} {shape : TypeShape} (found : s.shape? t = some shape) (part : p ∈ shape.around ++ shape.replaced)
      (inside : Mentions s e p) : Mentions s e t

/-- The variable of a type parameter stands somewhere in what encloses a usage to which substitution comes. -/
inductive MentionsAround (s : Store) (e : ElementId) : TypeId → Prop
  | around {t p : TypeId} {shape : TypeShape} (found : s.shape? t = some shape) (part : p ∈ shape.around)
      (mentions : s.Mentions e p) : MentionsAround s e t
  | part {t p : TypeId} {shape : TypeShape} (found : s.shape? t = some shape) (part : p ∈ shape.replaced)
      (inside : MentionsAround s e p) : MentionsAround s e t

inductive Whole (s : Store) : TypeId → Prop
  | mk {t : TypeId} {shape : TypeShape} (found : s.shape? t = some shape)
      (parts : ∀ p ∈ shape.around ++ shape.replaced, Whole s p) : Whole s t

variable {s s' s₀ : Store} {t u p : TypeId} {e : ElementId} {shape shape' : TypeShape} {i : Instantiation}

theorem mem_parts_of_spelled (part : p ∈ shape.around ++ shape.replaced) : p ∈ shape.parts := by
  rcases List.mem_append.mp part with part | part
  · cases shape <;> simp_all [TypeShape.around, TypeShape.parts]
  · exact TypeShape.parts_of_replaced part

theorem mentions_iff (found : s.shape? t = some shape) (plain : shape.kind ≠ .typeVariable) :
    s.Mentions e t ↔ ∃ p ∈ shape.around ++ shape.replaced, s.Mentions e p := by
  constructor
  · intro mentions
    cases mentions with
    | itself found' =>
      cases found.symm.trans found'
      exact absurd rfl plain
    | part found' part inside =>
      cases found.symm.trans found'
      exact ⟨_, part, inside⟩
  · rintro ⟨p, part, inside⟩
    exact .part found part inside

theorem mentionsAround_iff (found : s.shape? t = some shape) :
    s.MentionsAround e t ↔ (∃ p ∈ shape.around, s.Mentions e p) ∨ ∃ p ∈ shape.replaced, s.MentionsAround e p := by
  constructor
  · intro mentions
    cases mentions with
    | around found' part mentions =>
      cases found.symm.trans found'
      exact .inl ⟨_, part, mentions⟩
    | part found' part inside =>
      cases found.symm.trans found'
      exact .inr ⟨_, part, inside⟩
  · rintro (⟨p, part, mentions⟩ | ⟨p, part, inside⟩)
    · exact .around found part mentions
    · exact .part found part inside

namespace Whole

theorem of_known (h : s.Consistent) (known : s.HasType t) : s.Whole t := by
  induction index : t.index using Nat.strong_induction_on generalizing t with
  | _ n ih =>
    subst index
    obtain ⟨shape, found⟩ := has_type_iff.mp known
    have fits := h.shapes t shape found
    refine .mk found fun p part => ?_
    have part := mem_parts_of_spelled part
    exact ih p.index (fits.older p part) (fits.part_known known part) rfl

theorem accrue (whole : s.Whole t) (move : s.Accrues s') : s'.Whole t := by
  induction whole with
  | mk found _ ih => exact .mk (move.shapes _ _ found) ih

theorem mentions_iff (whole : s.Whole t) (move : s.Accrues s') : s'.Mentions e t ↔ s.Mentions e t := by
  induction whole with
  | @mk t shape found parts ih =>
    have found' := move.shapes t shape found
    constructor
    · intro mentions
      cases mentions with
      | itself again =>
        cases found'.symm.trans again
        exact .itself found
      | part again part inside =>
        cases found'.symm.trans again
        exact .part found part ((ih _ part).mp inside)
    · intro mentions
      cases mentions with
      | itself again =>
        cases found.symm.trans again
        exact .itself found'
      | part again part inside =>
        cases found.symm.trans again
        exact .part found' part ((ih _ part).mpr inside)

end Whole

def Frees (s₀ : Store) (i : Instantiation) (t u : TypeId) (s : Store) : Prop :=
  s.Whole u ∧ ∀ e ∈ i.parameters, s.Mentions e u ↔ s₀.MentionsAround e t

namespace Frees

theorem carry (frees : s₀.Frees i t u s) (move : s.Accrues s') : s₀.Frees i t u s' :=
  ⟨frees.1.accrue move, fun e mem => (frees.1.mentions_iff move).trans (frees.2 e mem)⟩

theorem of_all {ts us : List TypeId} (frees : List.Forall₂ (s₀.Frees i · · s) ts us) :
    (∀ u ∈ us, s.Whole u) ∧ ∀ e ∈ i.parameters, (∃ u ∈ us, s.Mentions e u) ↔ ∃ t ∈ ts, s₀.MentionsAround e t := by
  induction frees with
  | nil => simp
  | cons first _ ih =>
    refine ⟨List.forall_mem_cons.mpr ⟨first.1, ih.1⟩, fun e mem => ?_⟩
    simp only [List.exists_mem_cons_iff, first.2 e mem, ih.2 e mem]

theorem of_parts (h : s₀.Consistent) (known : s₀.HasType t) (since : s₀.Accrues s) (found : s₀.shape? t = some shape)
    (made : s.shape? u = some shape') (plain : shape'.kind ≠ .typeVariable) (around : shape'.around = shape.around)
    (parts : List.Forall₂ (s₀.Frees i · · s) shape.replaced shape'.replaced) : s₀.Frees i t u s := by
  obtain ⟨whole, frees⟩ := of_all parts
  have outer (p : TypeId) (mem : p ∈ shape.around) : s₀.Whole p :=
    .of_known h ((h.shapes t shape found).part_known known (mem_parts_of_spelled (List.mem_append_left _ mem)))
  refine ⟨.mk made (List.forall_mem_append.mpr ⟨fun p mem => (outer p (around ▸ mem)).accrue since, whole⟩), fun e mem => ?_⟩
  rw [mentions_iff made plain, mentionsAround_iff found, ← frees e mem, around]
  simp only [List.mem_append, or_and_right, exists_or]
  refine or_congr_left (exists_congr fun p => and_congr_right fun mem => (outer p mem).mentions_iff since)

theorem of_same (h : s₀.Consistent) (known : s₀.HasType t) (since : s₀.Accrues s) (found : s₀.shape? t = some shape)
    (plain : shape.kind ≠ .typeVariable) (parts : List.Forall₂ (s₀.Frees i · · s) shape.replaced shape.replaced) :
    s₀.Frees i t t s :=
  of_parts h known since found (since.shapes t shape found) plain rfl parts

theorem of_variable {e : ElementId} {upper : TypeId} (h : s₀.Consistent) (since : s₀.Accrues s)
    (found : s₀.shape? t = some (.typeVariable e upper)) (there : s₀.HasType u)
    (free : ∀ e ∈ i.parameters, ¬ s₀.Mentions e u) : s₀.Frees i t u s := by
  have whole := Whole.of_known h there
  refine ⟨whole.accrue since, fun e' mem => iff_of_false (mt (whole.mentions_iff since).mp (free e' mem)) ?_⟩
  simp [mentionsAround_iff found, TypeShape.around, TypeShape.replaced]

end Frees

end Store

namespace StoreM

variable {s s₀ : Store} {t : TypeId} {i : Instantiation}

theorem get?_of_mem {e : ElementId} (full : i.types.length = i.parameters.length) (mem : e ∈ i.parameters) :
    ∃ u, i.get? e = some u := by
  obtain ⟨n, there⟩ := Option.isSome_iff_exists.mp (List.isSome_idxOf?.mpr mem)
  have small : n < i.types.length := full ▸ (List.idxOf?_eq_some_iff.mp there).1
  exact ⟨i.types[n], by rw [Instantiation.get?, there, Option.bind_some, List.getElem?_eq_getElem small]⟩

theorem mem_of_get? {e : ElementId} {u : TypeId} (stands : i.get? e = some u) : u ∈ i.types := by
  obtain ⟨n, _, there⟩ := Option.bind_eq_some_iff.mp stands
  exact List.mem_of_getElem? there

theorem variable_frees {e : ElementId} {upper : TypeId} (h : s₀.Consistent) (full : i.types.length = i.parameters.length)
    (free : ∀ u ∈ i.types, s₀.HasType u ∧ ∀ e ∈ i.parameters, ¬ s₀.Mentions e u) (known : s₀.HasType t)
    (since : s₀.Accrues s) (found : s₀.shape? t = some (.typeVariable e upper)) :
    s₀.Frees i t ((i.get? e).getD t) s := by
  cases stands : i.get? e with
  | some u =>
    obtain ⟨there, free⟩ := free u (mem_of_get? stands)
    exact .of_variable h since found there free
  | none =>
    refine .of_variable h since found known fun e' mem mentions => ?_
    cases mentions with
    | itself again =>
      cases found.symm.trans again
      obtain ⟨u, there⟩ := get?_of_mem full mem
      cases stands.symm.trans there
    | part again part =>
      cases found.symm.trans again
      simp [TypeShape.around, TypeShape.replaced] at part

theorem newType_frees {shape : TypeShape} (h : s₀.Consistent) (known : s₀.HasType t) (since : s₀.Accrues s)
    (found : s₀.shape? t = some shape) (shape' : TypeShape) (plain : shape'.kind ≠ .typeVariable)
    (around : shape'.around = shape.around) (parts : List.Forall₂ (s₀.Frees i · · s) shape.replaced shape'.replaced) :
    Ensures Accrues s (newType shape') (s₀.Frees i t) :=
  (newType_accrues s shape').imp fun _ _ later made => .of_parts h known (Movement.trans since later) found made plain
    around (parts.imp fun _ _ frees => frees.carry later)

theorem bound_frees {f : TypeId → StoreM TypeId} {b? : Option TypeId}
    (each : ∀ b ∈ b?, Ensures Accrues s (f b) (s₀.Frees i b)) :
    Ensures Accrues s (b?.mapM f) fun u? s' => List.Forall₂ (s₀.Frees i · · s') b?.toList u?.toList := by
  cases b? with
  | none => exact .pure (accrues_refl s) .nil
  | some b => exact .map ((each b rfl).imp fun u s' _ frees => .cons frees .nil)

theorem substituteN_frees (h : s₀.Consistent) (full : i.types.length = i.parameters.length)
    (free : ∀ u ∈ i.types, s₀.HasType u ∧ ∀ e ∈ i.parameters, ¬ s₀.Mentions e u) (known : s₀.HasType t)
    {fuel : Nat} (enough : t.index < fuel) (since : s₀.Accrues s) :
    Ensures Accrues s (substituteN i fuel t) (s₀.Frees i t) := by
  induction fuel generalizing s t with
  | zero => omega
  | succ fuel ih =>
    obtain ⟨shape, found⟩ := has_type_iff.mp known
    have fits := h.shapes t shape found
    have part {s₁ : Store} (move : s₀.Accrues s₁) (p : TypeId) (mem : p ∈ shape.replaced) :
        Ensures Accrues s₁ (substituteN i fuel p) (s₀.Frees i p) := by
      have mem := TypeShape.parts_of_replaced mem
      have older := fits.older p mem
      exact ih (fits.part_known known mem) (by omega) move
    have all {s₁ : Store} (move : s₀.Accrues s₁) (ps : List TypeId) (mem : ∀ p ∈ ps, p ∈ shape.replaced) :
        Ensures Accrues s₁ (ps.mapM (substituteN i fuel)) fun us s' => List.Forall₂ (s₀.Frees i · · s') ps us :=
      .mapM (Movement.stay move) (fun _ _ _ _ later frees => frees.carry later)
        fun p mem' s' later => part (Movement.trans move later) p (mem p mem')
    refine .get ?_
    rw [shape_of_shape? (since.shapes t shape found)]
    cases shape with
    | typeVariable e upper =>
      have frees := variable_frees h full free known since found
      dsimp only
      cases stands : i.get? e with
      | none =>
        rw [stands] at frees
        exact .pure (accrues_refl s) frees
      | some u =>
        rw [stands] at frees
        exact .pure (accrues_refl s) frees
    | declared enclosing e args =>
      refine (all since args fun _ => id).bind fun args' s₁ move frees => ?_
      have since₁ := Movement.trans since move
      split
      · rename_i same
        subst same
        exact .pure (Movement.stay move) (Frees.of_same h known since₁ found (by simp [TypeShape.kind]) frees)
      · exact newType_frees h known since₁ found (.declared enclosing e args') (by simp [TypeShape.kind]) rfl frees
    | array c =>
      refine (part since c (by simp [TypeShape.replaced])).bind fun c' s₁ move frees => ?_
      have since₁ := Movement.trans since move
      split
      · rename_i same
        subst same
        exact .pure (Movement.stay move) (Frees.of_same h known since₁ found (by simp [TypeShape.kind]) (.cons frees .nil))
      · exact newType_frees h known since₁ found (.array c') (by simp [TypeShape.kind]) rfl (.cons frees .nil)
    | wildcard upper lower =>
      refine (bound_frees fun b mem => part since b (by simp_all [TypeShape.replaced])).bind fun upper' s₁ move₁ frees₁ => ?_
      have since₁ := Movement.trans since move₁
      refine (bound_frees fun b mem => part since₁ b (by simp_all [TypeShape.replaced])).bind fun lower' s₂ move₂ frees₂ => ?_
      have frees₁ := frees₁.imp fun _ _ frees => Frees.carry frees move₂
      exact newType_frees h known (Movement.trans since₁ move₂) found (.wildcard upper' lower') (by simp [TypeShape.kind]) rfl
        (List.rel_append frees₁ frees₂)
    | executable sig =>
      refine (all since sig.parameters fun p mem => by simp [TypeShape.replaced, mem]).bind
        fun parameters s₁ move₁ frees₁ => ?_
      have since₁ := Movement.trans since move₁
      refine (part since₁ sig.result (by simp [TypeShape.replaced])).bind fun result s₂ move₂ frees₂ => ?_
      have since₂ := Movement.trans since₁ move₂
      refine (all since₂ sig.thrown fun p mem => by simp [TypeShape.replaced, mem]).bind fun thrown s₃ move₃ frees₃ => ?_
      have since₃ := Movement.trans since₂ move₃
      refine (part since₃ sig.receiver (by simp [TypeShape.replaced])).bind fun receiver s₄ move₄ frees₄ => ?_
      have move₂₄ := Movement.trans move₃ move₄
      have frees₁ := frees₁.imp fun _ _ frees => Frees.carry frees (Movement.trans move₂ move₂₄)
      have frees₃ := frees₃.imp fun _ _ frees => Frees.carry frees move₄
      exact newType_frees h known (Movement.trans since₃ move₄) found (.executable _) (by simp [TypeShape.kind]) rfl
        (.cons frees₄ (List.rel_append frees₁ (.cons (frees₂.carry move₂₄) frees₃)))
    | intersection ts =>
      exact (all since ts fun _ => id).bind fun us s₁ move frees =>
        newType_frees h known (Movement.trans since move) found (.intersection us) (by simp [TypeShape.kind]) rfl frees
    | union ts =>
      exact (all since ts fun _ => id).bind fun us s₁ move frees =>
        newType_frees h known (Movement.trans since move) found (.union us) (by simp [TypeShape.kind]) rfl frees
    | primitive p => exact .pure (Movement.stay since) (Frees.of_same h known since found (by cases p <;> decide) .nil)
    | noType n => exact .pure (Movement.stay since) (Frees.of_same h known since found (by cases n <;> decide) .nil)
    | null | error _ => exact .pure (Movement.stay since) (Frees.of_same h known since found (by simp [TypeShape.kind]) .nil)

theorem substitute_frees (h : s.Consistent) (some : i.parameters ≠ []) (full : i.types.length = i.parameters.length)
    (free : ∀ u ∈ i.types, s.HasType u ∧ ∀ e ∈ i.parameters, ¬ s.Mentions e u) (known : s.HasType t) :
    Ensures Accrues s (substitute i t) (s.Frees i t) := by
  rw [substitute, if_neg (mt List.isEmpty_iff.mp some)]
  exact .get (substituteN_frees h full free known (Nat.lt_add_right 2 known) (accrues_refl s))

end StoreM

/-- Where no type that stands for a type parameter mentions the variable of one, substitution leaves these variables in
what encloses usages, and nowhere else: the result mentions one if and only if the type that one substitutes in mentions
it around some usage to which substitution comes. So where nothing that encloses a usage mentions them, the result
mentions none. -/
theorem substitution_frees_all_but_enclosing {s s' : Store} (reachable : s.Reachable) {t u : TypeId} (known : s.HasType t)
    {parameters : List ElementId} {types : List TypeId} (full : types.length = parameters.length)
    (there : ∀ a ∈ types, s.HasType a) (free : ∀ a ∈ types, ∀ e ∈ parameters, ¬ s.Mentions e a)
    (substitutes : (substitute ⟨parameters, types⟩ t).run s = (u, s')) :
    s'.HasType u ∧ ∀ e ∈ parameters, s'.Mentions e u ↔ s.MentionsAround e t := by
  have h := reachable.sound
  obtain ⟨_, hasType, _⟩ := (substitute_ensures (i := ⟨parameters, types⟩) h there known).result substitutes
  refine ⟨hasType, fun e mem => ?_⟩
  have frees := substitute_frees (i := ⟨parameters, types⟩) h.toConsistent (List.ne_nil_of_mem mem) full
    (fun a put => ⟨there a put, free a put⟩) known
  exact (frees.result substitutes).2.2 e mem

section sample

namespace Store

def shelfProgram : PackageDecl :=
  { package := "shop"
    types :=
      [.mk { kind := .classType, name := "Shelf", typeParameters := [{ name := "T" }] }
          [.mk { kind := .classType, name := "Board" } []],
        .mk { kind := .classType, name := "Book" } []] }

@[irreducible] def shelves : Store := (Request.run (.enterDeclarations shelfProgram) empty).2

@[irreducible] def completeShelves : Store := (Request.run (.complete ⟨1⟩) shelves).2

@[irreducible] def boardUsed : Store :=
  (Request.run (.declaredType none ⟨3⟩ []) (Request.run (.declaredType (some ⟨14⟩) ⟨2⟩ []) completeShelves).2).2

theorem reachable_boardUsed : boardUsed.Reachable := by
  have entered : shelves.Reachable := by
    unfold shelves
    exact .ask (.enterDeclarations shelfProgram) .rest ⟨nofun, nofun⟩
  have completed : completeShelves.Reachable := by
    unfold completeShelves
    exact entered.request (.complete ⟨1⟩) (by decide +kernel) rfl
  unfold boardUsed
  exact (completed.request (.declaredType (some ⟨14⟩) ⟨2⟩ []) (by decide +kernel) (by decide +kernel)).request
    (.declaredType none ⟨3⟩ []) (by decide +kernel) rfl

theorem boardUsed_shapes : boardUsed.shape? .none = some (.noType .none) ∧
    boardUsed.shape? ⟨13⟩ = some (.typeVariable ⟨4⟩ .none) ∧
    boardUsed.shape? ⟨14⟩ = some (.declared .none ⟨1⟩ [⟨13⟩]) ∧
    boardUsed.shape? ⟨15⟩ = some (.declared ⟨14⟩ ⟨2⟩ []) ∧ boardUsed.shape? ⟨16⟩ = some (.declared .none ⟨3⟩ []) := by
  decide +kernel

theorem boardUsed_substitutes :
    (substitute ⟨[⟨4⟩], [⟨16⟩]⟩ ⟨14⟩).run boardUsed = (⟨17⟩, ((substitute ⟨[⟨4⟩], [⟨16⟩]⟩ ⟨14⟩).run boardUsed).2) ∧
      (substitute ⟨[⟨4⟩], [⟨16⟩]⟩ ⟨15⟩).run boardUsed = (⟨15⟩, ((substitute ⟨[⟨4⟩], [⟨16⟩]⟩ ⟨15⟩).run boardUsed).2) := by
  have made : ((substitute ⟨[⟨4⟩], [⟨16⟩]⟩ ⟨14⟩).run boardUsed).1 = ⟨17⟩ ∧
      ((substitute ⟨[⟨4⟩], [⟨16⟩]⟩ ⟨15⟩).run boardUsed).1 = ⟨15⟩ := by decide +kernel
  exact ⟨leaves made.1, leaves made.2⟩

theorem not_mentions_none (e : ElementId) : ¬ boardUsed.Mentions e .none := by
  rw [mentions_iff boardUsed_shapes.1 nofun]
  nofun

theorem book_is_free : ∀ a ∈ [(⟨16⟩ : TypeId)], ∀ e ∈ [(⟨4⟩ : ElementId)], ¬ boardUsed.Mentions e a := by
  obtain ⟨_, _, _, _, book⟩ := boardUsed_shapes
  refine List.forall_mem_singleton.mpr fun e _ => ?_
  rw [mentions_iff book (by simp [TypeShape.kind])]
  simp [TypeShape.around, TypeShape.replaced, not_mentions_none]

theorem hasType_boardUsed {t : TypeId} (small : t.index ≤ 16) : boardUsed.HasType t :=
  Nat.lt_of_le_of_lt small (Array.getElem?_eq_some_iff.mp boardUsed_shapes.2.2.2.2).1

theorem shelf_mentions : boardUsed.Mentions ⟨4⟩ ⟨14⟩ := by
  obtain ⟨_, variable_, shelf, _⟩ := boardUsed_shapes
  exact .part shelf (by simp [TypeShape.around, TypeShape.replaced]) (.itself variable_)

theorem board_mentions_around : boardUsed.MentionsAround ⟨4⟩ ⟨15⟩ := by
  obtain ⟨_, _, _, board, _⟩ := boardUsed_shapes
  exact .around board (List.mem_singleton_self _) shelf_mentions

end Store

/-- In the usage of the generic type itself its variable is replaced, and in that of the nested type it stays. -/
theorem board_frees_all_but_shelf :
    (∃ s', (substitute ⟨[⟨4⟩], [⟨16⟩]⟩ ⟨14⟩).run boardUsed = (⟨17⟩, s') ∧ ¬ s'.Mentions ⟨4⟩ ⟨17⟩) ∧
    ∃ s', (substitute ⟨[⟨4⟩], [⟨16⟩]⟩ ⟨15⟩).run boardUsed = (⟨15⟩, s') ∧ s'.Mentions ⟨4⟩ ⟨15⟩ := by
  have frees {t u : TypeId} {s' : Store} (small : t.index ≤ 16)
      (substitutes : (substitute ⟨[⟨4⟩], [⟨16⟩]⟩ t).run boardUsed = (u, s')) :
      s'.Mentions ⟨4⟩ u ↔ boardUsed.MentionsAround ⟨4⟩ t :=
    (substitution_frees_all_but_enclosing reachable_boardUsed (hasType_boardUsed small) rfl
      (List.forall_mem_singleton.mpr (hasType_boardUsed (Nat.le_refl 16))) book_is_free substitutes).2 ⟨4⟩
      (List.mem_singleton_self _)
  obtain ⟨shelf, board⟩ := boardUsed_substitutes
  refine ⟨⟨_, shelf, ?_⟩, _, board, (frees (by decide) board).mpr board_mentions_around⟩
  obtain ⟨_, variable_, used, _⟩ := boardUsed_shapes
  rw [frees (by decide) shelf, mentionsAround_iff used]
  simp [TypeShape.around, TypeShape.replaced, not_mentions_none, mentionsAround_iff variable_]

/-- The variable of a type parameter is left within what encloses a usage. -/
theorem enclosing_type_is_not_freed : ¬ ∀ (s s' : Store) (t u : TypeId) (parameters : List ElementId) (types : List TypeId),
    s.Reachable → s.HasType t → types.length = parameters.length → (∀ a ∈ types, s.HasType a) →
      (∀ a ∈ types, ∀ e ∈ parameters, ¬ s.Mentions e a) → (substitute ⟨parameters, types⟩ t).run s = (u, s') →
        ∀ e ∈ parameters, ¬ s'.Mentions e u := by
  intro claimed
  have known : boardUsed.HasType ⟨15⟩ := hasType_boardUsed (by decide)
  have there : ∀ a ∈ [(⟨16⟩ : TypeId)], boardUsed.HasType a := List.forall_mem_singleton.mpr (hasType_boardUsed (Nat.le_refl 16))
  have board := boardUsed_substitutes.2
  have frees := substitute_frees (i := ⟨[⟨4⟩], [⟨16⟩]⟩) reachable_boardUsed.sound.toConsistent (List.cons_ne_nil _ _) rfl
    (fun a put => ⟨there a put, book_is_free a put⟩) known
  have left := ((frees.result board).2.2 ⟨4⟩ (List.mem_singleton_self _)).mpr board_mentions_around
  exact claimed _ _ _ _ _ _ reachable_boardUsed known rfl there book_is_free board ⟨4⟩ (List.mem_singleton_self _) left

end sample

end Nominal
