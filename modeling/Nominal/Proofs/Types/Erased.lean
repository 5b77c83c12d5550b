import Nominal.Proofs.Types.Founded
/-!
What erasure leaves. It consists of usages without arguments, arrays and signatures of what is left, and of types
without parts. Where it was cut short it has the top type, and there it is cut short or finds the top type again, as
nothing in it takes more levels than it took before. So it is its own erasure.
-/

namespace Nominal

open Store StoreM

def TypeShape.Reduced : TypeShape → Prop
  | declared _ _ args => args = []
  | typeVariable .. | wildcard .. => False
  | executable sig => sig.typeVariables = []
  | union ts | intersection ts => ts = []
  | primitive _ | noType _ | null | error _ | array _ => True

namespace Store

def MadeOf (s : Store) : TypeId → TypeId → Prop := Relation.ReflTransGen fun t p => p ∈ (s.shape t).parts

def Throughout (s : Store) (is : TypeShape → Prop) (t : TypeId) : Prop := ∀ p, s.MadeOf t p → is (s.shape p)

/-- Nothing is in a type that erasure takes away. -/
def Reduced (s : Store) (t : TypeId) : Prop := s.Throughout TypeShape.Reduced t

def Unsigned (s : Store) (t : TypeId) : Prop := s.Throughout (·.signature? = none) t

def IsTop (s : Store) (t : TypeId) : Prop :=
  s.objectUsage = some t ∨ s.objectUsage = none ∧ s.objectElement? = none ∧ t = .none

/-- What may be left of a type of which no more than so many levels were followed. -/
inductive Remains (s : Store) : Nat → TypeId → Prop
  | top {depth : Nat} {t : TypeId} : s.IsTop t → Remains s depth t
  | plain {depth : Nat} {t : TypeId} {shape : TypeShape} : s.shape? t = some shape → shape.parts = [] →
    shape.Reduced → Remains s (depth + 1) t
  | array {depth : Nat} {t c : TypeId} : s.shape? t = some (.array c) → Remains s depth c → Remains s (depth + 1) t
  | declared {depth : Nat} {t outer : TypeId} {e : ElementId} : s.shape? t = some (.declared outer e []) →
    (outer ≠ .none → Remains s depth outer) → Remains s (depth + 1) t
  | executable {depth : Nat} {t : TypeId} {sig : Signature} : s.shape? t = some (.executable sig) →
    sig.typeVariables = [] → (∀ p ∈ (TypeShape.executable sig).parts, Remains s depth p) → Remains s (depth + 1) t

structure Accrues (s s' : Store) : Prop where
  shapes : ∀ t shape, s.shape? t = some shape → s'.shape? t = some shape
  top : ∀ t, s.IsTop t → s'.IsTop t

instance : Movement Accrues where
  trans first second :=
    ⟨fun t shape => second.shapes t shape ∘ first.shapes t shape, fun t => second.top t ∘ first.top t⟩
  stay _ := ⟨fun _ _ => id, fun _ => id⟩

variable {s s' : Store} {t p outer : TypeId} {depth deeper : Nat}

theorem accrues_refl (s : Store) : s.Accrues s := ⟨fun _ _ => id, fun _ => id⟩

theorem Remains.accrue (remains : s.Remains depth t) (move : s.Accrues s') : s'.Remains depth t := by
  induction remains with
  | top is => exact .top (move.top _ is)
  | plain found noParts reduced => exact .plain (move.shapes _ _ found) noParts reduced
  | array found _ ih => exact .array (move.shapes _ _ found) ih
  | declared found _ ih => exact .declared (move.shapes _ _ found) ih
  | executable found noVariables _ ih => exact .executable (move.shapes _ _ found) noVariables ih

theorem Remains.deepen (remains : s.Remains depth t) (le : depth ≤ deeper) : s.Remains deeper t := by
  induction remains generalizing deeper with
  | top is => exact .top is
  | plain found noParts reduced =>
    obtain ⟨n, rfl⟩ := Nat.exists_eq_add_of_le' le
    exact .plain found noParts reduced
  | array found _ ih =>
    obtain ⟨n, rfl⟩ := Nat.exists_eq_add_of_le' le
    exact .array found (ih (Nat.le_add_left _ n))
  | declared found _ ih =>
    obtain ⟨n, rfl⟩ := Nat.exists_eq_add_of_le' le
    exact .declared found fun nested => ih nested (Nat.le_add_left _ n)
  | executable found noVariables _ ih =>
    obtain ⟨n, rfl⟩ := Nat.exists_eq_add_of_le' le
    exact .executable found noVariables fun p part => ih p part (Nat.le_add_left _ n)

section parts

variable {is : TypeShape → Prop} {shape : TypeShape}

theorem Throughout.part (all : s.Throughout is t) (part : p ∈ (s.shape t).parts) : s.Throughout is p :=
  fun q made => all q (.head part made)

theorem throughout_of_parts (found : s.shape? t = some shape) (here : is shape)
    (parts : ∀ p ∈ shape.parts, s.Throughout is p) : s.Throughout is t := by
  rw [← shape_of_shape? found] at here parts
  intro p made
  rcases made.cases_head with rfl | ⟨q, part, rest⟩
  · exact here
  · exact parts q part p rest

theorem Consistent.reduced_none (h : s.Consistent) : s.Reduced .none :=
  throughout_of_parts (h.initial 0 (.noType .none) rfl) trivial nofun

theorem Consistent.reduced_usage (h : s.Consistent) {e : ElementId} (found : s.shape? t = some (.declared outer e []))
    (enclosing : outer ≠ .none → s.Reduced outer) : s.Reduced t := by
  refine throughout_of_parts found rfl fun p part => ?_
  cases List.mem_singleton.mp part
  by_cases nothing : outer = .none
  · rw [nothing]
    exact h.reduced_none
  · exact enclosing nothing

end parts

theorem IsTop.cases (h : s.Consistent) (is : s.IsTop t) :
    t = .none ∨ ∃ e, s.shape? t = some (.declared .none e []) := by
  rcases is with usage | ⟨_, _, rfl⟩
  · obtain ⟨e, _, found⟩ := h.object t usage
    exact .inr ⟨e, found⟩
  · exact .inl rfl

theorem Remains.reduced (h : s.Consistent) (remains : s.Remains depth t) : s.Reduced t := by
  induction remains with
  | top is =>
    rcases is.cases h with rfl | ⟨e, found⟩
    · exact h.reduced_none
    · exact h.reduced_usage found (absurd rfl)
  | plain found noParts reduced => exact throughout_of_parts found reduced (by rw [noParts]; nofun)
  | array found _ ih =>
    refine throughout_of_parts found trivial fun p part => ?_
    cases List.mem_singleton.mp part
    exact ih
  | declared found _ ih => exact h.reduced_usage found ih
  | executable found noVariables _ ih => exact throughout_of_parts found noVariables ih

theorem accrues_pushType (s : Store) (shape : TypeShape) : s.Accrues (s.pushType shape) where
  shapes t old found := by
    have there : t.index < s.types.size := has_type_iff.mpr ⟨old, found⟩
    rw [shape?_push, if_neg (Nat.ne_of_lt there), found]
  top _ is := is

end Store

namespace StoreM

variable {s s₀ : Store} {t : TypeId}

theorem objectType_of_top (is : s.IsTop t) : objectType s = (t, s) := by
  rcases is with usage | ⟨usage, absent, rfl⟩
  · exact objectType_of_usage usage
  · exact objectType_of_absent usage absent

theorem objectType_accrues (s : Store) : Ensures Accrues s objectType fun t s' => s'.IsTop t := by
  cases usage : s.objectUsage with
  | some t =>
    rw [Ensures, objectType_of_usage usage]
    exact ⟨accrues_refl s, .inl usage⟩
  | none =>
    cases named : s.objectElement? with
    | none =>
      rw [Ensures, objectType_of_absent usage named]
      exact ⟨accrues_refl s, .inr ⟨usage, named, rfl⟩⟩
    | some e =>
      rw [Ensures, objectType_of_first usage named]
      refine ⟨⟨(accrues_pushType s _).shapes, fun t is => ?_⟩, .inl rfl⟩
      rcases is with usage' | ⟨_, absent, _⟩
      · cases usage.symm.trans usage'
      · cases named.symm.trans absent

theorem newType_accrues (s : Store) (shape : TypeShape) :
    Ensures Accrues s (newType shape) fun t s' => s'.shape? t = some shape :=
  ⟨accrues_pushType s shape, (shape?_push shape).trans (if_pos rfl)⟩

theorem objectType_remains (s : Store) (depth : Nat) :
    Ensures Accrues s objectType fun t s' => s'.Remains depth t :=
  (objectType_accrues s).imp fun _ _ _ is => .top is

theorem eraseN_remains (h : s₀.Consistent) (known : s₀.HasType t) (depth : Nat) (since : s₀.Accrues s) :
    Ensures Accrues s (eraseN depth t) fun t' s' => s'.Remains depth t' := by
  induction depth generalizing s t with
  | zero => exact objectType_remains s 0
  | succ depth ih =>
    obtain ⟨shape, found⟩ := has_type_iff.mp known
    have fits := h.shapes t shape found
    have found' : s.shape? t = some shape := since.shapes t shape found
    -- Only what the type is made of is followed, and that was there before anything was added.
    have later (p : TypeId) (part : p ∈ shape.parts) {s₁ : Store} (move : s.Accrues s₁) :
        Ensures Accrues s₁ (eraseN depth p) fun p' s' => s'.Remains depth p' :=
      ih (fits.part_known known part) (Movement.trans since move)
    have instead (p : TypeId) (there : s₀.HasType p) :
        Ensures Accrues s (eraseN depth p) fun p' s' => s'.Remains (depth + 1) p' :=
      (ih there since).imp fun _ _ _ remains => remains.deepen (Nat.le_succ depth)
    have stay := accrues_refl s
    rw [eraseN]
    refine .get ?_
    rw [shape_of_shape? found']
    cases shape with
    | array c =>
      refine (later c (by simp [TypeShape.parts]) stay).bind fun c' s₁ move remains => ?_
      split
      · rename_i same
        subst same
        exact .pure (Movement.stay move) (.array (move.shapes t _ found') remains)
      · refine (newType_accrues s₁ _).imp fun t' s₂ move' found₂ => ?_
        exact .array found₂ (remains.accrue move')
    | declared enclosing e args =>
      have finish (outer : TypeId) {s₁ : Store} (move : s.Accrues s₁)
          (remains : outer ≠ .none → s₁.Remains depth outer) :
          Ensures Accrues s₁ (if args.isEmpty && outer == enclosing then pure t else newType (.declared outer e []))
            fun t' s' => s'.Remains (depth + 1) t' := by
        split
        · rename_i same
          simp only [Bool.and_eq_true, List.isEmpty_iff, beq_iff_eq] at same
          obtain ⟨rfl, rfl⟩ := same
          exact .pure (Movement.stay move) (.declared (move.shapes t _ found') remains)
        · refine (newType_accrues s₁ _).imp fun t' s₂ move' found₂ => ?_
          exact .declared found₂ fun nested => (remains nested).accrue move'
      dsimp only
      split
      · exact finish .none stay (absurd rfl)
      · refine (later enclosing (by simp [TypeShape.parts]) stay).bind fun outer s₁ move remains => ?_
        exact finish outer move fun _ => remains
    | typeVariable e upper => exact instead upper (fits.typeVariable e upper rfl).2.1
    | wildcard upper lower =>
      cases upper with
      | none => exact objectType_remains s _
      | some b => exact instead b (fits.part_known known (by simp [TypeShape.parts]))
    | intersection ts | union ts =>
      cases ts with
      | nil => exact .pure stay (.plain found' rfl rfl)
      | cons b _ => exact instead b (fits.part_known known (by simp [TypeShape.parts]))
    | executable sig =>
      have all (ps : List TypeId) (mem : ∀ p ∈ ps, p ∈ (TypeShape.executable sig).parts) {s₁ : Store}
          (move : s.Accrues s₁) : Ensures Accrues s₁ (ps.mapM (eraseN depth)) fun ps' s' =>
            ∀ p' ∈ ps', s'.Remains depth p' :=
        .mapM_all (Movement.stay move) (fun _ _ _ move' remains => remains.accrue move') fun p there s₂ move' =>
          later p (mem p there) (Movement.trans move move')
      refine (later sig.receiver (by simp [TypeShape.parts]) stay).bind fun receiver s₁ move₁ remains₁ => ?_
      refine (all sig.parameters (fun p mem => by simp [TypeShape.parts, mem]) move₁).bind
        fun parameters s₂ move₂ remains₂ => ?_
      have from₂ := Movement.trans move₁ move₂
      refine (later sig.result (by simp [TypeShape.parts]) from₂).bind fun result s₃ move₃ remains₃ => ?_
      have from₃ := Movement.trans from₂ move₃
      refine (all sig.thrown (fun p mem => by simp [TypeShape.parts, mem]) from₃).bind
        fun thrown s₄ move₄ remains₄ => ?_
      refine (newType_accrues s₄ _).imp fun t' s₅ move₅ found₅ => ?_
      refine .executable found₅ rfl ?_
      simp only [TypeShape.parts, List.nil_append, List.cons_append, List.mem_cons, List.mem_append]
      have from₅ := Movement.trans move₄ move₅
      have later₂ := Movement.trans move₃ from₅
      rintro p (rfl | mem | rfl | mem)
      · exact remains₁.accrue (Movement.trans move₂ later₂)
      · exact (remains₂ p mem).accrue later₂
      · exact remains₃.accrue from₅
      · exact (remains₄ p mem).accrue move₅
    | primitive _ | noType _ | null | error _ => exact .pure stay (.plain found' rfl trivial)

/-- What is left stays what it is when it is erased, unless there is a signature in it: that is made anew. -/
theorem eraseN_again (h : s.Consistent) {depth : Nat} (remains : s.Remains depth t) (unsigned : s.Unsigned t) :
    eraseN depth t s = (t, s) := by
  have usage {n : Nat} {t outer : TypeId} {e : ElementId} (found : s.shape? t = some (.declared outer e []))
      (again : outer ≠ .none → eraseN n outer s = (outer, s)) : eraseN (n + 1) t s = (t, s) := by
    rw [eraseN, stateM_get_bind, shape_of_shape? found]
    dsimp only
    by_cases nothing : outer = .none
    · rw [if_pos nothing, nothing]
      rfl
    · rw [if_neg nothing, stateM_bind, again nothing]
      simp only [List.isEmpty_nil, beq_self_eq_true, Bool.and_self, if_true]
      rfl
  induction remains with
  | @top depth t is =>
    cases depth with
    | zero => exact objectType_of_top is
    | succ depth =>
      rcases is.cases h with rfl | ⟨e, found⟩
      · have found : s.shape? .none = some (.noType .none) := h.initial 0 _ rfl
        rw [eraseN, stateM_get_bind, shape_of_shape? found]
        rfl
      · exact usage found (absurd rfl)
  | @plain depth t shape found noParts reduced =>
    rw [eraseN, stateM_get_bind, shape_of_shape? found]
    cases shape with
    | primitive _ | noType _ | null | error _ => rfl
    | union ts | intersection ts =>
      cases noParts
      rfl
    | array _ | declared _ _ _ | executable _ => simp [TypeShape.parts] at noParts
    | typeVariable _ _ | wildcard _ _ => exact reduced.elim
  | @array depth t c found _ ih =>
    have part : c ∈ (s.shape t).parts := by simp [shape_of_shape? found, TypeShape.parts]
    rw [eraseN, stateM_get_bind, shape_of_shape? found]
    dsimp only
    rw [stateM_bind, ih (unsigned.part part), if_pos rfl]
    rfl
  | @declared depth t outer e found _ ih =>
    have part : outer ∈ (s.shape t).parts := by simp [shape_of_shape? found, TypeShape.parts]
    exact usage found fun nested => ih nested (unsigned.part part)
  | @executable depth t sig found _ _ _ =>
    have absent := unsigned t .refl
    rw [shape_of_shape? found] at absent
    cases absent

end StoreM

/-- Erasure normalises, whatever bounds lead to each other and however deeply types are nested. It leaves a type in
which there is nothing that erasure takes away, and which is the same type after another erasure; without signatures
it is not even made again. -/
theorem erasure_normalises {s : Store} {t : TypeId} (reachable : s.Reachable) (known : s.HasType t) :
    ∃ t' s', (erase t).run s = (t', s') ∧ s'.HasType t' ∧ s'.Reduced t' ∧
      ∃ t'' s'', (erase t').run s' = (t'', s'') ∧ s''.sameType t'' t' ∧ (s'.Unsigned t' → t'' = t' ∧ s'' = s') := by
  have h := reachable.sound
  obtain ⟨t', s', erased⟩ : ∃ t' s', (erase t).run s = (t', s') := ⟨_, _, rfl⟩
  obtain ⟨t'', s'', again⟩ : ∃ t'' s'', (erase t').run s' = (t'', s'') := ⟨_, _, rfl⟩
  obtain ⟨move, known', tree⟩ := (erase_ensures h known).result erased
  obtain ⟨move', known'', tree'⟩ := (erase_ensures move.sound known').result again
  obtain ⟨_, remains⟩ := (eraseN_remains h.toConsistent known boundDepth (accrues_refl s)).result erased
  refine ⟨t', s', erased, known', remains.reduced move.sound.toConsistent, t'', s'', again, ?_, fun unsigned => ?_⟩
  · have left : s'.tree t' = s'.erased (s.tree t) := by
      rw [tree, ← move.toRetains.erased known, move.tree known]
    refine move'.sound.same_of_tree ?_
    rw [tree', move'.tree known', left, Store.erased, Store.erased,
      TypeTree.erase_idem s'.context_fits (Nat.le_refl _)]
  · have stays := eraseN_again move.sound.toConsistent remains unsigned
    exact Prod.mk.inj (again.symm.trans stays)

section sample

theorem Store.unsigned_of_all {s : Store} {t : TypeId} (all : ∀ i < s.types.size, (s.shape ⟨i⟩).signature? = none) :
    s.Unsigned t := by
  intro p _
  cases found : s.shape? p with
  | none =>
    rw [shape, found]
    rfl
  | some shape => exact all p.index (has_type_iff.mpr ⟨shape, found⟩)

/-- One of the variables that bound each other is erased to a usage without arguments, and this to itself. -/
theorem knotted_erasure_normalises : ∃ s', (erase ⟨17⟩).run knotted = (⟨22⟩, s') ∧ s'.Reduced ⟨22⟩ ∧
    (erase ⟨22⟩).run s' = (⟨22⟩, s') := by
  obtain ⟨t', s', erased, _, reduced, t'', s'', again, _, stays⟩ :=
    erasure_normalises reachable_knotted (show 17 < knotted.types.size by decide +kernel)
  obtain ⟨rfl, is⟩ : t' = ⟨22⟩ ∧ s' = ((erase ⟨17⟩).run knotted).2 := by
    have left : ((erase ⟨17⟩).run knotted).1 = ⟨22⟩ := by decide +kernel
    rw [erased] at left ⊢
    exact ⟨left, rfl⟩
  have unsigned : s'.Unsigned ⟨22⟩ := by
    rw [is]
    exact unsigned_of_all (by decide +kernel)
  obtain ⟨rfl, rfl⟩ := stays unsigned
  exact ⟨_, erased, reduced, again⟩

end sample

end Nominal
