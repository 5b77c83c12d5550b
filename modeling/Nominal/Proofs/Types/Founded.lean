import Mathlib.Logic.Function.Iterate
import Nominal.Proofs.Store.Coinciding
import Nominal.Proofs.Store.Reachable
import Nominal.Store.Display
/-!
The types of a store are well founded: what a type is made of is older than the type. The bound of a type
variable may be younger than the variable, as it is found when the variable is there already, but no recursion
over types looks behind a variable. So these recursions end, whatever would be put in their place if they were
cut off at a depth that they do not reach.
-/

namespace Nominal

open Store StoreM

/-- What every type of a store refers to. -/
structure Store.Founded (s : Store) : Prop where
  older : ∀ t shape, s.shape? t = some shape → ∀ p ∈ shape.parts, p.index < t.index
  bounds : ∀ t shape e upper, s.shape? t = some shape → shape = .typeVariable e upper →
    s.HasType shape.upperBound ∧ s.HasType shape.lowerBound
  declared : ∀ t enclosing e args, s.shape? t = some (.declared enclosing e args) → s.IsType e
  ownVariable : ∀ t e upper, s.shape? t = some (.typeVariable e upper) →
    ∃ r, s.record? e = some r ∧ r.kind = .typeParameter ∧ r.asType = t
  oneVariable : ∀ e, s.IsTypeParameter e → ∃! t, ∃ upper, s.shape? t = some (.typeVariable e upper)

/-- The recursion whose steps are `step` ends at `t`, and with `answer`. It goes no deeper than the place of `t`:
when it is cut off there, or anywhere below, it does not matter with what. -/
def EndsWith {α : Type} (step : (TypeId → α) → TypeId → α) (t : TypeId) (answer : α) : Prop :=
  ∀ fuel last, t.index < fuel → step^[fuel] last t = answer

section order

variable {s : Store}

theorem Store.Sound.variable_recorded (h : s.Sound) {t upper : TypeId} {e : ElementId}
    (found : s.shape? t = some (.typeVariable e upper)) :
    ∃ r, s.record? e = some r ∧ r.kind = .typeParameter ∧ r.asType = t := by
  obtain ⟨kind, _, own⟩ := (h.shapes t _ found).typeVariable e upper rfl
  obtain ⟨r, complete⟩ := h.record_of_owned kind rfl
  obtain ⟨slot, there, fits⟩ := h.fits complete
  obtain ⟨slot', there', same⟩ := kind?_eq_some_iff.mp kind
  cases there.symm.trans there'
  exact ⟨r, complete, fits.kind.trans same, own r complete⟩

theorem Store.Sound.one_variable (h : s.Sound) {e : ElementId} (parameter : s.IsTypeParameter e) :
    ∃! t, ∃ upper, s.shape? t = some (.typeVariable e upper) := by
  obtain ⟨r, complete⟩ := h.record_of_owned parameter rfl
  obtain ⟨slot, there, fits⟩ := h.fits complete
  obtain ⟨slot', there', same⟩ := kind?_eq_some_iff.mp parameter
  cases there.symm.trans there'
  obtain ⟨_, _, upper, found, _⟩ := fits.bound same
  refine ⟨r.asType, ⟨upper, found⟩, ?_⟩
  rintro t ⟨upper', found'⟩
  obtain ⟨_, complete', _, own⟩ := h.variable_recorded found'
  cases complete.symm.trans complete'
  exact own.symm

theorem Store.Sound.founded (h : s.Sound) : s.Founded where
  older t shape found := (h.shapes t shape found).older
  bounds t shape e upper found same := by
    obtain ⟨_, known, _⟩ := (h.shapes t shape found).typeVariable e upper same
    subst same
    exact ⟨known, h.has_initial (i := 4) (by decide)⟩
  declared t enclosing e args found := ((h.shapes t _ found).declared enclosing e args rfl).1
  ownVariable _ _ _ := h.variable_recorded
  oneVariable _ := h.one_variable

end order

section recursions

variable {s : Store} {t : TypeId} {i : Instantiation}

theorem Store.Sound.sameType_ends (h : s.Sound) (t : TypeId) : EndsWith s.sameTypeStep t (s.sameType t) := by
  intro fuel last enough
  induction fuel generalizing t with
  | zero => omega
  | succ fuel ih =>
    funext u
    rw [Function.iterate_succ_apply', sameType_tree h.toConsistent]
    refine sameTypeStep_tree h.toConsistent fun p part q => ?_
    have older := h.toConsistent.part_older part
    rw [ih p (by omega), sameType_tree h.toConsistent]

theorem Store.typeTextStep_congr {text text' : TypeId → String}
    (parts : ∀ p ∈ (s.shape t).parts, text p = text' p) : s.typeTextStep text t = s.typeTextStep text' t := by
  have listed (ts : List TypeId) (mem : ∀ p ∈ ts, p ∈ (s.shape t).parts) : ts.map text = ts.map text' :=
    List.map_congr_left fun p there => parts p (mem p there)
  unfold typeTextStep
  cases same : s.shape t <;> rw [same] at parts listed <;> simp only [TypeShape.parts] at parts listed ⊢
  case array c => rw [parts c (by simp)]
  case declared enclosing e args => rw [parts enclosing (by simp), listed args (by simp +contextual)]
  case wildcard upper lower => cases upper <;> cases lower <;> simp_all
  case executable sig =>
    rw [listed sig.typeVariables (by simp +contextual), listed sig.parameters (by simp +contextual),
      parts sig.result (by simp), listed sig.thrown (by simp +contextual)]
  case union ts | intersection ts => rw [listed ts fun _ => id]

theorem Store.Consistent.iterate_eq {α : Type} {step : (TypeId → α) → TypeId → α} (h : s.Consistent)
    (congr : ∀ f g t, (∀ p ∈ (s.shape t).parts, f p = g p) → step f t = step g t) (f g : TypeId → α)
    {n m : Nat} (deep : t.index < n) (deep' : t.index < m) : step^[n] f t = step^[m] g t := by
  induction n generalizing t m with
  | zero => omega
  | succ n ih =>
    obtain ⟨m, rfl⟩ : ∃ k, m = k + 1 := ⟨m - 1, by omega⟩
    rw [Function.iterate_succ_apply', Function.iterate_succ_apply']
    refine congr _ _ t fun p part => ?_
    have older := h.part_older part
    exact ih (by omega) (by omega)

theorem Store.typeTextN_eq (s : Store) (fuel : Nat) :
    s.typeTextN fuel = s.typeTextStep^[fuel] fun _ => "..." := by
  induction fuel with
  | zero => rfl
  | succ fuel ih => rw [Function.iterate_succ_apply', ← ih, typeTextN]

theorem Store.Sound.typeText_ends (h : s.Sound) (known : s.HasType t) :
    EndsWith s.typeTextStep t (s.typeText t) := by
  intro fuel last enough
  rw [typeText, typeTextN_eq]
  refine h.toConsistent.iterate_eq (fun _ _ _ => typeTextStep_congr) _ _ enough ?_
  have bound : t.index < s.types.size := known
  unfold chainBound
  omega

def Given.shaped (s : Store) : Given Keeps where
  holds s' := ∀ t shape, s.shape? t = some shape → s'.shape? t = some shape
  lasts keeps same t shape found := keeps.shapes t shape (same t shape found)

theorem coincide_substituteStep {again again' : TypeId → StoreM TypeId} {shape : TypeShape}
    (found : s.shape? t = some shape) (each : ∀ p ∈ shape.parts, Coincide (.shaped s) (again p) (again' p)) :
    Coincide (.shaped s) (substituteStep i again t) (substituteStep i again' t) := by
  have all (ps : List TypeId) (mem : ∀ p ∈ ps, p ∈ shape.parts) :
      Coincide (.shaped s) (ps.mapM again) (ps.mapM again') := .mapM fun p there => each p (mem p there)
  have keeps {c : Prop} [Decidable c] (made : TypeShape) :
      Coincide (.shaped s) (if c then return t else newType made) (if c then return t else newType made) :=
    .ite (.pure t) (.keeping (keeping_newType made))
  refine .getOf fun s' holds => ?_
  rw [shape_of_shape? (holds t shape found)]
  cases shape with
  | declared enclosing e args => exact (all args (by simp +contextual [TypeShape.parts])).bind fun _ => keeps _
  | array c => exact (each c (by simp [TypeShape.parts])).bind fun _ => keeps _
  | wildcard upper lower =>
    refine (Coincide.option_mapM fun p mem => each p (by simp_all [TypeShape.parts])).bind fun upper' => ?_
    refine (Coincide.option_mapM fun p mem => each p (by simp_all [TypeShape.parts])).bind fun lower' => ?_
    exact .keeping (keeping_newType _)
  | executable sig =>
    refine (all sig.parameters (by simp +contextual [TypeShape.parts])).bind fun parameters => ?_
    refine (each sig.result (by simp [TypeShape.parts])).bind fun result => ?_
    refine (all sig.thrown (by simp +contextual [TypeShape.parts])).bind fun thrown => ?_
    refine (each sig.receiver (by simp [TypeShape.parts])).bind fun receiver => ?_
    exact .keeping (keeping_newType _)
  | union ts | intersection ts => exact (all ts fun _ => id).bind fun _ => .keeping (keeping_newType _)
  | primitive _ | noType _ | null | error _ | typeVariable _ _ => exact .pure _

theorem coincide_substitution (h : s.Consistent) (last last' : TypeId → StoreM TypeId) {n m : Nat} {t : TypeId}
    (known : s.HasType t) (deep : t.index < n) (deep' : t.index < m) :
    Coincide (.shaped s) ((substituteStep i)^[n] last t) ((substituteStep i)^[m] last' t) := by
  induction n generalizing t m with
  | zero => omega
  | succ n ih =>
    obtain ⟨m, rfl⟩ : ∃ k, m = k + 1 := ⟨m - 1, by omega⟩
    rw [Function.iterate_succ_apply', Function.iterate_succ_apply']
    obtain ⟨shape, found⟩ := has_type_iff.mp known
    have fits := h.shapes t shape found
    refine coincide_substituteStep found fun p part => ?_
    have older := fits.older p part
    exact ih (fits.part_known known part) (by omega) (by omega)

theorem substituteN_eq (fuel : Nat) : substituteN i fuel = (substituteStep i)^[fuel] fun t => return t := by
  induction fuel with
  | zero => rfl
  | succ fuel ih => rw [Function.iterate_succ_apply', ← ih, substituteN]

theorem Store.Sound.substitution_ends (h : s.Sound) (known : s.HasType t) (generic : i.parameters ≠ [])
    (last : TypeId → StoreM TypeId) {fuel : Nat} (enough : t.index < fuel) :
    (substituteStep i)^[fuel] last t s = substitute i t s := by
  have bound : t.index < s.chainBound := by
    have inside : t.index < s.types.size := known
    unfold chainBound
    omega
  unfold substitute
  rw [if_neg (by simpa using generic)]
  change _ = substituteN i s.chainBound t s
  rw [substituteN_eq]
  exact (coincide_substitution h.toConsistent _ _ known enough bound s fun _ _ => id).1

end recursions

/-- The types of every store that one comes to are founded, and comparing, showing and substituting in a type of
the store comes to an end. -/
theorem types_are_founded {s : Store} (reachable : s.Reachable) :
    s.Founded ∧ ∀ t, s.HasType t →
      EndsWith s.sameTypeStep t (s.sameType t) ∧
      EndsWith s.typeTextStep t (s.typeText t) ∧
      ∀ (i : Instantiation) fuel last, t.index < fuel →
        (if i.parameters = [] then (t, s) else (substituteStep i)^[fuel] last t s) = substitute i t s := by
  have h := reachable.sound
  refine ⟨h.founded, fun t known => ⟨h.sameType_ends t, h.typeText_ends known, fun i fuel last enough => ?_⟩⟩
  split
  · rename_i none
    unfold substitute
    rw [if_pos (by rw [none]; rfl)]
    rfl
  · rename_i generic
    exact h.substitution_ends known generic last enough

section sample

namespace Store

def knottedProgram : PackageDecl :=
  let node (argument : String) : TypeExpr := .named "Node" [.var argument]
  { package := commonPackage
    types :=
      [.mk { kind := .classType, name := "Object" } [],
        .mk { kind := .classType, name := "Node", typeParameters := [{ name := "T", bounds := [node "T"] }] } [],
        .mk { kind := .classType, name := "Pair"
              typeParameters := [{ name := "A", bounds := [node "B"] }, { name := "B", bounds := [node "A"] }] } []] }

def knotting : Store := (Request.run (.enterDeclarations knottedProgram) .empty).2

@[irreducible] def knotted : Store := (Request.run (.complete ⟨3⟩) (Request.run (.complete ⟨2⟩) knotting).2).2

theorem reachable_knotted : knotted.Reachable := by
  have entered : knotting.Reachable := .ask (.enterDeclarations knottedProgram) .rest ⟨nofun, nofun⟩
  have first : (Request.run (.complete ⟨2⟩) knotting).2.Reachable := by
    refine .ask (.complete ⟨2⟩) entered ⟨?_, nofun⟩
    intro e mem
    cases List.mem_singleton.mp mem
    exact show 2 < knotting.elements.size by decide +kernel
  unfold knotted
  refine .ask (.complete ⟨3⟩) first ⟨?_, nofun⟩
  intro e mem
  cases List.mem_singleton.mp mem
  exact show 3 < (Request.run (.complete ⟨2⟩) knotting).2.elements.size by decide +kernel

end Store

/-- The bounds of two type parameters lead from one variable to the other and back, and yet recursions end at
their variables: nothing that is put twenty-one levels deep shows in the text of a bound. -/
theorem knotted_types_are_founded :
    knotted.shape? ⟨17⟩ = some (.typeVariable ⟨5⟩ ⟨19⟩) ∧
      knotted.shape? ⟨19⟩ = some (.declared .none ⟨2⟩ [⟨18⟩]) ∧
      knotted.shape? ⟨18⟩ = some (.typeVariable ⟨6⟩ ⟨20⟩) ∧
      knotted.shape? ⟨20⟩ = some (.declared .none ⟨2⟩ [⟨17⟩]) ∧
      knotted.Founded ∧ (∀ last, knotted.typeTextStep^[21] last ⟨20⟩ = "lang.Node<A>") ∧
      ∀ last, ((substituteStep ⟨[⟨5⟩], [⟨14⟩]⟩)^[21] last ⟨20⟩ knotted).1 = ⟨22⟩ := by
  obtain ⟨founded, ends⟩ := types_are_founded reachable_knotted
  have known : knotted.HasType ⟨20⟩ := show 20 < knotted.types.size by decide +kernel
  obtain ⟨_, text, substitution⟩ := ends ⟨20⟩ known
  refine ⟨by decide +kernel, by decide +kernel, by decide +kernel, by decide +kernel, founded, fun last => ?_, fun last => ?_⟩
  · rw [text 21 last (by decide)]
    decide +kernel
  · have ended := substitution ⟨[⟨5⟩], [⟨14⟩]⟩ 21 last (by decide)
    rw [if_neg (by simp)] at ended
    rw [ended]
    decide +kernel

end sample

end Nominal
