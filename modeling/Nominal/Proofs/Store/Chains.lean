import Mathlib.Data.Fintype.Card
import Mathlib.Data.Set.Finite.Basic
import Nominal.Proofs.Store.Wording
/-!
Chains of bounds: from a type parameter to one whose variable it has for a bound, and on from there. As type
parameters are written they are bounded by others of their list or by what is around them, which is older. So where
no list that is written has a chain that comes back to its beginning, every chain in the store comes to an end.
-/

namespace Nominal

open Store Completion

def LeansOn (ps : List TypeParameterDecl) (p q : TypeParameterDecl) : Prop :=
  p ∈ ps ∧ ∃ x, .var x ∈ p.bounds ∧ ps.reverse.find? (·.name == x) = some q

def MemberDecl.typeParameters : MemberDecl → List TypeParameterDecl
  | .method d | .constructor d => d.typeParameters
  | _ => []

def TypeHeader.parameterLists (h : TypeHeader) : List (List TypeParameterDecl) :=
  h.typeParameters :: h.members.map (·.typeParameters)

def TypeHeader.ChainsEnd (h : TypeHeader) : Prop :=
  ∀ ps ∈ h.parameterLists, WellFounded (Function.swap (LeansOn ps))

theorem wellFounded_of_acyclic {α : Type} {r : α → α → Prop} {sources : Set α} (finite : sources.Finite)
    (starts : ∀ a b, r a b → a ∈ sources) (acyclic : ∀ a, ¬ Relation.TransGen r a a) :
    WellFounded (Function.swap r) := by
  have : Finite sources := finite
  let before (a b : sources) : Prop := Relation.TransGen r b a
  have : IsTrans sources before := ⟨fun _ _ _ first second => second.trans first⟩
  have : Std.Irrefl before := ⟨fun a => acyclic a⟩
  have outside (a : α) (none : a ∉ sources) : Acc (Function.swap r) a :=
    .intro _ fun b step => absurd (starts a b step) none
  have source (a : sources) : Acc (Function.swap r) a := by
    induction a using (Finite.wellFounded_of_trans_of_irrefl before).induction with
    | _ a ih =>
      refine .intro _ fun b step => ?_
      by_cases more : b ∈ sources
      · exact ih ⟨b, more⟩ (.single step)
      · exact outside b more
  refine ⟨fun a => ?_⟩
  by_cases more : a ∈ sources
  · exact source ⟨a, more⟩
  · exact outside a more

namespace Store

def LeansOn (s : Store) (e e' : ElementId) : Prop := ∃ r, s.record? e = some r ∧ ∃ b ∈ r.bounds, s.IsVariable e' b

/-- No chain of bounds comes back to its beginning: neither between type parameters that are complete nor in what is
declared of the types that are not. -/
structure BoundsAcyclic (s : Store) : Prop where
  known : ∀ e, ¬ Relation.TransGen s.LeansOn e e
  declared : ∀ e slot h, s.slot? e = some slot → slot.state = .pending (.type h) →
    ∀ ps ∈ h.parameterLists, ∀ p, ¬ Relation.TransGen (Nominal.LeansOn ps) p p

structure ChainsEnd (s : Store) : Prop where
  known : WellFounded (Function.swap s.LeansOn)
  declared : ∀ e slot h, s.slot? e = some slot → slot.state = .pending (.type h) → h.ChainsEnd

variable {s s' : Store} {e e' : ElementId} {t : TypeId}

theorem BoundsAcyclic.chainsEnd (acyclic : s.BoundsAcyclic) : s.ChainsEnd where
  known := by
    have finite : {e | s.HasElement e}.Finite := by
      refine (Set.finite_lt_nat s.elements.size).preimage (f := ElementId.index) ?_
      rintro ⟨_⟩ _ ⟨_⟩ _ rfl
      rfl
    refine wellFounded_of_acyclic finite ?_ acyclic.known
    rintro e _ ⟨r, complete, _⟩
    obtain ⟨slot, found, _⟩ := record?_eq_some_iff.mp complete
    exact has_element_iff.mpr ⟨slot, found⟩
  declared e slot h found state ps mem :=
    wellFounded_of_acyclic ps.finite_toSet (fun _ _ step => step.1) (acyclic.declared e slot h found state ps mem)

theorem ChainsEnd.mono (ends : s.ChainsEnd) (leans : ∀ e e', s'.LeansOn e e' → s.LeansOn e e')
    (waits : ∀ e slot h, s'.slot? e = some slot → slot.state = .pending (.type h) →
      ∃ slot', s.slot? e = some slot' ∧ slot'.state = .pending (.type h)) : s'.ChainsEnd where
  known := Subrelation.wf (fun {e e'} => leans e' e) ends.known
  declared e _ h found state := by
    obtain ⟨slot', found', state'⟩ := waits e _ h found state
    exact ends.declared e slot' h found' state'

theorem IsVariable.unique (first : s.IsVariable e t) (second : s.IsVariable e' t) : e = e' := by
  obtain ⟨_, shape⟩ := first
  obtain ⟨_, shape'⟩ := second
  cases shape.symm.trans shape'
  rfl

def Written (s : Store) (vs : List (String × TypeId)) (as : List TypeExpr) (bounds : List TypeId) : Prop :=
  ∀ b ∈ bounds, ∀ e, s.IsVariable e b → ∃ x, .var x ∈ as ∧ inSight? vs x = some b

section block

variable {ps : List TypeParameterDecl} {xs : List (ElementId × TypeId)} {outer : List (String × TypeId)}

theorem variablesOf_inSight (lengths : ps.length = xs.length) {x : String}
    (found : inSight? (variablesOf ps xs).reverse x = some t) :
    ∃ c ∈ ps.zip xs, ps.reverse.find? (·.name == x) = some c.1 ∧ c.2.2 = t := by
  have firsts : (ps.zip xs).map (·.1) = ps := List.map_fst_zip (Nat.le_of_eq lengths)
  have listed : variablesOf ps xs = (ps.zip xs).map fun c => (c.1.name, c.2.2) := by
    rw [variablesOf, List.zip, List.map_zipWith]
  rw [inSight?, listed, ← List.map_reverse, List.find?_map, Option.map_map] at found
  obtain ⟨c, first, rfl⟩ := Option.map_eq_some_iff.mp found
  refine ⟨c, List.mem_reverse.mp (List.mem_of_find?_eq_some first), ?_, rfl⟩
  conv_lhs => rw [← firsts, ← List.map_reverse, List.find?_map]
  exact Option.map_eq_some_iff.mpr ⟨c, first, rfl⟩

structure Enters (s : Store) (ps : List TypeParameterDecl) (xs : List (ElementId × TypeId))
    (outer : List (String × TypeId)) (s' : Store) : Prop where
  lengths : ps.length = xs.length
  stand : ∀ x ∈ xs, s'.IsVariable x.1 x.2
  there : ∀ e, s'.HasElement e → s.HasElement e ∨ e ∈ xs.map (·.1)
  kept : ∀ e, s.HasElement e → s'.slot? e = s.slot? e
  old : ∀ e r, s.record? e = some r → ∀ b ∈ r.bounds, ∀ e', s'.IsVariable e' b → s.IsVariable e' b ∧ s.HasElement e'
  around : ∀ v ∈ outer, ∀ e, s'.IsVariable e v.2 → s.HasElement e
  written : ∀ c ∈ ps.zip xs, ∀ r, s'.record? c.2.1 = some r →
    s'.Written ((variablesOf ps xs).reverse ++ outer) c.1.bounds r.bounds
  waits : ∀ x ∈ xs, ∀ slot h, s'.slot? x.1 = some slot → slot.state ≠ .pending (.type h)

namespace Enters

variable (enters : s.Enters ps xs outer s')

include enters

theorem leans_old (there : s.HasElement e) (leans : s'.LeansOn e e') : s.LeansOn e e' ∧ s.HasElement e' := by
  obtain ⟨r, complete, b, mem, stands⟩ := leans
  rw [record?, enters.kept e there] at complete
  obtain ⟨stands', there'⟩ := enters.old e r complete b mem e' stands
  exact ⟨⟨r, complete, b, mem, stands'⟩, there'⟩

theorem leans_new {c : TypeParameterDecl × ElementId × TypeId} (mem : c ∈ ps.zip xs) (leans : s'.LeansOn c.2.1 e') :
    s.HasElement e' ∨ ∃ c' ∈ ps.zip xs, Nominal.LeansOn ps c.1 c'.1 ∧ c'.2.1 = e' := by
  obtain ⟨r, complete, b, bound, stands⟩ := leans
  obtain ⟨x, named, found⟩ := enters.written c mem r complete b bound e' stands
  rw [inSight?_append, Option.or_eq_some_iff] at found
  rcases found with inside | ⟨-, outside⟩
  · obtain ⟨c', mem', last, rfl⟩ := variablesOf_inSight enters.lengths inside
    refine .inr ⟨c', mem', ⟨(List.of_mem_zip mem).1, x, named, last⟩, ?_⟩
    exact (enters.stand c'.2 (List.of_mem_zip mem').2).unique stands
  · exact .inl (enters.around _ (mem_of_inSight? outside) e' stands)

theorem old_ends (ends : s.ChainsEnd) (there : s.HasElement e) : Acc (Function.swap s'.LeansOn) e := by
  induction e using ends.known.induction with
  | _ e ih =>
    refine .intro _ fun e' leans => ?_
    obtain ⟨leans', there'⟩ := enters.leans_old there leans
    exact ih e' leans' there'

theorem new_ends (ends : s.ChainsEnd) (list : WellFounded (Function.swap (Nominal.LeansOn ps))) {p : TypeParameterDecl}
    {x : ElementId × TypeId} (mem : (p, x) ∈ ps.zip xs) : Acc (Function.swap s'.LeansOn) x.1 := by
  induction p using list.induction generalizing x with
  | _ p ih =>
    refine .intro _ fun e' leans => ?_
    rcases enters.leans_new mem leans with there | ⟨c', mem', on, rfl⟩
    · exact enters.old_ends ends there
    · exact ih c'.1 on mem'

theorem chainsEnd (ends : s.ChainsEnd) (list : WellFounded (Function.swap (Nominal.LeansOn ps))) : s'.ChainsEnd where
  known := by
    refine ⟨fun e => ?_⟩
    by_cases there : s'.HasElement e
    · rcases enters.there e there with before | entered
      · exact enters.old_ends ends before
      · obtain ⟨x, mem, rfl⟩ := List.mem_map.mp entered
        have seconds : (ps.zip xs).map (·.2) = xs := List.map_snd_zip (Nat.le_of_eq enters.lengths.symm)
        rw [← seconds] at mem
        obtain ⟨c, paired, rfl⟩ := List.mem_map.mp mem
        exact enters.new_ends ends list paired
    · refine .intro _ fun e' leans => ?_
      obtain ⟨r, complete, _⟩ := leans
      obtain ⟨slot, found, _⟩ := record?_eq_some_iff.mp complete
      exact absurd (has_element_iff.mpr ⟨slot, found⟩) there
  declared e slot h found state := by
    have there : s'.HasElement e := has_element_iff.mpr ⟨slot, found⟩
    rcases enters.there e there with before | entered
    · rw [enters.kept e before] at found
      exact ends.declared e slot h found state
    · obtain ⟨x, mem, rfl⟩ := List.mem_map.mp entered
      exact absurd state (enters.waits x mem slot h found)

end Enters

end block

end Store

end Nominal
