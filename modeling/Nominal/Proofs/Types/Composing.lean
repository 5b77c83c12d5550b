import Nominal.Proofs.Types.Founded
import Nominal.Proofs.Types.Instantiating
/-!
One substitution after the other. Variables are replaced all at once, so the two are the one that puts in the places
of the first parameters what the second substitution makes of their arguments, as long as the second finds no
variable that the first left alone.
-/

namespace Nominal

open Store StoreM

namespace TypeTree

/-- What is put in the places of variables is substituted in before, or with everything else afterwards. -/
theorem substitute_substitute {parameters parameters' : List ElementId} {args args' : List TypeTree} {t : TypeTree}
    (length : args.length = parameters.length) (apart : ∀ p ∈ t.mentions, p ∈ parameters ∨ p ∉ parameters') :
    (t.substitute (binding parameters args)).substitute (binding parameters' args') =
      t.substitute (binding parameters (args.map (.substitute (binding parameters' args')))) := by
  refine (substitute_comp t fun p mem => ?_).symm
  rw [binding_map]
  cases bound : binding parameters args p with
  | some u => rfl
  | none =>
    have left : p ∉ parameters' := (apart p mem).resolve_left (mem_of_unbound length bound)
    rw [Option.map_none, Option.getD_none, substitute, binding_none left, Option.getD_none]

end TypeTree

namespace StoreM

variable {s : Store} {i : Instantiation} {ts : List TypeId}

theorem substituteAll_ensures (h : s.Sound) (types : i.Known s) (known : ∀ t ∈ ts, s.HasType t) :
    Ensures Advances s (ts.mapM (substitute i)) fun us s' =>
      s'.Made (fun t => (s.tree t).substitute (s.binding i)) ts us := by
  refine Made.ensures h fun t mem s' move => ?_
  rw [← move.tree (known t mem), ← move.binding types]
  have types' : i.Known s' := fun u there => move.moves.grows.has_type (types u there)
  exact substitute_ensures move.sound types' (move.moves.grows.has_type (known t mem))

end StoreM

/-- Two substitutions, one after the other, make the same type as the one in whose arguments the second was done
before. Only variables in whose places something might be put count: what encloses a usage is left alone. -/
theorem substitution_composes {s s₁ s₂ s₃ s₄ : Store} {t t₁ t₂ t₃ : TypeId} {i j : Instantiation} {args : List TypeId}
    (reachable : s.Reachable) (known : s.HasType t) (types : i.Known s) (types' : j.Known s)
    (length : i.types.length = i.parameters.length)
    (apart : ∀ p ∈ (s.tree t).mentions, p ∈ i.parameters ∨ p ∉ j.parameters)
    (first : (substitute i t).run s = (t₁, s₁)) (second : (substitute j t₁).run s₁ = (t₂, s₂))
    (each : (i.types.mapM (substitute j)).run s₂ = (args, s₃))
    (atOnce : (substitute ⟨i.parameters, args⟩ t).run s₃ = (t₃, s₄)) :
    s₄.sameType t₂ t₃ ∧ s₄.sameType t₃ t₂ := by
  obtain ⟨move₁, known₁, tree₁⟩ := (substitute_ensures reachable.sound types known).result first
  have types₁ : j.Known s₁ := fun u mem => move₁.moves.grows.has_type (types' u mem)
  obtain ⟨move₂, known₂, tree₂⟩ := (substitute_ensures move₁.sound types₁ known₁).result second
  have from₂ := Movement.trans move₁ move₂
  have types₂ : j.Known s₂ := fun u mem => from₂.moves.grows.has_type (types' u mem)
  have there (u : TypeId) (mem : u ∈ i.types) : s₂.HasType u := from₂.moves.grows.has_type (types u mem)
  obtain ⟨move₃, made⟩ := (substituteAll_ensures move₂.sound types₂ there).result each
  have from₃ := Movement.trans from₂ move₃
  obtain ⟨move₄, known₄, tree₄⟩ :=
    (substitute_ensures (i := ⟨i.parameters, args⟩) move₃.sound made.known (from₃.moves.grows.has_type known)).result
      atOnce
  have args' : args.map s₃.tree = (i.types.map s.tree).map (.substitute (s.binding j)) := by
    rw [made.map_tree, from₂.binding types', List.map_map]
    exact List.map_congr_left fun u mem => congrArg (TypeTree.substitute _) (from₂.tree (types u mem))
  have together : s₄.tree t₂ = s₄.tree t₃ := by
    rw [(Movement.trans move₃ move₄).tree known₂, tree₂, tree₁, move₁.binding types', tree₄, from₃.tree known]
    simp only [Store.binding, args']
    exact TypeTree.substitute_substitute (by simpa using length) apart
  exact ⟨move₄.sound.same_of_tree together, move₄.sound.same_of_tree together.symm⟩

section sample

namespace Store

@[irreducible] def exchanged : Store := ((substitute ⟨[⟨5⟩, ⟨6⟩], [⟨18⟩, ⟨20⟩]⟩ ⟨21⟩).run knotted).2

@[irreducible] def topped : Store := ((substitute ⟨[⟨5⟩], [⟨16⟩]⟩ ⟨22⟩).run exchanged).2

end Store

/-- The usage that was put in has the top type, whether it was put in before or after that. -/
theorem substitution_composes_in_pair : ∃ s₃ s₄,
    ([⟨18⟩, ⟨20⟩].mapM (substitute ⟨[⟨5⟩], [⟨16⟩]⟩)).run topped = ([⟨18⟩, ⟨25⟩], s₃) ∧
      (substitute ⟨[⟨5⟩, ⟨6⟩], [⟨18⟩, ⟨25⟩]⟩ ⟨21⟩).run s₃ = (⟨26⟩, s₄) ∧ s₄.sameType ⟨24⟩ ⟨26⟩ := by
  have there {n : Nat} (small : n ≤ 21) : knotted.HasType ⟨n⟩ :=
    Nat.lt_of_le_of_lt small (show 21 < knotted.types.size by decide +kernel)
  have first : (substitute ⟨[⟨5⟩, ⟨6⟩], [⟨18⟩, ⟨20⟩]⟩ ⟨21⟩).run knotted = (⟨22⟩, exchanged) := by
    unfold exchanged
    exact leaves (by decide +kernel)
  have second : (substitute ⟨[⟨5⟩], [⟨16⟩]⟩ ⟨22⟩).run exchanged = (⟨24⟩, topped) := by
    unfold topped
    exact leaves (by decide +kernel)
  obtain ⟨s₃, each, is⟩ : ∃ s₃, ([⟨18⟩, ⟨20⟩].mapM (substitute ⟨[⟨5⟩], [⟨16⟩]⟩)).run topped = ([⟨18⟩, ⟨25⟩], s₃) ∧
      s₃ = (([⟨18⟩, ⟨20⟩].mapM (substitute ⟨[⟨5⟩], [⟨16⟩]⟩)).run topped).2 := ⟨_, leaves (by decide +kernel), rfl⟩
  obtain ⟨s₄, atOnce⟩ : ∃ s₄, (substitute ⟨[⟨5⟩, ⟨6⟩], [⟨18⟩, ⟨25⟩]⟩ ⟨21⟩).run s₃ = (⟨26⟩, s₄) := by
    rw [is]
    exact ⟨_, leaves (by decide +kernel)⟩
  have types : Instantiation.Known ⟨[⟨5⟩, ⟨6⟩], [⟨18⟩, ⟨20⟩]⟩ knotted := by
    simpa [Instantiation.Known] using ⟨there (n := 18) (by decide), there (n := 20) (by decide)⟩
  have types' : Instantiation.Known ⟨[⟨5⟩], [⟨16⟩]⟩ knotted := by
    simpa [Instantiation.Known] using there (n := 16) (by decide)
  exact ⟨s₃, s₄, each, atOnce, (substitution_composes reachable_knotted (there (by decide)) types types' rfl
    (by decide +kernel) first second each atOnce).1⟩

end sample

end Nominal
