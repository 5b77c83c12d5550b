import Nominal.Proofs.Order.Reference
import Nominal.Proofs.Order.Renaming
/-!
What is complete in a store, explained by the store to compare with: its handles stand for handles there, and what
is complete says the same there of the handles that they stand for.
-/

namespace Nominal

open Completion

namespace Store

variable {s₀ : Store}

namespace Reference

variable (R : Reference s₀ s₀.HasElement)

def Adds (e a : ElementId) : Prop := ¬ (R.before e).HasElement a ∧ (R.after e).HasElement a

def AddsType (e : ElementId) (t : TypeId) : Prop := ¬ (R.before e).HasType t ∧ (R.after e).HasType t

/-- Under the renaming, all that is complete in `s` is what it is in the store to compare with. What was not there
came into being with the completion of something that is complete. -/
structure Explains (π : Renaming) (s : Store) : Prop where
  under : s₀.Underlies s
  once : π.OneToOne
  entered : ∀ e, s₀.HasElement e → π.element e e
  initial : ∀ t, s₀.HasType t → π.type t t
  record : ∀ {a b q}, π.element a b → s.record? a = some q →
    ∃ q', R.store.record? b = some q' ∧ π.Outline q q' ∧ (¬ s₀.isComplete a → π.Record q q')
  complete : ∀ {a b}, π.element a b → ¬ s₀.isPending a → s.isComplete a
  shape : ∀ {t u}, π.type t u →
    ∃ shape shape', s.shape? t = some shape ∧ R.store.shape? u = some shape' ∧ π.Shape shape shape'
  origin : ∀ {a b}, π.element a b → s₀.HasElement a ∨ ∃ e, s₀.HasElement e ∧ s.isComplete e ∧ R.Adds e b
  typeOrigin : ∀ {t u}, π.type t u →
    s₀.HasType t ∨ R.store.objectUsage = some u ∨ ∃ e, s₀.HasElement e ∧ s.isComplete e ∧ R.AddsType e u
  object : ∀ t, s.objectUsage = some t → ∃ u, R.store.objectUsage = some u ∧ π.type t u
  spare : s.objectUsage = none → ∀ {t u}, R.store.objectUsage = some u → ¬ π.type t u

structure Learns (π : Renaming) (s : Store) (π' : Renaming) (s' : Store) : Prop where
  le : π ≤ π'
  explains : R.Explains π' s'
  element : ∀ {a b}, π'.element a b → π.element a b ∨ ¬ s.HasElement a
  type : ∀ {t u}, π'.type t u → π.type t u ∨ ¬ s.HasType t

end Reference

section usage

variable {s : Store} {t : TypeId}

theorem Steady.object (steady : s₀.Steady s) (fits : s₀.Consistent) (usage : s.objectUsage = some t) :
    ∃ e, s₀.objectElement? = some e ∧ s₀.HasElement e ∧ s.shape? t = some (.declared .none e []) := by
  obtain ⟨e, named, shape⟩ := steady.consistent.object t usage
  rw [objectElement?, typeElement?, steady.underlies.typeElements] at named
  obtain ⟨slot, found, _⟩ := (fits.typeElements objectName e).mp named
  exact ⟨e, named, has_element_iff.mpr ⟨slot, found⟩, shape⟩

end usage

open Reference

section explains

variable {R : Reference s₀ s₀.HasElement} {π : Renaming} {s s' : Store} {a b e : ElementId} {t u : TypeId}

theorem isComplete_iff_record : s.isComplete e ↔ ∃ q, s.record? e = some q := Option.isSome_iff_exists

theorem there_of_record {q : ElementRecord} (complete : s.record? e = some q) : s.HasElement e := by
  obtain ⟨slot, found, _⟩ := record?_eq_some_iff.mp complete
  exact has_element_iff.mpr ⟨slot, found⟩

theorem there_of_waiting (waits : s.isPending e) : s.HasElement e := by
  obtain ⟨slot, found, _⟩ := (Option.any_eq_true _ _).mp waits
  exact has_element_iff.mpr ⟨slot, found⟩

theorem Reference.Explains.there (ex : R.Explains π s) (same : π.element a b) : s.HasElement a := by
  by_cases entered : s₀.HasElement a
  · exact ex.under.there entered
  · have settled : ¬ s₀.isPending a := fun waits => entered (there_of_waiting waits)
    obtain ⟨q, complete⟩ := isComplete_iff_record.mp (ex.complete same settled)
    exact there_of_record complete

theorem Reference.Explains.type_there (ex : R.Explains π s) (same : π.type t u) : s.HasType t := by
  obtain ⟨shape, _, found, _⟩ := ex.shape same
  exact has_type_iff.mpr ⟨shape, found⟩

theorem Reference.Explains.entered_eq (ex : R.Explains π s) (same : π.element a b) (entered : s₀.HasElement a) :
    b = a := ((ex.once.element (ex.entered a entered) same).mp rfl).symm

theorem Reference.Explains.entered_eq' (ex : R.Explains π s) (same : π.element a b) (entered : s₀.HasElement b) :
    a = b := ((ex.once.element (ex.entered b entered) same).mpr rfl).symm

theorem Reference.Explains.restate (ex : R.Explains π s) (under : s₀.Underlies s')
    (records : ∀ a b, π.element a b → s'.record? a = s.record? a)
    (shapes : ∀ t u, π.type t u → s'.shape? t = s.shape? t) (usage : s'.objectUsage = s.objectUsage) :
    R.Explains π s' where
  under := under
  once := ex.once
  entered := ex.entered
  initial := ex.initial
  record same complete := ex.record same (by rw [← records _ _ same, complete])
  complete same new := by
    rw [isComplete, records _ _ same]
    exact ex.complete same new
  shape same := by
    rw [shapes _ _ same]
    exact ex.shape same
  origin same := by
    refine (ex.origin same).imp_right fun ⟨e, entered, complete, adds⟩ => ⟨e, entered, ?_, adds⟩
    rw [isComplete, records e e (ex.entered e entered)]
    exact complete
  typeOrigin same := by
    refine (ex.typeOrigin same).imp_right (Or.imp_right fun ⟨e, entered, complete, adds⟩ => ⟨e, entered, ?_, adds⟩)
    rw [isComplete, records e e (ex.entered e entered)]
    exact complete
  object t found := ex.object t (by rw [← usage, found])
  spare unused := ex.spare (by rw [← usage, unused])

theorem Reference.Explains.learns (ex : R.Explains π s) : R.Learns π s π s := ⟨⟨id, id⟩, ex, .inl, .inl⟩

theorem Reference.Explains.objectType (ex : R.Explains π s) (poised : s₀.Poised) :
    ∃ π', R.Learns π s π' (StoreM.objectType s).2 ∧
      ((∃ u, R.store.objectUsage = some u ∧ π'.type (StoreM.objectType s).1 u) ∨
        R.store.objectUsage = none ∧ (StoreM.objectType s).1 = .none) := by
  cases usage : s.objectUsage with
  | some t =>
    rw [StoreM.objectType_of_usage usage]
    exact ⟨π, ex.learns, .inl (ex.object t usage)⟩
  | none =>
    have fits := poised.sound.toConsistent
    -- The first usage of the top type is made now here, and was made before anything else in the store to compare with.
    have same : s.objectElement? = s₀.objectElement? := by
      rw [objectElement?, typeElement?, ex.under.typeElements]
      rfl
    cases named : s₀.objectElement? with
    | none =>
      rw [StoreM.objectType_of_absent usage (same.trans named)]
      refine ⟨π, ex.learns, .inr ⟨?_, rfl⟩⟩
      cases usage' : R.store.objectUsage with
      | none => rfl
      | some u =>
        obtain ⟨e, named', _⟩ := R.steady.object fits usage'
        cases named.symm.trans named'
    | some e =>
      rw [StoreM.objectType_of_first usage (same.trans named)]
      obtain ⟨u, usage'⟩ := Option.isSome_iff_exists.mp (R.steady.usage.resolve_right (by simp [named]))
      obtain ⟨e', named', entered, shape'⟩ := R.steady.object fits usage'
      cases named.symm.trans named'
      let t : TypeId := ⟨s.types.size⟩
      let s' : Store := { s.pushType (.declared .none e []) with objectUsage := some t }
      let π' : Renaming := { π with type := fun t' u' => π.type t' u' ∨ t' = t ∧ u' = u }
      have le : π ≤ π' := ⟨id, .inl⟩
      have new {t' u' : TypeId} (same : π.type t' u') : t' ≠ t := fun here =>
        absurd (here ▸ ex.type_there same) (Nat.lt_irrefl _)
      have apart {t' u' : TypeId} (same : π.type t' u') : u' ≠ u := fun here => ex.spare usage usage' (here ▸ same)
      have shape {t' : TypeId} (other : t' ≠ t) : s'.shape? t' = s.shape? t' := by
        refine (shape?_push _).trans (if_neg fun same => other ?_)
        exact congrArg TypeId.mk same
      refine ⟨π', ⟨le, ?_, .inl, fun same => same.imp_right fun here => ?_⟩, .inl ⟨u, usage', .inr ⟨rfl, rfl⟩⟩⟩
      · exact
          { under := ⟨ex.under.slots, fun t' shape₀ found => by
                have old := ex.under.types t' shape₀ found
                rw [shape (new (ex.initial t' (has_type_iff.mpr ⟨_, found⟩))), old], ex.under.typeElements⟩
            once := by
              refine ⟨ex.once.element, ?_⟩
              rintro t₁ u₁ t₂ u₂ (first | ⟨rfl, rfl⟩) (second | ⟨rfl, rfl⟩)
              · exact ex.once.type first second
              · exact iff_of_false (new first) (apart first)
              · exact iff_of_false (new second).symm (apart second).symm
              · exact iff_of_true rfl rfl
            entered := ex.entered
            initial := fun t there => .inl (ex.initial t there)
            record := fun same complete => by
              obtain ⟨q', complete', like, alike⟩ := ex.record same complete
              exact ⟨q', complete', like.mono le, fun new => (alike new).mono le⟩
            complete := ex.complete
            shape := by
              rintro t' u' (same | ⟨rfl, rfl⟩)
              · obtain ⟨shape₁, shape₂, found, found', like⟩ := ex.shape same
                exact ⟨shape₁, shape₂, (shape (new same)).trans found, found', like.mono le⟩
              · refine ⟨_, _, (shape?_push _).trans (if_pos rfl), shape', ?_⟩
                exact .declared (.inl (ex.initial _ fits.has_none)) (ex.entered e entered) .nil
            origin := ex.origin
            typeOrigin := by
              rintro t' u' (same | ⟨rfl, rfl⟩)
              · exact ex.typeOrigin same
              · exact .inr (.inl usage')
            object := by
              rintro _ ⟨⟩
              exact ⟨u, usage', .inr ⟨rfl, rfl⟩⟩
            spare := by simp }
      · rw [here.1]
        exact Nat.lt_irrefl _

end explains

end Store

end Nominal
