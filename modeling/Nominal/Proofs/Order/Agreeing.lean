import Nominal.Proofs.Order.Serving
import Nominal.Proofs.Store.Declared
/-!
The order in which what was entered is completed does not show, as long as no two types need each other for their
completion. Each order leaves a store that the store to compare with explains, so any two of them agree up to a
renaming of handles. Where two types need each other, the order does show.
-/

namespace Nominal

open Completion Store

namespace StoreM

/-- Asks for one element after the other, whatever it answers. -/
def completeEach (es : List ElementId) : StoreM Unit := es.forM fun e => discard (complete e)

theorem completeEach_cons (e : ElementId) (es : List ElementId) (s : Store) :
    completeEach (e :: es) s = completeEach es (complete e s).2 := rfl

theorem mapM_store {α β : Type} (f : α → StoreM β) (as : List α) (s : Store) :
    (as.mapM f s).2 = ((as.forM fun a => discard (f a)) s).2 := by
  induction as generalizing s with
  | nil => rfl
  | cons a as ih =>
    rw [List.mapM_cons]
    exact ih (f a s).2

theorem completeAll_store (s : Store) : (completeAll s).2 = (completeEach s.typeElements.elements s).2 :=
  mapM_store complete _ s

end StoreM

namespace Store

variable {s₀ s s' : Store} {e : ElementId} {es es' : List ElementId} {π : Renaming}

/-- Every store that requests lead to can be completed further. -/
theorem Reachable.poised (reachable : s.Reachable) : s.Poised where
  sound := reachable.sound
  around := (reachable.houses sound_empty).housed fun e slot o found => by simp [slot?, Store.empty] at found
  turn _ _ := reachable.not_overtakes

section start

def identity (s₀ : Store) : Renaming where
  element a b := a = b ∧ s₀.HasElement a
  type t u := t = u ∧ s₀.HasType t

variable {t : TypeId} {shape : TypeShape} {q : ElementRecord}

theorem identity_types {ts : List TypeId} (there : ∀ t ∈ ts, s₀.HasType t) : List.Forall₂ s₀.identity.type ts ts :=
  List.forall₂_same.mpr fun t mem => ⟨rfl, there t mem⟩

theorem identity_elements {es : List ElementId} (there : ∀ e ∈ es, s₀.HasElement e) :
    List.Forall₂ s₀.identity.element es es :=
  List.forall₂_same.mpr fun e mem => ⟨rfl, there e mem⟩

theorem Consistent.shape_itself (h : s₀.Consistent) (found : s₀.shape? t = some shape) :
    s₀.identity.Shape shape shape := by
  have fits := h.shapes t shape found
  have part {p : TypeId} (mem : p ∈ shape.parts) : s₀.HasType p := fits.part_known (has_type_iff.mpr ⟨shape, found⟩) mem
  cases shape with
  | primitive p => exact .primitive p
  | noType n => exact .noType n
  | null => exact .null
  | error name => exact .error name
  | array c => exact .array ⟨rfl, part (by simp [TypeShape.parts])⟩
  | declared o e ts =>
    have isType := (fits.declared o e ts rfl).1
    exact .declared ⟨rfl, part (by simp [TypeShape.parts])⟩ ⟨rfl, isType.there⟩
      (identity_types fun u mem => part (by simp [TypeShape.parts, mem]))
  | typeVariable e upper =>
    obtain ⟨kind, bound, _⟩ := fits.typeVariable e upper rfl
    obtain ⟨slot, found', _⟩ := kind?_eq_some_iff.mp kind
    exact .typeVariable ⟨rfl, has_element_iff.mpr ⟨slot, found'⟩⟩ ⟨rfl, bound⟩
  | wildcard u l =>
    have option {t? : Option TypeId} (there : ∀ p ∈ t?, s₀.HasType p) : Option.Rel s₀.identity.type t? t? := by
      cases t? with
      | none => exact .none
      | some p => exact .some ⟨rfl, there p rfl⟩
    exact .wildcard (option fun p mem => part (by simp_all [TypeShape.parts]))
      (option fun p mem => part (by simp_all [TypeShape.parts]))
  | executable sig =>
    exact .executable
      { typeVariables := identity_types fun u mem => part (by simp [TypeShape.parts, mem])
        receiver := ⟨rfl, part (by simp [TypeShape.parts])⟩
        parameters := identity_types fun u mem => part (by simp [TypeShape.parts, mem])
        result := ⟨rfl, part (by simp [TypeShape.parts])⟩
        thrown := identity_types fun u mem => part (by simp [TypeShape.parts, mem]) }
  | union ts => exact .union (identity_types fun u mem => part mem)
  | intersection ts => exact .intersection (identity_types fun u mem => part mem)

theorem Poised.outline_itself (poised : s₀.Poised) {e : ElementId} (complete : s₀.record? e = some q) :
    s₀.identity.Outline q q := by
  obtain ⟨slot, found, fits⟩ := poised.sound.fits complete
  refine
    { kind := rfl
      simpleName := rfl
      enclosing := ?_
      enclosed := identity_elements (enclosed_there poised.sound.toConsistent complete)
      modifiers := rfl
      asType := ⟨rfl, fits.asType⟩
      typeParameters := identity_elements fun p mem => ?_
      superclass := ⟨rfl, fits.superclass⟩
      interfaces := identity_types fits.interfaces }
  · rw [fits.enclosing]
    cases around : slot.enclosing with
    | none => exact .none
    | some o => exact .some ⟨rfl, poised.around e slot o found around⟩
  · rw [fits.typeParameters] at mem
    obtain ⟨slot', found', _⟩ := mem_ownedOf.mp mem
    exact has_element_iff.mpr ⟨slot', found'⟩

theorem Poised.explains (poised : s₀.Poised) (R : Reference s₀ s₀.HasElement) : R.Explains s₀.identity s₀ where
  under := .refl s₀
  once := ⟨by rintro a _ a' _ ⟨rfl, _⟩ ⟨rfl, _⟩; rfl, by rintro t _ t' _ ⟨rfl, _⟩ ⟨rfl, _⟩; rfl⟩
  entered e there := ⟨rfl, there⟩
  initial t there := ⟨rfl, there⟩
  record := by
    rintro a _ q ⟨rfl, _⟩ complete
    refine ⟨q, R.steady.endures.records a q complete, poised.outline_itself complete, fun incomplete => ?_⟩
    exact absurd (isComplete_iff_record.mpr ⟨q, complete⟩) incomplete
  complete := by
    rintro a _ ⟨rfl, there⟩ settled
    obtain ⟨slot, found⟩ := has_element_iff.mp there
    rw [isPending_of_slot found, Bool.not_eq_true] at settled
    rw [isComplete_of_settled found (poised.closed found), settled, Bool.not_false]
  shape := by
    rintro t _ ⟨rfl, there⟩
    obtain ⟨shape, found⟩ := has_type_iff.mp there
    exact ⟨shape, shape, found, R.steady.underlies.types t shape found, poised.sound.toConsistent.shape_itself found⟩
  origin := by
    rintro a _ ⟨rfl, there⟩
    exact .inl there
  typeOrigin := by
    rintro t _ ⟨rfl, there⟩
    exact .inl there
  object t usage := by
    obtain ⟨_, _, shape⟩ := poised.sound.object t usage
    exact ⟨t, R.steady.reuses t usage, rfl, has_type_iff.mpr ⟨_, shape⟩⟩
  spare := by
    rintro unused t _ usage ⟨rfl, there⟩
    exact R.steady.spare unused t usage there

end start

section run

variable {R : Reference s₀ s₀.HasElement}

theorem Reference.Explains.complete_any (poised : s₀.Poised) (untangled : s₀.Untangled) (ex : R.Explains π s)
    (accounts : s₀.Accounts s) (closed : ∀ f, ¬ s.Open f) (e : ElementId) :
    ∃ π', R.Explains π' (StoreM.complete e s).2 := by
  by_cases entered : s₀.HasElement e
  · obtain ⟨π', ex', _⟩ := ex.complete_entered poised untangled entered closed
    exact ⟨π', ex'⟩
  · refine ⟨π, ?_⟩
    have idle : (StoreM.complete e s).2 = s := by
      change (stepN s.elements.size e s).2 = s
      rw [stepN_eq_nested]
      cases found : s.slot? e with
      | none =>
        rw [nested, step_of_absent found]
      | some slot =>
        have settled : ¬ slot.isPending := by
          intro waits
          have waited := mem_waiting.mp (accounts.waiting (mem_waiting.mpr (by rw [isPending_of_slot found, waits])))
          exact entered (there_of_waiting waited)
        rw [nested, step_idle _ found settled, recollect_stays]
    rwa [idle]

structure Reference.Covers (R : Reference s₀ s₀.HasElement) (s : Store) : Prop where
  accounts : s₀.Accounts s
  closed : ∀ e, ¬ s.Open e
  explained : ∃ π, R.Explains π s

theorem Poised.covers (poised : s₀.Poised) (R : Reference s₀ s₀.HasElement) : R.Covers s₀ :=
  ⟨.refl s₀, poised.sound.settled, s₀.identity, poised.explains R⟩

theorem Reference.Covers.complete (poised : s₀.Poised) (untangled : s₀.Untangled) (covers : R.Covers s)
    (e : ElementId) : R.Covers (StoreM.complete e s).2 where
  accounts := covers.accounts.trans (StoreM.complete_accounts (covers.accounts.orderly poised.orderly) e)
  closed f isOpen := (((StoreM.complete_settles s e).1.opens f).mp isOpen).elim (covers.closed f) id
  explained := by
    obtain ⟨π, ex⟩ := covers.explained
    exact ex.complete_any poised untangled covers.accounts covers.closed e

theorem Reference.Covers.complete_of_settled (covers : R.Covers s) (there : s.HasElement e)
    (settled : ¬ s.isPending e) : s.isComplete e := by
  obtain ⟨slot, found⟩ := has_element_iff.mp there
  rw [isPending_of_slot found, Bool.not_eq_true] at settled
  rw [isComplete_of_settled found fun state => covers.closed e ⟨slot, found, state⟩, settled, Bool.not_false]

/-- Whatever is asked for, in whatever order, what is left is explained, and whatever was asked for is complete. -/
theorem Reference.Covers.completeEach (poised : s₀.Poised) (untangled : s₀.Untangled) (covers : R.Covers s)
    (es : List ElementId) : R.Covers (StoreM.completeEach es s).2 ∧ s.Accounts (StoreM.completeEach es s).2 ∧
      ∀ e ∈ es, s₀.HasElement e → (StoreM.completeEach es s).2.isComplete e := by
  induction es generalizing s with
  | nil => exact ⟨covers, .refl s, nofun⟩
  | cons e es ih =>
    have moves := StoreM.complete_accounts (covers.accounts.orderly poised.orderly) e
    obtain ⟨covers', moves', done⟩ := ih (covers.complete poised untangled e)
    rw [StoreM.completeEach_cons]
    refine ⟨covers', moves.trans moves', fun e' mem entered => ?_⟩
    rcases List.mem_cons.mp mem with rfl | mem
    · have there := covers.accounts.toFollows.there entered
      have published := (StoreM.complete_settles s e').2 there (covers.closed e')
      obtain ⟨slot, found, state⟩ := record?_eq_some_iff.mp published
      refine covers'.complete_of_settled ((moves.trans moves').toFollows.there there) (moves'.closed ?_)
      rw [isPending_of_slot found, Slot.isPending, state]
      exact Bool.false_ne_true
    · exact done e' mem entered

end run

/-- The stores agree on all that is complete in both, up to a renaming under which what was entered stands for
itself: the records and the shapes of types that stand for each other are the same, and what came into being when
something was completed is complete. -/
structure Agrees (s₀ : Store) (π : Renaming) (s s' : Store) : Prop where
  once : π.OneToOne
  entered : ∀ e, s₀.HasElement e → π.element e e
  records : ∀ a b r r', π.element a b → s.record? a = some r → s'.record? b = some r' → π.Record r r'
  members : ∀ a b, π.element a b → ¬ s₀.HasElement a → s.isComplete a ∧ s'.isComplete b
  shapes : ∀ t u, π.type t u →
    ∃ shape shape', s.shape? t = some shape ∧ s'.shape? u = some shape' ∧ π.Shape shape shape'

theorem Unasked.incomplete (unasked : s.Unasked) (e : ElementId) : ¬ s.isComplete e := by
  rw [isComplete_iff_record]
  rintro ⟨q, complete⟩
  obtain ⟨slot, found, _⟩ := record?_eq_some_iff.mp complete
  cases (record?_of_pending found (unasked.waits e slot found)).symm.trans complete

/-- Two stores that are explained by a third agree, if everything had to be completed. -/
theorem Reference.Explains.agrees {R : Reference s₀ s₀.HasElement} {π ρ : Renaming} (unasked : s₀.Unasked)
    (ex : R.Explains π s) (ex' : R.Explains ρ s') : s₀.Agrees (π.across ρ) s s' where
  once := ex.once.across ex'.once
  entered e there := ⟨e, ex.entered e there, ex'.entered e there⟩
  records := by
    rintro a b r r' ⟨c, same, same'⟩ complete complete'
    obtain ⟨q, found, _, like⟩ := ex.record same complete
    obtain ⟨q', found', _, like'⟩ := ex'.record same' complete'
    cases found.symm.trans found'
    exact (like (unasked.incomplete a)).across (like' (unasked.incomplete b))
  members := by
    rintro a b ⟨c, same, same'⟩ new
    have new' : ¬ s₀.HasElement c := fun there => new (by rwa [ex.entered_eq' same there])
    have new'' : ¬ s₀.HasElement b := fun there => new' (by rwa [ex'.entered_eq same' there])
    exact ⟨ex.complete same fun waits => new (there_of_waiting waits),
      ex'.complete same' fun waits => new'' (there_of_waiting waits)⟩
  shapes := by
    rintro t u ⟨v, same, same'⟩
    obtain ⟨shape, mid, found, known, like⟩ := ex.shape same
    obtain ⟨shape', mid', found', known', like'⟩ := ex'.shape same'
    cases known.symm.trans known'
    exact ⟨shape, shape', found, found', like.across like'⟩

end Store

open Store StoreM in
/-- Where no two types need each other for their completion, it does not show in which order what was entered is
completed, be it one by one as it is asked for or all at once in the order of entry: whatever was asked for is
complete, and all that is complete agrees up to a renaming of handles. -/
theorem completion_order_does_not_show {s₀ s s' : Store} {es es' : List ElementId} (declared : s₀.Declared)
    (untangled : s₀.Untangled) (goes : (completeEach es).run s₀ = ((), s)) (goes' : (completeEach es').run s₀ = ((), s')) :
    (completeAll.run s₀).2 = ((completeEach s₀.typeElements.elements).run s₀).2 ∧
    (∀ e ∈ es, s₀.HasElement e → s.isComplete e) ∧ (∀ e ∈ es', s₀.HasElement e → s'.isComplete e) ∧
    ∃ π, s₀.Agrees π s s' := by
  have poised := declared.reachable.poised
  obtain ⟨R⟩ := poised.has_reference
  have first := (poised.covers R).completeEach poised untangled es
  have second := (poised.covers R).completeEach poised untangled es'
  rw [show completeEach es s₀ = ((), s) from goes] at first
  rw [show completeEach es' s₀ = ((), s') from goes'] at second
  obtain ⟨⟨_, _, π, ex⟩, _, done⟩ := first
  obtain ⟨⟨_, _, ρ, ex'⟩, _, done'⟩ := second
  exact ⟨completeAll_store s₀, done, done', π.across ρ, ex.agrees declared.unasked ex'⟩

section sample

namespace Store

theorem untangled_of_older {s : Store} (older : ∀ e ∈ s.ids, ∀ f ∈ s.needs e, f.index < e.index) : s.Untangled := by
  have never (e f : ElementId) (needs : s.Needs e f) : f.index < e.index := by
    refine older e (mem_ids.mpr ?_) f needs
    cases found : s.slot? e with
    | none => simp [Needs, Store.needs, found] at needs
    | some slot => exact has_element_iff.mpr ⟨slot, found⟩
  have reaches (e f : ElementId) (path : Relation.ReflTransGen s.Needs e f) : e = f ∨ f.index < e.index := by
    induction path with
    | refl => exact .inl rfl
    | tail _ needs ih =>
      rcases ih with rfl | less
      · exact .inr (never _ _ needs)
      · exact .inr ((never _ _ needs).trans less)
  intro e f there back
  rcases reaches e f there with same | less
  · exact same
  · rcases reaches f e back with same | less'
    · exact same.symm
    · exact absurd (less.trans less') (Nat.lt_irrefl _)

def tiedProgram : PackageDecl :=
  { package := "tie"
    types :=
      [.mk { kind := .annotationType, name := "Mark" } [],
        .mk { kind := .enumType, name := "Right", members := [.enumConstant "TWO"] } [],
        .mk { kind := .enumType, name := "Left", members := [.enumConstant "ONE"]
              annotations := [{ type := .named "Mark" [], values := [("value", .enumConstant (.named "Right" []) "TWO")] }] } [],
        .mk { kind := .classType, name := "Outer", typeParameters := [{ name := "T" }] }
          [.mk { kind := .classType, name := "Inner", members := [.field "content" (.var "T") []] } []]] }

@[irreducible] def tied : Store := (Request.run (.enterDeclarations tiedProgram) .empty).2

theorem declared_tied : tied.Declared := by
  unfold tied
  exact .enter (.enterDeclarations tiedProgram) .empty rfl ⟨nofun, nofun⟩

theorem declared_tangled : tangled.Declared := by
  have single (r : Request) : (([r].forM Request.run).run .empty).2 = (r.run .empty).2 := rfl
  unfold tangled
  rw [tangling, single]
  exact .enter (.enterDeclarations tangledProgram) .empty rfl ⟨nofun, nofun⟩

end Store

open Store StoreM in
/-- The inner class first or last. -/
theorem tied_completion_order_does_not_show :
    (∀ e ∈ [⟨3⟩, ⟨5⟩], ((completeEach [⟨3⟩, ⟨5⟩]) tied).2.isComplete e ∧ ((completeEach [⟨5⟩, ⟨3⟩]) tied).2.isComplete e) ∧
      ∃ π, tied.Agrees π ((completeEach [⟨3⟩, ⟨5⟩]) tied).2 ((completeEach [⟨5⟩, ⟨3⟩]) tied).2 := by
  have untangled : tied.Untangled := untangled_of_older (by decide +kernel)
  have goes (es : List ElementId) : (completeEach es).run tied = ((), ((completeEach es) tied).2) :=
    leaves (Subsingleton.elim _ _)
  obtain ⟨_, done, done', agrees⟩ :=
    completion_order_does_not_show declared_tied untangled (goes [⟨3⟩, ⟨5⟩]) (goes [⟨5⟩, ⟨3⟩])
  have there (e : ElementId) (small : e.index ≤ 5) : tied.HasElement e :=
    Nat.lt_of_le_of_lt small (show 5 < tied.elements.size by decide +kernel)
  refine ⟨fun e mem => ⟨done e mem (there e ?_), done' e (by simp_all [or_comm]) (there e ?_)⟩, agrees⟩
  all_goals
    revert mem
    simp only [List.mem_cons, List.not_mem_nil, or_false]
    rintro (rfl | rfl) <;> decide

open Store StoreM in
/-- Of two enumerations that show each other's constants the one that is asked for first finds the constant of
the other, which does not find its own. -/
theorem tangled_completion_order_shows :
    tangled.Declared ∧ ∃ r r', ((completeEach [⟨2⟩, ⟨3⟩]).run tangled).2.record? ⟨2⟩ = some r ∧
      ((completeEach [⟨3⟩, ⟨2⟩]).run tangled).2.record? ⟨2⟩ = some r' ∧ ¬ r.erroneous ∧ r'.erroneous := by
  refine ⟨declared_tangled, ?_⟩
  obtain ⟨r, complete, fine⟩ : ∃ r, ((completeEach [⟨2⟩, ⟨3⟩]).run tangled).2.record? ⟨2⟩ = some r ∧ r.erroneous = false :=
    Option.map_eq_some_iff.mp (by decide +kernel)
  obtain ⟨r', complete', wrong⟩ : ∃ r, ((completeEach [⟨3⟩, ⟨2⟩]).run tangled).2.record? ⟨2⟩ = some r ∧ r.erroneous = true :=
    Option.map_eq_some_iff.mp (by decide +kernel)
  exact ⟨r, r', complete, complete', by simp [fine], wrong⟩

end sample

end Nominal
