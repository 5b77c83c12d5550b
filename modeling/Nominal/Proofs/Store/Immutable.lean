import Nominal.Proofs.Recipe.Keeping
import Nominal.Proofs.Store.Reachable
import Nominal.Workspace.TypeView
/-!
What is published is not changed: not by a request of any kind, even one that names handles from elsewhere,
and so not between two views of the same thing either.
-/

namespace Nominal

open Store

namespace Request

theorem keeping_run_asks {R : Store → Store → Prop} [Tame R] (r : Request) (asks : r.asks) : Keeping R r.run := by
  cases r with
  | enterModule | enterPackage | enterType | enterDeclarations | enterLocal => cases asks
  | internName name => exact keeping_discard (keeping_internName name)
  | complete e => exact keeping_discard (StoreM.keeping_complete e)
  | inspect t => exact keeping_discard (StoreM.keeping_inspect t)
  | objectType => exact keeping_discard keeping_objectType
  | arrayType c => exact keeping_discard (keeping_checked_run (StoreM.keeping_arrayType c))
  | declaredType enclosing e arguments =>
    exact keeping_discard (keeping_checked_run (StoreM.keeping_declaredType enclosing e arguments))
  | wildcardType upper lower => exact keeping_discard (keeping_checked_run (StoreM.keeping_wildcardType upper lower))
  | typeVariable e => exact keeping_discard (keeping_checked_run (StoreM.keeping_typeVariable e))
  | intersectionType bounds => exact keeping_discard (keeping_newType _)
  | unionType alternatives => exact keeping_discard (keeping_newType _)
  | erase t => exact keeping_discard (StoreM.keeping_erase t)
  | substitute i t => exact keeping_discard (StoreM.keeping_substitute i t)
  | directSupertypes t => exact keeping_discard (StoreM.keeping_directSupertypes t)
  | asSuper t target => exact keeping_discard (StoreM.keeping_asSuper t target)
  | isSubtype a b => exact keeping_discard (StoreM.keeping_isSubtype a b)
  | asMemberOf t e => exact keeping_discard (keeping_checked_run (StoreM.keeping_asMemberOf t e))
  | executable enclosing kind name ts =>
    exact keeping_discard (StoreM.keeping_executable? enclosing kind name ts)
  | memberVariable enclosing name => exact keeping_discard (StoreM.keeping_memberVariable? enclosing name)
  | typeParameter generic name => exact keeping_discard (StoreM.keeping_typeParameter? generic name)
  | recordComponent e name => exact keeping_discard (StoreM.keeping_recordComponent? e name)
  | describeElement own e => exact keeping_discard (keeping_partial_run (Describing.keeping_element own e))
  | describeType own t => exact keeping_discard (keeping_partial_run (Describing.keeping_type own t))
  | rebuild own r => exact keeping_discard (keeping_checked_run (Rebuilding.keeping_rebuild own r))

variable {R : Store → Store → Prop} [Receptive R]

theorem keeping_run (r : Request) : Keeping R r.run := by
  cases r with
  | enterModule name => exact keeping_discard (StoreM.keeping_enterModule name)
  | enterPackage module name => exact keeping_discard (StoreM.keeping_enterPackage module name)
  | enterType package d => exact keeping_discard (keeping_checked_run (StoreM.keeping_enterType package d))
  | enterDeclarations p => exact keeping_discard (StoreM.keeping_enterDeclarations p)
  | enterLocal owner kind name type =>
    exact keeping_discard (keeping_checked_run (StoreM.keeping_enterLocal owner kind name type))
  | _ => exact keeping_run_asks _ rfl

theorem keeping_all (rs : List Request) : Keeping R (rs.forM run) := by
  induction rs with
  | nil => exact Keeper.pure ()
  | cons r rest ih => exact Keeper.bind r.keeping_run fun _ => ih

end Request

namespace Store

variable {s s' : Store} {rs : List Request}

theorem keeps_of_requests (goes : (rs.forM Request.run).run s = ((), s')) : s.Keeps s' := by
  have keeps : s.Keeps _ := Request.keeping_all rs s
  rw [show rs.forM Request.run s = ((), s') from goes] at keeps
  exact keeps

theorem tidy_of_requests (goes : (rs.forM Request.run).run empty = ((), s)) : s.Tidy :=
  (keeps_of_requests goes).tidy fun e slot found => by simp [slot?, empty] at found

theorem closed_of_requests (goes : (rs.forM Request.run).run empty = ((), s)) (e : ElementId) : ¬ s.Open e := by
  rw [(keeps_of_requests goes).opens e]
  rintro (⟨slot, found, _⟩ | now)
  · simp [slot?, empty] at found
  · exact now

end Store

namespace Workspace

/-- The store that a domain gives access to. -/
def storeOf (w : Workspace) (d : Domain) : Store := w.stores.getD d.store .empty

theorem storeOf_congr {w : Workspace} {d d' : Domain} (same : d'.store = d.store) : w.storeOf d' = w.storeOf d := by
  rw [storeOf, same, storeOf]

theorem inside_of_element {w : Workspace} {d : Domain} {e : ElementId} (there : (w.storeOf d).HasElement e) :
    d.store < w.stores.size := by
  by_contra nowhere
  simp [storeOf, nowhere, HasElement, empty] at there

end Workspace

namespace WorkM

variable {α : Type} {d : Domain} {w : Workspace} {m : StoreM α}

theorem within_store (there : d.store < w.stores.size) : (within d m w).2.storeOf d = (m (w.storeOf d)).2 := by
  change ((w.stores.setIfInBounds d.store .empty).setIfInBounds d.store _).getD d.store .empty = _
  simp [there, Workspace.storeOf]

theorem within_nowhere (nowhere : ¬ d.store < w.stores.size) : (within d m w).2.storeOf d = w.storeOf d := by
  change ((w.stores.setIfInBounds d.store .empty).setIfInBounds d.store _).getD d.store .empty = _
  simp [nowhere, Workspace.storeOf]

theorem within_keeps (keeps : Keeping Keeps m) : (w.storeOf d).Keeps ((within d m w).2.storeOf d) := by
  by_cases there : d.store < w.stores.size
  · rw [within_store there]
    exact keeps _
  · rw [within_nowhere there]
    exact .refl _

end WorkM

section reading

variable {w : Workspace}

theorem ElementView.record_seen {v : ElementView} {r : ElementRecord} (seen : (w.elementMemos[v.cell]?).join = some r) :
    v.record.run w = (r, w) := by
  have sees : v.seen? w = (some r, w) := congrArg (·, w) seen
  rw [ElementView.record, StateT.run, stateM_bind, sees]
  rfl

theorem ElementView.record_unseen {v : ElementView} (unseen : (w.elementMemos[v.cell]?).join = none) :
    v.record.run w =
      let done := WorkM.within v.domain (StoreM.complete v.id) w
      (done.1, { done.2 with elementMemos := w.elementMemos.setIfInBounds v.cell (some done.1) }) := by
  have sees : v.seen? w = (none, w) := congrArg (·, w) unseen
  rw [ElementView.record, StateT.run, stateM_bind, sees]
  rfl

theorem TypeView.shape_seen {v : TypeView} {shape : TypeShape}
    (seen : (w.typeMemos.getD v.cell {}).shape = some shape) : v.shape.run w = (shape, w) := by
  have sees : v.memo w = (w.typeMemos.getD v.cell {}, w) := rfl
  rw [TypeView.shape, StateT.run, stateM_bind, sees]
  dsimp only
  rw [seen]
  rfl

theorem TypeView.shape_unseen {v : TypeView} (unseen : (w.typeMemos.getD v.cell {}).shape = none) :
    v.shape.run w =
      let done := WorkM.within v.domain (StoreM.inspect v.id) w
      (done.1, { done.2 with typeMemos := w.typeMemos.modify v.cell ({ · with shape := some done.1 }) }) := by
  have sees : v.memo w = (w.typeMemos.getD v.cell {}, w) := rfl
  rw [TypeView.shape, StateT.run, stateM_bind, sees]
  dsimp only
  rw [unseen]
  rfl

end reading

/-- A view that has seen nothing is bound by its first reading, which shows `r` and leaves `w'`. -/
def ElementView.Binds (v : ElementView) (w : Workspace) (r : ElementRecord) (w' : Workspace) : Prop :=
  v.isBound.run w = (false, w) ∧ v.record.run w = (r, w')

/-- A view that has seen nothing is bound by its first reading, which shows `shape` and leaves `w'`. -/
def TypeView.Binds (v : TypeView) (w : Workspace) (shape : TypeShape) (w' : Workspace) : Prop :=
  v.isBound.run w = (false, w) ∧ v.shape.run w = (shape, w')

section views

variable {w w' : Workspace}

theorem ElementView.Binds.reads {v : ElementView} {r : ElementRecord} (binds : v.Binds w r w') :
    (StoreM.complete v.id (w.storeOf v.domain)).1 = r ∧
      w'.storeOf v.domain = (WorkM.within v.domain (StoreM.complete v.id) w).2.storeOf v.domain := by
  obtain ⟨unseen, reads⟩ := binds
  have nothing : (w.elementMemos[v.cell]?).join = none := 
    Option.isNone_iff_eq_none.mp (Option.isSome_eq_false_iff.mp (congrArg Prod.fst unseen))
  cases reads.symm.trans (ElementView.record_unseen nothing)
  exact ⟨rfl, rfl⟩

theorem inspect_shape (s : Store) (t : TypeId) : (StoreM.inspect t s).1 = s.shape t := by
  rw [StoreM.inspect, stateM_get_bind]
  cases s.shape t <;> rfl

theorem TypeView.Binds.reads {v : TypeView} {shape : TypeShape} (binds : v.Binds w shape w') :
    (w.storeOf v.domain).shape v.id = shape ∧
      w'.storeOf v.domain = (WorkM.within v.domain (StoreM.inspect v.id) w).2.storeOf v.domain := by
  obtain ⟨unseen, reads⟩ := binds
  have nothing : (w.typeMemos.getD v.cell {}).shape = none := 
    Option.isNone_iff_eq_none.mp (Option.isSome_eq_false_iff.mp (congrArg Prod.fst unseen))
  cases reads.symm.trans (TypeView.shape_unseen nothing)
  exact ⟨(inspect_shape _ _).symm, rfl⟩

/-- Two views of one element, bound one after the other, show the same unless it is a module or package. -/
theorem ElementView.Binds.agree {a b : ElementView} {r r' : ElementRecord} {w₁ w₂ w₃ : Workspace}
    {kind : ElementKind} {between : List Request} (store : b.domain.store = a.domain.store) (id : b.id = a.id)
    (known : (w.storeOf a.domain).kind? a.id = some kind) (plain : ¬ kind.isContainer)
    (settled : ∀ e, ¬ (w.storeOf a.domain).Open e) (first : a.Binds w r w₁)
    (goes : (between.forM Request.run).run (w₁.storeOf a.domain) = ((), w₂.storeOf a.domain))
    (second : b.Binds w₂ r' w₃) : r' = r := by
  obtain ⟨seen, left⟩ := first.reads
  obtain ⟨seen', _⟩ := second.reads
  rw [Workspace.storeOf_congr store, id] at seen'
  have there : (w.storeOf a.domain).HasElement a.id := by
    obtain ⟨slot, found, _⟩ := kind?_eq_some_iff.mp known
    exact has_element_iff.mpr ⟨slot, found⟩
  rw [WorkM.within_store (Workspace.inside_of_element there)] at left
  obtain ⟨begins, complete⟩ := StoreM.complete_settles (w.storeOf a.domain) a.id
  have complete := complete there (settled a.id)
  rw [← left] at begins complete
  rw [seen] at complete
  -- What the first view showed is still the record when the second one is bound, and stays it.
  have keeps := begins.trans (keeps_of_requests goes)
  have closed : ¬ (w₂.storeOf a.domain).Open a.id := by
    rw [keeps.opens a.id]
    exact fun now => now.elim (settled a.id) False.elim
  obtain ⟨ends, complete'⟩ := StoreM.complete_settles (w₂.storeOf a.domain) a.id
  have complete' := complete' (keeps.there there) closed
  rw [seen'] at complete'
  have kept := (keeps_of_requests goes).record (begins.kind known) plain complete
  exact Option.some.inj (complete'.symm.trans (ends.record (keeps.kind known) plain kept))

/-- Two views of one type, bound one after the other, show the same. -/
theorem TypeView.Binds.agree {a b : TypeView} {shape shape' : TypeShape} {w₁ w₂ w₃ : Workspace}
    {between : List Request} (store : b.domain.store = a.domain.store) (id : b.id = a.id)
    (known : (w.storeOf a.domain).HasType a.id) (first : a.Binds w shape w₁)
    (goes : (between.forM Request.run).run (w₁.storeOf a.domain) = ((), w₂.storeOf a.domain))
    (second : b.Binds w₂ shape' w₃) : shape' = shape := by
  obtain ⟨seen, left⟩ := first.reads
  obtain ⟨seen', _⟩ := second.reads
  rw [Workspace.storeOf_congr store, id] at seen'
  obtain ⟨old, found⟩ := has_type_iff.mp known
  have begins := WorkM.within_keeps (d := a.domain) (w := w) (StoreM.keeping_inspect a.id)
  rw [← left] at begins
  have later := (begins.trans (keeps_of_requests goes)).shapes a.id old found
  rw [← seen', ← seen, shape_of_shape? later, shape_of_shape? found]

end views

/-- Whatever was asked before, and whatever is asked from then on: every type keeps its shape, every complete
element other than a module or package its record, and the record of a module or package is only replaced by
one that lists more. So two views of one type, or of one element that is no module or package, show the same,
whenever each of them is bound. -/
theorem records_are_immutable (before : List Request) {s : Store}
    (start : (before.forM Request.run).run .empty = ((), s)) :
    (∀ (after : List Request) (s' : Store), (after.forM Request.run).run s = ((), s') →
      (∀ t shape, s.shape? t = some shape → s'.shape? t = some shape) ∧
      (∀ e kind r, s.kind? e = some kind → ¬ kind.isContainer → s.record? e = some r →
        s'.record? e = some r) ∧
      ∀ e kind r r', s.kind? e = some kind → kind.isContainer → s.record? e = some r →
        s'.record? e = some r' → ∃ more, r' = { r with enclosed := r.enclosed ++ more }) ∧
    (∀ (a b : TypeView) (between : List Request) (w w₁ w₂ w₃ : Workspace) (shape shape' : TypeShape),
      w.storeOf a.domain = s → b.domain.store = a.domain.store → b.id = a.id → s.HasType a.id →
      a.Binds w shape w₁ → (between.forM Request.run).run (w₁.storeOf a.domain) = ((), w₂.storeOf a.domain) →
      b.Binds w₂ shape' w₃ → shape' = shape) ∧
    ∀ (a b : ElementView) (between : List Request) (w w₁ w₂ w₃ : Workspace) (kind : ElementKind)
      (r r' : ElementRecord),
      w.storeOf a.domain = s → b.domain.store = a.domain.store → b.id = a.id → s.kind? a.id = some kind →
      ¬ kind.isContainer → a.Binds w r w₁ →
      (between.forM Request.run).run (w₁.storeOf a.domain) = ((), w₂.storeOf a.domain) →
      b.Binds w₂ r' w₃ → r' = r := by
  refine ⟨fun after s' goes => ?_, ?_, ?_⟩
  · have keeps := keeps_of_requests goes
    exact ⟨keeps.shapes, fun e kind r known plain => keeps.record known plain,
      fun e kind r r' known container => keeps.container_record (tidy_of_requests start) known container⟩
  · rintro a b between w w₁ w₂ w₃ shape shape' rfl store id known first goes second
    exact first.agree store id known goes second
  · rintro a b between w w₁ w₂ w₃ kind r r' rfl store id known plain first goes second
    exact first.agree store id known plain (closed_of_requests start) goes second

section sample

namespace Store

def settling : List Request := [.enterDeclarations sampleProgram, .complete ⟨0⟩, .complete ⟨2⟩]

def reopening : List Request :=
  [.enterDeclarations { package := commonPackage, types := [.mk { kind := .classType, name := "Bag" } []] },
    .complete ⟨0⟩]

@[irreducible] def settledSample : Store := ((settling.forM Request.run).run .empty).2

@[irreducible] def reopenedSample : Store := ((reopening.forM Request.run).run settledSample).2

end Store

namespace Workspace

def beforehand : Workspace :=
  { stores := #[settledSample], elementMemos := #[none, none], typeMemos := #[{}, {}] }

def reopened (w : Workspace) : Workspace := (WorkM.within { store := 0 } (reopening.forM Request.run) w).2

theorem reopened_goes {w : Workspace} (inside : 0 < w.stores.size) :
    (reopening.forM Request.run).run (w.storeOf { store := 0 }) = ((), w.reopened.storeOf { store := 0 }) := by
  rw [reopened, WorkM.within_store inside]
  exact leaves (Subsingleton.elim _ _)

def topView (cell : Nat) : ElementView := ⟨{ store := 0 }, ⟨1⟩, cell⟩

def variableView (cell : Nat) : TypeView := ⟨{ store := 0 }, ⟨13⟩, cell⟩

@[irreducible] def afterTop : Workspace := ((topView 0).record.run beforehand).2

@[irreducible] def afterVariable : Workspace := ((variableView 0).shape.run beforehand).2

end Workspace

open Workspace in
/-- The generic type's record and the shape of its variable stay, the record of the package lists the new type
as well, and views of the top type and of the variable agree, though one is bound much later. -/
theorem sample_records_are_immutable :
    (∃ shape, settledSample.shape? ⟨13⟩ = some shape ∧ reopenedSample.shape? ⟨13⟩ = some shape) ∧
    (∃ r, settledSample.record? ⟨2⟩ = some r ∧ reopenedSample.record? ⟨2⟩ = some r) ∧
    (∃ r r' more, settledSample.record? ⟨0⟩ = some r ∧ reopenedSample.record? ⟨0⟩ = some r' ∧
      r' = { r with enclosed := r.enclosed ++ more } ∧ more.length = 1) ∧
    ((variableView 1).shape.run afterVariable.reopened).1 = ((variableView 0).shape.run beforehand).1 ∧
    ((topView 1).record.run afterTop.reopened).1 = ((topView 0).record.run beforehand).1 := by
  have start : (settling.forM Request.run).run .empty = ((), settledSample) := by
    unfold settledSample
    exact leaves (Subsingleton.elim _ _)
  have goes : (reopening.forM Request.run).run settledSample = ((), reopenedSample) := by
    unfold reopenedSample
    exact leaves (Subsingleton.elim _ _)
  obtain ⟨stores, types, elements⟩ := records_are_immutable settling start
  obtain ⟨shapes, records, containers⟩ := stores reopening reopenedSample goes
  refine ⟨?_, ?_, ?_, ?_, ?_⟩
  · obtain ⟨shape, found⟩ : ∃ shape, settledSample.shape? ⟨13⟩ = some shape :=
      Option.isSome_iff_exists.mp (by decide +kernel)
    exact ⟨shape, found, shapes ⟨13⟩ shape found⟩
  · obtain ⟨r, complete⟩ : ∃ r, settledSample.record? ⟨2⟩ = some r :=
      Option.isSome_iff_exists.mp (by decide +kernel)
    exact ⟨r, complete, records ⟨2⟩ .classType r (by decide +kernel) (by decide) complete⟩
  · obtain ⟨r, complete, two⟩ : ∃ r, settledSample.record? ⟨0⟩ = some r ∧ r.enclosed.length = 2 :=
      Option.map_eq_some_iff.mp (by decide +kernel)
    obtain ⟨r', complete', three⟩ : ∃ r, reopenedSample.record? ⟨0⟩ = some r ∧ r.enclosed.length = 3 :=
      Option.map_eq_some_iff.mp (by decide +kernel)
    obtain ⟨more, same⟩ := containers ⟨0⟩ .package r r' (by decide +kernel) (by decide) complete complete'
    refine ⟨r, r', more, complete, complete', same, ?_⟩
    rw [same, List.length_append] at three
    omega
  · have first : (variableView 0).Binds beforehand ((variableView 0).shape.run beforehand).1 afterVariable := by
      unfold afterVariable
      exact ⟨rfl, rfl⟩
    have second : (variableView 1).Binds afterVariable.reopened _ _ :=
      ⟨Prod.ext (show (afterVariable.reopened.typeMemos.getD 1 {}).shape.isSome = false by decide +kernel) rfl,
        rfl⟩
    have there : settledSample.HasType ⟨13⟩ := show 13 < settledSample.types.size by decide +kernel
    have inside : 0 < afterVariable.stores.size := by decide +kernel
    exact types (variableView 0) (variableView 1) reopening beforehand afterVariable _ _ _ _ rfl rfl rfl there first
      (reopened_goes inside) second
  · have first : (topView 0).Binds beforehand ((topView 0).record.run beforehand).1 afterTop := by
      unfold afterTop
      exact ⟨rfl, rfl⟩
    have second : (topView 1).Binds afterTop.reopened _ _ :=
      ⟨Prod.ext (show (afterTop.reopened.elementMemos[1]?).join.isSome = false by decide +kernel) rfl, rfl⟩
    have inside : 0 < afterTop.stores.size := by decide +kernel
    exact elements (topView 0) (topView 1) reopening beforehand afterTop _ _ .classType _ _ rfl rfl rfl
      (by decide +kernel) (by decide) first (reopened_goes inside) second

end sample

end Nominal
