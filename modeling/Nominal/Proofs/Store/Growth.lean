import Nominal.Proofs.Store.Ensures
import Nominal.Proofs.Store.Naming
/-!
How a store grows: elements keep their names and places, types keep their shapes, records of complete
elements stay. What happens inside one completion is said relative to the elements that this
completion itself has opened, as only these may be published and get the bound of their variable.
-/

namespace Nominal

def SlotState.Evolves (container : Bool) (mine : Prop) (state state' : SlotState) : Prop :=
  match container, state with
  | true, .completing => state' = .completing
  | true, .pending _ | true, .complete _ => state' ≠ .completing
  | false, .completing => state' = .completing ∨ mine ∧ ∃ r, state' = .complete r
  | false, .pending work =>
    state' = .pending work ∨ (∃ r, state' = .complete r) ∨ mine ∧ state' = .completing
  | false, .complete r => state' = .complete r

def Slot.Becomes (mine : Prop) (slot slot' : Slot) : Prop :=
  ∃ children state, slot' = { slot with children, state } ∧ slot.children <+: children ∧
    slot.state.Evolves slot.kind.isContainer mine state

namespace Store

def Nothing (_ : ElementId) : Prop := False

theorem Nothing.within {p : ElementId → Prop} (e : ElementId) (nothing : Nothing e) : p e := nothing.elim

/-- Growth from `s` to `s'`, in the course of which the elements of `mine` may be published. -/
structure Grows (mine : ElementId → Prop) (s s' : Store) : Prop where
  slots : ∀ e slot, s.slot? e = some slot → ∃ slot', s'.slot? e = some slot' ∧ slot.Becomes (mine e) slot'
  opens : ∀ e, s'.Open e → s.Open e ∨ mine e
  owned : ∀ o slot r, s.slot? o = some slot → ¬ slot.kind.isContainer → slot.state = .complete r →
    s'.owned o = s.owned o
  shapes : ∀ t shape, s.shape? t = some shape → s'.shape? t = some shape ∨
    ∃ e upper upper', mine e ∧ shape = .typeVariable e upper ∧
      s'.shape? t = some (.typeVariable e upper')
  names : s.names.names.toList <+: s'.names.names.toList
  modules : s.modules <+: s'.modules
  packages : s.packages <+: s'.packages
  typeElements : s.typeElements <+: s'.typeElements
  object : ∀ t, s.objectUsage = some t → s'.objectUsage = some t

end Store

theorem SlotState.Evolves.trans {container : Bool} {mine : Prop} {a b c : SlotState}
    (first : a.Evolves container mine b) (second : b.Evolves container mine c) :
    a.Evolves container mine c := by
  cases container with
  | true =>
    cases a with
    | completing => cases first; exact second
    | pending work | complete r =>
      cases b with
      | completing => exact absurd rfl first
      | pending _ | complete _ => exact second
  | false =>
    cases a with
    | completing =>
      rcases first with rfl | ⟨may, r, rfl⟩
      · exact second
      · exact .inr ⟨may, r, second⟩
    | pending work =>
      rcases first with rfl | ⟨r, rfl⟩ | ⟨may, rfl⟩
      · exact second
      · exact .inr (.inl ⟨r, second⟩)
      · rcases second with rfl | ⟨_, r, rfl⟩
        · exact .inr (.inr ⟨may, rfl⟩)
        · exact .inr (.inl ⟨r, rfl⟩)
    | complete r => cases first; exact second

theorem SlotState.Evolves.weaken {container : Bool} {p q : Prop} {a b : SlotState}
    (h : a.Evolves container p b) (weaker : p → q) : a.Evolves container q b := by
  cases container with
  | true => cases a <;> exact h
  | false =>
    cases a with
    | completing => exact h.imp id (And.imp_left weaker)
    | pending work => exact h.imp id (Or.imp id (And.imp_left weaker))
    | complete r => exact h

theorem Slot.Becomes.weaken {p q : Prop} {a b : Slot} (h : a.Becomes p b) (weaker : p → q) :
    a.Becomes q b := by
  obtain ⟨children, state, rfl, prefixed, evolves⟩ := h
  exact ⟨children, state, rfl, prefixed, evolves.weaken weaker⟩

theorem Slot.Becomes.trans {mine : Prop} {a b c : Slot} (first : a.Becomes mine b)
    (second : b.Becomes mine c) : a.Becomes mine c := by
  obtain ⟨_, _, rfl, children, evolves⟩ := first
  obtain ⟨_, _, rfl, children', evolves'⟩ := second
  exact ⟨_, _, rfl, children.trans children', evolves.trans evolves'⟩

namespace Store.Grows

variable {mine : ElementId → Prop} {s s' s'' : Store}

theorem kind (g : s.Grows mine s') {e : ElementId} {k : ElementKind} (h : s.kind? e = some k) :
    s'.kind? e = some k := by
  obtain ⟨slot, found, rfl⟩ := kind?_eq_some_iff.mp h
  obtain ⟨_, found', _, _, rfl, _⟩ := g.slots e slot found
  exact kind?_eq_some_iff.mpr ⟨_, found', rfl⟩

theorem has_element (g : s.Grows mine s') {e : ElementId} (h : s.HasElement e) : s'.HasElement e := by
  obtain ⟨slot, found⟩ := has_element_iff.mp h
  obtain ⟨slot', found', _⟩ := g.slots e slot found
  exact has_element_iff.mpr ⟨slot', found'⟩

theorem has_type (g : s.Grows mine s') {t : TypeId} (h : s.HasType t) : s'.HasType t := by
  obtain ⟨shape, found⟩ := has_type_iff.mp h
  rcases g.shapes t shape found with found' | ⟨_, _, _, _, _, found'⟩ <;>
    exact has_type_iff.mpr ⟨_, found'⟩

theorem isUsage (g : s.Grows mine s') {t : TypeId} (h : s.IsUsage t) : s'.IsUsage t := by
  obtain ⟨o, e, args, found⟩ := h
  rcases g.shapes t _ found with found' | ⟨_, _, _, _, same, _⟩
  · exact ⟨o, e, args, found'⟩
  · cases same

theorem trans (first : s.Grows mine s') (second : s'.Grows mine s'') : s.Grows mine s'' where
  slots e slot found := by
    obtain ⟨slot', found', becomes⟩ := first.slots e slot found
    obtain ⟨slot'', found'', becomes'⟩ := second.slots e slot' found'
    exact ⟨slot'', found'', becomes.trans becomes'⟩
  opens e h := by
    rcases second.opens e h with h | h
    · exact first.opens e h
    · exact .inr h
  owned o slot r found isOwner complete := by
    obtain ⟨slot', found', children, state, rfl, _, evolves⟩ := first.slots o slot found
    have same : state = .complete r := by
      rw [complete] at evolves
      simpa [SlotState.Evolves, isOwner] using evolves
    rw [second.owned o _ r found' isOwner same, first.owned o slot r found isOwner complete]
  shapes t shape found := by
    rcases first.shapes t shape found with found' | ⟨e, u, u', may, rfl, found'⟩
    · exact second.shapes t shape found'
    · rcases second.shapes t _ found' with found'' | ⟨_, _, u'', may', same, found''⟩
      · exact .inr ⟨e, u, u', may, rfl, found''⟩
      · cases same
        exact .inr ⟨e, u, u'', may, rfl, found''⟩
  names := first.names.trans second.names
  modules := first.modules.trans second.modules
  packages := first.packages.trans second.packages
  typeElements := first.typeElements.trans second.typeElements
  object t h := second.object t (first.object t h)

theorem mono {more : ElementId → Prop} (g : s.Grows mine s') (h : ∀ e, mine e → more e) :
    s.Grows more s' where
  slots e slot found := by
    obtain ⟨slot', found', becomes⟩ := g.slots e slot found
    exact ⟨slot', found', becomes.weaken (h e)⟩
  opens e isOpen := (g.opens e isOpen).imp id (h e)
  owned := g.owned
  shapes t shape found := by
    rcases g.shapes t shape found with found' | ⟨e, u, u', may, rest⟩
    · exact .inl found'
    · exact .inr ⟨e, u, u', h e may, rest⟩
  names := g.names
  modules := g.modules
  packages := g.packages
  typeElements := g.typeElements
  object := g.object

theorem refl (h : s.Consistent) : s.Grows mine s where
  slots e slot found := by
    refine ⟨slot, found, slot.children, slot.state, rfl, List.prefix_refl _, ?_⟩
    have fits := (h.slots e slot found).state
    unfold StateFits at fits
    unfold SlotState.Evolves
    cases isContainer : slot.kind.isContainer <;> cases state : slot.state <;> simp_all
  opens e isOpen := .inl isOpen
  owned _ _ _ _ _ _ := rfl
  shapes t shape found := .inl found
  names := List.prefix_refl _
  modules := List.prefix_refl _
  packages := List.prefix_refl _
  typeElements := List.prefix_refl _
  object _ := id

theorem close (g : s.Grows mine s') (h : s.Consistent)
    (own : ∀ e, mine e → ¬ s.Open e ∧ ¬ s'.Open e ∧ s.kind? e ≠ some .typeParameter) :
    s.Grows Nothing s' where
  slots e slot found := by
    obtain ⟨_, found', children, state, rfl, prefixed, evolves⟩ := g.slots e slot found
    refine ⟨_, found', children, state, rfl, prefixed, ?_⟩
    by_cases may : mine e
    · obtain ⟨before, after, _⟩ := own e may
      have closed : slot.state ≠ .completing := fun completing => before ⟨slot, found, completing⟩
      have closed' : state ≠ .completing := fun completing => after ⟨_, found', completing⟩
      unfold SlotState.Evolves at evolves ⊢
      split at evolves <;> simp_all
    · exact evolves.weaken may
  opens e isOpen := by
    rcases g.opens e isOpen with before | may
    · exact .inl before
    · exact absurd isOpen (own e may).2.1
  owned := g.owned
  shapes t shape found := by
    rcases g.shapes t shape found with found' | ⟨e, u, u', may, rfl, _⟩
    · exact .inl found'
    · obtain ⟨kind, _⟩ := (h.shapes t _ found).typeVariable e u rfl
      exact absurd kind (own e may).2.2
  names := g.names
  modules := g.modules
  packages := g.packages
  typeElements := g.typeElements
  object := g.object

theorem shape (g : s.Grows Nothing s') {t : TypeId} {shape : TypeShape}
    (found : s.shape? t = some shape) : s'.shape? t = some shape := by
  rcases g.shapes t shape found with found' | ⟨_, _, _, may, _⟩
  · exact found'
  · exact may.elim

theorem record (g : s.Grows mine s') {e : ElementId} {slot : Slot} {r : ElementRecord}
    (found : s.slot? e = some slot) (kind : ¬ slot.kind.isContainer) (state : slot.state = .complete r) :
    s'.record? e = some r := by
  obtain ⟨_, found', children, state', rfl, _, evolves⟩ := g.slots e slot found
  refine record?_eq_some_iff.mpr ⟨_, found', ?_⟩
  rw [state] at evolves
  simpa [SlotState.Evolves, kind] using evolves

theorem simpleName (g : s.Grows mine s') {e : ElementId} {name : String}
    (called : s.simpleName? e = some name) : s'.simpleName? e = some name := by
  obtain ⟨slot, found, rfl⟩ := Option.map_eq_some_iff.mp called
  obtain ⟨_, found', _, _, rfl, _⟩ := g.slots e slot found
  rw [simpleName?, found']
  rfl

theorem arity (g : s.Grows mine s') {e : ElementId} (there : s.HasElement e) : s'.arity e = s.arity e := by
  obtain ⟨slot, found⟩ := has_element_iff.mp there
  obtain ⟨_, found', _, _, rfl, _⟩ := g.slots e slot found
  rw [Store.arity, Store.arity, found, found']
  rfl

theorem head? (g : s.Grows mine s') {t : TypeId} (known : s.HasType t) : s'.head? t = s.head? t := by
  obtain ⟨shape, found⟩ := has_type_iff.mp known
  rcases g.shapes t shape found with found' | ⟨_, _, _, _, rfl, found'⟩
  · rw [Store.head?, Store.head?, found, found']
  · rw [Store.head?, Store.head?, found, found']
    rfl

theorem still_open (g : s.Grows mine s') {e : ElementId} (isOpen : s.Open e) (other : ¬ mine e) :
    s'.Open e := by
  obtain ⟨slot, found, state⟩ := isOpen
  obtain ⟨_, found', children, state', rfl, _, evolves⟩ := g.slots e slot found
  refine ⟨_, found', ?_⟩
  rw [state] at evolves
  unfold SlotState.Evolves at evolves
  split at evolves <;> simp_all

end Store.Grows

namespace Store

theorem InPackage.grow {mine : ElementId → Prop} {s s' : Store} {e : ElementId} {name : String}
    (place : s.InPackage e name) (g : s.Grows mine s') : s'.InPackage e name := by
  induction place with
  | @itself e slot found package =>
    obtain ⟨_, found', _, _, rfl, _⟩ := g.slots e slot found
    exact (InPackage.itself found' package : s'.InPackage e _)
  | @inside e o slot name found other enclosing _ ih =>
    obtain ⟨_, found', _, _, rfl, _⟩ := g.slots e slot found
    exact .inside found' other enclosing ih

def Called (s : Store) (es : List ElementId) (names : List String) : Prop :=
  List.Forall₂ (fun e name => s.simpleName? e = some name) es names

theorem Called.grow {mine : ElementId → Prop} {s s' : Store} {es : List ElementId} {names : List String}
    (called : s.Called es names) (g : s.Grows mine s') : s'.Called es names :=
  called.imp fun _ _ => g.simpleName

abbrev Named (s : Store) (ps : List TypeParameterDecl) (es : List ElementId) : Prop :=
  s.Called es (ps.map (·.name))

structure Fulfils (s : Store) (e : ElementId) (slot : Slot) (header : TypeHeader) (r : ElementRecord) : Prop where
  named : s.Named header.typeParameters r.typeParameters
  bears : s.Bears e slot header r

def Heeds (s s' : Store) (e : ElementId) : Prop :=
  ∀ slot header r, s.slot? e = some slot → ¬ slot.kind.isContainer →
    slot.state = .pending (.type header) → s'.record? e = some r → s'.Fulfils e slot header r

theorem Fulfils.grow {mine : ElementId → Prop} {s s' : Store} {e : ElementId} {slot : Slot} {header : TypeHeader}
    {r : ElementRecord} (fulfils : s.Fulfils e slot header r) (fits : s.Consistent)
    (known : ∀ t ∈ r.superclass :: r.interfaces, s.HasType t) (g : s.Grows mine s')
    (indexes : s'.typeElements = s.typeElements) : s'.Fulfils e slot header r where
  named := fulfils.named.grow g
  bears := by
    obtain ⟨package, place, heads⟩ := fulfils.bears
    refine ⟨package, place.grow g, ?_⟩
    rw [fits.heads_congr indexes (fun _ => g.arity) rfl, ← heads]
    exact List.map_congr_left fun t mem => g.head? (known t mem)

theorem heeds_absent {s s' : Store} {e : ElementId} (absent : s.slot? e = none) : s.Heeds s' e := by
  intro slot header r found
  simp [absent] at found

theorem heeds_same {s s' : Store} {e : ElementId} (same : s'.slot? e = s.slot? e) : s.Heeds s' e := by
  intro slot header r found _ isPending complete
  obtain ⟨slot', found', state⟩ := record?_eq_some_iff.mp complete
  cases (same.trans found).symm.trans found'
  simp [isPending] at state

theorem heeds_of_header {s s' : Store} {e : ElementId} {slot : Slot} {header : TypeHeader} {r : ElementRecord}
    (found : s.slot? e = some slot) (isPending : slot.state = .pending (.type header))
    (complete : s'.record? e = some r) (fulfils : s'.Fulfils e slot header r) : s.Heeds s' e := by
  intro slot' header' r' found' _ isPending' complete'
  cases found.symm.trans found'
  cases isPending.symm.trans isPending'
  cases complete.symm.trans complete'
  exact fulfils

/-- Growth to a consistent store in which nothing new was entered. The elements of `enlarged` may
come to own more, and what else is open owns what it owned. Only new elements get a type variable. -/
structure Extension (mine enlarged : ElementId → Prop) (s s' : Store) : Prop where
  consistent : s'.Consistent
  grows : s.Grows mine s'
  modules : s'.modules = s.modules
  packages : s'.packages = s.packages
  typeElements : s'.typeElements = s.typeElements
  kept : ∀ o, s.Open o → ¬ mine o → ¬ enlarged o → s'.owned o = s.owned o
  fresh : ∀ t e upper, s.shape? t = none → s'.shape? t = some (.typeVariable e upper) →
    s.slot? e = none
  heeds : ∀ e, ¬ mine e → s.Heeds s' e

abbrev Extends (s s' : Store) : Prop := s.Extension Nothing Nothing s'

namespace Extension

variable {mine enlarged : ElementId → Prop} {s s' : Store}

theorem refl (h : s.Consistent) : s.Extension mine enlarged s :=
  ⟨h, .refl h, rfl, rfl, rfl, fun _ _ _ _ => rfl, fun t e upper absent found => by simp [absent] at found,
    fun _ _ => heeds_same rfl⟩

theorem mono {mine' enlarged' : ElementId → Prop} (h : s.Extension mine enlarged s')
    (more : ∀ e, mine e → mine' e) (larger : ∀ e, enlarged e → enlarged' e) :
    s.Extension mine' enlarged' s' where
  consistent := h.consistent
  grows := h.grows.mono more
  modules := h.modules
  packages := h.packages
  typeElements := h.typeElements
  kept o isOpen other small :=
    h.kept o isOpen (fun may => other (more o may)) fun grown => small (larger o grown)
  fresh := h.fresh
  heeds e other := h.heeds e fun may => other (more e may)

theorem widen (h : s.Extends s') : s.Extension mine enlarged s' :=
  h.mono (fun _ => False.elim) fun _ => False.elim

theorem element? (ext : s.Extension mine enlarged s') (h : s.Consistent) {sc sc' : Scope} (place : sc'.place = sc.place) :
    sc'.element? s' = sc.element? s :=
  h.element?_congr ext.typeElements (fun _ => ext.grows.arity) place

theorem heads (ext : s.Extension mine enlarged s') (h : s.Consistent) {sc sc' : Scope} (place : sc'.place = sc.place)
    (header : TypeHeader) : header.heads sc' s' = header.heads sc s :=
  h.heads_congr ext.typeElements (fun _ => ext.grows.arity) place header

theorem close (ext : s.Extension mine enlarged s') (h : s.Consistent)
    (own : ∀ e, mine e → ¬ s.Open e ∧ ¬ s'.Open e ∧ s.kind? e ≠ some .typeParameter)
    (heeds : ∀ e, mine e → s.Heeds s' e) : s.Extension Nothing enlarged s' where
  consistent := ext.consistent
  grows := ext.grows.close h own
  modules := ext.modules
  packages := ext.packages
  typeElements := ext.typeElements
  kept o isOpen _ small := ext.kept o isOpen (fun may => (own o may).1 isOpen) small
  fresh := ext.fresh
  heeds e _ := by
    by_cases may : mine e
    · exact heeds e may
    · exact ext.heeds e may

theorem shrink {enlarged' : ElementId → Prop} (ext : s.Extension mine enlarged s')
    (less : ∀ o, s.Open o → enlarged o → enlarged' o) : s.Extension mine enlarged' s' :=
  { ext with
    kept := fun o isOpen other small =>
      ext.kept o isOpen other fun grown => small (less o isOpen grown) }

end Extension

instance (mine enlarged : ElementId → Prop) : Movement (Store.Extension mine enlarged) where
  trans first second :=
    { consistent := second.consistent
      grows := first.grows.trans second.grows
      modules := second.modules.trans first.modules
      packages := second.packages.trans first.packages
      typeElements := second.typeElements.trans first.typeElements
      kept := fun o isOpen other small =>
        (second.kept o (first.grows.still_open isOpen other) other small).trans
          (first.kept o isOpen other small)
      fresh := fun t e upper absent found => by
        cases between : Store.shape? _ t with
        | none =>
          have absent' := second.fresh t e upper between found
          cases old : Store.slot? _ e with
          | none => rfl
          | some slot =>
            obtain ⟨_, found', _⟩ := first.grows.slots e slot old
            simp [absent'] at found'
        | some shape =>
          rcases second.grows.shapes t shape between with found' | ⟨_, u, u', _, rfl, found'⟩
          · rw [found] at found'
            cases found'
            exact first.fresh t e upper absent between
          · rw [found] at found'
            cases found'
            exact first.fresh t e u absent between
      heeds := fun e other slot header r found plain isPending complete => by
        obtain ⟨_, found', _, _, rfl, _, evolves⟩ := first.grows.slots e slot found
        simp only [SlotState.Evolves, eq_false_of_ne_true plain, isPending, other, false_and, or_false] at evolves
        rcases evolves with rfl | ⟨_, rfl⟩
        · obtain ⟨named, bears⟩ := second.heeds e other _ header r found' plain rfl complete
          exact ⟨named, bears⟩
        · cases (second.grows.record found' plain rfl).symm.trans complete
          have between := record?_eq_some_iff.mpr ⟨_, found', rfl⟩
          exact (first.heeds e other slot header r found plain isPending between).grow first.consistent
            (first.consistent.supertypes_known between) second.grows second.typeElements }
  stay h := .refl h.consistent

end Store

end Nominal
