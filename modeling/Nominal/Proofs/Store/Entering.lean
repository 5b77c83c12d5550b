import Nominal.Proofs.Store.Advancing
import Nominal.Store.Entering
/-!
Entering modules, packages, types and local variables keeps a store sound. What is entered joins the index for
its kind under a name that was free, and becomes a child of what encloses it.
-/

namespace Nominal

theorem ElementKind.admits_type {outer k : ElementKind} (inside : outer = .package ∨ outer.isType)
    (type : k.isType) : outer.admits k := by
  revert inside type
  cases k <;> cases outer <;> decide

namespace NameIndex

def enter (p : ElementKind → Bool) (slot : Slot) (e : ElementId) (index : NameIndex) : NameIndex :=
  if p slot.kind then index ++ [(slot.qualifiedName, e)] else index

theorem enter_longer (p : ElementKind → Bool) (slot : Slot) (e : ElementId) (index : NameIndex) :
    index <+: enter p slot e index := by
  rw [enter]
  split
  · exact List.prefix_append _ _
  · exact List.prefix_refl _

theorem find?_enter {p : ElementKind → Bool} {slot : Slot} {d e : ElementId} {index : NameIndex}
    {name : String} :
    NameIndex.find? (enter p slot d index) name = some e ↔ index.find? name = some e ∨
      index.find? name = none ∧ p slot.kind ∧ slot.qualifiedName = name ∧ d = e := by
  rw [enter]
  split
  · rename_i picked
    rw [NameIndex.find?, List.find?_append, Option.map_or, ← NameIndex.find?]
    cases found : NameIndex.find? index name with
    | some d' => simp
    | none => by_cases same : slot.qualifiedName = name <;> simp [picked, same]
  · simp [*]

end NameIndex

namespace Store

def Housed (s : Store) : Prop := ∀ e slot o, s.slot? e = some slot → slot.enclosing = some o → s.HasElement o

structure Houses (s s' : Store) : Prop extends Grown s s' where
  housed : s.Housed → s'.Housed

instance : Movement Houses where
  trans first second := ⟨Movement.trans first.toGrown second.toGrown, second.housed ∘ first.housed⟩
  stay h := ⟨Movement.stay h.toGrown, id⟩

variable {s s' : Store} {e : ElementId} {slot : Slot}

theorem Grown.houses (move : s.Grown s') (new : ∀ e slot, s.slot? e = none → s'.slot? e = some slot →
    slot.kind.isContainer → ∀ o ∈ slot.enclosing, s'.HasElement o) : s.Houses s' where
  toGrown := move
  housed housed e slot o found enclosing := by
    cases before : s.slot? e with
    | some slot₀ =>
      obtain ⟨children, state, found'⟩ := move.slot before
      rw [found'] at found
      cases found
      exact move.grows.has_element (housed e slot₀ o before enclosing)
    | none =>
      by_cases container : slot.kind.isContainer
      · exact new e slot before found container o enclosing
      · obtain ⟨o', k, enclosing', _, kind, _⟩ := (move.sound.slots e slot found).placed container
        cases enclosing.symm.trans enclosing'
        obtain ⟨outer, there, _⟩ := kind?_eq_some_iff.mp kind
        exact has_element_iff.mpr ⟨outer, there⟩

theorem Advances.houses (move : s.Advances s') : s.Houses s' := by
  refine move.toGrown.houses fun e slot absent found container => ?_
  have old (slot' : Slot) (there : s.slot? e = some slot') : False := by
    rw [absent] at there
    cases there
  cases kind : slot.kind <;> simp only [kind, ElementKind.isContainer] at container
  case module =>
    have listed := (move.sound.modules slot.qualifiedName e).mpr ⟨slot, found, by rw [kind]; rfl, rfl⟩
    rw [move.moves.modules] at listed
    obtain ⟨slot', there, _⟩ := (move.start.modules _ e).mp listed
    exact (old slot' there).elim
  case package =>
    have listed := (move.sound.packages slot.qualifiedName e).mpr ⟨slot, found, by rw [kind]; rfl, rfl⟩
    rw [move.moves.packages] at listed
    obtain ⟨slot', there, _⟩ := (move.start.packages _ e).mp listed
    exact (old slot' there).elim
  all_goals cases container

def NamedInPlace (s : Store) (slot : Slot) : Prop := ∃ o outer, slot.enclosing = some o ∧ s.slot? o = some outer ∧
  slot.qualifiedName = qualify outer.qualifiedName slot.simpleName

def Addressed (s : Store) : Prop := ∀ e slot, s.slot? e = some slot → slot.kind.isType → s.NamedInPlace slot

structure Addresses (s s' : Store) : Prop extends Houses s s' where
  addressed : s.Addressed → s'.Addressed

instance : Movement Addresses where
  trans first second := ⟨Movement.trans first.toHouses second.toHouses, second.addressed ∘ first.addressed⟩
  stay h := ⟨Movement.stay h.toHouses, id⟩

theorem Grown.namedInPlace (move : s.Grown s') (named : s.NamedInPlace slot) {children : List ElementId}
    {state : SlotState} : s'.NamedInPlace { slot with children, state } := by
  obtain ⟨o, outer, place, there, name⟩ := named
  obtain ⟨_, _, there'⟩ := move.slot there
  exact ⟨o, _, place, there', name⟩

theorem Houses.addresses (move : s.Houses s') (new : ∀ e slot, s.slot? e = none → s'.slot? e = some slot →
    slot.kind.isType → s'.NamedInPlace slot) : s.Addresses s' where
  toHouses := move
  addressed addressed e slot found type := by
    cases before : s.slot? e with
    | some slot₀ =>
      obtain ⟨children, state, found'⟩ := move.slot before
      cases found'.symm.trans found
      exact move.namedInPlace (addressed e slot₀ before type)
    | none => exact new e slot before found type

theorem Advances.addresses (move : s.Advances s') : s.Addresses s' := by
  refine move.houses.addresses fun e slot absent found type => ?_
  have listed := (move.sound.typeElements slot.qualifiedName e).mpr ⟨slot, found, type, rfl⟩
  rw [move.moves.typeElements] at listed
  obtain ⟨slot', there, _⟩ := (move.start.typeElements _ e).mp listed
  cases absent.symm.trans there

end Store

theorem Ensures.addresses {α : Type} {s : Store} {m : StoreM α} {P : α → Store → Prop}
    (h : Ensures Store.Advances s m P) : Ensures Store.Addresses s m P := ⟨h.1.addresses, h.2⟩

namespace Store

variable {s s' : Store} {e : ElementId} {slot : Slot}

theorem Sound.rests (h : s.Sound) : s.Addresses s := h.stays.addresses

theorem Sound.grow (h : s.Sound) (consistent : s'.Consistent) (g : s.Grows Nothing s') : s.Grown s' :=
  ⟨h, ⟨consistent, fun e isOpen => (g.opens e isOpen).elim (h.settled e) id⟩, g⟩

def entered (s : Store) (slot : Slot) : Store :=
  let e : ElementId := ⟨s.elements.size⟩
  { s.pushSlot slot with
    modules := NameIndex.enter (· == .module) slot e s.modules
    packages := NameIndex.enter (· == .package) slot e s.packages
    typeElements := NameIndex.enter (·.isType) slot e s.typeElements }

theorem slot?_entered (slot : Slot) (e : ElementId) :
    (s.entered slot).slot? e = if e.index = s.elements.size then some slot else s.slot? e :=
  slot?_push slot

theorem slot?_new (slot : Slot) : (s.entered slot).slot? ⟨s.elements.size⟩ = some slot := by
  rw [slot?_entered, if_pos rfl]

theorem Indexes.enter {p : ElementKind → Bool} {index : NameIndex} (h : s.Indexes p index)
    (free : p slot.kind → index.find? slot.qualifiedName = none) :
    (s.entered slot).Indexes p (NameIndex.enter p slot ⟨s.elements.size⟩ index) := by
  intro name e
  rw [NameIndex.find?_enter, h name e, slot?_entered]
  by_cases new : e.index = s.elements.size
  · have same : (⟨s.elements.size⟩ : ElementId) = e := by rw [← new]
    have absent : s.slot? e = none := same ▸ slot?_at_size
    simp only [if_pos new, absent, reduceCtorEq, false_and, exists_false, false_or, same, and_true,
      Option.some.injEq, exists_eq_left']
    exact ⟨And.right, fun ⟨picked, qualified⟩ => ⟨qualified ▸ free picked, picked, qualified⟩⟩
  · have other : (⟨s.elements.size⟩ : ElementId) ≠ e := fun same => new (same ▸ rfl)
    simp [if_neg new, other]

theorem Sound.enter (h : s.Sound) (plain : ¬ slot.kind.isOwned) (children : slot.children = [])
    (placed : ¬ slot.kind.isContainer →
      ∃ o k, slot.enclosing = some o ∧ s.kind? o = some k ∧ k.admits slot.kind)
    (state : ∃ work, slot.state = .pending work) (fits : (s.entered slot).StateFits ⟨s.elements.size⟩ slot)
    (modules : slot.kind = .module → s.module? slot.qualifiedName = none)
    (packages : slot.kind = .package → s.package? slot.qualifiedName = none)
    (types : slot.kind.isType → s.typeElement? slot.qualifiedName = none)
    (inside : ∀ o ∈ slot.enclosing, s.HasElement o) (named : slot.kind.isType → s.NamedInPlace slot) :
    s.Addresses (s.entered slot) := by
  obtain ⟨work, pending⟩ := state
  have pushed : s.Grows Nothing (s.pushSlot slot) :=
    .push_slot h.toConsistent (fun owned => absurd owned plain) fun completing => by simp [pending] at completing
  have g : s.Grows Nothing (s.entered slot) :=
    { pushed with
      modules := NameIndex.enter_longer (· == .module) slot _ _
      packages := NameIndex.enter_longer (· == .package) slot _ _
      typeElements := NameIndex.enter_longer (·.isType) slot _ _ }
  have owned (o : ElementId) : (s.entered slot).owned o = s.owned o :=
    owned_push_other fun owned => absurd owned plain
  have record (e : ElementId) (r : ElementRecord) (found : (s.entered slot).record? e = some r) :
      s.record? e = some r := by
    obtain ⟨slot', found', state⟩ := record?_eq_some_iff.mp found
    rw [slot?_entered] at found'
    split at found'
    · cases found'
      rw [pending] at state
      cases state
    · exact record?_eq_some_iff.mpr ⟨slot', found', state⟩
  have move (consistent : (s.entered slot).Consistent) : s.Addresses (s.entered slot) := by
    have only {e : ElementId} {slot' : Slot} (absent : s.slot? e = none) (found : (s.entered slot).slot? e = some slot') :
        slot = slot' := by
      rw [slot?_entered, absent] at found
      split at found
      · exact Option.some.inj found
      · cases found
    have grown := h.grow consistent g
    refine (grown.houses fun e slot' absent found _ o enclosing => ?_).addresses fun e slot' absent found type => ?_
    · cases only absent found
      exact g.has_element (inside o enclosing)
    · cases only absent found
      exact grown.namedInPlace (named type)
  refine move (h.enlarge g (fun e slot' found => ?_)
    (fun t shape found => .inr ⟨found, fun e _ r _ => .inl ∘ record e r⟩)
    (h.modules.enter fun picked => modules (eq_of_beq picked))
    (h.packages.enter fun picked => packages (eq_of_beq picked)) (h.typeElements.enter types)
    fun t usage => .inl usage)
  rw [slot?_entered] at found
  split at found
  · rename_i new
    cases found
    have same : e = ⟨s.elements.size⟩ := by rw [← new]
    subst same
    refine .inl ⟨fun free => ?_, by simp [children], fits⟩
    obtain ⟨o, k, enclosing, kind, admits⟩ := placed free
    obtain ⟨outer, there, _⟩ := kind?_eq_some_iff.mp kind
    exact ⟨o, k, enclosing, has_element_iff.mpr ⟨outer, there⟩, g.kind kind, admits⟩
  · exact .inr ⟨found, .inl id, fun _ => owned e⟩

theorem addChild_eq (child : ElementId) (slot : Slot) : ∃ state,
    Slot.addChild child slot = { slot with children := slot.children ++ [child], state } ∧
      (state = slot.state ∨
        (∃ r, slot.state = .complete r) ∧ slot.kind.isContainer ∧ state = .pending .container) := by
  refine ⟨_, rfl, ?_⟩
  cases slot.state with
  | complete r =>
    by_cases container : slot.kind = .module ∨ slot.kind = .package
    · refine .inr ⟨⟨r, rfl⟩, ?_, if_pos container⟩
      rcases container with same | same <;> rw [same] <;> rfl
    · exact .inl (if_neg container)
  | _ => exact .inl rfl

theorem StateFits.restate {children : List ElementId} (fits : s.StateFits e slot) :
    s.StateFits e { slot with children } := by
  unfold StateFits at fits ⊢
  split at fits <;> rename_i state <;> simp only [state]
  · exact fits
  · exact fits
  · exact fits
  · exact RecordFits.restate fits

theorem Sound.addChild_slot (h : s.Sound) (found : s.slot? e = some slot) {child : ElementId}
    {k : ElementKind} (kind : s.kind? child = some k) (free : ¬ k.isOwned) :
    s.Grown (s.updateSlot e (Slot.addChild child)) := by
  have same (slot : Slot) : (Slot.addChild child slot).kind = slot.kind ∧
      (Slot.addChild child slot).enclosing = slot.enclosing := ⟨rfl, rfl⟩
  have fits := h.slots e slot found
  have settled : slot.state ≠ .completing := fun completing => h.settled e ⟨slot, found, completing⟩
  obtain ⟨state, equal, which⟩ := addChild_eq child slot
  have becomes {p : Prop} : slot.Becomes p (Slot.addChild child slot) := by
    refine ⟨_, state, equal, List.prefix_append _ _, ?_⟩
    rcases which with rfl | ⟨⟨r, complete⟩, container, rfl⟩
    · obtain ⟨_, state, again, _, evolves⟩ : slot.Becomes p slot := h.toConsistent.becomes found
      have same : state = slot.state := (congrArg Slot.state again).symm
      rw [same] at evolves
      exact evolves
    · simp [SlotState.Evolves, complete, container]
  have opens : (Slot.addChild child slot).state = .completing → slot.state = .completing ∨ False := by
    rw [equal]
    rcases which with rfl | ⟨_, _, rfl⟩
    · exact .inl
    · nofun
  have g : s.Grows Nothing (s.updateSlot e (Slot.addChild child)) :=
    .update_slot h.toConsistent found same becomes opens
  have owned : (s.updateSlot e (Slot.addChild child)).owned e = s.owned e := owned_update e same
  refine h.grow (h.update_slot found same becomes ?_ fun r complete => ?_) g
  · rw [equal]
    refine ⟨fun free => ?_, fun c mem => ?_, ?_⟩
    · obtain ⟨o, k, enclosing, older, kind, admits⟩ := fits.placed free
      exact ⟨o, k, enclosing, older, g.kind kind, admits⟩
    · rcases List.mem_append.mp mem with mem | mem
      · obtain ⟨k, kind, free⟩ := fits.children c mem
        exact ⟨k, g.kind kind, free⟩
      · rw [List.mem_singleton.mp mem]
        exact ⟨k, g.kind kind, free⟩
    · rcases which with rfl | ⟨⟨r, complete⟩, container, rfl⟩
      · exact (fits.grow g (.inl id) fun _ => owned).state.restate
      · have state := fits.state
        simp only [StateFits, complete] at state
        refine ⟨container, ?_⟩
        change slot.arity = 0
        rw [← state.arity, state.typeParameters, h.ownedOf_container found container, List.length_nil]
  · rw [equal] at complete
    rcases which with rfl | ⟨_, _, rfl⟩
    · exact .inl complete
    · cases complete

theorem Sound.addChild (h : s.Sound) (parent : ElementId) {child : ElementId} {k : ElementKind}
    (kind : s.kind? child = some k) (free : ¬ k.isOwned) : s.Addresses (s.addChild parent child) := by
  change s.Addresses (s.updateSlot parent (Slot.addChild child))
  cases found : s.slot? parent with
  | some slot =>
    have nothing (e : ElementId) (absent : s.slot? e = none) : (s.updateSlot parent (Slot.addChild child)).slot? e = none := by
      rw [slot?_update, absent]
      split <;> rfl
    refine ((h.addChild_slot found kind free).houses fun e _ absent found' => ?_).addresses fun e _ absent found' => ?_
    all_goals cases (nothing e absent).symm.trans found'
  | none =>
    have nothing : s.updateSlot parent (Slot.addChild child) = s := by
      rw [updateSlot]
      congr 1
      refine Array.ext_getElem? fun i => ?_
      rw [Array.getElem?_modify]
      split
      · rename_i here
        rw [← here, show s.elements[parent.index]? = none from found]
        rfl
      · rfl
    rw [nothing]
    exact h.rests

theorem kind?_entered (s : Store) (slot : Slot) : (s.entered slot).kind? ⟨s.elements.size⟩ = some slot.kind :=
  kind?_eq_some_iff.mpr ⟨slot, slot?_new slot, rfl⟩

end Store

namespace StoreM

open Store

variable {s : Store}

theorem enterModule_ensures (h : s.Sound) (name : String) :
    Ensures Addresses s (enterModule name) fun e s' => s'.HasElement e := by
  refine .get ?_
  cases found : s.module? name with
  | some e =>
    obtain ⟨slot, there, _⟩ := (h.modules name e).mp found
    exact .pure h.rests (has_element_iff.mpr ⟨slot, there⟩)
  | none =>
    let slot : Slot :=
      { kind := .module, simpleName := name, qualifiedName := name, state := .pending .container }
    have move : s.Addresses (s.entered slot) :=
      h.enter nofun rfl (fun plain => absurd rfl plain) ⟨_, rfl⟩ ⟨rfl, rfl⟩ (fun _ => found)
        nofun nofun nofun nofun
    exact ⟨move, has_element_iff.mpr ⟨slot, slot?_new slot⟩⟩

theorem enterPackage_ensures (h : s.Sound) {module : Option ElementId} (there : ∀ m ∈ module, s.HasElement m)
    (name : String) : Ensures Addresses s (enterPackage module name) fun e s' => s'.kind? e = some .package := by
  refine .get ?_
  cases found : s.package? name with
  | some e =>
    obtain ⟨slot, listed, kind, _⟩ := (h.packages name e).mp found
    exact .pure h.rests (kind?_eq_some_iff.mpr ⟨slot, listed, eq_of_beq kind⟩)
  | none =>
    let slot : Slot :=
      { kind := .package, simpleName := lastSegment name, qualifiedName := name, enclosing := module
        state := .pending .container }
    have move : s.Addresses (s.entered slot) :=
      h.enter nofun rfl (fun plain => absurd rfl plain) ⟨_, rfl⟩ ⟨rfl, rfl⟩ nofun
        (fun _ => found) nofun there nofun
    have kind := s.kind?_entered slot
    cases module with
    | none => exact ⟨move, kind⟩
    | some m =>
      have again := move.sound.addChild m kind nofun
      exact ⟨Movement.trans move again, again.grows.kind kind⟩

theorem newTypeElement_ensures (h : s.Sound) {o : ElementId} {outer : Slot} (around : s.slot? o = some outer)
    (admits : outer.kind = .package ∨ outer.kind.isType) (header : TypeHeader) (type : header.kind.isType)
    (free : s.typeElement? (qualify outer.qualifiedName header.name) = none) :
    Ensures Addresses s (newTypeElement o (qualify outer.qualifiedName header.name) header) fun e s' =>
      ∃ inner, s'.slot? e = some inner ∧ inner.kind.isType ∧
        inner.qualifiedName = qualify outer.qualifiedName header.name := by
  have kind : s.kind? o = some outer.kind := kind?_eq_some_iff.mpr ⟨outer, around, rfl⟩
  let name := qualify outer.qualifiedName header.name
  let slot : Slot :=
    { kind := header.kind, simpleName := header.name, qualifiedName := name, enclosing := some o
      arity := header.typeParameters.length, state := .pending (.type header) }
  have container : ¬ header.kind.isContainer := ElementKind.isType_not_container type
  have unowned : ¬ header.kind.isOwned := fun owned => ElementKind.isOwned_not_type owned type
  have pushed : (s.entered slot).owned ⟨s.elements.size⟩ = [] :=
    (h.toConsistent.owned_new rfl kind : (s.pushSlot slot).owned _ = [])
  have inside (outer : ElementId) (same : outer ∈ slot.enclosing) : s.HasElement outer := by
    obtain ⟨slot', there, _⟩ := kind?_eq_some_iff.mp kind
    cases same
    exact has_element_iff.mpr ⟨slot', there⟩
  have move : s.Addresses (s.entered slot) := by
    refine h.enter unowned rfl (fun _ => ⟨o, _, rfl, kind, ElementKind.admits_type admits type⟩) ⟨_, rfl⟩
      ⟨type, rfl, rfl, rfl, pushed⟩ (fun same => ?_) (fun same => ?_) (fun _ => free) (fun outer => inside outer)
      fun _ => ⟨o, outer, rfl, around, rfl⟩
    · exact absurd (show header.kind.isContainer by rw [show header.kind = .module from same]; rfl) container
    · exact absurd (show header.kind.isContainer by rw [show header.kind = .package from same]; rfl) container
  have again := move.sound.addChild o (s.kind?_entered slot) unowned
  have run : newTypeElement o name header s =
      (⟨s.elements.size⟩, (s.entered slot).addChild o ⟨s.elements.size⟩) := by
    have types : NameIndex.enter (·.isType) slot ⟨s.elements.size⟩ s.typeElements =
        s.typeElements ++ [(name, ⟨s.elements.size⟩)] := if_pos type
    have modules : NameIndex.enter (· == .module) slot ⟨s.elements.size⟩ s.modules = s.modules := by
      refine if_neg fun same => container ?_
      rw [show header.kind = .module from eq_of_beq same]
      rfl
    have packages : NameIndex.enter (· == .package) slot ⟨s.elements.size⟩ s.packages = s.packages := by
      refine if_neg fun same => container ?_
      rw [show header.kind = .package from eq_of_beq same]
      rfl
    rw [entered, types, modules, packages]
    rfl
  obtain ⟨_, _, new⟩ := again.slot (slot?_new slot)
  rw [Ensures, run]
  exact ⟨Movement.trans move again, _, new, type, rfl⟩

mutual

theorem enterTypeIn_ensures {s : Store} (h : s.Sound) {o : ElementId} {outer : Slot} (around : s.slot? o = some outer)
    (admits : outer.kind = .package ∨ outer.kind.isType) :
    (d : TypeDecl) → Ensures Addresses s (enterTypeIn o outer.qualifiedName d).run fun _ _ => True
  | .mk header nested => by
    rw [enterTypeIn]
    refine .except_guard h.rests (fun _ => trivial) fun type => ?_
    refine .except_get (.except_guard h.rests (fun _ => trivial) fun free => ?_)
    have new := newTypeElement_ensures h around admits header (by simpa using type) (by simpa using free)
    refine new.except_step fun e s' move inner => ?_
    obtain ⟨slot, there, type', name⟩ := inner
    rw [← name]
    refine .except_bind (enterTypesIn_ensures move.sound there (.inr type') nested) (fun _ _ _ => id)
      fun _ s'' move' _ => ?_
    exact .pure move'.sound.rests trivial

theorem enterTypesIn_ensures {s : Store} (h : s.Sound) {o : ElementId} {outer : Slot} (around : s.slot? o = some outer)
    (admits : outer.kind = .package ∨ outer.kind.isType) :
    (ds : List TypeDecl) → Ensures Addresses s (enterTypesIn o outer.qualifiedName ds).run fun _ _ => True
  | [] => .pure h.rests trivial
  | d :: ds => by
    rw [enterTypesIn]
    refine .except_bind (enterTypeIn_ensures h around admits d) (fun _ _ _ => id) fun _ s' move _ => ?_
    obtain ⟨_, _, around'⟩ := move.slot around
    exact enterTypesIn_ensures move.sound around' admits ds

end

theorem enterType_ensures (h : s.Sound) (package : ElementId) (d : TypeDecl) :
    Ensures Addresses s (enterType package d).run fun _ _ => True := by
  refine .except_get ?_
  cases found : s.slot? package with
  | none => exact .pure h.rests trivial
  | some slot =>
    refine .except_guard h.rests (fun _ => trivial) fun kind => ?_
    exact enterTypeIn_ensures h found (.inl (by simpa using kind)) d

theorem enterTypes_ensures (package : ElementId) (ds : List TypeDecl) (h : s.Sound) :
    Ensures Addresses s (enterTypes package ds) fun _ _ => True := by
  induction ds generalizing s with
  | nil => exact .pure h.rests trivial
  | cons d ds ih =>
    rw [enterTypes]
    refine (enterType_ensures h package d).bind fun _ s' move _ => ?_
    exact (ih move.sound).bind fun _ s'' move' _ => .pure move'.sound.rests trivial

theorem enterDeclarations_ensures (h : s.Sound) (p : PackageDecl) :
    Ensures Addresses s (enterDeclarations p) fun _ _ => True := by
  have modules : Ensures Addresses s (p.module.mapM enterModule) fun module s' => ∀ m ∈ module, s'.HasElement m := by
    cases p.module with
    | none => exact .pure h.rests nofun
    | some name =>
      refine .map ((enterModule_ensures h name).imp fun e s' _ there m same => ?_)
      cases same
      exact there
  refine modules.bind fun module s₁ move₁ there => ?_
  refine (enterPackage_ensures move₁.sound there p.package).bind fun package s₂ move₂ _ => ?_
  refine (enterTypes_ensures package p.types move₂.sound).bind fun outcomes s₃ move₃ _ => ?_
  exact .pure move₃.sound.rests trivial

section locals

open Completion

theorem scopeWithin_ensures (h : s.Sound) (e : ElementId) :
    Ensures Advances s (scopeWithin e) fun sc s' => sc.Known s' := by
  refine .get ?_
  refine (h.ensures (visibleVariables_ensures answers_complete (some e) h.toConsistent)).bind
    fun visible s' move known => ?_
  exact .pure move.sound.stays known

theorem enterLocal_ensures (h : s.Sound) (owner : ElementId) (kind : ElementKind) (name : String)
    (type : TypeExpr) : Ensures Addresses s (enterLocal owner kind name type).run fun _ _ => True := by
  unfold enterLocal
  refine .except_guard h.rests (fun _ => trivial) fun isLocal => ?_
  have completed := h.ensures (complete_ensures h.toConsistent owner)
  refine .except_step (Ensures.addresses completed) fun r s₁ move₁ is => ?_
  refine .except_guard move₁.sound.rests (fun _ => trivial) fun executable => ?_
  have executable : r.kind.isExecutable := by simpa using executable
  have outer : s₁.kind? owner = some r.kind := move₁.sound.kind_answered is fun same => by
    rw [same] at executable
    cases executable
  refine .except_step (Ensures.addresses (scopeWithin_ensures move₁.sound owner)) fun sc s₂ move₂ known => ?_
  have resolved := move₂.sound.ensures (ResolveM.resolve_ensures move₂.sound.toConsistent known type)
  refine .except_step (Ensures.addresses resolved) fun ⟨t, sc'⟩ s₃ move₃ hasType => ?_
  have there := move₃.grows.kind (move₂.grows.kind outer)
  have isLocal : kind.isLocal := by simpa using isLocal
  have unowned : ¬ kind.isOwned := by
    revert isLocal
    cases kind <;> decide
  have unqualified : ¬ kind.isQualified := by
    revert isLocal
    cases kind <;> decide
  have admits : r.kind.admits kind := by
    revert isLocal executable
    cases kind <;> simp [ElementKind.isLocal, ElementKind.admits]
  let record (id : ElementId) : ElementRecord :=
    { id, kind, simpleName := name, enclosing := some owner, asType := t, nesting := .body
      erroneous := 0 < sc'.unresolved }
  have added := move₃.sound.ensures (m := newComplete record)
    (newComplete_ensures move₃.sound.toConsistent rfl rfl rfl rfl unqualified (fun same => ?_) rfl there admits
      hasType.1 fun owned => absurd owned unowned)
  · refine .except_step (Ensures.addresses added) fun e s₄ move₄ new => ?_
    have child := move₄.sound.addChild owner new.2.2.1 unowned
    exact ⟨child, trivial⟩
  · rw [show kind = .typeParameter from same] at isLocal
    cases isLocal

end locals

end StoreM

end Nominal
