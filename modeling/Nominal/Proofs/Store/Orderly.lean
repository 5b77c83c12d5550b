import Mathlib.Data.Finset.Card
import Nominal.Proofs.Store.Keeping
/-!
What is said of an element when it is entered, the records that agree with it, and how many elements still
wait for their completion. None of this needs a consistent store either.
-/

namespace Nominal

def Slot.heading (slot : Slot) : Slot := { slot with children := [], state := .completing }

/-- The record says of `e` what was said when it was entered. -/
structure ElementRecord.Describes (r : ElementRecord) (e : ElementId) (slot : Slot) : Prop where
  id : r.id = e
  kind : r.kind = slot.kind
  simpleName : r.simpleName = slot.simpleName
  qualifiedName : r.qualifiedName = slot.qualifiedName
  enclosing : r.enclosing = slot.enclosing
  arity : r.typeParameters.length = slot.arity

/-- The header of a declaration says what was said when its element was entered. -/
structure TypeHeader.Announces (h : TypeHeader) (slot : Slot) : Prop where
  isType : h.kind.isType
  kind : h.kind = slot.kind
  name : h.name = slot.simpleName
  arity : h.typeParameters.length = slot.arity

/-- Containers are not generic, and headers and records agree with what was said on entry. -/
structure Slot.Orderly (e : ElementId) (slot : Slot) : Prop where
  bare : slot.kind.isContainer ∨ slot.state = .pending .container → slot.arity = 0
  announced : ∀ h, slot.state = .pending (.type h) → h.Announces slot
  described : ∀ r, slot.state = .complete r → r.Describes e slot

def Slot.isPending (slot : Slot) : Bool :=
  match slot.state with
  | .pending _ => true
  | _ => false

theorem Slot.kind_of_heading {a b : Slot} (same : a.heading = b.heading) : a.kind = b.kind :=
  (congrArg Slot.kind same :)

theorem Slot.enclosing_of_heading {a b : Slot} (same : a.heading = b.heading) : a.enclosing = b.enclosing :=
  (congrArg Slot.enclosing same :)

theorem Slot.simpleName_of_heading {a b : Slot} (same : a.heading = b.heading) : a.simpleName = b.simpleName :=
  (congrArg Slot.simpleName same :)

theorem Slot.qualifiedName_of_heading {a b : Slot} (same : a.heading = b.heading) : a.qualifiedName = b.qualifiedName :=
  (congrArg Slot.qualifiedName same :)

theorem ElementRecord.Describes.congr {r : ElementRecord} {e : ElementId} {a b : Slot} (h : r.Describes e a)
    (same : a.heading = b.heading) : r.Describes e b where
  id := h.id
  kind := h.kind.trans (Slot.kind_of_heading same)
  simpleName := h.simpleName.trans (Slot.simpleName_of_heading same)
  qualifiedName := h.qualifiedName.trans (Slot.qualifiedName_of_heading same)
  enclosing := h.enclosing.trans (Slot.enclosing_of_heading same)
  arity := h.arity.trans (congrArg Slot.arity same :)

theorem Slot.Orderly.publish {e : ElementId} {slot : Slot} {r : ElementRecord} (h : slot.Orderly e)
    (describes : r.Describes e slot) : { slot with state := .complete r }.Orderly e where
  bare container := h.bare (container.imp_right nofun)
  announced _ := nofun
  described r' same := by
    cases same
    exact ⟨describes.id, describes.kind, describes.simpleName, describes.qualifiedName, describes.enclosing,
      describes.arity⟩

namespace Store

/-- The element may have types or executables in it. -/
def Encloses (s : Store) (o : ElementId) : Prop :=
  ∃ slot, s.slot? o = some slot ∧ (slot.kind = .package ∨ slot.kind.isParameterizable)

/-- Whoever walks outward from a type or executable comes to older ones until there is a package. -/
structure Orderly (s : Store) : Prop where
  slots : ∀ e slot, s.slot? e = some slot → slot.Orderly e
  placed : ∀ e slot o, s.slot? e = some slot → slot.kind.isParameterizable → slot.enclosing = some o →
    o.index < e.index ∧ s.Encloses o

def isPending (s : Store) (e : ElementId) : Bool := (s.slot? e).any (·.isPending)

/-- The elements that wait for their completion. -/
def waiting (s : Store) : Finset ElementId := (s.ids.filter s.isPending).toFinset

def SameHeadings (s s' : Store) : Prop :=
  ∀ e slot, s.slot? e = some slot → ∃ slot', s'.slot? e = some slot' ∧ slot'.heading = slot.heading

/-- The store has moved from `s` to `s'`, in accordance with all that was said on entry. -/
structure Follows (s s' : Store) : Prop where
  headings : s.SameHeadings s'
  orderly : s.Orderly → s'.Orderly

/-- On the way from `s` to `s'` nothing came to wait, and what waits no longer was counted. -/
structure Accounts (s s' : Store) : Prop extends Follows s s' where
  waiting : s'.waiting ⊆ s.waiting
  account : s'.completions + s'.waiting.card = s.completions + s.waiting.card

section relation

variable {s s' s'' : Store} {e : ElementId} {slot : Slot}

theorem mem_waiting : e ∈ s.waiting ↔ s.isPending e := by
  simp only [waiting, List.mem_toFinset, List.mem_filter, mem_ids, has_element_iff, and_iff_right_iff_imp]
  intro pending
  obtain ⟨slot, found, _⟩ := (Option.any_eq_true _ _).mp pending
  exact ⟨slot, found⟩

theorem isPending_of_slot (found : s.slot? e = some slot) : s.isPending e = slot.isPending := by
  rw [isPending, found, Option.any_some]

theorem SameHeadings.trans (first : s.SameHeadings s') (second : s'.SameHeadings s'') : s.SameHeadings s'' := by
  intro e slot found
  obtain ⟨slot', found', same⟩ := first e slot found
  obtain ⟨slot'', found'', same'⟩ := second e slot' found'
  exact ⟨slot'', found'', same'.trans same⟩

theorem SameHeadings.kind (same : s.SameHeadings s') {k : ElementKind} (known : s.kind? e = some k) : s'.kind? e = some k := by
  obtain ⟨slot, found, rfl⟩ := kind?_eq_some_iff.mp known
  obtain ⟨slot', found', heading⟩ := same e slot found
  exact kind?_eq_some_iff.mpr ⟨slot', found', Slot.kind_of_heading heading⟩

theorem SameHeadings.encloses (same : s.SameHeadings s') (encloses : s.Encloses e) : s'.Encloses e := by
  obtain ⟨slot, found, kind⟩ := encloses
  obtain ⟨slot', found', heading⟩ := same e slot found
  exact ⟨slot', found', by rwa [Slot.kind_of_heading heading]⟩

theorem Encloses.there (encloses : s.Encloses e) : s.HasElement e := by
  obtain ⟨slot, found, _⟩ := encloses
  exact has_element_iff.mpr ⟨slot, found⟩

theorem Orderly.move (orderly : s.Orderly) (same : s.SameHeadings s')
    (slots : ∀ e slot', s'.slot? e = some slot' → ∃ slot, s.slot? e = some slot ∧ slot'.heading = slot.heading ∧
      slot'.Orderly e) : s'.Orderly where
  slots e slot' found := by
    obtain ⟨_, _, _, fits⟩ := slots e slot' found
    exact fits
  placed e slot' o found generic enclosing := by
    obtain ⟨slot, old, heading, _⟩ := slots e slot' found
    rw [Slot.kind_of_heading heading] at generic
    rw [Slot.enclosing_of_heading heading] at enclosing
    obtain ⟨older, encloses⟩ := orderly.placed e slot o old generic enclosing
    exact ⟨older, same.encloses encloses⟩

theorem Follows.refl (s : Store) : s.Follows s := ⟨fun _ slot found => ⟨slot, found, rfl⟩, id⟩

theorem Follows.trans (first : s.Follows s') (second : s'.Follows s'') : s.Follows s'' where
  headings := first.headings.trans second.headings
  orderly := second.orderly ∘ first.orderly

theorem Follows.there (follows : s.Follows s') (there : s.HasElement e) : s'.HasElement e := by
  obtain ⟨slot, found⟩ := has_element_iff.mp there
  obtain ⟨slot', found', _⟩ := follows.headings e slot found
  exact has_element_iff.mpr ⟨slot', found'⟩

theorem Accounts.refl (s : Store) : s.Accounts s := ⟨.refl s, Finset.Subset.refl _, rfl⟩

theorem Accounts.trans (first : s.Accounts s') (second : s'.Accounts s'') : s.Accounts s'' where
  toFollows := first.toFollows.trans second.toFollows
  waiting := second.waiting.trans first.waiting
  account := second.account.trans first.account

theorem Accounts.closed (accounts : s.Accounts s') (other : ¬ s.isPending e) : ¬ s'.isPending e :=
  fun pending => other (mem_waiting.mp (accounts.waiting (mem_waiting.mpr pending)))

end relation

section primitives

variable {s s' : Store} {e : ElementId} {slot : Slot}

theorem follows_aside (elements : s'.elements = s.elements) : s.Follows s' := by
  have slots (e : ElementId) : s'.slot? e = s.slot? e := by rw [slot?, elements, slot?]
  have same : s.SameHeadings s' := fun e slot found => ⟨slot, by rw [slots, found], rfl⟩
  refine ⟨same, fun orderly => orderly.move same fun e slot found => ?_⟩
  rw [slots] at found
  exact ⟨slot, found, rfl, orderly.slots e slot found⟩

theorem waiting_congr (elements : s'.elements = s.elements) : s'.waiting = s.waiting := by
  ext e
  rw [mem_waiting, mem_waiting, isPending, slot?, elements, isPending, slot?]

theorem accounts_aside (elements : s'.elements = s.elements) (completions : s'.completions = s.completions) :
    s.Accounts s' :=
  ⟨follows_aside elements, (waiting_congr elements).subset, by rw [completions, waiting_congr elements]⟩

theorem follows_pushSlot (fits : slot.Orderly ⟨s.elements.size⟩)
    (placed : s.Orderly → slot.kind.isParameterizable → ∀ o, slot.enclosing = some o → s.Encloses o) :
    s.Follows (s.pushSlot slot) := by
  have same : s.SameHeadings (s.pushSlot slot) := by
    intro e old found
    have there : e.index < s.elements.size := has_element_iff.mpr ⟨old, found⟩
    exact ⟨old, by rw [slot?_push, if_neg (Nat.ne_of_lt there), found], rfl⟩
  refine ⟨same, fun orderly => ⟨fun e slot' found => ?_, fun e slot' o found generic enclosing => ?_⟩⟩
  all_goals
    rw [slot?_push] at found
    split at found <;> rename_i last
  · cases found
    cases e
    cases last
    exact fits
  · exact orderly.slots e slot' found
  · cases found
    have encloses := placed orderly generic o enclosing
    exact ⟨last ▸ encloses.there, same.encloses encloses⟩
  · obtain ⟨older, encloses⟩ := orderly.placed e slot' o found generic enclosing
    exact ⟨older, same.encloses encloses⟩

theorem waiting_pushSlot (settled : ¬ slot.isPending) : (s.pushSlot slot).waiting = s.waiting := by
  ext e
  rw [mem_waiting, mem_waiting, isPending, slot?_push, isPending]
  split <;> rename_i last
  · have absent : s.slot? e = none := by
      cases e
      cases last
      exact slot?_at_size
    simp [absent, settled]
  · rfl

theorem accounts_pushSlot (fits : slot.Orderly ⟨s.elements.size⟩)
    (placed : s.Orderly → slot.kind.isParameterizable → ∀ o, slot.enclosing = some o → s.Encloses o)
    (settled : ¬ slot.isPending) : s.Accounts (s.pushSlot slot) :=
  ⟨follows_pushSlot fits placed, (waiting_pushSlot settled).subset, by rw [waiting_pushSlot settled]; rfl⟩

theorem headings_updateSlot {f : Slot → Slot} (same : ∀ slot, (f slot).heading = slot.heading) :
    s.SameHeadings (s.updateSlot e f) := by
  intro e' slot found
  rw [slot?_update]
  split <;> rename_i here
  · subst here
    exact ⟨f slot, by rw [found, Option.map_some], same slot⟩
  · exact ⟨slot, found, rfl⟩

theorem follows_updateSlot {f : Slot → Slot} (same : ∀ slot, (f slot).heading = slot.heading)
    (kept : s.Orderly → ∀ slot, s.slot? e = some slot → (f slot).Orderly e) : s.Follows (s.updateSlot e f) := by
  refine ⟨headings_updateSlot same, fun orderly => orderly.move (headings_updateSlot same) fun e' slot' found => ?_⟩
  rw [slot?_update] at found
  split at found <;> rename_i here
  · subst here
    obtain ⟨slot, old, rfl⟩ := Option.map_eq_some_iff.mp found
    exact ⟨slot, old, same slot, kept orderly slot old⟩
  · exact ⟨slot', found, rfl, orderly.slots e' slot' found⟩

theorem isPending_setState {state : SlotState} (found : s.slot? e = some slot) (e' : ElementId) :
    (s.setState e state).isPending e' =
      if e' = e then { slot with state }.isPending else s.isPending e' := by
  change (s.updateSlot e _).isPending e' = _
  rw [isPending, slot?_update]
  split <;> rename_i here
  · rw [here, found, Option.map_some, Option.any_some]
  · rw [isPending]

theorem waiting_publish {r : ElementRecord} (found : s.slot? e = some slot) (settled : ¬ slot.isPending) :
    (s.setState e (.complete r)).waiting = s.waiting := by
  ext e'
  rw [mem_waiting, mem_waiting, isPending_setState found]
  split <;> rename_i here
  · rw [here, isPending_of_slot found]
    simp only [Bool.not_eq_true] at settled
    rw [settled]
    rfl
  · rfl

theorem waiting_begin (found : s.slot? e = some slot) : (s.setState e .completing).waiting = s.waiting.erase e := by
  ext e'
  rw [mem_waiting, Finset.mem_erase, mem_waiting, isPending_setState found]
  split <;> rename_i here
  · simp [here, Slot.isPending]
  · simp [here]

theorem follows_publish {r : ElementRecord} (found : s.slot? e = some slot)
    (describes : r.Describes e slot) : s.Follows (s.setState e (.complete r)) := by
  refine follows_updateSlot (fun _ => rfl) fun all slot' again => ?_
  cases found.symm.trans again
  exact (all.slots e slot found).publish describes

theorem accounts_publish {r : ElementRecord} (found : s.slot? e = some slot) (describes : r.Describes e slot)
    (settled : ¬ slot.isPending) : s.Accounts (s.setState e (.complete r)) :=
  ⟨follows_publish found describes, (waiting_publish found settled).subset,
    by rw [waiting_publish found settled]; rfl⟩

theorem follows_begin : s.Follows (s.setState e .completing) := by
  refine follows_updateSlot (fun _ => rfl) fun all slot found => ?_
  have orderly := all.slots e slot found
  exact ⟨fun container => orderly.bare (container.imp_right nofun), fun _ => nofun, fun _ => nofun⟩

theorem addChild_state (child : ElementId) (slot : Slot) :
    (Slot.addChild child slot).state = slot.state ∨
      slot.kind.isContainer ∧ (Slot.addChild child slot).state = .pending .container := by
  simp only [Slot.addChild]
  split
  · rename_i r done
    split <;> rename_i kind
    · exact .inr ⟨by rcases kind with kind | kind <;> rw [kind] <;> rfl, rfl⟩
    · exact .inl done.symm
  · exact .inl rfl

theorem follows_addChild (parent child : ElementId) : s.Follows (s.addChild parent child) := by
  refine follows_updateSlot (fun _ => rfl) fun all slot found => ?_
  have orderly := all.slots parent slot found
  rcases addChild_state child slot with same | ⟨container, again⟩
  · refine ⟨fun bare => orderly.bare (by rwa [same] at bare), fun h waits => ?_, fun r done => ?_⟩
    · obtain ⟨isType, kind, name, arity⟩ := orderly.announced h (same.symm.trans waits)
      exact ⟨isType, kind, name, arity⟩
    · exact (orderly.described r (same.symm.trans done)).congr rfl
  · exact ⟨fun _ => orderly.bare (.inl container), fun h waits => by simp [again] at waits,
      fun r done => by simp [again] at done⟩

theorem accounts_served {s₂ : Store} {r : ElementRecord} (found : s.slot? e = some slot) (waits : slot.isPending)
    (inside : (s.setState e .completing).Accounts s₂) (describes : r.Describes e slot) :
    s.Accounts ({ s₂ with completions := s₂.completions + 1 }.setState e (.complete r)) := by
  let s₃ : Store := { s₂ with completions := s₂.completions + 1 }
  have counted : s₂.Follows s₃ := follows_aside rfl
  have toThird : s.Follows s₃ := follows_begin.trans (inside.toFollows.trans counted)
  obtain ⟨slot₃, found₃, same⟩ := toThird.headings e slot found
  have mine : e ∈ s.waiting := mem_waiting.mpr (by rw [isPending_of_slot found, waits])
  have fewer : s₃.waiting ⊆ s.waiting.erase e := by
    rw [← waiting_begin found]
    exact (waiting_congr rfl).subset.trans inside.waiting
  have settled : ¬ slot₃.isPending := by
    rw [← isPending_of_slot found₃, ← mem_waiting]
    exact fun later => (Finset.mem_erase.mp (fewer later)).1 rfl
  have last : (s₃.setState e (.complete r)).waiting = s₃.waiting := waiting_publish found₃ settled
  refine ⟨toThird.trans (follows_publish found₃ (describes.congr same.symm)), ?_, ?_⟩
  · rw [last]
    exact fewer.trans (Finset.erase_subset _ _)
  · have account := inside.account
    rw [waiting_begin found, Finset.card_erase_of_mem mine] at account
    have some : 0 < s.waiting.card := Finset.card_pos.mpr ⟨e, mine⟩
    rw [last]
    change s₂.completions + 1 + s₂.waiting.card = _
    change s₂.completions + s₂.waiting.card = s.completions + (s.waiting.card - 1) at account
    omega

end primitives

theorem Consistent.orderly {s : Store} (h : s.Consistent) : s.Orderly where
  slots e slot found := by
    have fits := (h.slots e slot found).state
    refine ⟨fun container => ?_, fun header state => ?_, fun r state => ?_⟩
    · unfold StateFits at fits
      split at fits
      · exact fits.2
      · rename_i state
        refine absurd (container.resolve_right (by simp [state])) (ElementKind.isType_not_container fits.1)
      · rename_i state
        exact absurd (container.resolve_right (by simp [state])) fits
      · rename_i r state
        have isContainer := container.resolve_right (by simp [state])
        rw [← fits.arity, fits.typeParameters, h.ownedOf_container found isContainer, List.length_nil]
    · simp only [StateFits, state] at fits
      obtain ⟨isType, kind, name, arity, _⟩ := fits
      exact ⟨kind ▸ isType, kind, name, arity⟩
    · simp only [StateFits, state] at fits
      exact ⟨fits.id, fits.kind, fits.simpleName, fits.qualifiedName, fits.enclosing, fits.arity⟩
  placed e slot o found generic enclosing := by
    have plain : ¬ slot.kind.isContainer := ElementKind.parameterizable_not_container generic
    obtain ⟨o', k, enclosing', older, kind, admits⟩ := (h.slots e slot found).placed plain
    cases enclosing.symm.trans enclosing'
    obtain ⟨outer, there, rfl⟩ := kind?_eq_some_iff.mp kind
    exact ⟨older, outer, there, ElementKind.encloses_of_admits admits generic⟩

end Store

end Nominal
