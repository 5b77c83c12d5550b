import Nominal.Proofs.Store.Nested
/-!
A completion may find fault with what was declared. Whatever is wrong in a store is told by the record of some type
that is complete, or was counted by a completion that goes on; and no module or package is completed on the way.
-/

namespace Nominal

open Store

namespace Store

def Plain (s : Store) (e : ElementId) : Prop := ∃ k, s.kind? e = some k ∧ ¬ k.isContainer

structure Clean (s : Store) : Prop where
  shapes : ∀ t name, s.shape? t ≠ some (.error name)
  records : ∀ e r, s.record? e = some r → r.erroneous = false

def Blamed (s : Store) : Prop := ∃ e r k, s.record? e = some r ∧ r.erroneous ∧ s.kind? e = some k ∧ k.isType

/-- Modules and packages are only found where one looks for them. -/
structure Regular (s : Store) : Prop where
  containers : ∀ e slot, s.slot? e = some slot → slot.state = .pending .container → slot.kind.isContainer
  types : ∀ e slot h, s.slot? e = some slot → slot.state = .pending (.type h) → slot.kind.isType
  listed : ∀ name e, s.typeElement? name = some e → s.Plain e
  shapes : ∀ t shape e, s.shape? t = some shape → shape.element? = some e → s.Plain e
  records : ∀ e r p, s.record? e = some r → p ∈ r.typeParameters → s.Plain p

/-- On the way from `s` to `s'` modules and packages were left alone, and whatever went wrong is told by the record
of some type unless it was counted. -/
structure Proceeds (n : Nat) (s s' : Store) : Prop where
  regular : s'.Regular
  headings : s.SameHeadings s'
  containers : ∀ e slot, slot.kind.isContainer → (s'.slot? e = some slot ↔ s.slot? e = some slot)
  blamed : s.Blamed → s'.Blamed
  clean : s.Clean → s'.Clean ∨ s'.Blamed ∨ 0 < n

variable {s s' s'' : Store} {e : ElementId} {n m : Nat} {slot : Slot} {k : ElementKind}

theorem SameHeadings.plain (same : s.SameHeadings s') (plain : s.Plain e) : s'.Plain e := by
  obtain ⟨k, known, free⟩ := plain
  exact ⟨k, same.kind known, free⟩

theorem Consistent.regular (h : s.Consistent) : s.Regular where
  containers e slot found state := by
    have fits := (h.slots e slot found).state
    simp only [StateFits, state] at fits
    exact fits.1
  types e slot header found state := by
    have fits := (h.slots e slot found).state
    simp only [StateFits, state] at fits
    exact fits.1
  listed name e found := by
    obtain ⟨slot, there, isType, _⟩ := (h.typeElements name e).mp found
    exact ⟨slot.kind, kind?_eq_some_iff.mpr ⟨slot, there, rfl⟩, ElementKind.isType_not_container isType⟩
  shapes t shape e found element := by
    have fits := h.shapes t shape found
    cases shape with
    | declared o e' args =>
      cases element
      obtain ⟨k, kind, isType⟩ := (fits.declared _ _ _ rfl).1
      exact ⟨k, kind, ElementKind.isType_not_container isType⟩
    | typeVariable e' upper =>
      cases element
      exact ⟨_, (fits.typeVariable _ _ rfl).1, by simp [ElementKind.isContainer]⟩
    | _ => cases element
  records e r p complete mem := by
    obtain ⟨slot, found, state⟩ := record?_eq_some_iff.mp complete
    have fits := (h.slots e slot found).state
    simp only [StateFits, state] at fits
    rw [fits.typeParameters] at mem
    obtain ⟨slot', found', owned, _, isParameter⟩ := mem_ownedOf.mp mem
    refine ⟨slot'.kind, kind?_eq_some_iff.mpr ⟨slot', found', rfl⟩, ElementKind.isOwned_not_container owned⟩

theorem Regular.proceeds (h : s.Regular) (n : Nat) : s.Proceeds n s :=
  ⟨h, fun _ slot found => ⟨slot, found, rfl⟩, fun _ _ _ => Iff.rfl, id, .inl⟩

theorem Proceeds.trans (first : s.Proceeds n s') (second : s'.Proceeds m s'') : s.Proceeds (n + m) s'' where
  regular := second.regular
  headings := first.headings.trans second.headings
  containers e slot container := (second.containers e slot container).trans (first.containers e slot container)
  blamed := second.blamed ∘ first.blamed
  clean fine := by
    rcases first.clean fine with fine | blamed | counted
    · exact (second.clean fine).imp_right (Or.imp_right (Nat.add_pos_right n))
    · exact .inr (.inl (second.blamed blamed))
    · exact .inr (.inr (Nat.add_pos_left counted m))

section primitives

theorem Regular.aside (h : s.Regular) (elements : s'.elements = s.elements) (types : s'.types = s.types)
    (indexes : s'.typeElements = s.typeElements) : s.Proceeds 0 s' := by
  have slots (e : ElementId) : s'.slot? e = s.slot? e := by rw [slot?, elements, slot?]
  have kinds (e : ElementId) : s'.kind? e = s.kind? e := by rw [kind?, slots, kind?]
  have records (e : ElementId) : s'.record? e = s.record? e := by rw [record?, slots, record?]
  have shapes (t : TypeId) : s'.shape? t = s.shape? t := by rw [shape?, types, shape?]
  have plain (e : ElementId) (plain : s.Plain e) : s'.Plain e := by rwa [Plain, kinds]
  refine ⟨⟨?_, ?_, ?_, ?_, ?_⟩, ?_, ?_, ?_, fun fine => .inl ⟨?_, ?_⟩⟩
  · simpa only [slots] using h.containers
  · simpa only [slots] using h.types
  · intro name e found
    rw [typeElement?, indexes] at found
    exact plain e (h.listed name e found)
  · intro t shape e found element
    rw [shapes] at found
    exact plain e (h.shapes t shape e found element)
  · intro e r p complete mem
    rw [records] at complete
    exact plain p (h.records e r p complete mem)
  · exact fun e slot found => ⟨slot, by rw [slots, found], rfl⟩
  · exact fun e slot _ => by rw [slots]
  · rintro ⟨e, r, k, complete, wrong, kind, isType⟩
    exact ⟨e, r, k, by rwa [records], wrong, by rwa [kinds], isType⟩
  · simpa only [shapes] using fine.shapes
  · simpa only [records] using fine.records

theorem Regular.pushType (h : s.Regular) {shape : TypeShape} (element : ∀ e, shape.element? = some e → s.Plain e)
    (counted : ∀ name, shape = .error name → 0 < n) : s.Proceeds n (s.pushType shape) where
  regular :=
    { h with
      shapes := fun t shape' e found known => by
        rw [shape?_push] at found
        split at found
        · cases found
          exact element e known
        · exact h.shapes t shape' e found known }
  headings _ slot found := ⟨slot, found, rfl⟩
  containers _ _ _ := Iff.rfl
  blamed := id
  clean fine := by
    refine or_iff_not_imp_right.mpr fun none => ⟨fun t name found => ?_, fine.records⟩
    rw [shape?_push] at found
    split at found
    · exact none (.inr (counted name (Option.some.inj found)))
    · exact fine.shapes t name found

theorem Regular.setVariable (h : s.Regular) (plain : s.Plain e) (t upper : TypeId) :
    s.Proceeds 0 (s.updateShape t (.typeVariable e upper)) := by
  have shapes {t' : TypeId} {shape : TypeShape} (found : (s.updateShape t (.typeVariable e upper)).shape? t' = some shape) :
      shape = .typeVariable e upper ∨ s.shape? t' = some shape := by
    rw [shape?, Store.updateShape, Array.getElem?_setIfInBounds] at found
    split at found
    · split at found
      · exact .inl (Option.some.inj found).symm
      · cases found
    · exact .inr found
  refine ⟨{ h with shapes := fun t' shape e' found element => ?_ }, fun _ slot found => ⟨slot, found, rfl⟩,
    fun _ _ _ => Iff.rfl, id, fun fine => .inl ⟨fun t' name found => ?_, fine.records⟩⟩
  · rcases shapes found with rfl | old
    · cases element
      exact plain
    · exact h.shapes t' shape e' old element
  · rcases shapes found with same | old
    · cases same
    · exact fine.shapes t' name old

theorem Regular.pushSlot (h : s.Regular) (plain : ¬ slot.kind.isContainer)
    (state : slot.state = .completing ∨ ∃ r, slot.state = .complete r ∧ r.erroneous = false ∧ r.typeParameters = []) :
    s.Proceeds 0 (s.pushSlot slot) := by
  have old {e : ElementId} {slot' : Slot} (found : s.slot? e = some slot') : (s.pushSlot slot).slot? e = some slot' := by
    rw [slot?_push, if_neg (Nat.ne_of_lt (has_element_iff.mpr ⟨slot', found⟩)), found]
  have cases_ {e : ElementId} {slot' : Slot} (found : (s.pushSlot slot).slot? e = some slot') :
      slot' = slot ∨ s.slot? e = some slot' := by
    rw [slot?_push] at found
    split at found
    · exact .inl (Option.some.inj found).symm
    · exact .inr found
  have headings : s.SameHeadings (s.pushSlot slot) := fun e slot' found => ⟨slot', old found, rfl⟩
  have records {e : ElementId} {r : ElementRecord} (complete : (s.pushSlot slot).record? e = some r) :
      (r.erroneous = false ∧ r.typeParameters = []) ∨ s.record? e = some r := by
    obtain ⟨slot', found, done⟩ := record?_eq_some_iff.mp complete
    rcases cases_ found with rfl | found
    · rcases state with busy | ⟨r', done', fine⟩
      · cases busy.symm.trans done
      · cases done'.symm.trans done
        exact .inl fine
    · exact .inr (record?_eq_some_iff.mpr ⟨slot', found, done⟩)
  have waits {work : Pending} (pending : slot.state = .pending work) : False := by
    rcases state with busy | ⟨r, done, _⟩
    · cases busy.symm.trans pending
    · cases done.symm.trans pending
  refine ⟨⟨?_, ?_, ?_, ?_, ?_⟩, headings, fun e slot' container => ⟨fun found => ?_, old⟩, ?_, fun fine => .inl ⟨fine.shapes, ?_⟩⟩
  · intro e slot' found pending
    rcases cases_ found with rfl | found
    · exact (waits pending).elim
    · exact h.containers e slot' found pending
  · intro e slot' header found pending
    rcases cases_ found with rfl | found
    · exact (waits pending).elim
    · exact h.types e slot' header found pending
  · exact fun name e found => headings.plain (h.listed name e found)
  · exact fun t shape e found element => headings.plain (h.shapes t shape e found element)
  · intro e r p complete mem
    rcases records complete with ⟨_, none⟩ | complete
    · rw [none] at mem
      cases mem
    · exact headings.plain (h.records e r p complete mem)
  · rcases cases_ found with rfl | found
    · exact absurd container plain
    · exact found
  · rintro ⟨e, r, k, complete, wrong, kind, isType⟩
    obtain ⟨slot', found, done⟩ := record?_eq_some_iff.mp complete
    exact ⟨e, r, k, record?_eq_some_iff.mpr ⟨slot', old found, done⟩, wrong, headings.kind kind, isType⟩
  · intro e r complete
    rcases records complete with ⟨fine, _⟩ | complete
    · exact fine
    · exact fine.records e r complete

theorem Proceeds.turn (p : s.Proceeds n s') {state : SlotState} (known : s'.kind? e = some k) (plain : ¬ k.isContainer)
    (begun : ∀ work, state ≠ .pending work)
    (parameters : ∀ r, state = .complete r → ∀ p ∈ r.typeParameters, s'.Plain p)
    (tells : ∀ r, state = .complete r → r.erroneous → 0 < n) (first : k.isType → s'.record? e = none) :
    s.Proceeds n (s'.setState e state) := by
  have updated (e' : ElementId) : (s'.setState e state).slot? e' =
      if e' = e then (s'.slot? e').map ({ · with state }) else s'.slot? e' := slot?_update
  have headings : s'.SameHeadings (s'.setState e state) := headings_updateSlot fun _ => rfl
  have records {e' : ElementId} {r : ElementRecord} (complete : (s'.setState e state).record? e' = some r) :
      state = .complete r ∨ s'.record? e' = some r := by
    obtain ⟨slot, found, done⟩ := record?_eq_some_iff.mp complete
    rw [updated] at found
    split at found
    · obtain ⟨_, _, rfl⟩ := Option.map_eq_some_iff.mp found
      exact .inl done
    · exact .inr (record?_eq_some_iff.mpr ⟨slot, found, done⟩)
  have pending {e' : ElementId} {slot : Slot} {work : Pending} (found : (s'.setState e state).slot? e' = some slot)
      (waits : slot.state = .pending work) : s'.slot? e' = some slot := by
    rw [updated] at found
    split at found
    · obtain ⟨_, _, rfl⟩ := Option.map_eq_some_iff.mp found
      exact absurd waits (begun work)
    · exact found
  have blamed (blame : s'.Blamed) : (s'.setState e state).Blamed := by
    obtain ⟨e', r, k', complete, wrong, kind, isType⟩ := blame
    have other : e' ≠ e := by
      rintro rfl
      cases known.symm.trans kind
      cases (first isType).symm.trans complete
    obtain ⟨slot, found, done⟩ := record?_eq_some_iff.mp complete
    refine ⟨e', r, k', record?_eq_some_iff.mpr ⟨slot, ?_, done⟩, wrong, headings.kind kind, isType⟩
    rw [updated, if_neg other, found]
  have h := p.regular
  refine ⟨⟨?_, ?_, ?_, ?_, ?_⟩, p.headings.trans headings, fun e' slot container => ?_, ?_, ?_⟩
  · exact fun e' slot found waits => h.containers e' slot (pending found waits) waits
  · exact fun e' slot header found waits => h.types e' slot header (pending found waits) waits
  · exact fun name e' found => headings.plain (h.listed name e' found)
  · exact fun t shape e' found element => headings.plain (h.shapes t shape e' found element)
  · intro e' r q complete mem
    rcases records complete with same | complete
    · exact headings.plain (parameters r same q mem)
    · exact headings.plain (h.records e' r q complete mem)
  · rw [← p.containers e' slot container, updated]
    split <;> rename_i here
    · subst here
      obtain ⟨slot', found, rfl⟩ := kind?_eq_some_iff.mp known
      rw [found]
      constructor
      · rintro ⟨⟩
        exact absurd container plain
      · rintro ⟨⟩
        exact absurd container plain
    · rfl
  · exact fun blame => blamed (p.blamed blame)
  · intro fine
    rcases p.clean fine with fine | blame | counted
    · refine or_iff_not_imp_right.mpr fun none => ⟨fine.shapes, fun e' r complete => ?_⟩
      rcases records complete with same | complete
      · by_contra wrong
        exact none (.inr (tells r same (by simpa using wrong)))
      · exact fine.records e' r complete
    · exact .inr (.inl (blamed blame))
    · exact .inr (.inr counted)

theorem Proceeds.publish (p : s.Proceeds n s') {r : ElementRecord} (known : s'.kind? r.id = some k)
    (plain : ¬ k.isContainer) (parameters : ∀ p ∈ r.typeParameters, s'.Plain p) (tells : r.erroneous → 0 < n)
    (first : k.isType → s'.record? r.id = none) : s.Proceeds n (s'.setState r.id (.complete r)) := by
  apply p.turn known plain ?_ ?_ ?_ first
  · nofun
  · rintro _ ⟨⟩
    exact parameters
  · rintro _ ⟨⟩
    exact tells

theorem Regular.begin (h : s.Regular) (found : s.slot? e = some slot) (plain : ¬ slot.kind.isContainer)
    (waits : slot.isPending) : s.Proceeds 0 (s.setState e .completing) := by
  apply (h.proceeds 0).turn (kind?_eq_some_iff.mpr ⟨slot, found, rfl⟩) plain
  · nofun
  · intro r same
    cases same
  · intro r same
    cases same
  · intro _
    cases complete : s.record? e with
    | none => rfl
    | some r =>
      obtain ⟨slot', found', state⟩ := record?_eq_some_iff.mp complete
      cases found.symm.trans found'
      simp [Slot.isPending, state] at waits

theorem Proceeds.told (p : s.Proceeds n s') (tells : 0 < n → s'.Blamed) : s.Proceeds 0 s' :=
  { p with clean := fun fine => (p.clean fine).imp_right fun or => .inl (or.elim id tells) }

end primitives

end Store

namespace Given

def always : Given SameHeadings where
  holds _ := True
  lasts _ := id

def plain (e : ElementId) : Given SameHeadings where
  holds s := s.Plain e
  lasts same := same.plain

def later (s : Store) : Given SameHeadings where
  holds := s.SameHeadings
  lasts same first := first.trans same

def allPlain (es : List ElementId) : Given SameHeadings where
  holds s := ∀ e ∈ es, s.Plain e
  lasts same all e mem := same.plain (all e mem)

def ofKind (e : ElementId) (k : ElementKind) : Given SameHeadings where
  holds s := s.kind? e = some k
  lasts same := same.kind

end Given

section fair

variable {α β : Type} {g h : Given SameHeadings} {s₀ : Store} {before : Nat}

def Proceeding (g : Given SameHeadings) (x : StoreM α) (q : α → Given SameHeadings) : Prop :=
  ∀ s, s.Regular → g.holds s → s.Proceeds 0 (x s).2 ∧ (q (x s).1).holds (x s).2

def Fair (g : Given SameHeadings) (x : ResolveM α) (q : α → Given SameHeadings) : Prop :=
  ∀ sc s, s.Regular → g.holds s → ∃ n, (x sc s).1.2.unresolved = sc.unresolved + n ∧
    s.Proceeds n (x sc s).2 ∧ (q (x sc s).1.1).holds (x sc s).2

def Since (s₀ : Store) (before : Nat) (g : Given SameHeadings) (x : ResolveM α) (q : α → Given SameHeadings) : Prop :=
  ∀ sc s n, sc.unresolved = before + n → s₀.Proceeds n s → g.holds s →
    ∃ n', (x sc s).1.2.unresolved = before + n' ∧ s₀.Proceeds n' (x sc s).2 ∧ (q (x sc s).1.1).holds (x sc s).2

namespace Proceeding

variable {x : StoreM α} {q : α → Given SameHeadings} {r : β → Given SameHeadings}

theorem returns (a : α) (known : ∀ s, s.Regular → g.holds s → (q a).holds s) : Proceeding g (Pure.pure a) q :=
  fun s regular holds => ⟨regular.proceeds 0, known s regular holds⟩

theorem imp {q' : α → Given SameHeadings} (proceeding : Proceeding g x q) (stronger : ∀ s, h.holds s → g.holds s)
    (weaker : ∀ a s, (q a).holds s → (q' a).holds s) : Proceeding h x q' := by
  intro s regular holds
  obtain ⟨move, known⟩ := proceeding s regular (stronger s holds)
  exact ⟨move, weaker _ _ known⟩

theorem bind {f : α → StoreM β} (first : Proceeding g x q) (next : ∀ a, Proceeding (g.and (q a)) (f a) r) :
    Proceeding g (x >>= f) r := by
  intro s regular holds
  obtain ⟨move, known⟩ := first s regular holds
  obtain ⟨move', known'⟩ := next _ _ move.regular ⟨g.lasts move.headings holds, known⟩
  exact ⟨move.trans move', known'⟩

theorem get {f : Store → StoreM β} (next : ∀ s, s.Regular → Proceeding (g.and (.later s)) (f s) r) :
    Proceeding g (MonadState.get >>= f) r :=
  fun s regular holds => next s regular s regular ⟨holds, fun _ slot found => ⟨slot, found, rfl⟩⟩

theorem mapM_mem {f : α → StoreM β} {as : List α} (each : ∀ a ∈ as, Proceeding g (f a) fun _ => .always) :
    Proceeding g (as.mapM f) fun _ => .always := by
  induction as with
  | nil => exact .returns [] fun _ _ _ => trivial
  | cons a as ih =>
    rw [List.mapM_cons]
    have others : Proceeding (g.and .always) (as.mapM f) fun _ => .always :=
      (ih fun a mem => each a (List.mem_cons_of_mem _ mem)).imp (fun _ => And.left) fun _ _ => id
    exact (each a List.mem_cons_self).bind fun _ => others.bind fun _ => .returns _ fun _ _ _ => trivial

end Proceeding

namespace Fair

variable {x : ResolveM α} {q : α → Given SameHeadings} {r : β → Given SameHeadings}

theorem returns (a : α) (known : ∀ s, g.holds s → (q a).holds s) : Fair g (Pure.pure a) q :=
  fun _ s regular holds => ⟨0, rfl, regular.proceeds 0, known s holds⟩

theorem done (a : α) : Fair g (Pure.pure a) fun _ => .always := .returns a fun _ _ => trivial

theorem imp {q' : α → Given SameHeadings} (fair : Fair g x q) (stronger : ∀ s, h.holds s → g.holds s)
    (weaker : ∀ a s, (q a).holds s → (q' a).holds s) : Fair h x q' := by
  intro sc s regular holds
  obtain ⟨n, counted, move, known⟩ := fair sc s regular (stronger s holds)
  exact ⟨n, counted, move, weaker _ _ known⟩

theorem keep (fair : Fair g x q) : Fair g x fun a => g.and (q a) := by
  intro sc s regular holds
  obtain ⟨n, counted, move, known⟩ := fair sc s regular holds
  exact ⟨n, counted, move, g.lasts move.headings holds, known⟩

theorem bind {f : α → ResolveM β} (first : Fair g x q) (next : ∀ a, Fair (g.and (q a)) (f a) r) : Fair g (x >>= f) r := by
  intro sc s regular holds
  obtain ⟨n, counted, move, known⟩ := first.keep sc s regular holds
  obtain ⟨n', counted', move', known'⟩ := next _ _ _ move.regular known
  exact ⟨n + n', counted'.trans (by rw [counted, Nat.add_assoc]), move.trans move', known'⟩

theorem next {f : α → ResolveM β} (first : Fair g x q) (next : ∀ a, Fair g (f a) r) : Fair g (x >>= f) r :=
  first.bind fun a => (next a).imp (fun _ => And.left) fun _ _ => id

theorem lift {x : StoreM α} (proceeding : Proceeding g x q) : Fair g (liftM x) q := by
  intro sc s regular holds
  exact ⟨0, rfl, proceeding s regular holds⟩

theorem mapM {f : α → ResolveM β} {g : Given SameHeadings} (each : ∀ a, Fair g (f a) fun _ => .always) (as : List α) :
    Fair g (as.mapM f) fun _ => .always := by
  induction as with
  | nil => exact .done []
  | cons a as ih =>
    rw [List.mapM_cons]
    exact (each a).next fun _ => ih.next fun _ => .done _

theorem forM_mem {f : α → ResolveM PUnit} {as : List α} (each : ∀ a ∈ as, Fair g (f a) fun _ => .always) :
    Fair g (as.forM f) fun _ => .always := by
  induction as with
  | nil => exact .done _
  | cons a as ih =>
    exact (each a List.mem_cons_self).next fun _ => ih fun a mem => each a (List.mem_cons_of_mem _ mem)

theorem scope {f : Scope → ResolveM β} (next : ∀ sc, Fair g (f sc) r) : Fair g (get >>= f) r := fun sc => next sc sc

theorem store {f : Store → ResolveM β} (next : ∀ s, s.Regular → Fair (g.and (.later s)) (f s) r) :
    Fair g (ResolveM.store >>= f) r :=
  fun sc s regular holds => next s regular sc s regular ⟨holds, fun _ slot found => ⟨slot, found, rfl⟩⟩

theorem ite {y : ResolveM α} {c : Prop} [Decidable c] (yes : Fair g x q) (no : Fair g y q) : Fair g (if c then x else y) q := by
  split
  · exact yes
  · exact no

theorem measured {f : Scope → ResolveM β} (next : ∀ s₀ sc, Since s₀ sc.unresolved g (f sc) r) : Fair g (get >>= f) r :=
  fun sc s regular holds => next s sc sc s 0 rfl (regular.proceeds 0) holds

theorem since (fair : Fair g x q) : Since s₀ before g x q := by
  intro sc s n counted move holds
  obtain ⟨n', counted', move', known⟩ := fair sc s move.regular holds
  exact ⟨n + n', by omega, move.trans move', known⟩

theorem after {f : α → ResolveM β} (first : Fair g x q) (next : ∀ a, Since s₀ before (g.and (q a)) (f a) r) :
    Since s₀ before g (x >>= f) r := by
  intro sc s n counted move holds
  obtain ⟨n', counted', move', known⟩ := first.keep.since sc s n counted move holds
  exact next _ _ _ n' counted' move' known

theorem past {f : α → ResolveM β} (first : Fair g x q) (next : ∀ a, Since s₀ before g (f a) r) :
    Since s₀ before g (x >>= f) r :=
  first.after fun a sc s n counted move holds => next a sc s n counted move holds.1

end Fair

namespace Since

variable {x : ResolveM α} {q : α → Given SameHeadings} {r : β → Given SameHeadings}

theorem bind {f : α → ResolveM β} (first : Since s₀ before g x q) (next : ∀ a, Since s₀ before (q a) (f a) r) :
    Since s₀ before g (x >>= f) r := by
  intro sc s n counted move holds
  obtain ⟨n', counted', move', known⟩ := first sc s n counted move holds
  exact next _ _ _ n' counted' move' known

theorem ite {y : ResolveM α} {c : Prop} [Decidable c] (yes : Since s₀ before g x q) (no : Since s₀ before g y q) :
    Since s₀ before g (if c then x else y) q := by
  split
  · exact yes
  · exact no

theorem block (since : Since s₀ before g x q) : Since s₀ before g (ResolveM.block x) q := since

theorem publish {f : Scope → ElementRecord} {e : ElementId} {k : ElementKind} (id : ∀ sc, (f sc).id = e)
    (plain : ¬ k.isContainer) (other : ¬ k.isType)
    (known : ∀ s, g.holds s → s.kind? e = some k ∧ ∀ sc, ∀ p ∈ (f sc).typeParameters, s.Plain p)
    (tells : ∀ sc, (f sc).erroneous → before < sc.unresolved) :
    Since s₀ before g (get >>= fun sc => liftM (StoreM.publish (f sc))) fun _ => .always := by
  intro sc s n counted move holds
  obtain ⟨kind, parameters⟩ := known s holds
  refine ⟨n, counted, move.publish ?_ plain (parameters sc) (fun wrong => ?_) ?_, trivial⟩
  · rwa [id sc]
  · have more := tells sc wrong
    omega
  · exact fun isType => absurd isType other

end Since

end fair

end Nominal
