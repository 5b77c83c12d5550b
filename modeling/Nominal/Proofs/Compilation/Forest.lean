import Mathlib.Data.List.Nodup
import Nominal.Proofs.Store.Allocation
import Nominal.Store.Entering
/-!
Entering a forest of types. It is refused if and only if some declaration is of no type or some name is there
twice, be it in the forest or in the store before; and if it is not refused, the names join the index in the
order in which one reads the declarations.
-/

namespace Nominal

mutual

def TypeDecl.names (scope : String) : TypeDecl → List String
  | .mk h nested => qualify scope h.name :: TypeDecl.allNames (qualify scope h.name) nested

def TypeDecl.allNames (scope : String) : List TypeDecl → List String
  | [] => []
  | d :: rest => d.names scope ++ TypeDecl.allNames scope rest

end

mutual

def TypeDecl.isTyped : TypeDecl → Bool
  | .mk h nested => h.kind.isType && TypeDecl.allTyped nested

def TypeDecl.allTyped : List TypeDecl → Bool
  | [] => true
  | d :: rest => d.isTyped && TypeDecl.allTyped rest

end

def NameIndex.names (index : NameIndex) : List String := index.map (·.1)

namespace NameIndex

variable {index more : NameIndex} {name : String} {e : ElementId}

theorem find?_eq_none_iff : index.find? name = none ↔ name ∉ index.names := by
  simp only [NameIndex.find?, names, Option.map_eq_none_iff, List.find?_eq_none, List.mem_map, beq_iff_eq, not_exists,
    not_and]

theorem find?_append (found : index.find? name = some e) : NameIndex.find? (index ++ more) name = some e := by
  obtain ⟨entry, mem, same⟩ := Option.map_eq_some_iff.mp found
  rw [NameIndex.find?, List.find?_append, mem, Option.some_or, Option.map_some, same]

theorem find?_last (free : name ∉ index.names) : NameIndex.find? (index ++ [(name, e)]) name = some e := by
  have absent := find?_eq_none_iff.mpr free
  rw [NameIndex.find?, Option.map_eq_none_iff] at absent
  rw [NameIndex.find?, List.find?_append, absent]
  simp

theorem find?_of_mem (once : index.names.Nodup) (mem : (name, e) ∈ index) : index.find? name = some e := by
  induction index with
  | nil => cases mem
  | cons entry rest ih =>
    rw [names, List.map_cons, List.nodup_cons] at once
    rcases List.mem_cons.mp mem with rfl | mem
    · simp [NameIndex.find?]
    · have other : entry.1 ≠ name := fun same => once.1 (same ▸ List.mem_map_of_mem mem)
      have found := ih once.2 mem
      rw [NameIndex.find?] at found ⊢
      rwa [List.find?_cons_of_neg (by simpa using other)]

end NameIndex

namespace Store.Indexes

variable {s : Store} {p : ElementKind → Bool} {index : NameIndex} {name : String} {e : ElementId}

theorem elements_nodup (h : s.Indexes p index) (once : index.names.Nodup) : index.elements.Nodup := by
  have same : index.elements.map s.qualifiedName? = index.names.map some := by
    rw [NameIndex.elements, NameIndex.names, List.map_map, List.map_map]
    apply List.map_congr_left
    intro entry mem
    obtain ⟨slot, found, _, named⟩ := (h entry.1 entry.2).mp (NameIndex.find?_of_mem once mem)
    rw [Function.comp, Function.comp, qualifiedName?, found, ← named]
    rfl
  apply List.Nodup.of_map s.qualifiedName?
  rw [same]
  exact once.map fun _ _ => Option.some.inj

theorem mem_elements (h : s.Indexes p index) (once : index.names.Nodup) :
    e ∈ index.elements ↔ ∃ k, s.kind? e = some k ∧ p k := by
  constructor
  · intro mem
    obtain ⟨⟨name, _⟩, listed, rfl⟩ := List.mem_map.mp mem
    obtain ⟨slot, found, fits, _⟩ := (h _ _).mp (NameIndex.find?_of_mem once listed)
    exact ⟨slot.kind, kind?_eq_some_iff.mpr ⟨slot, found, rfl⟩, fits⟩
  · rintro ⟨k, known, fits⟩
    obtain ⟨slot, found, rfl⟩ := kind?_eq_some_iff.mp known
    have listed : index.find? slot.qualifiedName = some e := (h _ _).mpr ⟨slot, found, fits, rfl⟩
    obtain ⟨entry, mem, rfl⟩ := Option.map_eq_some_iff.mp listed
    exact List.mem_map_of_mem (List.mem_of_find?_eq_some mem)

end Store.Indexes

namespace Checked

variable {α β : Type} {x : Checked α} {s s' : Store} {b : β}

theorem bind_ok {f : α → Checked β} :
    (x >>= f).run s = (.ok b, s') ↔ ∃ a s₁, x.run s = (.ok a, s₁) ∧ (f a).run s₁ = (.ok b, s') := by
  rw [ExceptT.run_bind]
  change StateT.bind x.run _ s = _ ↔ _
  rw [StateT.bind]
  rcases x.run s with ⟨_ | a, s₁⟩
  · constructor
    · intro refused
      cases refused
    · rintro ⟨a, s₁, ⟨⟩, _⟩
  · constructor
    · intro goes
      exact ⟨a, s₁, rfl, goes⟩
    · rintro ⟨_, _, ⟨⟩, goes⟩
      exact goes

section passing

variable {outcome : Except Fault β × Store}

theorem get_run {f : Store → Checked β} : (MonadState.get >>= f).run s = outcome ↔ (f s).run s = outcome := Iff.rfl

theorem lift_run {m : StoreM α} {f : α → Checked β} :
    (liftM m >>= f).run s = outcome ↔ (f (m s).1).run (m s).2 = outcome := Iff.rfl

end passing

theorem guard_ok {c : Prop} [Decidable c] {f : Fault} {x : Unit → Checked β} :
    ExceptT.run (have rest := x
      if c then throw f >>= fun u => rest u else rest () : Checked β) s = (.ok b, s') ↔
      ¬ c ∧ (x ()).run s = (.ok b, s') := by
  split <;> rename_i holds
  · refine iff_of_false (fun refused => ?_) fun goes => goes.1 holds
    cases refused
  · exact (and_iff_right holds).symm

end Checked

namespace Store

structure Takes (s : Store) (o : ElementId) (heads : List ElementId) (names : List String) (s' : Store) : Prop where
  listed : ∃ more, s'.typeElements = s.typeElements ++ more ∧ more.names = names
  slots : ∀ e slot, s.slot? e = some slot → ∃ state,
    s'.slot? e = some { slot with children := slot.children ++ (if e = o then heads else []), state }
  packages : s'.packages = s.packages

variable {s s' s'' : Store} {o e : ElementId} {heads more : List ElementId} {names names' : List String}

theorem Takes.refl (s : Store) (o : ElementId) : s.Takes o [] [] s where
  listed := ⟨[], by rw [List.append_nil], rfl⟩
  slots e slot found := ⟨slot.state, by simp [found]⟩
  packages := rfl

theorem Takes.trans (first : s.Takes o heads names s') (second : s'.Takes o more names' s'') :
    s.Takes o (heads ++ more) (names ++ names') s'' where
  listed := by
    obtain ⟨entries, grown, same⟩ := first.listed
    obtain ⟨entries', grown', same'⟩ := second.listed
    refine ⟨entries ++ entries', by rw [grown', grown, List.append_assoc], ?_⟩
    rw [NameIndex.names, List.map_append, ← same, ← same']
    rfl
  slots e slot found := by
    obtain ⟨state, found'⟩ := first.slots e slot found
    obtain ⟨state', found''⟩ := second.slots e _ found'
    refine ⟨state', found''.trans ?_⟩
    split <;> simp
  packages := second.packages.trans first.packages

theorem Takes.inside (first : s.Takes o heads names s') (new : s.slot? e = none) (second : s'.Takes e more names' s'') :
    s.Takes o heads (names ++ names') s'' where
  listed := by
    obtain ⟨entries, grown, same⟩ := first.listed
    obtain ⟨entries', grown', same'⟩ := second.listed
    refine ⟨entries ++ entries', by rw [grown', grown, List.append_assoc], ?_⟩
    rw [NameIndex.names, List.map_append, ← same, ← same']
    rfl
  slots f slot found := by
    obtain ⟨state, found'⟩ := first.slots f slot found
    obtain ⟨state', found''⟩ := second.slots f _ found'
    have other : f ≠ e := by
      rintro rfl
      rw [new] at found
      cases found
    refine ⟨state', found''.trans ?_⟩
    rw [if_neg other, List.append_nil]
  packages := second.packages.trans first.packages

theorem Takes.names_eq (takes : s.Takes o heads names s') : s'.typeElements.names = s.typeElements.names ++ names := by
  obtain ⟨entries, grown, same⟩ := takes.listed
  rw [grown, NameIndex.names, List.map_append, ← same]
  rfl

theorem Takes.finds (takes : s.Takes o heads names s') {name : String} (found : s.typeElement? name = some e) :
    s'.typeElement? name = some e := by
  obtain ⟨entries, grown, _⟩ := takes.listed
  rw [typeElement?, grown]
  exact NameIndex.find?_append found

end Store

namespace StoreM

open Store

variable {s s' : Store} {o e : ElementId} {scope name : String}

theorem newTypeElement_takes (o : ElementId) (name : String) (h : TypeHeader) (s : Store) :
    s.Takes o [(newTypeElement o name h s).1] [name] (newTypeElement o name h s).2 where
  listed := ⟨[(name, ⟨s.elements.size⟩)], rfl, rfl⟩
  slots e slot found := by
    have there : e.index ≠ s.elements.size := Nat.ne_of_lt (has_element_iff.mpr ⟨slot, found⟩)
    change ∃ state, (Store.updateSlot _ o (Slot.addChild ⟨s.elements.size⟩)).slot? e = _
    rw [slot?_update]
    have kept : (s.pushSlot { kind := h.kind, simpleName := h.name, qualifiedName := name, enclosing := some o
                              arity := h.typeParameters.length, state := .pending (.type h) }).slot? e = some slot := by
      rw [slot?_push, if_neg there, found]
    split
    · exact ⟨_, congrArg (Option.map _) kept⟩
    · exact ⟨slot.state, by rw [List.append_nil]; exact kept⟩
  packages := rfl

theorem newTypeElement_new (o : ElementId) (name : String) (h : TypeHeader) (s : Store) :
    s.slot? (newTypeElement o name h s).1 = none := slot?_at_size

theorem newTypeElement_found (o : ElementId) (h : TypeHeader) (free : s.typeElement? name = none) :
    (newTypeElement o name h s).2.typeElement? name = some (newTypeElement o name h s).1 :=
  NameIndex.find?_last (NameIndex.find?_eq_none_iff.mp free)

section cases

theorem enterTypeIn_ok {h : TypeHeader} {nested : List TypeDecl} :
    (enterTypeIn o scope (.mk h nested)).run s = (.ok e, s') ↔
      h.kind.isType ∧ s.typeElement? (qualify scope h.name) = none ∧
        (newTypeElement o (qualify scope h.name) h s).1 = e ∧
        (enterTypesIn e (qualify scope h.name) nested).run (newTypeElement o (qualify scope h.name) h s).2 = (.ok (), s') := by
  rw [enterTypeIn]
  refine Checked.guard_ok.trans (and_congr (by simp) (Checked.get_run.trans ?_))
  refine Checked.guard_ok.trans (and_congr (by simp) (Checked.lift_run.trans ?_))
  rw [Checked.bind_ok]
  constructor
  · rintro ⟨_, _, goes, ⟨⟩⟩
    exact ⟨rfl, goes⟩
  · rintro ⟨rfl, goes⟩
    exact ⟨(), s', goes, rfl⟩

theorem enterTypesIn_nil_ok : (enterTypesIn o scope []).run s = (.ok (), s') ↔ s = s' := by
  rw [enterTypesIn]
  constructor
  · rintro ⟨⟩
    rfl
  · rintro rfl
    rfl

theorem enterTypesIn_cons_ok {d : TypeDecl} {rest : List TypeDecl} :
    (enterTypesIn o scope (d :: rest)).run s = (.ok (), s') ↔
      ∃ e s₁, (enterTypeIn o scope d).run s = (.ok e, s₁) ∧ (enterTypesIn o scope rest).run s₁ = (.ok (), s') := by
  rw [enterTypesIn, Checked.bind_ok]

end cases

mutual

theorem enterTypeIn_takes (o : ElementId) (scope : String) : (d : TypeDecl) → ∀ {s s' : Store} {e : ElementId},
    (enterTypeIn o scope d).run s = (.ok e, s') →
      d.isTyped ∧ s.Takes o [e] (d.names scope) s' ∧ s'.typeElement? (qualify scope d.header.name) = some e ∧
        (s.typeElements.names.Nodup → s'.typeElements.names.Nodup)
  | .mk h nested, s, s', e, goes => by
    obtain ⟨isType, free, rfl, goes⟩ := enterTypeIn_ok.mp goes
    have first := newTypeElement_takes o (qualify scope h.name) h s
    obtain ⟨typed, ⟨heads, inside⟩, once⟩ := enterTypesIn_takes _ (qualify scope h.name) nested goes
    refine ⟨by simp [TypeDecl.isTyped, isType, typed], ?_, ?_, fun nodup => once ?_⟩
    · rw [TypeDecl.names]
      exact first.inside (newTypeElement_new o _ h s) inside
    · exact inside.finds (newTypeElement_found o h free)
    · rw [first.names_eq]
      exact List.nodup_append.mpr ⟨nodup, List.nodup_singleton _, by
        rintro a mem b last rfl
        rw [List.mem_singleton] at last
        exact NameIndex.find?_eq_none_iff.mp free (last ▸ mem)⟩

theorem enterTypesIn_takes (o : ElementId) (scope : String) : (ds : List TypeDecl) → ∀ {s s' : Store},
    (enterTypesIn o scope ds).run s = (.ok (), s') →
      TypeDecl.allTyped ds ∧ (∃ heads, s.Takes o heads (TypeDecl.allNames scope ds) s') ∧
        (s.typeElements.names.Nodup → s'.typeElements.names.Nodup)
  | [], s, s', goes => by
    cases enterTypesIn_nil_ok.mp goes
    exact ⟨rfl, ⟨[], .refl s o⟩, id⟩
  | d :: rest, s, s', goes => by
    obtain ⟨e, s₁, goes, goes'⟩ := enterTypesIn_cons_ok.mp goes
    obtain ⟨typed, first, _, once⟩ := enterTypeIn_takes o scope d goes
    obtain ⟨typed', ⟨heads, others⟩, once'⟩ := enterTypesIn_takes o scope rest goes'
    refine ⟨by simp [TypeDecl.allTyped, typed, typed'], ⟨e :: heads, ?_⟩, once' ∘ once⟩
    rw [TypeDecl.allNames]
    exact first.trans others

end

mutual

theorem enterTypeIn_accepts (o : ElementId) (scope : String) : (d : TypeDecl) → ∀ {s : Store}, d.isTyped →
    (s.typeElements.names ++ d.names scope).Nodup → ∃ e s', (enterTypeIn o scope d).run s = (.ok e, s')
  | .mk h nested, s, typed, once => by
    rw [TypeDecl.isTyped, Bool.and_eq_true] at typed
    rw [TypeDecl.names, List.append_cons] at once
    have free : qualify scope h.name ∉ s.typeElements.names := fun mem =>
      (List.nodup_append.mp (List.nodup_append.mp once).1).2.2 _ mem _ (List.mem_singleton.mpr rfl) rfl
    have first := newTypeElement_takes o (qualify scope h.name) h s
    rw [← first.names_eq] at once
    obtain ⟨s', goes⟩ := enterTypesIn_accepts _ (qualify scope h.name) nested typed.2 once
    exact ⟨_, s', enterTypeIn_ok.mpr ⟨typed.1, NameIndex.find?_eq_none_iff.mpr free, rfl, goes⟩⟩

theorem enterTypesIn_accepts (o : ElementId) (scope : String) : (ds : List TypeDecl) → ∀ {s : Store},
    TypeDecl.allTyped ds → (s.typeElements.names ++ TypeDecl.allNames scope ds).Nodup →
      ∃ s', (enterTypesIn o scope ds).run s = (.ok (), s')
  | [], s, _, _ => ⟨s, enterTypesIn_nil_ok.mpr rfl⟩
  | d :: rest, s, typed, once => by
    rw [TypeDecl.allTyped, Bool.and_eq_true] at typed
    rw [TypeDecl.allNames, ← List.append_assoc] at once
    obtain ⟨e, s₁, goes⟩ := enterTypeIn_accepts o scope d typed.1 (List.nodup_append.mp once).1
    obtain ⟨_, takes, _⟩ := enterTypeIn_takes o scope d goes
    rw [← takes.names_eq] at once
    obtain ⟨s', goes'⟩ := enterTypesIn_accepts o scope rest typed.2 once
    exact ⟨s', enterTypesIn_cons_ok.mpr ⟨e, s₁, goes, goes'⟩⟩

end

end StoreM

end Nominal
