import Nominal.Proofs.Compilation.Forest
import Nominal.Proofs.Store.Arriving
import Nominal.Proofs.Store.Declared
/-!
A compilation enters a program if and only if every declaration in it is of a type and no qualified name is there
twice. Then the names are in the index in the order in which one reads the program, and each package has the types
that were declared at the top level of its units.
-/

namespace Nominal

namespace PackageDecl

/-- The qualified names of all types of a unit, in the order in which one reads them. -/
def names (p : PackageDecl) : List String := TypeDecl.allNames p.package p.types

/-- The types at the top level of a unit, as they are found by their names. -/
def topLevel (p : PackageDecl) (s : Store) : List (Option ElementId) :=
  p.types.map fun d => s.typeElement? (qualify p.package d.header.name)

end PackageDecl

namespace Store

structure Prepares (s : Store) (name : String) (e : ElementId) (s' : Store) : Prop where
  typeElements : s'.typeElements = s.typeElements
  found : s'.package? name = some e
  stays : ∀ n, (s.package? n).isSome → (s'.package? n).isSome
  packages : ∀ f slot, s'.slot? f = some slot → slot.kind = .package →
    s.slot? f = some slot ∨ slot.children = [] ∧ slot.qualifiedName = name ∧ s.package? name = none

structure Holds (s : Store) (ps : List PackageDecl) : Prop where
  names : s.typeElements.names = ps.flatMap (·.names)
  once : s.typeElements.names.Nodup
  packages : ∀ p ∈ ps, (s.package? p.package).isSome
  children : ∀ e slot, s.slot? e = some slot → slot.kind = .package →
    slot.children.map some = (ps.filter (·.package = slot.qualifiedName)).flatMap (·.topLevel s)

variable {s s' : Store} {ps : List PackageDecl} {p : PackageDecl} {e : ElementId} {name : String}

theorem holds_empty : empty.Holds [] where
  names := rfl
  once := List.nodup_nil
  packages := nofun
  children e slot found := by simp [slot?, empty] at found

theorem Holds.prepare (h : s.Holds ps) (prepares : s.Prepares name e s') : s'.Holds ps where
  names := by rw [prepares.typeElements, h.names]
  once := by rw [prepares.typeElements]; exact h.once
  packages p mem := prepares.stays _ (h.packages p mem)
  children f slot found kind := by
    have same : (fun p : PackageDecl => p.topLevel s') = fun p => p.topLevel s := by
      funext p
      simp only [PackageDecl.topLevel, typeElement?, prepares.typeElements]
    rw [same]
    rcases prepares.packages f slot found kind with old | ⟨childless, named, absent⟩
    · exact h.children f slot old kind
    · have none : ps.filter (·.package = slot.qualifiedName) = [] := by
        rw [List.filter_eq_nil_iff]
        intro p mem same
        have entered := h.packages p mem
        rw [of_decide_eq_true same, named, absent] at entered
        cases entered
      rw [childless, none]
      rfl

theorem Holds.finds (h : s.Holds ps) (mem : p ∈ ps) {d : TypeDecl} (declared : d ∈ p.types) :
    ∃ e, s.typeElement? (qualify p.package d.header.name) = some e := by
  have listed (ds : List TypeDecl) (mem : d ∈ ds) : qualify p.package d.header.name ∈ TypeDecl.allNames p.package ds := by
    induction ds with
    | nil => cases mem
    | cons d' rest ih =>
      rw [TypeDecl.allNames, List.mem_append]
      rcases List.mem_cons.mp mem with rfl | mem
      · cases d
        exact .inl (by simp [TypeDecl.names, TypeDecl.header])
      · exact .inr (ih mem)
  refine Option.ne_none_iff_exists'.mp fun absent => NameIndex.find?_eq_none_iff.mp absent ?_
  rw [h.names, List.mem_flatMap]
  exact ⟨p, mem, listed p.types declared⟩

theorem Holds.take (h : s.Holds ps) (fits : s.Consistent) (fits' : s'.Consistent) {ids : List ElementId}
    (package : s.package? p.package = some e) (takes : s.Takes e ids p.names s') (once : s'.typeElements.names.Nodup)
    (heads : p.topLevel s' = ids.map some) : s'.Holds (ps ++ [p]) where
  names := by rw [takes.names_eq, h.names, List.flatMap_append, List.flatMap_singleton]
  once := once
  packages q mem := by
    rw [package?, takes.packages]
    rcases List.mem_append.mp mem with mem | last
    · exact h.packages q mem
    · rw [List.mem_singleton.mp last]
      exact Option.isSome_of_eq_some package
  children f slot' found kind := by
    -- Only types were entered, so the package was there.
    have listed := (fits'.packages _ f).mpr ⟨slot', found, by rw [kind]; rfl, rfl⟩
    rw [takes.packages] at listed
    obtain ⟨slot, there, isPackage, named⟩ := (fits.packages _ f).mp listed
    obtain ⟨state, same⟩ := takes.slots f slot there
    cases found.symm.trans same
    have kept : (ps.filter (·.package = slot.qualifiedName)).flatMap (·.topLevel s') =
        (ps.filter (·.package = slot.qualifiedName)).flatMap (·.topLevel s) := by
      refine List.flatMap_congr fun q mem => List.map_congr_left fun d declared => ?_
      obtain ⟨c, known⟩ := h.finds (List.mem_of_mem_filter mem) declared
      rw [known, takes.finds known]
    have here : f = e ↔ p.package = slot.qualifiedName := by
      rw [← Option.some.injEq, ← package]
      refine ⟨fun found => ?_, fun same => ?_⟩
      · obtain ⟨slot₁, there₁, _, named₁⟩ := (fits.packages _ f).mp found.symm
        cases there.symm.trans there₁
        exact named₁.symm
      · rw [same]
        exact listed.symm
    change (slot.children ++ if f = e then ids else []).map some =
      ((ps ++ [p]).filter (·.package = slot.qualifiedName)).flatMap (·.topLevel s')
    rw [List.map_append, h.children f slot there (eq_of_beq isPackage), List.filter_append, List.flatMap_append, kept]
    congr 1
    by_cases mine : f = e
    · rw [if_pos mine, List.filter_cons_of_pos (by simp [here.mp mine]), List.filter_nil, List.flatMap_singleton, heads]
    · rw [if_neg mine, List.filter_cons_of_neg (by simpa using mt here.mpr mine)]
      rfl

end Store

namespace StoreM

open Store

variable {s s' : Store} {ps qs : List PackageDecl} {p : PackageDecl} {e : ElementId}

theorem enterModule_prepares (name : String) (s : Store) :
    (enterModule name s).2.typeElements = s.typeElements ∧ (enterModule name s).2.packages = s.packages ∧
      ∀ f slot, (enterModule name s).2.slot? f = some slot → slot.kind = .package → s.slot? f = some slot := by
  cases found : s.module? name with
  | some e =>
    rw [enterModule_of_some found]
    exact ⟨rfl, rfl, fun _ _ there _ => there⟩
  | none =>
    rw [enterModule_of_none found]
    refine ⟨rfl, rfl, fun f slot there kind => ?_⟩
    have outside : (moduleSlot name).enclosing ≠ some ⟨s.elements.size⟩ := nofun
    rcases slot?_receive_cases outside there with ⟨_, rfl⟩ | ⟨old, there', rfl⟩
    · cases kind
    · exact there'

theorem enterModule_kind (fits : s.Consistent) (name : String) :
    (enterModule name s).2.kind? (enterModule name s).1 = some .module := by
  cases found : s.module? name with
  | some e =>
    obtain ⟨slot, there, kind, _⟩ := (fits.modules name e).mp found
    rw [enterModule_of_some found]
    exact kind?_eq_some_iff.mpr ⟨slot, there, eq_of_beq kind⟩
  | none =>
    rw [enterModule_of_none found]
    exact kind?_eq_some_iff.mpr ⟨_, slot?_receive_new nofun, rfl⟩

theorem enterModules_prepares (declared : s.Declared) (module : Option String) {m? : Option ElementId}
    (goes : module.mapM enterModule s = (m?, s')) :
    s'.Declared ∧ (∀ m ∈ m?, s'.kind? m = some .module) ∧ s'.typeElements = s.typeElements ∧ s'.packages = s.packages ∧
      ∀ f slot, s'.slot? f = some slot → slot.kind = .package → s.slot? f = some slot := by
  cases module with
  | none =>
    cases goes
    exact ⟨declared, nofun, rfl, rfl, fun _ _ there _ => there⟩
  | some name =>
    cases goes
    have declared' : (enterModule name s).2.Declared := .enter (.enterModule name) declared rfl ⟨nofun, nofun⟩
    refine ⟨declared', ?_, enterModule_prepares name s⟩
    rintro _ ⟨⟩
    exact enterModule_kind declared.reachable.sound.toConsistent name

theorem enterPackage_prepares {m? : Option ElementId} (inside : ∀ m ∈ m?, s.kind? m = some .module)
    (name : String) : s.Prepares name (enterPackage m? name s).1 (enterPackage m? name s).2 := by
  cases found : s.package? name with
  | some e =>
    rw [enterPackage_of_some found]
    exact ⟨rfl, found, fun _ => id, fun _ _ there _ => .inl there⟩
  | none =>
    rw [enterPackage_of_none found]
    have outside : (packageSlot m? name).enclosing ≠ some ⟨s.elements.size⟩ := by
      intro same
      obtain ⟨slot, there, _⟩ := kind?_eq_some_iff.mp (inside _ same)
      rw [slot?_at_size] at there
      cases there
    refine ⟨(indexes_receive s _).2.2, ?_, fun n known => ?_, fun f slot there kind => ?_⟩
    · rw [package?, (indexes_receive s _).2.1]
      exact NameIndex.find?_enter.mpr (.inr ⟨found, rfl, rfl, rfl⟩)
    · obtain ⟨e, known⟩ := Option.isSome_iff_exists.mp known
      rw [package?, (indexes_receive s _).2.1]
      exact Option.isSome_of_eq_some (NameIndex.find?_enter.mpr (.inl known))
    · rcases slot?_receive_cases outside there with ⟨_, rfl⟩ | ⟨old, there', rfl⟩
      · exact .inr ⟨rfl, rfl, found⟩
      · refine .inl ?_
        by_cases around : (packageSlot m? name).enclosing = some f
        · -- What encloses a package is a module, and so is none itself.
          rw [if_pos around] at kind
          obtain ⟨slot, there'', isModule⟩ := kind?_eq_some_iff.mp (inside f around)
          cases there'.symm.trans there''
          cases isModule.symm.trans kind
        · rwa [if_neg around]

section types

theorem enterType_run {slot : Slot} (there : s.slot? e = some slot) (kind : slot.kind = .package) (d : TypeDecl) :
    (enterType e d).run s = (enterTypeIn e slot.qualifiedName d).run s := by
  rw [enterType, exceptT_get_bind, there]
  dsimp only
  rw [if_neg (by simpa using kind)]

theorem enterTypes_cons (e : ElementId) (d : TypeDecl) (rest : List TypeDecl) (s : Store) :
    enterTypes e (d :: rest) s =
      let tail := enterTypes e rest ((enterType e d).run s).2
      (((enterType e d).run s).1 :: tail.1, tail.2) := rfl

theorem Takes.package {o : ElementId} {heads : List ElementId} {names : List String} (takes : s.Takes o heads names s')
    {slot : Slot} (there : s.slot? e = some slot) (kind : slot.kind = .package) :
    ∃ slot', s'.slot? e = some slot' ∧ slot'.kind = .package ∧ slot'.qualifiedName = slot.qualifiedName := by
  obtain ⟨state, there'⟩ := takes.slots e slot there
  exact ⟨_, there', kind, rfl⟩

theorem enterTypes_takes {slot : Slot} (there : s.slot? e = some slot) (kind : slot.kind = .package) (ds : List TypeDecl)
    {ids : List ElementId} (goes : enterTypes e ds s = (ids.map .ok, s')) :
    TypeDecl.allTyped ds ∧ s.Takes e ids (TypeDecl.allNames slot.qualifiedName ds) s' ∧
      ds.map (fun d => s'.typeElement? (qualify slot.qualifiedName d.header.name)) = ids.map some ∧
      (s.typeElements.names.Nodup → s'.typeElements.names.Nodup) := by
  induction ds generalizing s slot ids with
  | nil =>
    obtain ⟨none, rfl⟩ := Prod.mk.inj goes
    rw [List.map_eq_nil_iff.mp none.symm]
    exact ⟨rfl, .refl s e, rfl, id⟩
  | cons d rest ih =>
    rw [enterTypes_cons] at goes
    obtain ⟨outcomes, last⟩ := Prod.mk.inj goes
    obtain ⟨id, ids, rfl, first, others⟩ := List.map_eq_cons_iff.mp outcomes.symm
    have run : (enterTypeIn e slot.qualifiedName d).run s = (.ok id, ((enterType e d).run s).2) := by
      rw [← enterType_run there kind]
      exact Prod.ext first.symm rfl
    obtain ⟨typed, takes, found, once⟩ := enterTypeIn_takes e slot.qualifiedName d run
    obtain ⟨slot', there', kind', same⟩ := Takes.package takes there kind
    obtain ⟨typed', takes', found', once'⟩ := ih there' kind' (Prod.ext others.symm last)
    rw [same] at takes' found'
    refine ⟨by simp [TypeDecl.allTyped, typed, typed'], ?_, ?_, once' ∘ once⟩
    · rw [TypeDecl.allNames]
      exact takes.trans takes'
    · rw [List.map_cons, List.map_cons, found', takes'.finds found]

theorem enterTypes_accepts {slot : Slot} (there : s.slot? e = some slot) (kind : slot.kind = .package) (ds : List TypeDecl)
    (typed : TypeDecl.allTyped ds) (once : (s.typeElements.names ++ TypeDecl.allNames slot.qualifiedName ds).Nodup) :
    ∃ (ids : List ElementId) (s' : Store), enterTypes e ds s = (ids.map .ok, s') := by
  induction ds generalizing s slot with
  | nil => exact ⟨[], s, rfl⟩
  | cons d rest ih =>
    rw [TypeDecl.allTyped, Bool.and_eq_true] at typed
    rw [TypeDecl.allNames, ← List.append_assoc] at once
    obtain ⟨id, s₁, run⟩ := enterTypeIn_accepts e slot.qualifiedName d typed.1 (List.nodup_append.mp once).1
    obtain ⟨_, takes, _⟩ := enterTypeIn_takes e slot.qualifiedName d run
    obtain ⟨slot', there', kind', same⟩ := Takes.package takes there kind
    rw [← takes.names_eq, ← same] at once
    obtain ⟨ids, s', goes⟩ := ih there' kind' typed.2 once
    refine ⟨id :: ids, s', ?_⟩
    rw [enterTypes_cons, enterType_run there kind, run]
    dsimp only
    rw [goes]
    rfl

end types

section units

theorem gathered_ok {outcomes : List (Except Fault ElementId)} {ids : List ElementId} :
    Diagnostics.result ⟨outcomes.filterMap fun | .error f => some f | .ok _ => none⟩ (outcomes.filterMap (·.toOption)) =
      .ok ids ↔ outcomes = ids.map .ok := by
  unfold Diagnostics.result Diagnostics.isEmpty
  constructor
  · intro good
    split at good <;> rename_i none
    · cases good
      induction outcomes with
      | nil => rfl
      | cons outcome rest ih =>
        cases outcome with
        | error f => simp at none
        | ok id => exact congrArg (Except.ok id :: ·) (ih none)
    · cases good
  · rintro rfl
    have fine : (ids.map Except.ok).filterMap (fun | .error f => some f | .ok _ => none : Except Fault ElementId → Option Fault) = [] := by
      simp [List.filterMap_map]
    have same : (ids.map Except.ok).filterMap (·.toOption : Except Fault ElementId → Option ElementId) = ids := by
      simp [List.filterMap_map, Except.toOption]
    rw [fine, same]
    rfl

theorem gathered_error {d found : Diagnostics Fault} {ids : List ElementId} (refused : d.result ids = .error found) :
    found.items ≠ [] := by
  unfold Diagnostics.result Diagnostics.isEmpty at refused
  split at refused <;> rename_i none
  · cases refused
  · cases refused
    simpa using none

variable {ids : List ElementId}

theorem enterPackage_holds (declared : s.Declared) (h : s.Holds ps) (p : PackageDecl) {m? : Option ElementId} {s₁ s₂ : Store}
    (modules : p.module.mapM enterModule s = (m?, s₁)) (package : enterPackage m? p.package s₁ = (e, s₂)) :
    s₂.Consistent ∧ s₂.Holds ps ∧ s₂.package? p.package = some e ∧
      ∃ slot, s₂.slot? e = some slot ∧ slot.kind = .package ∧ slot.qualifiedName = p.package := by
  obtain ⟨declared₁, isModule, types₁, packages₁, slots₁⟩ := enterModules_prepares declared p.module modules
  have prepares := enterPackage_prepares isModule p.package
  have inRange : (Request.enterPackage m? p.package).InRange s₁ := by
    refine ⟨fun m mem => ?_, nofun⟩
    obtain ⟨slot, there, _⟩ := kind?_eq_some_iff.mp (isModule m (by simpa [Request.elements] using mem))
    exact has_element_iff.mpr ⟨slot, there⟩
  have declared₂ := Declared.enter (.enterPackage m? p.package) declared₁ rfl inRange
  change (enterPackage m? p.package s₁).2.Declared at declared₂
  rw [package] at prepares declared₂
  have fits := declared₂.reachable.sound.toConsistent
  have all : s.Prepares p.package e s₂ :=
    { typeElements := prepares.typeElements.trans types₁
      found := prepares.found
      stays := fun n known => prepares.stays n (by rwa [package?, packages₁])
      packages := fun f slot there kind => by
        rcases prepares.packages f slot there kind with old | ⟨childless, named, absent⟩
        · exact .inl (slots₁ f slot old kind)
        · refine .inr ⟨childless, named, ?_⟩
          rwa [package?, packages₁] at absent }
  obtain ⟨slot, there, kind, named⟩ := (fits.packages _ e).mp all.found
  exact ⟨fits, h.prepare all, all.found, slot, there, eq_of_beq kind, named⟩

theorem enterDeclarations_ok {m? : Option ElementId} {s₁ s₂ : Store} (modules : p.module.mapM enterModule s = (m?, s₁))
    (package : enterPackage m? p.package s₁ = (e, s₂)) :
    enterDeclarations p s = (.ok ids, s') ↔ enterTypes e p.types s₂ = (ids.map .ok, s') := by
  have run : enterDeclarations p s =
      let types := enterTypes (enterPackage (p.module.mapM enterModule s).1 p.package (p.module.mapM enterModule s).2).1 p.types
        (enterPackage (p.module.mapM enterModule s).1 p.package (p.module.mapM enterModule s).2).2
      (Diagnostics.result ⟨types.1.filterMap fun | .error f => some f | .ok _ => none⟩ (types.1.filterMap (·.toOption)),
        types.2) := rfl
  rw [modules, package] at run
  rw [run, Prod.ext_iff, Prod.ext_iff]
  exact and_congr_left' gathered_ok

theorem enterDeclarations_holds (declared : s.Declared) (h : s.Holds ps) (goes : enterDeclarations p s = (.ok ids, s')) :
    TypeDecl.allTyped p.types ∧ s'.Holds (ps ++ [p]) ∧ ids.length = p.types.length := by
  have declared' : s'.Declared := by
    have after := declared.enterDeclarations p
    rwa [goes] at after
  rcases modules : p.module.mapM enterModule s with ⟨m?, s₁⟩
  rcases package : enterPackage m? p.package s₁ with ⟨e, s₂⟩
  obtain ⟨fits, h₂, listed, slot, there, kind, named⟩ := enterPackage_holds declared h p modules package
  obtain ⟨typed, takes, heads, once⟩ :=
    enterTypes_takes there kind p.types ((enterDeclarations_ok modules package).mp goes)
  rw [named] at takes heads
  refine ⟨typed, h₂.take fits declared'.reachable.sound.toConsistent listed takes (once h₂.once) heads, ?_⟩
  have same := congrArg List.length heads
  rw [List.length_map, List.length_map] at same
  exact same.symm

theorem enterDeclarations_accepts (declared : s.Declared) (h : s.Holds ps) (typed : TypeDecl.allTyped p.types)
    (once : (s.typeElements.names ++ p.names).Nodup) :
    ∃ (ids : List ElementId) (s' : Store), enterDeclarations p s = (.ok ids, s') := by
  rcases modules : p.module.mapM enterModule s with ⟨m?, s₁⟩
  rcases package : enterPackage m? p.package s₁ with ⟨e, s₂⟩
  obtain ⟨_, h₂, _, slot, there, kind, named⟩ := enterPackage_holds declared h p modules package
  rw [PackageDecl.names, ← named, h.names, ← h₂.names] at once
  obtain ⟨ids, s', goes⟩ := enterTypes_accepts there kind p.types typed once
  exact ⟨ids, s', (enterDeclarations_ok modules package).mpr goes⟩

variable {n : Nat} {faults : Diagnostics Fault}

theorem enterUnits_holds (declared : s.Declared) (h : s.Holds ps) (goes : enterUnits qs s = ((n, faults), s'))
    (fine : faults.items = []) :
    (∀ q ∈ qs, TypeDecl.allTyped q.types) ∧ s'.Holds (ps ++ qs) ∧ n = (qs.map (·.types.length)).sum := by
  induction qs generalizing s ps n faults with
  | nil =>
    cases goes
    rw [List.append_nil]
    exact ⟨nofun, h, rfl⟩
  | cons q qs ih =>
    rw [enterUnits_cons] at goes
    obtain ⟨found, last⟩ := Prod.mk.inj goes
    rcases outcome : enterDeclarations q s with ⟨refused | ids, s₁⟩
    · have some := gathered_error (congrArg Prod.fst outcome)
      rw [outcome] at found
      cases found
      exact absurd (List.append_eq_nil_iff.mp fine).1 some
    · obtain ⟨typed, h₁, size⟩ := enterDeclarations_holds declared h outcome
      have declared₁ := declared.enterDeclarations q
      rw [outcome] at found last declared₁
      cases found
      obtain ⟨typed', h', count⟩ := ih declared₁ h₁ (Prod.ext rfl last) fine
      refine ⟨?_, by simpa using h', by simp [size, count]⟩
      rintro q' mem
      rcases List.mem_cons.mp mem with rfl | mem
      · exact typed
      · exact typed' q' mem

theorem enterUnits_accepts (declared : s.Declared) (h : s.Holds ps) (typed : ∀ q ∈ qs, TypeDecl.allTyped q.types)
    (once : (s.typeElements.names ++ qs.flatMap (·.names)).Nodup) : ((enterUnits qs s).1.2).items = [] := by
  induction qs generalizing s ps with
  | nil => rfl
  | cons q qs ih =>
    rw [List.flatMap_cons, ← List.append_assoc] at once
    obtain ⟨ids, s₁, goes⟩ := enterDeclarations_accepts declared h (typed q (by simp)) (List.nodup_append.mp once).1
    obtain ⟨_, h₁, _⟩ := enterDeclarations_holds declared h goes
    have declared₁ := declared.enterDeclarations q
    rw [enterUnits_cons, goes]
    rw [goes] at declared₁
    refine ih declared₁ h₁ (fun q mem => typed q (by simp [mem])) ?_
    rw [h₁.names, List.flatMap_append, List.flatMap_singleton, ← h.names]
    exact once

end units

end StoreM

namespace CompileOptions

/-- Every declaration is of a type, and no qualified name is there twice. -/
def ClashFree (o : CompileOptions) : Prop :=
  (∀ p ∈ o.program, TypeDecl.allTyped p.types) ∧ (o.program.flatMap (·.names)).Nodup

theorem finish_not_refused (o : CompileOptions) (p : EnteredProgram) (name : String) (faults : Diagnostics Fault) :
    o.finish p ≠ .error (.refused name faults) := by
  unfold finish
  split
  · split
    split <;> nofun
  · nofun

end CompileOptions

namespace CompileOptions

open Store StoreM

/-- A program without clashes is entered; all of it is in the store, and no other program is. -/
theorem enter_ok {o : CompileOptions} {p : EnteredProgram} (goes : o.enter = .ok p) :
    o.ClashFree ∧ p.store.Declared ∧ p.store.Holds o.program ∧ p.entered = (o.program.map (·.types.length)).sum := by
  unfold enter at goes
  rcases run : (enterUnits o.program).run Store.empty with ⟨⟨n, faults⟩, s⟩
  rw [run] at goes
  dsimp only at goes
  split at goes <;> rename_i some
  · cases goes
  · cases goes
    have fine : faults.items = [] := by simpa [Diagnostics.hasAny, Diagnostics.isEmpty] using some
    obtain ⟨typed, holds, count⟩ := enterUnits_holds .empty holds_empty run fine
    have declared := Declared.enterUnits .empty o.program
    rw [show enterUnits o.program Store.empty = _ from run] at declared
    rw [List.nil_append] at holds
    exact ⟨⟨typed, holds.names ▸ holds.once⟩, declared, holds, count⟩

theorem enter_error {o : CompileOptions} {error : CompileError} (refused : o.enter = .error error) :
    ¬ o.ClashFree ∧ ∃ faults, error = .refused o.name faults ∧ faults.items ≠ [] := by
  unfold enter at refused
  rcases run : (enterUnits o.program).run Store.empty with ⟨⟨n, faults⟩, s⟩
  rw [run] at refused
  dsimp only at refused
  split at refused <;> rename_i some
  · cases refused
    have wrong : faults.items ≠ [] := by simpa [Diagnostics.hasAny, Diagnostics.isEmpty] using some
    refine ⟨fun clashFree => wrong ?_, faults, rfl, wrong⟩
    have fine := enterUnits_accepts .empty holds_empty clashFree.1 clashFree.2
    rwa [show enterUnits o.program Store.empty = _ from run] at fine
  · cases refused

end CompileOptions

open Store in
/-- A compilation enters a program if and only if it has no clashes. Then the index has the names of all its types
in the order in which one reads it, each for its element, the number of entered types is that of the top level, and
each package has the types at the top level of its units. Otherwise something was refused, nothing is heard of the
compilation, and that is its outcome. -/
theorem enters_exactly_without_clashes (o : CompileOptions) :
    match o.enter with
    | .ok p =>
      o.ClashFree ∧ p.store.typeElements.names = o.program.flatMap (·.names) ∧
        (∀ name e, (name, e) ∈ p.store.typeElements → p.store.qualifiedName? e = some name ∧ p.store.IsType e) ∧
        p.entered = (o.program.map (·.types.length)).sum ∧
        (∀ e slot, p.store.slot? e = some slot → slot.kind = .package →
          slot.children.map some = (o.program.filter (·.package = slot.qualifiedName)).flatMap (·.topLevel p.store)) ∧
        ∀ name faults, o.run ≠ .error (.refused name faults)
    | .error error =>
      ¬ o.ClashFree ∧ (∃ faults, error = .refused o.name faults ∧ faults.items ≠ []) ∧ o.run = .error error ∧
        o.course = ([], .error error) := by
  cases goes : o.enter with
  | ok p =>
    obtain ⟨clashFree, declared, holds, count⟩ := o.enter_ok goes
    refine ⟨clashFree, holds.names, fun name e mem => ?_, count, holds.children, fun name faults => ?_⟩
    · have found : p.store.typeElements.find? name = some e := NameIndex.find?_of_mem holds.once mem
      obtain ⟨slot, there, isType, named⟩ := (declared.reachable.sound.typeElements name e).mp found
      exact ⟨by rw [qualifiedName?, there, ← named]; rfl, slot.kind, kind?_eq_some_iff.mpr ⟨slot, there, rfl⟩, isType⟩
    · have run : o.run = o.finish p := by rw [CompileOptions.run, goes]; rfl
      rw [run]
      exact o.finish_not_refused p name faults
  | error error =>
    obtain ⟨clash, refused⟩ := o.enter_error goes
    refine ⟨clash, refused, ?_, ?_⟩
    · rw [CompileOptions.run, goes]
      rfl
    · rw [CompileOptions.course, goes]

end Nominal
