import Nominal.Proofs.Store.Declared
import Nominal.Proofs.Store.Lodging
/-!
Whatever is entered, even if part of it is refused, and whatever is completed in between: every type is listed by the
name that its place gives it, and what a module, package or type lists as inside it is what lies inside it.
-/

namespace Nominal

open Store

namespace Store

def Shelters (s : Store) (o : ElementId) (scope : String) : Prop :=
  ∃ outer, s.slot? o = some outer ∧ (outer.kind.isContainer ∨ outer.isPending) ∧ outer.qualifiedName = scope

structure Arrives (s s' : Store) : Prop where
  start : s.Arranged
  arranged : s'.Arranged
  shelters : ∀ o scope, s.Shelters o scope → s'.Shelters o scope

def Ends (_ s' : Store) : Prop := s'.Arranged

instance : Movement Ends where
  trans _ second := second
  stay move := move

instance : Movement Arrives where
  trans first second := ⟨first.start, second.arranged, fun o scope => second.shelters o scope ∘ first.shelters o scope⟩
  stay move := ⟨move.arranged, move.arranged, fun _ _ => id⟩

variable {s s' : Store} {e o : ElementId} {slot : Slot} {name scope : String}

theorem Arranged.stays (h : s.Arranged) : s.Arrives s := ⟨h, h, fun _ _ => id⟩

theorem Shelters.receive (shelters : s.Shelters o scope) (slot : Slot) : (s.receive slot).Shelters o scope := by
  obtain ⟨outer, there, kind, named⟩ := shelters
  refine ⟨_, slot?_receive_old there, ?_, ?_⟩
  · split
    · refine kind.imp_right fun waits => ?_
      rcases addChild_state ⟨s.elements.size⟩ outer with same | ⟨_, again⟩
      · rwa [Slot.isPending, same]
      · rw [Slot.isPending, again]
    · exact kind
  · split <;> exact named

theorem Arranged.admit_type (h : s.Arranged) (shelters : s.Shelters o scope) {header : TypeHeader}
    (isType : header.kind.isType) (free : s.typeElement? (qualify scope header.name) = none) :
    s.Arrives (s.receive (typeSlot o (qualify scope header.name) header)) where
  start := h
  arranged := by
    have plain : ¬ header.kind.isContainer := ElementKind.isType_not_container isType
    obtain ⟨outer, there, kind, rfl⟩ := shelters
    refine h.receive rfl isType rfl ?_ (fun _ => ⟨o, outer, rfl, there, rfl⟩) (fun same => ?_) (fun same => ?_) fun _ => free
    · rintro _ ⟨⟩
      exact ⟨outer, there, kind⟩
    · exact absurd (show header.kind.isContainer by rw [show header.kind = .module from eq_of_beq same]; rfl) plain
    · exact absurd (show header.kind.isContainer by rw [show header.kind = .package from eq_of_beq same]; rfl) plain
  shelters _ _ shelters := shelters.receive _

end Store

namespace StoreM

variable {s : Store} {o : ElementId} {scope : String}

theorem enterModule_arrives (h : s.Arranged) (name : String) :
    Ensures Arrives s (enterModule name) fun e s' => s'.kind? e = some .module := by
  cases found : s.module? name with
  | some e =>
    obtain ⟨slot, there, kind, _⟩ := (h.modules name e).mp found
    rw [Ensures, enterModule_of_some found]
    exact ⟨h.stays, kind?_eq_some_iff.mpr ⟨slot, there, eq_of_beq kind⟩⟩
  | none =>
    rw [Ensures, enterModule_of_none found]
    have admitted : (s.receive (moduleSlot name)).Arranged :=
      h.receive rfl rfl rfl (by simp [moduleSlot]) (by rintro ⟨⟩) (fun _ => found)
        (by rintro ⟨⟩) (by rintro ⟨⟩)
    have new : (s.receive (moduleSlot name)).kind? ⟨s.elements.size⟩ = some .module :=
      kind?_eq_some_iff.mpr ⟨_, slot?_receive_new (by simp [moduleSlot]), rfl⟩
    exact ⟨⟨h, admitted, fun _ _ shelters => shelters.receive _⟩, new⟩

theorem enterPackage_arrives (h : s.Arranged) {module : Option ElementId}
    (isModule : ∀ m ∈ module, s.kind? m = some .module) (name : String) :
    s.Arrives (enterPackage module name s).2 := by
  cases found : s.package? name with
  | some e =>
    rw [enterPackage_of_some found]
    exact h.stays
  | none =>
    rw [enterPackage_of_none found]
    have admitted : (s.receive (packageSlot module name)).Arranged := by
      refine h.receive rfl rfl rfl (fun m place => ?_) nofun nofun (fun _ => found) nofun
      obtain ⟨outer, there, kind⟩ := kind?_eq_some_iff.mp (isModule m place)
      exact ⟨outer, there, .inl (by rw [kind]; rfl)⟩
    exact ⟨h, admitted, fun _ _ shelters => shelters.receive _⟩

mutual

theorem enterTypeIn_arrives {s : Store} (h : s.Arranged) {o : ElementId} {scope : String} (shelters : s.Shelters o scope) :
    (d : TypeDecl) → Ensures Arrives s (enterTypeIn o scope d).run fun _ _ => True
  | .mk header nested => by
    rw [enterTypeIn]
    refine .except_guard h.stays (fun _ => trivial) fun isType => ?_
    refine .except_get (.except_guard h.stays (fun _ => trivial) fun free => ?_)
    have isType : header.kind.isType := by simpa using isType
    have new : Ensures Arrives s (newTypeElement o (qualify scope header.name) header) fun e s' =>
        s'.Shelters e (qualify scope header.name) := by
      have move := h.admit_type shelters isType (by simpa using free)
      rw [Ensures, newTypeElement_eq o _ isType]
      refine ⟨move, _, slot?_receive_new fun same => ?_, .inr rfl, rfl⟩
      obtain ⟨outer, there, _⟩ := shelters
      cases same
      cases slot?_at_size.symm.trans there
    refine new.except_step fun e s' move inner => ?_
    refine .except_bind (enterTypesIn_arrives move.arranged inner nested) (fun _ _ _ => id) fun _ s'' move' _ => ?_
    exact .pure move'.arranged.stays trivial

theorem enterTypesIn_arrives {s : Store} (h : s.Arranged) {o : ElementId} {scope : String} (shelters : s.Shelters o scope) :
    (ds : List TypeDecl) → Ensures Arrives s (enterTypesIn o scope ds).run fun _ _ => True
  | [] => .pure h.stays trivial
  | d :: ds => by
    rw [enterTypesIn]
    refine .except_bind (enterTypeIn_arrives h shelters d) (fun _ _ _ => id) fun _ s' move _ => ?_
    exact enterTypesIn_arrives move.arranged (move.shelters o scope shelters) ds

end

theorem enterType_arrives (h : s.Arranged) (package : ElementId) (d : TypeDecl) :
    Ensures Arrives s (enterType package d).run fun _ _ => True := by
  refine .except_get ?_
  cases found : s.slot? package with
  | none => exact .pure h.stays trivial
  | some slot =>
    refine .except_guard h.stays (fun _ => trivial) fun kind => ?_
    have container : slot.kind.isContainer := by rw [show slot.kind = .package by simpa using kind]; rfl
    exact enterTypeIn_arrives h ⟨slot, found, .inl container, rfl⟩ d

theorem enterTypes_arrives (package : ElementId) (ds : List TypeDecl) (h : s.Arranged) :
    Ensures Arrives s (enterTypes package ds) fun _ _ => True := by
  induction ds generalizing s with
  | nil => exact .pure h.stays trivial
  | cons d ds ih =>
    rw [enterTypes]
    refine (enterType_arrives h package d).bind fun _ s' move _ => ?_
    exact (ih move.arranged).bind fun _ s'' move' _ => .pure move'.arranged.stays trivial

theorem enterDeclarations_arrives (h : s.Arranged) (p : PackageDecl) :
    Ensures Arrives s (enterDeclarations p) fun _ _ => True := by
  have modules : Ensures Arrives s (p.module.mapM enterModule) fun module s' => ∀ m ∈ module, s'.kind? m = some .module := by
    cases p.module with
    | none => exact .pure h.stays nofun
    | some name =>
      refine .map ((enterModule_arrives h name).imp fun e s' _ kind m same => ?_)
      cases same
      exact kind
  refine modules.bind fun module s₁ move₁ isModule => ?_
  have package : Ensures Arrives s₁ (enterPackage module p.package) fun _ _ => True :=
    ⟨enterPackage_arrives move₁.arranged isModule p.package, trivial⟩
  refine package.bind fun package s₂ move₂ _ => ?_
  refine (enterTypes_arrives package p.types move₂.arranged).bind fun outcomes s₃ move₃ _ => ?_
  exact .pure move₃.arranged.stays trivial

section locals

variable {kind : ElementKind}

theorem hosting_keeps {α : Type} {m : StoreM α} (keeping : Keeping (Lodges Nothing) m) (h : s.Arranged)
    {k : ElementKind} (hosts : s.Hosts o k) : Ensures Ends s m fun _ s' => s'.Hosts o k :=
  ⟨(keeping s h).arranged, (keeping s h).hosts hosts⟩

theorem complete_hosts (h : s.Arranged) (orderly : s.Orderly) (closed : ∀ e, ¬ s.Open e) (o : ElementId) :
    Ensures Ends s (complete o) fun r s' => r.kind.isExecutable → s'.Hosts o r.kind := by
  have move : s.Lodged Nothing (complete o s).2 := keeping_complete (R := Lodges Nothing) o s h
  refine ⟨move.arranged, fun executable => ?_⟩
  cases found : s.slot? o with
  | none =>
    rw [complete_eq_step orderly, Completion.step_of_absent found] at executable
    cases executable
  | some slot =>
    have kind : (complete o s).1.kind = slot.kind := (complete_describes orderly found (closed o)).kind
    rw [kind] at executable ⊢
    obtain ⟨plain, other⟩ : ¬ slot.kind.isContainer ∧ ¬ slot.kind.isType := by
      revert executable
      cases slot.kind <;> decide
    obtain ⟨state, found', _⟩ := move.slots o slot found
    refine ⟨_, found', rfl, plain, fun waits => ?_, fun isType => absurd isType other⟩
    obtain ⟨work, same⟩ := Slot.isPending_iff.mp waits
    have suits := move.arranged.suits o _ work found' same
    cases work with
    | container => exact plain suits
    | type _ => exact other suits

theorem addChild_arranged (h : s.Arranged) {k : ElementKind} (hosts : s.Hosts o k) (e : ElementId) (other : ¬ k.isType) :
    (s.addChild o e).Arranged := by
  obtain ⟨slot, found, rfl, plain, settled, _⟩ := hosts
  have state : (Slot.addChild e slot).state = slot.state :=
    (addChild_state e slot).resolve_right fun again => plain again.1
  refine h.update found (fun _ => rfl) (fun work same => ?_) (fun kind => ?_) fun r kind _ => (kind.elim plain other).elim
  · exact h.suits o slot work found (state.symm.trans same)
  · rw [Slot.isPending, state] at kind
    exact (kind.elim plain settled).elim

theorem enterLocal_arranged (h : s.Arranged) (orderly : s.Orderly) (closed : ∀ e, ¬ s.Open e) (owner : ElementId)
    (kind : ElementKind) (name : String) (type : TypeExpr) : (enterLocal owner kind name type s).2.Arranged := by
  suffices Ensures Ends s (enterLocal owner kind name type).run fun _ _ => True from this.1
  unfold enterLocal
  refine .except_guard h (fun _ => trivial) fun isLocal => ?_
  refine .except_step (complete_hosts h orderly closed owner) fun r s₁ h₁ hosts => ?_
  refine .except_guard h₁ (fun _ => trivial) fun executable => ?_
  have executable : r.kind.isExecutable := by simpa using executable
  refine .except_step (hosting_keeps (keeping_scopeWithin owner) h₁ (hosts executable)) fun sc s₂ h₂ hosts => ?_
  refine .except_step (hosting_keeps (ResolveM.keeping_resolve type sc) h₂ hosts) fun ⟨t, sc'⟩ s₃ h₃ hosts => ?_
  obtain ⟨plain, other⟩ : ¬ kind.isContainer ∧ ¬ kind.isType := by
    revert isLocal
    cases kind <;> decide
  let record (id : ElementId) : ElementRecord :=
    { id, kind, simpleName := name, enclosing := some owner, asType := t, nesting := .body
      erroneous := 0 < sc'.unresolved }
  have entered : s₃.Lodged (· = owner) (newComplete record s₃).2 :=
    h₃.lodged_push hosts rfl nofun plain other (.inl rfl)
  have added : Ensures Ends s₃ (newComplete record) fun _ s' => s'.Hosts owner r.kind :=
    ⟨entered.arranged, entered.hosts hosts⟩
  refine .except_step added fun e s₄ h₄ hosts => ?_
  refine ⟨addChild_arranged h₄ hosts e ?_, trivial⟩
  revert executable
  cases r.kind <;> decide

end locals

end StoreM

def Request.Places (r : Request) (s : Store) : Prop :=
  ∀ m name, r = .enterPackage (some m) name → s.kind? m = some .module

namespace Store

/-- The stores that one comes to by asking for anything, be it granted or refused, where packages are entered into
nothing else than modules. -/
inductive Attained : Store → Prop
  | empty : Attained empty
  | ask {s : Store} (r : Request) : Attained s → r.Places s → Attained (r.run s).2

namespace Attained

variable {s : Store}

theorem orderly (attained : s.Attained) : s.Orderly := by
  induction attained with
  | empty => exact orderly_empty
  | @ask s r _ _ ih => exact (Request.keeping_run (R := Follows) r s).orderly ih

theorem closed (attained : s.Attained) (e : ElementId) : ¬ s.Open e := by
  induction attained with
  | empty =>
    rintro ⟨slot, found, _⟩
    simp [slot?, Store.empty] at found
  | @ask s r _ _ ih => exact fun isOpen => (((Request.keeping_run (R := Keeps) r s).opens e).mp isOpen).elim ih id

/-- No request, granted or refused, takes anything out of its place. -/
theorem arranged (attained : s.Attained) : s.Arranged := by
  induction attained with
  | empty => exact .empty
  | @ask s r attained places ih =>
    cases asks : r.asks with
    | true => exact (Request.keeping_run_asks (R := Lodges Nothing) r asks s ih).arranged
    | false =>
      cases r with
      | enterModule name => exact (StoreM.enterModule_arrives ih name).1.arranged
      | enterPackage module name =>
        refine (StoreM.enterPackage_arrives ih ?_ name).arranged
        rintro m ⟨⟩
        exact places m name rfl
      | enterType package d => exact (StoreM.enterType_arrives ih package d).1.arranged
      | enterDeclarations p => exact (StoreM.enterDeclarations_arrives ih p).1.arranged
      | enterLocal owner kind name type =>
        exact StoreM.enterLocal_arranged ih attained.orderly attained.closed owner kind name type
      | _ => cases asks

end Attained

end Store

open StoreM in
/-- Whatever was requested before, be it granted or refused, the types are listed once each, by their qualified names,
and the qualified name of a type is what its place and its simple name make it. And what the record of a module,
package or type lists as inside it is, each once, what was put into it and is no type parameter; no completion puts
anything into modules, packages and types that are complete. -/
theorem names_and_places_agree {s : Store} (attained : s.Attained) :
    (s.typeElements.names.Nodup ∧ s.typeElements.elements.Nodup ∧ ∀ name e, s.typeElement? name = some e ↔
      ∃ slot, s.slot? e = some slot ∧ slot.kind.isType ∧ slot.qualifiedName = name) ∧
    (∀ e slot, s.slot? e = some slot → slot.kind.isType → ∃ o outer, slot.enclosing = some o ∧ s.slot? o = some outer ∧
      slot.qualifiedName =
        if outer.qualifiedName = "" then slot.simpleName else outer.qualifiedName ++ "." ++ slot.simpleName) ∧
    ∀ p k r s', s.kind? p = some k → k.isContainer ∨ k.isType → complete p s = (r, s') →
      r.enclosed.Nodup ∧
      (∀ c, c ∈ r.enclosed ↔ ∃ slot, s'.slot? c = some slot ∧ slot.enclosing = some p ∧ slot.kind ≠ .typeParameter) ∧
      (k.isContainer ∨ s.isComplete p →
        ∀ c, c ∈ r.enclosed ↔ ∃ slot, s.slot? c = some slot ∧ slot.enclosing = some p ∧ slot.kind ≠ .typeParameter) := by
  have arranged := attained.arranged
  refine ⟨⟨arranged.once, arranged.typeElements.elements_nodup arranged.once, arranged.typeElements⟩, ?_, ?_⟩
  · intro e slot found isType
    obtain ⟨o, outer, place, there, name⟩ := arranged.named e slot found isType
    refine ⟨o, outer, place, there, name.trans ?_⟩
    simp only [qualify, String.isEmpty_iff, toString]
  · intro p k r s' known kind completes
    obtain ⟨slot, found, rfl⟩ := kind?_eq_some_iff.mp known
    have move : s.Lodged Nothing s' := by
      have move := keeping_complete (R := Lodges Nothing) p s arranged
      rwa [completes] at move
    obtain ⟨state, found', waited, _⟩ := move.slots p slot found
    have published := ((complete_settles s p).result completes).2 (has_element_iff.mpr ⟨slot, found⟩) (attained.closed p)
    obtain ⟨_, again, done⟩ := record?_eq_some_iff.mp published
    cases found'.symm.trans again
    have lists := move.arranged.enclosed p _ r found' kind done
    refine ⟨lists.nodup_iff.mpr (inside_nodup s' p), fun c => lists.mem_iff.trans mem_inside, fun free c => ?_⟩
    have same : s'.inside p = s.inside p := by
      refine move.inside p slot found (free.imp_right fun complete => .inl fun waits => ?_) id
      obtain ⟨r', complete⟩ := Option.isSome_iff_exists.mp complete
      obtain ⟨_, again, done⟩ := record?_eq_some_iff.mp complete
      cases found.symm.trans again
      rw [Slot.isPending, done] at waits
      cases waits
    rw [lists.mem_iff, same, mem_inside]

section sample

namespace Store

def orderDeclaration : TypeDecl :=
  .mk { kind := .classType, name := "Order", typeParameters := [{ name := "T" }], members := [.field "content" (.var "T") []] }
    [.mk { kind := .recordType, name := "Line" } [], .mk { kind := .recordType, name := "Line" } [],
      .mk { kind := .recordType, name := "Total" } []]

@[irreducible] def partlyEntered : Store :=
  (([.enterModule "shop", .enterPackage (some ⟨0⟩) "orders", .enterType ⟨1⟩ orderDeclaration].forM Request.run).run .empty).2

theorem attained_partlyEntered : partlyEntered.Attained := by
  unfold partlyEntered
  refine .ask (.enterType ⟨1⟩ orderDeclaration) (.ask (.enterPackage (some ⟨0⟩) "orders") (.ask (.enterModule "shop") .empty nofun) ?_)
    nofun
  rintro m name ⟨⟩
  decide +kernel

end Store

open StoreM in
/-- The types before the refusal are listed, and the field joins the nested type inside what declares them, but the
type parameter does not. -/
theorem partly_entered_names_and_places_agree :
    partlyEntered.typeElement? "orders.Order.Line" = some ⟨3⟩ ∧ partlyEntered.typeElement? "orders.Order.Total" = none ∧
    partlyEntered.typeElements.names.Nodup ∧
    ∃ r s', complete ⟨2⟩ partlyEntered = (r, s') ∧ r.enclosed.Nodup ∧ ⟨3⟩ ∈ r.enclosed ∧ ⟨4⟩ ∉ r.enclosed ∧ ⟨5⟩ ∈ r.enclosed := by
  obtain ⟨⟨once, _⟩, _, records⟩ := names_and_places_agree attained_partlyEntered
  have completes : complete ⟨2⟩ partlyEntered = ((complete ⟨2⟩ partlyEntered).1, (complete ⟨2⟩ partlyEntered).2) := rfl
  obtain ⟨once', lists, _⟩ := records ⟨2⟩ .classType _ _ (by decide +kernel) (.inr rfl) completes
  have placed (c : ElementId) : c ∈ (complete ⟨2⟩ partlyEntered).1.enclosed ↔
      ((complete ⟨2⟩ partlyEntered).2.slot? c).any fun slot => slot.enclosing == some ⟨2⟩ && slot.kind != .typeParameter := by
    rw [lists c, Option.any_eq_true]
    simp only [Bool.and_eq_true, beq_iff_eq, bne_iff_ne]
  refine ⟨by decide +kernel, by decide +kernel, once, _, _, completes, once', ?_, ?_, ?_⟩
  all_goals
    rw [placed]
    decide +kernel

end sample

end Nominal
