import Mathlib.Data.List.Find
import Nominal.Proofs.Recipe.Naming
import Nominal.Types.Membership
/-!
Looking members up: the first of what an element owns that has the kind, the name and, for constructors
and methods, the erased parameter types. Once the owner is complete the answer is final.
-/

namespace Nominal

namespace ElementKind

def isValue (k : ElementKind) : Bool := k == field || k == enumConstant || k == parameter

theorem isOwned_of_value {k : ElementKind} (value : k.isValue) : k.isOwned := by
  revert value
  cases k <;> decide

theorem isMember_of_value {k : ElementKind} (value : k.isValue) (other : k ≠ parameter) : k.isMember := by
  revert value other
  cases k <;> decide

end ElementKind

namespace Store

variable (s : Store)

def isCalled (name : String) (e : ElementId) : Bool := (s.slot? e).any (·.simpleName == name)

def lookup (o : ElementId) (p : ElementKind → Bool) (name : String) : Option ElementId :=
  (s.ownedOf o p).find? (s.isCalled name)

def overload (o : ElementId) (kind : ElementKind) (name : String) (wanted : List TypeTree) :
    Option ElementId :=
  (s.ownedOf o (· == kind)).find? fun e => s.isCalled name e && TypeTree.sameAll (s.signature e) wanted

variable {s} {s' : Store} {o e : ElementId} {r : ElementRecord} {slot : Slot} {name : String}

theorem Grown.isCalled (move : s.Grown s') (there : s.HasElement e) (name : String) :
    s'.isCalled name e = s.isCalled name e := by
  obtain ⟨slot, found⟩ := has_element_iff.mp there
  obtain ⟨children, state, found'⟩ := move.slot found
  rw [Store.isCalled, Store.isCalled, found, found', Option.any_some, Option.any_some]

theorem there_of_ownedOf {p : ElementKind → Bool} (mem : e ∈ s.ownedOf o p) : s.HasElement e := by
  obtain ⟨slot, found, _⟩ := mem_ownedOf.mp mem
  exact has_element_iff.mpr ⟨slot, found⟩

theorem Grown.owned_of_record (move : s.Grown s') (recorded : s.record? o = some r)
    (p : ElementKind → Bool) : s'.ownedOf o p = s.ownedOf o p := by
  obtain ⟨slot, found, state⟩ := record?_eq_some_iff.mp recorded
  by_cases container : slot.kind.isContainer
  · obtain ⟨children, state', found'⟩ := move.slot found
    rw [move.start.ownedOf_container found container, move.sound.ownedOf_container found' container]
  · exact move.grows.ownedOf (move.grows.owned o slot r found container state) p

theorem Retains.valueType (move : s.Retains s') (kind : s.kind? e = some .parameter) :
    s'.erased (s'.valueType e) = s.erased (s.valueType e) := by
  obtain ⟨r, recorded⟩ := move.start.record_of_owned kind (by decide)
  obtain ⟨slot, _, fits⟩ := move.start.fits recorded
  rw [Store.valueType, Store.valueType, move.record kind (by decide), recorded]
  exact move.erased fits.asType

theorem kind_of_parameter (mem : e ∈ s.parameters o) : s.kind? e = some .parameter := by
  obtain ⟨slot, found, _, _, kind⟩ := mem_ownedOf.mp mem
  exact kind?_eq_some_iff.mpr ⟨slot, found, by simpa using kind⟩

theorem Grown.parameters (move : s.Grown s') {k : ElementKind} (kind : s.kind? e = some k)
    (owned : k.isOwned) : s'.parameters e = s.parameters e :=
  move.ownedOf kind owned _

theorem Retains.signature (move : s.Retains s') {k : ElementKind} (kind : s.kind? e = some k)
    (owned : k.isOwned) : s'.signature e = s.signature e := by
  rw [Store.signature, Store.signature, move.parameters kind owned]
  exact List.map_congr_left fun p mem => move.valueType (kind_of_parameter mem)

theorem Grown.lookup (move : s.Grown s') (recorded : s.record? o = some r)
    (p : ElementKind → Bool) (name : String) : s'.lookup o p name = s.lookup o p name := by
  rw [Store.lookup, Store.lookup, move.owned_of_record recorded]
  exact List.find?_congr fun e mem => move.isCalled (there_of_ownedOf mem) name

theorem Retains.overload (move : s.Retains s') (recorded : s.record? o = some r) {k : ElementKind}
    (name : String) (wanted : List TypeTree) :
    s'.overload o k name wanted = s.overload o k name wanted := by
  rw [Store.overload, Store.overload, move.owned_of_record recorded]
  refine List.find?_congr fun e mem => ?_
  obtain ⟨slot, found, owned, _⟩ := mem_ownedOf.mp mem
  have kind : s.kind? e = some slot.kind := kind?_eq_some_iff.mpr ⟨slot, found, rfl⟩
  rw [move.isCalled (there_of_ownedOf mem), move.signature kind owned]

theorem find?_ownedOf (p : ElementKind → Bool) (q : ElementId → Bool) :
    (s.ownedOf o p).find? q = (s.owned o).find? fun e => (s.kind? e).any p && q e := by
  rw [ownedOf, List.find?_filter]
  exact List.find?_congr fun e _ => by simp

theorem find?_enclosed (fits : s.RecordFits o slot r) {q : ElementId → Bool}
    (owned : ∀ e, q e → ∃ k, s.kind? e = some k ∧ k.isOwned)
    (member : ∀ e ∈ s.owned o, q e → ∃ k, s.kind? e = some k ∧ k.isMember) :
    r.enclosed.find? q = (s.owned o).find? q := by
  obtain ⟨rest, enclosed, free⟩ := fits.enclosed
  have nothing : rest.find? q = none := by
    refine List.find?_eq_none.mpr fun c mem found => ?_
    obtain ⟨k, kind, isOwned⟩ := owned c found
    obtain ⟨k', kind', other⟩ := free c mem
    rw [kind] at kind'
    cases kind'
    exact other isOwned
  rw [enclosed, List.find?_append, nothing, Option.or_none, find?_ownedOf]
  refine List.find?_congr fun e mem => ?_
  cases found : q e with
  | false => simp
  | true =>
    obtain ⟨k, kind, isMember⟩ := member e mem found
    simp [kind, isMember]

theorem there_of_enclosed (fits : s.RecordFits o slot r) (mem : e ∈ r.enclosed) : s.HasElement e := by
  obtain ⟨rest, enclosed, free⟩ := fits.enclosed
  rw [enclosed, List.mem_append] at mem
  rcases mem with mem | mem
  · exact there_of_ownedOf mem
  · obtain ⟨k, kind, _⟩ := free e mem
    obtain ⟨slot', found, _⟩ := kind?_eq_some_iff.mp kind
    exact has_element_iff.mpr ⟨slot', found⟩

theorem Sound.parameter_iff (h : s.Sound) (found : s.slot? o = some slot) (mem : e ∈ s.owned o)
    {k : ElementKind} (kind : s.kind? e = some k) (value : k.isValue) :
    k = .parameter ↔ slot.kind.isExecutable := by
  obtain ⟨slotₑ, foundₑ, owned, enclosing⟩ := mem_owned.mp mem
  obtain ⟨o', k', enclosing', _, kind', admits⟩ := (h.slots e slotₑ foundₑ).placed
    (ElementKind.isOwned_not_container owned)
  cases enclosing.symm.trans enclosing'
  simp only [kind?, found, foundₑ, Option.map_some, Option.some.injEq] at kind kind'
  subst kind kind'
  revert admits value
  generalize slot.kind = k'
  cases slotₑ.kind <;> cases k' <;> decide

end Store

namespace StoreM

open Store

variable {s s' : Store} {o e : ElementId} {name : String}

theorem findM_ensures {α : Type} {p : α → StoreM Bool} {q : α → Bool} {as : List α} (h : s.Sound)
    (each : ∀ a ∈ as, ∀ s', s.Advances s' → Ensures Advances s' (p a) fun b _ => b = q a) :
    Ensures Advances s (findM p as) fun r _ => r = as.find? q := by
  induction as generalizing s with
  | nil => exact .pure h.stays rfl
  | cons a as ih =>
    rw [findM]
    refine (each a (by simp) s h.stays).bind fun b s₁ move same => ?_
    rw [same, List.find?_cons]
    cases q a with
    | true => exact .pure move.sound.stays rfl
    | false => exact ih move.sound fun a mem s' later => each a (by simp [mem]) s' (Movement.trans move later)

theorem allM_ensures {α : Type} {p : α → StoreM Bool} {q : α → Bool} {as : List α} (h : s.Sound)
    (each : ∀ a ∈ as, ∀ s', s.Advances s' → Ensures Advances s' (p a) fun b _ => b = q a) :
    Ensures Advances s (as.allM p) fun b _ => b = as.all q := by
  induction as generalizing s with
  | nil => exact .pure h.stays rfl
  | cons a as ih =>
    rw [List.allM]
    refine (each a (by simp) s h.stays).bind fun b s₁ move same => ?_
    rw [same, List.all_cons]
    cases q a with
    | false => exact .pure move.sound.stays rfl
    | true => exact ih move.sound fun a mem s' later => each a (by simp [mem]) s' (Movement.trans move later)

theorem complete_fits (move : s.Advances s') {slot : Slot} (found : s.slot? e = some slot) :
    Ensures Advances s' (complete e) fun r s'' => s''.RecordFits e slot r := by
  have there := move.moves.grows.has_element (has_element_iff.mpr ⟨slot, found⟩)
  refine (complete_record move.sound there).imp fun r s'' later recorded => ?_
  exact (Movement.trans move later).fits found recorded

theorem isNamed_ensures (there : s.HasElement e) (move : s.Advances s') :
    Ensures Advances s' (isNamed name e) fun b _ => b = s.isCalled name e := by
  obtain ⟨slot, found⟩ := has_element_iff.mp there
  refine (complete_fits move found).bind fun r s₁ later fits => .pure later.sound.stays ?_
  rw [isCalled, found, fits.simpleName, Option.any_some]

theorem isVariableNamed_ensures (there : s.HasElement e) (move : s.Advances s') :
    Ensures Advances s' (isVariableNamed name e) fun b _ =>
      b = ((s.kind? e).any (·.isValue) && s.isCalled name e) := by
  obtain ⟨slot, found⟩ := has_element_iff.mp there
  refine (complete_fits move found).bind fun r s₁ later fits => .pure later.sound.stays ?_
  rw [isCalled, kind?, found, fits.simpleName, fits.kind]
  rfl

def Settled {α : Type} (s : Store) (x : Store → α) (a : α) : Prop := ∀ s', s.Advances s' → x s' = a

theorem named_ensures {r : ElementRecord} {p : ElementKind → Bool} (h : s.Sound)
    (recorded : s.record? o = some r) (name : String) :
    Ensures Advances s (findM (isNamed name) (s.ownedOf o p)) fun e? s' =>
      Settled s' (·.lookup o p name) e? := by
  have found : Ensures Advances s (findM (isNamed name) (s.ownedOf o p)) _ :=
    findM_ensures h fun e mem s' later => isNamed_ensures (there_of_ownedOf mem) later
  refine found.imp fun e? s₁ move same s₂ later => ?_
  exact ((Movement.trans move later).lookup recorded p name).trans same.symm

theorem typeParameter?_ensures (h : s.Sound) (there : s.HasElement o) (name : String) :
    Ensures Advances s (typeParameter? o name) fun e? s' =>
      Settled s' (·.lookup o (· == .typeParameter) name) e? := by
  refine (complete_record h there).bind fun r s₁ move recorded => ?_
  obtain ⟨slot, _, fits⟩ := move.sound.fits recorded
  rw [fits.typeParameters]
  exact named_ensures move.sound recorded name

theorem recordComponent?_ensures (h : s.Sound) (there : s.HasElement o) (name : String) :
    Ensures Advances s (recordComponent? o name) fun e? s' =>
      Settled s' (·.lookup o (· == .recordComponent) name) e? := by
  refine (complete_record h there).bind fun r s₁ move recorded => ?_
  obtain ⟨slot, _, fits⟩ := move.sound.fits recorded
  rw [fits.components]
  exact named_ensures move.sound recorded name

theorem variables_ensures {r : ElementRecord} {es : List ElementId} (h : s.Sound)
    (recorded : s.record? o = some r) (name : String) (there : ∀ e ∈ es, s.HasElement e)
    (all : es.find? (fun e => (s.kind? e).any (·.isValue) && s.isCalled name e) =
      s.lookup o (·.isValue) name) :
    Ensures Advances s (findM (isVariableNamed name) es) fun e? s' =>
      Settled s' (·.lookup o (·.isValue) name) e? := by
  have found : Ensures Advances s (findM (isVariableNamed name) es) _ :=
    findM_ensures h fun e mem s' later => isVariableNamed_ensures (there e mem) later
  refine found.imp fun e? s₁ move same s₂ later => ?_
  exact ((Movement.trans move later).lookup recorded _ name).trans (all.symm.trans same.symm)

theorem memberVariable?_ensures (h : s.Sound) (there : s.HasElement o) (name : String) :
    Ensures Advances s (memberVariable? o name) fun e? s' =>
      Settled s' (·.lookup o (·.isValue) name) e? := by
  refine (complete_record h there).bind fun r s₁ move recorded => ?_
  obtain ⟨slot, found, fits⟩ := move.sound.fits recorded
  split
  · rename_i executable
    refine variables_ensures move.sound recorded name (fun e mem => ?_) ?_
    · exact there_of_ownedOf (fits.parameters ▸ mem)
    rw [lookup, fits.parameters, find?_ownedOf, find?_ownedOf]
    refine List.find?_congr fun e mem => ?_
    cases kind : s₁.kind? e with
    | none => simp
    | some k =>
      have iff := move.sound.parameter_iff found mem kind
      rw [← fits.kind] at iff
      by_cases value : k.isValue <;> simp_all
  · rename_i other
    refine variables_ensures move.sound recorded name (fun e => there_of_enclosed fits) ?_
    rw [lookup, find?_ownedOf]
    refine find?_enclosed fits (fun e value => ?_) fun e mem value => ?_
    · obtain ⟨k, kind, value⟩ := (Option.any_eq_true _ _).mp (Bool.and_elim_left value)
      exact ⟨k, kind, ElementKind.isOwned_of_value value⟩
    · obtain ⟨k, kind, value⟩ := (Option.any_eq_true _ _).mp (Bool.and_elim_left value)
      refine ⟨k, kind, ElementKind.isMember_of_value value fun same => other ?_⟩
      exact fits.kind ▸ (move.sound.parameter_iff found mem kind value).mp same

theorem erasesTo_ensures (h : s.Sound) (kind : s.kind? e = some .parameter) {t : TypeId}
    (move : s.Advances s') (known : s'.HasType t) :
    Ensures Advances s' (erasesTo e t) fun b _ => b = (s.erased (s.valueType e)).same (s'.tree t) := by
  have erased : Ensures Advances s' ((do erase (← complete e).asType) >>= fun t' => do
      return (← MonadState.get).sameType t' t) fun b _ => b = (s.erased (s.valueType e)).same (s'.tree t) := by
    refine (erasedType_ensures h kind move).bind fun t' s₁ move₁ ⟨_, tree⟩ => ?_
    refine .get (.pure move₁.sound.stays ?_)
    rw [sameType_tree move₁.sound.toConsistent, tree, move₁.tree known]
  exact erased

theorem fitsSignature_ensures (h : s.Sound) (there : s.HasElement e) {k : ElementKind}
    (executable : k.isExecutable) {wanted : List TypeId} (move : s.Advances s')
    (known : ∀ t ∈ wanted, s'.HasType t) :
    Ensures Advances s' (fitsSignature k name wanted e) fun b _ =>
      b = ((s.kind? e).any (· == k) && (s.isCalled name e &&
        TypeTree.sameAll (s.signature e) (wanted.map s'.tree))) := by
  obtain ⟨slot, found⟩ := has_element_iff.mp there
  refine (complete_fits move found).bind fun r s₁ later fits => ?_
  have kind : s.kind? e = some slot.kind := kind?_eq_some_iff.mpr ⟨slot, found, rfl⟩
  rw [kind, Option.any_some, isCalled, found, Option.any_some, fits.kind, fits.simpleName]
  split
  · rename_i same
    obtain ⟨rfl, rfl, length⟩ := same
    have owned : slot.kind.isOwned := ElementKind.isOwned_of_executable executable
    have from₁ := Movement.trans move later
    have parameters : r.parameters = s.parameters e := fits.parameters.trans (from₁.parameters kind owned)
    rw [parameters] at length ⊢
    let q (pt : ElementId × TypeId) : Bool := (s.erased (s.valueType pt.1)).same (s'.tree pt.2)
    refine (allM_ensures (q := q) later.sound fun pt mem s₂ later₂ => ?_).imp fun b s₂ _ result => ?_
    · have from₂ := Movement.trans later later₂
      have known' := known _ (List.of_mem_zip mem).2
      dsimp only [q]
      rw [← from₂.tree known']
      exact erasesTo_ensures h (kind_of_parameter (List.of_mem_zip mem).1) (Movement.trans move from₂)
        (from₂.moves.grows.has_type known')
    rw [result, signature, TypeTree.sameAll_map _ length]
    simp [q]
  · rename_i other
    refine .pure later.sound.stays ?_
    by_cases kind' : slot.kind = k
    · by_cases name' : slot.simpleName = name
      · have parameters : r.parameters = s.parameters e :=
          fits.parameters.trans ((Movement.trans move later).parameters kind
            (kind' ▸ ElementKind.isOwned_of_executable executable))
        have length : (s.signature e).length ≠ (wanted.map s'.tree).length := by
          rw [signature, List.length_map, List.length_map, ← parameters]
          exact fun same => other ⟨kind', name', same⟩
        simp [TypeTree.sameAll_length length]
      · simp [name']
    · simp [kind']

theorem executable?_ensures (h : s.Sound) (there : s.HasElement o) {k : ElementKind} (name : String)
    {wanted : List TypeId} (known : ∀ t ∈ wanted, s.HasType t) :
    Ensures Advances s (executable? o k name wanted) fun e? s' =>
      Settled s' (fun s => if k.isExecutable then
        s.overload o k name (wanted.map fun t => s.erased (s.tree t)) else none) e? := by
  rw [executable?]
  cases executable : k.isExecutable with
  | false => exact .pure h.stays fun _ _ => rfl
  | true =>
    refine (complete_record h there).bind fun r s₁ move recorded => ?_
    obtain ⟨slot, found, fits⟩ := move.sound.fits recorded
    have erased : Ensures Advances s₁ (wanted.mapM erase) fun ts s' =>
        s'.Made (fun t => s.erased (s.tree t)) wanted ts := by
      refine Made.ensures move.sound fun t mem s' move' => ?_
      have from' := Movement.trans move move'
      rw [← from'.erased (known t mem)]
      exact erase_ensures from'.sound (from'.moves.grows.has_type (known t mem))
    refine erased.bind fun ts s₂ move₂ made => ?_
    let W := wanted.map fun t => s.erased (s.tree t)
    let q (e : ElementId) : Bool :=
      (s₁.kind? e).any (· == k) && (s₁.isCalled name e && TypeTree.sameAll (s₁.signature e) W)
    have searched : Ensures Advances s₂ (findM (fitsSignature k name ts) r.enclosed)
        fun e? _ => e? = r.enclosed.find? q :=
      findM_ensures move₂.sound fun e mem s₃ move₃ => by
        have made' := made.advance move₃
        have result : Ensures Advances s₃ (fitsSignature k name ts e) _ :=
          fitsSignature_ensures move.sound (there_of_enclosed fits mem) executable
            (Movement.trans move₂ move₃) made'.known
        rw [made'.map_tree] at result
        exact result
    have owned (e : ElementId) (found : q e) : ∃ k', s₁.kind? e = some k' ∧ k'.isMember := by
      obtain ⟨k', kind, same⟩ := (Option.any_eq_true _ _).mp (Bool.and_elim_left found)
      exact ⟨k', kind, ElementKind.isMember_of_executable (eq_of_beq same ▸ executable)⟩
    have all : r.enclosed.find? q = s₁.overload o k name W := by
      rw [overload, find?_ownedOf]
      exact find?_enclosed fits (fun e found => (owned e found).imp fun _ h =>
        ⟨h.1, by simp [ElementKind.isOwned, h.2]⟩) fun e _ => owned e
    refine searched.imp fun e? s₃ move₃ same s₄ later => ?_
    have to₄ : s₁.Advances s₄ := Movement.trans (Movement.trans move₂ move₃) later
    have trees : (wanted.map fun t => s₄.erased (s₄.tree t)) = W :=
      List.map_congr_left fun t mem => (Movement.trans move to₄).erased (known t mem)
    dsimp only
    rw [if_pos rfl, trees, to₄.overload recorded, ← all, same]

end StoreM

end Nominal
