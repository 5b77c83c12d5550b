import Nominal.Proofs.Store.Immutable
import Nominal.Proofs.Store.Nested
/-!
Completion comes to an end, in whatever cycles declarations refer to each other: nothing is completed twice,
nothing is left half complete, and walks outward from an element come to older ones all the time.
-/

namespace Nominal

open Store

instance : Gentle Follows where
  refl := Follows.refl
  trans := Follows.trans
  aside elements _ _ _ _ := follows_aside elements
  pushType _ _ := follows_aside rfl
  pushSettled _ _ simple fits := follows_pushSlot fits fun _ generic => absurd generic simple

instance : Tame Follows where
  complete e s :=
    ⟨Hosting.headings (StoreM.complete_settles s e).1, fun orderly => (StoreM.complete_accounts orderly e).orderly orderly⟩

instance : Receptive Follows where
  headings := Follows.headings
  listed elements _ _ _ := follows_aside elements
  pushPending _ _ fits placed := follows_pushSlot fits fun _ => placed
  addChild _ := follows_addChild

namespace Store

variable {s s' : Store} {e : ElementId} {slot : Slot} {rs : List Request}

theorem orderly_empty : empty.Orderly where
  slots e slot found := by simp [slot?, empty] at found
  placed e slot o found := by simp [slot?, empty] at found

theorem orderly_of_requests (goes : (rs.forM Request.run).run empty = ((), s)) : s.Orderly := by
  have follows : empty.Follows _ := Request.keeping_all rs empty
  rw [show rs.forM Request.run empty = ((), s) from goes] at follows
  exact follows.orderly orderly_empty

section walks

/-- Whoever looks for the package around an element finds it within as many steps as there are older elements. -/
theorem packageNameN_enough (orderly : s.Orderly) {fuel fuel' : Nat} (encloses : s.Encloses e)
    (deep : e.index < fuel) (deep' : e.index < fuel') : s.packageNameN fuel (some e) = s.packageNameN fuel' (some e) := by
  induction fuel generalizing fuel' e with
  | zero => exact absurd deep (Nat.not_lt_zero _)
  | succ fuel ih =>
    obtain ⟨fuel', rfl⟩ := Nat.exists_eq_succ_of_ne_zero (Nat.ne_zero_of_lt deep')
    obtain ⟨slot, found, kind⟩ := encloses
    rw [packageNameN, packageNameN, found]
    dsimp only
    split <;> rename_i package
    · rfl
    · cases enclosing : slot.enclosing with
      | none => cases fuel <;> cases fuel' <;> rfl
      | some o =>
        obtain ⟨older, outer⟩ := orderly.placed e slot o found (kind.resolve_left package) enclosing
        exact ih outer (by omega) (by omega)

end walks

end Store

namespace Completion

open StoreM

variable {s : Store} {e : ElementId} {slot : Slot} {again : Again}

theorem step_enclosing (orderly : s.Orderly) (found : s.slot? e = some slot) :
    (step again e s).1.enclosing = slot.enclosing := by
  have fits := orderly.slots e slot found
  cases state : slot.state with
  | complete r =>
    rw [step_of_complete found state]
    exact (fits.described r state).enclosing
  | completing =>
    rw [step_of_completing found state]
    rfl
  | pending work =>
    cases work with
    | container =>
      rw [step_of_container found state]
      rfl
    | type h =>
      rw [step_of_type found state rfl]
      exact (completeType_describes again _ (fits.announced h state)).enclosing

/-- However many steps are allowed, a walk outward takes no more than there are older elements. -/
theorem visibleVariablesN_enough {fuel fuel' : Nat} {e? : Option ElementId}
    (deep : ∀ e, e? = some e → e.index < fuel) (deep' : ∀ e, e? = some e → e.index < fuel') :
    Coincide .orderly (visibleVariablesN complete fuel e?) (visibleVariablesN complete fuel' e?) := by
  induction fuel generalizing fuel' e? with
  | zero =>
    cases e? with
    | none => cases fuel' <;> exact .pure []
    | some e => exact absurd (deep e rfl) (Nat.not_lt_zero _)
  | succ fuel ih =>
    cases e? with
    | none => cases fuel' <;> exact .pure []
    | some e =>
      obtain ⟨fuel', rfl⟩ := Nat.exists_eq_succ_of_ne_zero (Nat.ne_zero_of_lt (deep' e rfl))
      rw [visibleVariablesN, visibleVariablesN]
      refine .getSince fun s orderly => ?_
      have asks (e : ElementId) : Coincide (.and .orderly (.since s)) (complete e) (complete e) :=
        .same fun s holds => complete_accounts holds.1 e
      cases found : s.slot? e with
      | none =>
        rw [kind?, found]
        exact .pure []
      | some slot =>
        rw [kind?, found]
        dsimp only [Option.map_some]
        split <;> rename_i generic
        · exact .pure []
        · refine Coincide.bindOf (P := fun r => r.enclosing = slot.enclosing) (asks e) (fun s' holds => ?_) fun r around => ?_
          · obtain ⟨slot', found', same⟩ := holds.2 e slot found
            rw [complete_eq_step holds.1, step_enclosing holds.1 found', Slot.enclosing_of_heading same]
          · refine (Coincide.mapM fun p _ => (asks p).bind fun _ => .pure _).bind fun own => ?_
            refine Coincide.bind (Coincide.mono (ih ?_ ?_) fun _ holds => holds.1) fun outer => .pure _
            all_goals
              intro o outer
              split at outer
              · obtain ⟨older, _⟩ := orderly.placed e slot o found (by simpa using generic) (around ▸ outer)
                have bound := deep e rfl
                have bound' := deep' e rfl
                omega
              · cases outer

end Completion

namespace Store

variable {s s' : Store} {e : ElementId} {r : ElementRecord}

theorem isComplete_of_settled {slot : Slot} (found : s.slot? e = some slot) (settled : slot.state ≠ .completing) :
    s.isComplete e = !slot.isPending := by
  rw [isComplete, record?, found]
  obtain ⟨_, _, _, _, _, _, _ | _ | _⟩ := slot
  · rfl
  · exact absurd rfl settled
  · rfl

theorem waiting_sdiff (keeps : s.Keeps s') (closed : ∀ e, ¬ s.Open e) :
    s.waiting \ s'.waiting = s.waiting.filter (s'.isComplete ·) := by
  ext e
  rw [Finset.mem_sdiff, Finset.mem_filter, and_congr_right_iff, mem_waiting, mem_waiting]
  intro pending
  obtain ⟨slot, found, _⟩ := (Option.any_eq_true _ _).mp pending
  obtain ⟨slot', found', _⟩ := keeps.slots e slot found
  have settled : slot'.state ≠ .completing := fun state =>
    ((keeps.opens e).mp ⟨slot', found', state⟩).elim (closed e) id
  rw [isPending_of_slot found', isComplete_of_settled found' settled, Bool.not_eq_true, Bool.not_eq_true']

theorem Accounts.counted (accounts : s.Accounts s') :
    s'.completions = s.completions + (s.waiting \ s'.waiting).card := by
  have account := accounts.account
  have fewer := Finset.card_le_card accounts.waiting
  rw [Finset.card_sdiff_of_subset accounts.waiting]
  omega

/-- The record that completion answers agrees with what was said of the element on entry. -/
theorem complete_describes (orderly : s.Orderly) {slot : Slot} (found : s.slot? e = some slot)
    (closed : ¬ s.Open e) : (StoreM.complete e s).1.Describes e slot := by
  obtain ⟨keeps, published⟩ := StoreM.complete_settles s e
  have published := published (has_element_iff.mpr ⟨slot, found⟩) closed
  have accounts := StoreM.complete_accounts orderly e
  obtain ⟨slot', found', state⟩ := record?_eq_some_iff.mp published
  obtain ⟨slot'', found'', same⟩ := accounts.headings e slot found
  cases found'.symm.trans found''
  exact (((accounts.orderly orderly).slots e slot' found').described _ state).congr same

end Store

open Completion StoreM in
/-- Whatever was requested before, nothing is half complete. From there the completion of any element comes to
an end, though declarations may refer to each other in cycles: it does not depend on how deep completions may be
nested once that is more than the elements that wait, and its walks outward, here and in all stores that it
comes through, do not depend on how many steps they may take. It leaves nothing half complete, answers the
record that it leaves, which agrees with what was said on entry, and counts each element that it completed. -/
theorem completes_exactly_once (rs : List Request) {s : Store} (goes : (rs.forM Request.run).run .empty = ((), s)) :
    (∀ e, ¬ s.Open e) ∧ ∀ e, s.HasElement e →
      (∀ innermost depth, s.waiting.card < depth → nested innermost depth e s = complete e s) ∧
      (∀ t o fuel, s.Follows t → t.Encloses o → o.index < fuel →
        visibleVariablesN complete fuel (some o) t = visibleVariables complete (some o) t ∧
        t.packageNameN fuel (some o) = t.packageName o) ∧
      ∀ r s', complete e s = (r, s') →
        (∀ e', ¬ s'.Open e') ∧ s'.record? e = some r ∧ (∃ slot, s.slot? e = some slot ∧ r.Describes e slot) ∧
        s'.completions = s.completions + (s.waiting.filter (s'.isComplete ·)).card := by
  have closed := closed_of_requests goes
  have orderly := orderly_of_requests goes
  refine ⟨closed, fun e there => ⟨fun innermost depth deep => complete_eq_nested orderly innermost deep e, ?_, ?_⟩⟩
  · intro t o fuel follows encloses deep
    have orderly := follows.orderly orderly
    have room : o.index < t.elements.size + 1 := Nat.lt_succ_of_lt encloses.there
    refine ⟨?_, packageNameN_enough orderly encloses deep room⟩
    refine (visibleVariablesN_enough ?_ ?_ t orderly).1
    all_goals
      rintro _ ⟨⟩
      assumption
  · intro r s' completes
    obtain ⟨slot, found⟩ := has_element_iff.mp there
    obtain ⟨keeps, published⟩ := (complete_settles s e).result completes
    have describes := complete_describes orderly found (closed e)
    have accounts := complete_accounts orderly e
    rw [completes] at describes accounts
    refine ⟨fun e' isOpen => ?_, published there (closed e), ⟨slot, found, describes⟩, ?_⟩
    · exact ((keeps.opens e').mp isOpen).elim (closed e') id
    · rw [accounts.counted, waiting_sdiff keeps closed]

section sample

namespace Store

def tangledProgram : PackageDecl :=
  let marked (name constant other shown : String) : TypeDecl :=
    .mk { kind := .enumType, name, members := [.enumConstant constant]
          annotations := [{ type := .named "Mark" []
                            values := [("value", .enumConstant (.named other []) shown)] }] } []
  { package := "tangle"
    types := [.mk { kind := .annotationType, name := "Mark" } [], marked "Left" "ONE" "Right" "TWO",
      marked "Right" "TWO" "Left" "ONE"] }

def tangling : List Request := [.enterDeclarations tangledProgram]

@[irreducible] def tangled : Store := ((tangling.forM Request.run).run .empty).2

end Store

open Completion StoreM in
/-- Completing one of the two enumerations completes the other, and nothing else. -/
theorem tangled_completes_exactly_once :
    ∃ r s', complete ⟨2⟩ tangled = (r, s') ∧ s'.record? ⟨2⟩ = some r ∧ r.simpleName = "Left" ∧
      (∀ e, ¬ s'.Open e) ∧ s'.completions = 2 ∧ ∀ innermost, nested innermost 5 ⟨2⟩ tangled = (r, s') := by
  have goes : (tangling.forM Request.run).run .empty = ((), tangled) := by
    unfold tangled
    exact leaves (Subsingleton.elim _ _)
  have there : tangled.HasElement ⟨2⟩ := show 2 < tangled.elements.size by decide +kernel
  obtain ⟨_, completes⟩ := completes_exactly_once tangling goes
  obtain ⟨depth, _, ends⟩ := completes ⟨2⟩ there
  obtain ⟨closed, complete, ⟨slot, found, describes⟩, counted⟩ := ends _ _ rfl
  refine ⟨_, _, rfl, complete, ?_, closed, ?_, fun innermost => depth innermost 5 (by decide +kernel)⟩
  · have name : (tangled.slot? ⟨2⟩).map (·.simpleName) = some "Left" := by decide +kernel
    rw [found] at name
    exact describes.simpleName.trans (Option.some.inj name)
  · rw [counted]
    decide +kernel

end sample

end Nominal
