import Nominal.Compilation
import Nominal.Proofs.Store.Exhausting
/-!
Stores in which declarations were entered and of which nothing was asked yet: every element waits for its
completion, and there are only the types that need no declaration. A compilation enters a program into such a
store, and completes it afterwards.
-/

namespace Nominal

open Store

def Request.enters : Request → Bool
  | enterModule _ | enterPackage .. | enterType .. | enterDeclarations _ => true
  | _ => false

namespace Store

/-- The stores that one comes to by entering declarations. -/
inductive Declared : Store → Prop
  | empty : Declared empty
  | enter {s : Store} (r : Request) : Declared s → r.enters → r.InRange s → Declared (r.run s).2

structure Unasked (s : Store) : Prop where
  waits : ∀ e slot, s.slot? e = some slot → slot.isPending
  types : s.types = TypeShape.initial.toArray
  usage : s.objectUsage = none
  completions : s.completions = 0

structure Gathers (s s' : Store) : Prop where
  headings : s.SameHeadings s'
  unasked : s.Unasked → s'.Unasked

variable {s s' : Store}

theorem unasked_empty : empty.Unasked where
  waits e slot found := by simp [slot?, empty] at found
  types := rfl
  usage := rfl
  completions := rfl

theorem Gathers.refl (s : Store) : s.Gathers s := ⟨fun _ slot found => ⟨slot, found, rfl⟩, id⟩

theorem Unasked.pushPending (h : s.Unasked) {slot : Slot} (waits : slot.isPending) : (s.pushSlot slot).Unasked where
  waits e slot' found := by
    rw [slot?_push] at found
    split at found
    · cases found
      exact waits
    · exact h.waits e slot' found
  types := h.types
  usage := h.usage
  completions := h.completions

theorem Unasked.addChild (h : s.Unasked) (parent child : ElementId) : (s.addChild parent child).Unasked where
  waits e slot' found := by
    change (s.updateSlot parent _).slot? e = _ at found
    rw [slot?_update] at found
    split at found
    · obtain ⟨slot, old, rfl⟩ := Option.map_eq_some_iff.mp found
      have waits := h.waits e slot old
      rcases addChild_state child slot with same | ⟨_, again⟩
      · rwa [Slot.isPending, same]
      · rw [Slot.isPending, again]
    · exact h.waits e slot' found
  types := h.types
  usage := h.usage
  completions := h.completions

end Store

instance : Hosting Gathers where
  refl := Gathers.refl
  trans first second := ⟨first.headings.trans second.headings, second.unasked ∘ first.unasked⟩
  internName _ _ := ⟨fun _ slot found => ⟨slot, found, rfl⟩, fun h => ⟨h.waits, h.types, h.usage, h.completions⟩⟩
  headings := Gathers.headings
  listed elements types completions usage := by
    refine ⟨(follows_aside elements).headings, fun h => ⟨fun e slot found => h.waits e slot ?_, ?_, ?_, ?_⟩⟩
    · rwa [slot?, elements] at found
    · rw [types, h.types]
    · rw [usage, h.usage]
    · rw [completions, h.completions]
  pushPending state _ fits placed :=
    ⟨(follows_pushSlot fits fun _ => placed).headings, fun h => h.pushPending (by simp [Slot.isPending, state])⟩
  addChild s parent child := ⟨(follows_addChild parent child).headings, fun h => h.addChild parent child⟩

namespace StoreM

theorem enterUnits_cons (p : PackageDecl) (ps : List PackageDecl) (s : Store) :
    enterUnits (p :: ps) s =
      let rest := enterUnits ps (enterDeclarations p s).2
      (match (enterDeclarations p s).1 with
        | .ok ids => (ids.length + rest.1.1, rest.1.2)
        | .error found => (rest.1.1, found.extend rest.1.2.items), rest.2) := by
  rw [enterUnits]
  change (match (enterDeclarations p s).1 with
    | .ok ids => pure (_, _)
    | .error found => pure (_, _) : StoreM _) _ = _
  cases (enterDeclarations p s).1 <;> rfl

end StoreM

namespace Request

theorem keeping_run_enters {R : Store → Store → Prop} [Hosting R] (r : Request) (enters : r.enters) : Keeping R r.run := by
  cases r with
  | enterModule name => exact keeping_discard (StoreM.keeping_enterModule name)
  | enterPackage module name => exact keeping_discard (StoreM.keeping_enterPackage module name)
  | enterType package d => exact keeping_discard (keeping_checked_run (StoreM.keeping_enterType package d))
  | enterDeclarations p => exact keeping_discard (StoreM.keeping_enterDeclarations p)
  | _ => simp [Request.enters] at enters

end Request

namespace Store

variable {s : Store}

theorem Declared.reachable (declared : s.Declared) : s.Reachable := by
  induction declared with
  | empty => exact .rest
  | enter r _ _ inRange ih => exact .ask r ih inRange

theorem Declared.unasked (declared : s.Declared) : s.Unasked := by
  induction declared with
  | empty => exact unasked_empty
  | @enter s r _ enters _ ih =>
    have gathers : s.Gathers (r.run s).2 := r.keeping_run_enters enters s
    exact gathers.unasked ih

theorem Declared.enterDeclarations (declared : s.Declared) (p : PackageDecl) :
    ((StoreM.enterDeclarations p) s).2.Declared :=
  .enter (.enterDeclarations p) declared rfl ⟨nofun, nofun⟩

theorem Declared.enterUnits (declared : s.Declared) (ps : List PackageDecl) : (StoreM.enterUnits ps s).2.Declared := by
  induction ps generalizing s with
  | nil => exact declared
  | cons p ps ih =>
    rw [StoreM.enterUnits_cons]
    exact ih (declared.enterDeclarations p)

end Store

end Nominal
