import Nominal.Proofs.Recipe.Rebuilding
import Nominal.Workspace.Describe
/-!
Where the constructs of a recipe come from. A recipe is followed only if every invocation in it that belongs
to a domain belongs to the domain in which it is followed; what is said inside the recipe of a domain is
compared, not followed.
-/

namespace Nominal

namespace Factory

/-- Lists and maps, with their entries. -/
def isCollection : Factory → Bool
  | listOf _ | listOfArray | mapOf _ | mapOfEntries | mapEntry => true
  | _ => false

theorem isCollection_of_no_domain {f : Factory} (free : ¬ f.takesDomain) :
    f = .runtimeDomain ∨ f.isCollection := by
  cases f <;> simp [takesDomain, isCollection] at free ⊢

end Factory

namespace Recipe

def followed (f : Factory) (args : List Recipe) : List Recipe := if f.takesDomain then args.tail else args

theorem mem_of_followed {f : Factory} {args : List Recipe} {arg : Recipe} (mem : arg ∈ followed f args) :
    arg ∈ args := by
  rw [followed] at mem
  split at mem
  · exact List.mem_of_mem_tail mem
  · exact mem

/-- A recipe stands somewhere in another, but not in the recipe of a domain. -/
inductive Occurs (node : Recipe) : Recipe → Prop
  | itself : Occurs node node
  | argument {f : Factory} {args : List Recipe} {arg : Recipe} :
    arg ∈ followed f args → Occurs node arg → Occurs node (invoke f args)

/-- An invocation in need of a domain is led by the recipe of this one. -/
def LedBy (own : Option Recipe) (f : Factory) (args : List Recipe) : Prop :=
  f.takesDomain → ∃ domain rest, args = domain :: rest ∧ own = some domain

end Recipe

namespace Rebuilding

def Succeeds {α : Type} (m : Rebuilding α) : Prop := ∃ s a s', m.run s = (.ok a, s')

section

variable {α β : Type} {m : Rebuilding α}

namespace Succeeds

theorem bind {f : α → Rebuilding β} (h : Succeeds (m >>= f)) : Succeeds m ∧ ∃ a, Succeeds (f a) := by
  obtain ⟨s, b, s'', run⟩ := h
  obtain ⟨a, s', first, second⟩ := parts_of_run run
  exact ⟨⟨s, a, s', first⟩, a, s', b, s'', second⟩

theorem map {f : α → β} (h : Succeeds (f <$> m)) : Succeeds m := by
  rw [map_eq_pure_bind] at h
  exact h.bind.1

theorem of_mapM {γ : Type} {f : γ → Rebuilding α} {as : List γ} (h : Succeeds (as.mapM f)) :
    ∀ a ∈ as, Succeeds (f a) := by
  induction as with
  | nil => simp
  | cons a as ih =>
    rw [List.mapM_cons] at h
    obtain ⟨head, _, rest⟩ := h.bind
    exact List.forall_mem_cons.mpr ⟨head, ih rest.bind.1⟩

theorem not_throw {e : Refusal} : ¬ Succeeds (throw e : Rebuilding α) := by
  rintro ⟨s, a, s', run⟩
  cases run

theorem guarded {c : Prop} [Decidable c] {e : Refusal} (h : Succeeds (if c then m else throw e)) :
    c ∧ Succeeds m := by
  split at h <;> rename_i holds
  · exact ⟨holds, h⟩
  · exact absurd h not_throw

end Succeeds

end

variable {own : Option Recipe}

theorem pairs_succeed : {args : List Argument} → args.length % 2 = 0 → Succeeds (pairs args) →
    ∀ a ∈ args, Succeeds a.value
  | [], _, _ => nofun
  | [_], odd, _ => by simp at odd
  | k :: v :: rest, even, h => by
    rw [pairs] at h
    obtain ⟨key, _, h⟩ := h.bind
    obtain ⟨value, _, h⟩ := h.bind
    have tail := pairs_succeed (by simpa [Nat.add_assoc] using even) h.bind.1
    exact List.forall_mem_cons.mpr ⟨key, List.forall_mem_cons.mpr ⟨value, tail⟩⟩

def Followed (a : Argument) : Prop := Succeeds a.value ∨ ∃ text, a.recipe = .str text

theorem Succeeds.reads {α : Type} {a : Argument} {read : Value → Rebuilding α} (h : Succeeds (a.value >>= read)) :
    Succeeds a.value := h.bind.1

theorem build_followed {f : Factory} {args : List Argument}
    (number : ∀ n, f.arity? = some n → args.length + (if f.takesDomain then 1 else 0) = n)
    (h : Succeeds (build own f args)) : ∀ a ∈ args, Followed a := by
  have all (each : ∀ a ∈ args, Succeeds a.value) : ∀ a ∈ args, Followed a := fun a mem => .inl (each a mem)
  unfold build at h
  split at h
  case h_1 =>
    have none_ : args = [] := List.length_eq_zero_iff.mp (by simpa [Factory.takesDomain] using number 0 rfl)
    simp [none_]
  case h_2 text =>
    split at h
    · rename_i written same
      exact fun a mem => .inr ⟨written, by rw [List.mem_singleton.mp mem]; exact same⟩
    · exact absurd h Succeeds.not_throw
  case h_3 | h_4 | h_5 => exact all (by simpa using Succeeds.reads h.bind.1)
  case h_6 | h_8 | h_9 =>
    obtain ⟨first, _, h⟩ := h.bind
    exact all (by simpa using ⟨Succeeds.reads first, Succeeds.reads h.bind.1⟩)
  case h_7 =>
    obtain ⟨enclosing, _, h⟩ := h.bind
    obtain ⟨kind, _, h⟩ := h.bind
    obtain ⟨name, _, h⟩ := h.bind
    refine all ?_
    simpa using ⟨Succeeds.reads enclosing, Succeeds.reads kind, Succeeds.reads name,
      Succeeds.reads h.bind.1⟩
  case h_10 =>
    obtain ⟨enclosing, _, h⟩ := h.bind
    obtain ⟨element, _, h⟩ := h.bind
    exact all (by simpa using ⟨Succeeds.reads enclosing, Succeeds.reads element, Succeeds.reads h.bind.1⟩)
  case h_11 => exact all (by simpa using Succeeds.reads h.bind.1)
  case h_12 | h_13 => exact all (by simpa using Succeeds.reads h.bind.1)
  case h_14 =>
    have none_ : args = [] :=
      List.length_eq_zero_iff.mp (by simpa [Factory.takesDomain] using number 1 rfl)
    simp [none_]
  case h_15 => exact all (by simpa using Succeeds.reads h.bind.1)
  case h_16 =>
    obtain ⟨upper, _, h⟩ := h.bind
    exact all (by simpa using ⟨Succeeds.reads upper, Succeeds.reads h.bind.1⟩)
  case h_17 =>
    obtain ⟨type, _, h⟩ := h.bind
    exact all (by simpa using ⟨Succeeds.reads type, h.bind.1⟩)
  case h_18 | h_19 => exact all h.map.of_mapM
  case h_20 => exact all (pairs_succeed (by have := number _ rfl; simp_all [Factory.takesDomain]) h.map)
  case h_21 => exact all fun a mem => Succeeds.reads (h.map.of_mapM a mem)
  case h_22 =>
    obtain ⟨key, _, h⟩ := h.bind
    exact all (by simpa using ⟨key, h.bind.1⟩)
  case h_23 => exact absurd h Succeeds.not_throw

theorem invoke_followed {f : Factory} {ds : List Recipe} (h : Succeeds (invoke own f (arguments own ds))) :
    Recipe.LedBy own f ds ∧ ∀ d ∈ Recipe.followed f ds, Succeeds (rebuild own d) ∨ ∃ text, d = .str text := by
  have followed {ds : List Recipe} (all : ∀ a ∈ ds.map (argument own), Followed a) :
      ∀ d ∈ ds, Succeeds (rebuild own d) ∨ ∃ text, d = .str text :=
    fun d mem => all _ (List.mem_map_of_mem mem)
  rw [arguments_eq, invoke.eq_def, List.length_map] at h
  obtain ⟨counted, _, h⟩ := h.bind
  have number (n : Nat) (arity : f.arity? = some n) : ds.length = n := by
    rw [checkArity, arity] at counted
    exact counted.guarded.1
  rw [Recipe.LedBy, Recipe.followed]
  split at h <;> rename_i takes
  · cases ds with
    | nil => exact absurd h Succeeds.not_throw
    | cons domain rest =>
      obtain ⟨checked, _, h⟩ := h.bind
      refine ⟨fun _ => ⟨domain, rest, rfl, checked.guarded.1⟩, ?_⟩
      rw [if_pos takes]
      exact followed (build_followed (by simpa [takes] using number) h)
  · refine ⟨fun contrary => absurd contrary takes, ?_⟩
    rw [if_neg takes]
    exact followed (build_followed (by simpa [takes] using number) h)

mutual

/-- Every invocation that is followed on the way is led by the domain's own recipe. -/
theorem rebuild_led (own : Option Recipe) : (d : Recipe) → Succeeds (rebuild own d) →
    ∀ f args, Recipe.Occurs (.invoke f args) d → Recipe.LedBy own f args
  | .null, _ | .bool _, _ | .int _, _ | .str _, _ | .elementKind _, _ | .typeKind _, _ => nofun
  | .invoke g ds, h => fun f args occurs => by
    rw [rebuild] at h
    obtain ⟨led, followed⟩ := invoke_followed h
    cases occurs with
    | itself => exact led
    | argument mem occurs =>
      rcases followed _ mem with succeeds | ⟨text, rfl⟩
      · exact arguments_led own ds _ (Recipe.mem_of_followed mem) succeeds f args occurs
      · cases occurs

theorem arguments_led (own : Option Recipe) : (ds : List Recipe) → ∀ d ∈ ds, Succeeds (rebuild own d) →
    ∀ f args, Recipe.Occurs (.invoke f args) d → Recipe.LedBy own f args
  | [] => nofun
  | d :: ds => List.forall_mem_cons.mpr ⟨rebuild_led own d, arguments_led own ds⟩

end

end Rebuilding

namespace Domain

open Recipe

/-- A domain only follows recipes of its own, however deep they are nested in others. One that has no recipe
follows no recipe that belongs to a domain. -/
theorem provenance_enforced (w : Workspace) (d : Domain) (r : Recipe) (v : Value)
    (succeeds : (d.rebuild r w).1 = .ok v) :
    (∀ f args, Occurs (.invoke f args) r → LedBy d.recipe f args) ∧
      (d.recipe = none → ∀ f args, Occurs (.invoke f args) r → f = .runtimeDomain ∨ f.isCollection) := by
  have followed : Rebuilding.Succeeds (Rebuilding.rebuild d.recipe r) :=
    ⟨_, v, _, Prod.ext succeeds rfl⟩
  have led := Rebuilding.rebuild_led d.recipe r followed
  refine ⟨led, fun none_ f args occurs => Factory.isCollection_of_no_domain fun takes => ?_⟩
  obtain ⟨domain, _, _, own⟩ := led f args occurs takes
  rw [none_] at own
  cases own

/-- The list of the null type is made in the domain of the process, to which its item belongs. -/
theorem provenance_enforced_list : ∃ (w : Workspace) (d : Domain) (v : Value),
    (d.rebuild (.ofItems [runtime.within .nullType []]) w).1 = .ok v ∧
      LedBy d.recipe .nullType [runtime] := by
  let w : Workspace := { stores := #[.empty] }
  let d : Domain := { store := 0, recipe := some runtime }
  refine ⟨w, d, .list [.type .null], rfl, ?_⟩
  exact (provenance_enforced w d (.ofItems [runtime.within .nullType []]) (.list [.type .null]) rfl).1 _ _
    (.argument (List.mem_singleton.mpr rfl) .itself)

end Domain

end Nominal
