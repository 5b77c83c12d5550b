import Mathlib.Data.List.Forall2
import Nominal.ByName
/-!
Values under names: two lists that agree entry by entry are arranged in the same way, and what has been arranged
stays as it is.
-/

namespace Nominal.ByName

variable {α β : Type} {R : α → β → Prop}

def Entry (R : α → β → Prop) (m : String × α) (m' : String × β) : Prop := m.1 = m'.1 ∧ R m.2 m'.2

theorem insert_entries {as : ByName α} {bs : ByName β} {a : α} {b : β} (name : String) (value : R a b)
    (all : List.Forall₂ (Entry R) as bs) : List.Forall₂ (Entry R) (as.insert name a) (bs.insert name b) := by
  induction all with
  | nil => exact .cons ⟨rfl, value⟩ .nil
  | @cons a b as bs head rest ih =>
    obtain ⟨k, x⟩ := a
    obtain ⟨l, y⟩ := b
    obtain ⟨rfl, kept⟩ : k = l ∧ R x y := head
    rw [insert, insert]
    split
    · exact .cons ⟨rfl, value⟩ (.cons ⟨rfl, kept⟩ rest)
    · split
      · exact .cons ⟨rfl, value⟩ rest
      · exact .cons ⟨rfl, kept⟩ ih

theorem find_entries {as : List (String × α)} {bs : List (String × β)} (name : String)
    (all : List.Forall₂ (Entry R) as bs) :
    Option.Rel R ((as.find? (·.1 == name)).map (·.2)) ((bs.find? (·.1 == name)).map (·.2)) := by
  induction all with
  | nil => exact .none
  | @cons m m' _ _ head _ ih =>
    obtain ⟨k, x⟩ := m
    obtain ⟨l, y⟩ := m'
    obtain ⟨rfl, value⟩ : k = l ∧ R x y := head
    rw [List.find?_cons, List.find?_cons]
    dsimp only
    split
    · exact .some value
    · exact ih

theorem insertAll_entries {pairs : List (String × α)} {pairs' : List (String × β)} {as : ByName α} {bs : ByName β}
    (all : List.Forall₂ (Entry R) pairs pairs') (begun : List.Forall₂ (Entry R) as bs) :
    List.Forall₂ (Entry R) (pairs.foldl (fun m (n, a) => ByName.insert n a m) as)
      (pairs'.foldl (fun m (n, a) => ByName.insert n a m) bs) := by
  induction all generalizing as bs with
  | nil => exact begun
  | @cons m m' _ _ head _ ih =>
    obtain ⟨k, x⟩ := m
    obtain ⟨l, y⟩ := m'
    obtain ⟨rfl, value⟩ : k = l ∧ R x y := head
    exact ih (insert_entries k value begun)

theorem ofList_entries {pairs : List (String × α)} {pairs' : List (String × β)}
    (all : List.Forall₂ (Entry R) pairs pairs') : List.Forall₂ (Entry R) (ofList pairs) (ofList pairs') :=
  insertAll_entries all .nil

section order

variable {m : ByName α} {name : String} {a : α}

/-- In the order of the names, each of which comes once. -/
def Ordered (m : ByName α) : Prop := m.Pairwise (·.1 < ·.1)

theorem mem_insert {entry : String × α} (mem : entry ∈ m.insert name a) : entry = (name, a) ∨ entry ∈ m := by
  induction m with
  | nil => exact .inl (List.mem_singleton.mp mem)
  | cons first rest ih =>
    rw [insert] at mem
    split at mem
    · exact List.mem_cons.mp mem
    · split at mem
      · exact (List.mem_cons.mp mem).imp id (List.mem_cons_of_mem _)
      · rcases List.mem_cons.mp mem with rfl | mem
        · exact .inr List.mem_cons_self
        · exact (ih mem).imp id (List.mem_cons_of_mem _)

theorem Ordered.insert (ordered : m.Ordered) (name : String) (a : α) : (m.insert name a).Ordered := by
  induction m with
  | nil => exact List.pairwise_singleton _ _
  | cons first rest ih =>
    obtain ⟨n, b⟩ := first
    obtain ⟨before, after⟩ := List.pairwise_cons.mp ordered
    rw [ByName.insert]
    split
    · rename_i less
      refine List.pairwise_cons.mpr ⟨?_, ordered⟩
      rintro entry (_ | ⟨_, mem⟩)
      · exact less
      · exact String.lt_trans less (before entry mem)
    · split
      · rename_i same
        exact List.pairwise_cons.mpr ⟨fun entry mem => same ▸ before entry mem, after⟩
      · rename_i notLess other
        have less : n < name := by grind
        refine List.pairwise_cons.mpr ⟨fun entry mem => ?_, ih after⟩
        rcases mem_insert mem with rfl | mem
        · exact less
        · exact before entry mem

theorem ofList_ordered (pairs : List (String × α)) : (ofList pairs).Ordered := by
  suffices all : ∀ m : ByName α, m.Ordered → (pairs.foldl (fun m (n, a) => ByName.insert n a m) m).Ordered from
    all [] .nil
  induction pairs with
  | nil => exact fun m ordered => ordered
  | cons first rest ih => exact fun m ordered => ih _ (ordered.insert _ _)

theorem insert_last (last : ∀ entry ∈ m, entry.1 < name) : m.insert name a = List.append m [(name, a)] := by
  induction m with
  | nil => rfl
  | cons first rest ih =>
    obtain ⟨n, b⟩ := first
    have less : n < name := last (n, b) List.mem_cons_self
    have other : name ≠ n := by
      rintro rfl
      exact String.lt_irrefl name less
    rw [insert, if_neg (String.lt_asymm less), if_neg other,
      ih fun entry mem => last entry (List.mem_cons_of_mem _ mem)]
    rfl

theorem Ordered.ofList_eq (ordered : m.Ordered) : ofList m = m := by
  suffices all : ∀ (rest : List (String × α)) (m : ByName α), (m ++ rest).Pairwise (·.1 < ·.1) →
      rest.foldl (fun m (n, a) => ByName.insert n a m) m = m ++ rest from all m [] ordered
  intro rest
  induction rest with
  | nil => exact fun m _ => (List.append_nil m).symm
  | cons first rest ih =>
    intro m ordered
    obtain ⟨n, a⟩ := first
    have last : ∀ entry ∈ m, entry.1 < n := fun entry mem =>
      (List.pairwise_append.mp ordered).2.2 entry mem (n, a) List.mem_cons_self
    have step : m.append [(n, a)] ++ rest = m ++ (n, a) :: rest := List.append_assoc m [(n, a)] rest
    rw [List.foldl_cons]
    dsimp only
    rw [insert_last last]
    exact (ih _ (step ▸ ordered)).trans step

end order

end Nominal.ByName
