import Nominal.Proofs.Json.Reading
import Nominal.Recipe.Json
/-!
Recipes saved as text and loaded again. A recipe comes back from its text if the text nests no deeper than the
reader goes, and nothing comes back otherwise: a recipe has no part that could do without its end.
-/

namespace Nominal

open Json

variable {room : Nat}

namespace Json

theorem int64?_toInt (n : Int64) : (int n.toInt).int64? = some n := by
  have range : Int64.minValue.toInt ≤ n.toInt ∧ n.toInt ≤ Int64.maxValue.toInt :=
    ⟨Int64.minValue_le_toInt n, Int64.toInt_le n⟩
  rw [int64?, if_pos range, Int64.ofInt_toInt]

theorem int64_bounded (n : Int64) : n.toInt.natAbs < numberBound := by
  have low : -2 ^ 63 ≤ n.toInt := Int64.minValue_le_toInt n
  have high : n.toInt ≤ 2 ^ 63 - 1 := Int64.toInt_le n
  have bound : 2 ^ 63 < numberBound := by decide
  omega

end Json

namespace Factory

theorem readArity_record (a : Arity) : readArity (.obj [("arity", .int a.toNat)]) = some a := by
  have small : (a.toNat : Int) < 256 := Int.ofNat_lt.mpr a.count.toNat_lt
  have same : Arity.ofNat a.toNat = a := by rw [Arity.ofNat, Arity.toNat, UInt8.ofNat_toNat]
  simp [readArity, Members.ofJson?, Members.required, Members.get?, natBelow?, small, same]

theorem ofJson?_toJson (f : Factory) : ofJson? f.toJson = some f := by
  cases f with
  | listOf a | mapOf a => simp [toJson, ofJson?, tagged, tagged?, readArity_record]
  | _ => decide

theorem plain_toJson (f : Factory) : f.toJson.Plain := by
  cases f with
  | listOf a | mapOf a =>
    have bounded : a.toNat < numberBound := Nat.lt_trans a.count.toNat_lt (by decide)
    simpa [toJson, tagged, Plain, PlainMembers] using bounded
  | _ => trivial

theorem ofJson?_cut {f : Factory} (deep : room < f.toJson.depth) : ofJson? (f.toJson.cut room) = none := by
  cases f with
  | listOf a | mapOf a =>
    simp only [toJson, tagged, depth, membersDepth] at deep
    obtain rfl | rfl : room = 0 ∨ room = 1 := by omega
    · rfl
    · rfl
  | _ => exact absurd deep (Nat.not_lt_zero room)

end Factory

namespace Recipe

theorem plain_tagged {tag : String} {j : Json} (plain : j.Plain) : (tagged tag j).Plain := ⟨plain, trivial⟩

mutual

theorem plain_toJson : (r : Recipe) → r.toJson.Plain
  | null => trivial
  | bool _ | str _ | elementKind _ | typeKind _ => plain_tagged trivial
  | int n => plain_tagged (int64_bounded n)
  | invoke f args => plain_tagged ⟨f.plain_toJson, plain_listToJson args, trivial⟩

theorem plain_listToJson : (rs : List Recipe) → PlainItems (listToJson rs)
  | [] => trivial
  | r :: rest => ⟨plain_toJson r, plain_listToJson rest⟩

end

theorem read_invoke (fuel : Nat) (factory args : Json) :
    read (fuel + 1) (tagged "Invoke" (.obj [("factory", factory), ("args", args)])) =
      (Factory.ofJson? factory).bind fun f => (args.list? (read fuel)).map (invoke f) := by
  have mapped (f : Factory) (x : Option (List Recipe)) : (x.bind fun as => some (invoke f as)) = x.map (invoke f) :=
    Option.map_eq_bind.symm
  simp [read, tagged, tagged?, Members.ofJson?, Members.required, Members.get?, mapped]

mutual

theorem read_toJson : (r : Recipe) → (fuel : Nat) → r.toJson.depth < fuel → read fuel r.toJson = some r
  | null, fuel + 1, _ => by simp [toJson, read, tagged?]
  | bool b, fuel + 1, _ => by simp [toJson, read, tagged, tagged?, bool?]
  | int n, fuel + 1, _ => by simp [toJson, read, tagged, tagged?, int64?_toInt]
  | str s, fuel + 1, _ => by simp [toJson, read, tagged, tagged?, str?]
  | elementKind k, fuel + 1, _ => by
    simp [toJson, read, tagged, tagged?, ElementKind.ofJson?, ElementKind.toJson, tag?, ElementKind.ofName?_name]
  | typeKind k, fuel + 1, _ => by
    simp [toJson, read, tagged, tagged?, TypeKind.ofJson?, TypeKind.toJson, tag?, TypeKind.ofName?_name]
  | invoke f args, fuel + 1, enough => by
    simp only [toJson, tagged, depth, membersDepth] at enough
    have arguments := readAll_toJson args fuel (by omega)
    simp [toJson, read_invoke, Factory.ofJson?_toJson, Json.list?, items?, arguments]

theorem readAll_toJson : (rs : List Recipe) → (fuel : Nat) → itemsDepth (listToJson rs) < fuel →
    (listToJson rs).mapM (read fuel) = some rs
  | [], _, _ => rfl
  | r :: rest, fuel, enough => by
    rw [listToJson, itemsDepth] at enough
    have first := read_toJson r fuel (by omega)
    have others := readAll_toJson rest fuel (by omega)
    simp [listToJson, first, others]

end

theorem read_unreadable (fuel : Nat) : read fuel unreadable = none := by
  cases fuel <;> rfl

theorem read_cut_literal {tag : String} {j : Json} (fuel : Nat) (flat : j.depth = 0)
    (deep : room < (tagged tag j).depth) : read fuel ((tagged tag j).cut room) = none := by
  simp only [tagged, depth, membersDepth, flat] at deep
  obtain rfl : room = 0 := by omega
  exact read_unreadable fuel

mutual

theorem read_cut : (r : Recipe) → (fuel room : Nat) → room < r.toJson.depth → read fuel (r.toJson.cut room) = none
  | null, _, room, deep => absurd deep (Nat.not_lt_zero room)
  | bool _, fuel, _, deep | int _, fuel, _, deep | str _, fuel, _, deep | elementKind _, fuel, _, deep
  | typeKind _, fuel, _, deep => read_cut_literal fuel rfl deep
  | invoke _ _, 0, _, _ | invoke _ _, _ + 1, 0, _ | invoke _ _, _ + 1, 1, _ => rfl
  | invoke f args, fuel + 1, room + 2, deep => by
    simp only [toJson, tagged, depth, membersDepth] at deep
    have inside : read (fuel + 1) ((invoke f args).toJson.cut (room + 2)) =
        (Factory.ofJson? (f.toJson.cut room)).bind fun f =>
          (((arr (listToJson args)).cut room).list? (read fuel)).map (invoke f) := read_invoke fuel _ _
    rcases Nat.lt_or_ge room f.toJson.depth with cutShort | fits
    · rw [inside, Factory.ofJson?_cut cutShort, Option.bind_none]
    · have arguments : ((arr (listToJson args)).cut room).list? (read fuel) = Option.none := by
        cases room with
        | zero => rfl
        | succ room => exact readAll_cut args fuel room (by omega)
      rw [inside, arguments]
      cases Factory.ofJson? (f.toJson.cut room) <;> rfl

theorem readAll_cut : (rs : List Recipe) → (fuel room : Nat) → room < itemsDepth (listToJson rs) →
    (cutItems room (listToJson rs)).mapM (read fuel) = none
  | [], _, room, deep => absurd deep (Nat.not_lt_zero room)
  | r :: rest, fuel, room, deep => by
    rw [listToJson, itemsDepth] at deep
    rw [listToJson, cutItems, List.mapM_cons]
    rcases Nat.lt_or_ge room r.toJson.depth with first | fits
    · rw [read_cut r fuel room first]
      rfl
    · have others := readAll_cut rest fuel room (by omega)
      cases read fuel (r.toJson.cut room) <;> simp [others]

end

/-- A reader that opens at most `room` brackets loads a recipe that nests no deeper, and no other. -/
theorem load_render (room : Nat) (r : Recipe) :
    (ofTextWithin? room r.render).bind ofJson? = if nesting r.render ≤ room then some r else Option.none := by
  rw [render, ofTextWithin?_render (plain_toJson r), nesting_render, Option.bind_some, ofJson?]
  split
  case isTrue fits => rw [cut_fits _ room fits, read_toJson r _ (Nat.lt_succ_self _)]
  case isFalse deep => exact read_cut r _ room (Nat.lt_of_not_le deep)

/-- The writer has no limit, so that recipes of any depth have texts of their own. -/
theorem render_injective : Function.Injective render := by
  intro r r' same
  have loaded := load_render (nesting r.render) r
  have loaded' := load_render (nesting r'.render) r'
  rw [if_pos (Nat.le_refl _)] at loaded loaded'
  rw [← same, loaded] at loaded'
  exact Option.some.inj loaded'

def lists : Nat → Recipe
  | 0 => null
  | n + 1 => invoke .listOfArray [lists n]

theorem depth_lists (n : Nat) : (lists n).toJson.depth = 3 * n := by
  induction n with
  | zero => rfl
  | succ n ih =>
    have factory : Factory.listOfArray.toJson.depth = 0 := rfl
    simp only [lists, toJson, listToJson, tagged, depth, membersDepth, itemsDepth, ih, factory]
    omega

/-- Each list takes three brackets, so that 42 of them are the most that come back. -/
theorem lists_reload_iff (n : Nat) : ofText? (lists n).render = some (lists n) ↔ n ≤ 42 := by
  have loaded : ofText? (lists n).render = _ := load_render maxNesting (lists n)
  rw [loaded, render, nesting_render, depth_lists, maxNesting]
  split <;> simp <;> omega

/-- A recipe comes back from its text when no more than 127 arrays and objects stand inside one another there;
from a text that nests deeper, nothing comes back. No two recipes have one text. -/
theorem text_reloads_up_to_nesting :
    (∀ r : Recipe, ofText? r.render = if nesting r.render ≤ 127 then some r else Option.none) ∧
      Function.Injective render :=
  ⟨load_render maxNesting, render_injective⟩

end Recipe

end Nominal
