import Nominal.Proofs.Recipe.Canonical
import Nominal.Proofs.Recipe.Rebuilding
/-!
Recipes of lists and maps, followed: a collection comes to what its items come to, from left to right, in
whichever form it is written. A form for a fixed number may so be exchanged for the one that takes any number,
at any depth of a recipe.
-/

namespace Nominal

open Rebuilding

namespace Recipe

variable {items : List (Option Recipe)} {entries : List (Recipe × Option Recipe)}

theorem mapM_eq_none {α β : Type} {f : α → Option β} {as : List α} : as.mapM f = none ↔ ∃ a ∈ as, f a = none := by
  induction as with
  | nil => simp
  | cons a as ih =>
    cases first : f a with
    | none => simp [first]
    | some b => cases rest : as.mapM f <;> simp_all

/-- A list with an item that has no recipe has none, and only such a list. -/
theorem ofItems?_eq_none : ofItems? items = none ↔ none ∈ items := by
  rw [ofItems?, Option.map_eq_map, Option.map_eq_none_iff, mapM_eq_none]
  simp

theorem ofItems?_some (rs : List Recipe) : ofItems? (rs.map some) = some (ofItems rs) := by
  have all : (rs.map some).mapM id = some rs := by
    induction rs with
    | nil => rfl
    | cons r rs ih => simp [-List.mapM_map, ih]
  rw [ofItems?, all, Option.map_eq_map, Option.map_some]

theorem ofEntries?_eq_none : ofEntries? entries = none ↔ none ∈ entries.map (·.2) := by
  rw [ofEntries?, Option.map_eq_map, Option.map_eq_none_iff, mapM_eq_none]
  simp

theorem ofEntries?_some (es : List (Recipe × Recipe)) :
    ofEntries? (es.map fun e => (e.1, some e.2)) = some (ofEntries es) := by
  rw [ofEntries?, Option.map_eq_map, Option.map_eq_some_iff]
  refine ⟨es, ?_, rfl⟩
  induction es with
  | nil => rfl
  | cons e es ih => simp [-List.mapM_map, ih]

/-- Two recipes in which collections are written in other forms, at any depth. What stands for the domain is
compared and not followed, so it is left as it is. -/
inductive Restyled : Recipe → Recipe → Prop
  | list {arity : Arity} {rs : List Recipe} : rs.length = arity.toNat →
    Restyled (invoke (.listOf arity) rs) (invoke .listOfArray rs)
  | map {arity : Arity} {es : List (Recipe × Recipe)} : es.length = arity.toNat →
    Restyled (invoke (.mapOf arity) (es.flatMap fun e => [e.1, e.2]))
      (invoke .mapOfEntries (es.map fun e => invoke .mapEntry [e.1, e.2]))
  | argument {f : Factory} {before after : List Recipe} {r r' : Recipe} : (f.takesDomain → before ≠ []) →
    Restyled r r' → Restyled (invoke f (before ++ r :: after)) (invoke f (before ++ r' :: after))
  | refl (r : Recipe) : Restyled r r
  | symm {r r' : Recipe} : Restyled r r' → Restyled r' r
  | trans {r r' r'' : Recipe} : Restyled r r' → Restyled r' r'' → Restyled r r''

theorem restyled_ofItems (rs : List Recipe) : (ofItems rs).Restyled (invoke .listOfArray rs) := by
  rw [ofItems]
  split
  · rename_i few
    exact .list (Arity.toNat_of_few few).symm
  · exact .refl _

theorem restyled_ofEntries (es : List (Recipe × Recipe)) :
    (ofEntries es).Restyled (invoke .mapOfEntries (es.map fun e => invoke .mapEntry [e.1, e.2])) := by
  rw [ofEntries]
  split
  · rename_i few
    exact .map (Arity.toNat_of_few few).symm
  · exact .refl _

theorem Restyled.eq_str {r r' : Recipe} (restyled : Restyled r r') (text : String) :
    r = .str text ↔ r' = .str text := by
  induction restyled with
  | list | map | argument => exact ⟨nofun, nofun⟩
  | refl => exact .rfl
  | symm _ ih => exact ih.symm
  | trans _ _ first second => exact first.trans second

end Recipe

namespace Rebuilding

theorem checkArity_counted {f : Factory} {n : Nat} (counted : f.arity?.all (n == ·)) : checkArity f n = pure () := by
  unfold checkArity
  split
  · rename_i expected number
    rw [number] at counted
    exact if_pos (eq_of_beq counted)
  · rfl

theorem rebuild_within {own : Recipe} {f : Factory} {ds : List Recipe} (takes : f.takesDomain)
    (counted : f.arity? = some (ds.length + 1)) :
    rebuild (some own) (own.within f ds) = build (some own) f (ds.map (argument (some own))) := by
  rw [Recipe.within, rebuild, arguments_eq, invoke.eq_def, checkArity_counted (by simp [counted])]
  simp [checkDomain, takes, argument]

theorem rebuild_aggregate {f : Factory} {ds : List Recipe} (plain : f.takesDomain = false)
    (counted : f.arity?.all (ds.length == ·)) (own : Option Recipe) :
    rebuild own (.invoke f ds) = build own f (ds.map (argument own)) := by
  rw [rebuild, arguments_eq, invoke.eq_def, checkArity_counted (by simpa using counted), plain]
  rfl

section collections

variable (own : Option Recipe)

theorem items_values (rs : List Recipe) : (rs.map (argument own)).mapM (·.value) = rs.mapM (rebuild own) :=
  List.mapM_map

theorem rebuild_listOf {arity : Arity} {rs : List Recipe} (counted : rs.length = arity.toNat) :
    rebuild own (.invoke (.listOf arity) rs) = .list <$> rs.mapM (rebuild own) := by
  rw [← items_values]
  exact rebuild_aggregate rfl (by simp [Factory.arity?, counted]) own

theorem rebuild_listOfArray (rs : List Recipe) :
    rebuild own (.invoke .listOfArray rs) = .list <$> rs.mapM (rebuild own) := by
  rw [← items_values]
  exact rebuild_aggregate rfl rfl own

theorem rebuild_ofItems (rs : List Recipe) : rebuild own (.ofItems rs) = .list <$> rs.mapM (rebuild own) := by
  rw [Recipe.ofItems]
  split
  · rename_i few
    exact rebuild_listOf own (Arity.toNat_of_few few).symm
  · exact rebuild_listOfArray own rs

def entryAt (own : Option Recipe) (e : Recipe × Recipe) : Rebuilding (Value × Value) := do
  let k ← rebuild own e.1
  return (k, ← rebuild own e.2)

theorem pairs_entries (es : List (Recipe × Recipe)) :
    pairs ((es.flatMap fun e => [e.1, e.2]).map (argument own)) = es.mapM (entryAt own) := by
  induction es with
  | nil => rfl
  | cons e es ih =>
    rw [List.mapM_cons, ← ih]
    simp [pairs, entryAt, argument]

theorem entry_entryAt (e : Recipe × Recipe) :
    entry (argument own (.invoke .mapEntry [e.1, e.2])) = entryAt own e := by
  rw [entry, argument, rebuild_aggregate rfl rfl]
  simp [build, argument, entryAt, entryOf]

theorem rebuild_mapOf {arity : Arity} {es : List (Recipe × Recipe)} (counted : es.length = arity.toNat) :
    rebuild own (.invoke (.mapOf arity) (es.flatMap fun e => [e.1, e.2])) = .map <$> es.mapM (entryAt own) := by
  have length : (es.flatMap fun e => [e.1, e.2]).length = 2 * arity.toNat := by simp [← counted, Nat.mul_comm]
  rw [← pairs_entries]
  exact rebuild_aggregate rfl (by simp [Factory.arity?, length]) own

theorem rebuild_mapOfEntries (es : List (Recipe × Recipe)) :
    rebuild own (.invoke .mapOfEntries (es.map fun e => .invoke .mapEntry [e.1, e.2])) =
      .map <$> es.mapM (entryAt own) := by
  have entries : ((es.map fun e => Recipe.invoke .mapEntry [e.1, e.2]).map (argument own)).mapM entry =
      es.mapM (entryAt own) := by
    rw [List.mapM_map, List.mapM_map]
    exact congrArg es.mapM (funext (entry_entryAt own))
  rw [← entries]
  exact rebuild_aggregate rfl rfl own

theorem rebuild_ofEntries (es : List (Recipe × Recipe)) :
    rebuild own (.ofEntries es) = .map <$> es.mapM (entryAt own) := by
  rw [Recipe.ofEntries]
  split
  · rename_i few
    exact rebuild_mapOf own (Arity.toNat_of_few few).symm
  · exact rebuild_mapOfEntries own es

end collections

inductive AlikeArguments : Argument → Argument → Prop
  | intro {r r' : Recipe} (v : Rebuilding Value) :
      (∀ text, r = .str text ↔ r' = .str text) → AlikeArguments ⟨r, v⟩ ⟨r', v⟩

section alike

variable {own : Option Recipe} {as bs : List Argument}

theorem AlikeArguments.refl (a : Argument) : AlikeArguments a a := .intro a.value fun _ => .rfl

theorem AlikeArguments.all_refl (as : List Argument) : List.Forall₂ AlikeArguments as as :=
  List.forall₂_same.mpr fun a _ => .refl a

theorem AlikeArguments.mapM {α : Type} {f : Argument → Rebuilding α} (each : ∀ a b, AlikeArguments a b → f a = f b)
    (alike : List.Forall₂ AlikeArguments as bs) : as.mapM f = bs.mapM f := by
  induction alike with
  | nil => rfl
  | cons one _ ih => rw [List.mapM_cons, List.mapM_cons, each _ _ one, ih]

theorem AlikeArguments.value {a b : Argument} : AlikeArguments a b → a.value = b.value
  | .intro _ _ => rfl

theorem AlikeArguments.entry {a b : Argument} : AlikeArguments a b → entry a = entry b
  | .intro _ _ => rfl

theorem AlikeArguments.pairs (alike : List.Forall₂ AlikeArguments as bs) :
    Rebuilding.pairs as = Rebuilding.pairs bs := by
  induction as using Rebuilding.pairs.induct generalizing bs with
  | case1 k v rest ih =>
    rcases alike with _ | ⟨key, _ | ⟨value, alike⟩⟩
    rw [Rebuilding.pairs, Rebuilding.pairs, key.value, value.value, ih alike]
  | case2 as few =>
    rcases alike with _ | ⟨_, _ | ⟨_, _⟩⟩
    · rfl
    · rfl
    · exact absurd rfl (few _ _ _)

theorem build_alike (own : Option Recipe) (f : Factory) (alike : List.Forall₂ AlikeArguments as bs) :
    build own f as = build own f bs := by
  cases f
  case listOf | listOfArray =>
    rw [build, build, AlikeArguments.mapM (fun _ _ => AlikeArguments.value) alike]
  case mapOf =>
    rw [build, build, AlikeArguments.pairs alike]
  case mapOfEntries =>
    rw [build, build, AlikeArguments.mapM (fun _ _ => AlikeArguments.entry) alike]
  case name =>
    rcases alike with _ | ⟨⟨_, same⟩, _ | ⟨_, rest⟩⟩
    · rfl
    · rw [build, build]
      dsimp only
      split
      · rw [(same _).mp rfl]
      · rename_i other
        split
        · exact absurd ((same _).mpr rfl) (other _)
        · rfl
    · simp [build, rest.length_eq]
  all_goals
    rcases alike with _ | ⟨⟨_, _⟩, _ | ⟨⟨_, _⟩, _ | ⟨⟨_, _⟩, _ | ⟨⟨_, _⟩, _ | ⟨_, rest⟩⟩⟩⟩⟩
    all_goals first | rfl | simp [build, rest.length_eq]

theorem invoke_alike (own : Option Recipe) (f : Factory) (alike : List.Forall₂ AlikeArguments as bs)
    (domain : f.takesDomain → as.head?.map (·.recipe) = bs.head?.map (·.recipe)) :
    invoke own f as = invoke own f bs := by
  have built := build_alike own f alike
  rw [invoke.eq_def, invoke.eq_def, alike.length_eq]
  congr 1
  funext _
  split
  · rename_i takes
    cases alike with
    | nil => rfl
    | cons first rest =>
      obtain same : _ = _ := by simpa using domain takes
      simp only [same, build_alike own f rest]
  · exact built

end alike

theorem rebuild_restyled (own : Option Recipe) {r r' : Recipe} (restyled : r.Restyled r') :
    rebuild own r = rebuild own r' := by
  induction restyled with
  | list counted => rw [rebuild_listOf own counted, rebuild_listOfArray]
  | map counted => rw [rebuild_mapOf own counted, rebuild_mapOfEntries]
  | @argument f before after r r' told restyled ih =>
    rw [rebuild, rebuild, arguments_eq, arguments_eq]
    refine invoke_alike own f ?_ fun takes => ?_
    · rw [List.map_append, List.map_append, List.map_cons, List.map_cons]
      refine List.rel_append (AlikeArguments.all_refl _) (.cons ?_ (AlikeArguments.all_refl _))
      rw [argument, argument, ih]
      exact .intro _ restyled.eq_str
    · obtain ⟨d, ds, rfl⟩ := List.exists_cons_of_ne_nil (told takes)
      rfl
  | refl => rfl
  | symm _ ih => exact ih.symm
  | trans _ _ first second => exact first.trans second

/-- A collection of any size comes to what its items or entries come to, from left to right up to the first
refusal. Whichever form is chosen for it may be exchanged for the one that takes any number, wherever it stands
in a recipe. A collection has no recipe exactly if an item of it has none. -/
theorem collections_interchangeable (own : Option Recipe) :
    (∀ items, Recipe.ofItems? items = none ↔ none ∈ items) ∧
    (∀ entries, Recipe.ofEntries? entries = none ↔ none ∈ entries.map (·.2)) ∧
    (∀ rs : List Recipe, ∃ r, Recipe.ofItems? (rs.map some) = some r ∧ r.Restyled (.invoke .listOfArray rs) ∧
      rebuild own r = .list <$> rs.mapM (rebuild own)) ∧
    (∀ es : List (Recipe × Recipe), ∃ r, Recipe.ofEntries? (es.map fun e => (e.1, some e.2)) = some r ∧
      r.Restyled (.invoke .mapOfEntries (es.map fun e => .invoke .mapEntry [e.1, e.2])) ∧
      rebuild own r = .map <$> es.mapM (entryAt own)) ∧
    ∀ r r', r.Restyled r' → rebuild own r = rebuild own r' :=
  ⟨fun _ => Recipe.ofItems?_eq_none, fun _ => Recipe.ofEntries?_eq_none,
    fun rs => ⟨_, Recipe.ofItems?_some rs, Recipe.restyled_ofItems rs, rebuild_ofItems own rs⟩,
    fun es => ⟨_, Recipe.ofEntries?_some es, Recipe.restyled_ofEntries es, rebuild_ofEntries own es⟩,
    fun _ _ => rebuild_restyled own⟩

/-- A list in a map in a list, each in the form for its size and each in the form for any number. -/
theorem collections_interchangeable_nested :
    let sized : Recipe := .ofItems [.ofEntries [(.str "sizes", .ofItems [.int 1, .null])]]
    let unsized : Recipe := .invoke .listOfArray [.invoke .mapOfEntries
      [.invoke .mapEntry [.str "sizes", .invoke .listOfArray [.int 1, .null]]]]
    sized.Restyled unsized ∧ rebuild none sized = rebuild none unsized := by
  intro sized unsized
  have inner : Recipe.Restyled (.invoke .mapEntry [.str "sizes", .ofItems [.int 1, .null]])
      (.invoke .mapEntry [.str "sizes", .invoke .listOfArray [.int 1, .null]]) :=
    @Recipe.Restyled.argument _ [.str "sizes"] [] _ _ nofun (Recipe.restyled_ofItems _)
  have middle : Recipe.Restyled (.ofEntries [(.str "sizes", .ofItems [.int 1, .null])])
      (.invoke .mapOfEntries [.invoke .mapEntry [.str "sizes", .invoke .listOfArray [.int 1, .null]]]) :=
    .trans (Recipe.restyled_ofEntries _) (@Recipe.Restyled.argument _ [] [] _ _ nofun inner)
  have outer : sized.Restyled unsized :=
    .trans (Recipe.restyled_ofItems _) (@Recipe.Restyled.argument _ [] [] _ _ nofun middle)
  exact ⟨outer, (collections_interchangeable none).2.2.2.2 _ _ outer⟩

end Rebuilding

end Nominal
