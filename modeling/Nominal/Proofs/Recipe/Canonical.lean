import Nominal.Proofs.Recipe.Meaning
import Nominal.Proofs.Types.Forming
/-!
What the recipes that are given out stand for. Modules, packages and types are found again under the names
by which they are described; a type that the factories make comes out of its own recipe.
-/

namespace Nominal

theorem Arity.toNat_of_few {n : Nat} (few : n ≤ Recipe.maxFixedArity) : (Arity.ofNat n).toNat = n :=
  UInt8.toNat_ofNat_of_lt (Nat.lt_of_le_of_lt few (by decide))

namespace Store

variable {s : Store} {lex : Lexicon} {own : Recipe}

def Answers (s : Store) (lex : Lexicon) (own : Recipe) (f : ElementId → Option Recipe) (e : ElementId) : Prop :=
  ∃ r, f e = some r ∧ s.meaning lex (some own) r = some (.element e)

abbrev Tells (s : Store) (own : Recipe) (f : ElementId → Option Recipe) (e : ElementId) : Prop :=
  s.Answers .plain own f e

section readings

variable {r : Recipe}

theorem element_of_meaning {e : ElementId} (means : s.meaning lex (some own) r = some (.element e)) :
    (s.reading lex (some own) r).element? = some e := by
  rw [Reading.element?, reading, means]
  rfl

theorem name_of_meaning {name : String} (means : s.meaning lex (some own) r = some (.name name)) :
    (s.reading lex (some own) r).name? = some name := by
  rw [Reading.name?, reading, means]
  rfl

theorem type_of_meaning {t : TypeTree} (means : s.meaning lex (some own) r = some (.type t)) :
    (s.reading lex (some own) r).type? = some t := by
  rw [Reading.type?, reading, means]
  rfl

theorem optional_of_meaning {t : TypeTree} (means : s.meaning lex (some own) r = some (.type t)) :
    (s.reading lex (some own) r).optional? = some (some t) := by
  rw [Reading.optional?, reading, means]
  rfl

theorem types_of_meaning {ts : List TypeTree} (means : s.meaning lex (some own) r = some (.types ts)) :
    (s.reading lex (some own) r).types? = some ts := by
  rw [Reading.types?, reading, means]
  rfl

end readings

theorem meaning_within {f : Factory} {args : List Recipe} (takes : f.takesDomain)
    (arity : f.arity? = some (args.length + 1)) :
    s.meaning lex (some own) (own.within f args) = s.built lex f (args.map (s.reading lex (some own))) := by
  rw [Recipe.within, meaning, readings_eq, List.map_cons, invoked]
  simp [takes, arity, reading]

theorem meaning_ofName (s : Store) (lex : Lexicon) (own : Recipe) (name : String) :
    s.meaning lex (some own) (own.ofName name) = .name <$> lex name := by
  rw [Recipe.ofName, meaning_within rfl rfl]
  rfl

theorem meaning_ofItems (rs : List Recipe) : s.meaning lex (some own) (.ofItems rs) =
    .types <$> rs.mapM fun r => (s.reading lex (some own) r).type? := by
  have items : (rs.map (s.reading lex (some own))).mapM (·.type?) =
      rs.mapM fun r => (s.reading lex (some own) r).type? := List.mapM_map
  rw [Recipe.ofItems]
  split
  · rename_i few
    rw [meaning, readings_eq, ← items]
    simp [invoked, Factory.arity?, Factory.takesDomain, Arity.toNat_of_few few, built]
  · rw [meaning, readings_eq, ← items]
    simp [invoked, Factory.arity?, Factory.takesDomain, built]

theorem recipes_meaning {f : ElementId → Option Recipe} {ts : List TypeTree}
    (each : ∀ t ∈ ts, ∃ r, t.recipe own f = some r ∧ s.meaning .plain (some own) r = some (.type t)) :
    ∃ rs, TypeTree.recipes own f ts = some rs ∧
      s.meaning .plain (some own) (.ofItems rs) = some (.types ts) := by
  suffices all : ∃ rs, TypeTree.recipes own f ts = some rs ∧
      rs.mapM (fun r => (s.reading .plain (some own) r).type?) = some ts by
    obtain ⟨rs, recipes, types⟩ := all
    exact ⟨rs, recipes, by rw [meaning_ofItems, types]; rfl⟩
  induction ts with
  | nil => exact ⟨[], rfl, rfl⟩
  | cons t ts ih =>
    obtain ⟨r, recipe, means⟩ := each t (by simp)
    obtain ⟨rs, recipes, types⟩ := ih fun u mem => each u (by simp [mem])
    refine ⟨r :: rs, by rw [TypeTree.recipes, recipe, recipes]; rfl, ?_⟩
    rw [List.mapM_cons, type_of_meaning means, types]
    rfl

theorem usage_of_admits {o : TypeTree} {e : ElementId} {args : List TypeTree}
    (admits : s.admitsUsage (some o) e args) :
    s.usage (if o.isNone then none else some o) e args = some (.declared o e args) := by
  split
  · rename_i nothing
    rw [TypeTree.eq_none_of_isNone nothing] at admits ⊢
    rw [usage, if_pos (admitsUsage_none ▸ admits)]
    rfl
  · rw [usage, if_pos admits]
    rfl

/-- A type that the factories make comes out of its own recipe. -/
theorem Formed.means {varied : ElementId → Prop} {t : TypeTree} (formed : s.Formed varied t)
    {f : ElementId → Option Recipe} (types : ∀ e, s.IsType e → s.Tells own f e)
    (varieds : ∀ e, varied e → s.IsTypeParameter e ∧ s.Tells own f e) :
    ∃ r, t.recipe own f = some r ∧ s.meaning .plain (some own) r = some (.type t) := by
  -- By the way in which the type was made: each factory is followed by the factory of the same name.
  induction formed with
  | primitive p =>
    refine ⟨_, rfl, ?_⟩
    rw [meaning_within rfl rfl]
    cases p <;> rfl
  | none => exact ⟨_, rfl, by rw [meaning_within rfl rfl]; rfl⟩
  | void => exact ⟨_, rfl, by rw [meaning_within rfl rfl]; rfl⟩
  | null => exact ⟨_, rfl, by rw [meaning_within rfl rfl]; rfl⟩
  | array component _ ih =>
    obtain ⟨r, recipe, means⟩ := ih
    refine ⟨own.within .arrayType [r], by rw [TypeTree.recipe, recipe]; rfl, ?_⟩
    rw [meaning_within rfl rfl]
    simp [built, type_of_meaning means, TypeTree.arrayOf, component]
  | declared admits _ _ outer inner =>
    rename_i o e args _ _
    obtain ⟨rₑ, recipeₑ, meansₑ⟩ := types e (admitsUsage_type admits)
    obtain ⟨rs, recipes, list⟩ := recipes_meaning inner
    obtain ⟨r, recipe, means⟩ : ∃ r, (if o.isNone then some Recipe.null else o.recipe own f) = some r ∧
        (s.reading .plain (some own) r).optional? = some (if o.isNone then .none else some o) := by
      obtain ⟨r, recipe, means⟩ := outer
      split
      · exact ⟨.null, rfl, rfl⟩
      · exact ⟨r, recipe, optional_of_meaning means⟩
    refine ⟨own.within .declaredType [r, rₑ, .ofItems rs], ?_, ?_⟩
    · rw [TypeTree.recipe, recipe, recipeₑ, recipes]
      rfl
    rw [meaning_within rfl rfl]
    simp [built, means, element_of_meaning meansₑ, types_of_meaning list, usage_of_admits admits]
  | typeVariable var =>
    rename_i e
    obtain ⟨kind, r, recipe, means⟩ := varieds e var
    refine ⟨own.within .typeVariable [r], by rw [TypeTree.recipe, recipe]; rfl, ?_⟩
    rw [meaning_within rfl rfl]
    simp [built, element_of_meaning means, show s.kind? e = some _ from kind]
  | wildcard made _ _ above below =>
    rename_i upper lower _ _
    have bound (b? : Option TypeTree) (each : ∀ b ∈ b?, ∃ r, b.recipe own f = some r ∧
        s.meaning .plain (some own) r = some (.type b)) : ∃ r, TypeTree.optRecipe own f b? = some r ∧
          (s.reading .plain (some own) r).optional? = some b? := by
      cases b? with
      | none => exact ⟨.null, rfl, rfl⟩
      | some b =>
        obtain ⟨r, recipe, means⟩ := each b rfl
        exact ⟨r, recipe, optional_of_meaning means⟩
    obtain ⟨r, recipe, means⟩ := bound upper above
    obtain ⟨r', recipe', means'⟩ := bound lower below
    refine ⟨own.within .wildcardType [r, r'], by rw [TypeTree.recipe, recipe, recipe']; rfl, ?_⟩
    rw [meaning_within rfl rfl]
    simp [built, means, means', made]

end Store

end Nominal
