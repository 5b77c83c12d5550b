import Nominal.Proofs.Recipe.Foremost
/-!
Whatever a recipe stands for has a recipe of its own that stands for it, even if names in the first one were
taken for others. A search that was worded in another way comes upon an element first; so does the search for
the element's own name and erased signature.
-/

namespace Nominal

namespace Store

variable {s : Store} {own : Recipe} {e o : ElementId} {slot : Slot} {name : String}

def Varies (s : Store) (own : Recipe) (e : ElementId) : Prop :=
  s.IsTypeParameter e ∧ s.Tells own (s.recipe own) e

theorem Formed.told {t : TypeTree} (h : s.Consistent) (formed : s.Formed (s.Varies own) t) :
    ∃ r, t.recipe own (s.recipe own) = some r ∧ s.meaning .plain (some own) r = some (.type t) :=
  formed.means (fun e type => by rw [Tells, Answers, recipe_type type]; exact h.type_tells own type) fun _ => id

end Store

def Meaning.Told (s : Store) (own : Recipe) : Meaning → Prop
  | .element e => s.Tells own (s.recipe own) e
  | .type t => s.Formed (s.Varies own) t
  | .types ts => ∀ t ∈ ts, s.Formed (s.Varies own) t
  | .null | .name _ | .elementKind _ | .typeKind _ => True

def Reading.Told (s : Store) (own : Recipe) (r : Reading) : Prop :=
  ∀ m, r.meaning = some m → m.Told s own

namespace Reading.Told

variable {s : Store} {own : Recipe} {r : Reading} (told : r.Told s own)

include told

theorem element {e : ElementId} (read : r.element? = some e) : s.Tells own (s.recipe own) e := by
  obtain ⟨m, means, same⟩ := Option.bind_eq_some_iff.mp read
  cases m <;> cases same
  exact told _ means

theorem type {t : TypeTree} (read : r.type? = some t) : s.Formed (s.Varies own) t := by
  obtain ⟨m, means, same⟩ := Option.bind_eq_some_iff.mp read
  cases m <;> cases same
  exact told _ means

theorem types {ts : List TypeTree} (read : r.types? = some ts) : ∀ t ∈ ts, s.Formed (s.Varies own) t := by
  obtain ⟨m, means, same⟩ := Option.bind_eq_some_iff.mp read
  cases m <;> cases same
  exact told _ means

theorem optional {t? : Option TypeTree} (read : r.optional? = some t?) :
    ∀ t ∈ t?, s.Formed (s.Varies own) t := by
  obtain ⟨m, means, same⟩ := Option.bind_eq_some_iff.mp read
  cases m <;> cases same
  · exact nofun
  · rintro _ ⟨⟩
    exact told _ means

end Reading.Told

namespace Store

variable {s : Store} {lex : Lexicon} {own : Recipe} {e o : ElementId} {slot : Slot} {name : String}

theorem Sound.lookup_tells (h : s.Sound) (sel : Selection) (owner : s.Tells own (s.recipe own) o)
    (found : s.lookup o sel.picks name = some e) : s.Tells own (s.recipe own) e := by
  obtain ⟨slot, there, enclosing, picked, rfl⟩ := lookup_found found
  exact h.selected_tells sel there picked enclosing owner found

theorem Sound.overload_tells (h : s.Sound) {k : ElementKind} (executable : k.isExecutable)
    {wanted : List TypeTree} (closed : ∀ t ∈ wanted, s.Closed t)
    (found : s.overload o k name wanted = some e) : s.Tells own (s.recipe own) e := by
  obtain ⟨slot, there, enclosing, rfl, rfl, same⟩ := overload_found found
  have signature : s.signature e = wanted :=
    TypeTree.eq_of_sameAll _ _ same
      (.inr (TypeTree.allSimple_of_plain _ (Formed.allPlain fun t mem => (closed t mem).plain)))
  refine h.executable_tells there executable (fun t mem => closed t (signature ▸ mem)) fun o' around => ?_
  cases enclosing.symm.trans around
  rw [signature]
  exact found

section

variable {top : ElementId} (h : s.Sound) (object : s.objectElement? = some top) (bounds : s.UsableBounds)

theorem items_told {rs : List Reading} (each : ∀ r ∈ rs, r.Told s own) {ts : List TypeTree}
    (read : rs.mapM (·.type?) = some ts) : ∀ t ∈ ts, s.Formed (s.Varies own) t := by
  induction rs generalizing ts with
  | nil =>
    cases read
    simp
  | cons r rs ih =>
    rw [List.mapM_cons] at read
    simp only [Option.bind_eq_bind, Option.bind_eq_some_iff, Option.pure_def, Option.some.injEq] at read
    obtain ⟨t, type, ts, types, rfl⟩ := read
    rintro _ (_ | ⟨_, mem⟩)
    · exact (each r (by simp)).type type
    · exact ih (fun r mem => each r (by simp [mem])) types _ mem

include h in
theorem Sound.index_told {p : ElementKind → Bool} {index : NameIndex} (indexes : s.Indexes p index)
    (qualified : ∀ k, p k → k.isQualified) (found : index.find? name = some e) :
    s.Tells own (s.recipe own) e := by
  obtain ⟨slot, there, kind, _⟩ := (indexes name e).mp found
  have isQualified := qualified _ kind
  rw [Tells, Answers, recipe_qualified there isQualified]
  exact h.named_tells own there isQualified

include h object bounds

theorem executable_told {k : ElementKind} {ts : List TypeTree} (parameters : ∀ t ∈ ts, s.Formed (s.Varies own) t)
    (found : (if k.isExecutable then s.overload o k name (ts.map s.erased) else none) = some e) :
    s.Tells own (s.recipe own) e := by
  split at found
  · rename_i executable
    refine h.overload_tells executable (fun t mem => ?_) found
    obtain ⟨u, mem', rfl⟩ := List.mem_map.mp mem
    exact ((parameters u mem').erase h object bounds (fun _ => And.left) _).1
  · cases found

theorem built_told {f : Factory} {rs : List Reading} (each : ∀ r ∈ rs, r.Told s own) {m : Meaning}
    (built : s.built lex f rs = some m) : m.Told s own := by
  unfold Store.built at built
  split at built
  · split at built
    · obtain ⟨_, _, rfl⟩ := Option.map_eq_some_iff.mp built
      trivial
    · cases built
  · obtain ⟨n, _, built⟩ := Option.bind_eq_some_iff.mp built
    obtain ⟨e, found, rfl⟩ := Option.map_eq_some_iff.mp built
    exact h.index_told h.modules (by simp [ElementKind.isQualified]) found
  · obtain ⟨n, _, built⟩ := Option.bind_eq_some_iff.mp built
    obtain ⟨e, found, rfl⟩ := Option.map_eq_some_iff.mp built
    exact h.index_told h.packages (by simp [ElementKind.isQualified]) found
  · obtain ⟨n, _, built⟩ := Option.bind_eq_some_iff.mp built
    obtain ⟨e, found, rfl⟩ := Option.map_eq_some_iff.mp built
    exact h.index_told h.typeElements (by simp_all [ElementKind.isQualified]) found
  · obtain ⟨o, owner, built⟩ := Option.bind_eq_some_iff.mp built
    obtain ⟨n, _, built⟩ := Option.bind_eq_some_iff.mp built
    obtain ⟨e, found, rfl⟩ := Option.map_eq_some_iff.mp built
    exact h.lookup_tells .typeParameter ((each _ (by simp)).element owner) found
  · obtain ⟨o, _, built⟩ := Option.bind_eq_some_iff.mp built
    obtain ⟨k, _, built⟩ := Option.bind_eq_some_iff.mp built
    obtain ⟨n, _, built⟩ := Option.bind_eq_some_iff.mp built
    obtain ⟨ts, parameters, built⟩ := Option.bind_eq_some_iff.mp built
    obtain ⟨e, found, rfl⟩ := Option.map_eq_some_iff.mp built
    exact executable_told h object bounds ((each _ (by simp)).types parameters) found
  · obtain ⟨o, owner, built⟩ := Option.bind_eq_some_iff.mp built
    obtain ⟨n, _, built⟩ := Option.bind_eq_some_iff.mp built
    obtain ⟨e, found, rfl⟩ := Option.map_eq_some_iff.mp built
    exact h.lookup_tells .value ((each _ (by simp)).element owner) found
  · obtain ⟨o, owner, built⟩ := Option.bind_eq_some_iff.mp built
    obtain ⟨n, _, built⟩ := Option.bind_eq_some_iff.mp built
    obtain ⟨e, found, rfl⟩ := Option.map_eq_some_iff.mp built
    exact h.lookup_tells .component ((each _ (by simp)).element owner) found
  · obtain ⟨outer, around, built⟩ := Option.bind_eq_some_iff.mp built
    obtain ⟨e, _, built⟩ := Option.bind_eq_some_iff.mp built
    obtain ⟨args, arguments, built⟩ := Option.bind_eq_some_iff.mp built
    obtain ⟨t, made, rfl⟩ := Option.map_eq_some_iff.mp built
    exact .of_usage ((each _ (by simp)).optional around) ((each _ (by simp)).types arguments) made
  · obtain ⟨c, component, built⟩ := Option.bind_eq_some_iff.mp built
    obtain ⟨t, made, rfl⟩ := Option.map_eq_some_iff.mp built
    exact .of_array ((each _ (by simp)).type component) made
  · obtain ⟨k, _, built⟩ := Option.bind_eq_some_iff.mp built
    obtain ⟨p, _, rfl⟩ := Option.map_eq_some_iff.mp built
    exact .primitive p
  · obtain ⟨k, _, built⟩ := Option.bind_eq_some_iff.mp built
    obtain ⟨t, made, rfl⟩ := Option.map_eq_some_iff.mp built
    exact .of_noType made
  · cases built
    exact .null
  · obtain ⟨e, parameter, built⟩ := Option.bind_eq_some_iff.mp built
    split at built <;> cases built
    exact .typeVariable ⟨‹_›, (each _ (by simp)).element parameter⟩
  · obtain ⟨upper, above, built⟩ := Option.bind_eq_some_iff.mp built
    obtain ⟨lower, below, built⟩ := Option.bind_eq_some_iff.mp built
    obtain ⟨t, made, rfl⟩ := Option.map_eq_some_iff.mp built
    exact .of_wildcard ((each _ (by simp)).optional above) ((each _ (by simp)).optional below) made
  · obtain ⟨ts, items, rfl⟩ := Option.map_eq_some_iff.mp built
    exact items_told each items
  · obtain ⟨ts, items, rfl⟩ := Option.map_eq_some_iff.mp built
    exact items_told each items
  · cases built

theorem invoked_told {domain : Option Recipe} {f : Factory} {rs : List Reading}
    (each : ∀ r ∈ rs, r.Told s own) {m : Meaning} (invoked : s.invoked lex domain f rs = some m) : m.Told s own := by
  unfold Store.invoked at invoked
  split at invoked
  · split at invoked
    · split at invoked
      · cases invoked
      · split at invoked
        · exact built_told h object bounds (fun r mem => each r (by simp [mem])) invoked
        · cases invoked
    · exact built_told h object bounds each invoked
  · cases invoked

end

mutual

theorem meaning_told {top : ElementId} (h : s.Sound) (object : s.objectElement? = some top)
    (bounds : s.UsableBounds) : (d : Recipe) → (s.reading lex (some own) d).Told s own
  | .null | .elementKind _ | .typeKind _ => by
    rintro _ ⟨⟩
    trivial
  | .bool _ | .int _ | .str _ => nofun
  | .invoke f args => fun m means =>
    invoked_told h object bounds (readings_told h object bounds args) (by rwa [reading, meaning] at means)

theorem readings_told {top : ElementId} (h : s.Sound) (object : s.objectElement? = some top)
    (bounds : s.UsableBounds) : (ds : List Recipe) → ∀ r ∈ s.readings lex (some own) ds, r.Told s own
  | [] => nofun
  | d :: ds => by
    rw [readings]
    rintro _ (_ | ⟨_, mem⟩)
    · exact meaning_told h object bounds d
    · exact readings_told h object bounds ds _ mem

end

end Store

end Nominal
