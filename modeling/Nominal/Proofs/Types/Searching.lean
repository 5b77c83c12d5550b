import Mathlib.Logic.Function.Iterate
import Nominal.Proofs.Types.Above
/-!
The search for a supertype over an element, on trees. What a search of so many levels finds depends on nothing but
supertypes that are known when it ends, so it finds the same again.
-/

namespace Nominal

open Store StoreM

/-- A search in progress, on trees. -/
structure Outlook where
  seen : List ElementId
  next : List TypeTree

def StoreM.Frontier.outlook (f : Frontier) (s : Store) : Outlook := ⟨f.seen, f.next.map s.tree⟩

namespace Store

variable {s s' : Store} {target : ElementId}

def look (s : Store) (target : ElementId) (o : Outlook) (t : TypeTree) : Option (TypeTree ⊕ Outlook) :=
  match t with
  | .declared _ e _ =>
    if e = target then some (.inl t)
    else if e ∈ o.seen then some (.inr o)
    else (s.above? t).map fun ts => .inr ⟨e :: o.seen, o.next ++ ts⟩
  | .typeVariable _ | .intersection _ => (s.above? t).map fun ts => .inr { o with next := o.next ++ ts }
  | _ => some (.inr o)

def lookAll (s : Store) (target : ElementId) : Outlook → List TypeTree → Option (TypeTree ⊕ Outlook)
  | o, [] => some (.inr o)
  | o, t :: rest => (s.look target o t).bind fun
    | .inl found => some (.inl found)
    | .inr o => s.lookAll target o rest

def lookStep (s : Store) (target : ElementId) (again : Outlook → Option (Option TypeTree)) (o : Outlook) :
    Option (Option TypeTree) :=
  if o.next.isEmpty then some none
  else (s.lookAll target { o with next := [] } o.next).bind fun
    | .inl t => some (some t)
    | .inr o => again o

def search? (s : Store) (target : ElementId) (levels : Nat) : Outlook → Option (Option TypeTree) :=
  (s.lookStep target)^[levels] fun _ => none

theorem search?_succ (s : Store) (target : ElementId) (levels : Nat) :
    s.search? target (levels + 1) = s.lookStep target (s.search? target levels) :=
  Function.iterate_succ_apply' _ _ _

section stability

theorem Retains.look (move : s.Retains s') {o : Outlook} {t : TypeTree} {r : TypeTree ⊕ Outlook}
    (known : s.look target o t = some r) : s'.look target o t = some r := by
  have stable (f : List TypeTree → TypeTree ⊕ Outlook) (known : (s.above? t).map f = some r) :
      (s'.above? t).map f = some r := by
    obtain ⟨ts, above, rfl⟩ := Option.map_eq_some_iff.mp known
    rw [move.above? above, Option.map_some]
  cases t with
  | declared o' e args =>
    unfold Store.look at known ⊢
    dsimp only at known ⊢
    split
    · rwa [if_pos ‹_›] at known
    · rw [if_neg ‹_›] at known
      split
      · rwa [if_pos ‹_›] at known
      · rw [if_neg ‹_›] at known
        exact stable _ known
  | typeVariable _ => exact stable _ known
  | _ => exact known

theorem Retains.lookAll (move : s.Retains s') {o : Outlook} {ts : List TypeTree} {r : TypeTree ⊕ Outlook}
    (known : s.lookAll target o ts = some r) : s'.lookAll target o ts = some r := by
  induction ts generalizing o with
  | nil => exact known
  | cons t ts ih =>
    obtain ⟨first, looked, known⟩ := Option.bind_eq_some_iff.mp known
    rw [Store.lookAll, move.look looked, Option.bind_some]
    cases first with
    | inl found => exact known
    | inr o => exact ih known

theorem lookStep_mono {again again' : Outlook → Option (Option TypeTree)} {o : Outlook} {r : Option TypeTree}
    (more : ∀ o r, again o = some r → again' o = some r) (known : s.lookStep target again o = some r) :
    s.lookStep target again' o = some r := by
  unfold Store.lookStep at known ⊢
  split
  · rwa [if_pos ‹_›] at known
  · rw [if_neg ‹_›] at known
    obtain ⟨first, looked, known⟩ := Option.bind_eq_some_iff.mp known
    rw [looked, Option.bind_some]
    cases first with
    | inl t => exact known
    | inr o => exact more o r known

theorem Retains.lookStep (move : s.Retains s') {again : Outlook → Option (Option TypeTree)} {o : Outlook}
    {r : Option TypeTree} (known : s.lookStep target again o = some r) : s'.lookStep target again o = some r := by
  unfold Store.lookStep at known ⊢
  split
  · rwa [if_pos ‹_›] at known
  · rw [if_neg ‹_›] at known
    obtain ⟨first, looked, known⟩ := Option.bind_eq_some_iff.mp known
    rw [move.lookAll looked, Option.bind_some]
    exact known

theorem search?_more {levels more : Nat} (le : levels ≤ more) {o : Outlook} {r : Option TypeTree}
    (known : s.search? target levels o = some r) : s.search? target more o = some r := by
  induction levels generalizing o r more with
  | zero => cases known
  | succ levels ih =>
    obtain ⟨more, rfl⟩ : ∃ n, more = n + 1 := ⟨more - 1, by omega⟩
    rw [search?_succ] at known ⊢
    exact lookStep_mono (fun _ _ => ih (Nat.le_of_succ_le_succ le)) known

theorem Retains.search? (move : s.Retains s') {levels : Nat} {o : Outlook} {r : Option TypeTree}
    (known : s.search? target levels o = some r) : s'.search? target levels o = some r := by
  induction levels generalizing o r with
  | zero => cases known
  | succ levels ih =>
    rw [search?_succ] at known ⊢
    exact move.lookStep (lookStep_mono (fun _ _ => ih) known)

end stability

noncomputable def super? (s : Store) (t : TypeTree) (target : ElementId) : Option (Option TypeTree) :=
  open Classical in
  if ends : ∃ levels, (s.search? target levels ⟨[], [t]⟩).isSome then s.search? target ends.choose ⟨[], [t]⟩ else none

theorem super?_eq_some_iff {t : TypeTree} {r : Option TypeTree} :
    s.super? t target = some r ↔ ∃ levels, s.search? target levels ⟨[], [t]⟩ = some r := by
  unfold super?
  split
  · rename_i ends
    refine ⟨fun found => ⟨_, found⟩, fun ⟨levels, found⟩ => ?_⟩
    obtain ⟨r', found'⟩ := Option.isSome_iff_exists.mp ends.choose_spec
    have more := search?_more (Nat.le_max_left levels ends.choose) found
    have more' := search?_more (Nat.le_max_right levels ends.choose) found'
    rw [found', ← more, more']
  · rename_i endless
    refine ⟨nofun, fun ⟨levels, found⟩ => (endless ⟨levels, by rw [found]; rfl⟩).elim⟩

theorem super?_eq_none_iff {t : TypeTree} :
    s.super? t target = none ↔ ∀ levels, s.search? target levels ⟨[], [t]⟩ = none := by
  rw [Option.eq_none_iff_forall_ne_some]
  constructor
  · intro endless levels
    refine Option.eq_none_iff_forall_ne_some.mpr fun r found => ?_
    exact endless r (super?_eq_some_iff.mpr ⟨levels, found⟩)
  · rintro endless r found
    obtain ⟨levels, found⟩ := super?_eq_some_iff.mp found
    rw [endless] at found
    cases found

theorem Retains.super? (move : s.Retains s') {t : TypeTree} {r : Option TypeTree}
    (known : s.super? t target = some r) : s'.super? t target = some r := by
  obtain ⟨levels, found⟩ := super?_eq_some_iff.mp known
  exact super?_eq_some_iff.mpr ⟨levels, move.search? found⟩

end Store

namespace StoreM

variable {s s' : Store} {t : TypeId} {target : ElementId}

structure Frontier.Known (s : Store) (f : Frontier) : Prop where
  next : ∀ t ∈ f.next, s.HasType t
  seen : ∀ e ∈ f.seen, s.IsType e
  once : f.seen.Nodup

theorem Frontier.Known.advance {f : Frontier} (known : f.Known s) (move : s.Advances s') : f.Known s' where
  next t mem := move.moves.grows.has_type (known.next t mem)
  seen e mem := by
    obtain ⟨k, kind, type⟩ := known.seen e mem
    exact ⟨k, move.moves.grows.kind kind, type⟩
  once := known.once

def VisitKnown (s : Store) : TypeId ⊕ Frontier → Prop
  | .inl t => s.HasType t
  | .inr f => f.Known s

def visited (s : Store) : TypeId ⊕ Frontier → TypeTree ⊕ Outlook := Sum.map s.tree (·.outlook s)

theorem visit_ensures (h : s.Sound) {f : Frontier} (known : f.Known s) (there : s.HasType t) :
    Ensures Advances s (visit target f t) fun r s' =>
      VisitKnown s' r ∧ s'.look target (f.outlook s) (s.tree t) = some (visited s' r) := by
  have follow (seen : List ElementId) (types : ∀ e ∈ seen, s.IsType e) (once : seen.Nodup) :
      Ensures Advances s (do
        return .inr ⟨seen, f.next ++ (← directSupertypes t)⟩ : StoreM (TypeId ⊕ Frontier))
        fun r s' => VisitKnown s' r ∧
          (s'.above? (s.tree t)).map (fun ts => .inr ⟨seen, (f.outlook s).next ++ ts⟩) = some (visited s' r) := by
    refine (directSupertypes_ensures h t).bind fun ts s₁ move ⟨above, trees⟩ => .pure move.sound.stays ⟨?_, ?_⟩
    · have seen₁ := (Frontier.Known.mk (f := ⟨seen, []⟩) nofun types once).advance move
      refine ⟨fun u mem => ?_, seen₁.seen, once⟩
      rcases List.mem_append.mp mem with mem | mem
      · exact move.moves.grows.has_type (known.next u mem)
      · exact above u mem
    · rw [trees, Option.map_some]
      simp only [visited, Sum.map_inr, Frontier.outlook, List.map_append, move.map_tree known.next]
  obtain ⟨shape, found⟩ := has_type_iff.mp there
  have unfolds := h.tree_of_shape found
  refine .get ?_
  rw [shape_of_shape? found]
  cases shape with
  | declared o e args =>
    have looks (s' : Store) : s'.look target (f.outlook s) (s.tree t) =
        if e = target then some (.inl (s.tree t))
        else if e ∈ f.seen then some (.inr (f.outlook s))
        else (s'.above? (s.tree t)).map fun ts => .inr ⟨e :: f.seen, (f.outlook s).next ++ ts⟩ := by
      rw [unfolds]
      rfl
    dsimp only
    split
    · exact .pure h.stays ⟨there, by rw [looks, if_pos ‹_›]; rfl⟩
    · split
      · exact .pure h.stays ⟨known, by rw [looks, if_neg ‹_›, if_pos ‹_›]; rfl⟩
      · rename_i other new
        have type : s.IsType e := ((h.shapes t _ found).declared o e args rfl).1
        refine (follow (e :: f.seen) (List.forall_mem_cons.mpr ⟨type, known.seen⟩)
          (List.nodup_cons.mpr ⟨new, known.once⟩)).imp fun r s' _ ⟨known', above⟩ => ⟨known', ?_⟩
        rw [looks, if_neg other, if_neg new]
        exact above
  | typeVariable e upper | intersection ts =>
    refine (follow f.seen known.seen known.once).imp fun r s' _ ⟨known', above⟩ => ⟨known', ?_⟩
    rw [unfolds] at above ⊢
    exact above
  | primitive _ | noType _ | null | error _ | array _ | wildcard _ _ | executable _ | union _ =>
    exact .pure h.stays ⟨known, by rw [unfolds]; rfl⟩

theorem visitAll_ensures (h : s.Sound) {f : Frontier} (known : f.Known s) {ts : List TypeId}
    (there : ∀ t ∈ ts, s.HasType t) : Ensures Advances s (visitAll target f ts) fun r s' =>
      VisitKnown s' r ∧ s'.lookAll target (f.outlook s) (ts.map s.tree) = some (visited s' r) := by
  induction ts generalizing s f with
  | nil => exact .pure h.stays ⟨known, rfl⟩
  | cons t ts ih =>
    refine (visit_ensures h known (there t (by simp))).bind fun r s₁ move ⟨known₁, looked⟩ => ?_
    have rest₁ (u : TypeId) (mem : u ∈ ts) : s₁.HasType u := move.moves.grows.has_type (there u (by simp [mem]))
    have trees : ts.map s₁.tree = ts.map s.tree := move.map_tree fun u mem => there u (by simp [mem])
    cases r with
    | inl found =>
      refine .pure move.sound.stays ⟨known₁, ?_⟩
      rw [List.map_cons, lookAll, looked]
      rfl
    | inr f₁ =>
      refine (ih move.sound known₁ rest₁).imp fun r s₂ move₂ ⟨known₂, looked₂⟩ => ⟨known₂, ?_⟩
      rw [List.map_cons, lookAll, move₂.look looked, Option.bind_some, ← trees]
      exact looked₂

def searching (target : ElementId) (levels : Nat) : Frontier → Searching (Option TypeId) :=
  (searchStep target)^[levels] fun _ => failure

theorem searching_succ (target : ElementId) (levels : Nat) :
    searching target (levels + 1) = searchStep target (searching target levels) :=
  Function.iterate_succ_apply' _ _ _

theorem searching_ensures (levels : Nat) (h : s.Sound) {f : Frontier} (known : f.Known s) :
    Ensures Advances s (searching target levels f).run fun r s' =>
      (∀ u? ∈ r, ∀ u ∈ u?, s'.HasType u) ∧
        s'.search? target levels (f.outlook s) = r.map (·.map s'.tree) := by
  induction levels generalizing s f with
  | zero => exact .pure h.stays ⟨nofun, rfl⟩
  | succ levels ih =>
    rw [searching_succ]
    have steps (s' : Store) : s'.search? target (levels + 1) (f.outlook s) =
        if f.next.isEmpty then some none
        else (s'.lookAll target ⟨f.seen, []⟩ (f.next.map s.tree)).bind fun
          | .inl t => some (some t)
          | .inr o => s'.search? target levels o := by
      rw [search?_succ, lookStep, Frontier.outlook, List.isEmpty_map]
    unfold searchStep
    split
    · refine .pure h.stays ⟨fun u? mem => ?_, by rw [steps, if_pos ‹_›]; rfl⟩
      cases mem
      exact nofun
    · rename_i more
      have begins : Frontier.Known s { f with next := [] } := ⟨nofun, known.seen, known.once⟩
      refine Ensures.option_step (visitAll_ensures h begins known.next) fun r s₁ move ⟨known₁, looked⟩ => ?_
      cases r with
      | inl t =>
        refine .pure move.sound.stays ⟨fun u? mem u same => ?_, ?_⟩
        · cases mem
          cases same
          exact known₁
        · have looked' : s₁.lookAll target ⟨f.seen, []⟩ (f.next.map s.tree) = some (.inl (s₁.tree t)) := looked
          rw [steps, if_neg more, looked']
          rfl
      | inr f₁ =>
        refine (ih move.sound known₁).imp fun r s₂ move₂ ⟨known₂, found⟩ => ⟨known₂, ?_⟩
        have looked' : s₁.lookAll target ⟨f.seen, []⟩ (f.next.map s.tree) = some (.inr (f₁.outlook s₁)) := looked
        rw [steps, if_neg more, move₂.lookAll looked', Option.bind_some]
        exact found

end StoreM

end Nominal
