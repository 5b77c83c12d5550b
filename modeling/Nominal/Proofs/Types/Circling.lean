import Mathlib.Data.Finset.Card
import Mathlib.Order.Monotone.Basic
import Nominal.Proofs.Types.Searching
/-!
When a search goes round in circles. As long as it meets no new element it only follows the bounds of type
variables, and completes nothing. There are only so many types: if it has not come to an end after as many levels as
there are types, it never does. So the search, which gives up then, finds what every longer search finds.
-/

namespace Nominal

open Store StoreM

theorem spread_within {α : Type} {things : Finset α} (reached : Nat → α → Prop)
    (grows : ∀ k a, reached k a → reached (k + 1) a)
    (settles : ∀ k, (∀ a ∈ things, reached (k + 1) a → reached k a) →
      ∀ a ∈ things, reached (k + 2) a → reached (k + 1) a)
    {k : Nat} {a : α} (mem : a ∈ things) (holds : reached k a) : reached things.card a := by
  classical
  let part (k : Nat) : Finset α := things.filter (reached k)
  have larger (k : Nat) : part k ⊆ part (k + 1) := Finset.monotone_filter_right _ fun a _ => grows k a
  have mono : Monotone part := monotone_nat_of_le_succ larger
  have stops (k : Nat) (same : (part k).card = (part (k + 1)).card) : (part (k + 1)).card = (part (k + 2)).card := by
    have equal : part k = part (k + 1) := Finset.eq_of_subset_of_card_le (larger k) same.ge
    refine congrArg Finset.card ((larger (k + 1)).antisymm fun a mem => ?_)
    obtain ⟨there, reached⟩ := Finset.mem_filter.mp mem
    refine Finset.mem_filter.mpr ⟨there, settles k (fun b there' reached' => ?_) a there reached⟩
    have before : b ∈ part k := equal ▸ Finset.mem_filter.mpr ⟨there', reached'⟩
    exact (Finset.mem_filter.mp before).2
  have bounded (k : Nat) : (part k).card ≤ things.card := Finset.card_filter_le _ _
  have all : part (max k things.card) = part things.card := by
    have sizes : (part (max k things.card)).card = (part things.card).card :=
      Nat.stabilises_of_monotone (fun _ _ le => Finset.card_le_card (mono le)) bounded stops (Nat.le_max_right _ _)
    exact (Finset.eq_of_subset_of_card_le (mono (Nat.le_max_right _ _)) sizes.le).symm
  have late : a ∈ part (max k things.card) := mono (Nat.le_max_left _ _) (Finset.mem_filter.mpr ⟨mem, holds⟩)
  rw [all] at late
  exact (Finset.mem_filter.mp late).2

namespace Store

variable {s : Store} {target : ElementId} {seen : List ElementId} {t u v : TypeId} {ts : List TypeId} {n k : Nat}

def follow (s : Store) (t : TypeId) : List TypeId :=
  match s.shape t with
  | .typeVariable _ upper =>
    match s.shape upper with
    | .intersection bounds => bounds
    | _ => [upper]
  | .intersection bounds => bounds
  | _ => []

def Idle (s : Store) (target : ElementId) (seen : List ElementId) (t : TypeId) : Prop :=
  ∀ o e args, s.shape t = .declared o e args → e ≠ target ∧ e ∈ seen

inductive Walk (s : Store) : Nat → TypeId → TypeId → Prop
  | stay (t : TypeId) : Walk s 0 t t
  | next {n : Nat} {t u v : TypeId} : u ∈ s.follow t → Walk s n u v → Walk s (n + 1) t v

def level (s : Store) : Nat → List TypeId → List TypeId
  | 0, ts => ts
  | n + 1, ts => s.level n (ts.flatMap s.follow)

theorem mem_level : u ∈ s.level n ts ↔ ∃ t ∈ ts, s.Walk n t u := by
  induction n generalizing ts with
  | zero =>
    refine ⟨fun mem => ⟨u, mem, .stay u⟩, ?_⟩
    rintro ⟨t, mem, ⟨⟩⟩
    exact mem
  | succ n ih =>
    rw [level, ih]
    constructor
    · rintro ⟨v, mem, walk⟩
      obtain ⟨t, there, step⟩ := List.mem_flatMap.mp mem
      exact ⟨t, there, .next step walk⟩
    · rintro ⟨t, there, walk⟩
      cases walk with
      | next step rest => exact ⟨_, List.mem_flatMap.mpr ⟨t, there, step⟩, rest⟩

theorem Walk.shorten (walk : s.Walk (n + 1) t v) : ∃ u, s.Walk n t u := by
  induction n generalizing t with
  | zero => exact ⟨t, .stay t⟩
  | succ n ih =>
    cases walk with
    | next step rest =>
      obtain ⟨u, shorter⟩ := ih rest
      exact ⟨u, .next step shorter⟩

theorem Consistent.follow_known (h : s.Consistent) (known : s.HasType t) (step : u ∈ s.follow t) : s.HasType u := by
  obtain ⟨shape, found⟩ := has_type_iff.mp known
  have fits := h.shapes t shape found
  unfold follow at step
  rw [shape_of_shape? found] at step
  cases shape with
  | typeVariable e upper =>
    have bound := (fits.typeVariable e upper rfl).2.1
    dsimp only at step
    split at step
    · rename_i bounds same
      obtain ⟨shape', found'⟩ := has_type_iff.mp bound
      rw [shape_of_shape? found'] at same
      subst same
      exact (h.shapes upper _ found').part_known bound step
    · exact List.mem_singleton.mp step ▸ bound
  | intersection bounds => exact fits.part_known known step
  | _ => cases step

def allTypes (s : Store) : Finset TypeId := (Finset.range s.types.size).map ⟨TypeId.mk, fun _ _ => TypeId.mk.inj⟩

theorem mem_allTypes : t ∈ s.allTypes ↔ s.HasType t := by
  simp only [allTypes, Finset.mem_map, Finset.mem_range, HasType]
  constructor
  · rintro ⟨_, bound, same⟩
    exact same ▸ bound
  · exact fun bound => ⟨t.index, bound, rfl⟩

theorem card_allTypes (s : Store) : s.allTypes.card = s.types.size := by
  rw [allTypes, Finset.card_map, Finset.card_range]

theorem Consistent.walks_end (h : s.Consistent) (known : s.HasType t) (ends : ∀ u, ¬ s.Walk n t u) :
    ∀ u, ¬ s.Walk s.types.size t u := by
  rw [← card_allTypes]
  refine spread_within (fun k t => ∀ u, ¬ s.Walk k t u) ?_ ?_ (mem_allTypes.mpr known) ends
  · intro k a ends u walk
    obtain ⟨v, shorter⟩ := walk.shorten
    exact ends v shorter
  · rintro k earlier a mem ends u ⟨⟩
    rename_i v step walk
    have there := mem_allTypes.mpr (h.follow_known (mem_allTypes.mp mem) step)
    exact earlier v there (fun w longer => ends w (.next step longer)) u walk

theorem Consistent.walks_reach (h : s.Consistent) (known : s.HasType t) {p : TypeId → Prop} (walk : s.Walk n t u)
    (holds : p u) : ∃ k < s.types.size, ∃ u, s.Walk k t u ∧ p u := by
  rw [← card_allTypes]
  refine spread_within (fun k t => ∃ j < k, ∃ u, s.Walk j t u ∧ p u) ?_ ?_ (mem_allTypes.mpr known)
    ⟨n, Nat.lt_succ_self n, u, walk, holds⟩
  · rintro k a ⟨j, less, rest⟩
    exact ⟨j, Nat.lt_succ_of_lt less, rest⟩
  · rintro k earlier a mem ⟨j, less, u, walk, holds⟩
    cases walk with
    | stay => exact ⟨0, Nat.succ_pos k, a, .stay a, holds⟩
    | @next j _ v _ step walk =>
      have there := mem_allTypes.mpr (h.follow_known (mem_allTypes.mp mem) step)
      obtain ⟨i, less', w, walk', holds'⟩ := earlier v there ⟨j, Nat.lt_of_succ_lt_succ less, u, walk, holds⟩
      exact ⟨i + 1, Nat.succ_lt_succ less', w, .next step walk', holds'⟩

def Circles (s : Store) (target : ElementId) (seen : List ElementId) (ts : List TypeId) : Prop :=
  ∀ n, s.level n ts ≠ [] ∧ ∀ t ∈ s.level n ts, s.Idle target seen t

theorem Consistent.circles (h : s.Consistent) (known : ∀ t ∈ ts, s.HasType t)
    (long : ∀ n ≤ s.types.size, s.level n ts ≠ [] ∧ ∀ t ∈ s.level n ts, s.Idle target seen t) :
    s.Circles target seen ts := by
  intro n
  constructor
  · intro ends
    obtain ⟨u, mem⟩ := List.exists_mem_of_ne_nil _ (long _ (Nat.le_refl _)).1
    obtain ⟨t, there, walk⟩ := mem_level.mp mem
    refine h.walks_end (known t there) (n := n) (fun v walk' => ?_) u walk
    have late : v ∈ s.level n ts := mem_level.mpr ⟨t, there, walk'⟩
    rw [ends] at late
    cases late
  · intro u mem
    obtain ⟨t, there, walk⟩ := mem_level.mp mem
    by_contra learned
    obtain ⟨k, less, v, walk', learned'⟩ := h.walks_reach (known t there) (p := (¬ s.Idle target seen ·)) walk learned
    exact learned' ((long k (Nat.le_of_lt less)).2 v (mem_level.mpr ⟨t, there, walk'⟩))

end Store

namespace StoreM

variable {s s₁ : Store} {target : ElementId} {t : TypeId} {ts : List TypeId} {f : Frontier}
  {again renew : Frontier → Searching (Option TypeId)}

def Anyhow (_ _ : Store) : Prop := True

instance : Movement Anyhow where
  trans _ _ := trivial
  stay _ := trivial

def Learned (s : Store) (target : ElementId) (f : Frontier) (ts : List TypeId) (r : TypeId ⊕ Frontier) (s' : Store) :
    Prop :=
  ((∀ t ∈ ts, s.Idle target f.seen t) ∧ r = .inr { f with next := f.next ++ ts.flatMap s.follow } ∧ s' = s) ∨
    (¬ ∀ t ∈ ts, s.Idle target f.seen t) ∧ ∀ f', r = .inr f' → f.seen.length < f'.seen.length

def Bounded (s : Store) (t : TypeId) : Prop :=
  (∃ e upper, s.shape t = .typeVariable e upper) ∨ ∃ bounds, s.shape t = .intersection bounds

theorem directSupertypes_bounded (bounded : Bounded s t) :
    Ensures Anyhow s (directSupertypes t) fun ts s' => ts = s.follow t ∧ s' = s := by
  refine .get ?_
  unfold follow
  rcases bounded with ⟨e, upper, same⟩ | ⟨bounds, same⟩ <;> rw [same] <;> dsimp only
  · cases s.shape upper <;> exact .pure trivial ⟨rfl, rfl⟩
  · exact .pure trivial ⟨rfl, rfl⟩

theorem visit_learned (target : ElementId) (f : Frontier) (t : TypeId) (s : Store) :
    Ensures Anyhow s (visit target f t) (Learned s target f [t]) := by
  have followed (bounded : Bounded s t) : Ensures Anyhow s
      (do return .inr { f with next := f.next ++ (← directSupertypes t) } : StoreM (TypeId ⊕ Frontier))
      (Learned s target f [t]) := by
    refine (directSupertypes_bounded bounded).bind fun ts s₁ _ ⟨trees, unmoved⟩ => .pure trivial (.inl ⟨?_, ?_, unmoved⟩)
    · intro u mem o e args same
      cases List.mem_singleton.mp mem
      rcases bounded with ⟨_, _, same'⟩ | ⟨_, same'⟩ <;> cases same.symm.trans same'
    · rw [trees, List.flatMap_singleton]
  have nothing (idle : s.Idle target f.seen t) (stuck : s.follow t = []) :
      Learned s target f [t] (.inr f) s := by
    refine .inl ⟨fun u mem => List.mem_singleton.mp mem ▸ idle, ?_, rfl⟩
    rw [List.flatMap_singleton, stuck, List.append_nil]
  have unused (shape : TypeShape) (same : s.shape t = shape) (other : ∀ o e args, shape ≠ .declared o e args) :
      s.Idle target f.seen t := fun o e args same' => absurd (same.symm.trans same') (other o e args)
  refine .get ?_
  cases same : s.shape t with
  | declared o e args =>
    have busy (learns : ¬ (e ≠ target ∧ e ∈ f.seen)) : ¬ ∀ u ∈ [t], s.Idle target f.seen u :=
      fun idle => learns (idle t (by simp) o e args same)
    dsimp only
    split
    · rename_i here
      exact .pure trivial (.inr ⟨busy fun idle => idle.1 here, by simp⟩)
    · rename_i other
      split
      · rename_i before
        refine .pure trivial (nothing ?_ (by rw [follow, same]))
        rintro _ _ _ same'
        cases same.symm.trans same'
        exact ⟨other, before⟩
      · rename_i new
        refine ⟨trivial, .inr ⟨busy fun idle => new idle.2, ?_⟩⟩
        rintro _ ⟨⟩
        exact Nat.lt_succ_self _
  | typeVariable e upper => exact followed (.inl ⟨e, upper, same⟩)
  | intersection bounds => exact followed (.inr ⟨bounds, same⟩)
  | _ => exact .pure trivial (nothing (unused _ same (by simp)) (by rw [follow, same]))

theorem visitAll_learned (target : ElementId) (f : Frontier) (ts : List TypeId) (s : Store) :
    Ensures Anyhow s (visitAll target f ts) (Learned s target f ts) := by
  induction ts generalizing s f with
  | nil => exact .pure trivial (.inl ⟨nofun, by simp, rfl⟩)
  | cons t ts ih =>
    refine (visit_learned target f t s).bind fun r s₁ _ first => ?_
    cases r with
    | inl found =>
      rcases first with ⟨_, same, _⟩ | ⟨busy, _⟩
      · cases same
      · exact .pure trivial (.inr ⟨fun idle => busy fun u mem => idle u (by simp_all), nofun⟩)
    | inr f₁ =>
      refine (ih f₁ s₁).imp fun r s₂ _ rest => ?_
      rcases first with ⟨idle, same, rfl⟩ | ⟨busy, longer⟩
      · cases same
        rcases rest with ⟨idle', rfl, rfl⟩ | ⟨busy', longer'⟩
        · refine .inl ⟨List.forall_mem_cons.mpr ⟨idle t (by simp), idle'⟩, ?_, rfl⟩
          simp
        · exact .inr ⟨fun idle => busy' fun u mem => idle u (by simp [mem]), longer'⟩
      · refine .inr ⟨fun idle => busy fun u mem => idle u (by simp_all), fun f' same => ?_⟩
        have grown := longer f₁ rfl
        rcases rest with ⟨_, same', _⟩ | ⟨_, longer'⟩
        · cases same'.symm.trans same
          exact grown
        · exact Nat.lt_trans grown (longer' f' same)

theorem run_step {α β : Type} {m : StoreM α} {k : α → Searching β} {a : α} (result : m s = (a, s₁)) :
    (liftM m >>= k : Searching β).run s = (k a).run s₁ := by
  change (k (m s).1).run (m s).2 = _
  rw [result]

theorem searchStep_end (ends : f.next = []) : (searchStep target again f).run s = (some none, s) := by
  unfold searchStep
  rw [if_pos (by rw [ends]; rfl)]
  rfl

theorem searchStep_found (more : f.next ≠ [])
    (visits : visitAll target { f with next := [] } f.next s = (.inl t, s₁)) :
    (searchStep target again f).run s = (some (some t), s₁) := by
  unfold searchStep
  rw [if_neg (by simpa using more)]
  exact run_step visits

theorem searchStep_on {f₁ : Frontier} (more : f.next ≠ [])
    (visits : visitAll target { f with next := [] } f.next s = (.inr f₁, s₁)) :
    (searchStep target again f).run s = (again f₁).run s₁ := by
  unfold searchStep
  rw [if_neg (by simpa using more)]
  exact run_step visits

theorem visitAll_idle (idle : ∀ t ∈ f.next, s.Idle target f.seen t) :
    visitAll target { f with next := [] } f.next s = (.inr ⟨f.seen, f.next.flatMap s.follow⟩, s) := by
  obtain ⟨_, same, unmoved⟩ | ⟨busy, _⟩ := (visitAll_learned target { f with next := [] } f.next s).2
  · exact Prod.ext same unmoved
  · exact absurd idle busy

theorem searching_circles (circles : s.Circles target f.seen f.next) (levels : Nat) :
    (searching target levels f).run s = (none, s) := by
  induction levels generalizing f with
  | zero => rfl
  | succ levels ih =>
    obtain ⟨more, idle⟩ := circles 0
    rw [searching_succ, searchStep_on more (visitAll_idle idle)]
    exact ih fun n => circles (n + 1)

theorem idleN_outcome (renew : Frontier → Searching (Option TypeId)) (h : s.Sound) (known : f.Known s) (idle : Nat) :
    (∃ j, ∀ n, (searching target (n + j) f).run s = (idleN target renew idle f).run s) ∨
    ((idleN target renew idle f).run s = (none, s) ∧
      ∀ k < idle, s.level k f.next ≠ [] ∧ ∀ t ∈ s.level k f.next, s.Idle target f.seen t) ∨
    ∃ j f₁ s₁, s.Advances s₁ ∧ f₁.Known s₁ ∧ f.seen.length < f₁.seen.length ∧
      (∀ n, (searching target (n + j) f).run s = (searching target n f₁).run s₁) ∧
      (idleN target renew idle f).run s = (renew f₁).run s₁ := by
  induction idle generalizing f with
  | zero => exact .inr (.inl ⟨rfl, nofun⟩)
  | succ idle ih =>
    have further (j n : Nat) : searching target (n + (j + 1)) = searchStep target (searching target (n + j)) :=
      searching_succ target (n + j)
    by_cases ends : f.next = []
    · refine .inl ⟨1, fun n => ?_⟩
      rw [further 0 n, searchStep_end ends, idleN, searchStep_end ends]
    have begins : Frontier.Known s { f with next := [] } := ⟨nofun, known.seen, known.once⟩
    obtain ⟨r, s₁, visits⟩ : ∃ r s₁, visitAll target { f with next := [] } f.next s = (r, s₁) := ⟨_, _, rfl⟩
    obtain ⟨move, known₁, _⟩ := (visitAll_ensures h begins known.next).result visits
    have learned := ((visitAll_learned target { f with next := [] } f.next s).result visits).2
    cases r with
    | inl t =>
      refine .inl ⟨1, fun n => ?_⟩
      rw [further 0 n, searchStep_found ends visits, idleN, searchStep_found ends visits]
    | inr f₁ =>
      -- Either the level was idle and one more of them is spent, or something new was seen and the search is renewed.
      rcases learned with ⟨idles, same, unmoved⟩ | ⟨_, longer⟩
      · rw [unmoved] at visits known₁
        cases same
        have on : (idleN target renew (idle + 1) f).run s =
            (idleN target renew idle ⟨f.seen, f.next.flatMap s.follow⟩).run s := by
          rw [idleN, searchStep_on ends visits, if_pos rfl]
          rfl
        rw [on]
        rcases ih known₁ with ⟨j, ended⟩ | ⟨exhausted, levels⟩ | ⟨j, f₂, s₂, move₂, known₂, longer, goes, renewed⟩
        · refine .inl ⟨j + 1, fun n => ?_⟩
          rw [further, searchStep_on ends visits]
          exact ended n
        · refine .inr (.inl ⟨exhausted, fun k less => ?_⟩)
          cases k with
          | zero => exact ⟨ends, idles⟩
          | succ k => exact levels k (Nat.lt_of_succ_lt_succ less)
        · refine .inr (.inr ⟨j + 1, f₂, s₂, move₂, known₂, longer, fun n => ?_, renewed⟩)
          rw [further, searchStep_on ends visits]
          exact goes n
      · have longer := longer f₁ rfl
        refine .inr (.inr ⟨1, f₁, s₁, move, known₁, longer, fun n => ?_, ?_⟩)
        · rw [further 0 n, searchStep_on ends visits]
          rfl
        · rw [idleN, searchStep_on ends visits, if_neg (Nat.ne_of_gt longer)]

theorem Frontier.Known.few (known : f.Known s) (h : s.Consistent) : f.seen.length ≤ s.typeElements.length := by
  have indexed (e : ElementId) (mem : e ∈ f.seen) : e ∈ s.typeElements.elements := by
    obtain ⟨k, kind, type⟩ := known.seen e mem
    obtain ⟨slot, found, rfl⟩ := kind?_eq_some_iff.mp kind
    have named := (h.typeElements slot.qualifiedName e).mpr ⟨slot, found, type, rfl⟩
    obtain ⟨entry, there, rfl⟩ := Option.map_eq_some_iff.mp named
    exact List.mem_map_of_mem (List.mem_of_find?_eq_some there)
  have bound := known.once.length_le_of_subset indexed
  rwa [NameIndex.elements, List.length_map] at bound

theorem searchN_outcome (h : s.Sound) (known : f.Known s) {fuel : Nat}
    (enough : s.typeElements.length < fuel + f.seen.length) :
    ∃ j, ∀ n, (searching target (n + j) f).run s = (searchN target fuel f).run s := by
  induction fuel generalizing s f with
  | zero =>
    have few := known.few h.toConsistent
    omega
  | succ fuel ih =>
    have window : (searchN target (fuel + 1) f).run s =
        (idleN target (searchN target fuel) (s.types.size + 1) f).run s := rfl
    rw [window]
    rcases idleN_outcome (searchN target fuel) h known (s.types.size + 1) with
      ended | ⟨exhausted, levels⟩ | ⟨j, f₁, s₁, move, known₁, longer, goes, renewed⟩
    · exact ended
    · have circles : s.Circles target f.seen f.next :=
        h.circles known.next fun k le => levels k (Nat.lt_succ_of_le le)
      refine ⟨0, fun n => ?_⟩
      rw [exhausted]
      exact searching_circles circles n
    · have fewer : s₁.typeElements.length < fuel + f₁.seen.length := by
        rw [move.moves.typeElements]
        omega
      obtain ⟨j', ended⟩ := ih move.sound known₁ fewer
      refine ⟨j' + j, fun n => ?_⟩
      rw [← Nat.add_assoc, goes, ended, renewed]

theorem Frontier.known_from (known : s.HasType t) : Frontier.Known s ⟨[], [t]⟩ where
  next _ mem := List.mem_singleton.mp mem ▸ known
  seen _ := nofun
  once := List.nodup_nil

/-- The search for a supertype does what every search does that is long enough, so it is given up only if it would
never end. -/
theorem asSuper?_outcome (h : s.Sound) (known : s.HasType t) (target : ElementId) :
    ∃ j, ∀ n, (searching target (n + j) ⟨[], [t]⟩).run s = (asSuper? t target).run s :=
  searchN_outcome h (Frontier.known_from known) (Nat.lt_succ_self _)

theorem asSuper?_ensures (h : s.Sound) (known : s.HasType t) (target : ElementId) :
    Ensures Advances s (asSuper? t target).run fun r s' =>
      (∀ u? ∈ r, ∀ u ∈ u?, s'.HasType u) ∧ s'.super? (s.tree t) target = r.map (·.map s'.tree) := by
  obtain ⟨j, outcome⟩ := asSuper?_outcome h known target
  have finds (n : Nat) : Ensures Advances s (asSuper? t target).run fun r s' =>
      (∀ u? ∈ r, ∀ u ∈ u?, s'.HasType u) ∧ s'.search? target (n + j) ⟨[], [s.tree t]⟩ = r.map (·.map s'.tree) := by
    have found := @searching_ensures s target (n + j) h _ (Frontier.known_from known)
    unfold Ensures at found ⊢
    rwa [outcome n] at found
  refine ⟨(finds 0).1, (finds 0).2.1, ?_⟩
  cases answer : ((asSuper? t target).run s).1 with
  | some u? =>
    have found := (finds 0).2.2
    rw [answer] at found
    exact super?_eq_some_iff.mpr ⟨_, found⟩
  | none =>
    refine super?_eq_none_iff.mpr fun levels => Option.eq_none_iff_forall_ne_some.mpr fun u? found => ?_
    have endless := (finds levels).2.2
    rw [answer, search?_more (Nat.le_add_right levels j) found] at endless
    cases endless

theorem asSuper_ensures (h : s.Sound) (known : s.HasType t) (target : ElementId) :
    Ensures Advances s (asSuper t target) fun u? s' => ∀ u ∈ u?, s'.HasType u := by
  refine (asSuper?_ensures h known target).bind fun r s₁ move ⟨there, _⟩ => .pure move.sound.stays ?_
  cases r with
  | none => exact nofun
  | some u? => exact there u? rfl

end StoreM

end Nominal
