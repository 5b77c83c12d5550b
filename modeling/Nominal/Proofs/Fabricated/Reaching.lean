import Mathlib.Algebra.BigOperators.Intervals
import Mathlib.Logic.Relation
import Nominal.Fabricated.Reachable
/-!
What a traversal of fabricated elements meets is what can be reached. Elements and annotations are
the nodes, and a value, which is never marked as met, stands for the nodes that it holds. A step of
the traversal moves a node from what is pending to what is met and adds what follows from it, so
that at any time whatever follows from a met node is met or pending. A step also lowers the work
that is left: the weight of the queue and of all nodes that were not met.
-/

namespace Nominal.Fabricated

open Relation (ReflTransGen)

/-- What can be followed only once. -/
inductive Node where
  | element (e : ElementNode)
  | usage (a : AnnotationNode)
  deriving DecidableEq

theorem ElementNode.index_injective : Function.Injective ElementNode.index :=
  fun ⟨_⟩ ⟨_⟩ same => congrArg ElementNode.mk same

theorem AnnotationNode.index_injective : Function.Injective AnnotationNode.index :=
  fun ⟨_⟩ ⟨_⟩ same => congrArg AnnotationNode.mk same

/-- A value holds the element or annotation that it is, and an array holds what its items hold. -/
inductive NodeValue.Holds : NodeValue → Node → Prop where
  | element (e : ElementNode) : Holds (.element e) (.element e)
  | usage (a : AnnotationNode) : Holds (.annotationNode a) (.usage a)
  | array {vs : List NodeValue} {v : NodeValue} {n : Node} (there : v ∈ vs) (holds : Holds v n) :
      Holds (.array vs) n

namespace Graph

variable {g : Graph}

/-- One step: to an attached annotation, to the type of an annotation or to what one of its values
holds. -/
inductive Step (g : Graph) : Node → Node → Prop where
  | attached {e : ElementNode} {a : AnnotationNode} (there : a ∈ g.annotationsOf e) :
      Step g (.element e) (.usage a)
  | type {a : AnnotationNode} {d : AnnotationData} (data : g.annotationData? a = some d) :
      Step g (.usage a) (.element d.type)
  | value {a : AnnotationNode} {v : NodeValue} {n : Node} (there : v ∈ (g.valuesOf a).values)
      (holds : v.Holds n) : Step g (.usage a) n

/-- An element leads to another in any number of steps, none included. -/
def Reaches (g : Graph) (e x : ElementNode) : Prop := ReflTransGen g.Step (.element e) (.element x)

end Graph

def Item.StandsFor : Item → Node → Prop
  | .element e, n => n = .element e
  | .annotationNode a, n => n = .usage a
  | .value v, n => v.Holds n

def Item.LeadsTo (g : Graph) : Item → Node → Prop
  | .element e, n => g.Step (.element e) n
  | .annotationNode a, n => g.Step (.usage a) n
  | .value v, n => v.Holds n

namespace Graph

variable {g : Graph}

theorem following_stands (g : Graph) (item : Item) (n : Node) :
    (∃ i ∈ g.following item, i.StandsFor n) ↔ item.LeadsTo g n := by
  cases item with
  | element e =>
    constructor
    · rintro ⟨i, there, stands⟩
      obtain ⟨a, attached, rfl⟩ := List.mem_map.mp there
      obtain rfl : n = .usage a := stands
      exact .attached attached
    · rintro (there | _ | _)
      exact ⟨_, List.mem_map_of_mem there, rfl⟩
  | annotationNode a =>
    cases data : g.annotationData? a with
    | none =>
      have values : (g.valuesOf a).values = [] := by simp [valuesOf, data, ByName.values]
      constructor
      · simp [following, data]
      · rintro (_ | typed | ⟨there, _⟩)
        · simp [data] at typed
        · simp [values] at there
    | some d =>
      have values : (g.valuesOf a).values = d.values.values := by simp [valuesOf, data]
      constructor
      · rintro ⟨i, there, stands⟩
        simp only [following, data, List.mem_cons, List.mem_map] at there
        obtain rfl | ⟨v, held, rfl⟩ := there
        · obtain rfl : n = .element d.type := stands
          exact .type data
        · exact .value (values ▸ held) stands
      · rintro (_ | typed | ⟨there, holds⟩)
        · obtain rfl := Option.some.inj (data.symm.trans typed)
          exact ⟨.element d.type, by simp [following, data], rfl⟩
        · rw [values] at there
          exact ⟨.value _, by simpa [following, data] using there, holds⟩
  | value v =>
    constructor
    · rintro ⟨i, there, stands⟩
      cases v with
      | element e =>
        obtain rfl := List.mem_singleton.mp there
        obtain rfl : n = .element e := stands
        exact .element e
      | annotationNode a =>
        obtain rfl := List.mem_singleton.mp there
        obtain rfl : n = .usage a := stands
        exact .usage a
      | array vs =>
        obtain ⟨v, held, rfl⟩ := List.mem_map.mp there
        exact .array held stands
      | _ => cases there
    · intro holds
      cases holds with
      | element e => exact ⟨_, List.mem_singleton_self _, rfl⟩
      | usage a => exact ⟨_, List.mem_singleton_self _, rfl⟩
      | array held holds => exact ⟨_, List.mem_map_of_mem held, holds⟩

def advance (g : Graph) (t : Traversal) : Traversal :=
  match t.queue with
  | [] => t
  | item :: rest =>
    if t.isKnown item then { t with queue := rest }
    else { t with queue := rest ++ g.following item }.meet item

theorem advance_ended {t : Traversal} (ended : t.queue = []) : g.advance t = t := by
  simp [advance, ended]

theorem traverse_eq_iterate (g : Graph) (fuel : Nat) (t : Traversal) :
    g.traverse fuel t = g.advance^[fuel] t := by
  induction fuel generalizing t with
  | zero => rfl
  | succ fuel ih =>
    cases queue : t.queue with
    | nil =>
      rw [Function.iterate_fixed (advance_ended queue)]
      simp [traverse, queue]
    | cons item rest =>
      rw [Function.iterate_succ_apply, ← ih]
      simp only [traverse, advance, queue]
      split <;> rfl

namespace Traversal

def Met (t : Traversal) : Node → Prop
  | .element e => e ∈ t.elements
  | .usage a => a ∈ t.annotations

def Foreseen (t : Traversal) (n : Node) : Prop := t.Met n ∨ ∃ item ∈ t.queue, item.StandsFor n

theorem met_of_known {t : Traversal} {item : Item} {n : Node} (known : t.isKnown item = true)
    (stands : item.StandsFor n) : t.Met n := by
  cases item with
  | element e =>
    obtain rfl : n = .element e := stands
    exact List.contains_iff_mem.mp known
  | annotationNode a =>
    obtain rfl : n = .usage a := stands
    exact List.contains_iff_mem.mp known
  | value v => cases known

theorem Met.mono_meet {t : Traversal} {n : Node} (met : t.Met n) (item : Item) :
    (t.meet item).Met n := by
  cases item <;> cases n <;> first | exact met | exact List.mem_append_left _ met

theorem met_meet {t : Traversal} {item : Item} {n : Node} (met : (t.meet item).Met n) :
    t.Met n ∨ item.StandsFor n ∧ ∀ g m, g.Step n m → item.LeadsTo g m := by
  cases item with
  | element e =>
    cases n with
    | element x =>
      obtain old | new := List.mem_append.mp met
      · exact .inl old
      · obtain rfl := List.mem_singleton.mp new
        exact .inr ⟨rfl, fun _ _ step => step⟩
    | usage a => exact .inl met
  | annotationNode a =>
    cases n with
    | element x => exact .inl met
    | usage b =>
      obtain old | new := List.mem_append.mp met
      · exact .inl old
      · obtain rfl := List.mem_singleton.mp new
        exact .inr ⟨rfl, fun _ _ step => step⟩
  | value v => exact .inl met

@[simp] theorem meet_queue (t : Traversal) (item : Item) : (t.meet item).queue = t.queue := by
  cases item <;> rfl

theorem meets_or_leads (t : Traversal) {item : Item} {n : Node} (stands : item.StandsFor n) :
    (t.meet item).Met n ∨ item.LeadsTo g n := by
  cases item with
  | element e =>
    obtain rfl : n = .element e := stands
    exact .inl (List.mem_append_right _ (List.mem_singleton_self e))
  | annotationNode a =>
    obtain rfl : n = .usage a := stands
    exact .inl (List.mem_append_right _ (List.mem_singleton_self a))
  | value v => exact .inr stands

structure Exact (g : Graph) (e : ElementNode) (t : Traversal) : Prop where
  begins : t.elements.head? = some e ∨ t = { queue := [.element e] }
  distinct : t.elements.Nodup
  reached : ∀ n, t.Foreseen n → ReflTransGen g.Step (.element e) n
  closed : ∀ m n, t.Met m → g.Step m n → t.Foreseen n

end Traversal

open Traversal

theorem foreseen_advance_of {t : Traversal} {n : Node} (foreseen : t.Foreseen n) :
    (g.advance t).Foreseen n := by
  unfold advance
  split
  · exact foreseen
  · next item rest queue =>
    obtain met | ⟨i, there, stands⟩ := foreseen
    · split
      · exact .inl met
      · have before : Met { t with queue := rest ++ g.following item } n := met
        exact .inl (before.mono_meet item)
    · rw [queue, List.mem_cons] at there
      split
      · next known =>
        obtain rfl | there := there
        · exact .inl (met_of_known known stands)
        · exact .inr ⟨i, there, stands⟩
      · obtain rfl | there := there
        · obtain met | leads := meets_or_leads _ stands
          · exact .inl met
          · obtain ⟨j, follows, stands⟩ := (g.following_stands i n).mpr leads
            exact .inr ⟨j, by simp [follows], stands⟩
        · exact .inr ⟨i, by simp [there], stands⟩

theorem foreseen_of_advance {t : Traversal} {n : Node} (foreseen : (g.advance t).Foreseen n) :
    t.Foreseen n ∨ ∃ item ∈ t.queue, item.LeadsTo g n := by
  unfold advance at foreseen
  split at foreseen
  · exact .inl foreseen
  · next item rest queue =>
    split at foreseen
    · obtain met | ⟨i, there, stands⟩ := foreseen
      · exact .inl (.inl met)
      · exact .inl (.inr ⟨i, by simp [queue, there], stands⟩)
    · obtain met | ⟨i, there, stands⟩ := foreseen
      · obtain met | ⟨stands, -⟩ := met_meet met
        · exact .inl (.inl met)
        · exact .inl (.inr ⟨item, by simp [queue], stands⟩)
      · rw [meet_queue, List.mem_append] at there
        obtain there | follows := there
        · exact .inl (.inr ⟨i, by simp [queue, there], stands⟩)
        · exact .inr ⟨item, by simp [queue], (g.following_stands item n).mp ⟨i, follows, stands⟩⟩

theorem met_of_advance {t : Traversal} {m : Node} (met : (g.advance t).Met m) :
    t.Met m ∨ ∀ n, g.Step m n → (g.advance t).Foreseen n := by
  unfold advance at met ⊢
  split at met
  · exact .inl met
  · next item rest queue =>
    split at met
    · exact .inl met
    · next unknown =>
      obtain met | ⟨-, leads⟩ := met_meet met
      · exact .inl met
      · refine .inr fun n step => ?_
        obtain ⟨i, follows, stands⟩ := (g.following_stands item n).mpr (leads g n step)
        simp only [unknown]
        exact .inr ⟨i, by simp [follows], stands⟩

theorem reached_of_leads {start n : Node} {item : Item}
    (reached : ∀ m, item.StandsFor m → ReflTransGen g.Step start m) (leads : item.LeadsTo g n) :
    ReflTransGen g.Step start n := by
  cases item with
  | element e => exact (reached _ rfl).tail leads
  | annotationNode a => exact (reached _ rfl).tail leads
  | value v => exact reached n leads

theorem elements_advance (g : Graph) (t : Traversal) :
    (g.advance t).elements = t.elements ∨
      ∃ e, t.queue.head? = some (.element e) ∧ e ∉ t.elements ∧
        (g.advance t).elements = t.elements ++ [e] := by
  unfold advance
  split
  · exact .inl rfl
  · next item rest queue =>
    split
    · exact .inl rfl
    · next unknown =>
      cases item with
      | element e =>
        have fresh : e ∉ t.elements := fun there => unknown (List.contains_iff_mem.mpr there)
        exact .inr ⟨e, by simp [queue], fresh, rfl⟩
      | annotationNode a => exact .inl rfl
      | value v => exact .inl rfl

theorem advance_start (g : Graph) (e : ElementNode) :
    (g.advance { queue := [.element e] }).elements = [e] := rfl

theorem Traversal.Exact.advance {e : ElementNode} {t : Traversal} (inv : t.Exact g e) :
    (g.advance t).Exact g e where
  begins := by
    obtain first | rfl := inv.begins
    · obtain same | ⟨x, -, -, added⟩ := elements_advance g t
      · exact .inl (same ▸ first)
      · exact .inl (by simp [added, first])
    · exact .inl (by rw [advance_start]; rfl)
  distinct := by
    obtain same | ⟨x, -, fresh, added⟩ := elements_advance g t
    · exact same ▸ inv.distinct
    · rw [added, ← List.concat_eq_append]
      exact inv.distinct.concat fresh
  reached n foreseen := by
    obtain before | ⟨item, there, leads⟩ := foreseen_of_advance foreseen
    · exact inv.reached n before
    · exact reached_of_leads (fun m stands => inv.reached m (.inr ⟨item, there, stands⟩)) leads
  closed m n met step := by
    obtain before | ahead := met_of_advance met
    · exact foreseen_advance_of (inv.closed m n before step)
    · exact ahead n step

theorem Traversal.exact_start (g : Graph) (e : ElementNode) :
    Exact g e { queue := [.element e] } where
  begins := .inr rfl
  distinct := .nil
  reached n foreseen := by
    obtain met | ⟨item, there, stands⟩ := foreseen
    · cases n <;> cases met
    · obtain rfl := List.mem_singleton.mp there
      obtain rfl : n = .element e := stands
      exact .refl
  closed m n met step := by cases m <;> cases met

theorem Traversal.exact_traverse (g : Graph) (e : ElementNode) (fuel : Nat) :
    (g.traverse fuel { queue := [.element e] }).Exact g e := by
  rw [traverse_eq_iterate]
  exact Function.Iterate.rec _ (exact_start g e) (fun _ inv => inv.advance) fuel

/-- When nothing is left to be met, the met elements are those that can be reached. -/
theorem Traversal.Exact.mem_iff {e x : ElementNode} {t : Traversal} (inv : t.Exact g e)
    (ended : t.queue = []) : x ∈ t.elements ↔ g.Reaches e x := by
  have met_of_foreseen : ∀ n, t.Foreseen n → t.Met n := by
    rintro n (met | ⟨item, there, -⟩)
    · exact met
    · simp [ended] at there
  constructor
  · exact fun met => inv.reached (.element x) (.inl met)
  · intro reaches
    have all_met : ∀ n, ReflTransGen g.Step (.element e) n → t.Met n := by
      intro n path
      induction path with
      | refl =>
        obtain first | rfl := inv.begins
        · exact List.mem_of_head? first
        · cases ended
      | tail _ step met => exact met_of_foreseen _ (inv.closed _ _ met step)
    exact all_met _ reaches

/-! ### The work that is left -/

def leftOver (w : Nat → Nat) (n : Nat) (taken : List Nat) : Nat :=
  ∑ i ∈ Finset.range n with i ∉ taken, w i

theorem leftOver_append {w : Nat → Nat} {n i : Nat} {taken : List Nat} (fresh : i ∉ taken)
    (outside : n ≤ i → w i = 0) : leftOver w n (taken ++ [i]) + w i = leftOver w n taken := by
  have erased : ({j ∈ Finset.range n | j ∉ taken ++ [i]} : Finset Nat)
      = {j ∈ Finset.range n | j ∉ taken}.erase i := by
    ext j
    simp
    tauto
  rw [leftOver, erased]
  by_cases within : i < n
  · exact Finset.sum_erase_add _ _ (by simp [within, fresh])
  · rw [outside (by omega), Finset.sum_erase _ (outside (by omega))]
    rfl

theorem leftOver_nil {α : Type} (f : α → Nat) (l : List α) :
    leftOver (fun i => (l[i]?.map f).getD 0) l.length [] = l.foldr (fun a n => f a + n) 0 := by
  simp only [leftOver, List.not_mem_nil, not_false_eq_true, Finset.filter_true]
  induction l with
  | nil => rfl
  | cons a rest ih =>
    rw [List.length_cons, Finset.sum_range_succ', List.foldr_cons, ← ih]
    simp [Nat.add_comm]

def weightOf : Item → Nat
  | .element _ | .annotationNode _ => 1
  | .value v => v.weight

def elementWeight (g : Graph) (i : Nat) : Nat := (g.annotationsOf ⟨i⟩).length

def annotationWeight (g : Graph) (i : Nat) : Nat :=
  ((g.annotationData? ⟨i⟩).map fun d => NodeValue.weights d.values.values + 1).getD 0

def remaining (g : Graph) (t : Traversal) : Nat :=
  (t.queue.map weightOf).sum
    + leftOver g.elementWeight g.elements.size (t.elements.map (·.index))
    + leftOver g.annotationWeight g.annotations.size (t.annotations.map (·.index))

theorem weights_eq_sum (vs : List NodeValue) :
    NodeValue.weights vs = (vs.map NodeValue.weight).sum := by
  induction vs with
  | nil => rfl
  | cons v rest ih => rw [NodeValue.weights, ih, List.map_cons, List.sum_cons]

theorem weight_values (vs : List NodeValue) :
    ((vs.map Item.value).map weightOf).sum = NodeValue.weights vs := by
  rw [weights_eq_sum, List.map_map]
  rfl

theorem weight_attached (annotations : List AnnotationNode) :
    ((annotations.map Item.annotationNode).map weightOf).sum = annotations.length := by
  induction annotations with
  | nil => rfl
  | cons a rest ih =>
    simp only [List.map_cons, List.sum_cons, ih, weightOf, List.length_cons]
    omega

theorem weight_following_value (g : Graph) (v : NodeValue) :
    ((g.following (.value v)).map weightOf).sum < v.weight := by
  cases v with
  | array vs =>
    rw [following, weight_values, NodeValue.weight]
    omega
  | _ => simp [following, weightOf, NodeValue.weight]

theorem weight_following_element (g : Graph) (e : ElementNode) :
    ((g.following (.element e)).map weightOf).sum = g.elementWeight e.index :=
  weight_attached _

theorem weight_following_usage (g : Graph) (a : AnnotationNode) :
    ((g.following (.annotationNode a)).map weightOf).sum = g.annotationWeight a.index := by
  cases data : g.annotationData? a with
  | none => simp [following, annotationWeight, data]
  | some d =>
    simp only [following, annotationWeight, data, List.map_cons, List.sum_cons, weight_values,
      weightOf, Option.map_some, Option.getD_some]
    omega

theorem elementWeight_outside {i : Nat} (outside : g.elements.size ≤ i) :
    g.elementWeight i = 0 := by
  simp [elementWeight, annotationsOf, element?, outside]

theorem annotationWeight_outside {i : Nat} (outside : g.annotations.size ≤ i) :
    g.annotationWeight i = 0 := by
  simp [annotationWeight, annotationData?, outside]

theorem remaining_advance {t : Traversal} (ongoing : t.queue ≠ []) :
    g.remaining (g.advance t) < g.remaining t := by
  cases queue : t.queue with
  | nil => exact absurd queue ongoing
  | cons item rest =>
    cases known : t.isKnown item with
    | true =>
      have positive : 0 < weightOf item := by
        cases item with
        | value v => cases known
        | _ => exact Nat.one_pos
      simp only [advance, queue, known, remaining, List.map_cons, List.sum_cons, if_true]
      omega
    | false =>
      simp only [advance, queue, known, remaining, List.map_cons, List.sum_cons, meet_queue,
        List.map_append, List.sum_append, Bool.false_eq_true, if_false]
      cases item with
      | element e =>
        have fresh : e.index ∉ t.elements.map (·.index) := by
          simpa [isKnown, List.mem_map_of_injective ElementNode.index_injective] using known
        have taken := leftOver_append (w := g.elementWeight) fresh elementWeight_outside
        simp only [meet, List.map_append, List.map_cons, List.map_nil, weightOf,
          weight_following_element]
        omega
      | annotationNode a =>
        have fresh : a.index ∉ t.annotations.map (·.index) := by
          simpa [isKnown, List.mem_map_of_injective AnnotationNode.index_injective] using known
        have taken := leftOver_append (w := g.annotationWeight) fresh annotationWeight_outside
        simp only [meet, List.map_append, List.map_cons, List.map_nil, weightOf,
          weight_following_usage]
        omega
      | value v =>
        have lighter := weight_following_value g v
        simp only [meet, weightOf]
        omega

theorem queue_traverse {fuel : Nat} {t : Traversal} (enough : g.remaining t ≤ fuel) :
    (g.traverse fuel t).queue = [] := by
  rw [traverse_eq_iterate]
  induction fuel generalizing t with
  | zero =>
    by_contra ongoing
    have lower := remaining_advance (g := g) ongoing
    simp only [Function.iterate_zero, id_eq] at lower
    omega
  | succ fuel ih =>
    by_cases ended : t.queue = []
    · rw [Function.iterate_fixed (advance_ended ended)]
      exact ended
    · rw [Function.iterate_succ_apply]
      have lower := remaining_advance (g := g) ended
      exact ih (by omega)

theorem remaining_start (g : Graph) (e : ElementNode) :
    g.remaining { queue := [.element e] } < g.weight := by
  have elements : g.elementWeight
      = fun i => (g.elements.toList[i]?.map fun d => d.annotations.length).getD 0 := by
    funext i
    cases data : g.elements[i]? <;> simp [elementWeight, annotationsOf, element?, data]
  have annotations : g.annotationWeight = fun i =>
      (g.annotations.toList[i]?.map fun d => NodeValue.weights d.values.values + 1).getD 0 := by
    funext i
    rw [Array.getElem?_toList]
    rfl
  simp only [remaining, weight, List.map_nil, elements, annotations, ← Array.length_toList,
    leftOver_nil, weightOf, List.map_cons, List.sum_cons, List.sum_nil]
  omega

/-- From any element of any graph, the traversal comes to its end within its bound. It gives the
element first, no element twice, and exactly the elements that can be reached. -/
theorem reachable_exactly (g : Graph) (e : ElementNode) :
    (g.traverse g.weight { queue := [.element e] }).queue = [] ∧
      (g.reachable e).head? = some e ∧ (g.reachable e).Nodup ∧
      ∀ x, x ∈ g.reachable e ↔ g.Reaches e x := by
  have inv := exact_traverse g e g.weight
  have ended : (g.traverse g.weight { queue := [.element e] }).queue = [] :=
    queue_traverse (remaining_start g e).le
  refine ⟨ended, ?_, inv.distinct, fun x => inv.mem_iff ended⟩
  obtain first | start := inv.begins
  · exact first
  · rw [start] at ended
    cases ended

end Graph

end Nominal.Fabricated
