import Nominal.Proofs.Types.Keeping
import Nominal.Recipe.Describe
import Nominal.Recipe.Rebuild
/-!
Describing and rebuilding takes nothing back, whether or not it succeeds.
-/

namespace Nominal

open Store

variable {R : Store → Store → Prop} [Asking R]

namespace Describing

mutual

theorem keeping_recordN (domain : Recipe) : (fuel : Nat) → (r : ElementRecord) → Keeping R (recordN domain fuel r)
  | 0, _ => keeping_failure
  | fuel + 1, r => by
    have element (e? : Option ElementId) : Keeping R (do
        let e ← OptionT.mk (pure e?)
        recordN domain fuel (← StoreM.complete e) : Describing Recipe) :=
      Keeper.bind (keeping_given e?) fun e => Keeper.bind (keeping_partial_lift (StoreM.keeping_complete e))
        (keeping_recordN domain fuel)
    have parameter (p : ElementId) : Keeping R (do
        let erased ← StoreM.erase (← StoreM.complete p).asType
        shapeN domain fuel (← StoreM.inspect erased) : Describing Recipe) :=
      Keeper.bind (keeping_partial_lift (StoreM.keeping_complete p)) fun r =>
        Keeper.bind (keeping_partial_lift (StoreM.keeping_erase _)) fun t =>
          Keeper.bind (keeping_partial_lift (StoreM.keeping_inspect t)) (keeping_shapeN domain fuel)
    simp only [recordN]
    split
    case h_8 | h_9 =>
      exact Keeper.bind (element _) fun _ => Keeper.bind (keeping_mapM parameter) fun _ => Keeper.pure _
    all_goals grind

theorem keeping_shapeN (domain : Recipe) : (fuel : Nat) → (s : TypeShape) → Keeping R (shapeN domain fuel s)
  | 0, _ => keeping_failure
  | fuel + 1, s => by
    have type (t : TypeId) : Keeping R (do shapeN domain fuel (← StoreM.inspect t) : Describing Recipe) :=
      Keeper.bind (keeping_partial_lift (StoreM.keeping_inspect t)) (keeping_shapeN domain fuel)
    have element {α : Type} (e : ElementId) {f : Recipe → Describing α} (next : ∀ r, Keeping R (f r)) : Keeping R (do
        let r ← StoreM.complete e
        let described ← recordN domain fuel r
        f described : Describing α) :=
      Keeper.bind (keeping_partial_lift (StoreM.keeping_complete e)) fun r => Keeper.bind (keeping_recordN domain fuel r) next
    have optional (t? : Option TypeId) : Keeping R (match t? with
        | some t => do shapeN domain fuel (← StoreM.inspect t)
        | none => return .null : Describing Recipe) := by
      cases t? with
      | none => exact Keeper.pure _
      | some t => exact type t
    simp only [shapeN]
    split
    case h_5 => exact Keeper.bind (type _) fun _ => Keeper.pure _
    case h_6 =>
      exact Keeper.bind (optional _) fun _ => element _ fun _ =>
        Keeper.bind (keeping_mapM type) fun _ => Keeper.pure _
    case h_7 => exact element _ fun _ => Keeper.pure _
    case h_8 => exact Keeper.bind (optional _) fun _ => Keeper.bind (optional _) fun _ => Keeper.pure _
    all_goals grind

end

theorem keeping_element (domain : Recipe) (e : ElementId) : Keeping R (element domain e) :=
  Keeper.bind (keeping_partial_lift (StoreM.keeping_complete e)) fun r =>
    Keeper.bind keeping_get fun s => keeping_recordN domain (depth s) r

theorem keeping_type (domain : Recipe) (t : TypeId) : Keeping R (type domain t) :=
  Keeper.bind (keeping_partial_lift (StoreM.keeping_inspect t)) fun shape =>
    Keeper.bind keeping_get fun s => keeping_shapeN domain (depth s) shape

end Describing

namespace Rebuilding

section closure

variable {α : Type}

@[grind ←]
theorem keeping_get : Keeping R (get : Rebuilding Store) := fun s => Calm.refl s

@[grind ←]
theorem keeping_partial_lift {x : StoreM α} (h : Keeping R x) : Keeping R (liftM x : Rebuilding α) :=
  (keeping_map h : Keeping R (Except.ok <$> x))

@[grind ←]
theorem keeping_ofChecked {x : Checked α} (h : Keeping R x) : Keeping R (ofChecked x) :=
  fun s => h s

@[grind ←]
theorem keeping_partial_liftExcept (c : Except Fault α) : Keeping R (liftExcept c : Checked α) := by
  cases c with
  | error e => exact keeping_throw e
  | ok a => exact Keeper.pure a

@[grind ←]
theorem keeping_found (role name : String) (e? : Option ElementId) : Keeping R (found role name e?) := by
  cases e? <;> grind [found]

@[grind ←]
theorem keeping_typeOf (context : String) (v : Value) : Keeping R (typeOf context v) := by
  cases v <;> grind [typeOf]

end closure

section arguments

variable {a : Argument} (keeps : Keeping R a.value)

include keeps

@[grind ←]
theorem keeping_name : Keeping R (name a) := by
  grind [name]

@[grind ←]
theorem keeping_typeKind : Keeping R (typeKind a) := by
  grind [typeKind]

@[grind ←]
theorem keeping_elementKind (context : String) : Keeping R (elementKind context a) := by
  grind [elementKind]

@[grind ←]
theorem keeping_element (context : String) : Keeping R (element context a) := by
  grind [element]

@[grind ←]
theorem keeping_type (context : String) : Keeping R (type context a) := by
  grind [type]

@[grind ←]
theorem keeping_type? (context : String) : Keeping R (type? context a) := by
  grind [type?]

@[grind ←]
theorem keeping_types (context itemContext : String) : Keeping R (types context itemContext a) := by
  grind [types]

theorem keeping_entry : Keeping R (entry a) := by
  have entryOf (v : Value) : Keeping R (entryOf v) := by cases v <;> grind [entryOf]
  grind [entry]

end arguments

section annotations

mutual

theorem keeping_annotationValue (member : String) : (v : Value) → Keeping R (annotationValue member v)
  | .bool _ | .int _ | .str _ | .type _ => Keeper.pure _
  | .element e => by
    refine Keeper.bind (keeping_partial_lift (StoreM.keeping_complete e)) fun r => ?_
    grind
  | .list items => keeping_map (keeping_annotationValues member items)
  | .null | .entry .. | .map _ | .name _ | .elementKind _ | .typeKind _ | .annotationUse _ | .domain _ =>
    keeping_throw _

theorem keeping_annotationValues (member : String) : (vs : List Value) → Keeping R (annotationValues member vs)
  | [] => Keeper.pure []
  | v :: rest =>
    Keeper.bind (keeping_annotationValue member v) fun _ =>
      Keeper.bind (keeping_annotationValues member rest) fun _ => Keeper.pure _

end

theorem keeping_annotationMember (e : Value × Value) : Keeping R (annotationMember e) := by
  obtain ⟨k, v⟩ := e
  cases k with
  | str member => exact Keeper.bind (keeping_annotationValue member v) fun _ => Keeper.pure _
  | _ => exact keeping_throw _

@[grind ←]
theorem keeping_annotationUse {type values : Argument} (ofType : Keeping R type.value)
    (ofValues : Keeping R values.value) : Keeping R (annotationUse type values) := by
  refine Keeper.bind (keeping_type ofType _) fun t => Keeper.bind ofValues fun v => ?_
  cases v with
  | map entries => exact Keeper.bind (keeping_mapM keeping_annotationMember) fun _ => Keeper.pure _
  | _ => exact keeping_throw _

end annotations

section recipes

theorem keeping_pairs : (args : List Argument) → (∀ a ∈ args, Keeping R a.value) → Keeping R (pairs args)
  | [], _ | [_], _ => Keeper.pure []
  | k :: v :: rest, keeps =>
    Keeper.bind (keeps k (by simp)) fun _ => Keeper.bind (keeps v (by simp)) fun _ =>
      Keeper.bind (keeping_pairs rest fun a mem => keeps a (by simp [mem])) fun _ => Keeper.pure _

theorem keeping_build (own : Option Recipe) (f : Factory) (args : List Argument)
    (keeps : ∀ a ∈ args, Keeping R a.value) : Keeping R (build own f args) := by
  unfold build
  split
  case h_18 | h_19 => exact keeping_map (keeping_mapM_mem keeps)
  case h_20 => exact keeping_map (keeping_pairs args keeps)
  case h_21 => exact keeping_map (keeping_mapM_mem fun a mem => keeping_entry (keeps a mem))
  all_goals
    try simp only [List.forall_mem_cons] at keeps
    grind

theorem keeping_invoke (own : Option Recipe) (f : Factory) (args : List Argument)
    (keeps : ∀ a ∈ args, Keeping R a.value) : Keeping R (invoke own f args) := by
  have arity : Keeping R (checkArity f args.length) := by grind [checkArity]
  refine Keeper.bind arity fun _ => ?_
  split
  · cases args with
    | nil => exact keeping_throw _
    | cons domain args =>
      have provenance : Keeping R (checkDomain own domain.recipe) := by grind [checkDomain]
      exact Keeper.bind provenance fun _ => keeping_build own f args fun a mem => keeps a (by simp [mem])
  · exact keeping_build own f args keeps

mutual

theorem keeping_rebuild (own : Option Recipe) : (r : Recipe) → Keeping R (rebuild own r)
  | .null | .bool _ | .int _ | .str _ | .elementKind _ | .typeKind _ => Keeper.pure _
  | .invoke f args => keeping_invoke own f (arguments own args) (keeping_arguments own args)

theorem keeping_arguments (own : Option Recipe) : (rs : List Recipe) → ∀ a ∈ arguments own rs, Keeping R a.value
  | [] => nofun
  | r :: rest => List.forall_mem_cons.mpr ⟨keeping_rebuild own r, keeping_arguments own rest⟩

end

end recipes

end Rebuilding

end Nominal
