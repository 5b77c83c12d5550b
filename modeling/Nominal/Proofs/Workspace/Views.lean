import Nominal.Proofs.Recipe.Describable
import Nominal.Proofs.Types.Hashing
/-!
Views that are in use. Whatever is asked of the stores while views are made and read, each view stays a view of something
in its store, and what it has seen was there when it was looked at. A cell belongs to one view only, so reading a view
leaves all others as they were.
-/

namespace Nominal

open Store StoreM

section leading

variable {w : Workspace} {d d' : Domain} {α : Type} {m : StoreM α}

theorem WorkM.within_elsewhere (other : d'.store ≠ d.store) : (within d m w).2.storeOf d' = w.storeOf d' := by
  change ((w.stores.setIfInBounds d.store .empty).setIfInBounds d.store _).getD d'.store .empty = _
  simp [Array.getElem?_setIfInBounds_ne other.symm, Workspace.storeOf]

theorem WorkM.within_leads (leads : (w.storeOf d).LeadsTo (m (w.storeOf d)).2) (d' : Domain) :
    (w.storeOf d').LeadsTo ((within d m w).2.storeOf d') := by
  by_cases same : d'.store = d.store
  · rw [Workspace.storeOf_congr same, Workspace.storeOf_congr same]
    by_cases inside : d.store < w.stores.size
    · rwa [within_store inside]
    · rw [within_nowhere inside]
      exact .rest
  · rw [within_elsewhere same]
    exact .rest

theorem Store.leadsTo_complete {s : Store} {e : ElementId} (there : s.HasElement e) : s.LeadsTo (complete e s).2 :=
  .ask (.complete e) .rest ⟨by simpa [Request.elements] using there, nofun⟩

theorem Store.leadsTo_inspect {s : Store} {t : TypeId} (there : s.HasType t) : s.LeadsTo (inspect t s).2 :=
  .ask (.inspect t) .rest ⟨nofun, by simpa [Request.types] using there⟩

theorem Store.inspect_empty {t : TypeId} (there : empty.HasType t) : (inspect t empty).2 = empty := by
  obtain ⟨i⟩ := t
  have bound : i < 13 := there
  interval_cases i <;> rfl

theorem WorkM.within_inspect {t : TypeId} (there : (w.storeOf d).HasType t) :
    (within d (inspect t) w).2.storeOf d = (inspect t (w.storeOf d)).2 := by
  by_cases inside : d.store < w.stores.size
  · exact within_store inside
  · have nothing : w.storeOf d = .empty := by simp [Workspace.storeOf, inside]
    rw [within_nowhere inside]
    rw [nothing] at there ⊢
    exact (inspect_empty there).symm

end leading

section kept

variable {w w' : Workspace}

theorem ElementView.Genuine.later {v : ElementView} (genuine : v.Genuine w)
    (leads : (w.storeOf v.domain).LeadsTo (w'.storeOf v.domain))
    (same : (w'.elementMemos[v.cell]?).join = (w.elementMemos[v.cell]?).join) : v.Genuine w' where
  reachable := genuine.reachable.trans leads
  there := (leads.grown genuine.reachable.sound).grows.has_element genuine.there
  seen r now := by
    obtain ⟨s, s₁, reachable, there, completes, onward⟩ := genuine.seen r (same.symm.trans now)
    exact ⟨s, s₁, reachable, there, completes, onward.trans leads⟩

theorem TypeView.Genuine.later {v : TypeView} (genuine : v.Genuine w)
    (leads : (w.storeOf v.domain).LeadsTo (w'.storeOf v.domain))
    (same : w'.typeMemos.getD v.cell {} = w.typeMemos.getD v.cell {}) : v.Genuine w' where
  reachable := genuine.reachable.trans leads
  there := (leads.grown genuine.reachable.sound).grows.has_type genuine.there
  seen shape now := by
    obtain ⟨s, s₁, reachable, there, inspects, onward⟩ := genuine.seen shape ((congrArg TypeMemo.shape same).symm.trans now)
    exact ⟨s, s₁, reachable, there, inspects, onward.trans leads⟩

theorem TypeView.Genuine.faithful {v : TypeView} (genuine : v.Genuine w) : v.Faithful w :=
  fun _ seen => genuine.shows seen

end kept

namespace Workspace

structure Backs (w : Workspace) (es : List ElementView) (ts : List TypeView) : Prop where
  reachable : ∀ d, (w.storeOf d).Reachable
  elementCells : es.map (·.cell) = List.range w.elementMemos.size
  typeCells : ts.map (·.cell) = List.range w.typeMemos.size
  elements : ∀ v ∈ es, v.Genuine w
  types : ∀ v ∈ ts, v.Genuine w

namespace Backs

variable {w w' : Workspace} {es : List ElementView} {ts : List TypeView}

theorem start {stores : Array Store} (reachable : ∀ s ∈ stores, s.Reachable) : Backs { stores } [] [] where
  reachable d := by
    rw [storeOf, Array.getD_eq_getD_getElem?]
    cases found : stores[d.store]? with
    | none => exact .rest
    | some s => exact reachable s (Array.mem_of_getElem? found)
  elementCells := rfl
  typeCells := rfl
  elements := nofun
  types := nofun

theorem element_unique (backs : w.Backs es ts) {u v : ElementView} (mem : u ∈ es) (mem' : v ∈ es)
    (same : u.cell = v.cell) : u = v :=
  List.inj_on_of_nodup_map (backs.elementCells ▸ List.nodup_range) mem mem' same

theorem type_unique (backs : w.Backs es ts) {u v : TypeView} (mem : u ∈ ts) (mem' : v ∈ ts)
    (same : u.cell = v.cell) : u = v :=
  List.inj_on_of_nodup_map (backs.typeCells ▸ List.nodup_range) mem mem' same

theorem element_cell (backs : w.Backs es ts) {v : ElementView} (mem : v ∈ es) : v.cell < w.elementMemos.size :=
  List.mem_range.mp (backs.elementCells ▸ List.mem_map_of_mem mem)

theorem type_cell (backs : w.Backs es ts) {v : TypeView} (mem : v ∈ ts) : v.cell < w.typeMemos.size :=
  List.mem_range.mp (backs.typeCells ▸ List.mem_map_of_mem mem)

theorem move (backs : w.Backs es ts) (leads : ∀ d, (w.storeOf d).LeadsTo (w'.storeOf d))
    (elementMemos : w'.elementMemos = w.elementMemos) (typeMemos : w'.typeMemos = w.typeMemos) : w'.Backs es ts where
  reachable d := (backs.reachable d).trans (leads d)
  elementCells := elementMemos ▸ backs.elementCells
  typeCells := typeMemos ▸ backs.typeCells
  elements v mem := (backs.elements v mem).later (leads _) (by rw [elementMemos])
  types v mem := (backs.types v mem).later (leads _) (by rw [typeMemos])

theorem newElement (backs : w.Backs es ts) {d : Domain} {e : ElementId} (there : (w.storeOf d).HasElement e) :
    Backs ((ElementView.new d e).run w).2 (es ++ [((ElementView.new d e).run w).1]) ts where
  reachable := backs.reachable
  elementCells := by
    rw [List.map_append, backs.elementCells]
    change List.range w.elementMemos.size ++ [w.elementMemos.size] = List.range (w.elementMemos.push none).size
    rw [Array.size_push, List.range_succ]
  typeCells := backs.typeCells
  elements v mem := by
    rcases List.mem_append.mp mem with old | new
    · refine (backs.elements v old).later .rest ?_
      change ((w.elementMemos.push none)[v.cell]?).join = _
      rw [Array.getElem?_push_lt (backs.element_cell old), Array.getElem?_eq_getElem (backs.element_cell old)]
    · cases List.mem_singleton.mp new
      refine ⟨backs.reachable d, there, fun r seen => ?_⟩
      change ((w.elementMemos.push none)[w.elementMemos.size]?).join = some r at seen
      rw [Array.getElem?_push_size] at seen
      cases seen
  types v mem := (backs.types v mem).later .rest rfl

theorem newType (backs : w.Backs es ts) {d : Domain} {t : TypeId} (there : (w.storeOf d).HasType t) :
    Backs ((TypeView.new d t).run w).2 es (ts ++ [((TypeView.new d t).run w).1]) where
  reachable := backs.reachable
  elementCells := backs.elementCells
  typeCells := by
    rw [List.map_append, backs.typeCells]
    change List.range w.typeMemos.size ++ [w.typeMemos.size] = List.range (w.typeMemos.push {}).size
    rw [Array.size_push, List.range_succ]
  elements v mem := (backs.elements v mem).later .rest rfl
  types v mem := by
    rcases List.mem_append.mp mem with old | new
    · refine (backs.types v old).later .rest ?_
      change (w.typeMemos.push {}).getD v.cell {} = _
      rw [Array.getD_eq_getD_getElem?, Array.getElem?_push_lt (backs.type_cell old), Array.getD_eq_getD_getElem?,
        Array.getElem?_eq_getElem (backs.type_cell old)]
    · cases List.mem_singleton.mp new
      refine ⟨backs.reachable d, there, fun shape seen => ?_⟩
      change ((w.typeMemos.push {}).getD w.typeMemos.size {}).shape = some shape at seen
      rw [Array.getD_eq_getD_getElem?, Array.getElem?_push_size] at seen
      cases seen

theorem record (backs : w.Backs es ts) {u : ElementView} (mem : u ∈ es) : Backs (u.record.run w).2 es ts := by
  cases seen : (w.elementMemos[u.cell]?).join with
  | some r =>
    rw [ElementView.record_seen seen]
    exact backs
  | none =>
    rw [ElementView.record_unseen seen]
    have there := (backs.elements u mem).there
    have leads := WorkM.within_leads (leadsTo_complete there)
    have moved : Backs (WorkM.within u.domain (complete u.id) w).2 es ts := backs.move leads rfl rfl
    refine ⟨moved.reachable, ?_, moved.typeCells, fun v mem' => ?_, fun v mem' => (moved.types v mem').later .rest rfl⟩
    · rw [Array.size_setIfInBounds]
      exact backs.elementCells
    · by_cases same : v.cell = u.cell
      · cases backs.element_unique mem' mem same
        refine ⟨moved.reachable _, (moved.elements u mem).there, fun r now => ?_⟩
        change ((w.elementMemos.setIfInBounds u.cell _)[u.cell]?).join = some r at now
        rw [Array.getElem?_setIfInBounds_self_of_lt (backs.element_cell mem)] at now
        cases now
        refine ⟨_, _, backs.reachable u.domain, there, rfl, ?_⟩
        change Store.LeadsTo _ ((WorkM.within u.domain (complete u.id) w).2.storeOf u.domain)
        rw [WorkM.within_store (inside_of_element there)]
        exact .rest
      · refine (moved.elements v mem').later .rest ?_
        rw [Array.getElem?_setIfInBounds_ne (Ne.symm same)]
        rfl

theorem shape (backs : w.Backs es ts) {u : TypeView} (mem : u ∈ ts) : Backs (u.shape.run w).2 es ts := by
  cases seen : (w.typeMemos.getD u.cell {}).shape with
  | some shape =>
    rw [TypeView.shape_seen seen]
    exact backs
  | none =>
    rw [TypeView.shape_unseen seen]
    have there := (backs.types u mem).there
    have leads := WorkM.within_leads (leadsTo_inspect there)
    have moved : Backs (WorkM.within u.domain (inspect u.id) w).2 es ts := backs.move leads rfl rfl
    refine ⟨moved.reachable, moved.elementCells, ?_, fun v mem' => (moved.elements v mem').later .rest rfl,
      fun v mem' => ?_⟩
    · rw [Array.size_modify]
      exact backs.typeCells
    · by_cases same : v.cell = u.cell
      · cases backs.type_unique mem' mem same
        refine ⟨moved.reachable _, (moved.types u mem).there, fun shape now => ?_⟩
        change ((w.typeMemos.modify u.cell _).getD u.cell {}).shape = some shape at now
        rw [Array.getD_eq_getD_getElem?, Array.getElem?_modify, if_pos rfl,
          Array.getElem?_eq_getElem (backs.type_cell mem)] at now
        cases now
        refine ⟨_, _, backs.reachable u.domain, there, rfl, ?_⟩
        change Store.LeadsTo _ ((WorkM.within u.domain (inspect u.id) w).2.storeOf u.domain)
        rw [WorkM.within_inspect there]
        exact .rest
      · refine (moved.types v mem').later .rest ?_
        change (w.typeMemos.modify u.cell _).getD v.cell {} = w.typeMemos.getD v.cell {}
        rw [Array.getD_eq_getD_getElem?, Array.getElem?_modify, if_neg (Ne.symm same), Array.getD_eq_getD_getElem?]

end Backs

inductive InUse : Workspace → List ElementView → List TypeView → Prop
  | start {stores : Array Store} : (∀ s ∈ stores, s.Reachable) → InUse { stores } [] []
  | newElement {w es ts} (d : Domain) (e : ElementId) :
    InUse w es ts → (w.storeOf d).HasElement e →
      InUse ((ElementView.new d e).run w).2 (es ++ [((ElementView.new d e).run w).1]) ts
  | newType {w es ts} (d : Domain) (t : TypeId) :
    InUse w es ts → (w.storeOf d).HasType t →
      InUse ((TypeView.new d t).run w).2 es (ts ++ [((TypeView.new d t).run w).1])
  | record {w es ts} {v : ElementView} :
    InUse w es ts → v ∈ es → InUse (v.record.run w).2 es ts
  | shape {w es ts} {v : TypeView} :
    InUse w es ts → v ∈ ts → InUse (v.shape.run w).2 es ts
  | ask {w es ts} (d : Domain) (r : Request) :
    InUse w es ts → r.InRange (w.storeOf d) → InUse (WorkM.within d r.run w).2 es ts

variable {w : Workspace} {es : List ElementView} {ts : List TypeView}

theorem InUse.backs (used : InUse w es ts) : w.Backs es ts := by
  induction used with
  | start reachable => exact .start reachable
  | newElement _ _ _ there ih => exact ih.newElement there
  | newType _ _ _ there ih => exact ih.newType there
  | record _ mem ih => exact ih.record mem
  | shape _ mem ih => exact ih.shape mem
  | ask _ r _ inRange ih => exact ih.move (WorkM.within_leads (.ask r .rest inRange)) rfl rfl

/-- Every view in use is genuine, however often it and others were read, and a view of a type is faithful. -/
theorem views_in_use (used : InUse w es ts) :
    (∀ v ∈ es, v.Genuine w) ∧ ∀ v ∈ ts, v.Genuine w ∧ v.Faithful w :=
  ⟨used.backs.elements, fun v mem => ⟨used.backs.types v mem, (used.backs.types v mem).faithful⟩⟩

end Workspace

end Nominal
