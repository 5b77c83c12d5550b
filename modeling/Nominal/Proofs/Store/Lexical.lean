import Nominal.Proofs.Store.Ensures
import Nominal.Proofs.Store.Orderly
/-!
What type variables stand for where they are written. A name stands for the variable of a type parameter that is
declared around it: by the executable in which it is written, by the type, or by a type around that, as long as what is
inside may see it. Of several type parameters that go by the name the innermost counts, and of one list the last.
-/

namespace Nominal

def inSight? (vs : List (String × TypeId)) (name : String) : Option TypeId := (vs.find? (·.1 == name)).map (·.2)

def StandsFor (vs : List (String × TypeId)) (name : String) (t? : Option TypeId) : Prop := inSight? vs name = t?

def TypeHeader.superinterfaces (h : TypeHeader) : List TypeExpr :=
  (if h.kind.isInterface then h.superclass.toList else []) ++ h.interfaces

namespace Store

section reading

variable (s : Store) (means : String → Option TypeId → Prop)

mutual

def Reads : TypeExpr → TypeId → Prop
  | .primitive k, t =>
    match k.primitive? with
    | some p => t = .primitive p
    | none => s.shape? t = some (.error k.name)
  | .void, t => t = .void
  | .var x, t => means x (some t) ∨ means x none ∧ s.shape? t = some (.error x)
  | .named name args, t =>
    s.shape? t = some (.error name) ∨ ∃ e ts, s.shape? t = some (.declared .none e ts) ∧ ReadsAll args ts
  | .array c, t => ∃ u, s.shape? t = some (.array u) ∧ Reads c u
  | .wildcard upper lower, t => ∃ u l, s.shape? t = some (.wildcard u l) ∧ Reads? upper u ∧ Reads? lower l

def ReadsAll : List TypeExpr → List TypeId → Prop
  | [], ts => ts = []
  | a :: as, ts => ∃ u us, ts = u :: us ∧ Reads a u ∧ ReadsAll as us

def Reads? : Option TypeExpr → Option TypeId → Prop
  | none, t? => t? = none
  | some a, t? => ∃ u, t? = some u ∧ Reads a u

end

def ReadsParameter (p : TypeParameterDecl) (e : ElementId) : Prop :=
  ∃ r, s.record? e = some r ∧ r.kind = .typeParameter ∧ r.simpleName = p.name ∧
    (p.bounds ≠ [] → s.ReadsAll means p.bounds r.bounds)

def IsParameter (e : ElementId) (t : TypeId) : Prop := ∃ r, s.record? e = some r ∧ r.kind = .parameter ∧ r.asType = t

/-- The record and the type of an executable say what is written of it. -/
structure ReadsSignature (k : ElementKind) (d : ExecutableDecl) (r : ElementRecord) (sig : Signature) : Prop where
  kind : r.kind = k
  typeParameters : List.Forall₂ (s.ReadsParameter means) d.typeParameters r.typeParameters
  types : s.ReadsAll means (d.parameters.map (·.2)) sig.parameters
  parameters : List.Forall₂ s.IsParameter r.parameters sig.parameters
  result : k ≠ .constructor → s.Reads means d.returnType sig.result
  returnType : r.returnType = sig.result
  thrown : s.ReadsAll means d.thrown sig.thrown
  thrownTypes : r.thrownTypes = sig.thrown

def ReadsExecutable (owner : ElementId) (k : ElementKind) (d : ExecutableDecl) (e : ElementId) : Prop :=
  ∃ r sig, s.record? e = some r ∧ r.enclosing = some owner ∧ s.shape? r.asType = some (.executable sig) ∧
    s.ReadsSignature means k d r sig

def ReadsVariable (k : ElementKind) (t : TypeExpr) (e : ElementId) : Prop :=
  ∃ r, s.record? e = some r ∧ r.kind = k ∧ s.Reads means t r.asType

end reading

section header

variable (s : Store) (means : ElementId → String → Option TypeId → Prop)

def ReadsMember (owner : ElementId) : MemberDecl → ElementId → Prop
  | .field _ t _, e => s.ReadsVariable (means owner) .field t e
  | .recordComponent _ t, e => s.ReadsVariable (means owner) .recordComponent t e
  | .enumConstant _, _ => True
  | .method d, e => s.ReadsExecutable (means e) owner .method d e
  | .constructor d, e => s.ReadsExecutable (means e) owner .constructor d e

/-- The record of a type says what its header says. -/
structure ReadsHeader (e : ElementId) (h : TypeHeader) (r : ElementRecord) : Prop where
  typeParameters : List.Forall₂ (s.ReadsParameter (means e)) h.typeParameters r.typeParameters
  superclass : ∀ t, h.kind = .classType → h.superclass = some t → s.Reads (means e) t r.superclass
  interfaces : s.ReadsAll (means e) h.superinterfaces r.interfaces
  members : ∃ members others, r.enclosed = members ++ others ∧ List.Forall₂ (s.ReadsMember means e) h.members members

end header

def LendsOne (s : Store) (p : ElementId) (v : String × TypeId) : Prop :=
  s.IsVariable p v.2 ∧ ∃ r, s.record? p = some r ∧ r.kind = .typeParameter ∧ r.simpleName = v.1 ∧ r.asType = v.2

def Lends (s : Store) (ps : List ElementId) (vs : List (String × TypeId)) : Prop := List.Forall₂ s.LendsOne ps vs

def AllStand (s : Store) (vs : List (String × TypeId)) : Prop := ∀ v ∈ vs, ∃ p, s.IsVariable p v.2 ∧ ¬ s.isPending p

def IsGeneric (s : Store) (e : ElementId) : Prop := ∃ k, s.kind? e = some k ∧ k.isParameterizable

def SeesAround (s : Store) (r : ElementRecord) (o : ElementId) : Prop :=
  r.enclosing = some o ∧ s.IsGeneric o ∧ (r.kind.isExecutable ∨ r.kind = .classType ∧ ¬ r.isStatic)

/-- What a name means inside a type or an executable: the variable of the last of its type parameters with this name, or
else what it means around the element if that may be seen, or else nothing. -/
inductive Binds (s : Store) : ElementId → String → Option TypeId → Prop
  | own {e : ElementId} {r : ElementRecord} {vs : List (String × TypeId)} {x : String} {t : TypeId}
      (complete : s.record? e = some r) (generic : r.kind.isParameterizable) (lends : s.Lends r.typeParameters vs)
      (declared : inSight? vs.reverse x = some t) : Binds s e x (some t)
  | around {e o : ElementId} {r : ElementRecord} {vs : List (String × TypeId)} {x : String} {t? : Option TypeId}
      (complete : s.record? e = some r) (generic : r.kind.isParameterizable) (lends : s.Lends r.typeParameters vs)
      (undeclared : inSight? vs.reverse x = none) (sees : s.SeesAround r o) (outer : Binds s o x t?) : Binds s e x t?
  | nowhere {e : ElementId} {r : ElementRecord} {vs : List (String × TypeId)} {x : String}
      (complete : s.record? e = some r) (generic : r.kind.isParameterizable) (lends : s.Lends r.typeParameters vs)
      (undeclared : inSight? vs.reverse x = none) (outermost : ∀ o, ¬ s.SeesAround r o) : Binds s e x none

def Surrounds (s : Store) (outer : List (String × TypeId)) (r : ElementRecord) : Prop :=
  (∃ o, s.SeesAround r o ∧ ∀ x, s.Binds o x (inSight? outer x)) ∨ outer = [] ∧ ∀ o, ¬ s.SeesAround r o

def MeansWithin (s : Store) (owner : ElementId) (vs : List (String × TypeId)) (e : ElementId) (x : String)
    (t? : Option TypeId) : Prop :=
  e = owner ∧ StandsFor vs x t? ∨
    ∃ r ws, s.record? e = some r ∧ r.kind.isExecutable ∧ r.enclosing = some owner ∧ s.Lends r.typeParameters ws ∧
      StandsFor (ws.reverse ++ vs) x t?

def ReadsInside (s : Store) (outer : List (String × TypeId)) (e : ElementId) (h : TypeHeader) (r : ElementRecord) : Prop :=
  ∃ vs, s.Lends r.typeParameters vs ∧ s.ReadsHeader (s.MeansWithin e (vs.reverse ++ outer)) e h r

def KeepsShapes (s s' : Store) : Prop :=
  ∀ t shape, s.shape? t = some shape → shape.kind ≠ .typeVariable → s'.shape? t = some shape

/-- The store has moved from `s` to `s'` in accordance with what was said on entry, and the records of all but modules
and packages stayed. -/
structure Conserves (s s' : Store) : Prop extends Follows s s' where
  records : ∀ e k r, s.kind? e = some k → ¬ k.isContainer → s.record? e = some r → s'.record? e = some r
  shapes : s.KeepsShapes s'
  bound : ∀ e t, s.IsVariable e t → s'.IsVariable e t

end Store

section sight

variable {vs ws : List (String × TypeId)} {x : String}

theorem inSight?_append : inSight? (vs ++ ws) x = (inSight? vs x).or (inSight? ws x) := by
  rw [inSight?, List.find?_append, inSight?, inSight?]
  cases vs.find? (·.1 == x) <;> rfl

theorem mem_of_inSight? {t : TypeId} (found : inSight? vs x = some t) : (x, t) ∈ vs := by
  obtain ⟨v, there, rfl⟩ := Option.map_eq_some_iff.mp found
  have same := List.find?_some there
  rw [← beq_iff_eq.mp same]
  exact List.mem_of_find?_eq_some there

end sight

namespace Store

variable {s s' s'' : Store} {e o owner : ElementId} {r : ElementRecord} {ps : List ElementId} {vs ws outer : List (String × TypeId)}
  {h : TypeHeader} {x : String}

section conserves

theorem Conserves.refl (s : Store) : s.Conserves s := ⟨.refl s, fun _ _ _ _ _ => id, fun _ _ found _ => found, fun _ _ => id⟩

theorem Conserves.trans (first : s.Conserves s') (second : s'.Conserves s'') : s.Conserves s'' where
  toFollows := first.toFollows.trans second.toFollows
  records e k r known plain complete :=
    second.records e k r (first.headings.kind known) plain (first.records e k r known plain complete)
  shapes t shape found other := second.shapes t shape (first.shapes t shape found other) other
  bound e t stands := second.bound e t (first.bound e t stands)

instance : Movement Conserves where
  trans := .trans
  stay _ := .refl _

theorem KeepsBut.conserves {busy : ElementId → Prop} (keeps : s.KeepsBut busy s') (follows : s.Follows s') : s.Conserves s' where
  toFollows := follows
  records _ _ _ known plain complete := keeps.record known plain complete
  shapes t shape found _ := keeps.shapes t shape found
  bound _ t := Exists.imp fun _ found => keeps.shapes t _ found

theorem Orderly.kind_of_record (orderly : s.Orderly) (complete : s.record? e = some r) : s.kind? e = some r.kind := by
  obtain ⟨slot, found, state⟩ := record?_eq_some_iff.mp complete
  exact kind?_eq_some_iff.mpr ⟨slot, found, ((orderly.slots e slot found).described r state).kind.symm⟩

theorem Conserves.record (move : s.Conserves s') (orderly : s.Orderly) (complete : s.record? e = some r)
    (plain : ¬ r.kind.isContainer) : s'.record? e = some r :=
  move.records e r.kind r (orderly.kind_of_record complete) plain complete

theorem IsGeneric.follow (generic : s.IsGeneric e) (follows : s.Follows s') : s'.IsGeneric e := by
  obtain ⟨k, known, place⟩ := generic
  exact ⟨k, follows.headings.kind known, place⟩

end conserves

section reading

variable {means means' : String → Option TypeId → Prop}

mutual

theorem Reads.mono (more : ∀ x b, means x b → means' x b) (kept : s.KeepsShapes s') :
    (a : TypeExpr) → {t : TypeId} → s.Reads means a t → s'.Reads means' a t
  | .primitive k, t, reads => by
    rw [Reads] at reads ⊢
    cases p : k.primitive? with
    | some p => simpa only [p] using reads
    | none =>
      simp only [p] at reads ⊢
      exact kept t _ reads (by simp [TypeShape.kind])
  | .void, t, reads => by rwa [Reads] at reads ⊢
  | .var x, t, reads => by
    rw [Reads] at reads ⊢
    refine reads.imp (more x _) fun ⟨unbound, error⟩ => ⟨more x _ unbound, ?_⟩
    exact kept t _ error (by simp [TypeShape.kind])
  | .named name args, t, reads => by
    rw [Reads] at reads ⊢
    rcases reads with error | ⟨e, ts, found, parts⟩
    · exact .inl (kept t _ error (by simp [TypeShape.kind]))
    · exact .inr ⟨e, ts, kept t _ found (by simp [TypeShape.kind]), ReadsAll.mono more kept args parts⟩
  | .array c, t, reads => by
    rw [Reads] at reads ⊢
    obtain ⟨u, found, part⟩ := reads
    exact ⟨u, kept t _ found (by simp [TypeShape.kind]), Reads.mono more kept c part⟩
  | .wildcard upper lower, t, reads => by
    rw [Reads] at reads ⊢
    obtain ⟨u, l, found, first, second⟩ := reads
    exact ⟨u, l, kept t _ found (by simp [TypeShape.kind]), Reads?.mono more kept upper first, Reads?.mono more kept lower second⟩

theorem ReadsAll.mono (more : ∀ x b, means x b → means' x b) (kept : s.KeepsShapes s') :
    (as : List TypeExpr) → {ts : List TypeId} → s.ReadsAll means as ts → s'.ReadsAll means' as ts
  | [], ts, reads => by rwa [ReadsAll] at reads ⊢
  | a :: as, ts, reads => by
    rw [ReadsAll] at reads ⊢
    obtain ⟨u, us, rfl, first, rest⟩ := reads
    exact ⟨u, us, rfl, Reads.mono more kept a first, ReadsAll.mono more kept as rest⟩

theorem Reads?.mono (more : ∀ x b, means x b → means' x b) (kept : s.KeepsShapes s') :
    (a? : Option TypeExpr) → {t? : Option TypeId} → s.Reads? means a? t? → s'.Reads? means' a? t?
  | none, t?, reads => by rwa [Reads?] at reads ⊢
  | some a, t?, reads => by
    rw [Reads?] at reads ⊢
    obtain ⟨u, rfl, part⟩ := reads
    exact ⟨u, rfl, Reads.mono more kept a part⟩

end

theorem IsParameter.conserve {t : TypeId} (move : s.Conserves s') (orderly : s.Orderly) (is : s.IsParameter e t) :
    s'.IsParameter e t := by
  obtain ⟨r, complete, kind, type⟩ := is
  exact ⟨r, move.record orderly complete (by rw [kind]; decide), kind, type⟩

variable (more : ∀ x b, means x b → means' x b) (move : s.Conserves s') (orderly : s.Orderly)

include more move orderly

theorem ReadsParameter.mono {p : TypeParameterDecl} (reads : s.ReadsParameter means p e) : s'.ReadsParameter means' p e := by
  obtain ⟨r, complete, kind, name, bounds⟩ := reads
  refine ⟨r, move.record orderly complete (by rw [kind]; decide), kind, name, fun bounded => ?_⟩
  exact ReadsAll.mono more move.shapes _ (bounds bounded)

theorem ReadsSignature.mono {k : ElementKind} {d : ExecutableDecl} {sig : Signature}
    (reads : s.ReadsSignature means k d r sig) : s'.ReadsSignature means' k d r sig where
  kind := reads.kind
  typeParameters := reads.typeParameters.imp fun _ _ => ReadsParameter.mono more move orderly
  types := ReadsAll.mono more move.shapes _ reads.types
  parameters := reads.parameters.imp fun _ _ => IsParameter.conserve move orderly
  result plain := Reads.mono more move.shapes _ (reads.result plain)
  returnType := reads.returnType
  thrown := ReadsAll.mono more move.shapes _ reads.thrown
  thrownTypes := reads.thrownTypes

theorem ReadsExecutable.mono {k : ElementKind} {d : ExecutableDecl} (plain : ¬ k.isContainer)
    (reads : s.ReadsExecutable means owner k d e) : s'.ReadsExecutable means' owner k d e := by
  obtain ⟨r, sig, complete, enclosing, shape, signature⟩ := reads
  refine ⟨r, sig, move.record orderly complete (signature.kind ▸ plain), enclosing, ?_, signature.mono more move orderly⟩
  exact move.shapes _ _ shape (by simp [TypeShape.kind])

theorem ReadsVariable.mono {k : ElementKind} {t : TypeExpr} (plain : ¬ k.isContainer)
    (reads : s.ReadsVariable means k t e) : s'.ReadsVariable means' k t e := by
  obtain ⟨r, complete, kind, type⟩ := reads
  exact ⟨r, move.record orderly complete (kind ▸ plain), kind, Reads.mono more move.shapes t type⟩

end reading

section header

variable {means means' : ElementId → String → Option TypeId → Prop} (more : ∀ e x b, means e x b → means' e x b)
  (move : s.Conserves s') (orderly : s.Orderly)

include more move orderly

theorem ReadsMember.mono {m : MemberDecl} (reads : s.ReadsMember means owner m e) : s'.ReadsMember means' owner m e := by
  cases m with
  | field name t modifiers => exact ReadsVariable.mono (more owner) move orderly (by decide) reads
  | recordComponent name t => exact ReadsVariable.mono (more owner) move orderly (by decide) reads
  | enumConstant name => trivial
  | method d => exact ReadsExecutable.mono (more e) move orderly (by decide) reads
  | constructor d => exact ReadsExecutable.mono (more e) move orderly (by decide) reads

theorem ReadsHeader.mono (reads : s.ReadsHeader means e h r) : s'.ReadsHeader means' e h r where
  typeParameters := reads.typeParameters.imp fun _ _ => ReadsParameter.mono (more e) move orderly
  superclass t kind named := Reads.mono (more e) move.shapes t (reads.superclass t kind named)
  interfaces := ReadsAll.mono (more e) move.shapes _ reads.interfaces
  members := by
    obtain ⟨members, others, listed, each⟩ := reads.members
    exact ⟨members, others, listed, each.imp fun _ _ => ReadsMember.mono more move orderly⟩

end header

section lending

theorem LendsOne.conserve {p : ElementId} {v : String × TypeId} (lends : s.LendsOne p v) (move : s.Conserves s')
    (orderly : s.Orderly) : s'.LendsOne p v := by
  obtain ⟨stands, r, complete, kind, rest⟩ := lends
  exact ⟨move.bound _ _ stands, r, move.record orderly complete (by rw [kind]; decide), kind, rest⟩

theorem Lends.conserve (lends : s.Lends ps vs) (move : s.Conserves s') (orderly : s.Orderly) : s'.Lends ps vs :=
  lends.imp fun _ _ one => one.conserve move orderly

theorem Lends.unique (first : s.Lends ps vs) (second : s.Lends ps ws) : vs = ws := by
  induction first generalizing ws with
  | nil => cases second; rfl
  | cons one rest ih =>
    cases second with
    | cons one' rest' =>
      obtain ⟨_, r, complete, _, name, type⟩ := one
      obtain ⟨_, r', complete', _, name', type'⟩ := one'
      cases complete.symm.trans complete'
      rw [ih rest', Prod.ext (name.symm.trans name') (type.symm.trans type')]

theorem Lends.isVariable (lends : s.Lends ps vs) {v : String × TypeId} (mem : v ∈ vs) : ∃ p ∈ ps, s.LendsOne p v := by
  induction lends with
  | nil => cases mem
  | cons one _ ih =>
    rcases List.mem_cons.mp mem with rfl | mem
    · exact ⟨_, List.mem_cons_self, one⟩
    · obtain ⟨p, there, lends⟩ := ih mem
      exact ⟨p, List.mem_cons_of_mem _ there, lends⟩

theorem Lends.allStand (lends : s.Lends ps vs) (around : s.AllStand outer) : s.AllStand (vs.reverse ++ outer) := by
  intro v mem
  rcases List.mem_append.mp mem with mem | mem
  · obtain ⟨p, _, stands, r, complete, _⟩ := lends.isVariable (List.mem_reverse.mp mem)
    obtain ⟨slot, found, state⟩ := record?_eq_some_iff.mp complete
    exact ⟨p, stands, by simp [isPending_of_slot found, Slot.isPending, state]⟩
  · exact around v mem

end lending

section binding

variable {b b' : Option TypeId}

theorem SeesAround.unique (first : s.SeesAround r o) (second : s.SeesAround r owner) : o = owner :=
  Option.some.inj (first.1.symm.trans second.1)

theorem Binds.unique (first : s.Binds e x b) (second : s.Binds e x b') : b = b' := by
  induction first with
  | own complete _ lends declared =>
    cases second with
    | own complete' _ lends' declared' =>
      cases complete.symm.trans complete'
      cases lends.unique lends'
      exact declared.symm.trans declared'
    | around complete' _ lends' undeclared _ _ | nowhere complete' _ lends' undeclared _ =>
      cases complete.symm.trans complete'
      cases lends.unique lends'
      cases declared.symm.trans undeclared
  | around complete _ lends undeclared sees _ ih =>
    cases second with
    | own complete' _ lends' declared =>
      cases complete.symm.trans complete'
      cases lends.unique lends'
      cases declared.symm.trans undeclared
    | around complete' _ _ _ sees' outer' =>
      cases complete.symm.trans complete'
      exact ih (sees.unique sees' ▸ outer')
    | nowhere complete' _ _ _ outermost =>
      cases complete.symm.trans complete'
      exact absurd sees (outermost _)
  | nowhere complete _ lends undeclared outermost =>
    cases second with
    | own complete' _ lends' declared =>
      cases complete.symm.trans complete'
      cases lends.unique lends'
      cases declared.symm.trans undeclared
    | around complete' _ _ _ sees _ =>
      cases complete.symm.trans complete'
      exact absurd sees (outermost _)
    | nowhere => rfl

theorem Binds.isVariable {t : TypeId} (binds : s.Binds e x (some t)) : ∃ p, s.IsVariable p t := by
  generalize same : some t = b at binds
  induction binds with
  | own _ _ lends declared =>
    cases same
    obtain ⟨p, _, stands, _⟩ := lends.isVariable (List.mem_reverse.mp (mem_of_inSight? declared))
    exact ⟨p, stands⟩
  | around _ _ _ _ _ _ ih => exact ih same
  | nowhere => cases same

theorem Orderly.sees_iff (orderly : s.Orderly) (follows : s.Follows s') {slot : Slot} (found : s.slot? e = some slot)
    (described : r.Describes e slot) (generic : r.kind.isParameterizable) : s'.SeesAround r o ↔ s.SeesAround r o := by
  refine ⟨fun ⟨enclosing, ⟨k, known, place⟩, inside⟩ => ⟨enclosing, ?_, inside⟩, fun ⟨enclosing, place, inside⟩ =>
    ⟨enclosing, place.follow follows, inside⟩⟩
  obtain ⟨outer, there, _⟩ := (orderly.placed e slot o found (described.kind ▸ generic) (described.enclosing ▸ enclosing)).2
  have known' := follows.headings.kind (kind?_eq_some_iff.mpr ⟨outer, there, rfl⟩)
  cases known.symm.trans known'
  exact ⟨outer.kind, kind?_eq_some_iff.mpr ⟨outer, there, rfl⟩, place⟩

theorem Binds.conserve (binds : s.Binds e x b) (move : s.Conserves s') (orderly : s.Orderly) : s'.Binds e x b := by
  have plain {r : ElementRecord} (generic : r.kind.isParameterizable) : ¬ r.kind.isContainer :=
    ElementKind.parameterizable_not_container generic
  induction binds with
  | own complete generic lends declared =>
    exact .own (move.record orderly complete (plain generic)) generic (lends.conserve move orderly) declared
  | around complete generic lends undeclared sees _ ih =>
    refine .around (move.record orderly complete (plain generic)) generic (lends.conserve move orderly) undeclared ?_ ih
    exact ⟨sees.1, sees.2.1.follow move.toFollows, sees.2.2⟩
  | nowhere complete generic lends undeclared outermost =>
    refine .nowhere (move.record orderly complete (plain generic)) generic (lends.conserve move orderly) undeclared ?_
    intro o sees
    obtain ⟨slot, found, state⟩ := record?_eq_some_iff.mp complete
    have described := (orderly.slots _ slot found).described _ state
    exact outermost o ((orderly.sees_iff move.toFollows found described generic).mp sees)

theorem Surrounds.conserve {slot : Slot} (surrounds : s.Surrounds outer r) (move : s.Conserves s') (orderly : s.Orderly)
    (found : s.slot? e = some slot) (described : r.Describes e slot) (generic : r.kind.isParameterizable) :
    s'.Surrounds outer r := by
  have same (o : ElementId) : s'.SeesAround r o ↔ s.SeesAround r o :=
    orderly.sees_iff move.toFollows found described generic
  refine surrounds.imp (fun ⟨o, sees, binds⟩ => ⟨o, (same o).mpr sees, fun x => (binds x).conserve move orderly⟩) ?_
  exact And.imp_right fun outermost o sees => outermost o ((same o).mp sees)

theorem MeansWithin.conserve (means : s.MeansWithin owner vs e x b) (move : s.Conserves s') (orderly : s.Orderly) :
    s'.MeansWithin owner vs e x b := by
  refine means.imp_right fun ⟨r, ws, complete, executable, enclosing, lends, found⟩ => ?_
  have generic : r.kind.isParameterizable := by rw [ElementKind.isParameterizable, executable, Bool.or_true]
  exact ⟨r, ws, move.record orderly complete (ElementKind.parameterizable_not_container generic), executable, enclosing,
    lends.conserve move orderly, found⟩

theorem binds_of_inSight (complete : s.record? e = some r) (generic : r.kind.isParameterizable)
    (lends : s.Lends r.typeParameters vs) (surrounds : s.Surrounds outer r) (x : String) :
    s.Binds e x (inSight? (vs.reverse ++ outer) x) := by
  rw [inSight?_append]
  cases own : inSight? vs.reverse x with
  | some t => exact .own complete generic lends own
  | none =>
    rcases surrounds with ⟨o, sees, binds⟩ | ⟨rfl, outermost⟩
    · exact .around complete generic lends own sees (binds x)
    · exact .nowhere complete generic lends own outermost

end binding

end Store

end Nominal
