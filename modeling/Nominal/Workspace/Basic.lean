import Nominal.Recipe.Basic
import Nominal.Store.Completion
/-!
Several stores side by side, the domains through which they are reached, and views of their elements
and types. A view looks at its store when it is first used and keeps what it saw.
-/

namespace Nominal

/-- Access to one store. Domains over one store are the same domain, apart from those that insist on
an identity of their own. -/
structure Domain where
  store : Nat
  /-- How the domain itself can be obtained again. Without it nothing of the domain can. -/
  recipe : Option Recipe := none
  ownIdentity : Option Nat := none

inductive DomainIdentity where
  | store (index : Nat)
  | own (index : Nat)
  deriving DecidableEq

namespace Domain

def identity (d : Domain) : DomainIdentity :=
  match d.ownIdentity with
  | some i => .own i
  | none => .store d.store

def same (a b : Domain) : Bool := a.identity == b.identity

end Domain

/-- An element seen through a domain; the cell keeps what the view saw. -/
structure ElementView where
  domain : Domain
  id : ElementId
  cell : Nat

structure TypeView where
  domain : Domain
  id : TypeId
  cell : Nat

inductive KnownErasure where
  | itself
  | other (view : TypeView)

structure TypeMemo where
  shape : Option TypeShape := none
  erasure : Option KnownErasure := none

structure Workspace where
  stores : Array Store := #[]
  elementMemos : Array (Option ElementRecord) := #[]
  typeMemos : Array TypeMemo := #[]

abbrev WorkM := StateM Workspace

namespace WorkM

variable {α : Type}

def newStore (s : Store) : WorkM Nat :=
  modifyGet fun w => (w.stores.size, { w with stores := w.stores.push s })

def within (d : Domain) (m : StoreM α) : WorkM α := fun w =>
  let s := w.stores.getD d.store .empty
  let others := w.stores.setIfInBounds d.store .empty
  let (a, s) := m.run s
  (a, { w with stores := others.setIfInBounds d.store s })

def look (d : Domain) (f : Store → α) : WorkM α := return f ((← get).stores.getD d.store .empty)

end WorkM

end Nominal
