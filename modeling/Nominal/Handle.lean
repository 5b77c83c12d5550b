import Nominal.Kind
/-!
Handles: elements and types are named by their place in a store. The types that need no
declaration have fixed places at the front.
-/

namespace Nominal

structure ElementId where
  index : Nat
  deriving DecidableEq

structure TypeId where
  index : Nat
  deriving DecidableEq

/-- Places are kept in 32 bits, so only these indexes have a handle. -/
def handleIndex? (index : Nat) : Option UInt32 :=
  if index < UInt32.size then some (.ofNat index) else none

def handleText (index : Nat) : String := s!"#{index}"

def handleDetail (family : String) (index : Nat) : String := s!"{family}({index})"

namespace ElementId

def text (e : ElementId) : String := handleText e.index

def detail (e : ElementId) : String := handleDetail "ElementId" e.index

end ElementId

namespace TypeId

def text (t : TypeId) : String := handleText t.index

def detail (t : TypeId) : String := handleDetail "TypeId" t.index

def none : TypeId := ⟨0⟩
def void : TypeId := ⟨1⟩
def package : TypeId := ⟨2⟩
def module : TypeId := ⟨3⟩
def null : TypeId := ⟨4⟩

def noType : NoType → TypeId
  | .none => none
  | .void => void
  | .package => package
  | .module => module

def primitive (p : Primitive) : TypeId := ⟨null.index + 1 + Primitive.all.idxOf p⟩

end TypeId

end Nominal
