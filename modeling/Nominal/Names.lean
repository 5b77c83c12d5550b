/-!
A table of names: every distinct text is kept once, in order of first appearance, and is known by a
key. A key is kept in 32 bits. Dotted names are texts like any other; what stands around them is read off the dots.
-/

namespace Nominal

structure NameKey where
  index : UInt32
  deriving DecidableEq

namespace NameKey

def text (k : NameKey) : String := s!"'s{k.index.toNat}"

def detail (k : NameKey) : String := s!"StrKey({k.index.toNat})"

end NameKey

structure NameTable where
  names : Array String := #[]

namespace NameTable

def empty : NameTable := {}

def size (t : NameTable) : Nat := t.names.size

def isEmpty (t : NameTable) : Bool := t.names.isEmpty

def toList (t : NameTable) : List String := t.names.toList

def get? (t : NameTable) (k : NameKey) : Option String := t.names[k.index.toNat]?

def find? (t : NameTable) (name : String) : Option NameKey :=
  (t.names.idxOf? name).map fun i => ⟨.ofNat i⟩

def contains (t : NameTable) (name : String) : Bool := t.names.contains name

/-- The key of a name, which joins the table unless it is there already. -/
def intern (t : NameTable) (name : String) : NameKey × NameTable :=
  match t.find? name with
  | some k => (k, t)
  | none => (⟨.ofNat t.size⟩, ⟨t.names.push name⟩)

end NameTable

/-- A name inside the scope of another; the empty scope adds nothing. -/
def qualify (scope name : String) : String := if scope.isEmpty then name else s!"{scope}.{name}"

def dottedPrefixes : List Char → List (List Char)
  | [] => []
  | '.' :: rest => [] :: (dottedPrefixes rest).map ('.' :: ·)
  | c :: rest => (dottedPrefixes rest).map (c :: ·)

/-- A name and the names around it, from the inside out. The empty name is not one. -/
def outward (name : String) : List String :=
  ((dottedPrefixes name.toList ++ [name.toList]).reverse.filter (!·.isEmpty)).map .ofList

def lastSegment (name : String) : String :=
  .ofList (name.toList.reverse.takeWhile (· != '.')).reverse

end Nominal
