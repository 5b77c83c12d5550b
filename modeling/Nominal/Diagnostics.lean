/-!
Failures gathered along the way, in the order in which they were found.
-/

namespace Nominal

structure Diagnostics (ε : Type) where
  items : List ε := []

namespace Diagnostics

variable {ε : Type}

def empty : Diagnostics ε := {}

def single (e : ε) : Diagnostics ε := ⟨[e]⟩

def push (d : Diagnostics ε) (e : ε) : Diagnostics ε := ⟨d.items ++ [e]⟩

def extend (d : Diagnostics ε) (es : List ε) : Diagnostics ε := ⟨d.items ++ es⟩

def size (d : Diagnostics ε) : Nat := d.items.length

def isEmpty (d : Diagnostics ε) : Bool := d.items.isEmpty

def hasAny (d : Diagnostics ε) : Bool := !d.isEmpty

def first? (d : Diagnostics ε) : Option ε := d.items.head?

def result {α : Type} (d : Diagnostics ε) (value : α) : Except (Diagnostics ε) α :=
  if d.isEmpty then .ok value else .error d

def text (show_ : ε → String) (d : Diagnostics ε) : String := "\n".intercalate (d.items.map show_)

end Diagnostics

end Nominal
