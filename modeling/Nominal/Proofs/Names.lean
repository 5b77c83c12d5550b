import Nominal.Names
/-!
Keys of names. A key is kept in 32 bits, so a table with more names than that has names without a key of
their own, and what they are taken for is another name.
-/

namespace Nominal

abbrev Lexicon := String → Option String

namespace Lexicon

abbrev plain : Lexicon := some

def Lasts (lex lex' : Lexicon) : Prop := ∀ name heard, lex name = some heard → lex' name = some heard

end Lexicon

namespace NameTable

def Fits (t : NameTable) : Prop := t.size ≤ UInt32.size

instance (t : NameTable) : Decidable t.Fits := inferInstanceAs (Decidable (_ ≤ _))

theorem find?_eq (t : NameTable) (name : String) :
    t.find? name = (t.names.toList.idxOf? name).map fun i => ⟨.ofNat i⟩ := by
  rw [find?, ← List.idxOf?_toArray, Array.toArray_toList]

theorem find?_eq_some {t : NameTable} {name : String} {k : NameKey} (found : t.find? name = some k) :
    ∃ i, k = ⟨.ofNat i⟩ ∧ ∃ bound : i < t.names.size, t.names[i] = name := by
  rw [find?_eq] at found
  obtain ⟨i, place, rfl⟩ := Option.map_eq_some_iff.mp found
  obtain ⟨bound, same, _⟩ := List.idxOf?_eq_some_iff.mp place
  exact ⟨i, rfl, bound, same⟩

theorem bound_of_find? {t : NameTable} {name : String} {k : NameKey} (found : t.find? name = some k) :
    k.index.toNat < t.size := by
  obtain ⟨i, rfl, bound, _⟩ := find?_eq_some found
  exact Nat.lt_of_le_of_lt (by simpa using Nat.mod_le i UInt32.size) bound

theorem intern_in_range (t : NameTable) (name : String) :
    (t.intern name).1.index.toNat < (t.intern name).2.size := by
  rw [intern]
  split
  · rename_i k found
    exact bound_of_find? found
  · have le : t.size % UInt32.size ≤ t.size := Nat.mod_le _ _
    simpa [size, Nat.lt_succ_iff] using le

theorem Fits.get? {t : NameTable} (fits : t.Fits) {name : String} {k : NameKey} (found : t.find? name = some k) :
    t.get? k = some name := by
  obtain ⟨i, rfl, bound, same⟩ := find?_eq_some found
  have small : i < UInt32.size := Nat.lt_of_lt_of_le bound fits
  simp [NameTable.get?, Nat.mod_eq_of_lt small, bound, same]

theorem get?_of_longer {t t' : NameTable} (longer : t.names.toList <+: t'.names.toList) {k : NameKey}
    (bound : k.index.toNat < t.size) : t'.get? k = t.get? k := by
  obtain ⟨more, same⟩ := longer
  rw [get?, get?, ← Array.getElem?_toList, ← Array.getElem?_toList, ← same,
    List.getElem?_append_left bound]

theorem find?_of_longer {t t' : NameTable} (longer : t.names.toList <+: t'.names.toList) {name : String}
    {k : NameKey} (found : t.find? name = some k) : t'.find? name = some k := by
  obtain ⟨more, same⟩ := longer
  rw [find?_eq] at found ⊢
  obtain ⟨i, place, rfl⟩ := Option.map_eq_some_iff.mp found
  have place' : (t.names.toList ++ more).idxOf? name = some i := by
    rw [List.idxOf?] at place ⊢
    rw [List.findIdx?_append, place, Option.some_or]
  rw [← same, place', Option.map_some]

theorem find?_intern (t : NameTable) (name : String) : (t.intern name).2.find? name = some (t.intern name).1 := by
  rw [intern]
  split
  · assumption
  · rename_i absent
    rw [find?_eq] at absent ⊢
    have free : t.names.toList.idxOf? name = none := by simpa using absent
    have place : (t.names.push name).toList.idxOf? name = some t.size := by
      rw [List.idxOf?] at free ⊢
      rw [Array.toList_push, List.findIdx?_append, free, Option.none_or]
      simp [size, List.findIdx?_cons]
    rw [place, Option.map_some]

theorem intern_again {t t' : NameTable} (name : String) (longer : (t.intern name).2.names.toList <+: t'.names.toList) :
    t'.intern name = ((t.intern name).1, t') := by
  rw [intern, find?_of_longer longer (t.find?_intern name)]

theorem Fits.of_longer {t t' : NameTable} (fits : t'.Fits) (longer : t.names.toList <+: t'.names.toList) :
    t.Fits :=
  Nat.le_trans longer.length_le fits

end NameTable

namespace Lexicon

def Reads (lex : Lexicon) (t : NameTable) : Prop := ∀ name k, t.find? name = some k → lex name = t.get? k

variable {lex : Lexicon} {t t' : NameTable}

theorem Reads.of_longer (reads : lex.Reads t') (longer : t.names.toList <+: t'.names.toList) :
    lex.Reads t := by
  intro name k found
  rw [reads name k (NameTable.find?_of_longer longer found), NameTable.get?_of_longer longer (NameTable.bound_of_find? found)]

theorem plain_reads (fits : t.Fits) : plain.Reads t := fun _ _ found => (fits.get? found).symm

end Lexicon

namespace NameTable

def lexicon (t : NameTable) : Lexicon := fun name => t.find? name >>= t.get?

theorem lexicon_reads (t : NameTable) : t.lexicon.Reads t := fun _ _ found => by
  rw [lexicon, found]
  rfl

def Full (t : NameTable) : Prop := UInt32.size ≤ t.size

theorem Full.mem_of_taken {t t' : NameTable} (full : t.Full) (longer : t.names.toList <+: t'.names.toList)
    {name heard : String} (taken : t'.lexicon name = some heard) : heard ∈ t.toList := by
  obtain ⟨k, _, leads⟩ := Option.bind_eq_some_iff.mp taken
  rw [get?_of_longer longer (Nat.lt_of_lt_of_le k.index.toNat_lt full), get?] at leads
  exact Array.mem_def.mp (Array.mem_of_getElem? leads)

theorem lexicon_lasts {t t' : NameTable} (longer : t.names.toList <+: t'.names.toList) :
    t.lexicon.Lasts t'.lexicon := by
  intro name heard taken
  obtain ⟨k, found, leads⟩ := Option.bind_eq_some_iff.mp taken
  rw [lexicon, find?_of_longer longer found, Option.bind_eq_bind, Option.bind_some,
    get?_of_longer longer (bound_of_find? found), leads]

end NameTable

end Nominal
