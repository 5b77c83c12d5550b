import Mathlib.Data.List.Induction
import Mathlib.Data.List.Nodup
import Mathlib.Data.List.Perm.Subperm
import Nominal.Proofs.Names
/-!
Names one after another: after any number of calls the table holds the distinct names in order of first
appearance, and the key of a name is its place among them, as far as 32 bits tell places apart. They do so up to
2^32 names and no further: nothing is refused, and the name after these gets the key of the first one.
-/

namespace Nominal.NameTable

/-- The keys that are handed out for names, one call after another, and the table after them. -/
def internAll (t : NameTable) : List String → List NameKey × NameTable
  | [] => ([], t)
  | name :: rest =>
    let (key, t') := t.intern name
    let (keys, t'') := t'.internAll rest
    (key :: keys, t'')

theorem internAll_cons (t : NameTable) (name : String) (rest : List String) :
    t.internAll (name :: rest) = ((t.intern name).1 :: ((t.intern name).2.internAll rest).1,
      ((t.intern name).2.internAll rest).2) :=
  rfl

theorem mem_intern {t : NameTable} {name other : String} :
    other ∈ (t.intern name).2.toList ↔ other ∈ t.toList ∨ other = name := by
  rw [intern]
  split
  · rename_i k found
    obtain ⟨i, _, bound, rfl⟩ := find?_eq_some found
    exact ⟨.inl, fun either => either.elim id fun same => same ▸ by simp [toList]⟩
  · simp [toList]

theorem mem_internAll {t : NameTable} {names : List String} {other : String} :
    other ∈ (t.internAll names).2.toList ↔ other ∈ t.toList ∨ other ∈ names := by
  induction names generalizing t with
  | nil => simp [internAll]
  | cons name rest ih => rw [internAll_cons, ih, mem_intern, List.mem_cons, or_assoc]

/-- The key for a place among names, in 32 bits. -/
def keyAmong (names : List String) (name : String) : NameKey := ⟨.ofNat (names.idxOf name)⟩

section distinct

variable {names : List String}

theorem eraseDups_snoc (names : List String) (name : String) :
    (names ++ [name]).eraseDups = names.eraseDups ++ if name ∈ names then [] else [name] := by
  rw [List.eraseDups_append]
  split <;> simp_all [List.removeAll, List.eraseDups_cons]

theorem nodup_eraseDups (names : List String) : names.eraseDups.Nodup := by
  induction names using List.reverseRecOn with
  | nil => exact List.nodup_nil
  | append_singleton names name ih =>
    rw [eraseDups_snoc]
    split
    · simpa using ih
    · rename_i fresh
      exact ih.append (List.nodup_singleton name) (by simpa using fresh)

theorem eraseDups_of_nodup (nodup : names.Nodup) : names.eraseDups = names := by
  induction names using List.reverseRecOn with
  | nil => rfl
  | append_singleton names name ih =>
    obtain ⟨front, _, apart⟩ := List.nodup_append.mp nodup
    have fresh : name ∉ names := fun mem => apart name mem name (by simp) rfl
    rw [eraseDups_snoc, ih front, if_neg fresh]

theorem keyAmong_append {name : String} (mem : name ∈ names) (more : List String) :
    keyAmong (names ++ more).eraseDups name = keyAmong names.eraseDups name := by
  rw [keyAmong, List.eraseDups_append, List.idxOf_append_of_mem (List.mem_eraseDups.mpr mem), keyAmong]

theorem keyAmong_index {name : String} (few : names.length ≤ UInt32.size) (mem : name ∈ names) :
    (keyAmong names name).index.toNat = names.idxOf name :=
  UInt32.toNat_ofNat_of_lt' (Nat.lt_of_lt_of_le (List.idxOf_lt_length_of_mem mem) few)

theorem keyAmong_inj {a b : String} (few : names.length ≤ UInt32.size) (mem : a ∈ names) (mem' : b ∈ names) :
    keyAmong names a = keyAmong names b ↔ a = b := by
  constructor
  · intro same
    have places := congrArg (·.index.toNat) same
    rw [keyAmong_index few mem, keyAmong_index few mem'] at places
    exact (List.idxOf_inj mem).mp places
  · exact congrArg _

theorem keyAmong_wraps (nodup : names.Nodup) (many : UInt32.size < names.length) :
    keyAmong names names[UInt32.size] = keyAmong names names[0] := by
  rw [keyAmong, keyAmong, nodup.idxOf_getElem, nodup.idxOf_getElem]
  rfl

end distinct

section run

variable {t : NameTable} {seen : List String} (holds : t.toList = seen.eraseDups)

include holds

theorem find?_distinct (name : String) :
    t.find? name = if name ∈ seen then some (keyAmong seen.eraseDups name) else none := by
  have joined : name ∈ seen ↔ name ∈ t.names.toList := by rw [← List.mem_eraseDups, ← holds, toList]
  cases found : t.find? name with
  | none =>
    rw [find?_eq, Option.map_eq_none_iff, List.idxOf?_eq_none_iff] at found
    rw [if_neg (mt joined.mp found)]
  | some key =>
    obtain ⟨i, rfl, bound, rfl⟩ := find?_eq_some found
    have place : seen.eraseDups.idxOf t.names[i] = i := by
      rw [← holds]
      exact (holds ▸ nodup_eraseDups seen : t.toList.Nodup).idxOf_getElem i bound
    rw [if_pos (joined.mpr (by simp)), keyAmong, place]

theorem get?_distinct (key : NameKey) : t.get? key = seen.eraseDups[key.index.toNat]? := by
  rw [get?, ← Array.getElem?_toList]
  exact congrArg (·[key.index.toNat]?) holds

theorem intern_distinct (name : String) :
    (t.intern name).2.toList = (seen ++ [name]).eraseDups ∧
      (t.intern name).1 = keyAmong (seen ++ [name]).eraseDups name := by
  rw [intern, find?_distinct holds, eraseDups_snoc]
  by_cases mem : name ∈ seen
  · simp [mem, holds]
  · have fresh : name ∉ seen.eraseDups := mt List.mem_eraseDups.mp mem
    have size : t.size = seen.eraseDups.length := congrArg List.length holds
    have pushed : (NameTable.mk (t.names.push name)).toList = t.toList ++ [name] := by simp [toList]
    simp [mem, pushed, holds, keyAmong, size, List.idxOf_append_of_notMem fresh]

theorem internAll_distinct (names : List String) :
    (t.internAll names).2.toList = (seen ++ names).eraseDups ∧
      (t.internAll names).1 = names.map (keyAmong (seen ++ names).eraseDups) := by
  induction names generalizing t seen with
  | nil => exact ⟨by simpa [internAll] using holds, rfl⟩
  | cons name rest ih =>
    obtain ⟨grown, key⟩ := intern_distinct holds name
    obtain ⟨table, keys⟩ := ih grown
    have lasting : keyAmong (seen ++ [name] ++ rest).eraseDups name = (t.intern name).1 :=
      (keyAmong_append (by simp) rest).trans key.symm
    rw [List.append_assoc, List.singleton_append] at table keys lasting
    rw [internAll_cons, List.map_cons, lasting, ← keys]
    exact ⟨table, rfl⟩

end run

theorem mem_zip_map (names : List String) (f : String → NameKey) {name : String} {key : NameKey} :
    (name, key) ∈ names.zip (names.map f) ↔ name ∈ names ∧ key = f name := by
  simp [← List.map_prod_left_eq_zip, eq_comm]

theorem keys_tell_apart_iff (names : List String) :
    (∀ a ∈ names, ∀ b ∈ names, keyAmong names.eraseDups a = keyAmong names.eraseDups b ↔ a = b) ↔
      names.eraseDups.length ≤ UInt32.size := by
  constructor
  · intro apart
    by_contra many
    rw [Nat.not_le] at many
    have nodup := nodup_eraseDups names
    have same := (apart _ (List.mem_eraseDups.mp (List.getElem_mem many)) _
      (List.mem_eraseDups.mp (List.getElem_mem (Nat.zero_lt_of_lt many)))).mp (keyAmong_wraps nodup many)
    exact absurd (nodup.getElem_inj_iff.mp same) (by decide)
  · intro few a mem b mem'
    exact keyAmong_inj few (List.mem_eraseDups.mpr mem) (List.mem_eraseDups.mpr mem')

theorem keys_lead_back_iff (names : List String) :
    (∀ a ∈ names, names.eraseDups[(keyAmong names.eraseDups a).index.toNat]? = some a) ↔
      names.eraseDups.length ≤ UInt32.size := by
  constructor
  · intro back
    refine (keys_tell_apart_iff names).mp fun a mem b mem' => ⟨fun same => ?_, congrArg _⟩
    exact Option.some.inj ((back a mem).symm.trans (same ▸ back b mem'))
  · intro few a mem
    rw [keyAmong_index few (List.mem_eraseDups.mpr mem)]
    exact List.getElem?_idxOf (List.mem_eraseDups.mpr mem)

/-- However many calls there were, the table holds the distinct names in order of first appearance, and each call
was given the place of its name among them, cut to 32 bits. A name that was never asked for has no key; a key from
the size of the table on has no name. Keys tell names apart, and lead back to them, exactly as long as there are at
most 2^32 distinct names. -/
theorem keys_are_places_of_names (names : List String) :
    let keys := (empty.internAll names).1
    let t := (empty.internAll names).2
    t.toList = names.eraseDups ∧
    keys = names.map (keyAmong names.eraseDups) ∧
    (∀ name, t.find? name = if name ∈ names then some (keyAmong names.eraseDups name) else none) ∧
    (∀ key, t.get? key = names.eraseDups[key.index.toNat]?) ∧
    ((∀ call ∈ names.zip keys, ∀ call' ∈ names.zip keys, call.2 = call'.2 ↔ call.1 = call'.1) ↔ t.Fits) ∧
    ((∀ call ∈ names.zip keys, t.get? call.2 = some call.1 ∧ t.find? call.1 = some call.2) ↔ t.Fits) := by
  intro keys t
  obtain ⟨holds, given⟩ : t.toList = names.eraseDups ∧ keys = names.map (keyAmong names.eraseDups) :=
    @internAll_distinct empty [] rfl names
  have found := find?_distinct holds
  have resolved := get?_distinct holds
  have fits : t.Fits ↔ names.eraseDups.length ≤ UInt32.size := by rw [← holds]; rfl
  have calls (name : String) (key : NameKey) :
      (name, key) ∈ names.zip keys ↔ name ∈ names ∧ key = keyAmong names.eraseDups name :=
    by rw [given, mem_zip_map]
  refine ⟨holds, given, found, resolved, ?_, ?_⟩
  · rw [fits, ← keys_tell_apart_iff]
    constructor
    · intro apart a mem b mem'
      exact apart (a, _) ((calls ..).mpr ⟨mem, rfl⟩) (b, _) ((calls ..).mpr ⟨mem', rfl⟩)
    · rintro apart ⟨a, key⟩ call ⟨b, key'⟩ call'
      obtain ⟨mem, rfl⟩ := (calls ..).mp call
      obtain ⟨mem', rfl⟩ := (calls ..).mp call'
      exact apart a mem b mem'
  · rw [fits, ← keys_lead_back_iff]
    constructor
    · intro back a mem
      exact (resolved _).symm.trans (back (a, _) ((calls ..).mpr ⟨mem, rfl⟩)).1
    · rintro back ⟨a, key⟩ call
      obtain ⟨mem, rfl⟩ := (calls ..).mp call
      exact ⟨(resolved _).trans (back a mem), (found a).trans (if_pos mem)⟩

/-- Distinct names, more of them than there are keys: the first one beyond gets the key of the first of all. -/
theorem key_given_twice {names : List String} (nodup : names.Nodup) (many : UInt32.size < names.length) :
    let keys := (empty.internAll names).1
    let t := (empty.internAll names).2
    (names[0], ⟨0⟩) ∈ names.zip keys ∧ (names[UInt32.size], ⟨0⟩) ∈ names.zip keys ∧
      t.get? ⟨0⟩ = some names[0] ∧ ¬ t.Fits := by
  intro keys t
  obtain ⟨holds, given⟩ : t.toList = names.eraseDups ∧ keys = names.map (keyAmong names.eraseDups) :=
    @internAll_distinct empty [] rfl names
  rw [eraseDups_of_nodup nodup] at given
  have zero : keyAmong names names[0] = ⟨0⟩ := by
    rw [keyAmong, nodup.idxOf_getElem]
    rfl
  have calls (name : String) (key : NameKey) :
      (name, key) ∈ names.zip keys ↔ name ∈ names ∧ key = keyAmong names name := by rw [given, mem_zip_map]
  refine ⟨(calls ..).mpr ⟨List.getElem_mem _, zero.symm⟩, (calls ..).mpr ⟨List.getElem_mem many, ?_⟩, ?_, ?_⟩
  · rw [keyAmong_wraps nodup many, zero]
  · rw [get?_distinct holds, eraseDups_of_nodup nodup]
    exact List.getElem?_eq_getElem (Nat.zero_lt_of_lt many)
  · have size : t.size = names.length := by rw [← eraseDups_of_nodup nodup, ← holds]; rfl
    rw [Fits, size]
    exact Nat.not_le.mpr many

theorem numeral_injective {m n : Nat} (same : m.repr = n.repr) : m = n := by
  have digits : Nat.toDigits 10 m = Nat.toDigits 10 n := by simpa [Nat.repr] using congrArg String.toList same
  rw [← Nat.ofDigitChars_ten_toDigits (n := m), digits, Nat.ofDigitChars_ten_toDigits]

def numerals (count : Nat) : List String := (List.range count).map Nat.repr

theorem numerals_nodup (count : Nat) : (numerals count).Nodup := List.nodup_range.map fun _ _ => numeral_injective

theorem isDigit_of_mem_numerals {count : Nat} {name : String} (mem : name ∈ numerals count) {c : Char}
    (there : c ∈ name.toList) : c.isDigit := by
  obtain ⟨n, _, rfl⟩ := List.mem_map.mp mem
  have digit : c ∈ Nat.toDigits 10 n := by simpa [Nat.repr] using there
  exact Nat.isDigit_of_mem_toDigits (by decide) (by decide) digit

theorem le_size_after_numerals (t : NameTable) (count : Nat) : count ≤ (t.internAll (numerals count)).2.size := by
  have within : numerals count ⊆ (t.internAll (numerals count)).2.toList := fun _ mem => mem_internAll.mpr (.inr mem)
  have few := (List.subperm_of_subset (numerals_nodup count) within).length_le
  rwa [numerals, List.length_map, List.length_range] at few

theorem full_after_numerals (t : NameTable) : (t.internAll (numerals UInt32.size)).2.Full :=
  le_size_after_numerals t UInt32.size

/-- After 0, 1, 2 and so on up to 4294967295 there is no key left, and 4294967296 gets the key of 0. -/
theorem numeral_aliases_zero :
    let names := numerals (UInt32.size + 1)
    let keys := (empty.internAll names).1
    let t := (empty.internAll names).2
    ("0", ⟨0⟩) ∈ names.zip keys ∧ ("4294967296", ⟨0⟩) ∈ names.zip keys ∧ t.get? ⟨0⟩ = some "0" ∧ ¬ t.Fits := by
  have nodup := numerals_nodup (UInt32.size + 1)
  have many : UInt32.size < (numerals (UInt32.size + 1)).length := by
    rw [numerals, List.length_map, List.length_range]
    exact Nat.lt_succ_self _
  have numeral (i : Nat) (bound : i < (numerals (UInt32.size + 1)).length) :
      (numerals (UInt32.size + 1))[i] = i.repr := by
    simp only [numerals, List.getElem_map, List.getElem_range]
  have aliased := key_given_twice nodup many
  rw [numeral, numeral] at aliased
  exact aliased

end Nominal.NameTable
