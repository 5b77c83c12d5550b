import Nominal.Proofs.Json.Nesting
/-!
Reading what was written. The reader gives back every value, less what stands inside more brackets than it
may open: there it goes on over the text and has nothing to show for it.
-/

namespace Nominal.Json

/-! ### Texts -/

theorem joinText?_control {n : Nat} (control : n < 0x20) (parts : List TextPart) :
    joinText? (.unit n :: parts) = (Char.ofNat n :: ·) <$> joinText? parts := by
  have basic : isHighSurrogate n = false ∧ isLowSurrogate n = false := by
    simp only [isHighSurrogate, isLowSurrogate, Bool.and_eq_false_iff, decide_eq_false_iff_not]
    omega
  rw [joinText?.eq_def]
  simp [basic]

theorem readText_escaped (letters after : List Char) : ∃ parts,
    readText (letters.flatMap escaped ++ '"' :: after) = some (parts, after) ∧ joinText? parts = some letters := by
  have digit : ∀ d < 16, hexDigit? (hexChar d) = some d := by decide
  induction letters with
  | nil => exact ⟨[], rfl, rfl⟩
  | cons c letters ih =>
    obtain ⟨parts, read, join⟩ := ih
    rw [List.flatMap_cons, List.append_assoc]
    have escape := escape_escaped c
    generalize escaped c = written at escape
    cases escape with
    | plain quote backslash printed =>
      refine ⟨.char c :: parts, ?_, by simp [joinText?, join]⟩
      simp [readText, backslash, read, Nat.not_lt.mpr printed]
    | letter d notUnit means =>
      refine ⟨.char c :: parts, ?_, by simp [joinText?, join]⟩
      simp [readText, notUnit, means, read]
    | unit high low highDigit lowDigit value control =>
      refine ⟨.unit c.toNat :: parts, ?_, by simp [joinText?_control control, join]⟩
      have zero : hexDigit? '0' = some 0 := rfl
      simp [readText, unit?, zero, digit high highDigit, digit low lowDigit, read, value]

theorem readText_writeText (text : String) (after : List Char) : ∃ rest parts,
    writeText text after = '"' :: rest ∧ readText rest = some (parts, after) ∧
      joinText? parts = some text.toList := by
  obtain ⟨parts, read, join⟩ := readText_escaped text.toList after
  exact ⟨_, parts, rfl, read, join⟩

/-! ### Numbers -/

def Stops : List Char → Prop
  | [] => True
  | c :: _ => c ∈ [',', ']', '}']

theorem head_toDigits {n : Nat} (pos : 0 < n) : (Nat.toDigits 10 n).head? ≠ some '0' := by
  induction n using Nat.strongRecOn with
  | ind n ih =>
    have digit : ∀ d < 10, 0 < d → Nat.digitChar d ≠ '0' := by decide
    by_cases small : n < 10
    · rw [Nat.toDigits_of_lt_base small]
      simpa using digit n small pos
    · have first : (Nat.toDigits 10 (n / 10)).head? ≠ some '0' := ih _ (by omega) (by omega)
      obtain ⟨d, ds, more⟩ := List.exists_cons_of_ne_nil (Nat.toDigits_ne_nil (n := n / 10) (b := 10))
      rw [more] at first
      rw [Nat.toDigits_of_base_le (by decide) (by omega), more]
      exact first

theorem readFraction_stops {after : List Char} (stops : Stops after) : readFraction after = some (false, after) := by
  cases after with
  | nil => rfl
  | cons c rest =>
    simp only [Stops, List.mem_cons, List.not_mem_nil, or_false] at stops
    rcases stops with rfl | rfl | rfl <;> rfl

theorem digits_append {ds after : List Char} (all : ∀ d ∈ ds, d.isDigit) (stops : Stops after) :
    digits (ds ++ after) = (ds, after) := by
  have stop : after.takeWhile (·.isDigit) = [] ∧ after.dropWhile (·.isDigit) = after := by
    cases after with
    | nil => exact ⟨rfl, rfl⟩
    | cons c rest =>
      simp only [Stops, List.mem_cons, List.not_mem_nil, or_false] at stops
      rcases stops with rfl | rfl | rfl <;> exact ⟨rfl, rfl⟩
  rw [digits, List.takeWhile_append_of_pos all, List.dropWhile_append_of_pos all, stop.1, stop.2, List.append_nil]

theorem intChars_cons (n : Int) : ∃ c cs, intChars n = c :: cs ∧ (c = '-' ∨ c.isDigit) := by
  cases n with
  | ofNat m =>
    obtain ⟨d, ds, first⟩ := List.exists_cons_of_ne_nil (Nat.toDigits_ne_nil (n := m) (b := 10))
    exact ⟨d, ds, first, .inr (Nat.isDigit_of_mem_toDigits (by decide) (by decide) (first ▸ List.mem_cons_self))⟩
  | negSucc m => exact ⟨'-', _, rfl, .inl rfl⟩

theorem no_leading_zero (n : Nat) :
    ((Nat.toDigits 10 n).isEmpty ||
      ((Nat.toDigits 10 n).head? == some '0' && (Nat.toDigits 10 n).length != 1)) = false := by
  have some_digit : (Nat.toDigits 10 n).isEmpty = false := List.isEmpty_eq_false_iff.mpr Nat.toDigits_ne_nil
  rcases Nat.eq_zero_or_pos n with rfl | pos
  · decide
  · simp [some_digit, head_toDigits pos]

theorem readNumber_intChars {n : Int} {after : List Char} (bounded : n.natAbs < numberBound) (stops : Stops after) :
    readNumber (intChars n ++ after) = some (int n, after) := by
  have scan (m : Nat) : digits (Nat.toDigits 10 m ++ after) = (Nat.toDigits 10 m, after) :=
    digits_append (fun d mem => Nat.isDigit_of_mem_toDigits (by decide) (by decide) mem) stops
  cases n with
  | ofNat m =>
    have unsigned (rest : List Char) : Nat.toDigits 10 m ++ after ≠ '-' :: rest := by
      obtain ⟨d, ds, first⟩ := List.exists_cons_of_ne_nil (Nat.toDigits_ne_nil (n := m) (b := 10))
      have digit : d.isDigit := Nat.isDigit_of_mem_toDigits (by decide) (by decide) (first ▸ List.mem_cons_self)
      rw [first, List.cons_append]
      rintro same
      cases (List.cons.inj same).1
      exact absurd digit (by decide)
    have small : ¬ numberBound ≤ m := Nat.not_le.mpr bounded
    rw [intChars, readNumber]
    · simp [scan, no_leading_zero, readFraction_stops stops, Nat.ofDigitChars_toDigits, small]
    · exact unsigned
  | negSucc m =>
    have small : ¬ numberBound ≤ m + 1 := Nat.not_le.mpr bounded
    rw [intChars, List.cons_append, readNumber]
    simp [scan, no_leading_zero, readFraction_stops stops, Nat.ofDigitChars_toDigits, small, Int.negSucc_eq]

/-! ### Values -/

mutual

def cut : Nat → Json → Json
  | room, arr items => if room = 0 then unreadable else arr (cutItems (room - 1) items)
  | room, obj members => if room = 0 then unreadable else obj (cutMembers (room - 1) members)
  | _, j => j
termination_by structural _ j => j

def cutItems (room : Nat) : List Json → List Json
  | [] => []
  | j :: rest => cut room j :: cutItems room rest

def cutMembers (room : Nat) : List (String × Json) → List (String × Json)
  | [] => []
  | (name, j) :: rest => (name, cut room j) :: cutMembers room rest

end

mutual

def Plain : Json → Prop
  | fraction | unreadable => False
  | int n => n.natAbs < numberBound
  | arr items => PlainItems items
  | obj members => PlainMembers members
  | null | bool _ | str _ => True

def PlainItems : List Json → Prop
  | [] => True
  | j :: rest => j.Plain ∧ PlainItems rest

def PlainMembers : List (String × Json) → Prop
  | [] => True
  | (_, j) :: rest => j.Plain ∧ PlainMembers rest

end

mutual

theorem cut_fits : (j : Json) → (room : Nat) → j.depth ≤ room → j.cut room = j
  | null, _, _ | bool _, _, _ | int _, _, _ | fraction, _, _ | str _, _, _ | unreadable, _, _ => rfl
  | arr items, room, fits => by
    rw [depth] at fits
    rw [cut, if_neg (by omega), cutItems_fits items (room - 1) (by omega)]
  | obj members, room, fits => by
    rw [depth] at fits
    rw [cut, if_neg (by omega), cutMembers_fits members (room - 1) (by omega)]

theorem cutItems_fits : (items : List Json) → (room : Nat) → itemsDepth items ≤ room → cutItems room items = items
  | [], _, _ => rfl
  | j :: rest, room, fits => by
    rw [itemsDepth] at fits
    rw [cutItems, cut_fits j room (by omega), cutItems_fits rest room (by omega)]

theorem cutMembers_fits : (members : List (String × Json)) → (room : Nat) → membersDepth members ≤ room →
    cutMembers room members = members
  | [], _, _ => rfl
  | (name, j) :: rest, room, fits => by
    rw [membersDepth] at fits
    rw [cutMembers, cut_fits j room (by omega), cutMembers_fits rest room (by omega)]

end

/-! What follows a value is shorter than the value with what follows it. -/

theorem length_writeText (text : String) (after : List Char) : after.length < (writeText text after).length := by
  simp only [writeText, List.length_cons, List.length_append]
  omega

mutual

theorem length_write (after : List Char) : (j : Json) → after.length < (j.write after).length
  | null | fraction | unreadable | bool true | bool false | arr [] | obj [] => by
    simp only [write, List.length_cons]
    omega
  | int n => by
    obtain ⟨c, cs, first, _⟩ := intChars_cons n
    simp only [write, first, List.length_append, List.length_cons]
    omega
  | str text => length_writeText text after
  | arr (j :: rest) => by
    have items := length_writeItems after rest
    have first := length_write (writeItems rest after) j
    rw [write, List.length_cons]
    omega
  | obj ((name, j) :: rest) => by
    have members := length_writeMembers after rest
    have first := length_write (writeMembers rest after) j
    have named := length_writeText name (':' :: j.write (writeMembers rest after))
    rw [List.length_cons] at named
    rw [write, List.length_cons]
    omega

theorem length_writeItems (after : List Char) : (items : List Json) → after.length < (writeItems items after).length
  | [] => Nat.lt_succ_self _
  | j :: rest => by
    have items := length_writeItems after rest
    have first := length_write (writeItems rest after) j
    rw [writeItems, List.length_cons]
    omega

theorem length_writeMembers (after : List Char) : (members : List (String × Json)) →
    after.length < (writeMembers members after).length
  | [] => Nat.lt_succ_self _
  | (name, j) :: rest => by
    have members := length_writeMembers after rest
    have first := length_write (writeMembers rest after) j
    have named := length_writeText name (':' :: j.write (writeMembers rest after))
    rw [List.length_cons] at named
    rw [writeMembers, List.length_cons]
    omega

end

section Dispatch

variable {fuel room : Nat} {c : Char} {cs rest : List Char}

theorem skipBlanks_cons (seen : isBlank c = false) : skipBlanks (c :: cs) = c :: cs := by
  simp [skipBlanks, seen]

theorem number_start (number : c = '-' ∨ c.isDigit) :
    isBlank c = false ∧ c ≠ '[' ∧ c ≠ '{' ∧ c ≠ '"' ∧ c ≠ 'n' ∧ c ≠ 't' ∧ c ≠ 'f' ∧ c ≠ ']' := by
  rcases number with rfl | digit
  · decide
  · have not_at {d : Char} (other : d.isDigit = false) : c ≠ d := by
      rintro rfl
      exact absurd digit (by simp [other])
    refine ⟨?_, not_at rfl, not_at rfl, not_at rfl, not_at rfl, not_at rfl, not_at rfl, not_at rfl⟩
    have blank : c ≠ ' ' ∧ c ≠ '\n' ∧ c ≠ '\t' ∧ c ≠ '\r' := ⟨not_at rfl, not_at rfl, not_at rfl, not_at rfl⟩
    simp [isBlank, blank]

theorem readValue_number (number : c = '-' ∨ c.isDigit) :
    readValue (fuel + 1) room (c :: cs) = readNumber (c :: cs) := by
  obtain ⟨seen, bracket, brace, quote, n, t, f, _⟩ := number_start number
  rw [readValue, skipBlanks_cons seen]
  simp [bracket, brace, quote, n, t, f]

theorem readValue_items (more : ∀ left, skipBlanks rest ≠ ']' :: left) :
    readValue (fuel + 1) room ('[' :: rest) =
      (readItems fuel (room - 1) rest).map fun read => (if room = 0 then unreadable else arr read.1, read.2) := by
  rw [readValue, skipBlanks_cons rfl]
  simp only
  cases readItems fuel (room - 1) rest <;> rfl

theorem readValue_members (more : ∀ left, skipBlanks rest ≠ '}' :: left) :
    readValue (fuel + 1) room ('{' :: rest) =
      (readMembers fuel (room - 1) rest).map fun read => (if room = 0 then unreadable else objJson read.1, read.2) := by
  rw [readValue, skipBlanks_cons rfl]
  simp only
  cases readMembers fuel (room - 1) rest <;> rfl

theorem write_cons (j : Json) (after : List Char) : ∃ c cs, j.write after = c :: cs ∧ isBlank c = false ∧ c ≠ ']' := by
  cases j with
  | int n =>
    obtain ⟨c, cs, first, number⟩ := intChars_cons n
    obtain ⟨seen, _, _, _, _, _, _, bracket⟩ := number_start number
    exact ⟨c, _, by rw [write, first, List.cons_append], seen, bracket⟩
  | bool b => cases b <;> exact ⟨_, _, rfl, rfl, by decide⟩
  | arr items => cases items <;> exact ⟨_, _, rfl, rfl, by decide⟩
  | obj members => rcases members with _ | ⟨⟨name, j⟩, rest⟩ <;> exact ⟨_, _, rfl, rfl, by decide⟩
  | null | fraction | unreadable | str => exact ⟨_, _, rfl, rfl, by decide⟩

end Dispatch

def writeAll : List Json → List Char → List Char
  | [], after => ']' :: after
  | j :: rest, after => j.write (writeItems rest after)

def writeAllMembers : List (String × Json) → List Char → List Char
  | [], after => '}' :: after
  | (name, j) :: rest, after => writeText name (':' :: j.write (writeMembers rest after))

def named? (members : List (List TextPart × Json)) : Option (List (String × Json)) :=
  members.mapM fun m => (joinText? m.1).map fun cs => (String.ofList cs, m.2)

theorem stops_writeItems (items : List Json) (after : List Char) : Stops (writeItems items after) := by
  cases items <;> simp [writeItems, Stops]

theorem stops_writeMembers (members : List (String × Json)) (after : List Char) :
    Stops (writeMembers members after) := by
  rcases members with _ | ⟨⟨name, j⟩, rest⟩ <;> simp [writeMembers, Stops]

mutual

theorem readValue_write : (j : Json) → (fuel room : Nat) → (after : List Char) → j.Plain → Stops after →
    (j.write after).length ≤ fuel + 1 + after.length →
    readValue (fuel + 1) room (j.write after) = some (j.cut room, after)
  | null, _, _, _, _, _, _ => by simp [write, readValue, skipBlanks_cons, isBlank, readWord, cut]
  | bool true, _, _, _, _, _, _ => by simp [write, readValue, skipBlanks_cons, isBlank, readWord, cut]
  | bool false, _, _, _, _, _, _ => by simp [write, readValue, skipBlanks_cons, isBlank, readWord, cut]
  | int n, _, _, _, plain, stops, _ => by
    obtain ⟨c, cs, first, number⟩ := intChars_cons n
    have read := readNumber_intChars plain stops
    rw [first, List.cons_append] at read
    rw [write, first, List.cons_append, readValue_number number, read, cut]
    all_goals simp
  | str text, _, _, after, _, _, _ => by
    obtain ⟨rest, parts, written, read, join⟩ := readText_writeText text after
    simp [write, written, readValue, skipBlanks_cons, isBlank, read, textJson, join, cut]
  | arr [], _, room, after, _, _, _ => by
    simp [write, readValue, skipBlanks_cons, isBlank, cut, cutItems]
  | arr (j :: rest), fuel, room, after, plain, _, enough => by
    obtain ⟨c, cs, starts, seen, more⟩ := write_cons j (writeItems rest after)
    have read := readItems_write (j :: rest) fuel (room - 1) after plain
      (by simpa [write, writeAll, Nat.add_right_comm] using enough) (by simp)
    rw [writeAll] at read
    rw [write, readValue_items, read]
    · rfl
    · simp [starts, skipBlanks_cons seen, more]
  | obj [], fuel, room, after, plain, stops, enough => by
    simp [write, readValue, skipBlanks_cons, isBlank, cut, cutMembers, objJson]
  | obj ((name, j) :: rest), fuel, room, after, plain, stops, enough => by
    obtain ⟨members, read, named⟩ := readMembers_write ((name, j) :: rest) fuel (room - 1) after plain
      (by simpa [write, writeAllMembers, Nat.add_right_comm] using enough) (by simp)
    rw [writeAllMembers] at read
    rw [write, readValue_members, read]
    · rw [Option.map_some, cut, objJson, ← named?, named]
      rfl
    · simp [writeText, skipBlanks_cons, isBlank]

theorem readItems_write : (items : List Json) → (fuel room : Nat) → (after : List Char) → PlainItems items →
    (writeAll items after).length ≤ fuel + after.length → items ≠ [] →
    readItems fuel room (writeAll items after) = some (cutItems room items, after)
  | [], _, _, _, _, _, filled => absurd rfl filled
  | j :: rest, fuel, room, after, plain, enough, _ => by
    rw [writeAll] at enough
    have first := length_write (writeItems rest after) j
    have more := length_writeItems after rest
    obtain ⟨fuel, rfl⟩ : ∃ f, fuel = f + 2 := ⟨fuel - 2, by omega⟩
    have others := readItems_write rest (fuel + 1) room after plain.2
    have shorter : (writeItems rest after).length < fuel + 2 + after.length := by omega
    rw [writeAll, readItems, readValue_write j fuel room _ plain.1 (stops_writeItems rest after) (by omega)]
    cases rest with
    | nil => simp [writeItems, skipBlanks_cons, isBlank, cutItems]
    | cons next rest =>
      have further : writeItems (next :: rest) after = ',' :: writeAll (next :: rest) after := by
        rw [writeItems, writeAll]
      rw [further, List.length_cons] at shorter
      rw [further]
      simp [skipBlanks_cons, isBlank, others (by omega) (by simp), cutItems]

theorem readMembers_write : (members : List (String × Json)) → (fuel room : Nat) → (after : List Char) →
    PlainMembers members → (writeAllMembers members after).length ≤ fuel + after.length → members ≠ [] →
    ∃ read, readMembers fuel room (writeAllMembers members after) = some (read, after) ∧
      named? read = some (cutMembers room members)
  | [], _, _, _, _, _, filled => absurd rfl filled
  | (name, j) :: rest, fuel, room, after, plain, enough, _ => by
    rw [writeAllMembers] at enough
    have first := length_write (writeMembers rest after) j
    have more := length_writeMembers after rest
    have label := length_writeText name (':' :: j.write (writeMembers rest after))
    rw [List.length_cons] at label
    obtain ⟨fuel, rfl⟩ : ∃ f, fuel = f + 2 := ⟨fuel - 2, by omega⟩
    have others := readMembers_write rest (fuel + 1) room after plain.2
    have shorter : (writeMembers rest after).length < fuel + 2 + after.length := by omega
    obtain ⟨text, parts, written, read, join⟩ := readText_writeText name (':' :: j.write (writeMembers rest after))
    have value := readValue_write j fuel room _ plain.1 (stops_writeMembers rest after) (by omega)
    rw [writeAllMembers, written]
    cases rest with
    | nil =>
      refine ⟨[(parts, j.cut room)], ?_, ?_⟩
      · rw [writeMembers] at read value
        simp [readMembers, skipBlanks_cons, isBlank, read, value]
      · simp [named?, join, cutMembers]
    | cons next rest =>
      have further : writeMembers (next :: rest) after = ',' :: writeAllMembers (next :: rest) after := by
        rw [writeMembers, writeAllMembers]
      rw [further, List.length_cons] at shorter
      rw [further] at read value
      obtain ⟨members, read', named⟩ := others (by omega) (by simp)
      refine ⟨(parts, j.cut room) :: members, ?_, ?_⟩
      · rw [readMembers]
        simp [skipBlanks_cons, isBlank, read, value, read']
      · rw [named?] at named
        simp [named?, named, join, cutMembers]

end

theorem ofTextWithin?_render {j : Json} (plain : j.Plain) (room : Nat) :
    ofTextWithin? room j.render = some (j.cut room) := by
  have read := readValue_write j j.render.toList.length room [] plain trivial (by simp [render])
  simp only [ofTextWithin?]
  rw [render, String.toList_ofList] at read ⊢
  rw [read]
  rfl

end Nominal.Json
