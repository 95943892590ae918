import CodeGraph.Json.Basic
import CodeGraph.Json.Parser
import Mathlib.Data.List.DropRight
import Mathlib.Data.List.TakeWhile

/-!
# Reading undoes writing, for any layout

A text of a value is its tokens with blanks between them. The reader finds the value of every such
text, so it does not matter how the lines are broken.

* `Json.tree`: a value as the reader sees it.
* `Json.Spells`: the texts of a value.
* `Json.stringRest_escape`, `Json.number_digits`: string literals and numbers.
* `Json.readValue_of_spells`: reading a text.
* `Json.spells_prettyChars`, `Json.spells_compactChars`: the indented and the compact text are such.
* **`Json.parse?_pretty`**, **`Json.parse?_compact`**: both read as the value.
-/

namespace CodeGraph.Json

/-! ## String literals -/

theorem hexValue?_hexDigit (n : Nat) : hexValue? (hexDigit n) = some (n % 16) := by
  have hall : ∀ m < 16, hexValue? ((Nat.toDigits 16 m).headD '0') = some m := by decide
  exact hall (n % 16) (Nat.mod_lt _ (by decide))

section Pieces

variable {rest left : List Char} {ps : List Piece} (h : pieces rest = some (ps, left))
include h

theorem pieces_plain {c : Char} (hc : ¬ c.toNat < 32) (hq : c ≠ '"') (hs : c ≠ '\\') :
    pieces (c :: rest) = some (.char c :: ps, left) := by
  rw [pieces]
  · rw [if_neg hc, h]
  all_goals simp_all

theorem pieces_escaped {c e : Char} (he : escaped? c = some e) (hu : c ≠ 'u') :
    pieces ('\\' :: c :: rest) = some (.char e :: ps, left) := by
  rw [pieces]
  · rw [he, h]
  all_goals simp_all

theorem pieces_code {n : Nat} (hn : n < 256) :
    pieces ('\\' :: 'u' :: '0' :: '0' :: hexDigit (n / 16) :: hexDigit n :: rest) =
      some (.code n :: ps, left) := by
  have hzero : hexValue? '0' = some 0 := rfl
  have hcode : hex4? '0' '0' (hexDigit (n / 16)) (hexDigit n) = some n := by
    simp only [hex4?, hzero, hexValue?_hexDigit, Option.bind_eq_bind, Option.bind_some]
    congr 1
    omega
  rw [pieces, hcode, h]

theorem pieces_escapeChar (c : Char) :
    ∃ p, pieces (escapeChar c ++ rest) = some (p :: ps, left) ∧
      joinPieces none (p :: ps) = (joinPieces none ps).map (c :: ·) := by
  have hchar : ∀ {e : Char}, e = c → joinPieces none (.char e :: ps) =
      (joinPieces none ps).map (c :: ·) := by
    rintro e rfl
    rfl
  have hofNat : ∀ {n : Nat}, c.toNat = n → Char.ofNat n = c := by
    rintro n rfl
    exact Char.ofNat_toNat c
  unfold escapeChar
  split
  · exact ⟨_, pieces_escaped h rfl (by decide), hchar (by simp_all)⟩
  · split
    · exact ⟨_, pieces_escaped h rfl (by decide), hchar (by simp_all)⟩
    · split
      · exact ⟨_, pieces_escaped h rfl (by decide), hchar (by simp_all)⟩
      · split
        · exact ⟨_, pieces_escaped h rfl (by decide), hchar (by simp_all)⟩
        · split
          · exact ⟨_, pieces_escaped h rfl (by decide), hchar (by simp_all)⟩
          · split
            · exact ⟨_, pieces_escaped h rfl (by decide), hchar (hofNat ‹_›)⟩
            · split
              · exact ⟨_, pieces_escaped h rfl (by decide), hchar (hofNat ‹_›)⟩
              · split
                · -- A control character without a letter of its own.
                  rename_i hlt
                  refine ⟨_, pieces_code h (n := c.toNat) (by omega), ?_⟩
                  have hhigh : isHigh c.toNat = false := by simp [isHigh]; omega
                  have hlow : isLow c.toNat = false := by simp [isLow]; omega
                  simp [joinPieces, hhigh, hlow]
                · exact ⟨_, pieces_plain h ‹_› ‹_› ‹_›, hchar rfl⟩

end Pieces

/-- **A string literal reads as its text.** -/
theorem stringRest_escape (s : String) (rest : List Char) :
    stringRest (s.toList.flatMap escapeChar ++ '"' :: rest) = some (some s, rest) := by
  have hpieces : ∀ cs : List Char, ∃ ps, pieces (cs.flatMap escapeChar ++ '"' :: rest) =
      some (ps, rest) ∧ joinPieces none ps = some cs := by
    intro cs
    induction cs with
    | nil => exact ⟨[], by simp [pieces], rfl⟩
    | cons c cs ih =>
      obtain ⟨ps, hps, hjoin⟩ := ih
      obtain ⟨p, hp, hcons⟩ := pieces_escapeChar hps c
      refine ⟨p :: ps, ?_, by rw [hcons, hjoin]; rfl⟩
      rw [List.flatMap_cons, List.append_assoc, hp]
  obtain ⟨ps, hps, hjoin⟩ := hpieces s.toList
  rw [stringRest, hps, Option.map_some, hjoin, Option.map_some, String.ofList_toList]

/-! ## Numbers -/

/-- What may follow a number: no digit, point or exponent. -/
def Ends (rest : List Char) : Prop :=
  ∀ c, rest.head? = some c → isDigit c = false ∧ c ≠ '.' ∧ c ≠ 'e' ∧ c ≠ 'E'

theorem isDigit_of_mem_digits {n : Nat} {c : Char} (hc : c ∈ digits n) : isDigit c = true := by
  have h := Nat.isDigit_of_mem_toDigits (by decide) (by decide) hc
  simpa [Char.isDigit, isDigit, Char.le_def] using h

theorem head?_digits {n : Nat} (hn : n ≠ 0) : (digits n).head? ≠ some '0' := by
  unfold digits
  induction n using Nat.strongRecOn with
  | ind n ih =>
    by_cases hlt : n < 10
    · rw [Nat.toDigits_of_lt_base hlt, List.head?_singleton]
      have hall : ∀ m < 10, m ≠ 0 → some (Nat.digitChar m) ≠ some '0' := by decide
      exact hall n hlt hn
    · rw [Nat.toDigits_of_base_le (by decide) (by omega),
        List.head?_append_of_ne_nil _ Nat.toDigits_ne_nil]
      exact ih (n / 10) (by omega) (by omega)

/-- **A number reads as written.** -/
theorem number_digits (n : Nat) {rest : List Char} (hr : Ends rest) :
    number (digits n ++ rest) = some (⟨false, n, [], none⟩, rest) := by
  have hall : ∀ c ∈ digits n, isDigit c = true := fun c hc => isDigit_of_mem_digits hc
  have htake : (digits n ++ rest).takeWhile isDigit = digits n := by
    rw [List.takeWhile_append_of_pos hall]
    cases rest with
    | nil => simp
    | cons c rest => simp [(hr c rfl).1]
  have hdrop : (digits n ++ rest).dropWhile isDigit = rest := by
    rw [List.dropWhile_append_of_pos hall]
    cases rest with
    | nil => rfl
    | cons c rest => simp [(hr c rfl).1]
  have hvalue : digitsValue (digits n) = n := by
    rw [digitsValue, digits, ← Nat.ofDigitChars_eq_foldl]
    exact Nat.ofDigitChars_ten_toDigits
  have hwhole : wholePart (digits n ++ rest) = some (n, rest) := by
    unfold wholePart
    rw [htake, hdrop]
    split
    · rename_i hnil
      exact absurd hnil Nat.toDigits_ne_nil
    · rename_i d ds hzero
      have hn : n ≠ 0 := by
        rintro rfl
        simp [digits] at hzero
      exact absurd (by rw [hzero]; rfl) (head?_digits hn)
    · rw [hvalue]
  have hfraction : fractionPart rest = some ([], rest) := by
    unfold fractionPart
    split
    · exact absurd rfl (hr '.' rfl).2.1
    · rfl
  have hexponent : exponentPart rest = some (none, rest) := by
    unfold exponentPart
    cases rest with
    | nil => rfl
    | cons c rest => simp [(hr c rfl).2.2]
  have hunsigned : unsigned false (digits n ++ rest) = some (⟨false, n, [], none⟩, rest) := by
    simp [unsigned, hwhole, hfraction, hexponent]
  unfold number
  split
  · rename_i rest' hminus
    -- The text begins with a digit, not with a sign.
    have hmem : '-' ∈ digits n := by
      cases hd : digits n with
      | nil => exact absurd hd Nat.toDigits_ne_nil
      | cons d ds =>
        rw [hd, List.cons_append] at hminus
        obtain ⟨rfl, -⟩ := List.cons.inj hminus
        exact List.mem_cons_self
    exact absurd (hall _ hmem) (by decide)
  · exact hunsigned

/-! ## Texts -/

mutual

/-- A value as the reader sees it. -/
def tree : Json → Parsed
  | null => .null
  | bool b => .bool b
  | num n => .number ⟨false, n, [], none⟩
  | str s => .string (some s)
  | arr items => .array (trees items)
  | obj members => .object (memberTrees members)

/-- The items of a list as the reader sees them. -/
def trees : List Json → List Parsed
  | [] => []
  | item :: rest => tree item :: trees rest

/-- The members of an object as the reader sees them. -/
def memberTrees : List (String × Json) → List (Option String × Parsed)
  | [] => []
  | (key, value) :: rest => (some key, tree value) :: memberTrees rest

end

/-- Nothing but blanks. -/
def Blank (cs : List Char) : Prop := ∀ c ∈ cs, isSpace c = true

mutual

/-- The texts of a value. -/
inductive Spells : Json → List Char → Prop
  | null : Spells .null "null".toList
  | bool (b : Bool) : Spells (.bool b) (word b)
  | num (n : Nat) : Spells (.num n) (digits n)
  | str (s : String) : Spells (.str s) (quote s)
  | noItems {b} (hb : Blank b) : Spells (.arr []) ('[' :: (b ++ [']']))
  | arr {items cs} (h : SpellsItems items cs) : Spells (.arr items) ('[' :: (cs ++ [']']))
  | noMembers {b} (hb : Blank b) : Spells (.obj []) ('{' :: (b ++ ['}']))
  | obj {members cs} (h : SpellsMembers members cs) : Spells (.obj members) ('{' :: (cs ++ ['}']))

/-- The texts of the items of a list. -/
inductive SpellsItems : List Json → List Char → Prop
  | last {item b cs b'} (hb : Blank b) (h : Spells item cs) (hb' : Blank b') :
    SpellsItems [item] (b ++ cs ++ b')
  | more {item items b cs b' ds} (hb : Blank b) (h : Spells item cs) (hb' : Blank b')
      (hitems : SpellsItems items ds) :
    SpellsItems (item :: items) (b ++ cs ++ (b' ++ ',' :: ds))

/-- The texts of the members of an object. -/
inductive SpellsMembers : List (String × Json) → List Char → Prop
  | last {key value b bk bv cs b'} (hb : Blank b) (hbk : Blank bk) (hbv : Blank bv)
      (h : Spells value cs) (hb' : Blank b') :
    SpellsMembers [(key, value)] (b ++ quote key ++ (bk ++ ':' :: (bv ++ cs ++ b')))
  | more {key value members b bk bv cs b' ds} (hb : Blank b) (hbk : Blank bk) (hbv : Blank bv)
      (h : Spells value cs) (hb' : Blank b') (hmembers : SpellsMembers members ds) :
    SpellsMembers ((key, value) :: members)
      (b ++ quote key ++ (bk ++ ':' :: (bv ++ cs ++ (b' ++ ',' :: ds))))

end

/-! ## Reading a text -/

theorem skipBlanks_append {b : List Char} (hb : Blank b) (cs : List Char) :
    skipBlanks (b ++ cs) = skipBlanks cs := List.dropWhile_append_of_pos hb

theorem skipBlanks_cons {c : Char} (hc : isSpace c = false) (cs : List Char) :
    skipBlanks (c :: cs) = c :: cs := by
  rw [skipBlanks, List.dropWhile_cons_of_neg (by simp [hc])]

theorem skipBlanks_skipBlanks (cs : List Char) : skipBlanks (skipBlanks cs) = skipBlanks cs :=
  List.dropWhile_idempotent _ _

theorem readItems_skipBlanks (fuel : Nat) (cs : List Char) :
    readItems fuel (skipBlanks cs) = readItems fuel cs := by
  have hvalue : ∀ fuel, readValue fuel (skipBlanks cs) = readValue fuel cs := by
    intro fuel
    cases fuel with
    | zero => rfl
    | succ fuel => rw [readValue, readValue, skipBlanks_skipBlanks]
  cases fuel with
  | zero => rfl
  | succ fuel => rw [readItems, readItems, hvalue]

theorem readMembers_skipBlanks (fuel : Nat) (cs : List Char) :
    readMembers fuel (skipBlanks cs) = readMembers fuel cs := by
  cases fuel with
  | zero => rfl
  | succ fuel => rw [readMembers, readMembers, skipBlanks_skipBlanks]

theorem ends_of_space {c : Char} (hc : isSpace c = true) (rest : List Char) :
    Ends (c :: rest) := by
  intro d hd
  obtain rfl : c = d := by simpa using hd
  simp only [isSpace, Bool.or_eq_true, beq_iff_eq] at hc
  obtain ((rfl | rfl) | rfl) | rfl := hc <;> decide

theorem ends_of_blank {b : List Char} (hb : Blank b) {c : Char} (hc : c ∈ [',', ']', '}'])
    (rest : List Char) : Ends (b ++ c :: rest) := by
  cases b with
  | nil =>
    intro d hd
    obtain rfl : c = d := by simpa using hd
    simp only [List.mem_cons, List.not_mem_nil, or_false] at hc
    obtain rfl | rfl | rfl := hc <;> decide
  | cons e b => exact ends_of_space (hb e List.mem_cons_self) _

theorem Spells.head {j : Json} {cs : List Char} (h : Spells j cs) :
    ∃ c t, cs = c :: t ∧ isSpace c = false ∧ c ≠ ']' := by
  cases h with
  | null => exact ⟨_, _, rfl, by decide⟩
  | bool b => cases b <;> exact ⟨_, _, rfl, by decide⟩
  | num n =>
    obtain ⟨c, t, hct⟩ := List.exists_cons_of_ne_nil (Nat.toDigits_ne_nil (n := n) (b := 10))
    have hc : isDigit c = true := isDigit_of_mem_digits (n := n) (by rw [digits, hct]; simp)
    refine ⟨c, t, hct, ?_, by rintro rfl; revert hc; decide⟩
    rw [← Bool.not_eq_true]
    intro hs
    simp only [isSpace, Bool.or_eq_true, beq_iff_eq] at hs
    obtain ((rfl | rfl) | rfl) | rfl := hs <;> revert hc <;> decide
  | str s => exact ⟨_, _, rfl, by decide⟩
  | noItems => exact ⟨_, _, rfl, by decide⟩
  | arr h => exact ⟨_, _, rfl, by decide⟩
  | noMembers => exact ⟨_, _, rfl, by decide⟩
  | obj h => exact ⟨_, _, rfl, by decide⟩

section Read

variable {fuel : Nat} {b cs rest : List Char} (hb : Blank b)
include hb

theorem skipBlanks_quote (s : String) :
    skipBlanks (b ++ quote s ++ rest) = '"' :: (s.toList.flatMap escapeChar ++ '"' :: rest) := by
  rw [List.append_assoc, skipBlanks_append hb, quote, List.cons_append, List.cons_append,
    skipBlanks_cons (by decide), List.append_assoc, List.singleton_append]

theorem readValue_number (n : Nat) (hr : Ends rest) :
    readValue (fuel + 1) (b ++ digits n ++ rest) = some ((num n).tree, rest) := by
  obtain ⟨c, t, hct, hspace, -⟩ := (Spells.num n).head
  have hc : isDigit c = true := isDigit_of_mem_digits (n := n) (by rw [hct]; simp)
  have hnumber := number_digits n hr
  rw [hct, List.cons_append] at hnumber
  have hskip : skipBlanks (b ++ digits n ++ rest) = c :: (t ++ rest) := by
    rw [List.append_assoc, skipBlanks_append hb, hct, List.cons_append, skipBlanks_cons hspace]
  -- No other form of a value begins with a digit.
  have hne : ∀ d, isDigit d = false → c ≠ d := by
    rintro d hd rfl
    rw [hc] at hd
    cases hd
  rw [readValue, hskip]
  split
  all_goals first
    | (rename_i heq; exact absurd (List.cons.inj heq).1 (hne _ (by decide)))
    | skip
  rw [hnumber]
  rfl

theorem readValue_array {ps : List Parsed} {t : List Char} {c : Char}
    (hskip : skipBlanks cs = c :: t) (hc : c ≠ ']')
    (hitems : readItems fuel cs = some (ps, rest)) :
    readValue (fuel + 1) (b ++ '[' :: cs) = some (.array ps, rest) := by
  rw [← readItems_skipBlanks, hskip] at hitems
  simp only [readValue, skipBlanks_append hb, skipBlanks_cons (c := '[') (by decide), hskip]
  split
  · rename_i heq
    exact absurd (List.cons.inj heq).1 hc
  · rw [hitems, Option.map_some]

theorem readValue_object {ps : List (Option String × Parsed)} {t : List Char}
    (hskip : skipBlanks cs = '"' :: t) (hmembers : readMembers fuel cs = some (ps, rest)) :
    readValue (fuel + 1) (b ++ '{' :: cs) = some (.object ps, rest) := by
  rw [← readMembers_skipBlanks, hskip] at hmembers
  simp only [readValue, skipBlanks_append hb, skipBlanks_cons (c := '{') (by decide), hskip]
  split
  · rename_i heq
    exact absurd (List.cons.inj heq).1 (by decide)
  · rw [hmembers, Option.map_some]

end Read

theorem SpellsItems.skipBlanks {items : List Json} {cs : List Char} (h : SpellsItems items cs)
    (rest : List Char) : ∃ c t, Json.skipBlanks (cs ++ rest) = c :: t ∧ c ≠ ']' := by
  have hitem : ∀ {item : Json} {b ds : List Char} (rest : List Char), Blank b → Spells item ds →
      ∃ c t, Json.skipBlanks (b ++ ds ++ rest) = c :: t ∧ c ≠ ']' := by
    intro item b ds rest hb hds
    obtain ⟨c, t, rfl, hspace, hc⟩ := hds.head
    refine ⟨c, t ++ rest, ?_, hc⟩
    rw [List.append_assoc, skipBlanks_append hb, List.cons_append, skipBlanks_cons hspace]
  cases h with
  | last hb h =>
    rw [List.append_assoc]
    exact hitem _ hb h
  | more hb h =>
    rw [List.append_assoc]
    exact hitem _ hb h

theorem SpellsMembers.skipBlanks {members : List (String × Json)} {cs : List Char}
    (h : SpellsMembers members cs) (rest : List Char) :
    ∃ t, Json.skipBlanks (cs ++ rest) = '"' :: t := by
  cases h with
  | last hb =>
    rw [List.append_assoc]
    exact ⟨_, skipBlanks_quote hb _⟩
  | more hb =>
    rw [List.append_assoc]
    exact ⟨_, skipBlanks_quote hb _⟩

mutual

/-- **The reader finds the value of every text.** -/
theorem readValue_of_spells {j : Json} {cs : List Char} (h : Spells j cs) (fuel : Nat)
    (hf : cs.length < fuel) {b rest : List Char} (hb : Blank b) (hr : Ends rest) :
    readValue fuel (b ++ cs ++ rest) = some (j.tree, rest) := by
  obtain ⟨fuel, rfl⟩ : ∃ f, fuel = f + 1 := ⟨fuel - 1, by omega⟩
  cases h with
  | null => rw [readValue, List.append_assoc, skipBlanks_append hb]; rfl
  | bool b => cases b <;> rw [readValue, List.append_assoc, skipBlanks_append hb] <;> rfl
  | num n => exact readValue_number hb n hr
  | str s => simp only [readValue, skipBlanks_quote hb, stringRest_escape, Option.map_some, tree]
  | noItems hb' =>
    simp [readValue, skipBlanks_append hb, skipBlanks_append hb', skipBlanks_cons, isSpace, tree,
      trees]
  | arr h =>
    simp only [List.length_append, List.length_cons, List.length_nil] at hf
    obtain ⟨c, t, hskip, hc⟩ := h.skipBlanks (']' :: rest)
    have hitems := readItems_of_spells h fuel (by omega) rest
    simpa [List.append_assoc, tree] using readValue_array hb hskip hc hitems
  | noMembers hb' =>
    simp [readValue, skipBlanks_append hb, skipBlanks_append hb', skipBlanks_cons, isSpace, tree,
      memberTrees]
  | obj h =>
    simp only [List.length_append, List.length_cons, List.length_nil] at hf
    obtain ⟨t, hskip⟩ := h.skipBlanks ('}' :: rest)
    have hmembers := readMembers_of_spells h fuel (by omega) rest
    simpa [List.append_assoc, tree] using readValue_object hb hskip hmembers

theorem readItems_of_spells {items : List Json} {cs : List Char} (h : SpellsItems items cs)
    (fuel : Nat) (hf : cs.length + 1 < fuel) (rest : List Char) :
    readItems fuel (cs ++ ']' :: rest) = some (trees items, rest) := by
  obtain ⟨fuel, rfl⟩ : ∃ f, fuel = f + 1 := ⟨fuel - 1, by omega⟩
  cases h with
  | last hb h hb' =>
    simp only [List.length_append] at hf
    have hvalue := readValue_of_spells h fuel (by omega) hb
      (ends_of_blank hb' (c := ']') (by simp) rest)
    rw [readItems, List.append_assoc, hvalue]
    simp only [skipBlanks_append hb', skipBlanks_cons (c := ']') (by decide), trees]
  | @more _ _ _ _ _ ds hb h hb' hitems =>
    simp only [List.length_append, List.length_cons] at hf
    have hvalue := readValue_of_spells h fuel (by omega) hb
      (ends_of_blank hb' (c := ',') (by simp) (ds ++ ']' :: rest))
    have hnext := readItems_of_spells hitems fuel (by omega) rest
    rw [List.append_assoc] at hvalue
    simp only [readItems, List.append_assoc, List.cons_append, hvalue, skipBlanks_append hb',
      skipBlanks_cons (c := ',') (by decide), hnext, Option.map_some, trees]

theorem readMembers_of_spells {members : List (String × Json)} {cs : List Char}
    (h : SpellsMembers members cs) (fuel : Nat) (hf : cs.length + 1 < fuel) (rest : List Char) :
    readMembers fuel (cs ++ '}' :: rest) = some (memberTrees members, rest) := by
  obtain ⟨fuel, rfl⟩ : ∃ f, fuel = f + 1 := ⟨fuel - 1, by omega⟩
  cases h with
  | last hb hbk hbv h hb' =>
    simp only [List.length_append, List.length_cons] at hf
    have hvalue := readValue_of_spells h fuel (by omega) hbv
      (ends_of_blank hb' (c := '}') (by simp) rest)
    rw [List.append_assoc] at hvalue
    rw [readMembers, List.append_assoc, skipBlanks_quote hb]
    simp only [stringRest_escape, List.append_assoc, List.cons_append, skipBlanks_append hbk,
      skipBlanks_cons (c := ':') (by decide), hvalue, skipBlanks_append hb',
      skipBlanks_cons (c := '}') (by decide), memberTrees]
  | @more _ _ _ _ _ _ _ _ ds hb hbk hbv h hb' hmembers =>
    simp only [List.length_append, List.length_cons] at hf
    have hvalue := readValue_of_spells h fuel (by omega) hbv
      (ends_of_blank hb' (c := ',') (by simp) (ds ++ '}' :: rest))
    have hnext := readMembers_of_spells hmembers fuel (by omega) rest
    rw [List.append_assoc] at hvalue
    rw [readMembers, List.append_assoc, skipBlanks_quote hb]
    simp only [stringRest_escape, List.append_assoc, List.cons_append, skipBlanks_append hbk,
      skipBlanks_cons (c := ':') (by decide), hvalue, skipBlanks_append hb',
      skipBlanks_cons (c := ',') (by decide), hnext, Option.map_some, memberTrees]

end

/-- **A text with blanks around it reads as its value.** -/
theorem parse?_of_spells {j : Json} {cs : List Char} (h : Spells j cs) {b b' : List Char}
    (hb : Blank b) (hb' : Blank b') :
    parse? (String.ofList (b ++ cs ++ b')) = some j.tree := by
  have hends : Ends b' := by
    cases b' with
    | nil => simp [Ends]
    | cons c b' => exact ends_of_space (hb' c List.mem_cons_self) b'
  have hread := readValue_of_spells h (2 * (b ++ cs ++ b').length + 2)
    (by simp only [List.length_append]; omega) hb hends
  have hskip : skipBlanks b' = [] := List.dropWhile_eq_nil_iff.2 hb'
  simp only [parse?, String.toList_ofList, hread, hskip, List.isEmpty_nil, if_true]

/-! ## Texts that are written -/

theorem blank_nil : Blank [] := by simp [Blank]

theorem blank_space : Blank [' '] := by simp [Blank, isSpace]

theorem blank_newline (level : Nat) : Blank (newline level) := by
  intro c hc
  rw [newline, List.mem_cons, List.mem_replicate] at hc
  obtain rfl | ⟨-, rfl⟩ := hc <;> rfl

mutual

theorem spells_prettyChars (level : Nat) : (j : Json) → Spells j (j.prettyChars level)
  | null => .null
  | bool b => .bool b
  | num n => .num n
  | str s => .str s
  | arr [] => .noItems blank_nil
  | arr (item :: items) => by
    have h := spellsItems_pretty (level + 1) (item :: items) (by simp) (blank_newline (level + 1))
      (blank_newline level)
    simpa [prettyChars] using Spells.arr h
  | obj [] => .noMembers blank_nil
  | obj (member :: members) => by
    have h := spellsMembers_pretty (level + 1) (member :: members) (by simp)
      (blank_newline (level + 1)) (blank_newline level)
    simpa [prettyChars] using Spells.obj h

theorem spellsItems_pretty (level : Nat) {b b' : List Char} : (items : List Json) → items ≠ [] →
    Blank b → Blank b' → SpellsItems items (b ++ prettyItems level items ++ b')
  | [], h, _, _ => absurd rfl h
  | [item], _, hb, hb' => .last hb (spells_prettyChars level item) hb'
  | item :: next :: items, _, hb, hb' => by
    have h := spells_prettyChars level item
    have hnext := spellsItems_pretty level (next :: items) (by simp) (blank_newline level) hb'
    simpa [prettyItems] using SpellsItems.more hb h blank_nil hnext

theorem spellsMembers_pretty (level : Nat) {b b' : List Char} :
    (members : List (String × Json)) → members ≠ [] → Blank b → Blank b' →
    SpellsMembers members (b ++ prettyMembers level members ++ b')
  | [], h, _, _ => absurd rfl h
  | [(key, value)], _, hb, hb' => by
    have h := spells_prettyChars level value
    simpa [prettyMembers] using SpellsMembers.last hb blank_nil blank_space h hb'
  | (key, value) :: next :: members, _, hb, hb' => by
    have h := spells_prettyChars level value
    have hnext := spellsMembers_pretty level (next :: members) (by simp) (blank_newline level) hb'
    simpa [prettyMembers] using SpellsMembers.more hb blank_nil blank_space h blank_nil hnext

end

/-- **The indented text of a value reads as the value.** -/
theorem parse?_pretty (j : Json) : parse? j.pretty = some j.tree := by
  have h := parse?_of_spells (spells_prettyChars 0 j) blank_nil blank_nil
  rwa [List.nil_append, List.append_nil] at h

mutual

theorem spells_compactChars : (j : Json) → Spells j j.compactChars
  | null => .null
  | bool b => .bool b
  | num n => .num n
  | str s => .str s
  | arr [] => .noItems blank_nil
  | arr (item :: items) => .arr (spellsItems_compact (item :: items) (by simp))
  | obj [] => .noMembers blank_nil
  | obj (member :: members) => .obj (spellsMembers_compact (member :: members) (by simp))

theorem spellsItems_compact : (items : List Json) → items ≠ [] →
    SpellsItems items (compactItems items)
  | [], h => absurd rfl h
  | [item], _ => by
    simpa [compactItems] using SpellsItems.last blank_nil (spells_compactChars item) blank_nil
  | item :: next :: items, _ => by
    have hnext := spellsItems_compact (next :: items) (by simp)
    simpa [compactItems] using
      SpellsItems.more blank_nil (spells_compactChars item) blank_nil hnext

theorem spellsMembers_compact : (members : List (String × Json)) → members ≠ [] →
    SpellsMembers members (compactMembers members)
  | [], h => absurd rfl h
  | [(key, value)], _ => by
    have h := spells_compactChars value
    simpa [compactMembers] using SpellsMembers.last blank_nil blank_nil blank_nil h blank_nil
  | (key, value) :: next :: members, _ => by
    have h := spells_compactChars value
    have hnext := spellsMembers_compact (next :: members) (by simp)
    simpa [compactMembers] using
      SpellsMembers.more blank_nil blank_nil blank_nil h blank_nil hnext

end

/-- **The compact text of a value reads as the value.** -/
theorem parse?_compact (j : Json) : parse? j.compact = some j.tree := by
  have h := parse?_of_spells (spells_compactChars j) blank_nil blank_nil
  rwa [List.nil_append, List.append_nil] at h

end CodeGraph.Json
