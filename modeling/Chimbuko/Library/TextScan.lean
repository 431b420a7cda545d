import Mathlib.Algebra.Ring.Nat
import Mathlib.Data.List.Infix
import Mathlib.Data.List.TakeWhile
import Mathlib.Data.Int.Order.Basic

/-!
# Scanning text

Decimal numerals as they are written, the conversions of the C++ library that read them from the
start of a text, and where a word can occur in a text that is put together from parts.
-/

namespace TextScan

/-- White space: the blank, and the characters from the tab to the carriage return. -/
def isSpace (c : Char) : Bool := c.toNat = 32 ∨ 9 ≤ c.toNat ∧ c.toNat ≤ 13

/-- The characters that end a line. -/
def isLineEnd (c : Char) : Bool := c.toNat = 10 ∨ c.toNat = 13

/-- The number that digits stand for. -/
def decimalValue (digits : List Char) : ℕ :=
  digits.foldl (fun acc c => 10 * acc + (c.toNat - 48)) 0

/-- A text of digits. -/
structure Digits where
  chars : List Char
  ne_nil : chars ≠ []
  isDigit : ∀ c ∈ chars, c.isDigit = true

/-- The number that digits stand for. -/
def Digits.value (d : Digits) : ℕ := decimalValue d.chars

/-- A decimal integer as it is written. -/
structure DecimalInteger where
  negative : Bool
  digits : Digits

namespace DecimalInteger

/-- The text of an integer. -/
def text (k : DecimalInteger) : List Char :=
  if k.negative then '-' :: k.digits.chars else k.digits.chars

/-- The integer of a text. -/
def value (k : DecimalInteger) : ℤ :=
  if k.negative then -(k.digits.value : ℤ) else k.digits.value

/-- The integer fits into 32 bits. -/
def FitsInt (k : DecimalInteger) : Prop := -2147483648 ≤ k.value ∧ k.value ≤ 2147483647

instance (k : DecimalInteger) : Decidable k.FitsInt := inferInstanceAs (Decidable (_ ∧ _))

end DecimalInteger

/-- The integer at the start of a text, after white space. What follows it is ignored. -/
def stoi (s : List Char) : Except String ℤ :=
  let s := s.dropWhile isSpace
  let (negative, s) : Bool × List Char := match s with
    | '-' :: rest => (true, rest)
    | '+' :: rest => (false, rest)
    | s => (false, s)
  let digits := s.takeWhile Char.isDigit
  if digits = [] then throw "stoi"
  else
    let value : ℤ := if negative then -(decimalValue digits : ℤ) else decimalValue digits
    if value < -2147483648 ∨ 2147483647 < value then throw "stoi" else pure value

/-- The number of a text of digits. -/
def stoul (digits : List Char) : Except String ℕ :=
  if 2 ^ 64 ≤ decimalValue digits then throw "stoul" else pure (decimalValue digits)

section Scan

/-- A digit lies between `0` and `9`. -/
theorem isDigit_iff {c : Char} : c.isDigit = true ↔ 48 ≤ c.toNat ∧ c.toNat ≤ 57 := by
  rw [Char.isDigit, Bool.and_eq_true, decide_eq_true_eq, decide_eq_true_eq]
  exact Iff.rfl

/-- A digit is no space. -/
theorem not_isSpace_of_isDigit {c : Char} (h : c.isDigit = true) : isSpace c = false := by
  rw [isDigit_iff] at h
  rw [isSpace, decide_eq_false_iff_not]
  omega

/-- Digits are read up to the first other character. -/
theorem scan_digits {digits : List Char} (hdigits : ∀ c ∈ digits, c.isDigit = true) {c : Char}
    (hc : c.isDigit = false) (rest : List Char) :
    (digits ++ c :: rest).takeWhile Char.isDigit = digits ∧
      (digits ++ c :: rest).dropWhile Char.isDigit = c :: rest := by
  rw [List.takeWhile_append_of_pos hdigits, List.dropWhile_append_of_pos hdigits]
  constructor
  · rw [List.takeWhile_cons_of_neg (by simp [hc]), List.append_nil]
  · rw [List.dropWhile_cons_of_neg (by simp [hc])]

/-- A text of a decimal integer after a blank is read if the integer fits. -/
theorem stoi_text (k : DecimalInteger) :
    stoi (' ' :: k.text) = if k.FitsInt then .ok k.value else .error "stoi" := by
  obtain ⟨negative, ⟨digits, hne, hdigits⟩⟩ := k
  have htake : digits.takeWhile Char.isDigit = digits := List.takeWhile_eq_self_iff.mpr hdigits
  have hrange : ∀ v : ℤ, (if v < -2147483648 ∨ 2147483647 < v then
      (throw "stoi" : Except String ℤ) else pure v) =
        if -2147483648 ≤ v ∧ v ≤ 2147483647 then .ok v else .error "stoi" := by
    intro v
    by_cases hv : v < -2147483648 ∨ 2147483647 < v
    · rw [if_pos hv, if_neg (by omega)]
      rfl
    · rw [if_neg hv, if_pos (by omega)]
      rfl
  cases negative with
  | true =>
    have hspace : (' ' :: '-' :: digits).dropWhile isSpace = '-' :: digits := rfl
    unfold stoi DecimalInteger.text
    simp only [if_true, hspace, htake, if_neg hne, hrange]
    rfl
  | false =>
    cases digits with
    | nil => exact absurd rfl hne
    | cons d rest =>
      have hd : d.isDigit = true := hdigits d List.mem_cons_self
      have hspace : (' ' :: d :: rest).dropWhile isSpace = d :: rest := by
        rw [List.dropWhile_cons_of_pos (by decide),
          List.dropWhile_cons_of_neg (by simp [not_isSpace_of_isDigit hd])]
      have hsign : d ≠ '-' ∧ d ≠ '+' := by
        constructor
        · rintro rfl
          exact absurd hd (by decide)
        · rintro rfl
          exact absurd hd (by decide)
      unfold stoi DecimalInteger.text
      simp only [Bool.false_eq_true, if_false, hspace]
      split
      · rename_i heq
        cases heq
        exact absurd rfl hsign.1
      · rename_i heq
        cases heq
        exact absurd rfl hsign.2
      · rw [htake, if_neg hne]
        exact hrange _

/-- A text of digits is read if its number fits. -/
theorem stoul_chars (d : Digits) :
    stoul d.chars = if d.value < 2 ^ 64 then .ok d.value else .error "stoul" := by
  unfold stoul Digits.value
  by_cases h : decimalValue d.chars < 2 ^ 64
  · rw [if_pos h, if_neg (by omega)]
    rfl
  · rw [if_neg h, if_pos (by omega)]
    rfl

/-- A number that was read fits into 64 bits. -/
theorem stoul_lt {digits : List Char} {n : ℕ} (h : stoul digits = .ok n) : n < 2 ^ 64 := by
  unfold stoul at h
  split at h
  · cases h
  · cases h
    omega

end Scan

section Occurrence

variable {α : Type*} {w a b : List α}

/-- A word without the separator of two parts of a text occurs in one of them. -/
theorem infix_of_separated {c : α} (hc : c ∉ w) (h : w <:+: a ++ c :: b) :
    w <:+: a ∨ w <:+: b := by
  obtain ⟨s, t, heq⟩ := h
  rcases List.append_eq_append_iff.mp heq with ⟨a', ha, -⟩ | ⟨b', hs, hb⟩
  · exact Or.inl ⟨s, a', ha.symm⟩
  cases b' with
  | nil =>
    rw [List.append_nil] at hs
    exact Or.inl ⟨s, [], by rw [List.append_nil, hs]⟩
  | cons x rest =>
    rw [List.cons_append, List.cons.injEq] at hb
    obtain ⟨rfl, hb⟩ := hb
    rcases List.append_eq_append_iff.mp hs with ⟨w', -, hw⟩ | ⟨s', -, hs'⟩
    · rw [hw] at hc
      exact absurd (List.mem_append_right w' List.mem_cons_self) hc
    · cases s' with
      | nil =>
        rw [List.nil_append] at hs'
        rw [← hs'] at hc
        exact absurd List.mem_cons_self hc
      | cons y s' =>
        rw [List.cons_append, List.cons.injEq] at hs'
        exact Or.inr ⟨s', t, by rw [hb, hs'.2]⟩

end Occurrence

section Stream

/-- Numbers as a stream writes them, with a blank between two of them. -/
def writeNats (ns : List ℕ) : List Char := [' '].intercalate (ns.map (Nat.toDigits 10))

/-- Extract an integer from a stream, which fails where there is none that fits into 32 bits. -/
def readInt (s : List Char) : Option (ℤ × List Char) :=
  let s := s.dropWhile isSpace
  let (negative, s) : Bool × List Char := match s with
    | '-' :: rest => (true, rest)
    | '+' :: rest => (false, rest)
    | s => (false, s)
  let digits := s.takeWhile Char.isDigit
  let value : ℤ := if negative then -(decimalValue digits : ℤ) else decimalValue digits
  if digits = [] ∨ value < -2147483648 ∨ 2147483647 < value then none
  else some (value, s.dropWhile Char.isDigit)

/-- Extract so many integers from a stream. -/
def readInts : ℕ → List Char → Option (List ℤ)
  | 0, _ => some []
  | k + 1, s => do
    let (value, rest) ← readInt s
    let values ← readInts k rest
    pure (value :: values)

/-- The digits of a number stand for it. -/
theorem decimalValue_toDigits (n : ℕ) : decimalValue (Nat.toDigits 10 n) = n :=
  Nat.ofDigitChars_ten_toDigits

/-- Digits are read up to the end of the text or another character. -/
theorem scan_digits_head {digits : List Char} (hdigits : ∀ c ∈ digits, c.isDigit = true)
    {rest : List Char} (hrest : ∀ c ∈ rest.head?, c.isDigit = false) :
    (digits ++ rest).takeWhile Char.isDigit = digits ∧
      (digits ++ rest).dropWhile Char.isDigit = rest := by
  cases rest with
  | nil =>
    rw [List.append_nil]
    exact ⟨List.takeWhile_eq_self_iff.mpr hdigits, List.dropWhile_eq_nil_iff.mpr hdigits⟩
  | cons c rest => exact scan_digits hdigits (hrest c rfl) rest

/-- A blank in front of an integer is skipped. -/
theorem readInt_blank (s : List Char) : readInt (' ' :: s) = readInt s := by
  unfold readInt
  rw [List.dropWhile_cons_of_pos (by decide)]

/-- A number that is written is extracted if it fits. -/
theorem readInt_toDigits {n : ℕ} (hfits : n ≤ 2147483647) {rest : List Char}
    (hrest : ∀ c ∈ rest.head?, c.isDigit = false) :
    readInt (Nat.toDigits 10 n ++ rest) = some ((n : ℤ), rest) := by
  have hdigits : ∀ c ∈ Nat.toDigits 10 n, c.isDigit = true := fun c hc =>
    Nat.isDigit_of_mem_toDigits (by decide) (by decide) hc
  have hvalue := decimalValue_toDigits n
  obtain ⟨htake, hdrop⟩ := scan_digits_head hdigits hrest
  cases hcase : Nat.toDigits 10 n with
  | nil => exact absurd hcase Nat.toDigits_ne_nil
  | cons d ds =>
    rw [hcase] at hdigits hvalue htake hdrop
    have hd : d.isDigit = true := hdigits d List.mem_cons_self
    have hspace : ((d :: ds) ++ rest).dropWhile isSpace = d :: (ds ++ rest) := by
      rw [List.cons_append, List.dropWhile_cons_of_neg (by simp [not_isSpace_of_isDigit hd])]
    unfold readInt
    simp only [hspace]
    split
    · rename_i heq
      cases heq
      exact absurd hd (by decide)
    · rename_i heq
      cases heq
      exact absurd hd (by decide)
    · rw [← List.cons_append, htake, hdrop, hvalue]
      simp only [Bool.false_eq_true, if_false]
      rw [if_neg]
      rintro (hnil | hlow | hhigh)
      · cases hnil
      · omega
      · omega

/-- The first numbers that are written are extracted if they fit. -/
theorem readInts_writeNats {ns : List ℕ} (hfits : ∀ n ∈ ns, n ≤ 2147483647) {k : ℕ}
    (hk : k ≤ ns.length) : readInts k (writeNats ns) = some ((ns.take k).map Nat.cast) := by
  induction ns generalizing k with
  | nil =>
    rw [Nat.le_zero.mp hk]
    rfl
  | cons n rest ih =>
    cases k with
    | zero => rfl
    | succ k =>
      have hn := hfits n List.mem_cons_self
      have hrest := ih (fun m hm => hfits m (List.mem_cons_of_mem n hm)) (Nat.le_of_succ_le_succ hk)
      cases rest with
      | nil =>
        have hzero : k = 0 := by
          simp only [List.length_cons, List.length_nil] at hk
          omega
        have hread := @readInt_toDigits n hn [] (by simp)
        rw [List.append_nil] at hread
        subst hzero
        unfold writeNats readInts
        rw [List.map_cons, List.map_nil, List.intercalate_singleton, hread]
        rfl
      | cons m ms =>
        have hread := @readInt_toDigits n hn (' ' :: writeNats (m :: ms)) (by simp)
        have htext : writeNats (n :: m :: ms) =
            Nat.toDigits 10 n ++ ' ' :: writeNats (m :: ms) := by
          unfold writeNats
          rw [List.map_cons, List.map_cons, List.intercalate_cons_cons, List.append_assoc]
          rfl
        have hblank :
            readInts k (' ' :: writeNats (m :: ms)) = readInts k (writeNats (m :: ms)) := by
          cases k with
          | zero => rfl
          | succ k =>
            unfold readInts
            rw [readInt_blank]
        rw [readInts, htext, hread]
        change (readInts k (' ' :: writeNats (m :: ms))).bind (fun values =>
          some ((n : ℤ) :: values)) = _
        rw [hblank, hrest]
        rfl

end Stream

end TextScan
