import RamRestore.Text.Utf8

/-! # JSON tokens

The lexical level of JSON, over bytes. Blanks separate tokens and mean nothing. A string
whose escapes or bytes do not form Unicode text is still a string, only without a text.
-/

namespace RamRestore.Json

/-- A number as it is written: sign, whole part, and whether it is an integer numeral. -/
structure Numeral where
  negative : Bool
  whole : Nat
  integer : Bool
  deriving DecidableEq, Repr

def Numeral.natural? (n : Numeral) : Option Nat :=
  if n.integer && !n.negative then some n.whole else none

inductive Token where
  | openBrace
  | closeBrace
  | openBracket
  | closeBracket
  | colon
  | comma
  | null
  | bool (b : Bool)
  | number (n : Numeral)
  | string (text : Option String)
  deriving DecidableEq, Repr

namespace Token

def isBlank (b : UInt8) : Bool := b = 0x20 || b = 0x09 || b = 0x0A || b = 0x0D

def isDigit (b : UInt8) : Bool := 0x30 ≤ b && b ≤ 0x39

def hexDigit? (b : UInt8) : Option Nat :=
  if 0x30 ≤ b ∧ b ≤ 0x39 then some (b.toNat - 0x30)
  else if 0x41 ≤ b ∧ b ≤ 0x46 then some (b.toNat - 0x41 + 10)
  else if 0x61 ≤ b ∧ b ≤ 0x66 then some (b.toNat - 0x61 + 10)
  else none

/-- The unit of 16 bits that four hexadecimal digits write. -/
def unit? (a b c d : UInt8) : Option Nat := do
  let a ← hexDigit? a
  let b ← hexDigit? b
  let c ← hexDigit? c
  let d ← hexDigit? d
  pure (((a * 16 + b) * 16 + c) * 16 + d)

/-- The byte that a backslash and `b` stand for, where they stand for one. -/
def escape? (b : UInt8) : Option UInt8 :=
  if b = 0x22 ∨ b = 0x5C ∨ b = 0x2F then some b
  else if b = 0x62 then some 0x08
  else if b = 0x66 then some 0x0C
  else if b = 0x6E then some 0x0A
  else if b = 0x72 then some 0x0D
  else if b = 0x74 then some 0x09
  else none

/--
What a string holds so far: the bytes of its text, last one first; a leading surrogate
that waits for its other half; and whether all of it is text.
-/
structure Content where
  bytes : List UInt8 := []
  leading : Option Nat := none
  wellFormed : Bool := true

namespace Content

def push (c : Content) (b : UInt8) : Content :=
  { bytes := b :: c.bytes, leading := none, wellFormed := c.wellFormed && c.leading.isNone }

/-- Adds the unit of an escape. A leading surrogate has to meet a trailing one next. -/
def pushUnit (c : Content) (u : Nat) : Content :=
  match c.leading with
  | none =>
    if 0xD800 ≤ u ∧ u ≤ 0xDBFF then { c with leading := some u }
    else if 0xDC00 ≤ u ∧ u ≤ 0xDFFF then { c with wellFormed := false }
    else { c with bytes := (String.utf8EncodeChar (Char.ofNat u)).reverse ++ c.bytes }
  | some l =>
    if 0xDC00 ≤ u ∧ u ≤ 0xDFFF then
      let char := Char.ofNat (0x10000 + (l - 0xD800) * 0x400 + (u - 0xDC00))
      { c with bytes := (String.utf8EncodeChar char).reverse ++ c.bytes, leading := none }
    else { bytes := c.bytes, wellFormed := false }

def text? (c : Content) : Option String :=
  if c.wellFormed && c.leading.isNone then Text.decode? c.bytes.reverse else none

end Content

def lexString (c : Content) : List UInt8 → Option (Option String × List UInt8)
  | [] => none
  | b :: rest =>
    if b = 0x22 then some (c.text?, rest)
    else if b < 0x20 then none
    else if b = 0x5C then
      match rest with
      | 0x75 :: h₁ :: h₂ :: h₃ :: h₄ :: rest =>
        match unit? h₁ h₂ h₃ h₄ with
        | none => none
        | some u => lexString (c.pushUnit u) rest
      | e :: rest =>
        match escape? e with
        | none => none
        | some b => lexString (c.push b) rest
      | [] => none
    else lexString (c.push b) rest

def ofDigits (digits : List UInt8) : Nat :=
  digits.foldl (fun n d => 10 * n + (d.toNat - 0x30)) 0

/-- The whole part of a number: a zero alone, or digits that start with another. -/
def lexWhole (bytes : List UInt8) : Option (Nat × List UInt8) :=
  match bytes with
  | 0x30 :: rest => some (0, rest)
  | _ =>
    match bytes.takeWhile isDigit with
    | [] => none
    | digits => some (ofDigits digits, bytes.dropWhile isDigit)

def skipDigits (bytes : List UInt8) : Option (List UInt8) :=
  match bytes.takeWhile isDigit with
  | [] => none
  | _ => some (bytes.dropWhile isDigit)

def skipFraction : List UInt8 → Option (List UInt8)
  | 0x2E :: rest => skipDigits rest
  | bytes => some bytes

def skipExponent : List UInt8 → Option (List UInt8)
  | [] => some []
  | b :: rest =>
    if b = 0x65 ∨ b = 0x45 then
      match rest with
      | [] => none
      | s :: digits => if s = 0x2B ∨ s = 0x2D then skipDigits digits else skipDigits (s :: digits)
    else some (b :: rest)

def lexNumber (negative : Bool) (bytes : List UInt8) : Option (Numeral × List UInt8) := do
  let (whole, behindWhole) ← lexWhole bytes
  let behindFraction ← skipFraction behindWhole
  let rest ← skipExponent behindFraction
  pure (⟨negative, whole, rest.length = behindWhole.length⟩, rest)

/-- Reads the token at the head of the bytes, which are not blank there. -/
def next : List UInt8 → Option (Token × List UInt8)
  | 0x7B :: rest => some (.openBrace, rest)
  | 0x7D :: rest => some (.closeBrace, rest)
  | 0x5B :: rest => some (.openBracket, rest)
  | 0x5D :: rest => some (.closeBracket, rest)
  | 0x3A :: rest => some (.colon, rest)
  | 0x2C :: rest => some (.comma, rest)
  | 0x22 :: rest => (lexString {} rest).map fun (text, rest) => (.string text, rest)
  | 0x6E :: 0x75 :: 0x6C :: 0x6C :: rest => some (.null, rest)
  | 0x74 :: 0x72 :: 0x75 :: 0x65 :: rest => some (.bool true, rest)
  | 0x66 :: 0x61 :: 0x6C :: 0x73 :: 0x65 :: rest => some (.bool false, rest)
  | 0x2D :: rest => (lexNumber true rest).map fun (n, rest) => (.number n, rest)
  | bytes => (lexNumber false bytes).map fun (n, rest) => (.number n, rest)

theorem length_lexString_le (c : Content) (bytes : List UInt8) {text : Option String}
    {rest : List UInt8} (h : lexString c bytes = some (text, rest)) :
    rest.length ≤ bytes.length := by
  fun_induction lexString c bytes <;> simp_all <;> omega

theorem length_lexWhole_lt {bytes rest : List UInt8} {n : Nat}
    (h : lexWhole bytes = some (n, rest)) : rest.length < bytes.length := by
  unfold lexWhole at h
  split at h
  · simp_all
  · split at h
    · simp at h
    · rename_i hne
      simp only [Option.some.injEq, Prod.mk.injEq] at h
      have hsum := congrArg List.length
        (List.takeWhile_append_dropWhile (p := isDigit) (l := bytes))
      have hpos := List.length_pos_iff.2 hne
      rw [List.length_append] at hsum
      rw [← h.2]
      omega

theorem length_skipDigits_le {bytes rest : List UInt8} (h : skipDigits bytes = some rest) :
    rest.length ≤ bytes.length := by
  unfold skipDigits at h
  split at h
  · simp at h
  · simp only [Option.some.injEq] at h
    rw [← h]
    exact (List.dropWhile_sublist _).length_le

theorem length_skipFraction_le {bytes rest : List UInt8} (h : skipFraction bytes = some rest) :
    rest.length ≤ bytes.length := by
  unfold skipFraction at h
  split at h
  · exact Nat.le_succ_of_le (length_skipDigits_le h)
  · simp_all

theorem length_skipExponent_le {bytes rest : List UInt8} (h : skipExponent bytes = some rest) :
    rest.length ≤ bytes.length := by
  unfold skipExponent at h
  split at h
  · simp_all
  · split at h
    · split at h
      · simp at h
      · split at h
        · have := length_skipDigits_le h
          simp only [List.length_cons]
          omega
        · exact Nat.le_succ_of_le (length_skipDigits_le h)
    · simp_all

theorem length_lexNumber_lt {negative : Bool} {bytes rest : List UInt8} {n : Numeral}
    (h : lexNumber negative bytes = some (n, rest)) : rest.length < bytes.length := by
  simp only [lexNumber, Option.bind_eq_bind, Option.bind_eq_some_iff, Option.pure_def,
    Option.some.injEq, Prod.mk.injEq, Prod.exists] at h
  obtain ⟨_, _, h₁, _, h₂, _, h₃, _, rfl⟩ := h
  have := length_lexWhole_lt h₁
  have := length_skipFraction_le h₂
  have := length_skipExponent_le h₃
  omega

theorem length_next_lt {bytes rest : List UInt8} {token : Token}
    (h : next bytes = some (token, rest)) : rest.length < bytes.length := by
  unfold next at h
  split at h
  case h_7 =>
    obtain ⟨⟨text, r⟩, hs, hr⟩ := Option.map_eq_some_iff.1 h
    have := length_lexString_le _ _ hs
    simp only [Prod.mk.injEq] at hr
    rw [← hr.2, List.length_cons]
    omega
  case h_11 =>
    obtain ⟨⟨n, r⟩, hs, hr⟩ := Option.map_eq_some_iff.1 h
    have := length_lexNumber_lt hs
    simp only [Prod.mk.injEq] at hr
    rw [← hr.2, List.length_cons]
    omega
  case h_12 =>
    obtain ⟨⟨n, r⟩, hs, hr⟩ := Option.map_eq_some_iff.1 h
    have := length_lexNumber_lt hs
    simp only [Prod.mk.injEq] at hr
    rw [← hr.2]
    omega
  all_goals
    simp only [Option.some.injEq, Prod.mk.injEq] at h
    rw [← h.2]
    simp only [List.length_cons]
    omega

/-- The tokens of a text, or `none` where some part of it is no token. -/
def lex : List UInt8 → Option (List Token)
  | [] => some []
  | b :: bytes =>
    if isBlank b then lex bytes
    else match _h : next (b :: bytes) with
      | none => none
      | some (token, rest) => (lex rest).map (token :: ·)
termination_by bytes => bytes.length
decreasing_by
  · simp
  · exact length_next_lt _h

end Token
end RamRestore.Json
