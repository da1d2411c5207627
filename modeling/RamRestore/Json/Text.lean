import RamRestore.Json.Value

/-! # JSON texts

A value fixes the tokens of its texts. What a text is free in is how it spells strings and numbers
and where it leaves blanks.
-/

namespace RamRestore.Json

structure HexDigit where
  value : Fin 16
  upper : Bool
  deriving DecidableEq, Repr

def HexDigit.byte (d : HexDigit) : UInt8 :=
  if d.value.val < 10 then UInt8.ofNat (0x30 + d.value)
  else UInt8.ofNat ((if d.upper then 0x41 else 0x61) + (d.value - 10))

structure CodeUnit where
  first : HexDigit
  second : HexDigit
  third : HexDigit
  fourth : HexDigit
  deriving DecidableEq, Repr

namespace CodeUnit

def value (u : CodeUnit) : Nat :=
  u.first.value * 0x1000 + u.second.value * 0x100 + u.third.value * 0x10 + u.fourth.value

def digits (u : CodeUnit) : List UInt8 := [u.first.byte, u.second.byte, u.third.byte, u.fourth.byte]

/-- The first half of a pair that stands for one character. -/
def IsLeading (u : CodeUnit) : Prop := 0xD800 ≤ u.value ∧ u.value ≤ 0xDBFF

def IsTrailing (u : CodeUnit) : Prop := 0xDC00 ≤ u.value ∧ u.value ≤ 0xDFFF

instance (u : CodeUnit) : Decidable u.IsLeading :=
  inferInstanceAs (Decidable (0xD800 ≤ u.value ∧ u.value ≤ 0xDBFF))

instance (u : CodeUnit) : Decidable u.IsTrailing :=
  inferInstanceAs (Decidable (0xDC00 ≤ u.value ∧ u.value ≤ 0xDFFF))

def char (u : CodeUnit) : Char := Char.ofNat u.value

def pairChar (u v : CodeUnit) : Char :=
  Char.ofNat (0x10000 + (u.value - 0xD800) * 0x400 + (v.value - 0xDC00))

end CodeUnit

/-- The characters for which there is a letter behind a backslash. -/
inductive Escape where
  | quote
  | backslash
  | slash
  | backspace
  | formFeed
  | newline
  | carriageReturn
  | tab
  deriving DecidableEq, Repr

namespace Escape

def letter : Escape → UInt8
  | quote => 0x22
  | backslash => 0x5C
  | slash => 0x2F
  | backspace => 0x62
  | formFeed => 0x66
  | newline => 0x6E
  | carriageReturn => 0x72
  | tab => 0x74

def char : Escape → Char
  | quote => Char.ofNat 0x22
  | backslash => Char.ofNat 0x5C
  | slash => Char.ofNat 0x2F
  | backspace => Char.ofNat 0x08
  | formFeed => Char.ofNat 0x0C
  | newline => Char.ofNat 0x0A
  | carriageReturn => Char.ofNat 0x0D
  | tab => Char.ofNat 0x09

end Escape

inductive Piece where
  /-- A character that stands for itself: no control character, no quote and no backslash. -/
  | plain (c : Char) (h : 0x20 ≤ c.toNat ∧ c.toNat ≠ 0x22 ∧ c.toNat ≠ 0x5C)
  | escape (e : Escape)
  | unit (u : CodeUnit)

namespace Piece

def bytes : Piece → List UInt8
  | plain c _ => String.utf8EncodeChar c
  | escape e => [0x5C, e.letter]
  | unit u => 0x5C :: 0x75 :: u.digits

/-- The characters that pieces stand for; there are none if half of a pair is without the other. -/
def chars? : List Piece → Option (List Char)
  | [] => some []
  | plain c _ :: ps => (chars? ps).map (c :: ·)
  | escape e :: ps => (chars? ps).map (e.char :: ·)
  | unit u :: ps =>
    if u.IsLeading then
      match ps with
      | unit v :: ps => if v.IsTrailing then (chars? ps).map (u.pairChar v :: ·) else none
      | _ => none
    else if u.IsTrailing then none
    else (chars? ps).map (u.char :: ·)

end Piece

def digit (d : Fin 10) : UInt8 := UInt8.ofNat (0x30 + d)

structure Digits where
  head : Fin 10
  tail : List (Fin 10)
  deriving DecidableEq, Repr

def Digits.bytes (ds : Digits) : List UInt8 := digit ds.head :: ds.tail.map digit

def decimal (n : Nat) : List UInt8 :=
  if n < 10 then [digit (Fin.ofNat 10 n)] else decimal (n / 10) ++ [digit (Fin.ofNat 10 n)]
termination_by n

inductive Sign where
  | plus
  | minus
  deriving DecidableEq, Repr

def Sign.byte : Sign → UInt8
  | .plus => 0x2B
  | .minus => 0x2D

structure Exponent where
  capital : Bool
  sign : Option Sign
  digits : Digits
  deriving DecidableEq, Repr

def Exponent.bytes (e : Exponent) : List UInt8 :=
  (if e.capital then 0x45 else 0x65) :: (e.sign.toList.map Sign.byte ++ e.digits.bytes)

/-- A number as it is written: a fraction and an exponent may be left out. -/
structure Number where
  negative : Bool
  whole : Nat
  fraction : Option Digits
  exponent : Option Exponent
  deriving DecidableEq, Repr

namespace Number

def bytes (n : Number) : List UInt8 :=
  (if n.negative then [0x2D] else []) ++ decimal n.whole ++
    n.fraction.toList.flatMap (0x2E :: Digits.bytes ·) ++ n.exponent.toList.flatMap Exponent.bytes

def numeral (n : Number) : Numeral :=
  ⟨n.negative, n.whole, n.fraction.isNone && n.exponent.isNone⟩

end Number

inductive Spells : Token → List UInt8 → Prop
  | openBrace : Spells .openBrace [0x7B]
  | closeBrace : Spells .closeBrace [0x7D]
  | openBracket : Spells .openBracket [0x5B]
  | closeBracket : Spells .closeBracket [0x5D]
  | colon : Spells .colon [0x3A]
  | comma : Spells .comma [0x2C]
  | null : Spells .null [0x6E, 0x75, 0x6C, 0x6C]
  | isTrue : Spells (.bool true) [0x74, 0x72, 0x75, 0x65]
  | isFalse : Spells (.bool false) [0x66, 0x61, 0x6C, 0x73, 0x65]
  | number (n : Number) : Spells (.number n.numeral) n.bytes
  | string (ps : List Piece) :
      Spells (.string ((Piece.chars? ps).map String.ofList))
        (0x22 :: ps.flatMap Piece.bytes ++ [0x22])

/-- The bytes that separate tokens and mean nothing: space, tab, line feed and carriage return. -/
def blanks : List UInt8 := [0x20, 0x09, 0x0A, 0x0D]

/-- The tokens are written one after the other, with blanks before, between and behind them. -/
inductive Layout : List Token → List UInt8 → Prop
  | nil {bs : List UInt8} (h : bs ⊆ blanks) : Layout [] bs
  | cons {bs bytes text : List UInt8} {t : Token} {ts : List Token} (h : bs ⊆ blanks)
      (ht : Spells t bytes) (hts : Layout ts text) : Layout (t :: ts) (bs ++ (bytes ++ text))

namespace Value

mutual

/-- The tokens of a value. -/
def tokens : Value → List Token
  | null => [.null]
  | bool b => [.bool b]
  | number n => [.number n]
  | string text => [.string text]
  | array [] => [.openBracket, .closeBracket]
  | array (v :: vs) => .openBracket :: (v.tokens ++ moreItems vs)
  | object [] => [.openBrace, .closeBrace]
  | object ((key, v) :: ms) =>
    .openBrace :: .string key :: .colon :: (v.tokens ++ moreMembers ms)

def moreItems : List Value → List Token
  | [] => [.closeBracket]
  | v :: vs => .comma :: (v.tokens ++ moreItems vs)

def moreMembers : List (Option String × Value) → List Token
  | [] => [.closeBrace]
  | (key, v) :: ms => .comma :: .string key :: .colon :: (v.tokens ++ moreMembers ms)

end

def Writes (v : Value) (text : List UInt8) : Prop := Layout v.tokens text

end Value
end RamRestore.Json
