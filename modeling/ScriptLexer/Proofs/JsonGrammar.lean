import ScriptLexer.Proofs.TextCharacters

/-!
The JSON grammar: which bytes are a value, and which value they are. A number is the rational that
it denotes, a string is its characters whichever way they are escaped, and an object keeps its
members in order. Layout bytes may stand around values and keys, and nowhere else.
-/

namespace ScriptLexer.JsonGrammar

inductive Value where
  | null
  | boolean (b : Bool)
  | number (q : Rat)
  | string (s : String)
  | array (vs : List Value)
  | object (ms : List (String × Value))

def comma : UInt8 := 0x2c
def colon : UInt8 := 0x3a
def leftSquare : UInt8 := 0x5b
def rightSquare : UInt8 := 0x5d
def leftBrace : UInt8 := 0x7b
def rightBrace : UInt8 := 0x7d

section Numbers

def Digits (ds : Bytes) : Prop := ds ≠ [] ∧ ∀ d ∈ ds, Byte.isDigit d

def valueOf (ds : Bytes) : Nat := ds.foldl (fun n d => 10 * n + (d.toNat - 0x30)) 0

inductive Whole : Bytes → Prop
  | zero : Whole [0x30]
  | positive (d : UInt8) (ds : Bytes) : d ≠ 0x30 → Digits (d :: ds) → Whole (d :: ds)

inductive Fraction : Bytes → Bytes → Prop
  | absent : Fraction [] []
  | present (ds : Bytes) : Digits ds → Fraction (Byte.point :: ds) ds

inductive Sign : Bytes → Int → Prop
  | absent : Sign [] 1
  | plus : Sign [Byte.plus] 1
  | minus : Sign [Byte.minus] (-1)

inductive Exponent : Bytes → Int → Prop
  | absent : Exponent [] 0
  | present (mark : UInt8) (s ds : Bytes) (k : Int) : Byte.isExponentMark mark → Sign s k →
      Digits ds → Exponent (mark :: (s ++ ds)) (k * valueOf ds)

inductive Magnitude : Bytes → Rat → Prop
  | mk (w f ds e : Bytes) (k : Int) : Whole w → Fraction f ds → Exponent e k →
      Magnitude (w ++ (f ++ e)) (valueOf (w ++ ds) * 10 ^ (k - ds.length))

inductive Number : Bytes → Rat → Prop
  | positive (u : Bytes) (q : Rat) : Magnitude u q → Number u q
  | negative (u : Bytes) (q : Rat) : Magnitude u q → Number (Byte.minus :: u) (-q)

end Numbers

section Strings

def hexValue? (b : UInt8) : Option Nat :=
  if Byte.isDigit b then some (b.toNat - 0x30)
  else if 0x41 ≤ b ∧ b ≤ 0x46 then some (b.toNat - 0x37)
  else if 0x61 ≤ b ∧ b ≤ 0x66 then some (b.toNat - 0x57)
  else none

def codeUnit? : Bytes → Option Nat
  | [a, b, c, d] => do
    let a ← hexValue? a
    let b ← hexValue? b
    let c ← hexValue? c
    let d ← hexValue? d
    return ((a * 0x10 + b) * 0x10 + c) * 0x10 + d
  | _ => none

def shortEscapes : List (UInt8 × Char) :=
  [(Byte.quote, '"'), (Byte.backslash, '\\'), (Byte.slash, '/'), (0x62, '\x08'), (0x66, '\x0c'),
    (0x6e, '\n'), (0x72, '\r'), (0x74, '\t')]

def unitMark : UInt8 := 0x75

inductive Escape : Bytes → Char → Prop
  | short (b : UInt8) (c : Char) : (b, c) ∈ shortEscapes → Escape [b] c
  | unit (h : Bytes) (c : Char) : codeUnit? h = some c.toNat → Escape (unitMark :: h) c
  | pair (h l : Bytes) (m n : Nat) (c : Char) : codeUnit? h = some (0xd800 + m) →
      codeUnit? l = some (0xdc00 + n) → m < 0x400 → n < 0x400 →
      c.toNat = 0x10000 + m * 0x400 + n →
      Escape (unitMark :: (h ++ Byte.backslash :: unitMark :: l)) c

inductive Character : Bytes → Char → Prop
  | plain (c : Char) : 0x20 ≤ c.toNat → c ≠ '"' → c ≠ '\\' →
      Character (String.utf8EncodeChar c) c
  | escaped (t : Bytes) (c : Char) : Escape t c → Character (Byte.backslash :: t) c

inductive Characters : Bytes → List Char → Prop
  | nil : Characters [] []
  | cons (u t : Bytes) (c : Char) (cs : List Char) : Character u c → Characters t cs →
      Characters (u ++ t) (c :: cs)

inductive Quoted : Bytes → String → Prop
  | mk (u : Bytes) (cs : List Char) : Characters u cs →
      Quoted (Byte.quote :: (u ++ [Byte.quote])) (String.ofList cs)

end Strings

section Values

variable {α : Type}

def IsBlank (w : Bytes) : Prop := ∀ b ∈ w, Byte.isLayout b

instance (w : Bytes) : Decidable (IsBlank w) := List.decidableBAll _ w

inductive Padded (P : Bytes → α → Prop) : Bytes → α → Prop
  | mk (v u w : Bytes) (x : α) : IsBlank v → P u x → IsBlank w → Padded P (v ++ (u ++ w)) x

inductive Series (P : Bytes → α → Prop) : Bytes → List α → Prop
  | last (u : Bytes) (x : α) : P u x → Series P u [x]
  | more (u t : Bytes) (x : α) (xs : List α) : P u x → Series P t xs →
      Series P (u ++ comma :: t) (x :: xs)

inductive Enclosed (opening closing : UInt8) (P : Bytes → α → Prop) : Bytes → List α → Prop
  | none (w : Bytes) : IsBlank w → Enclosed opening closing P (opening :: (w ++ [closing])) []
  | some (u : Bytes) (xs : List α) : Series P u xs →
      Enclosed opening closing P (opening :: (u ++ [closing])) xs

inductive Member (P : Bytes → α → Prop) : Bytes → String × α → Prop
  | mk (k u : Bytes) (s : String) (x : α) : Padded Quoted k s → Padded P u x →
      Member P (k ++ colon :: u) (s, x)

inductive Denotes : Bytes → Value → Prop
  | null : Denotes (Bytes.ofString "null") .null
  | yes : Denotes (Bytes.ofString "true") (.boolean true)
  | no : Denotes (Bytes.ofString "false") (.boolean false)
  | number (u : Bytes) (q : Rat) : Number u q → Denotes u (.number q)
  | string (u : Bytes) (s : String) : Quoted u s → Denotes u (.string s)
  | array (u : Bytes) (vs : List Value) :
      Enclosed leftSquare rightSquare (Padded Denotes) u vs → Denotes u (.array vs)
  | object (u : Bytes) (ms : List (String × Value)) :
      Enclosed leftBrace rightBrace (Member Denotes) u ms → Denotes u (.object ms)

end Values

end ScriptLexer.JsonGrammar
