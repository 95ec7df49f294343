namespace ScriptLexer

abbrev Bytes := List UInt8

namespace Bytes

def ofString (s : String) : Bytes := s.toUTF8.data.toList

def toString? (bs : Bytes) : Option String := String.fromUTF8? bs.toByteArray

@[simp]
theorem ofString_empty : ofString "" = [] := rfl

@[simp]
theorem ofString_append (s t : String) : ofString (s ++ t) = ofString s ++ ofString t := by
  simp [ofString]

theorem toString?_ofString (s : String) : (ofString s).toString? = some s := by
  have h : (ofString s).toByteArray = s.toByteArray := by
    apply ByteArray.ext
    simp [ofString]
  simp [toString?, h, String.fromUTF8?, String.fromUTF8, s.isValidUTF8]

end Bytes

namespace Byte

def tab : UInt8 := 0x09
def lineFeed : UInt8 := 0x0a
def carriageReturn : UInt8 := 0x0d
def blank : UInt8 := 0x20
def quote : UInt8 := 0x22
def star : UInt8 := 0x2a
def plus : UInt8 := 0x2b
def minus : UInt8 := 0x2d
def point : UInt8 := 0x2e
def slash : UInt8 := 0x2f
def backslash : UInt8 := 0x5c
def underscore : UInt8 := 0x5f
def backtick : UInt8 := 0x60

def isLayout (b : UInt8) : Bool := b == blank || b == tab || b == carriageReturn || b == lineFeed

def isDigit (b : UInt8) : Bool := 0x30 ≤ b && b ≤ 0x39

def isLetter (b : UInt8) : Bool := 0x41 ≤ b && b ≤ 0x5a || 0x61 ≤ b && b ≤ 0x7a

def isNameStart (b : UInt8) : Bool := isLetter b || b == underscore

def isNamePart (b : UInt8) : Bool := isNameStart b || isDigit b

def isExponentMark (b : UInt8) : Bool := b == 0x65 || b == 0x45

def isSign (b : UInt8) : Bool := b == plus || b == minus

def isContinuation (b : UInt8) : Bool := 0x80 ≤ b && b ≤ 0xbf

section

variable {b : UInt8}

theorem isLayout_iff :
    isLayout b ↔ b.toNat = 0x20 ∨ b.toNat = 0x09 ∨ b.toNat = 0x0d ∨ b.toNat = 0x0a := by
  simp [isLayout, blank, tab, carriageReturn, lineFeed, ← UInt8.toNat_inj, or_assoc]

theorem isDigit_iff : isDigit b ↔ 0x30 ≤ b.toNat ∧ b.toNat ≤ 0x39 := by
  simp [isDigit, UInt8.le_iff_toNat_le]

theorem isNameStart_iff : isNameStart b ↔ (0x41 ≤ b.toNat ∧ b.toNat ≤ 0x5a) ∨
    (0x61 ≤ b.toNat ∧ b.toNat ≤ 0x7a) ∨ b.toNat = 0x5f := by
  simp [isNameStart, isLetter, underscore, UInt8.le_iff_toNat_le, ← UInt8.toNat_inj, or_assoc]

theorem isNamePart_iff : isNamePart b ↔ isNameStart b ∨ isDigit b := by
  simp [isNamePart]

theorem isExponentMark_iff : isExponentMark b ↔ b.toNat = 0x65 ∨ b.toNat = 0x45 := by
  simp [isExponentMark, ← UInt8.toNat_inj]

theorem isSign_iff : isSign b ↔ b.toNat = 0x2b ∨ b.toNat = 0x2d := by
  simp [isSign, plus, minus, ← UInt8.toNat_inj]

theorem isContinuation_iff : isContinuation b ↔ 0x80 ≤ b.toNat ∧ b.toNat ≤ 0xbf := by
  simp [isContinuation, UInt8.le_iff_toNat_le]

theorem isNamePart_of_isNameStart (h : isNameStart b) : isNamePart b :=
  isNamePart_iff.mpr (Or.inl h)

end

end Byte

end ScriptLexer
