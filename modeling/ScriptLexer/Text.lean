import ScriptLexer.Bytes

namespace ScriptLexer

abbrev Text := ByteArray

instance : DecidableEq Text := ByteArray.instDecidableEq

namespace Text

def bytes (text : Text) : Bytes := text.data.toList

@[simp]
theorem length_bytes (text : Text) : text.bytes.length = text.size := by
  simp [bytes]

theorem bytes_injective {s t : Text} (h : s.bytes = t.bytes) : s = t :=
  ByteArray.ext (Array.toList_inj.mp h)

def slice (text : Text) (start stop : Nat) : Bytes := bytes (text.extract start stop)

theorem slice_eq (text : Text) (start stop : Nat) :
    text.slice start stop = (text.bytes.drop start).take (stop - start) := by
  simp [slice, bytes, ByteArray.data_extract, Array.toList_extract, List.extract_eq_take_drop]

theorem bytes_toUTF8 (s : String) : bytes s.toUTF8 = Bytes.ofString s := rfl

/-- A boundary is an end of the text or the offset of a byte that begins a character. -/
def isBoundary (text : Text) (pos : Nat) : Bool :=
  if h : pos < text.size then pos == 0 || !Byte.isContinuation text[pos] else pos == text.size

def floorFrom (text : Text) : Nat → Nat
  | 0 => 0
  | n + 1 => if text.isBoundary (n + 1) then n + 1 else text.floorFrom n

def floor (text : Text) (pos : Nat) : Nat := text.floorFrom (min pos text.size)

def ceilFrom (text : Text) (pos : Nat) : Nat :=
  if text.isBoundary pos ∨ text.size ≤ pos then pos else text.ceilFrom (pos + 1)
termination_by text.size - pos

def ceil (text : Text) (pos : Nat) : Nat := text.ceilFrom (min pos text.size)

def slice? (text : Text) (start stop : Nat) : Option Bytes :=
  if start ≤ stop ∧ text.isBoundary start ∧ text.isBoundary stop then
    some (text.slice start stop)
  else
    none

@[simp]
theorem isBoundary_zero (text : Text) : text.isBoundary 0 := by
  simp only [isBoundary]
  split <;> simp; omega

@[simp]
theorem isBoundary_size (text : Text) : text.isBoundary text.size := by
  simp [isBoundary]

theorem le_size_of_isBoundary {text : Text} {pos : Nat} (h : text.isBoundary pos) :
    pos ≤ text.size := by
  simp only [isBoundary] at h
  split at h
  · omega
  · exact Nat.le_of_eq (by simpa using h)

theorem isBoundary_floorFrom (text : Text) (n : Nat) : text.isBoundary (text.floorFrom n) := by
  induction n with
  | zero => simp [floorFrom]
  | succ n ih =>
    simp only [floorFrom]
    split
    · assumption
    · exact ih

theorem floorFrom_le (text : Text) (n : Nat) : text.floorFrom n ≤ n := by
  induction n with
  | zero => simp [floorFrom]
  | succ n ih =>
    simp only [floorFrom]
    split <;> omega

theorem isBoundary_floor (text : Text) (pos : Nat) : text.isBoundary (text.floor pos) :=
  isBoundary_floorFrom text _

theorem floor_le (text : Text) (pos : Nat) : text.floor pos ≤ pos :=
  Nat.le_trans (floorFrom_le text _) (Nat.min_le_left _ _)

theorem isBoundary_ceilFrom (text : Text) (pos : Nat) (h : pos ≤ text.size) :
    text.isBoundary (text.ceilFrom pos) := by
  fun_induction ceilFrom text pos with
  | case1 pos hp =>
    rcases hp with hp | hp
    · exact hp
    · have he : pos = text.size := by omega
      simp [he]
  | case2 pos hp ih => exact ih (by omega)

theorem le_ceilFrom (text : Text) (pos : Nat) : pos ≤ text.ceilFrom pos := by
  fun_induction ceilFrom text pos with
  | case1 => exact Nat.le_refl _
  | case2 pos hp ih => omega

theorem isBoundary_ceil (text : Text) (pos : Nat) : text.isBoundary (text.ceil pos) :=
  isBoundary_ceilFrom text _ (Nat.min_le_right _ _)

theorem le_ceil (text : Text) (pos : Nat) : min pos text.size ≤ text.ceil pos :=
  le_ceilFrom text _

def validLengthFrom (bytes : ByteArray) (pos : Nat) : Nat :=
  if h : (bytes.utf8DecodeChar? pos).isSome then
    validLengthFrom bytes (pos + (bytes.utf8DecodeChar pos h).utf8Size)
  else
    pos
termination_by bytes.size - pos
decreasing_by
  have hs := ByteArray.lt_size_of_isSome_utf8DecodeChar? h
  have hc := (bytes.utf8DecodeChar pos h).utf8Size_pos
  omega

/-- The offset of the first byte that no character covers; the size when all are covered. -/
def validLength (bytes : ByteArray) : Nat := validLengthFrom bytes 0

end Text

end ScriptLexer
