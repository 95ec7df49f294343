import Mathlib.Data.Nat.Basic
import Mathlib.Order.Bounds.Basic
import ScriptLexer.Document
import ScriptLexer.Proofs.CharacterForms

namespace ScriptLexer

namespace Bytes

def wholeFronts (bs : Bytes) : Set Nat := {n | ∃ cs, ofChars cs <+: bs ∧ (ofChars cs).length = n}

theorem prefix_of_ofChars {cs ds : List Char} (h : ofChars cs <+: ofChars ds) : cs <+: ds := by
  induction cs generalizing ds with
  | nil => exact List.nil_prefix
  | cons c cs ih =>
    obtain ⟨rest, hrest⟩ := h
    cases ds with
    | nil =>
      obtain ⟨b, tail, hc, -, -⟩ := utf8EncodeChar_eq_cons c
      rw [ofChars_cons, hc] at hrest
      cases hrest
    | cons d ds =>
      rw [ofChars_cons, ofChars_cons, List.append_assoc] at hrest
      obtain ⟨rfl, htail⟩ := utf8EncodeChar_append_inj hrest
      exact List.cons_prefix_cons.mpr ⟨rfl, ih ⟨rest, htail⟩⟩

theorem isGreatest_front (cs : List Char) {tail : Bytes}
    (h : ∀ c, ¬ String.utf8EncodeChar c <+: tail) :
    IsGreatest (wholeFronts (ofChars cs ++ tail)) (ofChars cs).length := by
  refine ⟨⟨cs, List.prefix_append _ _, rfl⟩, ?_⟩
  rintro n ⟨ds, hds, rfl⟩
  apply Nat.le_of_not_lt
  intro hlt
  have hcs : ofChars cs <+: ofChars ds :=
    List.prefix_of_prefix_length_le (List.prefix_append _ _) hds (Nat.le_of_lt hlt)
  obtain ⟨es, rfl⟩ := prefix_of_ofChars hcs
  rw [ofChars_append, List.prefix_append_right_inj] at hds
  cases es with
  | nil => exact absurd hlt (by simp)
  | cons e es => exact h e ((List.prefix_append _ _).trans hds)

theorem not_isText_of_illFormed {cs : List Char} {tail : Bytes} (h : IllFormed tail) :
    ¬ IsText (ofChars cs ++ tail) := by
  rintro ⟨ds, hds⟩
  have hlength := (isGreatest_front cs h.not_prefix).2 ⟨ds, hds ▸ List.prefix_rfl, rfl⟩
  rw [← hds, List.length_append] at hlength
  have := List.length_pos_iff.mpr h.ne_nil
  omega

end Bytes

namespace Text

theorem bytes_drop (text : Text) (pos : Nat) :
    bytes (text.extract pos text.size) = text.bytes.drop pos := by
  have h := slice_eq text pos text.size
  rwa [← length_bytes, ← List.length_drop, List.take_length] at h

theorem bytes_append (bs : Bytes) (text : Text) :
    bytes (bs.toByteArray ++ text) = bs ++ text.bytes := by
  simp [bytes]

theorem utf8DecodeChar?_iff {text : Text} {pos : Nat} {c : Char} :
    text.utf8DecodeChar? pos = some c ↔ String.utf8EncodeChar c <+: text.bytes.drop pos := by
  rw [ByteArray.utf8DecodeChar?_eq_utf8DecodeChar?_extract, ← bytes_drop]
  constructor
  · intro h
    obtain ⟨rest, hrest⟩ := ByteArray.exists_of_utf8DecodeChar?_eq_some h
    rw [hrest, bytes_append]
    exact List.prefix_append _ _
  · rintro ⟨rest, hrest⟩
    have htext : text.extract pos text.size =
        (String.utf8EncodeChar c).toByteArray ++ rest.toByteArray := by
      apply bytes_injective
      rw [bytes_append, ← hrest]
      simp [bytes]
    rw [htext, ByteArray.utf8DecodeChar?_utf8EncodeChar_append]

theorem isGreatest_validLengthFrom {text : Text} {pos : Nat} (cs : List Char)
    (hcs : text.bytes.take pos = Bytes.ofChars cs) (hpos : pos ≤ text.size) :
    IsGreatest (Bytes.wholeFronts text.bytes) (validLengthFrom text pos) := by
  fun_induction validLengthFrom text pos generalizing cs with
  | case1 pos h ih =>
    have hchar : text.utf8DecodeChar? pos = some (text.utf8DecodeChar pos h) :=
      (Option.some_get h).symm
    obtain ⟨rest, hrest⟩ := utf8DecodeChar?_iff.mp hchar
    refine ih (cs ++ [text.utf8DecodeChar pos h]) ?_ ByteArray.add_utf8Size_utf8DecodeChar_le_size
    rw [List.take_add, hcs, ← hrest, ← String.length_utf8EncodeChar, List.take_left,
      Bytes.ofChars_append, Bytes.ofChars_cons, Bytes.ofChars_nil, List.append_nil]
  | case2 pos h =>
    have hnone : ∀ c, ¬ String.utf8EncodeChar c <+: text.bytes.drop pos := by
      intro c hc
      rw [utf8DecodeChar?_iff.mpr hc] at h
      exact h rfl
    have hgreatest := Bytes.isGreatest_front cs hnone
    rwa [← hcs, List.take_append_drop, List.length_take_of_le (by rwa [length_bytes])] at hgreatest

theorem isGreatest_validLength (text : Text) :
    IsGreatest (Bytes.wholeFronts text.bytes) (validLength text) :=
  isGreatest_validLengthFrom [] rfl (Nat.zero_le _)

theorem validLength_of_illFormed {text : Text} {cs : List Char} {tail : Bytes}
    (h : text.bytes = Bytes.ofChars cs ++ tail) (ht : Bytes.IllFormed tail) :
    validLength text = (Bytes.ofChars cs).length :=
  (isGreatest_validLength text).unique (h ▸ Bytes.isGreatest_front cs ht.not_prefix)

theorem bytes_ofList (cs : List Char) :
    bytes (String.ofList cs).toUTF8 = Bytes.ofChars cs := by
  rw [bytes_toUTF8, Bytes.ofString_eq_ofChars, String.toList_ofList]

theorem isValidUTF8_iff {text : Text} : text.IsValidUTF8 ↔ Bytes.IsText text.bytes := by
  constructor
  · intro h
    exact Bytes.isText_ofString (String.fromUTF8 text h)
  · rintro ⟨cs, hcs⟩
    have htext : text = (String.ofList cs).toUTF8 :=
      bytes_injective (hcs.trans (bytes_ofList cs).symm)
    rw [htext]
    exact (String.ofList cs).isValidUTF8

end Text

namespace Document

variable {path : String} {file : ByteArray}

theorem load_ofChars (h : file.size ≤ maxOffset) {cs : List Char}
    (hcs : Text.bytes file = Bytes.ofChars cs) :
    load path (.file file) = .ok (ofString path (String.ofList cs)) := by
  obtain rfl : file = (String.ofList cs).toUTF8 :=
    Text.bytes_injective (hcs.trans (Text.bytes_ofList cs).symm)
  exact load_ofString path (String.ofList cs) h

theorem load_of_not_isText (h : file.size ≤ maxOffset) (ht : ¬ Bytes.IsText (Text.bytes file)) :
    load path (.file file) = .error (.invalidUtf8 path (Text.validLength file)) := by
  rw [load, if_neg (Nat.not_lt.mpr h), dif_neg (mt Text.isValidUTF8_iff.mp ht)]

theorem load_eq_ok_iff (h : file.size ≤ maxOffset) {d : Document} :
    load path (.file file) = .ok d ↔
      ∃ cs, Text.bytes file = Bytes.ofChars cs ∧ d = ofString path (String.ofList cs) := by
  constructor
  · intro hd
    by_cases ht : Bytes.IsText (Text.bytes file)
    · obtain ⟨cs, hcs⟩ := ht
      rw [load_ofChars h hcs] at hd
      exact ⟨cs, hcs, (Except.ok.inj hd).symm⟩
    · rw [load_of_not_isText h ht] at hd
      cases hd
  · rintro ⟨cs, hcs, rfl⟩
    exact load_ofChars h hcs

theorem load_eq_error_iff (h : file.size ≤ maxOffset) {e : LoadError} :
    load path (.file file) = .error e ↔ ¬ Bytes.IsText (Text.bytes file) ∧
      ∃ n, IsGreatest (Bytes.wholeFronts (Text.bytes file)) n ∧ e = .invalidUtf8 path n := by
  constructor
  · intro he
    by_cases ht : Bytes.IsText (Text.bytes file)
    · obtain ⟨cs, hcs⟩ := ht
      rw [load_ofChars h hcs] at he
      cases he
    · rw [load_of_not_isText h ht] at he
      exact ⟨ht, _, Text.isGreatest_validLength file, (Except.error.inj he).symm⟩
  · rintro ⟨ht, n, hn, rfl⟩
    rw [load_of_not_isText h ht, (Text.isGreatest_validLength file).unique hn]

theorem text_of_load (h : file.size ≤ maxOffset) {d : Document}
    (hd : load path (.file file) = .ok d) :
    d.text = file ∧ Bytes.ofChars (String.fromUTF8 d.text d.valid).toList = Text.bytes file := by
  obtain ⟨cs, hcs, rfl⟩ := (load_eq_ok_iff h).mp hd
  have htext : (ofString path (String.ofList cs)).text = file :=
    Text.bytes_injective ((Text.bytes_ofList cs).trans hcs.symm)
  refine ⟨htext, ?_⟩
  rw [← Bytes.ofString_eq_ofChars, hcs, ← Text.bytes_ofList]
  rfl

theorem load_exact_on_bytes (path : String) (file : ByteArray) (h : file.size ≤ maxOffset) :
    (∀ d, load path (.file file) = .ok d ↔
      ∃ cs, Text.bytes file = Bytes.ofChars cs ∧ d = ofString path (String.ofList cs)) ∧
    (∀ d, load path (.file file) = .ok d → d.text = file ∧
      Bytes.ofChars (String.fromUTF8 d.text d.valid).toList = Text.bytes file) ∧
    (∀ e, load path (.file file) = .error e ↔ ¬ Bytes.IsText (Text.bytes file) ∧
      ∃ n, IsGreatest (Bytes.wholeFronts (Text.bytes file)) n ∧ e = .invalidUtf8 path n) ∧
    (∀ cs tail, Text.bytes file = Bytes.ofChars cs ++ tail → Bytes.IllFormed tail →
      load path (.file file) = .error (.invalidUtf8 path (Bytes.ofChars cs).length)) := by
  refine ⟨fun _ => load_eq_ok_iff h, fun _ => text_of_load h, fun _ => load_eq_error_iff h, ?_⟩
  intro cs tail hfile htail
  rw [load_of_not_isText h (hfile ▸ Bytes.not_isText_of_illFormed htail),
    Text.validLength_of_illFormed hfile htail]

theorem load_refuses_surrogate :
    (ByteArray.mk #[0x61, 0xc3, 0xa9, 0xed, 0xa0, 0x80]).size ≤ maxOffset ∧
      load "t.rl" (.file (ByteArray.mk #[0x61, 0xc3, 0xa9, 0xed, 0xa0, 0x80])) =
        .error (.invalidUtf8 "t.rl" 3) := by
  have h : (ByteArray.mk #[0x61, 0xc3, 0xa9, 0xed, 0xa0, 0x80]).size ≤ maxOffset := by decide
  refine ⟨h, (load_exact_on_bytes "t.rl" _ h).2.2.2 ['a', 'é'] _ ?_
    (.surrogate 0xd800 [] (by decide) (by decide))⟩
  decide

end Document

end ScriptLexer
