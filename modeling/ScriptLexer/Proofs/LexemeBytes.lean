import ScriptLexer.Proofs.GrammarReading
import ScriptLexer.Proofs.ReadingBoundaries

namespace ScriptLexer

namespace Byte

def isSolid (b : UInt8) : Bool := !isLayout b && b != quote

variable {b : UInt8}

theorem isSolid_iff : isSolid b ↔ b.toNat ≠ 0x20 ∧ b.toNat ≠ 0x09 ∧ b.toNat ≠ 0x0d ∧
    b.toNat ≠ 0x0a ∧ b.toNat ≠ 0x22 := by
  rw [isSolid, Bool.and_eq_true, Bool.not_eq_true', ← Bool.not_eq_true, isLayout_iff]
  simp [quote, ← UInt8.toNat_inj, and_assoc]

theorem isSolid_of_isNamePart (h : isNamePart b) : isSolid b := by
  rw [isNamePart_iff, isNameStart_iff, isDigit_iff] at h
  rw [isSolid_iff]
  omega

theorem isSolid_of_isNumberPart (h : isNumberPart b) : isSolid b := by
  rw [isNumberPart_iff, isDigit_iff, isExponentMark_iff, isSign_iff] at h
  rw [isSolid_iff]
  omega

theorem isSolid_of_isContinuation (h : isContinuation b) : isSolid b := by
  rw [isContinuation_iff] at h
  rw [isSolid_iff]
  omega

theorem not_mem_of_isSolid {x : UInt8} {bs : Bytes} (hx : ¬ isSolid x)
    (h : ∀ b ∈ bs, isSolid b) : x ∉ bs :=
  fun hm => hx (h x hm)

end Byte

namespace Operator

theorem symbols_isSolid : ∀ p ∈ symbols, ∀ b ∈ p.1, Byte.isSolid b := by
  decide +kernel

theorem words_isSolid : ∀ p ∈ words, ∀ b ∈ p.1, Byte.isSolid b := by
  decide +kernel

theorem isSolid_of_ofWord? {w : Bytes} {o : Operator} (h : ofWord? w = some o) :
    ∀ b ∈ w, Byte.isSolid b := by
  obtain ⟨before, behind, hwords, -⟩ := List.lookup_eq_some_iff.mp h
  exact words_isSolid (w, o) (hwords ▸ List.mem_append_right _ List.mem_cons_self)

end Operator

namespace Lexeme

theorem number_isSolid {b : UInt8} {rest : Bytes} (h : beginsNumber b rest) :
    ∀ x ∈ (b :: rest).take (Rule.number (b :: rest)), Byte.isSolid x := by
  obtain ⟨w, after, hs, hw, hl⟩ := Grammar.number_sound h
  rw [hl, hs, List.take_left]
  exact fun x hx => Byte.isSolid_of_isNumberPart (hw.isNumberPart x hx)

theorem name_isSolid {b : UInt8} (h : Byte.isNameStart b) (rest : Bytes) :
    ∀ x ∈ b :: rest.take (Rule.run Byte.isNamePart rest), Byte.isSolid x := by
  intro x hx
  apply Byte.isSolid_of_isNamePart
  rcases List.mem_cons.mp hx with rfl | hx
  · exact Byte.isNamePart_of_isNameStart h
  · exact Rule.of_mem_take_run hx

theorem symbol_isSolid {bs : Bytes} {p : Bytes × Operator} (h : Operator.symbolAt? bs = some p) :
    ∀ x ∈ bs.take p.1.length, Byte.isSolid x := by
  obtain ⟨hp, ⟨after, hs⟩, -⟩ := Operator.symbolAt?_longest h
  rw [← hs, List.take_left]
  exact Operator.symbols_isSolid p hp

theorem stray_isSolid {b : UInt8} (h : Byte.isSolid b) (rest : Bytes) :
    ∀ x ∈ b :: rest.take (Rule.run Byte.isContinuation rest), Byte.isSolid x := by
  intro x hx
  rcases List.mem_cons.mp hx with rfl | hx
  · exact h
  · exact Byte.isSolid_of_isContinuation (Rule.of_mem_take_run hx)

end Lexeme

end ScriptLexer
