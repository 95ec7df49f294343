import ScriptLexer.Proofs.LongestWords
import ScriptLexer.Proofs.TextCharacters

namespace ScriptLexer

def Byte.isNumberPart (b : UInt8) : Bool :=
  isDigit b || b == point || isExponentMark b || isSign b

theorem Byte.isNumberPart_iff {b : UInt8} :
    isNumberPart b ↔ isDigit b ∨ b.toNat = 0x2e ∨ isExponentMark b ∨ isSign b := by
  simp [isNumberPart, point, ← UInt8.toNat_inj, or_assoc]

namespace Grammar

theorem ascii_of_isLayout {b : UInt8} (h : Byte.isLayout b) : b < 0x80 := by
  rw [Byte.isLayout_iff] at h
  have hlt : b.toNat < 0x80 := by omega
  exact UInt8.lt_iff_toNat_lt.mpr hlt

theorem ascii_of_isNamePart {b : UInt8} (h : Byte.isNamePart b) : b < 0x80 := by
  rw [Byte.isNamePart_iff, Byte.isNameStart_iff, Byte.isDigit_iff] at h
  have hlt : b.toNat < 0x80 := by omega
  exact UInt8.lt_iff_toNat_lt.mpr hlt

theorem ascii_of_isNumberPart {b : UInt8} (h : Byte.isNumberPart b) : b < 0x80 := by
  rw [Byte.isNumberPart_iff, Byte.isDigit_iff, Byte.isExponentMark_iff, Byte.isSign_iff] at h
  have hlt : b.toNat < 0x80 := by omega
  exact UInt8.lt_iff_toNat_lt.mpr hlt

theorem isNumberPart_of_isDigit {b : UInt8} (h : Byte.isDigit b) : Byte.isNumberPart b :=
  Byte.isNumberPart_iff.mpr (Or.inl h)

theorem Exponent.isNumberPart {e : Bytes} (h : Exponent e) : ∀ b ∈ e, Byte.isNumberPart b := by
  cases h with
  | absent => exact fun _ hb => absurd hb List.not_mem_nil
  | written mark sign ds hm _ hs hd =>
    simp only [List.mem_cons, List.mem_append]
    rintro b (rfl | hb | hb)
    · simp [Byte.isNumberPart, hm]
    · simp [Byte.isNumberPart, hs b hb]
    · exact isNumberPart_of_isDigit (hd b hb)

theorem Number.isNumberPart {w after : Bytes} (h : Number w after) :
    ∀ b ∈ w, Byte.isNumberPart b := by
  have hpoint : Byte.isNumberPart Byte.point := by decide
  cases h with
  | whole ds e after _ hd he =>
    intro b hb
    rcases List.mem_append.mp hb with hb | hb
    · exact isNumberPart_of_isDigit (hd b hb)
    · exact he.isNumberPart b hb
  | pointed ds fs e after _ hd hf he _ =>
    simp only [List.mem_append, List.mem_cons]
    rintro b (hb | rfl | hb | hb)
    · exact isNumberPart_of_isDigit (hd b hb)
    · exact hpoint
    · exact isNumberPart_of_isDigit (hf b hb)
    · exact he.isNumberPart b hb
  | fraction fs e after _ hf he =>
    simp only [List.mem_append, List.mem_cons]
    rintro b (rfl | hb | hb)
    · exact hpoint
    · exact isNumberPart_of_isDigit (hf b hb)
    · exact he.isNumberPart b hb

theorem ascii_last {w : Bytes} (hn : w ≠ []) (h : ∀ b ∈ w, b < 0x80) :
    ∃ v b, w = v ++ [b] ∧ b < 0x80 :=
  ⟨w.dropLast, w.getLast hn, (List.dropLast_concat_getLast hn).symm, h _ (List.getLast_mem hn)⟩

theorem Word.ascii_last {w after : Bytes} {k : Kind} (h : Word w after k) :
    ∃ v b, w = v ++ [b] ∧ b < 0x80 := by
  cases h with
  | operator o s after hs =>
    have hm := Operator.mem_symbols_of_spelling hs
    exact Grammar.ascii_last (Operator.symbols_ne_nil _ hm) (Operator.symbols_ascii _ hm)
  | name b rest after hb hr =>
    apply Grammar.ascii_last (List.cons_ne_nil b rest)
    intro c hc
    rcases List.mem_cons.mp hc with rfl | hc
    · exact ascii_of_isNamePart (Byte.isNamePart_of_isNameStart hb)
    · exact ascii_of_isNamePart (hr c hc)
  | number w after hw =>
    obtain ⟨b, rest, rfl, -⟩ := hw.begins
    apply Grammar.ascii_last (List.cons_ne_nil b rest)
    exact fun c hc => ascii_of_isNumberPart (hw.isNumberPart c hc)
  | string body after _ => exact ⟨Byte.quote :: body, Byte.quote, rfl, by decide⟩
  | backtick body after _ => exact ⟨Byte.backtick :: body, Byte.backtick, rfl, by decide⟩

theorem isText_of_ascii_last {w after : Bytes} (ht : Bytes.IsText (w ++ after))
    (h : ∃ v b, w = v ++ [b] ∧ b < 0x80) : Bytes.IsText after := by
  obtain ⟨v, b, rfl, hb⟩ := h
  rw [List.append_assoc, List.singleton_append] at ht
  exact ht.cut_after hb

theorem Reads.kind_nil {k : Kind} (h : Reads [] [] k) : k = .endOfText := by
  generalize hw : ([] : Bytes) = w at h
  cases h with
  | endOfText => rfl
  | word w after k _ hword _ =>
    obtain ⟨v, b, rfl, -⟩ := hword.ascii_last
    exact absurd hw.symm (by simp)
  | stray c after _ _ _ => exact absurd hw.symm String.utf8EncodeChar_ne_nil

theorem Reads.isText {w after : Bytes} {k : Kind} (h : Reads w after k)
    (ht : Bytes.IsText (w ++ after)) : Bytes.IsText after := by
  cases h with
  | endOfText => exact Bytes.isText_nil
  | openComment body _ => exact Bytes.isText_nil
  | word w after k _ hw _ => exact isText_of_ascii_last ht hw.ascii_last
  | openString body _ => exact Bytes.isText_nil
  | openBacktick body _ => exact Bytes.isText_nil
  | stray c after _ _ _ =>
    obtain ⟨cs, hcs⟩ := ht
    rcases cs with _ | ⟨d, cs⟩
    · exact absurd (List.append_eq_nil_iff.mp hcs).1 String.utf8EncodeChar_ne_nil
    · exact ⟨cs, (Bytes.utf8EncodeChar_append_inj hcs).2⟩

theorem Piece.isText {p after : Bytes} (h : Piece p after) (ht : Bytes.IsText (p ++ after)) :
    Bytes.IsText after := by
  cases h with
  | layout b after hb =>
    apply isText_of_ascii_last ht
    exact ⟨[], b, rfl, ascii_of_isLayout hb⟩
  | line body after _ ha =>
    rcases ha with rfl | ha
    · exact Bytes.isText_nil
    · apply ht.cut
      intro b hb
      obtain rfl := Option.some.inj (ha.symm.trans hb)
      decide
  | block body after _ =>
    apply isText_of_ascii_last ht
    exact ⟨Byte.slash :: Byte.star :: (body ++ [Byte.star]), Byte.slash, by simp, by decide⟩

theorem Gap.isText {g after : Bytes} (h : Gap g after) (ht : Bytes.IsText (g ++ after)) :
    Bytes.IsText after := by
  induction h with
  | nil after => exact ht
  | cons p g after hp hg ih =>
    rw [List.append_assoc] at ht
    exact ih (hp.isText ht)

end Grammar

end ScriptLexer
