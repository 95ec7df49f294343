import ScriptLexer.Proofs.LexicalGrammar

namespace ScriptLexer.Operator

open Grammar (spelling?)

theorem mem_all (o : Operator) : o ∈ all := by
  cases o <;> decide

theorem spelling_of_mem_symbols : ∀ p ∈ symbols, ∃ s ∈ spelling? p.2, p.1 = Bytes.ofString s := by
  decide

theorem mem_symbols_of_mem_all : ∀ o ∈ all, ∀ s ∈ spelling? o, (Bytes.ofString s, o) ∈ symbols := by
  decide

theorem mem_symbols_of_spelling {o : Operator} {s : String} (h : spelling? o = some s) :
    (Bytes.ofString s, o) ∈ symbols :=
  mem_symbols_of_mem_all o (mem_all o) s h

theorem symbols_pairwise : symbols.Pairwise (fun p q => q.1.length ≤ p.1.length) := by
  decide

theorem symbols_heads : ∀ p ∈ symbols, ∃ b ∈ p.1.head?, b ≠ Byte.quote ∧ b ≠ Byte.backtick ∧
    ¬ Byte.isDigit b ∧ ¬ Byte.isNameStart b := by
  decide

theorem head_of_prefix {p : Bytes × Operator} (hp : p ∈ symbols) {b : UInt8} {rest : Bytes}
    (hs : p.1 <+: b :: rest) :
    ∃ t, p.1 = b :: t ∧ t <+: rest ∧ b ≠ Byte.quote ∧ b ≠ Byte.backtick ∧ ¬ Byte.isDigit b ∧
      ¬ Byte.isNameStart b := by
  obtain ⟨c, hc, hclass⟩ := symbols_heads p hp
  obtain ⟨t, ht⟩ := List.head?_eq_some_iff.mp hc
  obtain ⟨rfl, hpre⟩ := List.cons_prefix_cons.mp (ht ▸ hs)
  exact ⟨t, ht, hpre, hclass⟩

theorem symbols_tails : ∀ p ∈ symbols, p.1.tail = [] ∨
    ∃ c ∈ p.1.tail.head?, p.1.tail.tail = [] ∧ ¬ Byte.isDigit c := by
  decide

theorem symbols_ascii : ∀ p ∈ symbols, ∀ b ∈ p.1, b < 0x80 := by
  decide +kernel

theorem symbols_injective : ∀ p ∈ symbols, ∀ q ∈ symbols, p.1 = q.1 → p = q := by
  decide

theorem symbolAt?_longest {bs s : Bytes} {o : Operator} (h : symbolAt? bs = some (s, o)) :
    (s, o) ∈ symbols ∧ s <+: bs ∧ ∀ p ∈ symbols, p.1 <+: bs → p.1.length ≤ s.length := by
  obtain ⟨hs, before, behind, hsplit, hnot⟩ := List.find?_eq_some_iff_append.mp h
  refine ⟨List.mem_of_find?_eq_some h, List.isPrefixOf_iff_prefix.mp hs, ?_⟩
  intro p hp hpre
  rw [hsplit, List.mem_append, List.mem_cons] at hp
  rcases hp with hp | rfl | hp
  · have := hnot p hp
    rw [List.isPrefixOf_iff_prefix.mpr hpre] at this
    cases this
  · exact Nat.le_refl _
  · have ho := symbols_pairwise
    rw [hsplit] at ho
    exact (List.pairwise_cons.mp (List.pairwise_append.mp ho).2.1).1 p hp

theorem not_prefix_of_symbolAt? {bs : Bytes} (h : symbolAt? bs = none) :
    ∀ p ∈ symbols, ¬ p.1 <+: bs := by
  intro p hp hpre
  have := List.find?_eq_none.mp h p hp
  exact this (List.isPrefixOf_iff_prefix.mpr hpre)

theorem ne_slash_of_symbolAt? {b : UInt8} {rest : Bytes} (h : symbolAt? (b :: rest) = none) :
    b ≠ Byte.slash := by
  rintro rfl
  exact not_prefix_of_symbolAt? h _ (mem_symbols_of_spelling (o := .slash) rfl) ⟨rest, rfl⟩

end ScriptLexer.Operator
