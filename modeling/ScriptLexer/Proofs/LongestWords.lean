import ScriptLexer.Proofs.LexemeCases
import ScriptLexer.Proofs.NumberWords

namespace ScriptLexer.Grammar

open Lexeme (front beginsNumber not_beginsNumber front_cases)

theorem beginsNumber_of_isDigit {b : UInt8} (rest : Bytes) (h : Byte.isDigit b) :
    beginsNumber b rest := by
  simp [beginsNumber, h]

theorem beginsNumber_point {d : UInt8} (rest : Bytes) (h : Byte.isDigit d) :
    beginsNumber Byte.point (d :: rest) := by
  simp [beginsNumber, h]

theorem Number.begins {w after : Bytes} (h : Number w after) :
    ∃ b rest, w = b :: rest ∧ beginsNumber b (rest ++ after) := by
  cases h with
  | whole ds e after hn hd he =>
    obtain ⟨d, ds, rfl⟩ := List.exists_cons_of_ne_nil hn
    exact ⟨d, ds ++ e, rfl, beginsNumber_of_isDigit _ (hd d List.mem_cons_self)⟩
  | pointed ds fs e after hn hd hf he hr =>
    obtain ⟨d, ds, rfl⟩ := List.exists_cons_of_ne_nil hn
    exact ⟨d, _, rfl, beginsNumber_of_isDigit _ (hd d List.mem_cons_self)⟩
  | fraction fs e after hn hf he =>
    obtain ⟨f, fs, rfl⟩ := List.exists_cons_of_ne_nil hn
    exact ⟨Byte.point, f :: fs ++ e, rfl, beginsNumber_point _ (hf f List.mem_cons_self)⟩

theorem symbol_of_beginsNumber {p : Bytes × Operator} {b : UInt8} {rest : Bytes}
    (hp : p ∈ Operator.symbols) (hs : p.1 <+: b :: rest) (hn : beginsNumber b rest) :
    p.1.length < (front b rest).length := by
  obtain ⟨t, ht, hpre, -, -, hd, -⟩ := Operator.head_of_prefix hp hs
  obtain ⟨rfl, d, r, rfl, hdigit⟩ := (beginsNumber_cases hn).resolve_left hd
  have hl : p.1.length = 1 := by
    have htail := Operator.symbols_tails p hp
    rw [ht, List.tail_cons] at htail
    rcases htail with rfl | ⟨x, hx, -, hnd⟩
    · rw [ht, List.length_singleton]
    · obtain ⟨y, rfl⟩ := List.head?_eq_some_iff.mp hx
      obtain ⟨rfl, -⟩ := List.cons_prefix_cons.mp hpre
      exact absurd hdigit hnd
  have hw : Number (Byte.point :: ([d] ++ [])) r :=
    Number.fraction [d] [] r (by simp) (by simpa [Digits] using hdigit) Exponent.absent
  have := number_longest hw
  rw [Lexeme.front_number hn, hl]
  exact this

theorem symbol_front {p : Bytes × Operator} {b : UInt8} {rest : Bytes}
    (hp : p ∈ Operator.symbols) (hs : p.1 <+: b :: rest)
    (hc : ¬ [Byte.slash, Byte.star] <+: b :: rest) :
    p.1.length ≤ (front b rest).length ∧
      (p.1.length = (front b rest).length → (front b rest).kind = .operator p.2) := by
  by_cases hn : beginsNumber b rest
  · have := symbol_of_beginsNumber hp hs hn
    exact ⟨by omega, fun he => by omega⟩
  cases h : Operator.symbolAt? (b :: rest) with
  | none => exact absurd hs (Operator.not_prefix_of_symbolAt? h p hp)
  | some q =>
    obtain ⟨hq, hqs, hlongest⟩ := Operator.symbolAt?_longest h
    rw [Lexeme.front_symbol h hn hc]
    refine ⟨hlongest p hp hs, ?_⟩
    intro hl
    have hpq : p.1 = q.1 :=
      (List.prefix_of_prefix_length_le hs hqs (Nat.le_of_eq hl)).eq_of_length hl
    rw [Operator.symbols_injective p hp q hq hpq]

theorem Word.front_correct {w after : Bytes} {k : Kind} (h : Word w after k) {b : UInt8}
    {rest : Bytes} (hs : b :: rest = w ++ after) (hc : ¬ [Byte.slash, Byte.star] <+: b :: rest) :
    w.length ≤ (front b rest).length ∧
      (w.length = (front b rest).length → (front b rest).kind = k) := by
  cases h with
  | operator o s after hsp =>
    exact symbol_front (Operator.mem_symbols_of_spelling hsp) ⟨after, hs.symm⟩ hc
  | name c t after hstart hpart =>
    rw [List.cons_append, List.cons.injEq] at hs
    obtain ⟨rfl, rfl⟩ := hs
    have hrun := Rule.run_append after hpart
    rw [Lexeme.front_name _ hstart, List.length_cons, hrun]
    dsimp only
    refine ⟨by omega, ?_⟩
    intro he
    rw [← show t.length = t.length + Rule.run Byte.isNamePart after by omega, List.take_left]
  | number w after hw =>
    obtain ⟨c, t, rfl, hn⟩ := hw.begins
    rw [List.cons_append, List.cons.injEq] at hs
    obtain ⟨rfl, rfl⟩ := hs
    rw [Lexeme.front_number hn]
    exact ⟨number_longest hw, fun _ => rfl⟩
  | string body after hq =>
    rw [List.cons_append, List.append_assoc, List.singleton_append, List.cons.injEq] at hs
    obtain ⟨rfl, rfl⟩ := hs
    rw [Lexeme.front_string after hq]
    simp
  | backtick body after hb =>
    rw [List.cons_append, List.append_assoc, List.singleton_append, List.cons.injEq] at hs
    obtain ⟨rfl, rfl⟩ := hs
    rw [Lexeme.front_backtick after hb, backtickKind]
    cases Operator.ofWord? (Byte.backtick :: (body ++ [Byte.backtick])) <;> simp

theorem Word.begins {w after : Bytes} {k : Kind} (h : Word w after k) {b : UInt8} {rest : Bytes}
    (hs : b :: rest = w ++ after) :
    b = Byte.quote ∧ Byte.quote ∈ rest ∨ b = Byte.backtick ∧ Byte.backtick ∈ rest ∨
      beginsNumber b rest ∨ Byte.isNameStart b ∨ ∃ p ∈ Operator.symbols, p.1 <+: b :: rest := by
  cases h with
  | operator o s after hsp =>
    have hm := Operator.mem_symbols_of_spelling hsp
    exact Or.inr (Or.inr (Or.inr (Or.inr ⟨_, hm, after, hs.symm⟩)))
  | name c t after hstart hpart =>
    obtain ⟨rfl, rfl⟩ := List.cons.inj hs
    exact Or.inr (Or.inr (Or.inr (Or.inl hstart)))
  | number w after hw =>
    obtain ⟨c, t, rfl, hn⟩ := hw.begins
    obtain ⟨rfl, rfl⟩ := List.cons.inj hs
    exact Or.inr (Or.inr (Or.inl hn))
  | string body after hq =>
    obtain ⟨rfl, rfl⟩ := List.cons.inj hs
    exact Or.inl ⟨rfl, by simp⟩
  | backtick body after hb =>
    obtain ⟨rfl, rfl⟩ := List.cons.inj hs
    exact Or.inr (Or.inl ⟨rfl, by simp⟩)

theorem not_beginsWord {b : UInt8} {rest : Bytes} (hq : b = Byte.quote → Byte.quote ∉ rest)
    (hb : b = Byte.backtick → Byte.backtick ∉ rest) (hn : ¬ beginsNumber b rest)
    (hname : ¬ Byte.isNameStart b) (hs : ∀ p ∈ Operator.symbols, ¬ p.1 <+: b :: rest) :
    ¬ BeginsWord (b :: rest) := by
  rintro ⟨w, after, k, he, hw⟩
  rcases hw.begins he with ⟨h, hm⟩ | ⟨h, hm⟩ | h | h | ⟨p, hp, hpre⟩
  · exact hq h hm
  · exact hb h hm
  · exact hn h
  · exact hname h
  · exact hs p hp hpre

theorem not_symbol_of_delimiter {b : UInt8} {rest : Bytes}
    (h : b = Byte.quote ∨ b = Byte.backtick) : ∀ p ∈ Operator.symbols, ¬ p.1 <+: b :: rest := by
  intro p hp hpre
  obtain ⟨t, -, -, hq, hb, -⟩ := Operator.head_of_prefix hp hpre
  rcases h with rfl | rfl
  · exact hq rfl
  · exact hb rfl

theorem not_beginsWord_quote {body : Bytes} (h : Byte.quote ∉ body) :
    ¬ BeginsWord (Byte.quote :: body) :=
  not_beginsWord (fun _ => h) (fun he => absurd he (by decide))
    (not_beginsNumber body (by decide) (by decide)) (by decide)
    (not_symbol_of_delimiter (Or.inl rfl))

theorem not_beginsWord_backtick {body : Bytes} (h : Byte.backtick ∉ body) :
    ¬ BeginsWord (Byte.backtick :: body) :=
  not_beginsWord (fun he => absurd he (by decide)) (fun _ => h)
    (not_beginsNumber body (by decide) (by decide)) (by decide)
    (not_symbol_of_delimiter (Or.inr rfl))

theorem BeginsWord.string {body : Bytes} (h : Byte.quote ∈ body) :
    BeginsWord (Byte.quote :: body) := by
  obtain ⟨s, t, rfl, hs⟩ := List.eq_append_cons_of_mem h
  exact ⟨_, t, _, by simp, Word.string s t hs⟩

theorem BeginsWord.backtick {body : Bytes} (h : Byte.backtick ∈ body) :
    BeginsWord (Byte.backtick :: body) := by
  obtain ⟨s, t, rfl, hs⟩ := List.eq_append_cons_of_mem h
  exact ⟨_, t, _, by simp, Word.backtick s t hs⟩

theorem BeginsWord.slash (rest : Bytes) : BeginsWord (Byte.slash :: rest) :=
  ⟨_, rest, _, rfl, Word.operator .slash "/" rest rfl⟩

end ScriptLexer.Grammar
