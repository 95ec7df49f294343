import ScriptLexer.Lexeme.Basic
import ScriptLexer.Proofs.ElementaryRules
import ScriptLexer.Proofs.SymbolWords

namespace ScriptLexer.Lexeme

open Grammar (nameKind backtickKind)

theorem not_beginsNumber {b : UInt8} (rest : Bytes) (hd : ¬ Byte.isDigit b) (hp : b ≠ Byte.point) :
    ¬ beginsNumber b rest := by
  simp [beginsNumber, hd, hp]

theorem not_isDigit_of_isNameStart {b : UInt8} (h : Byte.isNameStart b) : ¬ Byte.isDigit b := by
  rw [Byte.isNameStart_iff] at h
  rw [Byte.isDigit_iff]
  omega

theorem front_string {body : Bytes} (after : Bytes) (h : Byte.quote ∉ body) :
    front Byte.quote (body ++ Byte.quote :: after) = ⟨.string, body.length + 2, none⟩ := by
  rw [front, if_pos rfl, string, Rule.through?_complete after h]

theorem front_openString {body : Bytes} (h : Byte.quote ∉ body) :
    front Byte.quote body = ⟨.string, body.length + 1, some .unterminatedString⟩ := by
  rw [front, if_pos rfl, string, (Rule.through?_eq_none_iff _ _).mpr h]

theorem front_backtick {body : Bytes} (after : Bytes) (h : Byte.backtick ∉ body) :
    front Byte.backtick (body ++ Byte.backtick :: after) =
      match Operator.ofWord? (Byte.backtick :: (body ++ [Byte.backtick])) with
      | some o => ⟨.operator o, body.length + 2, none⟩
      | none => ⟨.unidentified, body.length + 2, some .unidentifiedBacktick⟩ := by
  have ht : (body ++ Byte.backtick :: after).take (body.length + 1) = body ++ [Byte.backtick] := by
    rw [List.take_length_add_append, List.take_succ_cons, List.take_zero]
  rw [front, if_neg (by decide), if_pos rfl, backtick, Rule.through?_complete after h]
  dsimp only
  generalize (body ++ Byte.backtick :: after).take (body.length + 1) = w at ht ⊢
  subst ht
  rfl

theorem front_openBacktick {body : Bytes} (h : Byte.backtick ∉ body) :
    front Byte.backtick body = ⟨.unidentified, body.length + 1, some .unterminatedBacktick⟩ := by
  rw [front, if_neg (by decide), if_pos rfl, backtick, (Rule.through?_eq_none_iff _ _).mpr h]

theorem front_number {b : UInt8} {rest : Bytes} (h : beginsNumber b rest) :
    front b rest = ⟨.number, Rule.number (b :: rest), none⟩ := by
  have hq : b ≠ Byte.quote := by
    rintro rfl
    exact not_beginsNumber rest (by decide) (by decide) h
  have hb : b ≠ Byte.backtick := by
    rintro rfl
    exact not_beginsNumber rest (by decide) (by decide) h
  rw [front, if_neg hq, if_neg hb, if_pos h]

theorem nameKind_cases (w : Bytes) : nameKind w = .identifier ∨ ∃ k, nameKind w = .keyword k := by
  rw [nameKind]
  cases Keyword.ofWord? w with
  | none => exact Or.inl rfl
  | some k => exact Or.inr ⟨k, rfl⟩

theorem front_name {b : UInt8} (rest : Bytes) (h : Byte.isNameStart b) :
    front b rest = ⟨nameKind (b :: rest.take (Rule.run Byte.isNamePart rest)),
      Rule.run Byte.isNamePart rest + 1, none⟩ := by
  have hne {x : UInt8} (hx : ¬ Byte.isNameStart x) : b ≠ x := by
    rintro rfl
    exact hx h
  have hn := not_beginsNumber rest (not_isDigit_of_isNameStart h) (hne (by decide))
  have hrun : Rule.name (b :: rest) = Rule.run Byte.isNamePart rest + 1 := by
    rw [Rule.name, Rule.run_cons, if_pos (Byte.isNamePart_of_isNameStart h)]
  rw [front, if_neg (hne (by decide)), if_neg (hne (by decide)), if_neg hn, if_pos h, name, hrun,
    List.take_succ_cons, nameKind]
  cases Keyword.ofWord? (b :: rest.take (Rule.run Byte.isNamePart rest)) <;> rfl

theorem front_openComment (body : Bytes) :
    front Byte.slash (Byte.star :: body) =
      ⟨.unidentified, body.length + 2, some .unterminatedComment⟩ := by
  rw [front, if_neg (by decide), if_neg (by decide),
    if_neg (not_beginsNumber _ (by decide) (by decide)), if_neg (by decide),
    if_pos ⟨rfl, List.head?_cons⟩]
  rfl

theorem front_symbol {p : Bytes × Operator} {b : UInt8} {rest : Bytes}
    (h : Operator.symbolAt? (b :: rest) = some p) (hn : ¬ beginsNumber b rest)
    (hc : ¬ [Byte.slash, Byte.star] <+: b :: rest) :
    front b rest = ⟨.operator p.2, p.1.length, none⟩ := by
  obtain ⟨hp, hs, -⟩ := Operator.symbolAt?_longest h
  obtain ⟨t, -, -, hq, hb, -, hname⟩ := Operator.head_of_prefix hp hs
  have hcomment : ¬ (b = Byte.slash ∧ rest.head? = some Byte.star) := by
    rintro ⟨rfl, hr⟩
    obtain ⟨r, rfl⟩ := List.head?_eq_some_iff.mp hr
    exact hc ⟨r, rfl⟩
  rw [front, if_neg hq, if_neg hb, if_neg hn, if_neg hname, if_neg hcomment, symbol, h]

theorem front_stray {b : UInt8} {rest : Bytes} (hq : b ≠ Byte.quote) (hb : b ≠ Byte.backtick)
    (hn : ¬ beginsNumber b rest) (hname : ¬ Byte.isNameStart b)
    (h : Operator.symbolAt? (b :: rest) = none) :
    front b rest =
      ⟨.unidentified, Rule.run Byte.isContinuation rest + 1, some .unidentifiedToken⟩ := by
  have hslash := Operator.ne_slash_of_symbolAt? h
  rw [front, if_neg hq, if_neg hb, if_neg hn, if_neg hname, if_neg (fun hc => hslash hc.1), symbol,
    h]

theorem front_cases {P : UInt8 → Bytes → Prop}
    (string : ∀ body after, Byte.quote ∉ body →
      front Byte.quote (body ++ Byte.quote :: after) = ⟨.string, body.length + 2, none⟩ →
      P Byte.quote (body ++ Byte.quote :: after))
    (openString : ∀ body, Byte.quote ∉ body →
      front Byte.quote body = ⟨.string, body.length + 1, some .unterminatedString⟩ →
      P Byte.quote body)
    (word : ∀ body after o, Byte.backtick ∉ body →
      Operator.ofWord? (Byte.backtick :: (body ++ [Byte.backtick])) = some o →
      front Byte.backtick (body ++ Byte.backtick :: after) = ⟨.operator o, body.length + 2, none⟩ →
      P Byte.backtick (body ++ Byte.backtick :: after))
    (unknownWord : ∀ body after, Byte.backtick ∉ body →
      Operator.ofWord? (Byte.backtick :: (body ++ [Byte.backtick])) = none →
      front Byte.backtick (body ++ Byte.backtick :: after) =
        ⟨.unidentified, body.length + 2, some .unidentifiedBacktick⟩ →
      P Byte.backtick (body ++ Byte.backtick :: after))
    (openBacktick : ∀ body, Byte.backtick ∉ body →
      front Byte.backtick body = ⟨.unidentified, body.length + 1, some .unterminatedBacktick⟩ →
      P Byte.backtick body)
    (number : ∀ b rest, beginsNumber b rest →
      front b rest = ⟨.number, Rule.number (b :: rest), none⟩ → P b rest)
    (name : ∀ b rest, Byte.isNameStart b →
      front b rest = ⟨nameKind (b :: rest.take (Rule.run Byte.isNamePart rest)),
        Rule.run Byte.isNamePart rest + 1, none⟩ → P b rest)
    (openComment : ∀ body,
      front Byte.slash (Byte.star :: body) =
        ⟨.unidentified, body.length + 2, some .unterminatedComment⟩ →
      P Byte.slash (Byte.star :: body))
    (symbol : ∀ b rest p, Operator.symbolAt? (b :: rest) = some p → ¬ beginsNumber b rest →
      ¬ [Byte.slash, Byte.star] <+: b :: rest →
      front b rest = ⟨.operator p.2, p.1.length, none⟩ → P b rest)
    (stray : ∀ b rest, b ≠ Byte.quote → b ≠ Byte.backtick → ¬ beginsNumber b rest →
      ¬ Byte.isNameStart b → Operator.symbolAt? (b :: rest) = none →
      front b rest =
        ⟨.unidentified, Rule.run Byte.isContinuation rest + 1, some .unidentifiedToken⟩ →
      P b rest)
    (b : UInt8) (rest : Bytes) : P b rest := by
  by_cases hq : b = Byte.quote
  · subst hq
    by_cases hm : Byte.quote ∈ rest
    · obtain ⟨body, after, rfl, hbody⟩ := List.eq_append_cons_of_mem hm
      exact string body after hbody (front_string after hbody)
    · exact openString rest hm (front_openString hm)
  by_cases hb : b = Byte.backtick
  · subst hb
    by_cases hm : Byte.backtick ∈ rest
    · obtain ⟨body, after, rfl, hbody⟩ := List.eq_append_cons_of_mem hm
      have hf := front_backtick after hbody
      cases ho : Operator.ofWord? (Byte.backtick :: (body ++ [Byte.backtick])) with
      | none => exact unknownWord body after hbody ho (by rw [hf, ho])
      | some o => exact word body after o hbody ho (by rw [hf, ho])
    · exact openBacktick rest hm (front_openBacktick hm)
  by_cases hn : beginsNumber b rest
  · exact number b rest hn (front_number hn)
  by_cases hname : Byte.isNameStart b
  · exact name b rest hname (front_name rest hname)
  by_cases hc : [Byte.slash, Byte.star] <+: b :: rest
  · obtain ⟨body, hs⟩ := hc
    obtain ⟨rfl, rfl⟩ := List.cons.inj hs
    exact openComment body (front_openComment body)
  cases h : Operator.symbolAt? (b :: rest) with
  | none => exact stray b rest hq hb hn hname h (front_stray hq hb hn hname h)
  | some p => exact symbol b rest p h hn hc (front_symbol h hn hc)

theorem issue_front (b : UInt8) (rest : Bytes) : ∀ i ∈ (front b rest).issue, i ∈ Issue.all := by
  cases b, rest using front_cases with
  | string _ _ _ hf | word _ _ _ _ _ hf | number _ _ _ hf | name _ _ _ hf
  | symbol _ _ _ _ _ _ hf => simp [hf]
  | openString _ _ hf | unknownWord _ _ _ _ hf | openBacktick _ _ hf | openComment _ hf
  | stray _ _ _ _ _ _ _ hf => simp [hf, Issue.all]

end ScriptLexer.Lexeme
