import ScriptLexer.Proofs.CursorRuns

namespace ScriptLexer

namespace Token

/-- Unidentified, or a string that holds its opening quote only. -/
def Malformed (t : Token) : Prop :=
  t.kind = .unidentified ∨ t.kind = .string ∧ t.lexeme.count Byte.quote = 1

instance (t : Token) : Decidable t.Malformed :=
  inferInstanceAs (Decidable (_ ∨ _))

def faultCode (t : Token) : Nat :=
  if t.kind = .string then 1002
  else if [Byte.slash, Byte.star] <+: t.lexeme then 1003
  else if t.lexeme.head? = some Byte.backtick ∧ t.lexeme.count Byte.backtick = 1 then 1004
  else if t.lexeme.head? = some Byte.backtick ∧ t.lexeme.getLast? = some Byte.backtick ∧
    t.lexeme.count Byte.backtick = 2 then 1005
  else 1001

end Token

def openCodes : List Nat := [1002, 1003, 1004]

structure Reports (t : Token) (issue : Option Issue) : Prop where
  isSome_iff : issue.isSome ↔ t.Malformed
  code_eq : ∀ i ∈ issue, i.code = t.faultCode

theorem reports_none {t : Token} (hu : t.kind ≠ .unidentified)
    (hs : t.kind = .string → t.lexeme.count Byte.quote ≠ 1) : Reports t none := by
  refine ⟨?_, by simp⟩
  constructor
  · simp
  · rintro (h | ⟨h, hc⟩)
    · exact absurd h hu
    · exact absurd hc (hs h)

theorem reports_some {t : Token} {i : Issue} (hm : t.Malformed) (hc : i.code = t.faultCode) :
    Reports t (some i) := by
  refine ⟨by simp [hm], ?_⟩
  rintro j hj
  rw [← Option.some.inj hj, hc]

namespace Token

theorem count_quoted {d : UInt8} {body : Bytes} (h : d ∉ body) :
    (d :: (body ++ [d])).count d = 2 := by
  simp [List.count_eq_zero_of_not_mem h]

theorem count_open {d : UInt8} {body : Bytes} (h : d ∉ body) : (d :: body).count d = 1 := by
  simp [List.count_eq_zero_of_not_mem h]

variable {t : Token} {b : UInt8} {body : Bytes}

theorem faultCode_string (hk : t.kind = .string) : t.faultCode = 1002 := by
  rw [faultCode, if_pos hk]

theorem faultCode_comment (hk : t.kind = .unidentified)
    (hl : t.lexeme = Byte.slash :: Byte.star :: body) : t.faultCode = 1003 := by
  have hp : [Byte.slash, Byte.star] <+: t.lexeme := ⟨body, hl.symm⟩
  rw [faultCode, if_neg (by simp [hk]), if_pos hp]

theorem faultCode_not_comment (hk : t.kind = .unidentified) (hl : t.lexeme = b :: body)
    (hb : b ≠ Byte.slash) :
    t.faultCode =
      if b = Byte.backtick ∧ t.lexeme.count Byte.backtick = 1 then 1004
      else if b = Byte.backtick ∧ t.lexeme.getLast? = some Byte.backtick ∧
        t.lexeme.count Byte.backtick = 2 then 1005
      else 1001 := by
  have hp : ¬ [Byte.slash, Byte.star] <+: t.lexeme := by
    rw [hl]
    exact Grammar.not_comment body hb
  have hh : t.lexeme.head? = some Byte.backtick ↔ b = Byte.backtick := by
    rw [hl, List.head?_cons, Option.some.injEq]
  rw [faultCode, if_neg (by simp [hk]), if_neg hp]
  simp only [hh]

theorem faultCode_openBacktick (hk : t.kind = .unidentified)
    (hl : t.lexeme = Byte.backtick :: body) (hm : Byte.backtick ∉ body) : t.faultCode = 1004 := by
  rw [faultCode_not_comment hk hl (by decide), if_pos ⟨rfl, by rw [hl, count_open hm]⟩]

theorem faultCode_backtick (hk : t.kind = .unidentified)
    (hl : t.lexeme = Byte.backtick :: (body ++ [Byte.backtick])) (hm : Byte.backtick ∉ body) :
    t.faultCode = 1005 := by
  have hc : t.lexeme.count Byte.backtick = 2 := by rw [hl, count_quoted hm]
  have hlast : t.lexeme.getLast? = some Byte.backtick := by
    rw [hl, ← List.cons_append, List.getLast?_concat]
  rw [faultCode_not_comment hk hl (by decide), if_neg (by simp [hc]), if_pos ⟨rfl, hlast, hc⟩]

theorem faultCode_stray (hk : t.kind = .unidentified) (hl : t.lexeme = b :: body)
    (hs : b ≠ Byte.slash) (hb : b ≠ Byte.backtick) : t.faultCode = 1001 := by
  rw [faultCode_not_comment hk hl hs, if_neg (fun h => hb h.1), if_neg (fun h => hb h.1)]

end Token

namespace Lexeme

theorem take_quoted (d : UInt8) (body after : Bytes) :
    (d :: (body ++ d :: after)).take (body.length + 2) = d :: (body ++ [d]) := by
  rw [List.take_succ_cons, List.take_length_add_append, List.take_succ_cons, List.take_zero]

theorem front_reports (b : UInt8) (rest : Bytes) {t : Token} (hk : t.kind = (front b rest).kind)
    (hl : t.lexeme = (b :: rest).take (front b rest).length) : Reports t (front b rest).issue := by
  cases b, rest using front_cases with
  | string body after hm hf =>
    rw [hf] at hk hl ⊢
    rw [take_quoted] at hl
    apply reports_none (by simp [hk])
    intro _
    rw [hl, Token.count_quoted hm]
    decide
  | openString _ hm hf =>
    rw [hf] at hk hl ⊢
    rw [List.take_of_length_le (by simp)] at hl
    apply reports_some
    · exact Or.inr ⟨hk, by rw [hl, Token.count_open hm]⟩
    · exact (Token.faultCode_string hk).symm
  | word body after o hm ho hf =>
    rw [hf] at hk ⊢
    exact reports_none (by simp [hk]) (by simp [hk])
  | unknownWord body after hm ho hf =>
    rw [hf] at hk hl ⊢
    rw [take_quoted] at hl
    exact reports_some (Or.inl hk) (Token.faultCode_backtick hk hl hm).symm
  | openBacktick _ hm hf =>
    rw [hf] at hk hl ⊢
    rw [List.take_of_length_le (by simp)] at hl
    exact reports_some (Or.inl hk) (Token.faultCode_openBacktick hk hl hm).symm
  | number b rest hn hf =>
    rw [hf] at hk ⊢
    exact reports_none (by simp [hk]) (by simp [hk])
  | name b rest hstart hf =>
    rw [hf] at hk ⊢
    rcases nameKind_cases (b :: rest.take (Rule.run Byte.isNamePart rest)) with he | ⟨k, he⟩
    · exact reports_none (by simp [hk, he]) (by simp [hk, he])
    · exact reports_none (by simp [hk, he]) (by simp [hk, he])
  | openComment body hf =>
    rw [hf] at hk hl ⊢
    rw [List.take_of_length_le (by simp)] at hl
    exact reports_some (Or.inl hk) (Token.faultCode_comment hk hl).symm
  | symbol b rest p h hn hc hf =>
    rw [hf] at hk ⊢
    exact reports_none (by simp [hk]) (by simp [hk])
  | stray b rest hq hb hn hname h hf =>
    rw [hf] at hk hl ⊢
    rw [List.take_succ_cons] at hl
    have hslash := Operator.ne_slash_of_symbolAt? h
    exact reports_some (Or.inl hk) (Token.faultCode_stray hk hl hslash hb).symm

theorem front_open (b : UInt8) (rest : Bytes) {i : Issue} (hi : (front b rest).issue = some i)
    (hc : i.code ∈ openCodes) : (front b rest).length = rest.length + 1 := by
  cases b, rest using front_cases with
  | string body after hm hf => simp [hf] at hi
  | openString _ hm hf => rw [hf]
  | word body after o hm ho hf => simp [hf] at hi
  | unknownWord body after hm ho hf =>
    rw [hf] at hi
    obtain rfl := Option.some.inj hi
    exact absurd hc (by decide)
  | openBacktick _ hm hf => rw [hf]
  | number b rest hn hf => simp [hf] at hi
  | name b rest hstart hf => simp [hf] at hi
  | openComment body hf => rw [hf, List.length_cons]
  | symbol b rest p h hn hcomment hf => simp [hf] at hi
  | stray b rest hq hb hn hname h hf =>
    rw [hf] at hi
    obtain rfl := Option.some.inj hi
    exact absurd hc (by decide)

end Lexeme

structure Step.Faithful (s : Step) : Prop where
  isSome_iff : s.diagnostic.isSome ↔ s.token.Malformed
  span_eq : ∀ d ∈ s.diagnostic, d.span = some s.token.span
  code_eq : ∀ d ∈ s.diagnostic, d.issue.code = s.token.faultCode

namespace Cursor

theorem diagnostic_takeLexeme {c : Cursor} {b : UInt8} {rest : Bytes} (h : c.unread = b :: rest) :
    c.takeLexeme.diagnostic = (Lexeme.front b rest).issue.map fun issue =>
      ⟨issue, c.takeLexeme.cursor.line, some c.takeLexeme.token.span⟩ := by
  rw [takeLexeme, h]

theorem faithful_takeLexeme (c : Cursor) : c.takeLexeme.Faithful := by
  cases hu : c.unread with
  | nil =>
    have hr := reports_none (t := c.takeLexeme.token) (by simp [takeLexeme_nil hu])
      (by simp [takeLexeme_nil hu])
    rw [takeLexeme_nil hu] at hr ⊢
    exact ⟨hr.isSome_iff, by simp, by simp⟩
  | cons b rest =>
    have hr := Lexeme.front_reports b rest (t := c.takeLexeme.token)
      (by rw [takeLexeme, hu]) (by rw [takeLexeme, hu])
    have hd := diagnostic_takeLexeme hu
    refine ⟨?_, ?_, ?_⟩
    · rw [hd, Option.isSome_map]
      exact hr.isSome_iff
    · intro d hm
      rw [hd] at hm
      obtain ⟨i, -, rfl⟩ := Option.map_eq_some_iff.mp hm
      rfl
    · intro d hm
      rw [hd] at hm
      obtain ⟨i, hi, rfl⟩ := Option.map_eq_some_iff.mp hm
      exact hr.code_eq i hi

theorem unread_of_open {c : Cursor} {d : Diagnostic} (hd : d ∈ c.takeLexeme.diagnostic)
    (hc : d.issue.code ∈ openCodes) : c.takeLexeme.cursor.unread = [] := by
  cases hu : c.unread with
  | nil =>
    rw [takeLexeme_nil hu]
    exact hu
  | cons b rest =>
    rw [diagnostic_takeLexeme hu] at hd
    obtain ⟨i, hi, rfl⟩ := Option.map_eq_some_iff.mp hd
    have hl := Lexeme.front_open b rest hi hc
    have ha : c.takeLexeme.cursor = c.advance (Lexeme.front b rest).length := by
      rw [takeLexeme, hu]
    rw [ha, hl, advance, hu]
    simp

theorem diagnostics_eq (c : Cursor) :
    c.scan.diagnostics.map (fun d => (d.span, d.issue.code)) =
      (c.tokens.filter (·.Malformed)).map (fun t => (some t.span, t.faultCode)) := by
  have hall : ∀ s ∈ c.steps, s.Faithful := by
    intro s hs
    obtain ⟨k, rfl⟩ := exists_of_mem_steps hs
    exact faithful_takeLexeme _
  simp only [tokens, scan]
  generalize c.steps = steps at hall
  induction steps with
  | nil => rfl
  | cons s steps ih =>
    have hs := hall s List.mem_cons_self
    have ih := ih fun t ht => hall t (List.mem_cons_of_mem _ ht)
    cases hd : s.diagnostic with
    | none =>
      have hm : ¬ s.token.Malformed := by
        rw [← hs.isSome_iff, hd]
        simp
      rw [List.filterMap_cons_none hd, List.map_cons, List.filter_cons_of_neg (by simpa using hm),
        ih]
    | some d =>
      have hm : s.token.Malformed := by
        rw [← hs.isSome_iff, hd]
        rfl
      rw [List.filterMap_cons_some hd, List.map_cons, List.map_cons,
        List.filter_cons_of_pos (by simpa using hm), List.map_cons, ih, hs.span_eq d hd,
        hs.code_eq d hd]

theorem hasErrors_scan (c : Cursor) : c.scan.hasErrors ↔ ∃ t ∈ c.tokens, t.Malformed := by
  have hl : c.scan.diagnostics = [] ↔ c.tokens.filter (·.Malformed) = [] := by
    rw [← List.map_eq_nil_iff (f := fun d => (d.span, d.issue.code)), diagnostics_eq,
      List.map_eq_nil_iff]
  rw [Scan.hasErrors_iff, Ne, hl, List.filter_eq_nil_iff]
  simp

theorem stop_of_exhausted {c : Cursor} {bs : Bytes} (h : c.StandsIn bs)
    (hu : c.next.cursor.unread = []) : c.next.token.span.stop = bs.length := by
  have hn := h.next
  have hd := hn.unread_eq.symm.trans hu
  rw [List.drop_eq_nil_iff] at hd
  rw [(span_next c).2]
  exact Nat.le_antisymm hn.pos_le hd

theorem diagnostics_of_nil {c : Cursor} (h : c.unread = []) :
    c.steps.filterMap (·.diagnostic) = [] := by
  rw [steps_eq, next_of_nil h]
  rfl

theorem open_is_last {c : Cursor} {bs : Bytes} (h : c.StandsIn bs) {before back : List Diagnostic}
    {d : Diagnostic} (hs : c.scan.diagnostics = before ++ d :: back)
    (hc : d.issue.code ∈ openCodes) :
    back = [] ∧ ∃ span, d.span = some span ∧ span.stop = bs.length := by
  simp only [scan] at hs
  induction c using steps_induction generalizing before with
  | last c hk =>
    have hn : c.next.diagnostic = none := by
      rw [next, takeLexeme_nil ((kind_takeLexeme _).mp hk)]
    rw [List.filterMap_cons_none hn] at hs
    exact absurd hs (by simp)
  | more c hk ih =>
    cases hd : c.next.diagnostic with
    | none =>
      rw [List.filterMap_cons_none hd] at hs
      exact ih h.next hs
    | some e =>
      rw [List.filterMap_cons_some hd] at hs
      rcases before with _ | ⟨x, before⟩
      · obtain ⟨rfl, rfl⟩ := List.cons.inj hs
        have hu := unread_of_open hd hc
        have hspan := (faithful_takeLexeme c.skipTrivia).span_eq e hd
        exact ⟨diagnostics_of_nil hu, c.next.token.span, hspan, stop_of_exhausted h hu⟩
      · exact ih h.next (List.cons.inj hs).2

end Cursor

theorem countP_le_one_of_last {α : Type} {p : α → Bool} {as : List α}
    (h : ∀ before a back, as = before ++ a :: back → p a → back = []) : as.countP p ≤ 1 := by
  induction as with
  | nil => exact Nat.zero_le _
  | cons a as ih =>
    by_cases hp : p a
    · rw [h [] a as rfl hp]
      exact List.countP_le_length
    · rw [List.countP_cons_of_neg hp]
      apply ih
      intro before b back he hb
      exact h (a :: before) b back (by rw [he, List.cons_append]) hb

theorem malformed_tokens_reported (bs : Bytes) :
    (∀ k, ((Cursor.start bs).after k).next.Faithful) ∧
      (scan bs).diagnostics.map (fun d => (d.span, d.issue.code)) =
        ((Cursor.start bs).tokens.filter (·.Malformed)).map (fun t => (some t.span, t.faultCode)) ∧
      ((scan bs).hasErrors ↔ ∃ t ∈ (Cursor.start bs).tokens, t.Malformed) ∧
      (scan bs).diagnostics.countP (·.issue.code ∈ openCodes) ≤ 1 ∧
      ∀ before d back, (scan bs).diagnostics = before ++ d :: back → d.issue.code ∈ openCodes →
        back = [] ∧ ∃ span, d.span = some span ∧ span.stop = bs.length := by
  have hlast : ∀ before d back, (scan bs).diagnostics = before ++ d :: back →
      d.issue.code ∈ openCodes → back = [] ∧ ∃ span, d.span = some span ∧ span.stop = bs.length :=
    fun before d back hs hc => Cursor.open_is_last (Cursor.standsIn_start bs) hs hc
  refine ⟨fun k => Cursor.faithful_takeLexeme _, Cursor.diagnostics_eq _, Cursor.hasErrors_scan _,
    ?_, hlast⟩
  apply countP_le_one_of_last
  intro before d back hs hc
  exact (hlast before d back hs (by simpa using hc)).1

end ScriptLexer
