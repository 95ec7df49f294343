import ScriptLexer.Proofs.GrammarReading
import ScriptLexer.Proofs.ReadingBoundaries
import ScriptLexer.Cursor.Basic

namespace ScriptLexer.Cursor

def ofString (s : String) : Cursor := start (Bytes.ofString s)

def tokens (c : Cursor) : List Token := c.steps.map (·.token)

def after (c : Cursor) : Nat → Cursor
  | 0 => c
  | k + 1 => (c.after k).next.cursor

theorem after_succ (c : Cursor) (k : Nat) : c.after (k + 1) = c.next.cursor.after k := by
  induction k with
  | zero => rfl
  | succ k ih => rw [after, ih, after]

theorem after_invariant {P : Cursor → Prop} (hnext : ∀ c, P c → P c.next.cursor) {c : Cursor}
    (h : P c) (k : Nat) : P (c.after k) := by
  induction k with
  | zero => exact h
  | succ k ih => exact hnext _ ih

theorem StandsIn.after {c : Cursor} {bs : Bytes} (h : c.StandsIn bs) (k : Nat) :
    (c.after k).StandsIn bs :=
  after_invariant (P := (·.StandsIn bs)) (fun _ h => StandsIn.next h) h k

theorem standsIn_ofString (s : String) (k : Nat) :
    ((ofString s).after k).StandsIn (Bytes.ofString s) :=
  (standsIn_start _).after k

theorem takeLexeme_append (c : Cursor) :
    c.unread = c.takeLexeme.token.lexeme ++ c.takeLexeme.cursor.unread := by
  simp only [takeLexeme]
  split
  · next h => rw [h, List.append_nil]
  · exact (List.take_append_drop _ _).symm

theorem takeLexeme_cons {c : Cursor} {b : UInt8} {rest : Bytes} (h : c.unread = b :: rest) :
    c.takeLexeme.token.kind = (Lexeme.front b rest).kind ∧
      c.takeLexeme.token.lexeme.length = (Lexeme.front b rest).length := by
  have hl := Lexeme.length_le b rest
  simp only [takeLexeme, h, true_and]
  rw [List.length_take, List.length_cons]
  omega

theorem takeLexeme_nil {c : Cursor} (h : c.unread = []) :
    c.takeLexeme = ⟨⟨.endOfText, [], ⟨c.pos, 0⟩, c.line⟩, none, c⟩ := by
  rw [takeLexeme, h]

theorem next_of_nil {c : Cursor} (h : c.unread = []) :
    c.next = ⟨⟨.endOfText, [], ⟨c.pos, 0⟩, c.line⟩, none, c⟩ := by
  have hs : c.skipTrivia = c := by
    rw [skipTrivia, h, if_pos (show Trivia.piece [] = 0 from rfl)]
  rw [next, hs, takeLexeme_nil h]

theorem next_append (c : Cursor) :
    c.skipTrivia.unread = c.next.token.lexeme ++ c.next.cursor.unread :=
  takeLexeme_append c.skipTrivia

theorem isText_skipTrivia {c : Cursor} (h : Bytes.IsText c.unread) :
    Bytes.IsText c.skipTrivia.unread := by
  obtain ⟨g, hu, hg, -⟩ := Grammar.gap_skipTrivia c
  exact hg.isText (hu ▸ h)

theorem length_lexeme_next (c : Cursor) :
    c.next.token.lexeme.length = c.next.token.span.length := by
  cases hu : c.skipTrivia.unread with
  | nil => rw [next, takeLexeme_nil hu, List.length_nil]
  | cons b rest =>
    rw [next, (takeLexeme_cons hu).2, takeLexeme, hu]

open Grammar (Reads)

theorem reads_takeLexeme {c : Cursor} (ht : Bytes.IsText c.unread)
    (hp : Trivia.piece c.unread = 0) :
    Reads c.takeLexeme.token.lexeme c.takeLexeme.cursor.unread c.takeLexeme.token.kind := by
  cases hu : c.unread with
  | nil =>
    rw [takeLexeme_nil hu, hu]
    exact Reads.endOfText
  | cons b rest =>
    rw [hu] at ht hp
    obtain ⟨w, after, hs, hr, hl⟩ := Grammar.front_reads ht hp
    obtain ⟨hk, hlen⟩ := takeLexeme_cons hu
    have ha := takeLexeme_append c
    rw [hu, hs] at ha
    obtain ⟨hw, hafter⟩ := List.append_inj ha (hl.symm.trans hlen.symm)
    rw [← hw, ← hafter, hk]
    exact hr

theorem takeLexeme_of_reads {c : Cursor} (ht : Bytes.IsText c.unread)
    (hp : Trivia.piece c.unread = 0) {w after : Bytes} {k : Kind} (hs : c.unread = w ++ after)
    (hr : Reads w after k) :
    c.takeLexeme.token.lexeme = w ∧ c.takeLexeme.cursor.unread = after ∧
      c.takeLexeme.token.kind = k := by
  cases hu : c.unread with
  | nil =>
    rw [hu] at hs
    obtain ⟨rfl, rfl⟩ := List.append_eq_nil_iff.mp hs.symm
    rw [takeLexeme_nil hu, hu]
    exact ⟨rfl, rfl, hr.kind_nil.symm⟩
  | cons b rest =>
    rw [hu] at ht hp hs
    obtain ⟨hl, hk⟩ := hr.front_correct hs ht hp
    obtain ⟨hkind, hlen⟩ := takeLexeme_cons hu
    have ha := takeLexeme_append c
    rw [hu, hs] at ha
    obtain ⟨hw, hafter⟩ := List.append_inj ha (hl.symm.trans hlen.symm)
    exact ⟨hw.symm, hafter.symm, hkind.trans hk⟩

theorem reads_next_iff {c : Cursor} (h : Bytes.IsText c.unread) (w after : Bytes) (k : Kind) :
    (c.skipTrivia.unread = w ++ after ∧ Reads w after k) ↔
      c.next.token.lexeme = w ∧ c.next.cursor.unread = after ∧ c.next.token.kind = k := by
  have ht := isText_skipTrivia h
  have hp := piece_skipTrivia c
  constructor
  · rintro ⟨hs, hr⟩
    exact takeLexeme_of_reads ht hp hs hr
  · rintro ⟨rfl, rfl, rfl⟩
    exact ⟨next_append c, reads_takeLexeme ht hp⟩

theorem isText_next {c : Cursor} (h : Bytes.IsText c.unread) :
    Bytes.IsText c.next.cursor.unread := by
  obtain ⟨hs, hr⟩ := (reads_next_iff h _ _ _).mpr ⟨rfl, rfl, rfl⟩
  exact hr.isText (hs ▸ isText_skipTrivia h)

theorem isText_lexeme_next {c : Cursor} (h : Bytes.IsText c.unread) :
    Bytes.IsText c.next.token.lexeme :=
  (next_append c ▸ isText_skipTrivia h).front (isText_next h)

theorem isText_after {c : Cursor} (h : Bytes.IsText c.unread) (k : Nat) :
    Bytes.IsText (c.after k).unread :=
  after_invariant (P := fun c => Bytes.IsText c.unread) (fun _ h => isText_next h) h k

theorem isText_ofString (s : String) (k : Nat) : Bytes.IsText ((ofString s).after k).unread :=
  isText_after (Bytes.isText_ofString s) k

theorem steps_induction {P : Cursor → List Step → Prop}
    (last : ∀ c, c.next.token.kind = .endOfText → P c [c.next])
    (more : ∀ c, c.next.token.kind ≠ .endOfText → P c.next.cursor c.next.cursor.steps →
      P c (c.next :: c.next.cursor.steps)) (c : Cursor) : P c c.steps := by
  rw [steps_eq]
  by_cases h : c.next.token.kind = .endOfText
  · rw [if_pos h]
    exact last c h
  · rw [if_neg h]
    exact more c h (steps_induction last more c.next.cursor)
termination_by c.unread.length
decreasing_by exact length_unread_next_lt c h

theorem steps_getElem? (c : Cursor) {k : Nat} (h : k < c.steps.length) :
    c.steps[k]? = some (c.after k).next := by
  induction k generalizing c with
  | zero =>
    rw [steps_eq]
    split <;> rfl
  | succ k ih =>
    rw [steps_eq] at h ⊢
    split at h
    · rw [List.length_singleton] at h
      omega
    · next hk =>
      rw [if_neg hk, List.getElem?_cons_succ, after_succ]
      exact ih _ (Nat.lt_of_succ_lt_succ h)

theorem exists_of_mem_steps {c : Cursor} {step : Step} (h : step ∈ c.steps) :
    ∃ k, step = (c.after k).next := by
  obtain ⟨k, hk, he⟩ := List.mem_iff_getElem.mp h
  have hs := steps_getElem? c hk
  rw [List.getElem?_eq_getElem hk, he] at hs
  exact ⟨k, Option.some.inj hs⟩

theorem tokens_getElem? (c : Cursor) {k : Nat} (h : k < c.tokens.length) :
    c.tokens[k]? = some (c.after k).next.token := by
  rw [tokens, List.length_map] at h
  rw [tokens, List.getElem?_map, steps_getElem? c h, Option.map_some]

theorem exists_of_mem_tokens {c : Cursor} {t : Token} (h : t ∈ c.tokens) :
    ∃ k, t = (c.after k).next.token := by
  obtain ⟨step, hs, rfl⟩ := List.mem_map.mp h
  obtain ⟨k, rfl⟩ := exists_of_mem_steps hs
  exact ⟨k, rfl⟩

theorem length_steps_le (c : Cursor) : c.steps.length ≤ c.unread.length + 1 := by
  induction c using steps_induction with
  | last c h => simp
  | more c h ih =>
    have := length_unread_next_lt c h
    rw [List.length_cons]
    omega

end ScriptLexer.Cursor

namespace ScriptLexer

open Grammar (LeadingTrivia Reads)

/-- From the offset on, the step skips the longest trivia and reads what the grammar reads, which
is nothing else. -/
def Step.Grammatical (step : Step) (text : Bytes) (pos : Nat) : Prop :=
  ∃ gap rest, LeadingTrivia (text.drop pos) gap rest ∧
    step.token.span = ⟨pos + gap.length, step.token.lexeme.length⟩ ∧
    step.cursor.pos = step.token.span.stop ∧
    ∀ w after kind, (rest = w ++ after ∧ Reads w after kind) ↔
      step.token.lexeme = w ∧ text.drop step.cursor.pos = after ∧ step.token.kind = kind

namespace Cursor

theorem StandsIn.grammatical_next {c : Cursor} {text : Bytes} (h : c.StandsIn text)
    (ht : Bytes.IsText c.unread) : c.next.Grammatical text c.pos := by
  obtain ⟨gap, hgap, hskip⟩ := Grammar.leadingTrivia_skipTrivia c
  obtain ⟨hstart, hstop⟩ := span_next c
  have hpos : c.skipTrivia.pos = c.pos + gap.length := by
    rw [hskip]
    rfl
  rw [h.unread_eq] at hgap
  refine ⟨gap, c.skipTrivia.unread, hgap, ?_, hstop.symm, ?_⟩
  · rw [length_lexeme_next, ← hpos, ← hstart]
  · intro w after kind
    rw [reads_next_iff ht, h.next.unread_eq]

theorem next_computes_grammar (s : String) (k : Nat) :
    ((ofString s).after k).next.Grammatical (Bytes.ofString s) ((ofString s).after k).pos :=
  (standsIn_ofString s k).grammatical_next (isText_ofString s k)

end Cursor

end ScriptLexer
