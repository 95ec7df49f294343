import ScriptLexer.LineIndex.Lemmas
import ScriptLexer.Proofs.CursorRuns

namespace ScriptLexer

structure Step.Located (s : Step) (index : LineIndex) : Prop where
  token_line : s.token.line = index.lineOf s.token.span.start
  diagnostic_line : ∀ d ∈ s.diagnostic, ∃ span, d.span = some span ∧ d.line = index.lineOf span.stop

structure Cursor.Counts (c : Cursor) (text : Text) : Prop where
  line_eq : c.line = 1 + (text.bytes.take c.pos).count Byte.lineFeed
  lineOf_eq : c.line = (LineIndex.ofText text).lineOf c.pos

namespace Cursor

theorem line_next (c : Cursor) : c.next.token.line = c.skipTrivia.line := by
  rw [next, takeLexeme]
  split <;> rfl

theorem diagnostic_next {c : Cursor} {d : Diagnostic} (h : d ∈ c.next.diagnostic) :
    d.span = some c.next.token.span ∧ d.line = c.next.cursor.line := by
  cases hu : c.skipTrivia.unread with
  | nil =>
    rw [next, takeLexeme_nil hu] at h
    exact absurd h (by simp)
  | cons b rest =>
    simp only [next, takeLexeme, hu] at h ⊢
    obtain ⟨issue, -, rfl⟩ := Option.map_eq_some_iff.mp h
    exact ⟨rfl, rfl⟩

variable {c : Cursor} {text : Text}

theorem issue_next {c : Cursor} {d : Diagnostic} (h : d ∈ c.next.diagnostic) :
    d.issue ∈ Issue.all := by
  cases hu : c.skipTrivia.unread with
  | nil =>
    rw [next, takeLexeme_nil hu] at h
    exact absurd h (by simp)
  | cons b rest =>
    simp only [next, takeLexeme, hu] at h
    obtain ⟨issue, hi, rfl⟩ := Option.map_eq_some_iff.mp h
    exact Lexeme.issue_front b rest issue hi

theorem StandsIn.counts (h : c.StandsIn text.bytes) : c.Counts text := by
  refine ⟨h.line_eq, ?_⟩
  rw [h.line_eq, LineIndex.lineOf_ofText]

theorem StandsIn.located_next (h : c.StandsIn text.bytes) :
    c.next.Located (LineIndex.ofText text) := by
  obtain ⟨hstart, hstop⟩ := span_next c
  constructor
  · rw [line_next, hstart]
    exact h.skipTrivia.counts.lineOf_eq
  · intro d hd
    obtain ⟨hs, hl⟩ := diagnostic_next hd
    refine ⟨c.next.token.span, hs, ?_⟩
    rw [hl, hstop]
    exact h.next.counts.lineOf_eq

end Cursor

theorem counted_lines_are_index_lines (text : Text) :
    (∀ k, ((Cursor.start text.bytes).after k).Counts text ∧
      ((Cursor.start text.bytes).after k).next.Located (LineIndex.ofText text)) ∧
      (∀ t ∈ (Cursor.start text.bytes).tokens,
        t.line = (LineIndex.ofText text).lineOf t.span.start) ∧
      ∀ d ∈ (scan text.bytes).diagnostics,
        ∃ span, d.span = some span ∧ d.line = (LineIndex.ofText text).lineOf span.stop := by
  have hs (k : Nat) : ((Cursor.start text.bytes).after k).StandsIn text.bytes :=
    (Cursor.standsIn_start _).after k
  refine ⟨fun k => ⟨(hs k).counts, (hs k).located_next⟩, ?_, ?_⟩
  · intro t ht
    obtain ⟨k, rfl⟩ := Cursor.exists_of_mem_tokens ht
    exact (hs k).located_next.token_line
  · intro d hd
    obtain ⟨step, hm, he⟩ := (Scan.mem_diagnostics_iff _ d).mp hd
    obtain ⟨k, rfl⟩ := Cursor.exists_of_mem_steps hm
    exact (hs k).located_next.diagnostic_line d he

end ScriptLexer
