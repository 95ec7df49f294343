import ScriptLexer.Cursor.Basic

namespace ScriptLexer.Cursor

structure StandsIn (c : Cursor) (bs : Bytes) : Prop where
  unread_eq : c.unread = bs.drop c.pos
  pos_le : c.pos ≤ bs.length
  line_eq : c.line = 1 + (bs.take c.pos).count Byte.lineFeed

theorem standsIn_start (bs : Bytes) : (start bs).StandsIn bs :=
  ⟨rfl, Nat.zero_le _, rfl⟩

theorem StandsIn.advance {c : Cursor} {bs : Bytes} (h : c.StandsIn bs) {n : Nat}
    (hn : n ≤ c.unread.length) : (c.advance n).StandsIn bs := by
  have hp := h.pos_le
  rw [h.unread_eq, List.length_drop] at hn
  refine ⟨?_, ?_, ?_⟩
  · rw [Cursor.advance, h.unread_eq, List.drop_drop]
  · simp only [Cursor.advance]
    omega
  · simp only [Cursor.advance, h.unread_eq, h.line_eq, List.take_add, List.count_append]
    omega

theorem StandsIn.skipTrivia {c : Cursor} {bs : Bytes} (h : c.StandsIn bs) :
    c.skipTrivia.StandsIn bs := by
  fun_induction Cursor.skipTrivia c with
  | case1 c hp => exact h
  | case2 c hp ih => exact ih (h.advance (Trivia.piece_le _))

theorem StandsIn.takeLexeme {c : Cursor} {bs : Bytes} (h : c.StandsIn bs) :
    c.takeLexeme.cursor.StandsIn bs := by
  simp only [Cursor.takeLexeme]
  split
  · exact h
  · next b rest hc =>
    refine h.advance ?_
    rw [hc, List.length_cons]
    exact Lexeme.length_le b rest

theorem StandsIn.next {c : Cursor} {bs : Bytes} (h : c.StandsIn bs) : c.next.cursor.StandsIn bs :=
  h.skipTrivia.takeLexeme

theorem piece_skipTrivia (c : Cursor) : Trivia.piece c.skipTrivia.unread = 0 := by
  fun_induction skipTrivia c with
  | case1 c hp => exact hp
  | case2 c hp ih => exact ih

theorem pos_le_pos_skipTrivia (c : Cursor) : c.pos ≤ c.skipTrivia.pos := by
  fun_induction skipTrivia c with
  | case1 c hp => exact Nat.le_refl _
  | case2 c hp ih => exact Nat.le_trans (Nat.le_add_right _ _) ih

theorem span_next (c : Cursor) :
    c.next.token.span.start = c.skipTrivia.pos ∧ c.next.token.span.stop = c.next.cursor.pos := by
  simp only [next, takeLexeme]
  split <;> exact ⟨rfl, rfl⟩

theorem lexeme_next {c : Cursor} {bs : Bytes} (h : c.StandsIn bs) :
    c.next.token.lexeme =
      (bs.drop c.next.token.span.start).take c.next.token.span.length := by
  have hs := h.skipTrivia.unread_eq
  simp only [next, takeLexeme]
  split
  · simp
  · next b rest hc => rw [← hs, hc]

end ScriptLexer.Cursor
