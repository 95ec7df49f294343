import ScriptLexer.Cursor.Lemmas
import ScriptLexer.Proofs.ElementaryRules
import ScriptLexer.Proofs.LexicalGrammar

namespace ScriptLexer.Grammar

open Rule (run run_append run_eq_zero)

theorem Piece.length_pos {p after : Bytes} (h : Piece p after) : 0 < p.length := by
  cases h <;> simp

theorem not_lineFeed_of_mem {body : Bytes} (h : Byte.lineFeed ∉ body) :
    ∀ b ∈ body, (b != Byte.lineFeed) = true := by
  intro b hb
  rw [bne_iff_ne]
  rintro rfl
  exact h hb

theorem piece_slash {rest : Bytes} (h : Trivia.comment rest ≠ 0) :
    Trivia.piece (Byte.slash :: rest) = Trivia.comment rest + 1 := by
  rw [Trivia.piece, if_neg (by decide), if_pos ⟨rfl, h⟩]

theorem piece_complete {p after : Bytes} (h : Piece p after) :
    Trivia.piece (p ++ after) = p.length := by
  cases h with
  | layout b after hb => simp [Trivia.piece, hb]
  | line body after hb ha =>
    have hz : run (· != Byte.lineFeed) after = 0 := by
      apply run_eq_zero
      intro b hh
      rcases ha with rfl | ha
      · cases hh
      · have he : Byte.lineFeed = b := Option.some.inj (ha.symm.trans hh)
        simp [← he]
    have hc : Trivia.comment (Byte.slash :: (body ++ after)) = body.length + 1 := by
      rw [Trivia.comment, if_pos rfl, run_append after (not_lineFeed_of_mem hb), hz, Nat.add_zero]
    rw [List.cons_append, List.cons_append, piece_slash (by omega), hc]
    rfl
  | block body after hb =>
    have hp := Rule.throughPair?_complete (show Byte.star ≠ Byte.slash by decide) after hb
    have hc : Trivia.comment (Byte.star :: (body ++ [Byte.star, Byte.slash] ++ after)) =
        body.length + 2 + 1 := by
      rw [List.append_assoc, List.cons_append, List.cons_append, List.nil_append, Trivia.comment,
        if_neg (by decide), if_pos rfl, hp, Option.elim_some]
    rw [List.cons_append, List.cons_append, piece_slash (by omega), hc]
    simp

theorem comment_sound {bs : Bytes} (h : Trivia.comment bs ≠ 0) :
    ∃ p rest, bs = p ++ rest ∧ Piece (Byte.slash :: p) rest ∧ Trivia.comment bs = p.length := by
  cases bs with
  | nil => exact absurd rfl h
  | cons b bs =>
    simp only [Trivia.comment] at h ⊢
    split at h
    · next hb =>
      let n := run (· != Byte.lineFeed) bs
      refine ⟨b :: bs.take n, bs.drop n, by simp, ?_, ?_⟩
      · rw [hb]
        apply Piece.line
        · intro hm
          simpa using Rule.of_mem_take_run hm
        · cases hd : bs.drop n with
          | nil => exact Or.inl rfl
          | cons c rest =>
            have hh : (bs.drop n).head? = some c := by rw [hd, List.head?_cons]
            have hc := Rule.not_of_head_drop_run (p := (· != Byte.lineFeed)) hh
            right
            simpa using hc
      · have := Rule.run_le (· != Byte.lineFeed) bs
        rw [if_pos hb, List.length_cons, List.length_take, Nat.min_eq_left this]
    split at h
    · next hb hs =>
      cases hp : Rule.throughPair? Byte.star Byte.slash bs with
      | none => simp [hp] at h
      | some n =>
        obtain ⟨body, rest, rfl, hi, rfl⟩ := Rule.throughPair?_sound hp
        refine ⟨b :: (body ++ [Byte.star, Byte.slash]), rest, by simp, ?_, ?_⟩
        · rw [hs]
          exact Piece.block body rest hi
        · rw [if_neg hb, if_pos hs]
          simp
    · exact absurd rfl h

theorem piece_sound {bs : Bytes} (h : Trivia.piece bs ≠ 0) :
    ∃ p rest, bs = p ++ rest ∧ Piece p rest ∧ Trivia.piece bs = p.length := by
  cases bs with
  | nil => exact absurd rfl h
  | cons b bs =>
    simp only [Trivia.piece] at h ⊢
    split at h
    · next hb =>
      refine ⟨[b], bs, rfl, Piece.layout b bs hb, ?_⟩
      rw [if_pos hb, List.length_singleton]
    split at h
    · next hb hc =>
      obtain ⟨p, rest, hs, hp, hn⟩ := comment_sound hc.2
      refine ⟨b :: p, rest, by rw [hs, List.cons_append], ?_, ?_⟩
      · rw [hc.1]
        exact hp
      · rw [if_neg hb, if_pos hc, hn, List.length_cons]
    · exact absurd rfl h

theorem skipTrivia_append {g after : Bytes} (h : Gap g after) (c : Cursor)
    (hc : c.unread = g ++ after) : c.skipTrivia = (c.advance g.length).skipTrivia := by
  induction h generalizing c with
  | nil after => rw [List.length_nil, Cursor.advance_zero]
  | cons p g after hp hg ih =>
    have hn : Trivia.piece c.unread = p.length := by
      rw [hc, List.append_assoc, piece_complete hp]
    have hpos := hp.length_pos
    have hu : (c.advance p.length).unread = g ++ after := by
      simp [Cursor.advance, hc]
    rw [Cursor.skipTrivia, if_neg (by omega), hn, ih _ hu, Cursor.advance_advance, List.length_append]

theorem gap_skipTrivia (c : Cursor) :
    ∃ g, c.unread = g ++ c.skipTrivia.unread ∧ Gap g c.skipTrivia.unread ∧
      c.skipTrivia = c.advance g.length := by
  fun_induction Cursor.skipTrivia c with
  | case1 c h => exact ⟨[], rfl, Gap.nil _, (Cursor.advance_zero c).symm⟩
  | case2 c h ih =>
    obtain ⟨g, hu, hg, ha⟩ := ih
    obtain ⟨p, rest, hs, hp, hn⟩ := piece_sound h
    have hr : rest = g ++ (c.advance (Trivia.piece c.unread)).skipTrivia.unread := by
      rw [← hu, hn]
      simp [Cursor.advance, hs]
    refine ⟨p ++ g, ?_, Gap.cons p g _ (hr ▸ hp) hg, ?_⟩
    · rw [List.append_assoc, ← hr, hs]
    · rw [ha, hn, Cursor.advance_advance, List.length_append]

theorem leadingTrivia_skipTrivia (c : Cursor) :
    ∃ g, LeadingTrivia c.unread g c.skipTrivia.unread ∧ c.skipTrivia = c.advance g.length := by
  obtain ⟨g, hu, hg, ha⟩ := gap_skipTrivia c
  refine ⟨g, ⟨hu, hg, ?_⟩, ha⟩
  intro v r hv hr
  have hl := Cursor.length_unread_skipTrivia_le (c.advance v.length)
  rw [← skipTrivia_append hr c hv, Cursor.length_unread_advance, hv, List.length_append] at hl
  have ht := congrArg List.length (hv.symm.trans hu)
  rw [List.length_append, List.length_append] at ht
  omega

end ScriptLexer.Grammar
