import ScriptLexer.Proofs.CursorRuns
import ScriptLexer.Text

namespace ScriptLexer

def gaps (text : Text) : Nat → List Token → List Bytes
  | _, [] => []
  | pos, t :: ts => text.slice pos t.span.start :: gaps text t.span.stop ts

def tiles (text : Text) (pos : Nat) (ts : List Token) : Bytes :=
  (List.zipWith (· ++ ·) (gaps text pos ts) (ts.map (·.lexeme))).flatten

def Token.IsEnd (t : Token) (text : Text) : Prop :=
  t.kind = .endOfText ∧ t.lexeme = [] ∧ t.span = ⟨text.size, 0⟩

structure Tiling (text : Text) (ts : List Token) : Prop where
  lexeme_eq : ∀ t ∈ ts, text.slice? t.span.start t.span.stop = some t.lexeme
  one_end : ∃ body e, ts = body ++ [e] ∧ e.IsEnd text ∧
    ∀ t ∈ body, t.kind ≠ .endOfText ∧ t.lexeme ≠ []
  ordered : ts.Pairwise (fun t u => t.span.stop ≤ u.span.start)
  trivia : ∀ p ∈ (gaps text 0 ts).zip ts, Grammar.Gap p.1 (text.bytes.drop p.2.span.start)
  joined : tiles text 0 ts = text.bytes

namespace Cursor

theorem isBoundary_of_standsIn {c : Cursor} {s : String} (h : c.StandsIn (Bytes.ofString s))
    (ht : Bytes.IsText c.unread) : Text.isBoundary s.toUTF8 c.pos := by
  have hsize : (Bytes.ofString s).length = s.toUTF8.size := Text.length_bytes s.toUTF8
  have hle := h.pos_le
  by_cases hp : c.pos < s.toUTF8.size
  · obtain ⟨cs, hcs⟩ := ht
    have hh : c.unread.head? = some s.toUTF8[c.pos] := by
      rw [h.unread_eq, List.head?_drop, List.getElem?_eq_getElem (by omega)]
      rfl
    have hb : Byte.isContinuation s.toUTF8[c.pos] = false :=
      Bool.eq_false_iff.mpr (Bytes.not_isContinuation_of_head (hcs ▸ hh))
    rw [Text.isBoundary, dif_pos hp, hb, Bool.not_false, Bool.or_true]
  · have he : c.pos = s.toUTF8.size := by omega
    rw [he]
    exact Text.isBoundary_size _

theorem slice_next {c : Cursor} {s : String} (h : c.StandsIn (Bytes.ofString s))
    (ht : Bytes.IsText c.unread) :
    Text.slice? s.toUTF8 c.next.token.span.start c.next.token.span.stop =
      some c.next.token.lexeme := by
  obtain ⟨hstart, hstop⟩ := span_next c
  have hfrom := isBoundary_of_standsIn h.skipTrivia (isText_skipTrivia ht)
  have hto := isBoundary_of_standsIn h.next (isText_next ht)
  rw [← hstart] at hfrom
  rw [← hstop] at hto
  rw [Text.slice?, if_pos ⟨Nat.le_add_right _ _, hfrom, hto⟩, Text.slice_eq, Text.bytes_toUTF8,
    lexeme_next h, Span.stop, Nat.add_sub_cancel_left]

theorem next_gap {c : Cursor} {text : Text} (h : c.StandsIn text.bytes) :
    Grammar.Gap (text.slice c.pos c.next.token.span.start)
        (text.bytes.drop c.next.token.span.start) ∧
      text.bytes.drop c.pos = text.slice c.pos c.next.token.span.start ++
        (c.next.token.lexeme ++ text.bytes.drop c.next.cursor.pos) := by
  obtain ⟨g, hu, hg, hskip⟩ := Grammar.gap_skipTrivia c
  have hpos : c.next.token.span.start = c.pos + g.length := by
    rw [(span_next c).1, hskip]
    rfl
  have hslice : text.slice c.pos c.next.token.span.start = g := by
    rw [Text.slice_eq, hpos, Nat.add_sub_cancel_left, ← h.unread_eq, hu, List.take_left]
  rw [hslice, (span_next c).1, ← h.skipTrivia.unread_eq, ← h.unread_eq, ← h.next.unread_eq,
    ← next_append]
  exact ⟨hg, hu⟩

theorem isEnd_next {c : Cursor} {text : Text} (h : c.StandsIn text.bytes)
    (hk : c.next.token.kind = .endOfText) : c.next.token.IsEnd text := by
  have hu := (kind_takeLexeme c.skipTrivia).mp hk
  have hs := h.skipTrivia
  have hp : c.skipTrivia.pos = text.size := by
    have hd := hs.unread_eq.symm.trans hu
    have := hs.pos_le
    rw [List.drop_eq_nil_iff, Text.length_bytes] at hd
    rw [Text.length_bytes] at this
    omega
  rw [Token.IsEnd, next, takeLexeme_nil hu, hp]
  exact ⟨rfl, rfl, rfl⟩

theorem lexeme_next_ne_nil {c : Cursor} (hk : c.next.token.kind ≠ .endOfText) :
    c.next.token.lexeme ≠ [] := by
  intro hl
  have hlt := length_unread_takeLexeme_lt c.skipTrivia
    (fun hu => hk ((kind_takeLexeme c.skipTrivia).mpr hu))
  have ha := congrArg List.length (next_append c)
  rw [hl, List.nil_append] at ha
  exact absurd ha (Nat.ne_of_gt hlt)

theorem length_pos_of_diagnostic {c : Cursor} {d : Diagnostic} (h : c.next.diagnostic = some d) :
    0 < c.next.token.span.length := by
  rw [← length_lexeme_next, List.length_pos_iff]
  apply lexeme_next_ne_nil
  intro hk
  rw [next, takeLexeme_nil ((kind_takeLexeme c.skipTrivia).mp hk)] at h
  cases h

theorem one_end_of_steps {c : Cursor} {text : Text} (h : c.StandsIn text.bytes) :
    ∃ body e, c.steps.map (·.token) = body ++ [e] ∧ e.IsEnd text ∧
      ∀ t ∈ body, t.kind ≠ .endOfText ∧ t.lexeme ≠ [] := by
  induction c using steps_induction with
  | last c hk => exact ⟨[], c.next.token, rfl, isEnd_next h hk, by simp⟩
  | more c hk ih =>
    obtain ⟨body, e, hs, he, hbody⟩ := ih h.next
    refine ⟨c.next.token :: body, e, by rw [List.map_cons, hs, List.cons_append], he, ?_⟩
    intro t ht
    rcases List.mem_cons.mp ht with rfl | ht
    · exact ⟨hk, lexeme_next_ne_nil hk⟩
    · exact hbody t ht

theorem start_of_mem_steps {c : Cursor} :
    ∀ t ∈ c.steps.map (·.token), c.pos ≤ t.span.start := by
  induction c using steps_induction with
  | last c hk =>
    intro t ht
    obtain rfl := List.mem_singleton.mp ht
    rw [(span_next c).1]
    exact pos_le_pos_skipTrivia c
  | more c hk ih =>
    have hle : c.pos ≤ c.next.token.span.start := by
      rw [(span_next c).1]
      exact pos_le_pos_skipTrivia c
    intro t ht
    rcases List.mem_cons.mp ht with rfl | ht
    · exact hle
    · have := ih t ht
      rw [← (span_next c).2, Span.stop] at this
      omega

theorem ordered_steps (c : Cursor) :
    (c.steps.map (·.token)).Pairwise (fun t u => t.span.stop ≤ u.span.start) := by
  induction c using steps_induction with
  | last c hk => exact List.pairwise_singleton _ _
  | more c hk ih =>
    rw [List.map_cons]
    refine List.Pairwise.cons ?_ ih
    rw [(span_next c).2]
    exact start_of_mem_steps

theorem tiles_steps {c : Cursor} {text : Text} (h : c.StandsIn text.bytes) :
    (∀ p ∈ (gaps text c.pos (c.steps.map (·.token))).zip (c.steps.map (·.token)),
        Grammar.Gap p.1 (text.bytes.drop p.2.span.start)) ∧
      tiles text c.pos (c.steps.map (·.token)) = text.bytes.drop c.pos := by
  induction c using steps_induction with
  | last c hk =>
    obtain ⟨hg, hs⟩ := next_gap h
    obtain ⟨-, hl, hspan⟩ := isEnd_next h hk
    have hd : text.bytes.drop c.next.cursor.pos = [] := by
      rw [← (span_next c).2, hspan, List.drop_eq_nil_iff, Text.length_bytes]
      exact Nat.le_refl _
    rw [hd, List.append_nil] at hs
    refine ⟨by simpa [gaps] using hg, ?_⟩
    rw [hs]
    simp [tiles, gaps]
  | more c hk ih =>
    obtain ⟨hg, hs⟩ := next_gap h
    obtain ⟨htrivia, hjoined⟩ := ih h.next
    rw [← (span_next c).2] at htrivia hjoined hs
    constructor
    · intro p hp
      rw [List.map_cons, gaps, List.zip_cons_cons, List.mem_cons] at hp
      rcases hp with rfl | hp
      · exact hg
      · exact htrivia p hp
    · rw [hs, ← hjoined]
      simp [tiles, gaps]

theorem tiling_tokens (s : String) : Tiling s.toUTF8 (ofString s).tokens := by
  have hstart : (ofString s).StandsIn (Text.bytes s.toUTF8) := standsIn_ofString s 0
  obtain ⟨htrivia, hjoined⟩ := tiles_steps hstart
  refine ⟨?_, one_end_of_steps hstart, ordered_steps _, htrivia, hjoined⟩
  intro t ht
  obtain ⟨k, rfl⟩ := exists_of_mem_tokens ht
  exact slice_next (standsIn_ofString s k) (isText_ofString s k)

theorem next_after_end {c : Cursor} (h : c.next.token.kind = .endOfText) :
    c.next.cursor.next = ⟨c.next.token, none, c.next.cursor⟩ := by
  have hu := (kind_takeLexeme c.skipTrivia).mp h
  have hn : c.next = ⟨⟨.endOfText, [], ⟨c.skipTrivia.pos, 0⟩, c.skipTrivia.line⟩, none,
      c.skipTrivia⟩ := takeLexeme_nil hu
  rw [hn, next_of_nil hu]

theorem after_tokens (c : Cursor) :
    ∃ t ∈ c.tokens.getLast?,
      (c.after c.tokens.length).next = ⟨t, none, c.after c.tokens.length⟩ := by
  rw [tokens, List.length_map]
  induction c using steps_induction with
  | last c hk => exact ⟨c.next.token, rfl, next_after_end hk⟩
  | more c hk ih =>
    obtain ⟨t, ht, he⟩ := ih
    refine ⟨t, ?_, by rw [List.length_cons, after_succ, he]⟩
    rw [List.map_cons, List.getLast?_cons, ht]
    rfl

theorem after_of_le {c : Cursor} {n k : Nat} (h : (c.after n).next.cursor = c.after n)
    (hk : n ≤ k) : c.after k = c.after n := by
  induction hk with
  | refl => rfl
  | step hk ih => rw [after, ih, h]

theorem raw_tokens_tile (s : String) :
    Tiling s.toUTF8 (ofString s).tokens ∧ (ofString s).tokens.length ≤ s.utf8ByteSize + 1 ∧
      (∀ k < (ofString s).tokens.length,
        (ofString s).tokens[k]? = some ((ofString s).after k).next.token) ∧
      ∀ k ≥ (ofString s).tokens.length, ∃ e ∈ (ofString s).tokens.getLast?,
        ((ofString s).after k).next = ⟨e, none, (ofString s).after k⟩ := by
  refine ⟨tiling_tokens s, ?_, fun k hk => tokens_getElem? _ hk, ?_⟩
  · rw [tokens, List.length_map]
    exact length_steps_le (ofString s)
  · intro k hk
    obtain ⟨e, he, hn⟩ := after_tokens (ofString s)
    have hstay : ((ofString s).after (ofString s).tokens.length).next.cursor =
        (ofString s).after (ofString s).tokens.length := by rw [hn]
    rw [after_of_le hstay hk]
    exact ⟨e, he, hn⟩

end Cursor

end ScriptLexer
