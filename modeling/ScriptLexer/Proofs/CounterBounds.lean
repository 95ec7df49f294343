import ScriptLexer.Document
import ScriptLexer.Proofs.CursorLookahead
import ScriptLexer.Proofs.LineCounting
import ScriptLexer.Proofs.LineStarts

namespace ScriptLexer

/-- A function of its length, so that no text of that size is ever built. -/
def lineFeeds (n : Nat) : Text := (String.ofList (List.replicate n '\n')).toUTF8

structure Step.OffsetsFit (s : Step) : Prop where
  start_le : s.token.span.start ≤ s.cursor.pos
  stop_eq : s.token.span.stop = s.cursor.pos
  pos_le : s.cursor.pos ≤ Document.maxOffset
  diagnostic_span : ∀ d ∈ s.diagnostic, d.span = some s.token.span

structure OffsetsFit (text : Text) : Prop where
  steps : ∀ k, ((Cursor.start text.bytes).after k).next.OffsetsFit
  starts_le : ∀ pos ∈ (LineIndex.ofText text).starts, pos ≤ Document.maxOffset

/-- Every line that a scan counts, also between two tokens and inside one, fits in 32 bits, and so
does the line that the index finds for a token, which is the true one. -/
structure LinesFit (text : Text) : Prop where
  counted : ∀ k n, (((Cursor.start text.bytes).after k).advance n).line ≤ Document.maxOffset
  found : ∀ t ∈ (Cursor.start text.bytes).tokens,
    (LineIndex.ofText text).lineOf t.span.start = text.lineAt t.span.start ∧
      (LineIndex.ofText text).lineOf t.span.start ≤ Document.maxOffset

namespace Text

theorem bytes_lineFeeds (n : Nat) :
    (lineFeeds n).bytes = List.replicate n Byte.lineFeed := by
  rw [lineFeeds, bytes_toUTF8, Bytes.ofString_eq_ofChars, String.toList_ofList]
  induction n with
  | zero => rfl
  | succ n ih =>
    rw [List.replicate_succ, Bytes.ofChars_cons, ih]
    rfl

theorem size_lineFeeds (n : Nat) : (lineFeeds n).size = n := by
  rw [← length_bytes, bytes_lineFeeds, List.length_replicate]

theorem eq_lineFeeds_iff {text : Text} :
    text = lineFeeds text.size ↔ text.bytes.count Byte.lineFeed = text.size := by
  rw [← length_bytes text, List.count_eq_length, length_bytes]
  constructor
  · intro h b hb
    rw [h, bytes_lineFeeds] at hb
    exact (List.eq_of_mem_replicate hb).symm
  · intro h
    refine bytes_injective ?_
    rw [bytes_lineFeeds, List.eq_replicate_iff]
    exact ⟨length_bytes text, fun b hb => (h b hb).symm⟩

theorem lines_le_iff {text : Text} {n : Nat} (h : text.size ≤ n) :
    1 + text.bytes.count Byte.lineFeed ≤ n ↔ text ≠ lineFeeds n := by
  have hcount : text.bytes.count Byte.lineFeed ≤ text.size := by
    rw [← length_bytes]
    exact List.count_le_length
  constructor
  · rintro hlt rfl
    rw [bytes_lineFeeds, List.count_replicate_self] at hlt
    omega
  · intro hne
    by_cases he : text.bytes.count Byte.lineFeed = text.size
    · have hlt : text.size ≠ n := by
        rintro rfl
        exact hne (eq_lineFeeds_iff.mpr he)
      omega
    · omega

end Text

theorem Document.exists_load_lineFeeds (path : String) {n : Nat} (h : n ≤ maxOffset) :
    ∃ d, load path (.file (lineFeeds n)) = .ok d ∧ d.text = lineFeeds n := by
  refine ⟨_, load_ofString path (String.ofList (List.replicate n '\n')) ?_, rfl⟩
  exact Nat.le_trans (Nat.le_of_eq (Text.size_lineFeeds n)) h

theorem LineIndex.le_size_of_mem_starts {text : Text} {pos : Nat}
    (h : pos ∈ (ofText text).starts) : pos ≤ text.size := by
  rw [ofText, List.mem_toArray, List.mem_cons] at h
  rcases h with rfl | h
  · exact Nat.zero_le _
  · have := lt_of_mem_startsFrom h
    rw [Text.length_bytes] at this
    omega

namespace Cursor

variable {c : Cursor} {text : Text}

theorem line_advance_of_standsIn (h : c.StandsIn text.bytes) (n : Nat) :
    (c.advance n).line = text.lineAt (c.pos + n) := by
  rw [Text.lineAt, List.take_add, List.count_append, advance, h.line_eq, h.unread_eq]
  exact Nat.add_assoc _ _ _

theorem offsetsFit_next (h : c.StandsIn text.bytes)
    (hsize : text.size ≤ Document.maxOffset) : c.next.OffsetsFit := by
  have hstop := (span_next c).2
  refine ⟨hstop ▸ Nat.le_add_right _ _, hstop, ?_, fun d hd => (diagnostic_next hd).1⟩
  have hpos := h.next.pos_le
  rw [Text.length_bytes] at hpos
  exact Nat.le_trans hpos hsize

theorem next_lineFeeds (n : Nat) :
    (start (lineFeeds n).bytes).next =
      ⟨⟨.endOfText, [], ⟨n, 0⟩, 1 + n⟩, none, ⟨[], n, 1 + n⟩⟩ := by
  have hs : (start (lineFeeds n).bytes).skipTrivia = ⟨[], n, 1 + n⟩ := by
    rw [Text.bytes_lineFeeds, skipTrivia_of_layout]
    · simp [start, advance]
    · intro b hb
      rw [List.eq_of_mem_replicate hb]
      rfl
  rw [next, hs]
  rfl

end Cursor

theorem offsetsFit_of_size_le {text : Text} (h : text.size ≤ Document.maxOffset) :
    OffsetsFit text := by
  constructor
  · intro k
    exact Cursor.offsetsFit_next ((Cursor.standsIn_start _).after k) h
  · intro pos hpos
    exact Nat.le_trans (LineIndex.le_size_of_mem_starts hpos) h

theorem linesFit_iff {text : Text} :
    LinesFit text ↔ 1 + text.bytes.count Byte.lineFeed ≤ Document.maxOffset := by
  constructor
  · intro h
    have hlast := h.counted 0 text.size
    rw [Cursor.line_advance_of_standsIn ((Cursor.standsIn_start _).after 0)] at hlast
    rwa [← text.lineAt_size, ← Nat.zero_add text.size]
  · intro h
    constructor
    · intro k n
      rw [Cursor.line_advance_of_standsIn ((Cursor.standsIn_start _).after k)]
      exact Nat.le_trans (text.lineAt_le _) h
    · intro t ht
      rw [LineIndex.lineOf_eq_lineAt]
      exact ⟨rfl, Nat.le_trans (text.lineAt_le _) h⟩

theorem counters_fit_but_for_line_feeds {text : Text} (h : text.size ≤ Document.maxOffset) :
    OffsetsFit text ∧ (LinesFit text ↔ text ≠ lineFeeds Document.maxOffset) :=
  ⟨offsetsFit_of_size_le h, linesFit_iff.trans (Text.lines_le_iff h)⟩

theorem counters_fit_around_stray :
    "x\n@".toUTF8.size ≤ Document.maxOffset ∧ OffsetsFit "x\n@".toUTF8 ∧
      LinesFit "x\n@".toUTF8 := by
  have hsize : "x\n@".toUTF8.size ≤ Document.maxOffset := by decide
  obtain ⟨hoffsets, hlines⟩ := counters_fit_but_for_line_feeds hsize
  refine ⟨hsize, hoffsets, hlines.mpr ?_⟩
  intro he
  have hs : "x\n@".toUTF8.size = Document.maxOffset := by
    rw [he, Text.size_lineFeeds]
  exact absurd hs (by decide)

theorem line_feeds_exceed_counter :
    (∃ d, Document.load "t.rl" (.file (lineFeeds Document.maxOffset)) = .ok d ∧
        d.text = lineFeeds Document.maxOffset) ∧
      (Cursor.start (lineFeeds Document.maxOffset).bytes).next =
        ⟨⟨.endOfText, [], ⟨4294967295, 0⟩, 4294967296⟩, none, ⟨[], 4294967295, 4294967296⟩⟩ ∧
      (LineIndex.ofText (lineFeeds Document.maxOffset)).lineOf 4294967295 = 4294967296 ∧
      ¬ LinesFit (lineFeeds Document.maxOffset) := by
  have hsize := Text.size_lineFeeds Document.maxOffset
  have hcount : (lineFeeds Document.maxOffset).bytes.count Byte.lineFeed = Document.maxOffset := by
    rw [Text.bytes_lineFeeds, List.count_replicate_self]
  refine ⟨Document.exists_load_lineFeeds "t.rl" (Nat.le_refl _), ?_, ?_, ?_⟩
  · rw [Cursor.next_lineFeeds]
    rfl
  · have hlast := Text.lineAt_size (lineFeeds Document.maxOffset)
    rw [hsize, hcount] at hlast
    rw [LineIndex.lineOf_eq_lineAt]
    exact hlast
  · intro hfit
    have hle := linesFit_iff.mp hfit
    omega

end ScriptLexer
