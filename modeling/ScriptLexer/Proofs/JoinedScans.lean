import Mathlib
import ScriptLexer.Proofs.CursorLookahead

namespace ScriptLexer

def Scan.Closed (s : Scan) : Prop := ∀ d ∈ s.diagnostics, d.issue.code ∉ openCodes

theorem Scan.Closed.of_append {s t : Scan} (h : (s ++ t).Closed) : s.Closed ∧ t.Closed :=
  ⟨fun d hd => h d (List.mem_append_left _ hd), fun d hd => h d (List.mem_append_right _ hd)⟩

theorem Scan.ofSteps_extend (more : Bytes) (step : Step) :
    Scan.ofSteps [step.extend more] = Scan.ofSteps [step] := rfl

namespace Cursor

theorem extend_skipTrivia (more : Bytes) (c : Cursor) :
    (c.extend (Byte.lineFeed :: more)).skipTrivia =
      (c.skipTrivia.extend (Byte.lineFeed :: more)).skipTrivia := by
  obtain ⟨g, hu, hg, hskip⟩ := Grammar.gap_skipTrivia c
  have hl : g.length ≤ c.unread.length := by
    rw [hu, List.length_append]
    omega
  have he : (c.extend (Byte.lineFeed :: more)).unread =
      g ++ (c.skipTrivia.unread ++ Byte.lineFeed :: more) := by
    rw [extend, ← List.append_assoc, ← hu]
  have hg' : Grammar.Gap g (c.skipTrivia.unread ++ Byte.lineFeed :: more) := by
    apply hg.replaced
    cases c.skipTrivia.unread with
    | nil => exact fun b hb => Or.inl (Option.some.inj hb).symm
    | cons d rest => exact fun b hb => Or.inr hb
  rw [Grammar.skipTrivia_append hg' _ he, extend_advance _ hl, ← hskip]

theorem StandsIn.of_unread_nil {c : Cursor} {bs : Bytes} (h : c.StandsIn bs) (hu : c.unread = []) :
    c.pos = bs.length ∧ c.line = 1 + bs.count Byte.lineFeed := by
  have hd := h.unread_eq.symm.trans hu
  rw [List.drop_eq_nil_iff] at hd
  have hpos := Nat.le_antisymm h.pos_le hd
  exact ⟨hpos, by rw [h.line_eq, hpos, List.take_length]⟩

theorem extend_next (more : Bytes) {c : Cursor} (hk : c.next.token.kind ≠ .endOfText)
    (hc : (Scan.ofSteps [c.next]).Closed) :
    (c.extend (Byte.lineFeed :: more)).next = c.next.extend (Byte.lineFeed :: more) := by
  obtain ⟨gap, b, t, -, h⟩ := exists_finds hk
  have hnil : c.extend [] = c := by rw [extend, List.append_nil]
  have h' : (c.extend []).Finds gap b t (c.next.cursor.unread ++ []) := by
    rwa [hnil, List.append_nil]
  have hr : Replaces (c.next.cursor.unread ++ Byte.lineFeed :: more)
      (c.next.cursor.unread ++ []) := by
    rw [List.append_nil]
    exact Replaces.of_layout_behind (by decide) _ more
  have hclosed : ∀ d ∈ (c.extend []).next.diagnostic, d.issue.code ∉ openCodes := by
    intro d hd
    rw [hnil] at hd
    exact hc d (List.mem_filterMap.mpr ⟨_, List.mem_singleton_self _, hd⟩)
  rw [h'.next_replaced h.unread_eq hr hclosed, List.append_nil, ← h.next_eq]

theorem extend_of_end (more : Bytes) {c : Cursor} {bs : Bytes} (h : c.StandsIn bs)
    (hk : c.next.token.kind = .endOfText) :
    (c.extend (Byte.lineFeed :: more)).scan =
      (ScriptLexer.scan more).shift (bs.length + 1) (1 + bs.count Byte.lineFeed) := by
  have hu := (kind_takeLexeme c.skipTrivia).mp hk
  obtain ⟨hpos, hline⟩ := h.skipTrivia.of_unread_nil hu
  have hnew : (c.skipTrivia.extend (Byte.lineFeed :: more)).advance 1 =
      (start more).shift (bs.length + 1) (1 + bs.count Byte.lineFeed) := by
    simp only [advance, extend, start, shift, hu, hpos, hline, List.nil_append, List.drop_succ_cons,
      List.drop_zero, List.take_succ_cons, List.take_zero, List.count_singleton_self,
      Cursor.mk.injEq, true_and]
    omega
  have hpiece : Trivia.piece (c.skipTrivia.extend (Byte.lineFeed :: more)).unread = 1 := by
    rw [extend, hu]
    rfl
  have hskip : (c.extend (Byte.lineFeed :: more)).skipTrivia =
      ((start more).shift (bs.length + 1) (1 + bs.count Byte.lineFeed)).skipTrivia := by
    rw [extend_skipTrivia, skipTrivia, hpiece, if_neg (by decide), hnew]
  rw [scan_eq_next, next, hskip, ← next, ← scan_eq_next, shift_scan, ScriptLexer.scan]

theorem extend_scan (more : Bytes) {c : Cursor} {bs : Bytes} (h : c.StandsIn bs)
    (hc : c.scan.Closed) :
    (c.extend (Byte.lineFeed :: more)).scan =
      c.scan ++ (ScriptLexer.scan more).shift (bs.length + 1) (1 + bs.count Byte.lineFeed) := by
  induction c using steps_induction with
  | last c hk =>
    rw [extend_of_end more h hk, scan_of_end hk]
    rfl
  | more c hk ih =>
    rw [scan_eq_next c] at hc ⊢
    obtain ⟨hfirst, hrest⟩ := hc.of_append
    rw [scan_eq_next, extend_next more hk hfirst, Scan.ofSteps_extend, Step.extend,
      ih h.next hrest, Scan.append_assoc]

end Cursor

theorem scan_joined_by_line (a b : String) (h : (scan (Bytes.ofString a)).Closed) :
    scan (Bytes.ofString (a ++ "\n" ++ b)) = scan (Bytes.ofString a) ++
      (scan (Bytes.ofString b)).shift (a.utf8ByteSize + 1)
        (1 + (Bytes.ofString a).count Byte.lineFeed) := by
  have hjoin : Bytes.ofString (a ++ "\n" ++ b) =
      Bytes.ofString a ++ Byte.lineFeed :: Bytes.ofString b := by
    rw [Bytes.ofString_append, Bytes.ofString_append, List.append_assoc]
    rfl
  have hlength : (Bytes.ofString a).length = a.utf8ByteSize := Text.length_bytes a.toUTF8
  rw [hjoin, ← hlength]
  exact Cursor.extend_scan _ (Cursor.standsIn_start _) h

theorem scan_joined_after_comment :
    (scan (Bytes.ofString "@\n\x60no\x60 1. // c")).Closed ∧
      scan (Bytes.ofString ("@\n\x60no\x60 1. // c" ++ "\n" ++ "x \"s")) =
        scan (Bytes.ofString "@\n\x60no\x60 1. // c") ++
          (scan (Bytes.ofString "x \"s")).shift 15 2 := by
  have hd : (scan (Bytes.ofString "@\n\x60no\x60 1. // c")).diagnostics =
      [⟨.unidentifiedToken, 1, some ⟨0, 1⟩⟩, ⟨.unidentifiedBacktick, 2, some ⟨2, 4⟩⟩] := by cbv
  have hc : (scan (Bytes.ofString "@\n\x60no\x60 1. // c")).Closed := by
    rw [Scan.Closed, hd]
    decide
  exact ⟨hc, scan_joined_by_line "@\n\x60no\x60 1. // c" "x \"s" hc⟩

end ScriptLexer
