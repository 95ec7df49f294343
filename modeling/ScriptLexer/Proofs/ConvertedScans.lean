import Mathlib.Data.List.Forall2
import ScriptLexer.Proofs.CursorLookahead
import ScriptLexer.Proofs.LineCounting
import ScriptLexer.Proofs.LineEndings

namespace ScriptLexer

open Bytes (withReturns withReturns_append withReturns_cons withReturns_of_not_mem)
open Grammar (Gap)
open Lexeme (front)

def crlf (s : String) : String :=
  String.ofList (s.toList.flatMap fun c => if c = '\n' then ['\r', '\n'] else [c])

theorem withReturns_utf8EncodeChar {c : Char} (h : c ≠ '\n') :
    withReturns (String.utf8EncodeChar c) = String.utf8EncodeChar c := by
  apply withReturns_of_not_mem
  obtain ⟨b, tail, hc, -, htail⟩ := Bytes.utf8EncodeChar_eq_cons c
  rw [hc, List.mem_cons, not_or]
  constructor
  · intro hb
    apply h
    apply Bytes.eq_of_utf8EncodeChar (b := Byte.lineFeed) (r := []) (t := tail) _ rfl (by decide)
    rw [hc, hb, List.append_nil]
  · intro hm
    exact absurd (htail _ hm) (by decide)

theorem ofString_crlf (s : String) :
    Bytes.ofString (crlf s) = (Bytes.ofString s).withReturns := by
  rw [Bytes.ofString_eq_ofChars, Bytes.ofString_eq_ofChars, crlf, String.toList_ofList]
  induction s.toList with
  | nil => rfl
  | cons c cs ih =>
    rw [Bytes.ofChars_cons, withReturns_append, ← ih, List.flatMap_cons]
    by_cases hc : c = '\n'
    · rw [hc]
      rfl
    · rw [if_neg hc, withReturns_utf8EncodeChar hc]
      rfl

structure Token.Converts (text text' : Text) (t t' : Token) : Prop where
  kind_eq : t'.kind = t.kind
  line_eq : t'.line = t.line
  lexeme_eq : t'.lexeme = t.lexeme.withReturns
  location_eq : (LineIndex.ofText text').locate t'.span.start =
    (LineIndex.ofText text).locate t.span.start

def Diagnostic.codeAndLine (d : Diagnostic) : Nat × Nat := (d.issue.code, d.line)

structure Step.Converts (text text' : Text) (s s' : Step) : Prop where
  token : s.token.Converts text text' s'.token
  diagnostic : s'.diagnostic.map Diagnostic.codeAndLine =
    s.diagnostic.map Diagnostic.codeAndLine

structure Step.FindsSame (s s' : Step) : Prop where
  kind_eq : s'.token.kind = s.token.kind
  lexeme_eq : s'.token.lexeme = s.token.lexeme.withReturns
  issue_eq : s'.diagnostic.map (·.issue) = s.diagnostic.map (·.issue)
  unread_eq : s'.cursor.unread = s.cursor.unread.withReturns

namespace Cursor

section Lexemes

variable {c c' : Cursor} {gap t after : Bytes} {b : UInt8}

theorem Finds.not_isLayout (h : c.Finds gap b t after) : ¬ Byte.isLayout b := by
  intro hb
  have hp := h.piece_eq
  rw [Trivia.piece, if_pos hb] at hp
  exact absurd hp Nat.one_ne_zero

theorem Finds.ne_lineFeed (h : c.Finds gap b t after) : b ≠ Byte.lineFeed := by
  rintro rfl
  exact h.not_isLayout (by decide)

theorem Finds.front_withReturns (h : c.Finds gap b t after) :
    front b (t.withReturns ++ after.withReturns) =
      { front b (t ++ after) with length := t.withReturns.length + 1 } := by
  rw [← withReturns_append]
  exact Lexeme.front_withReturns h.not_isLayout rfl h.length_eq

theorem Finds.withReturns (h : c.Finds gap b t after) (hu : c'.unread = c.unread.withReturns) :
    c'.Finds gap.withReturns b t.withReturns after.withReturns := by
  have hb := h.ne_lineFeed
  have hbehind : Bytes.withReturns (b :: (t ++ after)) =
      b :: (t.withReturns ++ after.withReturns) := by
    rw [withReturns_cons hb, withReturns_append]
  constructor
  · rw [hu, h.unread_eq, withReturns_append, hbehind]
  · rw [← hbehind]
    apply h.isGap.withReturns
    simpa using hb
  · rw [← withReturns_append]
    exact Trivia.piece_withReturns h.piece_eq
  · rw [h.front_withReturns]

theorem skipTrivia_withReturns_of_end (hu : c'.unread = c.unread.withReturns)
    (he : c.skipTrivia.unread = []) : c'.skipTrivia.unread = [] := by
  obtain ⟨gap, hgap_eq, hgap, -⟩ := Grammar.gap_skipTrivia c
  rw [he] at hgap hgap_eq
  rw [List.append_nil] at hgap_eq
  have hgap' : Gap c'.unread [] := by
    rw [hu, hgap_eq]
    exact hgap.withReturns (by simp)
  rw [skipTrivia_of_gap hgap', advance, List.drop_length]

theorem next_findsSame (hu : c'.unread = c.unread.withReturns) : c.next.FindsSame c'.next := by
  by_cases hk : c.next.token.kind = .endOfText
  · have he := (kind_takeLexeme c.skipTrivia).mp hk
    have he' := skipTrivia_withReturns_of_end hu he
    rw [next, next, takeLexeme_nil he, takeLexeme_nil he']
    constructor
    · rfl
    · rfl
    · rfl
    · rw [he', he, Bytes.withReturns_nil]
  · obtain ⟨gap, b, t, -, h⟩ := exists_finds hk
    have h' := h.withReturns hu
    constructor
    · rw [h'.kind_next, h.kind_next, h.front_withReturns]
    · rw [h'.unread_next.1, h.unread_next.1, withReturns_cons h.ne_lineFeed]
    · rw [h'.diagnostic_next, h.diagnostic_next, h.front_withReturns]
    · exact h'.unread_next.2

end Lexemes

/-- Both cursors have read the same part of the text, one of them with the returns. -/
structure Converts (text text' : Text) (c c' : Cursor) : Prop where
  text_eq : text'.bytes = text.bytes.withReturns
  standsIn : c.StandsIn text.bytes
  standsIn' : c'.StandsIn text'.bytes
  unread_eq : c'.unread = c.unread.withReturns

namespace Converts

variable {text text' : Text} {c c' : Cursor}

theorem take_eq (h : c.Converts text text' c') :
    text'.bytes.take c'.pos = withReturns (text.bytes.take c.pos) := by
  have happ : text'.bytes.take c'.pos ++ c'.unread =
      withReturns (text.bytes.take c.pos) ++ c'.unread := by
    rw [h.standsIn'.unread_eq, List.take_append_drop, ← h.standsIn'.unread_eq, h.unread_eq,
      h.standsIn.unread_eq, ← withReturns_append, List.take_append_drop, h.text_eq]
  exact List.append_cancel_right happ

theorem line_eq (h : c.Converts text text' c') : c'.line = c.line := by
  rw [h.standsIn'.line_eq, h.standsIn.line_eq, h.take_eq, Bytes.count_withReturns]

theorem locate_eq (h : c.Converts text text' c') :
    (LineIndex.ofText text').locate c'.pos = (LineIndex.ofText text).locate c.pos := by
  have hle := h.standsIn.pos_le
  have hle' := h.standsIn'.pos_le
  rw [Text.length_bytes] at hle hle'
  rw [LineIndex.locate_ofText hle', LineIndex.locate_ofText hle, h.take_eq,
    Bytes.count_withReturns, Bytes.columnFrom_withReturns]

theorem next (h : c.Converts text text' c') : c.next.cursor.Converts text text' c'.next.cursor :=
  ⟨h.text_eq, h.standsIn.next, h.standsIn'.next, (next_findsSame h.unread_eq).unread_eq⟩

theorem skipTrivia (h : c.Converts text text' c') :
    c.skipTrivia.Converts text text' c'.skipTrivia := by
  have hs := next_findsSame h.unread_eq
  refine ⟨h.text_eq, h.standsIn.skipTrivia, h.standsIn'.skipTrivia, ?_⟩
  rw [next_append, next_append, hs.lexeme_eq, hs.unread_eq, withReturns_append]

theorem token_next (h : c.Converts text text' c') :
    c.next.token.Converts text text' c'.next.token := by
  have hs := next_findsSame h.unread_eq
  constructor
  · exact hs.kind_eq
  · rw [line_next, line_next, h.skipTrivia.line_eq]
  · exact hs.lexeme_eq
  · rw [(span_next c).1, (span_next c').1, h.skipTrivia.locate_eq]

theorem diagnostic_next (h : c.Converts text text' c') :
    c'.next.diagnostic.map Diagnostic.codeAndLine =
      c.next.diagnostic.map Diagnostic.codeAndLine := by
  have hi := (next_findsSame h.unread_eq).issue_eq
  have hline := h.next.line_eq
  cases hd : c.next.diagnostic with
  | none =>
    rw [hd, Option.map_none, Option.map_eq_none_iff] at hi
    rw [hi]
  | some d =>
    rw [hd, Option.map_some] at hi
    obtain ⟨d', hd', hissue⟩ := Option.map_eq_some_iff.mp hi
    rw [hd', Option.map_some, Option.map_some, Diagnostic.codeAndLine, Diagnostic.codeAndLine,
      hissue, (Cursor.diagnostic_next hd).2, (Cursor.diagnostic_next hd').2, hline]

theorem steps (h : c.Converts text text' c') :
    List.Forall₂ (Step.Converts text text') c.steps c'.steps := by
  induction c using steps_induction generalizing c' with
  | last c hk =>
    have hk' : c'.next.token.kind = .endOfText := h.token_next.kind_eq.trans hk
    rw [steps_eq, if_pos hk']
    exact List.Forall₂.cons ⟨h.token_next, h.diagnostic_next⟩ List.Forall₂.nil
  | more c hk ih =>
    have hk' : c'.next.token.kind ≠ .endOfText := by rwa [h.token_next.kind_eq]
    rw [steps_eq c', if_neg hk']
    exact List.Forall₂.cons ⟨h.token_next, h.diagnostic_next⟩ (ih h.next)

theorem tokens_scan (h : c.Converts text text' c') :
    List.Forall₂ (Token.Converts text text') c.scan.tokens c'.scan.tokens := by
  have htokens : List.Forall₂ (Token.Converts text text') (c.steps.map (·.token))
      (c'.steps.map (·.token)) := by
    rw [List.forall₂_map_left_iff, List.forall₂_map_right_iff]
    exact h.steps.imp fun _ _ hs => hs.token
  apply List.rel_filter _ htokens
  intro t t' ht
  have hp : t'.isProduced = t.isProduced := by
    rw [Token.isProduced, Token.isProduced, ht.kind_eq]
  simp only [hp]

theorem diagnostics_scan (h : c.Converts text text' c') :
    c'.scan.diagnostics.map Diagnostic.codeAndLine =
      c.scan.diagnostics.map Diagnostic.codeAndLine := by
  have hsteps := h.steps
  rw [Cursor.scan, Cursor.scan, List.map_filterMap, List.map_filterMap]
  generalize c.steps = steps at hsteps
  generalize c'.steps = steps' at hsteps
  induction hsteps with
  | nil => rfl
  | cons hs _ ih => rw [List.filterMap_cons, List.filterMap_cons, hs.diagnostic, ih]

end Converts

end Cursor

theorem line_endings_keep_tokens (s : String) :
    List.Forall₂ (Token.Converts s.toUTF8 (crlf s).toUTF8) (scan (Bytes.ofString s)).tokens
        (scan (Bytes.ofString (crlf s))).tokens ∧
      (scan (Bytes.ofString (crlf s))).diagnostics.map Diagnostic.codeAndLine =
        (scan (Bytes.ofString s)).diagnostics.map Diagnostic.codeAndLine := by
  have hstart : (Cursor.ofString s).Converts s.toUTF8 (crlf s).toUTF8 (Cursor.ofString (crlf s)) :=
    ⟨ofString_crlf s, Cursor.standsIn_start _, Cursor.standsIn_start _, ofString_crlf s⟩
  exact ⟨hstart.tokens_scan, hstart.diagnostics_scan⟩

end ScriptLexer
