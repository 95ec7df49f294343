import Mathlib
import ScriptLexer.Proofs.PassageReading
import ScriptLexer.Proofs.WindowCuts

namespace ScriptLexer

structure Passage.ShowsFrom (p : Passage) (w : Window) (text : Text) (span : Span) : Prop where
  le_offset : w.offset ≤ p.offset
  offset_le : p.offset ≤ span.start
  le_stop : span.stop ≤ p.stop
  stop_le : p.stop ≤ w.stop
  bytes_eq : p.bytes = text.slice p.offset p.stop

theorem Text.slice_slice {text : Text} {a b c n : Nat} (h : c + n ≤ b - a) :
    ((text.slice a b).drop c).take n = text.slice (a + c) (a + c + n) := by
  rw [slice_eq, slice_eq, List.drop_take, List.drop_drop, List.take_take, Nat.min_eq_left (by omega),
    Nat.add_sub_cancel_left]

namespace Window

def request (w : Window) (span : Span) (before after : Nat) : ReadRequest :=
  ⟨span.start - w.offset, span.length, before, after⟩

def place (w : Window) (p : Passage) : Passage :=
  { p with
    offset := p.offset + w.offset
    line := w.line + p.line
    column := if p.line = 0 then w.column + p.column else p.column }

variable {w : Window} {text : Text} {span : Span}

theorem read_of_ok {p : Passage} {before after : Nat}
    (h : Passage.read (w.request span before after) w.contents = .ok p) :
    w.read span before after = .ok (w.place p) := by
  simp only [request] at h
  simp only [read, h]
  rfl

theorem Holds.request_le (h : w.Holds span) (before after : Nat) :
    (w.request span before after).start + (w.request span before after).length ≤
      w.contents.length := by
  obtain ⟨hstart, hstop⟩ := h
  simp only [request]
  rw [stop, Span.stop] at hstop
  omega

theorem length_contents (w : Window) : w.contents.length = w.stop - w.offset :=
  (Nat.add_sub_cancel_left w.offset _).symm

theorem stop_place (w : Window) (p : Passage) : (w.place p).stop = p.stop + w.offset :=
  Nat.add_right_comm _ _ _

theorem showsFrom_place {p : Passage} {before after : Nat} (hc : w.CutFrom text)
    (hs : w.Holds span) (h : p.Shows w.contents (w.request span before after)) :
    (w.place p).ShowsFrom w text span := by
  obtain ⟨hle, -, hlestop, hstop, hbytes⟩ := h
  obtain ⟨hstart, hspan⟩ := hs
  have hplace : (w.place p).stop = w.offset + p.offset + p.bytes.length := by
    rw [stop_place, Nat.add_comm, Nat.add_assoc, Passage.stop]
  have hoffset : (w.place p).offset = w.offset + p.offset := Nat.add_comm _ _
  simp only [request, Passage.stop] at hle hlestop hstop
  refine ⟨by omega, by omega, ?_, ?_, ?_⟩
  · rw [hplace, Span.stop]
    omega
  · rw [hplace, stop]
    omega
  · rw [hplace, hoffset, ← Text.slice_slice (b := w.stop), ← hc.contents_eq]
    · exact hbytes
    · rw [← length_contents]
      exact hstop

theorem read_shows (hc : w.CutFrom text) (hs : w.Holds span) (before after : Nat) :
    ∃ p, w.read span before after = .ok p ∧ p.ShowsFrom w text span := by
  obtain ⟨p, hp, hshows, -⟩ := Passage.read_eq_ok (hs.request_le before after)
  exact ⟨w.place p, read_of_ok hp, showsFrom_place hc hs hshows⟩

end Window

namespace Report

theorem reads_show_text (name s : String) (d : Diagnostic) (r : Report)
    (h : of? name s.toUTF8 (LineIndex.ofText s.toUTF8) d = some r) :
    r.window.CutFrom s.toUTF8 ∧ (∀ label ∈ r.label, r.window.Holds label) ∧
      ∀ span, r.window.Holds span → ∀ before after,
        ∃ p, r.window.read span before after = .ok p ∧ p.ShowsFrom r.window s.toUTF8 span := by
  have hc := Window.cutFrom_around? (of?_cases h).1
  exact ⟨hc, label_in_window h, fun span hs before after => Window.read_shows hc hs before after⟩

theorem reads_show_within_character :
    ∃ r, of? "t.rl" "é\r\n@ x".toUTF8 (LineIndex.ofText "é\r\n@ x".toUTF8)
        ⟨.unidentifiedToken, 2, some ⟨4, 1⟩⟩ = some r ∧
      r.label = some ⟨4, 1⟩ ∧ r.window.Holds ⟨1, 2⟩ ∧
      ∀ before after, ∃ p, r.window.read ⟨1, 2⟩ before after = .ok p ∧
        p.ShowsFrom r.window "é\r\n@ x".toUTF8 ⟨1, 2⟩ := by
  have h : of? "t.rl" "é\r\n@ x".toUTF8 (LineIndex.ofText "é\r\n@ x".toUTF8)
      ⟨.unidentifiedToken, 2, some ⟨4, 1⟩⟩ =
      some ⟨"Unidentified token", "R1001 reported at line 2", some ⟨4, 1⟩,
        ⟨"t.rl", Bytes.ofString "é\r\n@ x", 0, 0, 0⟩⟩ := by cbv
  obtain ⟨-, -, hreads⟩ := reads_show_text _ _ _ _ h
  have hs : Window.Holds ⟨"t.rl", Bytes.ofString "é\r\n@ x", 0, 0, 0⟩ ⟨1, 2⟩ :=
    ⟨Nat.zero_le _, by decide⟩
  exact ⟨_, h, rfl, hs, hreads ⟨1, 2⟩ hs⟩

end Report

end ScriptLexer
