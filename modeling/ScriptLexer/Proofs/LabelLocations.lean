import ScriptLexer.Proofs.LineCounting
import ScriptLexer.Proofs.PassageLines
import ScriptLexer.Proofs.TokenTiling
import ScriptLexer.Proofs.WindowPassages

namespace ScriptLexer

/-- The passage is one line too far down for each lone return since `start`, and but for these it
is where the index has it. -/
structure Passage.PlacedFrom (p : Passage) (start : Nat) (text : Text) : Prop where
  line_eq : p.line + 1 = ((LineIndex.ofText text).locate p.offset).line +
    Bytes.loneReturns (text.slice start p.offset)
  location_iff : p.location = (LineIndex.ofText text).locate p.offset ↔
    Bytes.loneReturns (text.slice start p.offset) = 0

namespace Window

variable {w : Window} {text : Text} {p : Passage}

theorem take_contents (hc : w.CutFrom text) {n : Nat} (h : n ≤ w.contents.length) :
    w.contents.take n = text.slice w.offset (w.offset + n) := by
  rw [length_contents] at h
  rw [hc.contents_eq, Text.slice_eq, Text.slice_eq, List.take_take, Nat.min_eq_left h,
    Nat.add_sub_cancel_left]

theorem locate_in_window (hc : w.CutFrom text) {n : Nat} (h : n ≤ w.contents.length) :
    (LineIndex.ofText text).locate (w.offset + n) =
      ⟨w.line + 1 + (text.slice w.offset (w.offset + n)).count Byte.lineFeed,
        Bytes.columnFrom w.column (text.slice w.offset (w.offset + n)) + 1⟩ := by
  have hstop := hc.stop_le
  rw [stop] at hstop
  have hn : w.offset + n ≤ text.size := by omega
  rw [LineIndex.locate_later (Nat.le_add_right _ n) hn, ← hc.location_eq]
  rfl

theorem placedFrom_place (hc : w.CutFrom text) (hp : p.offset ≤ w.contents.length)
    (h : Passage.Piece.StandsAt (Passage.Piece.split w.contents) p.offset p.line p.column) :
    (w.place p).PlacedFrom w.offset text := by
  obtain ⟨hline, hcolumn⟩ := h.line_eq
  rw [take_contents hc hp] at hline hcolumn
  have hoffset : (w.place p).offset = w.offset + p.offset := Nat.add_comm _ _
  have hplace : (w.place p).line = w.line + p.line := rfl
  have hl : (w.place p).line + 1 =
      ((LineIndex.ofText text).locate (w.place p).offset).line +
        Bytes.loneReturns (text.slice w.offset (w.place p).offset) := by
    rw [hoffset, locate_in_window hc hp, hplace, hline]
    dsimp only
    omega
  refine ⟨hl, fun he => ?_, fun hz => ?_⟩
  · rw [← he, Passage.location] at hl
    dsimp only at hl
    omega
  · rw [hoffset] at hz
    rw [hz, Nat.add_zero] at hline
    rw [hoffset, locate_in_window hc hp, Bytes.columnFrom_eq, ← hline, ← hcolumn hz,
      Passage.location, hplace, Location.mk.injEq]
    exact ⟨by omega, rfl⟩

theorem head_drop_contents (hc : w.CutFrom text) {pos : Nat} (h : w.offset ≤ pos) {b : UInt8}
    (hb : text.bytes[pos]? ≠ some b) : (w.contents.drop (pos - w.offset)).head? ≠ some b := by
  rw [List.head?_drop]
  intro he
  have hlt := (List.getElem?_eq_some_iff.mp he).1
  rw [hc.contents_eq] at he hlt
  rw [Text.getElem?_slice hlt, Nat.add_sub_cancel' h] at he
  exact hb he

theorem read_placed {span : Span} {before after : Nat} (hc : w.CutFrom text) (hs : w.Holds span)
    (hl : text.bytes[span.start]? ≠ some Byte.lineFeed) (ha : before = 0 → after = 0) :
    ∃ p, w.read span before after = .ok p ∧ p.PlacedFrom w.offset text ∧
      (before = 0 → p.offset = span.start) := by
  have hrequest := hs.request_le before after
  obtain ⟨p, hp, hshows, hstands⟩ :=
    Passage.read_standsAt hrequest (head_drop_contents hc hs.1 hl) ha
  have hoffset : p.offset ≤ w.contents.length :=
    Nat.le_trans hshows.offset_le (Nat.le_trans (Nat.le_add_right _ _) hrequest)
  refine ⟨w.place p, read_of_ok hp, placedFrom_place hc hoffset hstands, fun hz => ?_⟩
  have hstart : p.offset = span.start - w.offset := hshows.offset_eq hz
  rw [place, hstart, Nat.sub_add_cancel hs.1]

end Window

theorem Cursor.StandsIn.not_lineFeed_next {c : Cursor} {bs : Bytes} (h : c.StandsIn bs) :
    bs[c.next.token.span.start]? ≠ some Byte.lineFeed := by
  rw [(span_next c).1]
  intro hb
  obtain ⟨hlt, hget⟩ := List.getElem?_eq_some_iff.mp hb
  have hpiece := piece_skipTrivia c
  rw [h.skipTrivia.unread_eq, List.drop_eq_getElem_cons hlt, hget] at hpiece
  cases hpiece

theorem span_of_diagnostic {s : String} {d : Diagnostic}
    (h : d ∈ (scan (Bytes.ofString s)).diagnostics) :
    ∃ span, d.span = some span ∧ Text.isBoundary s.toUTF8 span.start ∧
      (Text.bytes s.toUTF8)[span.start]? ≠ some Byte.lineFeed := by
  obtain ⟨step, hm, he⟩ := (Scan.mem_diagnostics_iff _ d).mp h
  obtain ⟨k, rfl⟩ := Cursor.exists_of_mem_steps hm
  have hs := Cursor.standsIn_ofString s k
  refine ⟨_, (Cursor.diagnostic_next he).1, ?_, hs.not_lineFeed_next⟩
  rw [(Cursor.span_next _).1]
  exact Cursor.isBoundary_of_standsIn hs.skipTrivia
    (Cursor.isText_skipTrivia (Cursor.isText_ofString s k))

namespace Report

theorem stop_labelOf (text : Text) (span : Span) :
    (labelOf text span).stop =
      max (text.floor (min span.stop (span.start + Window.context))) span.start := by
  rw [labelOf, Span.stop_ofBounds (Nat.le_max_right _ _)]

theorem isBoundary_stop_labelOf {text : Text} {span : Span} (h : text.isBoundary span.start) :
    text.isBoundary (labelOf text span).stop := by
  have hle : span.start ≤ min span.stop (span.start + Window.context) :=
    Nat.le_min.mpr ⟨Nat.le_add_right _ _, Nat.le_add_right _ _⟩
  rw [stop_labelOf, Nat.max_eq_left (Text.le_floor h hle)]
  exact Text.isBoundary_floor _ _

theorem exists_of? (name : String) {s : String} {d : Diagnostic} {span : Span}
    (hd : d.span = some span) (hb : Text.isBoundary s.toUTF8 span.start) :
    ∃ r, of? name s.toUTF8 (LineIndex.ofText s.toUTF8) d = some r ∧
      r.label = some (labelOf s.toUTF8 span) := by
  obtain ⟨w, hw⟩ := Window.exists_around? name (isBoundary_stop_labelOf hb)
  have hl : d.span.map (labelOf s.toUTF8) = some (labelOf s.toUTF8 span) := by
    rw [hd, Option.map_some]
  rw [of?, focus_of_label hl, hw, Option.map_some]
  exact ⟨_, rfl, hl⟩

theorem label_located_up_to_lone_returns (name s : String) (d : Diagnostic)
    (h : d ∈ (scan (Bytes.ofString s)).diagnostics) :
    ∃ r label, of? name s.toUTF8 (LineIndex.ofText s.toUTF8) d = some r ∧
      r.label = some label ∧ d.span.map Span.start = some label.start ∧
      ∀ before after, (before = 0 → after = 0) →
        ∃ p, r.window.read label before after = .ok p ∧
          p.PlacedFrom r.window.offset s.toUTF8 ∧ (before = 0 → p.offset = label.start) := by
  obtain ⟨span, hd, hb, hl⟩ := span_of_diagnostic h
  obtain ⟨r, hr, hlabel⟩ := exists_of? name hd hb
  refine ⟨r, labelOf s.toUTF8 span, hr, hlabel, by rw [hd]; rfl, fun before after ha => ?_⟩
  exact Window.read_placed (Window.cutFrom_around? (of?_cases hr).1) (label_in_window hr _ hlabel)
    hl ha

theorem label_located_on_second_line :
    ⟨.unidentifiedToken, 2, some ⟨5, 1⟩⟩ ∈ (scan (Bytes.ofString "x\r\n \r@")).diagnostics ∧
      ∃ r label, of? "t.rl" "x\r\n \r@".toUTF8 (LineIndex.ofText "x\r\n \r@".toUTF8)
          ⟨.unidentifiedToken, 2, some ⟨5, 1⟩⟩ = some r ∧
        r.label = some label ∧ some 5 = some label.start ∧
        ∀ before after, (before = 0 → after = 0) →
          ∃ p, r.window.read label before after = .ok p ∧
            p.PlacedFrom r.window.offset "x\r\n \r@".toUTF8 ∧
              (before = 0 → p.offset = label.start) := by
  have hd : (scan (Bytes.ofString "x\r\n \r@")).diagnostics =
      [⟨.unidentifiedToken, 2, some ⟨5, 1⟩⟩] := by cbv
  have hm : ⟨.unidentifiedToken, 2, some ⟨5, 1⟩⟩ ∈
      (scan (Bytes.ofString "x\r\n \r@")).diagnostics := by
    rw [hd]
    exact List.mem_singleton_self _
  exact ⟨hm, label_located_up_to_lone_returns "t.rl" "x\r\n \r@" _ hm⟩

/-- After a lone return the label alone is read as the start of a second line; it is on the first. -/
theorem label_misplaced_by_lone_return :
    ∃ d r p, (scan (Bytes.ofString "\r@")).diagnostics = [d] ∧
      of? "t.rl" "\r@".toUTF8 (LineIndex.ofText "\r@".toUTF8) d = some r ∧
      r.label = some ⟨1, 1⟩ ∧ r.window.read ⟨1, 1⟩ 0 0 = .ok p ∧ p.offset = 1 ∧
      p.location = ⟨2, 1⟩ ∧ (LineIndex.ofText "\r@".toUTF8).locate 1 = ⟨1, 2⟩ := by
  refine ⟨⟨.unidentifiedToken, 1, some ⟨1, 1⟩⟩,
    ⟨"Unidentified token", "R1001 reported at line 1", some ⟨1, 1⟩,
      ⟨"t.rl", Bytes.ofString "\r@", 0, 0, 0⟩⟩,
    ⟨Bytes.ofString "@", 1, 1, 0, 1⟩, ?_, ?_, rfl, ?_, rfl, rfl, ?_⟩
  · cbv
  · cbv
  · cbv
  · cbv

end Report

end ScriptLexer
