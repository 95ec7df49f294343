import ScriptLexer.Proofs.LabelLocations
import ScriptLexer.Proofs.LineStarts

namespace ScriptLexer

namespace Text

def StartsLineBefore (text : Text) (pos start : Nat) : Prop :=
  if text.lineAt pos = 1 then start = 0 else text.StartsLine (text.lineAt pos - 1) start

structure SecondLineFeed (text : Text) (start pos : Nat) : Prop where
  lineFeed : text.bytes[pos]? = some Byte.lineFeed
  le : start ≤ pos
  count_eq : (text.slice start pos).count Byte.lineFeed = 1

end Text

/-- The window reaches as far around the label as it may, and no farther. -/
structure Window.Surrounds (w : Window) (text : Text) (label : Span) : Prop where
  holds : w.Holds label
  stop_le : w.stop ≤ text.size
  contents_eq : text.slice? w.offset w.stop = some w.contents
  before_le : label.start - w.offset ≤ 120
  after_le : w.stop - label.stop ≤ 120
  lines_before : (text.slice w.offset label.start).count Byte.lineFeed ≤ 1
  lines_after : (text.slice label.stop w.stop).count Byte.lineFeed ≤ 1
  full_before : text.StartsLineBefore label.start w.offset ∨ 117 ≤ label.start - w.offset
  full_after : w.stop = text.size ∨ text.SecondLineFeed label.stop w.stop ∨
    117 ≤ w.stop - label.stop

namespace Window

theorem idxOf?_cut {bs : Bytes} {b : UInt8} {i : Nat} (h : bs.idxOf? b = some i) :
    ∃ front rest, bs = front ++ b :: rest ∧ front.length = i ∧ b ∉ front := by
  obtain ⟨hi, hb, hne⟩ := List.idxOf?_eq_some_iff.mp h
  refine ⟨bs.take i, bs.drop (i + 1), ?_, List.length_take_of_le (Nat.le_of_lt hi), ?_⟩
  · rw [← hb, ← List.drop_eq_getElem_cons hi, List.take_append_drop]
  · intro hm
    obtain ⟨j, hj, he⟩ := List.mem_iff_getElem.mp hm
    rw [List.length_take] at hj
    rw [List.getElem_take] at he
    exact hne j (by omega) he

theorem count_take_secondLineFeed? {bs : Bytes} {i : Nat} (h : secondLineFeed? bs = some i) :
    (bs.take i).count Byte.lineFeed = 1 := by
  obtain ⟨j, hj, hmap⟩ := Option.bind_eq_some_iff.mp h
  obtain ⟨k, hk, rfl⟩ := Option.map_eq_some_iff.mp hmap
  obtain ⟨front, rest, rfl, rfl, hf⟩ := idxOf?_cut hj
  clear hmap
  rw [List.drop_length_add_append, List.drop_succ_cons, List.drop_zero] at hk
  obtain ⟨middle, rest, rfl, rfl, hm⟩ := idxOf?_cut hk
  rw [Nat.add_assoc, List.take_length_add_append, Nat.add_comm 1, List.take_succ_cons,
    List.take_left, List.count_append, List.count_cons_self, List.count_eq_zero_of_not_mem hf,
    List.count_eq_zero_of_not_mem hm]

theorem count_of_secondLineFeed?_none {bs : Bytes} (h : secondLineFeed? bs = none) :
    bs.count Byte.lineFeed ≤ 1 := by
  rw [secondLineFeed?] at h
  cases hj : bs.idxOf? Byte.lineFeed with
  | none =>
    rw [List.count_eq_zero_of_not_mem (List.idxOf?_eq_none_iff.mp hj)]
    exact Nat.zero_le 1
  | some j =>
    obtain ⟨front, rest, rfl, rfl, hf⟩ := idxOf?_cut hj
    rw [hj, Option.bind_some, Option.map_eq_none_iff, List.drop_length_add_append,
      List.drop_succ_cons, List.drop_zero, List.idxOf?_eq_none_iff] at h
    rw [List.count_append, List.count_cons_self, List.count_eq_zero_of_not_mem hf,
      List.count_eq_zero_of_not_mem h]

section

variable {s : String}

theorem exists_contextLine {pos : Nat} (h : pos ≤ s.toUTF8.size) :
    ∃ line, Text.StartsLine s.toUTF8 (max 1 (Text.lineAt s.toUTF8 pos - 1)) line ∧ line ≤ pos ∧
      start s.toUTF8 (LineIndex.ofText s.toUTF8) pos =
        Text.ceil s.toUTF8 (max line (pos - 120)) := by
  have hle : max 1 (Text.lineAt s.toUTF8 pos - 1) ≤ Text.lineAt s.toUTF8 s.toUTF8.size := by
    have := @Text.lineAt_add_count s.toUTF8 _ _ h
    have := Text.lineAt_pos s.toUTF8 s.toUTF8.size
    omega
  obtain ⟨line, hline⟩ := LineIndex.exists_lineStart? (by omega) hle
  have hc := (contextLine_spec (s := s) pos).2
  rw [LineIndex.lineOf_eq_lineAt, hline, Option.getD_some] at hc
  refine ⟨line, LineIndex.lineStart?_iff.mp hline, hc, ?_⟩
  rw [start, LineIndex.lineOf_eq_lineAt, hline]
  rfl

theorem startsLineBefore_of_startsLine {text : Text} {pos line : Nat}
    (h : text.StartsLine (max 1 (text.lineAt pos - 1)) line) (hle : line ≤ pos) :
    text.StartsLineBefore pos line := by
  rw [Text.StartsLineBefore]
  split
  · next hone =>
    rw [hone] at h
    rcases h.behind with hz | ⟨i, rfl, hi⟩
    · exact hz
    · have := h.line_eq
      rw [Text.lineAt, Text.count_take_succ hi] at this
      omega
  · next hne =>
    have hmax : max 1 (text.lineAt pos - 1) = text.lineAt pos - 1 := by
      have := text.lineAt_pos pos
      omega
    rwa [hmax] at h

theorem start_surrounds {pos : Nat} (h : pos ≤ s.toUTF8.size) :
    pos - start s.toUTF8 (LineIndex.ofText s.toUTF8) pos ≤ 120 ∧
      (Text.slice s.toUTF8 (start s.toUTF8 (LineIndex.ofText s.toUTF8) pos) pos).count
        Byte.lineFeed ≤ 1 ∧
      (Text.StartsLineBefore s.toUTF8 pos (start s.toUTF8 (LineIndex.ofText s.toUTF8) pos) ∨
        117 ≤ pos - start s.toUTF8 (LineIndex.ofText s.toUTF8) pos) := by
  have hle := start_le h
  obtain ⟨line, hline, hpos, hstart⟩ := exists_contextLine h
  generalize start s.toUTF8 (LineIndex.ofText s.toUTF8) pos = begin at hle hstart
  have hlow := Text.le_ceil s.toUTF8 (max line (pos - 120))
  rw [← hstart, Nat.min_eq_left (by omega)] at hlow
  have hwhole := @Text.lineAt_add_count s.toUTF8 _ _ hle
  have hfront := @Text.lineAt_add_count s.toUTF8 _ _ (show line ≤ begin by omega)
  rw [← hline.line_eq] at hfront
  refine ⟨by omega, by omega, ?_⟩
  by_cases hfar : pos - 120 ≤ line
  · left
    have hb := isBoundary_lineStart? (LineIndex.lineStart?_iff.mpr hline)
    rw [Nat.max_eq_left hfar, Text.ceil_eq hb] at hstart
    rw [hstart]
    exact startsLineBefore_of_startsLine hline hpos
  · right
    have hceil := Text.ceil_le_add_three (show pos - 120 ≤ s.toUTF8.size by omega)
    rw [Nat.max_eq_right (by omega)] at hstart
    omega

theorem stop?_surrounds {e f : Nat} (h : stop? s.toUTF8 e = some f) :
    f - e ≤ 120 ∧ (Text.slice s.toUTF8 e f).count Byte.lineFeed ≤ 1 ∧
      (f = s.toUTF8.size ∨ Text.SecondLineFeed s.toUTF8 e f ∨ 117 ≤ f - e) := by
  obtain ⟨bs, hbs, hf⟩ := Option.map_eq_some_iff.mp h
  obtain ⟨hle, -, hlimit, rfl⟩ := Text.slice?_cases hbs
  have hsize := Text.le_size_of_isBoundary hlimit
  have hfloor := Text.floor_le s.toUTF8 (e + context)
  have hcontext : e + context = e + 120 := rfl
  cases hs : secondLineFeed? (Text.slice s.toUTF8 e (Text.floor s.toUTF8 (e + context))) with
  | none =>
    rw [hs, Option.elim_none] at hf
    subst hf
    refine ⟨by omega, count_of_secondLineFeed?_none hs, ?_⟩
    by_cases hend : s.toUTF8.size ≤ e + context
    · exact Or.inl (Text.floor_of_size_le hend)
    · have := Text.le_floor_add_three (show e + context ≤ s.toUTF8.size by omega)
      exact Or.inr (Or.inr (by omega))
  | some i =>
    rw [hs, Option.elim_some] at hf
    subst hf
    have hfeed := getElem?_secondLineFeed? hs
    have hi := (List.getElem?_eq_some_iff.mp hfeed).1
    have hcount := count_take_secondLineFeed? hs
    rw [Text.length_slice _ hsize] at hi
    rw [Text.getElem?_slice (by rwa [Text.length_slice _ hsize])] at hfeed
    have htake : (Text.slice s.toUTF8 e (Text.floor s.toUTF8 (e + context))).take i =
        Text.slice s.toUTF8 e (e + i) := by
      rw [Text.slice_eq, Text.slice_eq, List.take_take, Nat.min_eq_left (Nat.le_of_lt hi),
        Nat.add_sub_cancel_left]
    rw [htake] at hcount
    exact ⟨by omega, Nat.le_of_eq hcount, Or.inr (Or.inl ⟨hfeed, Nat.le_add_right e i, hcount⟩)⟩

theorem surrounds_around? {name : String} {label : Span} {w : Window}
    (h : around? name s.toUTF8 (LineIndex.ofText s.toUTF8) label = some w) :
    w.Surrounds s.toUTF8 label := by
  obtain ⟨stop, hstop, hc, hoffset, -⟩ := around?_cases h
  have hs := stop_eq hc
  subst hs
  have hlabel : label.start ≤ label.stop := Nat.le_add_right _ _
  obtain ⟨hle, hsize⟩ := stop?_bounds hstop
  obtain ⟨hbefore, hlinesBefore, hfullBefore⟩ :=
    start_surrounds (s := s) (show label.start ≤ s.toUTF8.size by omega)
  obtain ⟨hafter, hlinesAfter, hfullAfter⟩ := stop?_surrounds hstop
  rw [← hoffset] at hbefore hlinesBefore hfullBefore
  exact ⟨holds_label h, hsize, hc, hbefore, hafter, hlinesBefore, hlinesAfter, hfullBefore,
    hfullAfter⟩

end

end Window

namespace Report

/-- What the report of a diagnostic is about: as much of its span as a label covers, or the place
where its line starts. -/
structure Focuses (text : Text) (d : Diagnostic) (label : Span) : Prop where
  length_le : label.length ≤ 120
  clipped : ∀ span ∈ d.span, label.start = span.start ∧
    ∃ e, IsGreatest {b | text.isBoundary b ∧ b ≤ min span.stop (span.start + 120)} e ∧
      label.stop = max e span.start
  lined : d.span = none → label.length = 0 ∧
    (text.StartsLine d.line label.start ∨
      (∀ pos, ¬ text.StartsLine d.line pos) ∧ label.start = text.size)

theorem focuses_focus (text : Text) (d : Diagnostic) :
    Focuses text d (focus text (LineIndex.ofText text) d) := by
  rw [focus]
  cases hd : d.span with
  | none =>
    refine ⟨Nat.zero_le _, fun span hs => absurd (hd ▸ hs) (by simp), fun _ => ⟨rfl, ?_⟩⟩
    cases hl : (LineIndex.ofText text).lineStart? d.line with
    | none =>
      refine Or.inr ⟨fun pos hpos => ?_, rfl⟩
      rw [LineIndex.lineStart?_iff.mpr hpos] at hl
      cases hl
    | some start => exact Or.inl (LineIndex.lineStart?_iff.mp hl)
  | some span =>
    have hle := Text.floor_le text (min span.stop (span.start + Window.context))
    have hcontext : span.start + Window.context = span.start + 120 := rfl
    refine ⟨?_, fun span' hs => ?_, fun hn => absurd (hd ▸ hn) (by simp)⟩
    · simp only [labelOf, Span.ofBounds]
      omega
    · obtain rfl : span = span' := Option.some.inj (hd.symm.trans hs)
      exact ⟨rfl, _, Text.isGreatest_floor text _, stop_labelOf text span⟩

theorem span_of_scan {s : String} {d : Diagnostic}
    (h : d ∈ (scan (Bytes.ofString s)).diagnostics) :
    ∃ span, d.span = some span ∧ Text.isBoundary s.toUTF8 span.start ∧
      Text.isBoundary s.toUTF8 span.stop ∧ 0 < span.length := by
  obtain ⟨step, hm, he⟩ := (Scan.mem_diagnostics_iff _ d).mp h
  obtain ⟨k, rfl⟩ := Cursor.exists_of_mem_steps hm
  obtain ⟨-, hstart, hstop, -⟩ := Text.slice?_cases
    (Cursor.slice_next (Cursor.standsIn_ofString s k) (Cursor.isText_ofString s k))
  exact ⟨_, (Cursor.diagnostic_next he).1, hstart, hstop, Cursor.length_pos_of_diagnostic he⟩

theorem labelOf_of_isBoundary {s : String} {span : Span}
    (h : Text.isBoundary s.toUTF8 span.stop) :
    labelOf s.toUTF8 span = span ∨ 117 ≤ (labelOf s.toUTF8 span).length := by
  have hcontext : span.start + Window.context = span.start + 120 := rfl
  by_cases hle : span.stop ≤ span.start + Window.context
  · left
    have hstart : span.start ≤ span.stop := Nat.le_add_right _ _
    rw [labelOf, Nat.min_eq_left hle, Text.floor_eq h, Nat.max_eq_left hstart, Span.ofBounds,
      Span.stop, Nat.add_sub_cancel_left]
  · right
    have hsize := Text.le_size_of_isBoundary h
    have hfloor := Text.le_floor_add_three
      (show span.start + Window.context ≤ s.toUTF8.size by omega)
    simp only [labelOf, Span.ofBounds, Nat.min_eq_right (Nat.le_of_not_le hle)]
    omega

theorem report_window_bounded (name s : String) (d : Diagnostic) :
    (∀ r, of? name s.toUTF8 (LineIndex.ofText s.toUTF8) d = some r →
      ∃ label, Focuses s.toUTF8 d label ∧ r.label = d.span.map (fun _ => label) ∧
        r.window.Surrounds s.toUTF8 label) ∧
      (d ∈ (scan (Bytes.ofString s)).diagnostics →
        ∃ r span label, of? name s.toUTF8 (LineIndex.ofText s.toUTF8) d = some r ∧
          d.span = some span ∧ r.label = some label ∧ label.start = span.start ∧
          0 < label.length ∧ (label = span ∨ 117 ≤ label.length)) := by
  constructor
  · intro r h
    obtain ⟨hw, hl⟩ := of?_cases h
    refine ⟨_, focuses_focus s.toUTF8 d, ?_, Window.surrounds_around? hw⟩
    rw [hl, focus]
    cases d.span <;> rfl
  · intro h
    obtain ⟨span, hd, hstart, hstop, hpos⟩ := span_of_scan h
    obtain ⟨r, hr, hl⟩ := exists_of? name hd hstart
    have hlength := labelOf_of_isBoundary hstop
    refine ⟨r, span, _, hr, hd, hl, rfl, ?_, hlength⟩
    rcases hlength with he | hle
    · rwa [he]
    · omega

theorem window_bounded_on_third_line :
    ∃ r, of? "t.rl" "a\nb\n@ c\nd\ne".toUTF8 (LineIndex.ofText "a\nb\n@ c\nd\ne".toUTF8)
        ⟨.unidentifiedToken, 3, some ⟨4, 1⟩⟩ = some r ∧ r.label = some ⟨4, 1⟩ ∧
      r.window.contents = Bytes.ofString "b\n@ c\nd" ∧
      r.window.Surrounds "a\nb\n@ c\nd\ne".toUTF8 ⟨4, 1⟩ := by
  have h : of? "t.rl" "a\nb\n@ c\nd\ne".toUTF8 (LineIndex.ofText "a\nb\n@ c\nd\ne".toUTF8)
      ⟨.unidentifiedToken, 3, some ⟨4, 1⟩⟩ =
      some ⟨"Unidentified token", "R1001 reported at line 3", some ⟨4, 1⟩,
        ⟨"t.rl", Bytes.ofString "b\n@ c\nd", 2, 1, 0⟩⟩ := by cbv
  obtain ⟨label, -, hl, hw⟩ := (report_window_bounded _ _ _).1 _ h
  obtain rfl : ⟨4, 1⟩ = label := Option.some.inj hl
  exact ⟨_, h, rfl, rfl, hw⟩

end Report

end ScriptLexer
