import ScriptLexer.Proofs.LineLocations
import ScriptLexer.Proofs.NearestBoundaries
import ScriptLexer.Report.Basic

namespace ScriptLexer

namespace Text

theorem slice?_cases {text : Text} {a b : Nat} {bs : Bytes} (h : text.slice? a b = some bs) :
    a ≤ b ∧ text.isBoundary a ∧ text.isBoundary b ∧ bs = text.slice a b := by
  rw [slice?] at h
  split at h
  · next hc => exact ⟨hc.1, hc.2.1, hc.2.2, (Option.some.inj h).symm⟩
  · cases h

theorem slice?_of_isBoundary {text : Text} {a b : Nat} (h : a ≤ b) (ha : text.isBoundary a)
    (hb : text.isBoundary b) : text.slice? a b = some (text.slice a b) := by
  rw [slice?, if_pos ⟨h, ha, hb⟩]

theorem length_slice {text : Text} {b : Nat} (a : Nat) (h : b ≤ text.size) :
    (text.slice a b).length = b - a := by
  rw [slice_eq, List.length_take, List.length_drop, length_bytes]
  omega

theorem getElem?_slice {text : Text} {a b i : Nat} (h : i < (text.slice a b).length) :
    (text.slice a b)[i]? = text.bytes[a + i]? := by
  rw [slice_eq, List.length_take] at h
  rw [slice_eq, List.getElem?_take_of_lt (by omega), List.getElem?_drop]

end Text

namespace Window

def stop (w : Window) : Nat := w.offset + w.contents.length

def Holds (w : Window) (span : Span) : Prop := w.offset ≤ span.start ∧ span.stop ≤ w.stop

structure CutFrom (w : Window) (text : Text) : Prop where
  stop_le : w.stop ≤ text.size
  contents_eq : w.contents = text.slice w.offset w.stop
  location_eq : ⟨w.line + 1, w.column + 1⟩ = (LineIndex.ofText text).locate w.offset

theorem getElem?_of_idxOf? {bs : Bytes} {b : UInt8} {i : Nat} (h : bs.idxOf? b = some i) :
    bs[i]? = some b := by
  obtain ⟨hi, hb, -⟩ := List.findIdx?_eq_some_iff_getElem.mp h
  rw [List.getElem?_eq_getElem hi, beq_iff_eq.mp hb]

theorem getElem?_secondLineFeed? {bs : Bytes} {i : Nat} (h : secondLineFeed? bs = some i) :
    bs[i]? = some Byte.lineFeed := by
  obtain ⟨j, -, hj⟩ := Option.bind_eq_some_iff.mp h
  obtain ⟨k, hk, rfl⟩ := Option.map_eq_some_iff.mp hj
  rw [← getElem?_of_idxOf? hk, List.getElem?_drop]

section

variable {text : Text} {e f : Nat}

theorem stop?_bounds (h : stop? text e = some f) : e ≤ f ∧ f ≤ text.size := by
  obtain ⟨bs, hbs, hf⟩ := Option.map_eq_some_iff.mp h
  obtain ⟨hle, -, hlimit, rfl⟩ := Text.slice?_cases hbs
  have hsize := Text.le_size_of_isBoundary hlimit
  cases hs : secondLineFeed? (text.slice e (text.floor (e + context))) with
  | none =>
    rw [hs, Option.elim_none] at hf
    omega
  | some i =>
    rw [hs, Option.elim_some] at hf
    have hi := (List.getElem?_eq_some_iff.mp (getElem?_secondLineFeed? hs)).1
    rw [Text.length_slice _ hsize] at hi
    omega

theorem exists_stop? (h : text.isBoundary e) : ∃ f, stop? text e = some f ∧ text.isBoundary f := by
  have hle := Text.le_floor h (Nat.le_add_right e context)
  have hlimit := Text.isBoundary_floor text (e + context)
  rw [stop?, Text.slice?_of_isBoundary hle h hlimit, Option.map_some]
  refine ⟨_, rfl, ?_⟩
  cases hs : secondLineFeed? (text.slice e (text.floor (e + context))) with
  | none => exact hlimit
  | some i =>
    have hb := getElem?_secondLineFeed? hs
    rw [Text.getElem?_slice (List.getElem?_eq_some_iff.mp hb).1] at hb
    exact Text.isBoundary_of_ascii hb (by decide)

variable {name : String} {index : LineIndex} {label : Span} {w : Window}

theorem around?_cases (h : around? name text index label = some w) :
    ∃ stop, stop? text label.stop = some stop ∧ text.slice? w.offset stop = some w.contents ∧
      w.offset = start text index label.start ∧
      w.line = (index.locate w.offset).line - 1 ∧
      w.column = (index.locate w.offset).column - 1 := by
  obtain ⟨stop, hstop, hw⟩ := Option.bind_eq_some_iff.mp h
  obtain ⟨contents, hc, hw⟩ := Option.bind_eq_some_iff.mp hw
  obtain rfl := Option.some.inj hw
  exact ⟨stop, hstop, hc, rfl, rfl, rfl⟩

theorem stop_eq {stop : Nat} (hc : text.slice? w.offset stop = some w.contents) :
    w.stop = stop := by
  obtain ⟨hle, -, hb, hs⟩ := Text.slice?_cases hc
  have hsize := Text.le_size_of_isBoundary hb
  rw [Window.stop, hs, Text.length_slice _ hsize]
  omega

theorem cutFrom_around? (h : around? name text (LineIndex.ofText text) label = some w) :
    w.CutFrom text := by
  obtain ⟨stop, -, hc, -, hline, hcolumn⟩ := around?_cases h
  obtain ⟨hle, -, hb, hs⟩ := Text.slice?_cases hc
  have hsize := Text.le_size_of_isBoundary hb
  obtain ⟨hl, hn⟩ := LineIndex.locate_pos text (Nat.le_trans hle hsize)
  refine ⟨by rwa [stop_eq hc], by rw [stop_eq hc, hs], ?_⟩
  rw [hline, hcolumn, Nat.sub_add_cancel hl, Nat.sub_add_cancel hn]

end

section

variable {s : String}

theorem isBoundary_lineStart? {line start : Nat}
    (h : (LineIndex.ofText s.toUTF8).lineStart? line = some start) :
    Text.isBoundary s.toUTF8 start := by
  rcases LineIndex.lineStart?_cases h with rfl | ⟨j, rfl, hj⟩
  · exact Text.isBoundary_zero _
  · exact Text.isBoundary_after_ascii hj (by decide)

theorem contextLine_spec (labelStart : Nat) :
    Text.isBoundary s.toUTF8 (((LineIndex.ofText s.toUTF8).lineStart?
        (max 1 ((LineIndex.ofText s.toUTF8).lineOf labelStart - 1))).getD 0) ∧
      ((LineIndex.ofText s.toUTF8).lineStart?
        (max 1 ((LineIndex.ofText s.toUTF8).lineOf labelStart - 1))).getD 0 ≤ labelStart := by
  cases h : (LineIndex.ofText s.toUTF8).lineStart?
      (max 1 ((LineIndex.ofText s.toUTF8).lineOf labelStart - 1)) with
  | none => exact ⟨Text.isBoundary_zero _, Nat.zero_le _⟩
  | some start =>
    refine ⟨isBoundary_lineStart? h, LineIndex.lineStart?_le h ?_⟩
    rw [LineIndex.lineOf_ofText]
    omega

/-- Rounding up does not carry the start of a window past the label, as a character is short. -/
theorem start_le {labelStart : Nat} (h : labelStart ≤ s.toUTF8.size) :
    start s.toUTF8 (LineIndex.ofText s.toUTF8) labelStart ≤ labelStart := by
  obtain ⟨hb, hle⟩ := contextLine_spec (s := s) labelStart
  rw [start]
  generalize ((LineIndex.ofText s.toUTF8).lineStart?
    (max 1 ((LineIndex.ofText s.toUTF8).lineOf labelStart - 1))).getD 0 = line at hb hle
  by_cases hm : labelStart - context ≤ line
  · rw [Nat.max_eq_left hm]
    exact Nat.le_trans (Text.ceil_le hb (Nat.le_refl _)) hle
  · have hceil := Text.ceil_le_add_three (show labelStart - context ≤ s.toUTF8.size by omega)
    rw [Nat.max_eq_right (by omega)]
    rw [context] at *
    omega

theorem holds_label {name : String} {label : Span} {w : Window}
    (h : around? name s.toUTF8 (LineIndex.ofText s.toUTF8) label = some w) : w.Holds label := by
  obtain ⟨stop, hstop, hc, hoffset, -⟩ := around?_cases h
  obtain ⟨hle, hsize⟩ := stop?_bounds hstop
  have hstart : label.start ≤ label.stop := Nat.le_add_right _ _
  rw [Holds, hoffset, stop_eq hc]
  exact ⟨start_le (by omega), hle⟩

theorem exists_around? (name : String) {label : Span}
    (hb : Text.isBoundary s.toUTF8 label.stop) :
    ∃ w, around? name s.toUTF8 (LineIndex.ofText s.toUTF8) label = some w := by
  obtain ⟨stop, hstop, hf⟩ := exists_stop? hb
  have hlabel : label.start ≤ label.stop := Nat.le_add_right _ _
  have hle := start_le (Nat.le_trans hlabel (Text.le_size_of_isBoundary hb))
  have hfrom : Text.isBoundary s.toUTF8
      (start s.toUTF8 (LineIndex.ofText s.toUTF8) label.start) := Text.isBoundary_ceil _ _
  have hc := Text.slice?_of_isBoundary (b := stop)
    (Nat.le_trans hle (Nat.le_trans hlabel (stop?_bounds hstop).1)) hfrom hf
  simp only [around?, hstop, hc, Option.bind_eq_bind, Option.bind_some]
  exact ⟨_, rfl⟩

end

end Window

namespace Report

variable {name : String} {text : Text} {index : LineIndex} {d : Diagnostic} {r : Report}

theorem of?_cases (h : of? name text index d = some r) :
    Window.around? name text index (focus text index d) = some r.window ∧
      r.label = d.span.map (labelOf text) := by
  obtain ⟨w, hw, rfl⟩ := Option.map_eq_some_iff.mp h
  exact ⟨hw, rfl⟩

theorem focus_of_label {label : Span} (h : d.span.map (labelOf text) = some label) :
    focus text index d = label := by
  obtain ⟨span, hs, rfl⟩ := Option.map_eq_some_iff.mp h
  rw [focus, hs]

theorem label_in_window {s : String}
    (h : of? name s.toUTF8 (LineIndex.ofText s.toUTF8) d = some r) :
    ∀ label ∈ r.label, r.window.Holds label := by
  obtain ⟨hw, hl⟩ := of?_cases h
  intro label hm
  rw [Option.mem_def, hl] at hm
  rw [focus_of_label hm] at hw
  exact Window.holds_label hw

end Report

end ScriptLexer
