import ScriptLexer.Proofs.LabelLocations
import ScriptLexer.Proofs.LineLookup

namespace ScriptLexer

/-- The span starts inside a character of the text and stops before that character does. -/
def Span.StopsInCharacter (span : Span) (s : String) : Prop :=
  ∃ before c behind, s.toList = before ++ c :: behind ∧
    (Bytes.ofChars before).length < span.start ∧
    span.start < (Bytes.ofChars (before ++ [c])).length ∧
    span.stop < (Bytes.ofChars (before ++ [c])).length

namespace Window

def guarded? (name : String) (text : Text) (index : LineIndex) (label : Span) : Option Window := do
  let stop ← stop? text label.stop
  let location ← index.locate? (start text index label.start)
  guard (0 < location.line ∧ 0 < location.column)
  let contents ← text.slice? (start text index label.start) stop
  return ⟨name, contents, start text index label.start, location.line - 1, location.column - 1⟩

theorem guarded?_eq (name : String) (text : Text) (label : Span) :
    guarded? name text (LineIndex.ofText text) label =
      around? name text (LineIndex.ofText text) label := by
  have hplaces := LineIndex.places_locate text (start text (LineIndex.ofText text) label.start)
  simp only [guarded?, around?, LineIndex.locate?_eq_some, guard, hplaces.line_pos,
    hplaces.column_pos, and_self, if_true, Option.bind_eq_bind, Option.bind_some, Option.pure_def]

theorem around?_eq_none_iff {name s : String} {label : Span} :
    around? name s.toUTF8 (LineIndex.ofText s.toUTF8) label = none ↔
      ¬ Text.isBoundary s.toUTF8 label.stop := by
  constructor
  · intro h hb
    obtain ⟨w, hw⟩ := exists_around? name hb
    rw [h] at hw
    cases hw
  · intro h
    rw [Option.eq_none_iff_forall_ne_some]
    intro w hw
    obtain ⟨stop, hstop, -⟩ := around?_cases hw
    obtain ⟨bs, hbs, -⟩ := Option.map_eq_some_iff.mp hstop
    exact h (Text.slice?_cases hbs).2.1

end Window

namespace Report

variable {s : String} {span : Span}

theorem stop_labelOf_le (text : Text) (span : Span) : (labelOf text span).stop ≤ span.stop := by
  have hfloor := text.floor_le (min span.stop (span.start + Window.context))
  have hspan : span.start ≤ span.stop := Nat.le_add_right _ _
  rw [stop_labelOf]
  omega

theorem not_isBoundary_of_lt_start (h : s.toUTF8.size < span.start) :
    ¬ Text.isBoundary s.toUTF8 (labelOf s.toUTF8 span).stop := by
  intro hb
  have hsize := Text.le_size_of_isBoundary hb
  rw [stop_labelOf] at hsize
  omega

theorem not_isBoundary_of_stopsInCharacter (h : span.StopsInCharacter s) :
    ¬ Text.isBoundary s.toUTF8 (labelOf s.toUTF8 span).stop := by
  obtain ⟨before, c, behind, hs, hstart, -, hstop⟩ := h
  have hle := stop_labelOf_le s.toUTF8 span
  apply Text.not_isBoundary_inside hs
  · rw [stop_labelOf]
    omega
  · omega

theorem misfit_of_not_isBoundary (h : ¬ Text.isBoundary s.toUTF8 (labelOf s.toUTF8 span).stop) :
    s.toUTF8.size < span.start ∨ span.StopsInCharacter s := by
  rw [stop_labelOf] at h
  generalize hlimit : min span.stop (span.start + Window.context) = limit at h
  have hfloor := Text.isBoundary_floor s.toUTF8 limit
  have hlt : Text.floor s.toUTF8 limit < span.start := by
    by_contra hle
    rw [Nat.max_eq_left (Nat.le_of_not_lt hle)] at h
    exact h hfloor
  rw [Nat.max_eq_right (Nat.le_of_lt hlt)] at h
  by_cases hsize : s.toUTF8.size < span.start
  · exact Or.inl hsize
  right
  have hne : span.start ≠ s.toUTF8.size := fun he => h (he ▸ Text.isBoundary_size _)
  obtain ⟨before, c, behind, hs, hfront, hback, hle, hbehind, hfour⟩ :=
    Text.exists_character_around (show span.start < s.toUTF8.size by omega)
  have hinside : (Bytes.ofChars before).length ≠ span.start := fun he => h (he ▸ hfront)
  have hreach : limit < (Bytes.ofChars (before ++ [c])).length := by
    by_contra hle
    have := Text.le_floor hback (Nat.le_of_not_lt hle)
    omega
  have hcontext : Window.context = 120 := rfl
  exact ⟨before, c, behind, hs, by omega, hbehind, by omega⟩

theorem not_isBoundary_stop_labelOf_iff :
    ¬ Text.isBoundary s.toUTF8 (labelOf s.toUTF8 span).stop ↔
      s.toUTF8.size < span.start ∨ span.StopsInCharacter s := by
  constructor
  · exact misfit_of_not_isBoundary
  · rintro (h | h)
    · exact not_isBoundary_of_lt_start h
    · exact not_isBoundary_of_stopsInCharacter h

theorem of?_eq_none_iff {name : String} {d : Diagnostic} :
    of? name s.toUTF8 (LineIndex.ofText s.toUTF8) d = none ↔
      ∃ span ∈ d.span, s.toUTF8.size < span.start ∨ span.StopsInCharacter s := by
  rw [of?, Option.map_eq_none_iff, Window.around?_eq_none_iff, focus]
  cases d.span with
  | none =>
    refine ⟨fun h => absurd ?_ h, fun h => by simp at h⟩
    cases hl : (LineIndex.ofText s.toUTF8).lineStart? d.line with
    | none => exact Text.isBoundary_size _
    | some start => exact Window.isBoundary_lineStart? hl
  | some span =>
    rw [not_isBoundary_stop_labelOf_iff]
    simp

theorem report_missing_iff (name s : String) (d : Diagnostic) :
    (∀ label, Window.guarded? name s.toUTF8 (LineIndex.ofText s.toUTF8) label =
      Window.around? name s.toUTF8 (LineIndex.ofText s.toUTF8) label) ∧
    (of? name s.toUTF8 (LineIndex.ofText s.toUTF8) d = none ↔
      ∃ span ∈ d.span, s.toUTF8.size < span.start ∨ span.StopsInCharacter s) ∧
    ((∀ span ∈ d.span, Text.isBoundary s.toUTF8 span.start) →
      ∃ r, of? name s.toUTF8 (LineIndex.ofText s.toUTF8) d = some r) := by
  refine ⟨Window.guarded?_eq name _, of?_eq_none_iff, fun h => ?_⟩
  rw [← Option.ne_none_iff_exists', Ne, of?_eq_none_iff]
  rintro ⟨span, hspan, hmisfit⟩
  exact not_isBoundary_stop_labelOf_iff.mpr hmisfit (isBoundary_stop_labelOf (h span hspan))

theorem report_missing_inside_character :
    Text.isBoundary "aé".toUTF8 1 ∧
      (∃ r, of? "t.rl" "aé".toUTF8 (LineIndex.ofText "aé".toUTF8)
        ⟨.unidentifiedToken, 7, some ⟨1, 500⟩⟩ = some r) ∧
      of? "t.rl" "aé".toUTF8 (LineIndex.ofText "aé".toUTF8)
        ⟨.unidentifiedToken, 7, some ⟨2, 0⟩⟩ = none := by
  have hb : Text.isBoundary "aé".toUTF8 1 := by decide
  refine ⟨hb, (report_missing_iff "t.rl" "aé" _).2.2 ?_, ?_⟩
  · rintro span hspan
    obtain rfl := Option.some.inj hspan
    exact hb
  · apply (report_missing_iff "t.rl" "aé" _).2.1.mpr
    exact ⟨⟨2, 0⟩, rfl, Or.inr ⟨['a'], 'é', [], by decide, by decide, by decide, by decide⟩⟩

end Report

end ScriptLexer
