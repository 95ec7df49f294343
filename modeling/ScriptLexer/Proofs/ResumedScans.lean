import ScriptLexer.Proofs.TokenTiling

namespace ScriptLexer

def Cursor.shift (bytes lines : Nat) (c : Cursor) : Cursor :=
  { c with pos := c.pos + bytes, line := c.line + lines }

def Step.shift (bytes lines : Nat) (s : Step) : Step :=
  ⟨s.token.shift bytes lines, s.diagnostic.map (·.shift bytes lines), s.cursor.shift bytes lines⟩

namespace Scan

def ofSteps (steps : List Step) : Scan :=
  ⟨(steps.map (·.token)).filter (·.isProduced), steps.filterMap (·.diagnostic)⟩

def shift (bytes lines : Nat) (s : Scan) : Scan :=
  ⟨s.tokens.map (·.shift bytes lines), s.diagnostics.map (·.shift bytes lines)⟩

instance : Append Scan where
  append s t := ⟨s.tokens ++ t.tokens, s.diagnostics ++ t.diagnostics⟩

theorem append_def (s t : Scan) :
    s ++ t = ⟨s.tokens ++ t.tokens, s.diagnostics ++ t.diagnostics⟩ := rfl

theorem append_assoc (s t u : Scan) : s ++ t ++ u = s ++ (t ++ u) := by
  simp only [append_def, List.append_assoc]

theorem ofSteps_append (before behind : List Step) :
    ofSteps (before ++ behind) = ofSteps before ++ ofSteps behind := by
  simp only [ofSteps, append_def, List.map_append, List.filter_append, List.filterMap_append]

theorem ofSteps_cons (step : Step) (steps : List Step) :
    ofSteps (step :: steps) = ofSteps [step] ++ ofSteps steps :=
  ofSteps_append [step] steps

theorem ofSteps_shift (bytes lines : Nat) (steps : List Step) :
    ofSteps (steps.map (·.shift bytes lines)) = (ofSteps steps).shift bytes lines := by
  have hproduced (t : Token) : (t.shift bytes lines).isProduced = t.isProduced := rfl
  simp only [ofSteps, shift, List.map_map, List.filter_map, List.filterMap_map, List.map_filterMap,
    Function.comp_def, Step.shift, hproduced]

end Scan

namespace Cursor

theorem scan_eq_ofSteps (c : Cursor) : c.scan = Scan.ofSteps c.steps := rfl

theorem shift_advance (bytes lines : Nat) (c : Cursor) (n : Nat) :
    (c.shift bytes lines).advance n = (c.advance n).shift bytes lines := by
  simp only [shift, advance, Cursor.mk.injEq, true_and]
  omega

theorem shift_skipTrivia (bytes lines : Nat) (c : Cursor) :
    (c.shift bytes lines).skipTrivia = c.skipTrivia.shift bytes lines := by
  fun_induction skipTrivia c with
  | case1 c h => rw [skipTrivia, if_pos (show Trivia.piece (c.shift bytes lines).unread = 0 from h)]
  | case2 c h ih =>
    rw [skipTrivia, if_neg (show Trivia.piece (c.shift bytes lines).unread ≠ 0 from h),
      shift_advance]
    exact ih

theorem shift_takeLexeme (bytes lines : Nat) (c : Cursor) :
    (c.shift bytes lines).takeLexeme = c.takeLexeme.shift bytes lines := by
  cases hu : c.unread with
  | nil =>
    rw [takeLexeme_nil hu, takeLexeme_nil (show (c.shift bytes lines).unread = [] from hu)]
    rfl
  | cons b rest =>
    have hs : (c.shift bytes lines).unread = b :: rest := hu
    simp only [takeLexeme, hu, hs, shift_advance]
    cases (Lexeme.front b rest).issue <;> rfl

theorem shift_next (bytes lines : Nat) (c : Cursor) :
    (c.shift bytes lines).next = c.next.shift bytes lines := by
  rw [next, shift_skipTrivia, shift_takeLexeme, next]

theorem shift_after (bytes lines : Nat) (c : Cursor) (k : Nat) :
    (c.shift bytes lines).after k = (c.after k).shift bytes lines := by
  induction k with
  | zero => rfl
  | succ k ih => rw [after, ih, shift_next, after, Step.shift]

theorem shift_steps (bytes lines : Nat) (c : Cursor) :
    (c.shift bytes lines).steps = c.steps.map (·.shift bytes lines) := by
  induction c using steps_induction with
  | last c hk =>
    have hs : (c.shift bytes lines).next.token.kind = .endOfText := by
      rw [shift_next]
      exact hk
    rw [steps_eq, if_pos hs, shift_next, List.map_singleton]
  | more c hk ih =>
    have hs : (c.shift bytes lines).next.token.kind ≠ .endOfText := by
      rw [shift_next]
      exact hk
    rw [steps_eq, if_neg hs, shift_next, List.map_cons, ← ih, Step.shift]

theorem shift_scan (bytes lines : Nat) (c : Cursor) :
    (c.shift bytes lines).scan = c.scan.shift bytes lines := by
  rw [scan_eq_ofSteps, shift_steps, Scan.ofSteps_shift, ← scan_eq_ofSteps]

theorem eq_shift_start {c : Cursor} (h : 0 < c.line) :
    c = (start c.unread).shift c.pos (c.line - 1) := by
  obtain ⟨unread, pos, line⟩ := c
  simp only [start, shift, Cursor.mk.injEq, true_and] at h ⊢
  omega

theorem scan_of_end {c : Cursor} (h : c.next.token.kind = .endOfText) :
    c.scan = Scan.ofSteps [] := by
  have hu := (kind_takeLexeme c.skipTrivia).mp h
  rw [scan_eq_ofSteps, steps_eq, if_pos h, next, takeLexeme_nil hu]
  rfl

theorem scan_eq_next (c : Cursor) : c.scan = Scan.ofSteps [c.next] ++ c.next.cursor.scan := by
  rw [scan_eq_ofSteps, steps_eq]
  by_cases h : c.next.token.kind = .endOfText
  · have hn : c.next.cursor.next.token.kind = .endOfText := by
      rw [next_after_end h]
      exact h
    rw [if_pos h, scan_of_end hn, ← Scan.ofSteps_append, List.append_nil]
  · rw [if_neg h, Scan.ofSteps_cons, ← scan_eq_ofSteps]

def firstSteps (c : Cursor) (k : Nat) : List Step := (List.range k).map fun j => (c.after j).next

theorem firstSteps_succ (c : Cursor) (k : Nat) :
    c.firstSteps (k + 1) = c.firstSteps k ++ [(c.after k).next] := by
  rw [firstSteps, List.range_succ, List.map_append, List.map_singleton, ← firstSteps]

theorem scan_eq_firstSteps (c : Cursor) (k : Nat) :
    c.scan = Scan.ofSteps (c.firstSteps k) ++ (c.after k).scan := by
  induction k with
  | zero => rfl
  | succ k ih =>
    rw [ih, scan_eq_next (c.after k), firstSteps_succ, Scan.ofSteps_append, Scan.append_assoc, after]

/-- From the cursor on, all steps and the scan are those of the other text, further on. -/
structure Resumes (c : Cursor) (rest : String) : Prop where
  next_eq : ∀ j, (c.after j).next = ((ofString rest).after j).next.shift c.pos (c.line - 1)
  scan_eq : c.scan = (ScriptLexer.scan (Bytes.ofString rest)).shift c.pos (c.line - 1)

theorem resumes_of_unread {c : Cursor} {rest : String} (hl : 0 < c.line)
    (hu : c.unread = Bytes.ofString rest) : c.Resumes rest := by
  have hc := eq_shift_start hl
  rw [hu] at hc
  constructor
  · intro j
    rw [← shift_next, ← shift_after, ofString, ← hc]
  · rw [ScriptLexer.scan, ← shift_scan, ← hc]

end Cursor

theorem Cursor.StandsIn.slice_rest {c : Cursor} {s : String} (h : c.StandsIn (Bytes.ofString s))
    (ht : Bytes.IsText c.unread) :
    Text.slice? s.toUTF8 c.pos s.toUTF8.size = some c.unread := by
  have hsize : (Bytes.ofString s).length = s.toUTF8.size := Text.length_bytes s.toUTF8
  have hle := h.pos_le
  have hfrom := Cursor.isBoundary_of_standsIn h ht
  have hlength : ((Bytes.ofString s).drop c.pos).length ≤ s.toUTF8.size - c.pos := by
    rw [List.length_drop]
    omega
  rw [Text.slice?, if_pos ⟨by omega, hfrom, Text.isBoundary_size _⟩, Text.slice_eq,
    Text.bytes_toUTF8, h.unread_eq, List.take_of_length_le hlength]

theorem scan_resumes_anywhere (s : String) (k : Nat) :
    ∃ rest : String,
      Text.slice? s.toUTF8 ((Cursor.ofString s).after k).pos s.toUTF8.size =
        some (Bytes.ofString rest) ∧
      ((Cursor.ofString s).after k).Resumes rest ∧
      scan (Bytes.ofString s) = Scan.ofSteps ((Cursor.ofString s).firstSteps k) ++
        (scan (Bytes.ofString rest)).shift ((Cursor.ofString s).after k).pos
          (((Cursor.ofString s).after k).line - 1) := by
  have hs := Cursor.standsIn_ofString s k
  have ht := Cursor.isText_ofString s k
  obtain ⟨rest, hr⟩ := ht.exists_ofString
  have hl : 0 < ((Cursor.ofString s).after k).line := by
    rw [hs.line_eq]
    omega
  have hresumes := Cursor.resumes_of_unread hl hr
  refine ⟨rest, by rw [hs.slice_rest ht, hr], hresumes, ?_⟩
  rw [← hresumes.scan_eq, ← Cursor.scan_eq_firstSteps]
  rfl

end ScriptLexer
