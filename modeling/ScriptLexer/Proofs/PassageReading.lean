import ScriptLexer.Report.Passage

namespace ScriptLexer.Passage

namespace Reader

section

variable {q : ReadRequest} {r : Reader} {p : Piece}

theorem kept_keepLine (q : ReadRequest) (r : Reader) :
    (r.keepLine q).kept =
      if q.before < r.kept.length + 1 then (r.kept ++ [r.lineStart]).tail
      else r.kept ++ [r.lineStart] := by
  simp only [keepLine, List.length_append, List.length_singleton]
  split <;> rfl

theorem line_keepLine (q : ReadRequest) (r : Reader) :
    (r.keepLine q).line = if q.before < r.kept.length + 1 then r.line + 1 else r.line := by
  simp only [keepLine, List.length_append, List.length_singleton]
  split <;> rfl

theorem passBreak_before {pos : Nat} (h : pos < q.start) :
    r.passBreak q pos =
      { r.keepLine q with column := 0, breaks := r.breaks + 1, lineStart := pos + 1 } := by
  simp only [passBreak, if_pos h, keepLine]
  split <;> rfl

theorem passBreak_behind {pos : Nat} (h : q.start ≤ pos) :
    (r.passBreak q pos).kept = r.kept ∧ (r.passBreak q pos).line = r.line ∧
      (r.passBreak q pos).lineStart = pos + 1 ∧
      (¬ r.covered → (r.passBreak q pos).column = r.column) := by
  simp only [passBreak, if_neg (Nat.not_lt.mpr h)]
  split
  · next hc => simp [closeLine, hc.2]
  · simp

theorem step_of_finished (h : r.finished) : r.step q p = r := by
  rw [step, if_pos h]

theorem finished_step (h : ¬ r.finished) (hs : (r.step q p).finished) :
    q.reach < (r.step q p).offset := by
  simp only [step, if_neg h, Bool.and_eq_true, decide_eq_true_eq] at hs ⊢
  omega

theorem step_break_before (h : ¬ r.finished) (hb : p.isBreak)
    (hp : r.offset + p.last < q.start) :
    (r.step q p).kept = (r.keepLine q).kept ∧ (r.step q p).line = (r.keepLine q).line ∧
      (r.step q p).lineStart = r.offset + p.last + 1 ∧ (r.step q p).column = 0 := by
  simp [step, h, hb, passBreak_before hp]

theorem step_byte_before (h : ¬ r.finished) (hb : ¬ p.isBreak)
    (hp : r.offset + p.last < q.start) :
    (r.step q p).kept = r.kept ∧ (r.step q p).line = r.line ∧
      (r.step q p).lineStart = r.lineStart ∧ (r.step q p).column = r.column + 1 := by
  simp [step, h, hb, passByte, hp]

theorem step_behind (h : ¬ r.finished) (hp : q.start ≤ r.offset + p.last) :
    (r.step q p).kept = r.kept ∧ (r.step q p).line = r.line ∧
      ((r.step q p).lineStart = r.lineStart ∨ (r.step q p).lineStart = r.offset + p.last + 1) ∧
      (¬ r.covered → (r.step q p).column = r.column) := by
  by_cases hb : p.isBreak
  · obtain ⟨hkept, hline, hstart, hcolumn⟩ := passBreak_behind (r := r) hp
    simp only [step, if_neg h, if_pos hb]
    exact ⟨hkept, hline, Or.inr hstart, hcolumn⟩
  · simp [step, h, hb, passByte, Nat.not_lt.mpr hp]

end

structure Bounded (q : ReadRequest) (r : Reader) : Prop where
  lineStart_le : r.lineStart ≤ r.offset
  kept_le : ∀ k ∈ r.kept, k ≤ q.start ∧ k ≤ r.offset
  kept_nil : q.before = 0 → r.kept = []
  reached : r.finished → q.reach < r.offset

variable {q : ReadRequest} {r : Reader}

theorem bounded_initial (q : ReadRequest) : initial.Bounded q :=
  ⟨Nat.le_refl _, fun _ hk => absurd hk List.not_mem_nil, fun _ => rfl, by simp [initial]⟩

theorem mem_keepLine {k : Nat} (hk : k ∈ (r.keepLine q).kept) :
    k ∈ r.kept ∨ k = r.lineStart := by
  have hm : k ∈ r.kept ++ [r.lineStart] := by
    rw [kept_keepLine] at hk
    split at hk
    · exact List.mem_of_mem_tail hk
    · exact hk
  simpa using hm

theorem Bounded.step (h : r.Bounded q) (p : Piece) : (r.step q p).Bounded q := by
  by_cases hf : r.finished
  · rwa [step_of_finished hf]
  have hoffset := offset_step q r p
  rw [if_neg hf] at hoffset
  have hlineStart := h.lineStart_le
  by_cases hp : r.offset + p.last < q.start
  · by_cases hb : p.isBreak
    · obtain ⟨hkept, -, hstart, -⟩ := step_break_before hf hb hp
      refine ⟨by omega, ?_, ?_, finished_step hf⟩
      · intro k hk
        rw [hkept] at hk
        rcases mem_keepLine hk with hk | rfl
        · have := h.kept_le k hk
          omega
        · omega
      · intro hz
        rw [hkept, kept_keepLine, h.kept_nil hz, if_pos (by rw [hz]; exact Nat.zero_lt_one)]
        rfl
    · obtain ⟨hkept, -, hstart, -⟩ := step_byte_before hf hb hp
      refine ⟨by omega, ?_, by rw [hkept]; exact h.kept_nil, finished_step hf⟩
      intro k hk
      have := h.kept_le k (hkept ▸ hk)
      omega
  · obtain ⟨hkept, -, hstart, -⟩ := step_behind hf (Nat.not_lt.mp hp)
    refine ⟨by omega, ?_, by rw [hkept]; exact h.kept_nil, finished_step hf⟩
    intro k hk
    have := h.kept_le k (hkept ▸ hk)
    omega

theorem Bounded.foldl (h : r.Bounded q) (ps : List Piece) :
    (ps.foldl (Reader.step q) r).Bounded q := by
  induction ps generalizing r with
  | nil => exact h
  | cons p ps ih => exact ih (h.step p)

theorem bounded_run (q : ReadRequest) (bs : Bytes) : (run q bs).Bounded q :=
  (bounded_initial q).foldl _

theorem foldl_of_finished (h : r.finished) (ps : List Piece) : ps.foldl (step q) r = r := by
  induction ps with
  | nil => rfl
  | cons p ps ih => rw [List.foldl_cons, step_of_finished h, ih]

theorem offset_foldl (ps : List Piece) (h : ¬ (ps.foldl (step q) r).finished) :
    (ps.foldl (step q) r).offset = r.offset + ps.foldr (fun p n => p.last + 1 + n) 0 := by
  induction ps generalizing r with
  | nil => rfl
  | cons p ps ih =>
    have hf : ¬ r.finished := by
      intro hr
      exact h (by rwa [foldl_of_finished hr])
    rw [List.foldl_cons] at h ⊢
    rw [ih h, offset_step, if_neg hf, List.foldr_cons]
    omega

theorem finished_or_offset_run (q : ReadRequest) (bs : Bytes) :
    (run q bs).finished ∨ (run q bs).offset = bs.length := by
  by_cases h : (run q bs).finished
  · exact Or.inl h
  · right
    rw [run, offset_foldl _ h, Piece.sum_split]
    exact Nat.zero_add _

theorem passageStart_le (h : r.Bounded q) (ho : q.start ≤ r.offset) :
    r.passageStart q ≤ q.start ∧ r.passageStart q ≤ r.offset := by
  rw [passageStart]
  cases hk : r.kept with
  | nil =>
    rw [List.head?_nil, Option.getD_none]
    split <;> omega
  | cons k kept => exact h.kept_le k (by rw [hk]; exact List.mem_cons_self)

end Reader

def stop (p : Passage) : Nat := p.offset + p.bytes.length

structure Shows (p : Passage) (bs : Bytes) (q : ReadRequest) : Prop where
  offset_le : p.offset ≤ q.start
  offset_eq : q.before = 0 → p.offset = q.start
  le_stop : q.start + q.length ≤ p.stop
  stop_le : p.stop ≤ bs.length
  bytes_eq : p.bytes = (bs.drop p.offset).take p.bytes.length

theorem read_eq_ok {q : ReadRequest} {bs : Bytes} (h : q.start + q.length ≤ bs.length) :
    ∃ p, read q bs = .ok p ∧ p.Shows bs q ∧ p.offset = (Reader.run q bs).passageStart q ∧
      p.stop = (Reader.run q bs).offset ∧ p.line = (Reader.run q bs).line ∧
      p.column = if q.before = 0 then (Reader.run q bs).column else 0 := by
  have hb := Reader.bounded_run q bs
  have hle := Reader.offset_run_le q bs
  have hreach : q.start + q.length ≤ (Reader.run q bs).offset := by
    rcases Reader.finished_or_offset_run q bs with hf | he
    · have := hb.reached hf
      rw [ReadRequest.reach] at this
      omega
    · omega
  obtain ⟨hstart, hstop⟩ := Reader.passageStart_le hb (by omega)
  have hnot : ¬ (Reader.run q bs).offset < q.reach := by
    rw [ReadRequest.reach]
    omega
  rw [read, if_neg hnot, if_neg (Nat.not_lt.mpr hstop)]
  have hlength : ((bs.drop ((Reader.run q bs).passageStart q)).take
      ((Reader.run q bs).offset - (Reader.run q bs).passageStart q)).length =
      (Reader.run q bs).offset - (Reader.run q bs).passageStart q := by
    rw [List.length_take, List.length_drop]
    omega
  have hend : (Reader.run q bs).passageStart q +
      ((Reader.run q bs).offset - (Reader.run q bs).passageStart q) = (Reader.run q bs).offset :=
    Nat.add_sub_cancel' hstop
  refine ⟨_, rfl, ⟨hstart, fun hz => ?_, ?_, ?_, ?_⟩, rfl, ?_, rfl, rfl⟩
  · dsimp only
    rw [Reader.passageStart, hb.kept_nil hz, List.head?_nil, Option.getD_none, if_pos hz]
  · rwa [stop, hlength, hend]
  · rwa [stop, hlength, hend]
  · rw [hlength]
  · rw [stop, hlength, hend]

end ScriptLexer.Passage
