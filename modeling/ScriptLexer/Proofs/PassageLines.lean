import ScriptLexer.Proofs.LineBreaks
import ScriptLexer.Proofs.PassageReading

namespace ScriptLexer.Passage

namespace Piece

def startsFrom (pos : Nat) : List Piece → List Nat
  | [] => []
  | p :: ps => (if p.isBreak then [pos + p.last + 1] else []) ++ startsFrom (pos + p.last + 1) ps

def starts (ps : List Piece) : List Nat := 0 :: startsFrom 0 ps

def StandsAt (ps : List Piece) (pos line column : Nat) : Prop :=
  ∃ front back, ps = front ++ back ∧ size front = pos ∧ breaks front = line ∧
    columnFrom 0 front = column

variable {ps : List Piece} {p : Piece}

theorem startsFrom_concat (pos : Nat) (ps : List Piece) (p : Piece) :
    startsFrom pos (ps ++ [p]) =
      startsFrom pos ps ++ if p.isBreak then [pos + size ps + p.last + 1] else [] := by
  induction ps generalizing pos with
  | nil => exact List.append_nil _
  | cons b ps ih =>
    have hpos : pos + b.last + 1 + size ps = pos + size (b :: ps) := by
      rw [size_cons]
      omega
    rw [List.cons_append, startsFrom, ih, hpos, ← List.append_assoc, startsFrom]

theorem starts_break (ps : List Piece) (h : p.isBreak) :
    starts (ps ++ [p]) = starts ps ++ [size ps + p.last + 1] := by
  rw [starts, startsFrom_concat, if_pos h, Nat.zero_add]
  rfl

theorem starts_byte (ps : List Piece) (h : ¬ p.isBreak) : starts (ps ++ [p]) = starts ps := by
  rw [starts, startsFrom_concat, if_neg h, List.append_nil]
  rfl

theorem breaks_concat (ps : List Piece) (p : Piece) :
    breaks (ps ++ [p]) = breaks ps + if p.isBreak then 1 else 0 := by
  rw [breaks, List.countP_append, List.countP_singleton]
  rfl

theorem length_startsFrom (pos : Nat) (ps : List Piece) :
    (startsFrom pos ps).length = breaks ps := by
  induction ps generalizing pos with
  | nil => rfl
  | cons p ps ih =>
    rw [startsFrom, List.length_append, ih]
    by_cases h : p.isBreak
    · rw [if_pos h, breaks_break ps h]
      exact Nat.add_comm _ _
    · rw [if_neg h, breaks, breaks, List.countP_cons_of_neg h]
      exact Nat.zero_add _

theorem length_starts (ps : List Piece) : (starts ps).length = breaks ps + 1 := by
  rw [starts, List.length_cons, length_startsFrom]

theorem StandsAt.append {pos line column : Nat} (h : StandsAt ps pos line column)
    (qs : List Piece) : StandsAt (ps ++ qs) pos line column := by
  obtain ⟨front, back, rfl, hs⟩ := h
  exact ⟨front, back ++ qs, List.append_assoc _ _ _, hs⟩

theorem standsAt_all (ps : List Piece) : StandsAt ps (size ps) (breaks ps) (columnFrom 0 ps) :=
  ⟨ps, [], (List.append_nil ps).symm, rfl, rfl, rfl⟩

theorem getElem?_startsFrom {pos n x : Nat} (h : (startsFrom pos ps)[n]? = some x) :
    ∃ front back, ps = front ++ back ∧ x = pos + size front ∧ breaks front = n + 1 ∧
      ∀ column, columnFrom column front = 0 := by
  induction ps generalizing pos n with
  | nil => cases h
  | cons p ps ih =>
    rw [startsFrom] at h
    by_cases hb : p.isBreak
    · rw [if_pos hb] at h
      cases n with
      | zero =>
        obtain rfl := Option.some.inj h
        refine ⟨[p], ps, rfl, rfl, breaks_break [] hb, fun column => ?_⟩
        rw [columnFrom_cons, if_pos hb]
        rfl
      | succ n =>
        obtain ⟨front, back, rfl, rfl, hbreaks, hcolumn⟩ := ih h
        refine ⟨p :: front, back, rfl, ?_, ?_, fun column => hcolumn _⟩
        · rw [size_cons]
          omega
        · rw [breaks_break front hb, hbreaks]
    · rw [if_neg hb, List.nil_append] at h
      obtain ⟨front, back, rfl, rfl, hbreaks, hcolumn⟩ := ih h
      refine ⟨p :: front, back, rfl, ?_, ?_, fun column => hcolumn _⟩
      · rw [size_cons]
        omega
      · rw [← hbreaks]
        exact List.countP_cons_of_neg hb

theorem standsAt_starts {n x : Nat} (h : (starts ps)[n]? = some x) : StandsAt ps x n 0 := by
  cases n with
  | zero =>
    obtain rfl := Option.some.inj h
    exact ⟨[], ps, rfl, rfl, rfl, rfl⟩
  | succ n =>
    obtain ⟨front, back, rfl, rfl, hbreaks, hcolumn⟩ := getElem?_startsFrom h
    exact ⟨front, back, rfl, (Nat.zero_add _).symm, hbreaks, hcolumn 0⟩

theorem StandsAt.line_eq {bs : Bytes} {pos line column : Nat}
    (h : StandsAt (split bs) pos line column) :
    line = (bs.take pos).count Byte.lineFeed + Bytes.loneReturns (bs.take pos) ∧
      (Bytes.loneReturns (bs.take pos) = 0 → column = Bytes.columnFrom 0 (bs.take pos)) := by
  obtain ⟨front, back, hs, rfl, rfl, rfl⟩ := h
  have hfront := split_take hs
  constructor
  · rw [← breaks_split, hfront]
  · intro hz
    rw [← columnFrom_split hz, hfront]

end Piece

namespace Reader

/-- What the reader knows after some pieces that end before the stretch. -/
structure Follows (q : ReadRequest) (r : Reader) (ps : List Piece) : Prop where
  offset_eq : r.offset = Piece.size ps
  line_eq : r.line = Piece.breaks ps - q.before
  kept_eq : r.kept ++ [r.lineStart] = (Piece.starts ps).drop r.line
  column_eq : r.column = Piece.columnFrom 0 ps

variable {q : ReadRequest} {r : Reader} {ps : List Piece} {p : Piece}

theorem follows_initial (q : ReadRequest) : initial.Follows q [] :=
  ⟨rfl, (Nat.zero_sub _).symm, rfl, rfl⟩

theorem Follows.length_kept (h : r.Follows q ps) : r.kept.length = Piece.breaks ps - r.line := by
  have hlength := congrArg List.length h.kept_eq
  rw [List.length_append, List.length_drop, Piece.length_starts, List.length_singleton] at hlength
  have := h.line_eq
  omega

theorem Follows.keepLine (h : r.Follows q ps) (x : Nat) :
    (r.keepLine q).line = Piece.breaks ps + 1 - q.before ∧
      (r.keepLine q).kept ++ [x] = (Piece.starts ps ++ [x]).drop (r.keepLine q).line := by
  have hline := h.line_eq
  have hkept := h.length_kept
  have hstarts := Piece.length_starts ps
  rw [line_keepLine, kept_keepLine, h.kept_eq]
  by_cases hc : q.before < r.kept.length + 1
  · rw [if_pos hc, if_pos hc, List.tail_drop, List.drop_append_of_le_length (by omega)]
    exact ⟨by omega, rfl⟩
  · rw [if_neg hc, if_neg hc, List.drop_append_of_le_length (by omega)]
    exact ⟨by omega, rfl⟩

theorem Follows.step (h : r.Follows q ps) (hf : ¬ r.finished)
    (hp : r.offset + p.last < q.start) : (r.step q p).Follows q (ps ++ [p]) := by
  have hoffset : (r.step q p).offset = Piece.size (ps ++ [p]) := by
    rw [offset_step, if_neg hf, h.offset_eq, Piece.size_concat]
  by_cases hb : p.isBreak
  · obtain ⟨hkept, hline, hstart, hcolumn⟩ := step_break_before hf hb hp
    obtain ⟨hl, hk⟩ := h.keepLine (r.offset + p.last + 1)
    refine ⟨hoffset, ?_, ?_, ?_⟩
    · rw [hline, hl, Piece.breaks_concat, if_pos hb]
    · rw [hkept, hline, hstart, hk, h.offset_eq, Piece.starts_break ps hb]
    · rw [hcolumn, Piece.columnFrom, List.foldl_append, List.foldl_cons, List.foldl_nil, if_pos hb]
  · obtain ⟨hkept, hline, hstart, hcolumn⟩ := step_byte_before hf hb hp
    refine ⟨hoffset, ?_, ?_, ?_⟩
    · rw [hline, h.line_eq, Piece.breaks_concat, if_neg hb, Nat.add_zero]
    · rw [hkept, hline, hstart, h.kept_eq, Piece.starts_byte ps hb]
    · rw [hcolumn, h.column_eq, Piece.columnFrom, Piece.columnFrom, List.foldl_append,
        List.foldl_cons, List.foldl_nil, if_neg hb]

theorem Follows.foldl {done : List Piece} (h : r.Follows q done) (hb : r.Bounded q)
    (hs : Piece.size (done ++ ps) ≤ q.start) :
    (ps.foldl (Reader.step q) r).Follows q (done ++ ps) := by
  induction ps generalizing r done with
  | nil => rwa [List.append_nil]
  | cons p ps ih =>
    have hp : r.offset + p.last < q.start := by
      rw [Piece.size_append, Piece.size_cons] at hs
      have := h.offset_eq
      omega
    -- A reader that is done has gone past the start of the stretch.
    have hf : ¬ r.finished := by
      intro hf
      have := hb.reached hf
      rw [ReadRequest.reach] at this
      omega
    rw [List.append_cons] at hs ⊢
    exact ih (h.step hf hp) (hb.step p) hs

theorem foldl_behind (h : q.start ≤ r.offset) (ps : List Piece) :
    (ps.foldl (step q) r).kept = r.kept ∧ (ps.foldl (step q) r).line = r.line := by
  induction ps generalizing r with
  | nil => exact ⟨rfl, rfl⟩
  | cons p ps ih =>
    by_cases hf : r.finished
    · rw [List.foldl_cons, step_of_finished hf]
      exact ih h
    · have hoffset := offset_step q r p
      rw [if_neg hf] at hoffset
      obtain ⟨hkept, hline, -⟩ := step_behind hf (Nat.le_trans h (Nat.le_add_right _ p.last))
      rw [← hkept, ← hline]
      exact ih (by omega)

theorem covered_passBreak (q : ReadRequest) (pos : Nat) (r : Reader) :
    (r.passBreak q pos).covered = r.covered := by
  simp only [passBreak, keepLine, closeLine]
  split
  · split <;> rfl
  · split <;> rfl

theorem covered_passByte (q : ReadRequest) (pos : Nat) (r : Reader) :
    (r.passByte q pos).covered = r.covered := by
  simp only [passByte]
  split <;> rfl

theorem covered_step (ha : q.after = 0) (hc : r.covered → r.finished) :
    (r.step q p).covered → (r.step q p).finished := by
  by_cases hf : r.finished
  · rw [step_of_finished hf]
    exact hc
  · have hn : r.covered = false := by
      rw [← Bool.not_eq_true]
      exact fun h => hf (hc h)
    have hpass : (if p.isBreak then r.passBreak q (r.offset + p.last)
        else r.passByte q (r.offset + p.last)).covered = false := by
      split
      · rw [covered_passBreak, hn]
      · rw [covered_passByte, hn]
    simp [step, hf, ha, hpass]

theorem covered_foldl (ha : q.after = 0) (hc : r.covered → r.finished) (ps : List Piece) :
    (ps.foldl (step q) r).covered → (ps.foldl (step q) r).finished := by
  induction ps generalizing r with
  | nil => exact hc
  | cons p ps ih => exact ih (covered_step ha hc)

theorem column_foldl_behind (h : q.start ≤ r.offset) (ha : q.after = 0)
    (hc : r.covered → r.finished) (ps : List Piece) :
    (ps.foldl (step q) r).column = r.column := by
  induction ps generalizing r with
  | nil => rfl
  | cons p ps ih =>
    by_cases hf : r.finished
    · rw [List.foldl_cons, step_of_finished hf]
      exact ih h hc
    · have hoffset := offset_step q r p
      rw [if_neg hf] at hoffset
      obtain ⟨-, -, -, hcolumn⟩ := step_behind hf (Nat.le_trans h (Nat.le_add_right _ p.last))
      rw [← hcolumn (fun hr => hf (hc hr))]
      exact ih (by omega) (covered_step ha hc)

theorem Follows.standsAt (h : r.Follows q ps) (ho : r.offset = q.start) :
    Piece.StandsAt ps (r.passageStart q) r.line (if q.before = 0 then r.column else 0) := by
  have hkept := h.length_kept
  have hline := h.line_eq
  rw [passageStart]
  by_cases hz : q.before = 0
  · have hnil : r.kept = [] := List.eq_nil_of_length_eq_zero (by omega)
    have hbreaks : r.line = Piece.breaks ps := by omega
    rw [hnil, List.head?_nil, Option.getD_none, if_pos hz, if_pos hz, ← ho, h.offset_eq, hbreaks,
      h.column_eq]
    exact Piece.standsAt_all ps
  · rw [if_neg hz, if_neg hz]
    apply Piece.standsAt_starts
    have hhead := congrArg List.head? h.kept_eq
    rw [List.head?_drop] at hhead
    rw [← hhead]
    cases hk : r.kept with
    | nil =>
      -- Lines are wanted and none is kept, so none has ended yet.
      rw [hk, List.length_nil] at hkept
      have hzero : r.line = 0 := by omega
      rw [hzero, hk] at hhead
      exact hhead
    | cons k kept => rfl

end Reader

theorem read_standsAt {q : ReadRequest} {bs : Bytes} (h : q.start + q.length ≤ bs.length)
    (hs : (bs.drop q.start).head? ≠ some Byte.lineFeed) (ha : q.before = 0 → q.after = 0) :
    ∃ p, read q bs = .ok p ∧ p.Shows bs q ∧
      Piece.StandsAt (Piece.split bs) p.offset p.line p.column := by
  obtain ⟨p, hp, hshows, hoffset, -, hline, hcolumn⟩ := read_eq_ok h
  refine ⟨p, hp, hshows, ?_⟩
  -- The run up to the stretch settles where the passage stands; the rest of it only reads on.
  have hsplit := Piece.split_append (bs.take q.start) hs
  rw [List.take_append_drop] at hsplit
  have hsize : Piece.size (Piece.split (bs.take q.start)) = q.start := by
    rw [Piece.size_split, List.length_take]
    omega
  have hfollows := (Reader.follows_initial q).foldl (Reader.bounded_initial q) (Nat.le_of_eq hsize)
  rw [List.nil_append] at hfollows
  generalize hr : (Piece.split (bs.take q.start)).foldl (Reader.step q) Reader.initial = r
    at hfollows
  have ho : r.offset = q.start := hfollows.offset_eq.trans hsize
  have hrun : Reader.run q bs = (Piece.split (bs.drop q.start)).foldl (Reader.step q) r := by
    rw [Reader.run, hsplit, List.foldl_append, hr]
  obtain ⟨hkept, hl⟩ := Reader.foldl_behind (Nat.le_of_eq ho.symm) (Piece.split (bs.drop q.start))
  have hstands := (hfollows.standsAt ho).append (Piece.split (bs.drop q.start))
  rw [← hsplit] at hstands
  rw [← hrun] at hkept hl
  have hstart : p.offset = r.passageStart q := by
    rw [hoffset, Reader.passageStart, hkept, Reader.passageStart]
  rw [hstart, hline, hl, hcolumn]
  by_cases hz : q.before = 0
  · have hc : r.covered → r.finished := by
      rw [← hr]
      exact Reader.covered_foldl (ha hz) (fun h => h) _
    rw [if_pos hz, hrun, Reader.column_foldl_behind (Nat.le_of_eq ho.symm) (ha hz) hc]
    rwa [if_pos hz] at hstands
  · rwa [if_neg hz] at hstands ⊢

end ScriptLexer.Passage
