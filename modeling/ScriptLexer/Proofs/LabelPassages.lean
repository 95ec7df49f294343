import ScriptLexer.Proofs.PassageLines
import ScriptLexer.Proofs.WindowPassages

namespace ScriptLexer

def Bytes.AfterAscii (bs : Bytes) (pos : Nat) : Prop :=
  pos = 0 ∨ ∃ i b, pos = i + 1 ∧ bs[i]? = some b ∧ b < 0x80

/-- A renderer can show the label: with any lines around it, it gets whole characters. -/
def Window.Readable (w : Window) (label : Span) : Prop :=
  ∀ before after, ∃ p, w.read label before after = .ok p ∧ p.offset ≤ label.start ∧
    label.stop ≤ p.stop ∧ Bytes.IsText p.bytes

namespace Passage

theorem Piece.split_cons {bs : Bytes} {p : Piece} {ps : List Piece} (h : split bs = p :: ps) :
    ps = split (bs.drop (p.last + 1)) ∧ (p.isBreak → ∃ b, bs[p.last]? = some b ∧ b < 0x80) := by
  induction bs using split_cases with
  | nil => cases h
  | long rest _ =>
    obtain ⟨rfl, rfl⟩ := List.cons.inj h
    exact ⟨rfl, fun _ => ⟨Byte.lineFeed, rfl, by decide⟩⟩
  | short b rest hb _ _ =>
    obtain ⟨rfl, rfl⟩ := List.cons.inj h
    refine ⟨rfl, fun _ => ⟨b, rfl, ?_⟩⟩
    rcases hb with rfl | rfl <;> decide
  | byte b rest _ _ _ =>
    obtain ⟨rfl, rfl⟩ := List.cons.inj h
    exact ⟨rfl, fun hp => nomatch hp⟩

theorem Piece.ascii_of_isBreak {bs : Bytes} {front back : List Piece} {p : Piece}
    (h : split bs = front ++ p :: back) (hp : p.isBreak) :
    ∃ b, bs[size front + p.last]? = some b ∧ b < 0x80 := by
  induction front generalizing bs with
  | nil =>
    obtain ⟨b, hget, hb⟩ := (split_cons h).2 hp
    have hsize : size [] + p.last = p.last := Nat.zero_add _
    exact ⟨b, by rwa [hsize], hb⟩
  | cons x front ih =>
    obtain ⟨b, hget, hb⟩ := ih (split_cons h).1.symm
    rw [List.getElem?_drop, ← Nat.add_assoc, ← size_cons] at hget
    exact ⟨b, hget, hb⟩

namespace Reader

structure Cuts (r : Reader) (bs : Bytes) (q : ReadRequest) : Prop where
  lineStart : bs.AfterAscii r.lineStart
  kept : ∀ k ∈ r.kept, bs.AfterAscii k
  unfinished : ¬ r.finished → q.after ≤ r.trailing → r.offset ≤ q.reach
  finished : r.finished → bs.AfterAscii r.offset ∨ r.offset = q.reach + 1

variable {q : ReadRequest} {r : Reader} {bs : Bytes} {p : Piece}

theorem cuts_initial (bs : Bytes) (q : ReadRequest) : initial.Cuts bs q :=
  ⟨Or.inl rfl, fun _ hk => absurd hk List.not_mem_nil, fun _ _ => Nat.zero_le _, by simp [initial]⟩

theorem lineStart_step (h : ¬ r.finished) :
    (r.step q p).lineStart = if p.isBreak then r.offset + p.last + 1 else r.lineStart := by
  simp only [step, if_neg h]
  split
  · rfl
  · rw [passByte]
    split <;> rfl

theorem kept_step (h : ¬ r.finished) {k : Nat} (hk : k ∈ (r.step q p).kept) :
    k ∈ r.kept ∨ k = r.lineStart := by
  by_cases hp : r.offset + p.last < q.start
  · by_cases hb : p.isBreak
    · rw [(step_break_before h hb hp).1] at hk
      exact mem_keepLine hk
    · exact Or.inl ((step_byte_before h hb hp).1 ▸ hk)
  · exact Or.inl ((step_behind h (Nat.not_lt.mp hp)).1 ▸ hk)

theorem trailing_byte (h : ¬ r.finished) (hb : ¬ p.isBreak) :
    (r.step q p).trailing = r.trailing := by
  simp only [step, if_neg h, if_neg hb, passByte]
  split <;> rfl

theorem finished_step_iff (h : ¬ r.finished) :
    (r.step q p).finished ↔ q.reach ≤ r.offset + p.last ∧ q.after ≤ (r.step q p).trailing := by
  simp only [step, if_neg h, Bool.and_eq_true, decide_eq_true_eq]

theorem Cuts.step (h : r.Cuts bs q) (hf : ¬ r.finished)
    (hp : p.isBreak → bs.AfterAscii (r.offset + p.last + 1)) : (r.step q p).Cuts bs q := by
  have hoffset : (r.step q p).offset = r.offset + p.last + 1 := by
    rw [offset_step, if_neg hf]
  constructor
  · rw [lineStart_step hf]
    split
    · next hb => exact hp hb
    · exact h.lineStart
  · intro k hk
    rcases kept_step hf hk with hk | rfl
    · exact h.kept k hk
    · exact h.lineStart
  · intro hn ha
    rw [finished_step_iff hf] at hn
    omega
  · intro hn
    obtain ⟨hreach, hafter⟩ := (finished_step_iff hf).mp hn
    rw [hoffset]
    by_cases hb : p.isBreak
    · exact Or.inl (hp hb)
    · -- Enough lines were there before, so this byte is the one that meets the request.
      rw [trailing_byte hf hb] at hafter
      have hle := h.unfinished hf hafter
      have hlast : p.last = 0 := by
        cases p with
        | byte => rfl
        | _ => exact absurd rfl hb
      right
      omega

theorem Cuts.foldl {front ps : List Piece} (h : r.Cuts bs q) (hs : Piece.split bs = front ++ ps)
    (ho : ¬ r.finished → r.offset = Piece.size front) : (ps.foldl (Reader.step q) r).Cuts bs q := by
  induction ps generalizing front r with
  | nil => exact h
  | cons p ps ih =>
    by_cases hf : r.finished
    · rwa [foldl_of_finished hf]
    · have hbreak : p.isBreak → bs.AfterAscii (r.offset + p.last + 1) := by
        intro hp
        obtain ⟨b, hget, hb⟩ := Piece.ascii_of_isBreak hs hp
        exact Or.inr ⟨r.offset + p.last, b, rfl, ho hf ▸ hget, hb⟩
      have hsplit : Piece.split bs = front ++ [p] ++ ps := by
        rw [hs, List.append_assoc, List.singleton_append]
      refine ih (h.step hf hbreak) hsplit fun _ => ?_
      rw [offset_step, if_neg hf, Piece.size_concat, ho hf]

theorem cuts_run (q : ReadRequest) (bs : Bytes) : (run q bs).Cuts bs q :=
  (cuts_initial bs q).foldl (List.nil_append _).symm fun _ => rfl

theorem passageStart_cases (h : r.Cuts bs q) :
    bs.AfterAscii (r.passageStart q) ∨ r.passageStart q = q.start := by
  rw [passageStart]
  cases hk : r.kept with
  | nil =>
    rw [List.head?_nil, Option.getD_none]
    split
    · exact Or.inr rfl
    · exact Or.inl (Or.inl rfl)
  | cons k kept => exact Or.inl (h.kept k (by rw [hk]; exact List.mem_cons_self))

end Reader

theorem read_cut {q : ReadRequest} {bs : Bytes} (h : q.start + q.length ≤ bs.length)
    (hq : 0 < q.length) :
    ∃ p, read q bs = .ok p ∧ p.Shows bs q ∧
      (bs.AfterAscii p.offset ∨ p.offset = q.start) ∧
      (bs.AfterAscii p.stop ∨ p.stop = q.start + q.length ∨ p.stop = bs.length) := by
  obtain ⟨p, hp, hshows, hstart, hstop, -⟩ := read_eq_ok h
  have hcuts := Reader.cuts_run q bs
  refine ⟨p, hp, hshows, hstart ▸ Reader.passageStart_cases hcuts, ?_⟩
  rw [hstop]
  rcases Reader.finished_or_offset_run q bs with hf | hend
  · rcases hcuts.finished hf with hascii | hreach
    · exact Or.inl hascii
    · rw [hreach, ReadRequest.reach]
      exact Or.inr (Or.inl (by omega))
  · exact Or.inr (Or.inr hend)

end Passage

namespace Text

theorem isText_slice {s : String} {a b : Nat} (ha : isBoundary s.toUTF8 a)
    (hb : isBoundary s.toUTF8 b) (h : a ≤ b) : Bytes.IsText (slice s.toUTF8 a b) := by
  have hdrop {pos : Nat} (hp : isBoundary s.toUTF8 pos) :
      Bytes.IsText ((bytes s.toUTF8).drop pos) := by
    obtain ⟨before, behind, hs, rfl⟩ := (isBoundary_iff pos).mp hp
    refine ⟨behind, ?_⟩
    rw [bytes_cut hs, List.drop_left]
  have hcut : slice s.toUTF8 a b ++ (bytes s.toUTF8).drop b = (bytes s.toUTF8).drop a := by
    rw [slice_eq, ← Nat.add_sub_cancel' h, ← List.drop_drop, Nat.add_sub_cancel' h,
      List.take_append_drop]
  exact Bytes.IsText.front (hcut ▸ hdrop ha) (hdrop hb)

end Text

namespace Window

variable {name s : String} {label : Span} {w : Window}

theorem isBoundary_of_afterAscii (hc : w.CutFrom s.toUTF8) (ho : Text.isBoundary s.toUTF8 w.offset)
    {pos : Nat} (h : w.contents.AfterAscii pos) : Text.isBoundary s.toUTF8 (pos + w.offset) := by
  rcases h with rfl | ⟨i, b, rfl, hget, hb⟩
  · rwa [Nat.zero_add]
  · have hlt := (List.getElem?_eq_some_iff.mp hget).1
    rw [hc.contents_eq] at hget hlt
    rw [Text.getElem?_slice hlt] at hget
    rw [Nat.add_comm, ← Nat.add_assoc]
    exact Text.isBoundary_after_ascii hget hb

theorem readable_label (h : around? name s.toUTF8 (LineIndex.ofText s.toUTF8) label = some w)
    (hstart : Text.isBoundary s.toUTF8 label.start) (hpos : 0 < label.length) :
    w.Readable label := by
  have hc := cutFrom_around? h
  have hs := holds_label h
  obtain ⟨stop, hstop, hcontents, -⟩ := around?_cases h
  obtain ⟨-, hoffset, hend, -⟩ := Text.slice?_cases hcontents
  rw [← stop_eq hcontents] at hend
  obtain ⟨_, hslice, -⟩ := Option.map_eq_some_iff.mp hstop
  have hlabel := (Text.slice?_cases hslice).2.1
  have hfrom : label.start - w.offset + w.offset = label.start := Nat.sub_add_cancel hs.1
  intro before after
  obtain ⟨p, hp, hshows, hstarts, hstops⟩ := Passage.read_cut (hs.request_le before after) hpos
  have hplaced := showsFrom_place hc hs hshows
  refine ⟨w.place p, read_of_ok hp, hplaced.offset_le, hplaced.le_stop, ?_⟩
  rw [hplaced.bytes_eq]
  apply Text.isText_slice
  · rcases hstarts with hascii | he
    · exact isBoundary_of_afterAscii hc hoffset hascii
    · have hplace : (w.place p).offset = label.start := by
        rw [place, he, request, hfrom]
      rwa [hplace]
  · rw [stop_place]
    rcases hstops with hascii | he | he
    · exact isBoundary_of_afterAscii hc hoffset hascii
    · have hplace : p.stop + w.offset = label.stop := by
        rw [he, request, Nat.add_right_comm, hfrom, Span.stop]
      rwa [hplace]
    · have hplace : p.stop + w.offset = w.stop := by
        rw [he, Nat.add_comm, Window.stop]
      rwa [hplace]
  · exact Nat.le_add_right _ _

end Window

end ScriptLexer
