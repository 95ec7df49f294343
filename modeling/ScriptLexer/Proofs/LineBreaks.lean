import ScriptLexer.Proofs.LineLocations
import ScriptLexer.Report.Passage

namespace ScriptLexer

namespace Bytes

/-- How many carriage returns are there that no line feed follows. -/
def loneReturns : Bytes → Nat
  | [] => 0
  | b :: bs =>
    (if b = Byte.carriageReturn ∧ bs.head? ≠ some Byte.lineFeed then 1 else 0) + loneReturns bs

theorem loneReturns_lone {bs : Bytes} (h : bs.head? ≠ some Byte.lineFeed) :
    loneReturns (Byte.carriageReturn :: bs) = loneReturns bs + 1 := by
  rw [loneReturns, if_pos ⟨rfl, h⟩, Nat.add_comm]

theorem loneReturns_of_ne {b : UInt8} (bs : Bytes) (h : b ≠ Byte.carriageReturn) :
    loneReturns (b :: bs) = loneReturns bs := by
  rw [loneReturns, if_neg (fun hc => h hc.1), Nat.zero_add]

theorem loneReturns_pair (bs : Bytes) :
    loneReturns (Byte.carriageReturn :: Byte.lineFeed :: bs) = loneReturns bs := by
  rw [loneReturns, if_neg (fun hc => hc.2 rfl), Nat.zero_add, loneReturns_of_ne bs (by decide)]

end Bytes

namespace Passage.Piece

def size (ps : List Piece) : Nat := ps.foldr (fun p n => p.last + 1 + n) 0

def breaks (ps : List Piece) : Nat := ps.countP (·.isBreak)

def columnFrom (column : Nat) (ps : List Piece) : Nat :=
  ps.foldl (fun n p => if p.isBreak then 0 else n + 1) column

theorem size_cons (p : Piece) (ps : List Piece) : size (p :: ps) = p.last + 1 + size ps := rfl

theorem size_long (ps : List Piece) : size (.longBreak :: ps) = size ps + 1 + 1 :=
  Nat.add_comm _ _

theorem size_single {p : Piece} (ps : List Piece) (h : p.last = 0) :
    size (p :: ps) = size ps + 1 := by
  rw [size_cons, h, Nat.add_comm]

theorem size_append (ps qs : List Piece) : size (ps ++ qs) = size ps + size qs := by
  induction ps with
  | nil => exact (Nat.zero_add _).symm
  | cons p ps ih =>
    rw [List.cons_append, size_cons, ih, size_cons]
    omega

theorem size_concat (ps : List Piece) (p : Piece) : size (ps ++ [p]) = size ps + p.last + 1 :=
  size_append ps [p]

theorem size_split (bs : Bytes) : size (split bs) = bs.length := sum_split bs

theorem split_cases {P : Bytes → List Piece → Prop} (nil : P [] [])
    (long : ∀ rest, P rest (split rest) →
      P (Byte.carriageReturn :: Byte.lineFeed :: rest) (.longBreak :: split rest))
    (short : ∀ b rest, b = Byte.carriageReturn ∨ b = Byte.lineFeed →
      (b = Byte.carriageReturn → rest.head? ≠ some Byte.lineFeed) →
      P rest (split rest) → P (b :: rest) (.shortBreak :: split rest))
    (byte : ∀ b rest, b ≠ Byte.carriageReturn → b ≠ Byte.lineFeed →
      P rest (split rest) → P (b :: rest) (.byte :: split rest))
    (bs : Bytes) : P bs (split bs) := by
  fun_induction split bs with
  | case1 => exact nil
  | case2 b =>
    split
    · next hb => exact short b [] hb (by simp) nil
    · next hb => exact byte b [] (fun he => hb (Or.inl he)) (fun he => hb (Or.inr he)) nil
  | case3 b c rest h ih =>
    obtain ⟨rfl, rfl⟩ := h
    exact long rest ih
  | case4 b c rest h hb ih =>
    refine short b (c :: rest) hb ?_ ih
    intro hr hc
    exact h ⟨hr, Option.some.inj hc⟩
  | case5 b c rest h hb ih =>
    exact byte b (c :: rest) (fun he => hb (Or.inl he)) (fun he => hb (Or.inr he)) ih

theorem split_long (rest : Bytes) :
    split (Byte.carriageReturn :: Byte.lineFeed :: rest) = .longBreak :: split rest := by
  rw [split, if_pos ⟨rfl, rfl⟩]

theorem split_short {b : UInt8} {rest : Bytes} (hb : b = Byte.carriageReturn ∨ b = Byte.lineFeed)
    (h : b = Byte.carriageReturn → rest.head? ≠ some Byte.lineFeed) :
    split (b :: rest) = .shortBreak :: split rest := by
  cases rest with
  | nil => simp only [split, if_pos hb]
  | cons c rest =>
    have hn : ¬ (b = Byte.carriageReturn ∧ c = Byte.lineFeed) :=
      fun hc => h hc.1 (congrArg some hc.2)
    rw [split, if_neg hn, if_pos hb]

theorem split_byte {b : UInt8} (rest : Bytes) (hr : b ≠ Byte.carriageReturn)
    (hl : b ≠ Byte.lineFeed) : split (b :: rest) = .byte :: split rest := by
  have hb : ¬ (b = Byte.carriageReturn ∨ b = Byte.lineFeed) := fun hc => hc.elim hr hl
  cases rest with
  | nil => simp only [split, if_neg hb]
  | cons c rest => rw [split, if_neg (fun hc => hr hc.1), if_neg hb]

theorem split_append (u : Bytes) {v : Bytes} (h : v.head? ≠ some Byte.lineFeed) :
    split (u ++ v) = split u ++ split v := by
  induction u using split_cases with
  | nil => rfl
  | long rest ih =>
    rw [List.cons_append, List.cons_append, split_long, ih, List.cons_append]
  | short b rest hb hr ih =>
    -- A return at the very end of the first part is the one that looks at the second.
    have hr' : b = Byte.carriageReturn → (rest ++ v).head? ≠ some Byte.lineFeed := by
      intro he
      cases rest with
      | nil => exact h
      | cons c rest => exact hr he
    rw [List.cons_append, split_short hb hr', ih, List.cons_append]
  | byte b rest hr hl ih =>
    rw [List.cons_append, split_byte _ hr hl, ih, List.cons_append]

theorem split_take {bs : Bytes} {front back : List Piece} (h : split bs = front ++ back) :
    split (bs.take (size front)) = front := by
  induction bs using split_cases generalizing front with
  | nil =>
    obtain ⟨rfl, -⟩ := List.append_eq_nil_iff.mp h.symm
    rfl
  | long rest ih =>
    rcases front with _ | ⟨p, front⟩
    · rfl
    obtain ⟨rfl, hs⟩ := List.cons.inj h
    rw [size_long, List.take_succ_cons, List.take_succ_cons, split_long, ih hs]
  | short b rest hb hr ih =>
    rcases front with _ | ⟨p, front⟩
    · rfl
    obtain ⟨rfl, hs⟩ := List.cons.inj h
    have hr' : b = Byte.carriageReturn →
        (rest.take (size front)).head? ≠ some Byte.lineFeed := by
      intro he
      rw [List.head?_take]
      split
      · simp
      · exact hr he
    rw [size_single front rfl, List.take_succ_cons, split_short hb hr', ih hs]
  | byte b rest hr hl ih =>
    rcases front with _ | ⟨p, front⟩
    · rfl
    obtain ⟨rfl, hs⟩ := List.cons.inj h
    rw [size_single front rfl, List.take_succ_cons, split_byte _ hr hl, ih hs]

theorem breaks_break {p : Piece} (ps : List Piece) (h : p.isBreak) :
    breaks (p :: ps) = breaks ps + 1 := List.countP_cons_of_pos h

theorem breaks_byte (ps : List Piece) : breaks (.byte :: ps) = breaks ps :=
  List.countP_cons_of_neg (by decide)

theorem breaks_split (bs : Bytes) :
    breaks (split bs) = bs.count Byte.lineFeed + bs.loneReturns := by
  induction bs using split_cases with
  | nil => rfl
  | long rest ih =>
    rw [breaks_break _ rfl, ih, List.count_cons_of_ne (by decide), List.count_cons_self,
      Bytes.loneReturns_pair]
    omega
  | short b rest hb hr ih =>
    rw [breaks_break _ rfl, ih]
    rcases hb with rfl | rfl
    · rw [List.count_cons_of_ne (by decide), Bytes.loneReturns_lone (hr rfl)]
      omega
    · rw [List.count_cons_self, Bytes.loneReturns_of_ne _ (by decide)]
      omega
  | byte b rest hr hl ih =>
    rw [breaks_byte, ih, List.count_cons_of_ne hl, Bytes.loneReturns_of_ne _ hr]

theorem columnFrom_cons (column : Nat) (p : Piece) (ps : List Piece) :
    columnFrom column (p :: ps) = columnFrom (if p.isBreak then 0 else column + 1) ps := rfl

theorem columnFrom_split {bs : Bytes} (h : bs.loneReturns = 0) (column : Nat) :
    columnFrom column (split bs) = Bytes.columnFrom column bs := by
  induction bs using split_cases generalizing column with
  | nil => rfl
  | long rest ih =>
    rw [Bytes.loneReturns_pair] at h
    rw [columnFrom_cons, ih h, Bytes.columnFrom_cons, Bytes.columnFrom_cons]
    rfl
  | short b rest hb hr ih =>
    rcases hb with rfl | rfl
    · rw [Bytes.loneReturns_lone (hr rfl)] at h
      omega
    · rw [Bytes.loneReturns_of_ne _ (by decide)] at h
      rw [columnFrom_cons, ih h, Bytes.columnFrom_cons]
      rfl
  | byte b rest hr hl ih =>
    rw [Bytes.loneReturns_of_ne _ hr] at h
    rw [columnFrom_cons, ih h, Bytes.columnFrom_cons, if_neg hl]
    rfl

end Passage.Piece

end ScriptLexer
