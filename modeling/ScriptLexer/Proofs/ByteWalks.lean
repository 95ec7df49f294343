import ScriptLexer.Proofs.GuardedReading

namespace ScriptLexer.Guarded

def walk (word : Bytes) : Bytes → Place → Bool × Place
  | [], p => (false, p)
  | b :: rest, p =>
    if word.isPrefixOf (b :: rest) then (true, p)
    else walk word rest ⟨p.pos + 1, if b = Byte.lineFeed then p.line + 1 else p.line⟩

def occurrences (text : Text) (word : Bytes) (start : Nat) : Set Nat :=
  {i | start ≤ i ∧ word <+: text.bytes.drop i}

/-- Where a search for the word from `p` on has to end: at the first occurrence, or at the end of a
text that has none. Its line counts the line feeds between. -/
inductive Reaches (text : Text) (word : Bytes) (p : Place) : Bool × Place → Prop
  | found {pos : Nat} (first : IsLeast (occurrences text word p.pos) pos) :
      Reaches text word p (true, ⟨pos, p.line + (text.slice p.pos pos).count Byte.lineFeed⟩)
  | missing (absent : occurrences text word p.pos = ∅) :
      Reaches text word p
        (false, ⟨text.size, p.line + (text.slice p.pos text.size).count Byte.lineFeed⟩)

def anywhere : Nat → Bool := fun _ => true

def Place.cursor (text : Text) (p : Place) : Cursor := ⟨text.bytes.drop p.pos, p.pos, p.line⟩

structure Answers (text : Text) (word : Bytes) (p : Place) (r : Bool × Place) : Prop where
  eq_walk : r = walk word (text.bytes.drop p.pos) p
  reaches : Reaches text word p r
  cursor_eq : ((p.cursor text).advance (r.2.pos - p.pos)).place = r.2
  line_lt : r.2.line < UInt32.size

def SkipsTo (text : Text) (d : UInt8) (p : Place) : Prop :=
  ∃ r, Answers text [d] p r ∧ skipTo? anywhere text d p = some r ∧
    Rule.through? d (text.bytes.drop p.pos) = if r.1 then some (r.2.pos + 1 - p.pos) else none

def LeavesComment (text : Text) (p : Place) (r : Bool × Place) : Prop :=
  if r.1 then
    ahead? text p = some (.trivia ⟨r.2.pos + 2, r.2.line⟩) ∧
      next? text p = next? text ⟨r.2.pos + 2, r.2.line⟩
  else
    next? text p = some ⟨⟨.unidentified, text.slice p.pos text.size,
        Span.ofBounds p.pos text.size, p.line⟩,
      some ⟨.unterminatedComment, r.2.line, some (Span.ofBounds p.pos text.size)⟩, r.2⟩

def SkipsBlockComment (text : Text) (p : Place) : Prop :=
  ∃ r, Answers text [Byte.star, Byte.slash] ⟨p.pos + 2, p.line⟩ r ∧ LeavesComment text p r ∧
    Rule.throughPair? Byte.star Byte.slash (text.bytes.drop (p.pos + 2)) =
      if r.1 then some (r.2.pos + 2 - (p.pos + 2)) else none

def SkipsLineComment (text : Text) (p : Place) : Prop :=
  ∃ r, Answers text [Byte.lineFeed] ⟨p.pos + 2, p.line⟩ r ∧
    lineComment? anywhere text ⟨p.pos + 2, p.line⟩ = some r.2 ∧ r.2.line = p.line ∧
    Rule.run (· != Byte.lineFeed) (text.bytes.drop (p.pos + 2)) = r.2.pos - (p.pos + 2)

variable {ok : Nat → Bool} {stop : UInt8 → Prop} {text : Text} {word bs : Bytes} {c : Cursor}
  {p : Place} {d : UInt8} {n : Nat}

theorem walk_of_occurs (h : word <+: bs) (hw : word ≠ []) (p : Place) :
    walk word bs p = (true, p) := by
  cases bs with
  | nil => exact absurd (List.prefix_nil.mp h) hw
  | cons b bs => rw [walk, if_pos (List.isPrefixOf_iff_prefix.mpr h)]

theorem walk_step {b : UInt8} {rest : Bytes} (hu : c.unread = b :: rest)
    (h : ¬ word <+: b :: rest) :
    walk word c.unread c.place = walk word (c.advance 1).unread (c.advance 1).place := by
  have hplace : (c.advance 1).place =
      ⟨c.pos + 1, if b = Byte.lineFeed then c.line + 1 else c.line⟩ := by
    split
    · next hb => exact place_behind_lineFeed (w := []) (hb ▸ hu) List.not_mem_nil
    · next hb => exact place_one hu hb
  rw [hplace, hu, walk, if_neg (fun hp => h (List.isPrefixOf_iff_prefix.mp hp)), Cursor.advance, hu]
  rfl

theorem walk_cases (hw : word ≠ []) (c : Cursor) :
    (∃ n, IsLeast {i | word <+: c.unread.drop i} n ∧
      walk word c.unread c.place = (true, (c.advance n).place)) ∨
    ((∀ i, ¬ word <+: c.unread.drop i) ∧
      walk word c.unread c.place = (false, (c.advance c.unread.length).place)) := by
  induction hu : c.unread generalizing c with
  | nil =>
    right
    constructor
    · intro i hi
      rw [List.drop_nil] at hi
      exact hw (List.prefix_nil.mp hi)
    · rw [walk, List.length_nil, Cursor.advance_zero]
  | cons b rest ih =>
    by_cases h : word <+: b :: rest
    · left
      refine ⟨0, ⟨h, fun _ _ => Nat.zero_le _⟩, ?_⟩
      rw [walk_of_occurs h hw, Cursor.advance_zero]
    · have hrest : (c.advance 1).unread = rest := by
        rw [Cursor.advance, hu]
        rfl
      have hstep := walk_step hu h
      rw [hu, hrest] at hstep
      rw [hstep]
      rcases ih (c.advance 1) hrest with ⟨n, ⟨hn, hleast⟩, heq⟩ | ⟨hnone, heq⟩
      · left
        refine ⟨n + 1, ⟨hn, ?_⟩, ?_⟩
        · rintro (_ | i) hi
          · exact absurd hi h
          · exact Nat.succ_le_succ (hleast hi)
        · rw [heq, Cursor.advance_advance, Nat.add_comm]
      · right
        constructor
        · rintro (_ | i) hi
          · exact h hi
          · exact hnone i hi
        · rw [heq, Cursor.advance_advance, List.length_cons, Nat.add_comm]

theorem not_infix_of_nowhere (hnone : ∀ i, ¬ word <+: bs.drop i) : ¬ word <:+: bs := by
  rintro ⟨front, rest, rfl⟩
  apply hnone front.length
  rw [List.append_assoc, List.drop_left]
  exact List.prefix_append _ _

theorem notMem_of_singleton (h : ¬ [d] <:+: bs) : d ∉ bs :=
  mt (List.singleton_infix_iff d bs).mpr h

theorem notMem_of_nowhere (hnone : ∀ i, ¬ [d] <+: bs.drop i) : d ∉ bs :=
  notMem_of_singleton (not_infix_of_nowhere hnone)

theorem cut_of_isLeast (hw : word ≠ []) (h : IsLeast {i | word <+: bs.drop i} n) :
    ∃ body rest, bs = body ++ (word ++ rest) ∧ body.length = n ∧ ¬ word <:+: body := by
  obtain ⟨⟨rest, hrest⟩, hleast⟩ := h
  have hpos : 0 < word.length := List.length_pos_of_ne_nil hw
  have hlength := congrArg List.length hrest
  rw [List.length_append, List.length_drop] at hlength
  refine ⟨bs.take n, rest, ?_, List.length_take_of_le (by omega), ?_⟩
  · rw [hrest, List.take_append_drop]
  · rintro ⟨front, back, hbody⟩
    have hbefore := congrArg List.length hbody
    rw [List.length_append, List.length_append, List.length_take] at hbefore
    have hmem : word <+: bs.drop front.length := by
      rw [← List.take_append_drop n bs, ← hbody, List.append_assoc, List.append_assoc,
        List.drop_left]
      exact List.prefix_append _ _
    have := hleast hmem
    omega

theorem skipTo?_eq_walk (hs : stop d) (hd : d ≠ Byte.lineFeed) (h : Allows ok stop text c) :
    skipTo? ok text d c.place = some (walk [d] c.unread c.place) := by
  have hw : [d] ≠ [] := List.cons_ne_nil d []
  rcases walk_cases hw c with ⟨n, hn, heq⟩ | ⟨hnone, heq⟩
  · obtain ⟨body, rest, hu, rfl, hm⟩ := cut_of_isLeast hw hn
    rw [heq, skipTo?_found hs hd h hu (notMem_of_singleton hm)]
  · rw [heq, skipTo?_missing hd h (notMem_of_nowhere hnone)]

def behindMark (r : Bool × Place) : Bool × Place :=
  if r.1 then (true, ⟨r.2.pos + 2, r.2.line⟩) else r

theorem blockComment?_eq_walk (hs : stop Byte.star) (h : Allows ok stop text c) :
    blockComment? ok text c.place =
      some (behindMark (walk [Byte.star, Byte.slash] c.unread c.place)) := by
  have hw : [Byte.star, Byte.slash] ≠ [] := List.cons_ne_nil _ _
  rcases walk_cases hw c with ⟨n, hn, heq⟩ | ⟨hnone, heq⟩
  · obtain ⟨body, rest, hu, rfl, hm⟩ := cut_of_isLeast hw hn
    have hmark : (c.advance body.length).unread = [Byte.star, Byte.slash] ++ rest := by
      rw [Cursor.advance, hu, List.drop_left]
    have hclosed : (c.advance (body.length + 2)).place =
        ⟨(c.advance body.length).pos + 2, (c.advance body.length).line⟩ := by
      rw [← Cursor.advance_advance]
      exact place_before hmark (by decide)
    rw [heq, blockComment?_closed hs h hu hm, hclosed]
    rfl
  · rw [heq, blockComment?_open hs h (not_infix_of_nowhere hnone)]
    rfl

theorem walk_to_lineFeed (c : Cursor) :
    ∃ body rest, c.unread = body ++ rest ∧ Byte.lineFeed ∉ body ∧
      (rest = [] ∨ rest.head? = some Byte.lineFeed) ∧
      (walk [Byte.lineFeed] c.unread c.place).2 = (c.advance body.length).place := by
  have hw : [Byte.lineFeed] ≠ [] := List.cons_ne_nil _ _
  rcases walk_cases hw c with ⟨n, hn, heq⟩ | ⟨hnone, heq⟩
  · obtain ⟨body, rest, hu, rfl, hm⟩ := cut_of_isLeast hw hn
    refine ⟨body, Byte.lineFeed :: rest, hu, notMem_of_singleton hm, ?_, ?_⟩
    · exact Or.inr rfl
    · rw [heq]
  · have hm := notMem_of_nowhere hnone
    exact ⟨c.unread, [], (List.append_nil _).symm, hm, Or.inl rfl, by rw [heq]⟩

theorem lineComment?_eq_walk (h : Allows ok stop text c) :
    lineComment? ok text c.place = some (walk [Byte.lineFeed] c.unread c.place).2 ∧
      (walk [Byte.lineFeed] c.unread c.place).2.line = c.line := by
  obtain ⟨body, rest, hu, hm, hr, heq⟩ := walk_to_lineFeed c
  rw [heq]
  exact ⟨lineComment?_eq h hu hm hr, congrArg Place.line (place_before hu hm)⟩

theorem run_eq_walk (c : Cursor) :
    Rule.run (· != Byte.lineFeed) c.unread =
      (walk [Byte.lineFeed] c.unread c.place).2.pos - c.pos := by
  obtain ⟨body, rest, hu, hm, hr, heq⟩ := walk_to_lineFeed c
  have hstop : Rule.run (· != Byte.lineFeed) rest = 0 := by
    apply Rule.run_eq_zero
    intro b hb
    rcases hr with rfl | hr
    · cases hb
    · obtain rfl := Option.some.inj (hr.symm.trans hb)
      decide
  rw [heq, hu, Rule.run_append rest (Grammar.not_lineFeed_of_mem hm), hstop]
  simp only [Cursor.place, Cursor.advance, Nat.add_zero, Nat.add_sub_cancel_left]

theorem walk_eq_advance (hw : word ≠ []) (c : Cursor) :
    (c.advance ((walk word c.unread c.place).2.pos - c.pos)).place =
      (walk word c.unread c.place).2 := by
  rcases walk_cases hw c with ⟨n, -, heq⟩ | ⟨-, heq⟩
  · rw [heq]
    simp only [Cursor.place, Cursor.advance, Nat.add_sub_cancel_left]
  · rw [heq]
    simp only [Cursor.place, Cursor.advance, Nat.add_sub_cancel_left]

theorem through?_eq_walk (d : UInt8) (c : Cursor) :
    Rule.through? d c.unread = if (walk [d] c.unread c.place).1 then
      some ((walk [d] c.unread c.place).2.pos + 1 - c.pos) else none := by
  have hw : [d] ≠ [] := List.cons_ne_nil _ _
  rcases walk_cases hw c with ⟨n, hn, heq⟩ | ⟨hnone, heq⟩
  · obtain ⟨body, rest, hu, rfl, hm⟩ := cut_of_isLeast hw hn
    rw [heq, if_pos rfl, hu]
    refine (Rule.through?_complete rest (notMem_of_singleton hm)).trans ?_
    simp only [Cursor.place, Cursor.advance, Nat.add_assoc, Nat.add_sub_cancel_left]
  · rw [heq]
    exact (Rule.through?_eq_none_iff d _).mpr (notMem_of_nowhere hnone)

theorem throughPair?_eq_walk {a b : UInt8} (hab : a ≠ b) (c : Cursor) :
    Rule.throughPair? a b c.unread = if (walk [a, b] c.unread c.place).1 then
      some ((walk [a, b] c.unread c.place).2.pos + 2 - c.pos) else none := by
  have hw : [a, b] ≠ [] := List.cons_ne_nil _ _
  rcases walk_cases hw c with ⟨n, hn, heq⟩ | ⟨hnone, heq⟩
  · obtain ⟨body, rest, hu, rfl, hm⟩ := cut_of_isLeast hw hn
    rw [heq, if_pos rfl, hu]
    refine (Rule.throughPair?_complete hab rest hm).trans ?_
    simp only [Cursor.place, Cursor.advance, Nat.add_assoc, Nat.add_sub_cancel_left]
  · rw [heq]
    exact (Rule.throughPair?_eq_none_iff a b _).mpr (not_infix_of_nowhere hnone)

theorem reaches_walk (hw : word ≠ []) (hp : p.pos ≤ text.size) :
    Reaches text word p (walk word (text.bytes.drop p.pos) p) := by
  have hslice (n : Nat) : text.slice p.pos (p.pos + n) = (text.bytes.drop p.pos).take n := by
    rw [Text.slice_eq, Nat.add_sub_cancel_left]
  rcases walk_cases hw (p.cursor text) with ⟨n, ⟨hn, hleast⟩, heq⟩ | ⟨hnone, heq⟩
  · rw [show walk word (text.bytes.drop p.pos) p = _ from heq]
    simp only [Place.cursor, List.drop_drop] at hn hleast
    have hfirst : IsLeast (occurrences text word p.pos) (p.pos + n) := by
      refine ⟨⟨Nat.le_add_right _ _, hn⟩, ?_⟩
      rintro i ⟨hle, hi⟩
      have hmem : word <+: text.bytes.drop (p.pos + (i - p.pos)) := by
        rwa [Nat.add_sub_cancel' hle]
      have := hleast hmem
      omega
    have hfound := Reaches.found (p := p) hfirst
    rw [hslice] at hfound
    exact hfound
  · rw [show walk word (text.bytes.drop p.pos) p = _ from heq]
    simp only [Place.cursor, List.drop_drop] at hnone
    have hempty : occurrences text word p.pos = ∅ := by
      rw [Set.eq_empty_iff_forall_notMem]
      rintro i ⟨hle, hi⟩
      apply hnone (i - p.pos)
      rwa [Nat.add_sub_cancel' hle]
    have hmissing := Reaches.missing (p := p) hempty
    have hsize : text.size = p.pos + (text.bytes.drop p.pos).length := by
      rw [List.length_drop, Text.length_bytes, Nat.add_sub_cancel' hp]
    rw [hsize, hslice] at hmissing
    exact hmissing

theorem answers_walk (hw : word ≠ []) (hp : p.pos ≤ text.size)
    (hfits : p.line + (text.bytes.drop p.pos).count Byte.lineFeed < UInt32.size) :
    Answers text word p (walk word (text.bytes.drop p.pos) p) := by
  have hcursor := walk_eq_advance hw (p.cursor text)
  refine ⟨rfl, reaches_walk hw hp, hcursor, ?_⟩
  have hline := congrArg Place.line hcursor
  have hcount := (List.take_sublist
    ((walk word (text.bytes.drop p.pos) p).2.pos - p.pos) (text.bytes.drop p.pos)).count_le
      Byte.lineFeed
  exact Nat.lt_of_le_of_lt (hline ▸ Nat.add_le_add_left hcount p.line) hfits

theorem allows_anywhere (hp : p.pos ≤ text.size) :
    Allows anywhere (fun _ => True) text (p.cursor text) :=
  ⟨rfl, hp, rfl, trivial, fun _ _ => ⟨rfl, rfl⟩⟩

theorem skipsTo (hd : d ≠ Byte.lineFeed) (hp : p.pos ≤ text.size)
    (hfits : p.line + (text.bytes.drop p.pos).count Byte.lineFeed < UInt32.size) :
    SkipsTo text d p :=
  ⟨_, answers_walk (List.cons_ne_nil d []) hp hfits, skipTo?_eq_walk trivial hd (allows_anywhere hp),
    through?_eq_walk d (p.cursor text)⟩

theorem fits_behind (h : p.line + (text.bytes.drop p.pos).count Byte.lineFeed < UInt32.size)
    (n : Nat) : p.line + (text.bytes.drop (p.pos + n)).count Byte.lineFeed < UInt32.size := by
  have hcount := (List.drop_sublist n (text.bytes.drop p.pos)).count_le Byte.lineFeed
  rw [List.drop_drop] at hcount
  omega

theorem skipsLineComment (hp : p.pos + 2 ≤ text.size)
    (hfits : p.line + (text.bytes.drop p.pos).count Byte.lineFeed < UInt32.size) :
    SkipsLineComment text p := by
  let q : Place := ⟨p.pos + 2, p.line⟩
  obtain ⟨hskip, hline⟩ := lineComment?_eq_walk (allows_anywhere (p := q) hp)
  exact ⟨_, answers_walk (p := q) (List.cons_ne_nil _ _) hp (fits_behind hfits 2), hskip, hline,
    run_eq_walk (q.cursor text)⟩

section

variable {s : String}

theorem ahead?_openingMark
    (hmark : [Byte.slash, Byte.star] <+: (Text.bytes s.toUTF8).drop p.pos) :
    Text.isBoundary s.toUTF8 p.pos ∧ Text.isBoundary s.toUTF8 (p.pos + 2) ∧
      ahead? s.toUTF8 p =
        (blockComment? (Text.isBoundary s.toUTF8) s.toUTF8 ⟨p.pos + 2, p.line⟩).map fun r =>
          if r.1 then .trivia r.2 else .openComment r.2 := by
  obtain ⟨rest, hrest⟩ := hmark
  have hslash : (Text.bytes s.toUTF8)[p.pos]? = some Byte.slash := by
    rw [← Nat.add_zero p.pos, ← List.getElem?_drop, ← hrest]
    rfl
  have hstar : (Text.bytes s.toUTF8)[p.pos + 1]? = some Byte.star := by
    rw [← List.getElem?_drop, ← hrest]
    rfl
  refine ⟨Text.isBoundary_of_ascii hslash (by decide),
    Text.isBoundary_after_ascii hstar (by decide), ?_⟩
  rw [ahead?, hslash]
  simp only [hstar]
  rw [if_neg (by decide), if_neg (by decide), if_neg (by decide), if_pos ⟨trivial, trivial⟩]

theorem outcome?_rest (hp : text.isBoundary p.pos) (kind : Kind) (issue : Issue) (line : Nat) :
    outcome? text kind (some issue) p ⟨text.size, line⟩ =
      some ⟨⟨kind, text.slice p.pos text.size, Span.ofBounds p.pos text.size, p.line⟩,
        some ⟨issue, line, some (Span.ofBounds p.pos text.size)⟩, ⟨text.size, line⟩⟩ := by
  have hall : p.pos ≤ text.size ∧ text.isBoundary p.pos ∧ text.isBoundary text.size :=
    ⟨Text.le_size_of_isBoundary hp, hp, Text.isBoundary_size text⟩
  rw [outcome?, Text.slice?, if_pos hall]
  rfl

theorem leavesComment {q : Place} {r : Bool × Place} (hp : text.isBoundary p.pos)
    (hr : Reaches text word q r)
    (h : ahead? text p = some (if (behindMark r).1 then .trivia (behindMark r).2
      else .openComment (behindMark r).2)) : LeavesComment text p r := by
  cases hr with
  | found first => exact ⟨h, next?_of_trivia h⟩
  | missing absent => exact (next?_of_openComment h).trans (outcome?_rest hp _ _ _)

theorem skipsBlockComment (hmark : [Byte.slash, Byte.star] <+: (Text.bytes s.toUTF8).drop p.pos)
    (hfits : p.line + ((Text.bytes s.toUTF8).drop p.pos).count Byte.lineFeed < UInt32.size) :
    SkipsBlockComment s.toUTF8 p := by
  obtain ⟨hstart, hbehind, hahead⟩ := ahead?_openingMark hmark
  let q : Place := ⟨p.pos + 2, p.line⟩
  have hallows := allows_of_isBoundary (c := q.cursor s.toUTF8) rfl hbehind
  have hanswers : Answers s.toUTF8 [Byte.star, Byte.slash] q _ :=
    answers_walk (List.cons_ne_nil _ _) (Text.le_size_of_isBoundary hbehind) (fits_behind hfits 2)
  have hblock := blockComment?_eq_walk (by decide) hallows
  refine ⟨_, hanswers, leavesComment hstart hanswers.reaches ?_, ?_⟩
  · rw [hahead, show blockComment? _ s.toUTF8 ⟨p.pos + 2, p.line⟩ = _ from hblock]
    rfl
  · exact throughPair?_eq_walk (by decide) (q.cursor s.toUTF8)

theorem searches_equal_byte_walks (s : String) (p : Place) (hp : p.pos ≤ s.toUTF8.size)
    (hfits : p.line + ((Text.bytes s.toUTF8).drop p.pos).count Byte.lineFeed < UInt32.size) :
    (∀ d, d ≠ Byte.lineFeed → SkipsTo s.toUTF8 d p) ∧
      ([Byte.slash, Byte.star] <+: (Text.bytes s.toUTF8).drop p.pos →
        SkipsBlockComment s.toUTF8 p) ∧
      (p.pos + 2 ≤ s.toUTF8.size → SkipsLineComment s.toUTF8 p) :=
  ⟨fun _ hd => skipsTo hd hp hfits, fun hmark => skipsBlockComment hmark hfits,
    fun hp => skipsLineComment hp hfits⟩

/-- The star behind the line feed does not close the comment, and the one after it does. The line
on which the comment ends is the last that fits. -/
theorem walk_over_lone_star :
    0 ≤ "/*\n**/".toUTF8.size ∧
      4294967294 + ((Text.bytes "/*\n**/".toUTF8).drop 0).count Byte.lineFeed < UInt32.size ∧
      [Byte.slash, Byte.star] <+: (Text.bytes "/*\n**/".toUTF8).drop 0 ∧
      ahead? "/*\n**/".toUTF8 ⟨0, 4294967294⟩ = some (.trivia ⟨6, 4294967295⟩) := by
  have hp : 0 ≤ "/*\n**/".toUTF8.size := Nat.zero_le _
  have hfits : 4294967294 + ((Text.bytes "/*\n**/".toUTF8).drop 0).count Byte.lineFeed <
      UInt32.size := by decide
  have hmark : [Byte.slash, Byte.star] <+: (Text.bytes "/*\n**/".toUTF8).drop 0 := by decide
  obtain ⟨r, hanswers, hleaves, -⟩ :=
    (searches_equal_byte_walks "/*\n**/" ⟨0, 4294967294⟩ hp hfits).2.1 hmark
  obtain rfl : r = (true, ⟨4, 4294967295⟩) := hanswers.eq_walk.trans (by decide)
  exact ⟨hp, hfits, hmark, hleaves.1⟩

end

end ScriptLexer.Guarded
