import ScriptLexer.Proofs.CursorLookahead
import ScriptLexer.Proofs.GuardedScanner

namespace ScriptLexer

def Cursor.place (c : Cursor) : Guarded.Place := ⟨c.pos, c.line⟩

namespace Guarded

/-- The cursor reads the text, on whatever line. The text may be cut there, and on either side of
every unread byte at which a search may stop. -/
structure Allows (ok : Nat → Bool) (stop : UInt8 → Prop) (text : Text) (c : Cursor) : Prop where
  unread_eq : c.unread = text.bytes.drop c.pos
  pos_le : c.pos ≤ text.size
  here : ok c.pos
  lineFeed : stop Byte.lineFeed
  around : ∀ {v r : Bytes} {x : UInt8}, c.unread = v ++ x :: r → stop x →
    ok (c.pos + v.length) ∧ ok (c.pos + v.length + 1)

variable {ok : Nat → Bool} {stop : UInt8 → Prop} {text : Text} {c : Cursor} {d x : UInt8}
  {w body rest : Bytes}

theorem place_advance {n : Nat} (h : Byte.lineFeed ∉ c.unread.take n) :
    (c.advance n).place = ⟨c.pos + n, c.line⟩ := by
  rw [Cursor.place, Cursor.advance, List.count_eq_zero_of_not_mem h, Nat.add_zero]

theorem place_before (hu : c.unread = w ++ rest) (hw : Byte.lineFeed ∉ w) :
    (c.advance w.length).place = ⟨c.pos + w.length, c.line⟩ := by
  apply place_advance
  rwa [hu, List.take_left]

theorem place_behind_lineFeed (hu : c.unread = w ++ Byte.lineFeed :: rest)
    (hw : Byte.lineFeed ∉ w) :
    (c.advance (w.length + 1)).place = ⟨c.pos + w.length + 1, c.line + 1⟩ := by
  have htake : c.unread.take (w.length + 1) = w ++ [Byte.lineFeed] := by
    rw [hu, List.take_length_add_append, List.take_succ_cons, List.take_zero]
  rw [Cursor.place, Cursor.advance, htake, List.count_append, List.count_eq_zero_of_not_mem hw,
    List.count_singleton_self, Nat.zero_add, Nat.add_assoc]

theorem unread_advance (h : c.unread = text.bytes.drop c.pos) (n : Nat) :
    (c.advance n).unread = text.bytes.drop (c.advance n).pos := by
  rw [Cursor.advance, h, List.drop_drop]

theorem bytes_getElem? (h : c.unread = text.bytes.drop c.pos) (n : Nat) :
    text.bytes[c.pos + n]? = c.unread[n]? := by
  rw [h, List.getElem?_drop]

namespace Allows

theorem size_eq (h : Allows ok stop text c) : c.pos + c.unread.length = text.size := by
  have := h.pos_le
  rw [h.unread_eq, List.length_drop, Text.length_bytes]
  omega

theorem rest?_eq (h : Allows ok stop text c) : rest? ok text c.pos = some c.unread := by
  rw [rest?, if_pos ⟨h.pos_le, h.here⟩, h.unread_eq]

theorem advance (h : Allows ok stop text c) (hu : c.unread = w ++ x :: rest) (hx : stop x) :
    Allows ok stop text (c.advance (w.length + 1)) ∧
      (c.advance (w.length + 1)).unread = rest := by
  have hrest : (c.advance (w.length + 1)).unread = rest := by
    rw [Cursor.advance, hu, List.drop_length_add_append, List.drop_succ_cons, List.drop_zero]
  refine ⟨⟨?_, ?_, ?_, h.lineFeed, ?_⟩, hrest⟩
  · exact unread_advance h.unread_eq _
  · have := h.size_eq
    rw [hu, List.length_append, List.length_cons] at this
    simp only [Cursor.advance]
    omega
  · exact (h.around hu hx).2
  · intro v r y hv hy
    rw [hrest] at hv
    have hsplit : c.unread = (w ++ x :: v) ++ y :: r := by
      rw [hu, hv, List.append_assoc, List.cons_append]
    have hcut := h.around hsplit hy
    rw [List.length_append, List.length_cons] at hcut
    have hpos : (c.advance (w.length + 1)).pos + v.length =
        c.pos + (w.length + (v.length + 1)) := by
      simp only [Cursor.advance]
      omega
    rwa [hpos]

end Allows

theorem findIdx?_of_stop {p : UInt8 → Bool} (hw : ∀ b ∈ w, p b = false) (hx : p x) :
    (w ++ x :: rest).findIdx? p = some w.length := by
  have hnone := List.findIdx?_eq_none_iff.mpr hw
  simp [List.findIdx?_append, List.findIdx?_cons, hnone, hx]

theorem not_delimiter (hm : d ∉ w) (hl : Byte.lineFeed ∉ w) :
    ∀ b ∈ w, (b == d || b == Byte.lineFeed) = false := by
  intro b hb
  have hbd : b ≠ d := fun he => hm (he ▸ hb)
  have hbl : b ≠ Byte.lineFeed := fun he => hl (he ▸ hb)
  simp [hbd, hbl]

theorem skipTo?_of_stop (h : Allows ok stop text c) (hu : c.unread = w ++ x :: rest) (hm : d ∉ w)
    (hl : Byte.lineFeed ∉ w) (hx : x = d ∨ x = Byte.lineFeed) (hs : stop x) :
    skipTo? ok text d c.place = if x = d then some (true, ⟨c.pos + w.length, c.line⟩)
      else skipTo? ok text d ⟨c.pos + w.length + 1, c.line + 1⟩ := by
  have hfind : (w ++ x :: rest).findIdx? (fun b => b == d || b == Byte.lineFeed) =
      some w.length := findIdx?_of_stop (not_delimiter hm hl) (by simpa using hx)
  have hin : c.pos + w.length < text.size := by
    have := h.size_eq
    rw [hu, List.length_append, List.length_cons] at this
    omega
  have hbyte : text[c.pos + w.length] = x := by
    have hget := bytes_getElem? h.unread_eq w.length
    rw [hu, List.getElem?_append_right (Nat.le_refl _), Nat.sub_self, List.getElem?_cons_zero,
      List.getElem?_eq_getElem (by rwa [Text.length_bytes])] at hget
    exact Option.some.inj hget
  rw [skipTo?, Cursor.place, h.rest?_eq, Option.map_some, hu]
  simp only [hfind, dif_pos (And.intro hin (h.around hu hs).1), hbyte]

theorem skipTo?_line (hd : d ≠ Byte.lineFeed) (h : Allows ok stop text c)
    (hu : c.unread = w ++ Byte.lineFeed :: rest) (hm : d ∉ w) (hl : Byte.lineFeed ∉ w) :
    skipTo? ok text d c.place = skipTo? ok text d (c.advance (w.length + 1)).place := by
  rw [skipTo?_of_stop h hu hm hl (Or.inr rfl) h.lineFeed, if_neg hd.symm,
    place_behind_lineFeed hu hl]

theorem skipTo?_found (hs : stop d) (hd : d ≠ Byte.lineFeed) (h : Allows ok stop text c)
    (hu : c.unread = body ++ d :: rest) (hm : d ∉ body) :
    skipTo? ok text d c.place = some (true, (c.advance body.length).place) := by
  -- The search goes from line to line, so the induction is on the bytes left in front of `d`.
  induction hn : body.length using Nat.strong_induction_on generalizing c body with
  | _ n ih =>
    by_cases hl : Byte.lineFeed ∈ body
    · obtain ⟨w, body, rfl, hw⟩ := List.eq_append_cons_of_mem hl
      rw [List.append_assoc, List.cons_append] at hu
      rw [List.mem_append, List.mem_cons, not_or, not_or] at hm
      rw [List.length_append, List.length_cons] at hn
      obtain ⟨hnext, hrest⟩ := h.advance hu h.lineFeed
      rw [skipTo?_line hd h hu hm.1 hw, ih body.length (by omega) hnext hrest hm.2.2 rfl,
        Cursor.advance_advance, ← hn, Nat.add_assoc, Nat.add_comm 1]
    · rw [skipTo?_of_stop h hu hm hl (Or.inl rfl) hs, if_pos rfl, ← hn, place_before hu hl]

theorem skipTo?_missing (hd : d ≠ Byte.lineFeed) (h : Allows ok stop text c) (hm : d ∉ c.unread) :
    skipTo? ok text d c.place = some (false, (c.advance c.unread.length).place) := by
  induction hn : c.unread.length using Nat.strong_induction_on generalizing c with
  | _ n ih =>
    by_cases hl : Byte.lineFeed ∈ c.unread
    · obtain ⟨w, r, hu, hw⟩ := List.eq_append_cons_of_mem hl
      rw [hu, List.mem_append, List.mem_cons, not_or, not_or] at hm
      rw [hu, List.length_append, List.length_cons] at hn
      obtain ⟨hnext, hrest⟩ := h.advance hu h.lineFeed
      rw [skipTo?_line hd h hu hm.1 hw,
        ih r.length (by omega) hnext (by rw [hrest]; exact hm.2.2) (by rw [hrest]),
        Cursor.advance_advance, ← hn, Nat.add_assoc, Nat.add_comm 1]
    · have hfind := List.findIdx?_eq_none_iff.mpr (not_delimiter hm hl)
      have hend := place_before (List.append_nil c.unread).symm hl
      rw [h.size_eq] at hend
      rw [← hn, hend, skipTo?, Cursor.place, h.rest?_eq, Option.map_some]
      simp only [hfind]

theorem blockComment?_star (hs : stop Byte.star) (h : Allows ok stop text c)
    (hu : c.unread = w ++ Byte.star :: rest) (hm : Byte.star ∉ w) :
    blockComment? ok text c.place =
      if rest.head? = some Byte.slash then some (true, (c.advance (w.length + 2)).place)
      else blockComment? ok text (c.advance (w.length + 1)).place := by
  have hfound := skipTo?_found hs (by decide) h hu hm
  have hstar : (c.advance w.length).unread = Byte.star :: rest := by
    rw [Cursor.advance, hu, List.drop_left]
  have hbyte : text.bytes[(c.advance w.length).place.pos + 1]? = rest.head? := by
    rw [Cursor.place, bytes_getElem? (unread_advance h.unread_eq _), hstar,
      List.getElem?_cons_succ, List.head?_eq_getElem?]
  have hone : (c.advance (w.length + 1)).place =
      ⟨(c.advance w.length).place.pos + 1, (c.advance w.length).place.line⟩ := by
    rw [← Cursor.advance_advance]
    exact place_before (w := [Byte.star]) hstar (by decide)
  rw [blockComment?]
  split
  · next he => simp [hfound] at he
  · next q he => simp [hfound] at he
  · next q he =>
    obtain rfl : (c.advance w.length).place = q := by simpa [hfound] using he
    rw [hbyte, hone]
    split
    · next hslash =>
      obtain ⟨r, rfl⟩ := List.head?_eq_some_iff.mp hslash
      have htwo : (c.advance (w.length + 2)).place =
          ⟨(c.advance w.length).place.pos + 2, (c.advance w.length).place.line⟩ := by
        rw [← Cursor.advance_advance]
        exact place_before (w := [Byte.star, Byte.slash]) hstar (by decide)
      rw [htwo]
    · rfl

theorem blockComment?_closed (hs : stop Byte.star) (h : Allows ok stop text c)
    (hu : c.unread = body ++ Byte.star :: Byte.slash :: rest)
    (hm : ¬ [Byte.star, Byte.slash] <:+: body) :
    blockComment? ok text c.place = some (true, (c.advance (body.length + 2)).place) := by
  induction hn : body.length using Nat.strong_induction_on generalizing c body with
  | _ n ih =>
    by_cases hstar : Byte.star ∈ body
    · obtain ⟨w, body, rfl, hw⟩ := List.eq_append_cons_of_mem hstar
      rw [List.append_assoc, List.cons_append] at hu
      rw [List.length_append, List.length_cons] at hn
      have hbody : ¬ [Byte.star, Byte.slash] <:+: Byte.star :: body :=
        fun hi => hm (hi.trans (List.suffix_append _ _).isInfix)
      rw [Rule.infix_cons_iff_head, not_or] at hbody
      have hhead : (body ++ Byte.star :: Byte.slash :: rest).head? ≠ some Byte.slash := by
        intro hh
        cases body with
        | nil => exact absurd (Option.some.inj hh) (by decide)
        | cons b body => exact hbody.1 ⟨rfl, hh⟩
      obtain ⟨hnext, hrest⟩ := h.advance hu hs
      rw [blockComment?_star hs h hu hw, if_neg hhead,
        ih body.length (by omega) hnext hrest hbody.2 rfl, Cursor.advance_advance, ← hn]
      congr 4
      omega
    · rw [blockComment?_star hs h hu hstar, List.head?_cons, if_pos rfl, ← hn]

theorem blockComment?_open (hs : stop Byte.star) (h : Allows ok stop text c)
    (hm : ¬ [Byte.star, Byte.slash] <:+: c.unread) :
    blockComment? ok text c.place = some (false, (c.advance c.unread.length).place) := by
  induction hn : c.unread.length using Nat.strong_induction_on generalizing c with
  | _ n ih =>
    by_cases hstar : Byte.star ∈ c.unread
    · obtain ⟨w, r, hu, hw⟩ := List.eq_append_cons_of_mem hstar
      have hr : ¬ [Byte.star, Byte.slash] <:+: Byte.star :: r :=
        fun hi => hm (hu ▸ hi.trans (List.suffix_append _ _).isInfix)
      rw [Rule.infix_cons_iff_head, not_or] at hr
      rw [hu, List.length_append, List.length_cons] at hn
      obtain ⟨hnext, hrest⟩ := h.advance hu hs
      rw [blockComment?_star hs h hu hw, if_neg (fun hh => hr.1 ⟨rfl, hh⟩),
        ih r.length (by omega) hnext (by rw [hrest]; exact hr.2) (by rw [hrest]),
        Cursor.advance_advance, ← hn, Nat.add_assoc, Nat.add_comm 1]
    · have hmissing := skipTo?_missing (by decide) h hstar
      rw [blockComment?]
      split
      · next he => simp [hmissing] at he
      · next q he => rw [← he, hmissing, hn]
      · next q he => simp [hmissing] at he

theorem lineComment?_eq (h : Allows ok stop text c) (hu : c.unread = body ++ rest)
    (hm : Byte.lineFeed ∉ body) (hr : rest = [] ∨ rest.head? = some Byte.lineFeed) :
    lineComment? ok text c.place = some (c.advance body.length).place := by
  rw [place_before hu hm, lineComment?, Cursor.place, h.rest?_eq, Option.map_some, hu]
  rcases hr with rfl | hr
  · have hnone : body.findIdx? (· == Byte.lineFeed) = none := by
      rw [List.findIdx?_eq_none_iff]
      intro b hb
      have hbl : b ≠ Byte.lineFeed := fun he => hm (he ▸ hb)
      simpa using hbl
    rw [List.append_nil] at hu ⊢
    have := h.size_eq
    rw [hu] at this
    rw [hnone, ← this]
  · obtain ⟨r, rfl⟩ := List.head?_eq_some_iff.mp hr
    have hfind : (body ++ Byte.lineFeed :: r).findIdx? (· == Byte.lineFeed) = some body.length := by
      apply findIdx?_of_stop
      · intro b hb
        have hbl : b ≠ Byte.lineFeed := fun he => hm (he ▸ hb)
        simpa using hbl
      · rfl
    rw [hfind]

end Guarded

end ScriptLexer
