import Mathlib
import ScriptLexer.Proofs.GuardedSearches
import ScriptLexer.Proofs.LexemeBytes
import ScriptLexer.Proofs.NearestBoundaries

namespace ScriptLexer

open Guarded
open Grammar (nameKind)
open Lexeme (front)

def Step.outcome (s : Step) : Guarded.Outcome := ⟨s.token, s.diagnostic, s.cursor.place⟩

theorem Guarded.allows_of_isBoundary {s : String} {c : Cursor}
    (hu : c.unread = (Text.bytes s.toUTF8).drop c.pos) (hb : Text.isBoundary s.toUTF8 c.pos) :
    Allows (Text.isBoundary s.toUTF8) (· < 0x80) s.toUTF8 c := by
  refine ⟨hu, Text.le_size_of_isBoundary hb, hb, by decide, ?_⟩
  intro v r x hv hx
  have hbyte : (Text.bytes s.toUTF8)[c.pos + v.length]? = some x := by
    rw [bytes_getElem? hu, hv, List.getElem?_append_right (Nat.le_refl _), Nat.sub_self,
      List.getElem?_cons_zero]
  exact ⟨Text.isBoundary_of_ascii hbyte hx, Text.isBoundary_after_ascii hbyte hx⟩

structure Cursor.Between (c : Cursor) (s : String) : Prop where
  standsIn : c.StandsIn (Bytes.ofString s)
  isText : Bytes.IsText c.unread

namespace Cursor.Between

variable {s : String} {c : Cursor} {b : UInt8} {w rest : Bytes}

theorem start (s : String) : (Cursor.ofString s).Between s :=
  ⟨standsIn_start _, Bytes.isText_ofString s⟩

theorem next (h : c.Between s) : c.next.cursor.Between s :=
  ⟨h.standsIn.next, isText_next h.isText⟩

theorem isBoundary (h : c.Between s) : Text.isBoundary s.toUTF8 c.pos :=
  isBoundary_of_standsIn h.standsIn h.isText

theorem advance (h : c.Between s) (hu : c.unread = w ++ rest) (ht : Bytes.IsText rest) :
    (c.advance w.length).Between s := by
  constructor
  · apply h.standsIn.advance
    rw [hu, List.length_append]
    exact Nat.le_add_right _ _
  · rwa [Cursor.advance, hu, List.drop_left]

theorem allows (h : c.Between s) : Allows (Text.isBoundary s.toUTF8) (· < 0x80) s.toUTF8 c :=
  allows_of_isBoundary h.standsIn.unread_eq h.isBoundary

theorem slice (h : c.Between s) {n : Nat} (hn : (c.advance n).Between s) :
    Text.slice? s.toUTF8 c.pos (c.pos + n) = some (c.unread.take n) := by
  rw [Text.slice?, if_pos ⟨Nat.le_add_right _ _, h.isBoundary, hn.isBoundary⟩, Text.slice_eq,
    Text.bytes_toUTF8, Nat.add_sub_cancel_left, h.standsIn.unread_eq]

theorem outcome (h : c.Between s) {n : Nat} (hn : (c.advance n).Between s) (kind : Kind)
    (issue : Option Issue) :
    outcome? s.toUTF8 kind issue c.place (c.advance n).place =
      some (c.take ⟨kind, n, issue⟩).outcome := by
  have hspan : Span.ofBounds c.pos (c.pos + n) = ⟨c.pos, n⟩ := by
    rw [Span.ofBounds, Nat.add_sub_cancel_left]
  have hslice := h.slice hn
  simp only [outcome?, Cursor.place, Cursor.advance, hslice, Option.map_some, hspan]
  rfl

theorem drop_bytes (h : c.Between s) (hu : c.unread = b :: rest) :
    (Text.bytes s.toUTF8).drop c.place.pos = b :: rest ∧
      (Text.bytes s.toUTF8).drop (c.place.pos + 1) = rest := by
  have hall : (Text.bytes s.toUTF8).drop c.place.pos = b :: rest := by
    rw [← hu, h.standsIn.unread_eq]
    rfl
  refine ⟨hall, ?_⟩
  rw [← List.drop_drop, hall, List.drop_succ_cons, List.drop_zero]

end Cursor.Between

namespace Guarded

variable {s : String} {c : Cursor} {b d : UInt8} {body after rest : Bytes}

theorem place_one (hu : c.unread = d :: rest) (hd : d ≠ Byte.lineFeed) :
    (c.advance 1).place = ⟨c.pos + 1, c.line⟩ :=
  place_before (w := [d]) hu (by simpa using hd.symm)

theorem delimited_found (h : c.Between s) (hu : c.unread = d :: (body ++ d :: after))
    (hasc : d < 0x80) (hd : d ≠ Byte.lineFeed) (hm : d ∉ body) :
    ∃ q, skipTo? (Text.isBoundary s.toUTF8) s.toUTF8 d ⟨c.pos + 1, c.line⟩ = some (true, q) ∧
      (c.advance (body.length + 2)).place = ⟨q.pos + 1, q.line⟩ := by
  obtain ⟨hopen, hrest⟩ := h.allows.advance (w := []) hu hasc
  have hbehind : ((c.advance 1).advance body.length).unread = d :: after := by
    rw [Cursor.advance, show (c.advance 1).unread = body ++ d :: after from hrest, List.drop_left]
  have hclosed := place_one hbehind hd
  have hlength : 1 + (body.length + 1) = body.length + 2 := by omega
  rw [Cursor.advance_advance, Cursor.advance_advance, hlength] at hclosed
  rw [← place_one hu hd]
  exact ⟨_, skipTo?_found hasc hd hopen hrest hm, hclosed⟩

theorem delimited_missing (h : c.Between s) (hu : c.unread = d :: rest) (hasc : d < 0x80)
    (hd : d ≠ Byte.lineFeed) (hm : d ∉ rest) :
    skipTo? (Text.isBoundary s.toUTF8) s.toUTF8 d ⟨c.pos + 1, c.line⟩ =
      some (false, (c.advance (rest.length + 1)).place) := by
  obtain ⟨hopen, hrest⟩ := h.allows.advance (w := []) hu hasc
  have hmissing := skipTo?_missing hd hopen (by rwa [hrest])
  rw [hrest, Cursor.advance_advance] at hmissing
  rw [← place_one hu hd, Nat.add_comm rest.length]
  exact hmissing

theorem string?_closed (h : c.Between s) (hu : c.unread = Byte.quote :: (body ++ Byte.quote :: after))
    (hm : Byte.quote ∉ body) (hn : (c.advance (body.length + 2)).Between s) :
    string? s.toUTF8 c.place = some (c.take ⟨.string, body.length + 2, none⟩).outcome := by
  obtain ⟨q, hq, hplace⟩ := delimited_found h hu (by decide) (by decide) hm
  rw [string?]
  simp only [Cursor.place, hq, Option.bind_some]
  exact hplace ▸ h.outcome hn _ _

theorem string?_open (h : c.Between s) (hu : c.unread = Byte.quote :: rest)
    (hm : Byte.quote ∉ rest) (hn : (c.advance (rest.length + 1)).Between s) :
    string? s.toUTF8 c.place =
      some (c.take ⟨.string, rest.length + 1, some .unterminatedString⟩).outcome := by
  have hq := delimited_missing h hu (by decide) (by decide) hm
  rw [string?]
  simp only [Cursor.place] at hq ⊢
  simp only [hq, Option.bind_some]
  exact h.outcome hn _ _

theorem backtick?_closed (h : c.Between s)
    (hu : c.unread = Byte.backtick :: (body ++ Byte.backtick :: after)) (hm : Byte.backtick ∉ body)
    (hn : (c.advance (body.length + 2)).Between s) :
    backtick? s.toUTF8 c.place =
      match Operator.ofWord? (Byte.backtick :: (body ++ [Byte.backtick])) with
      | some o => some (c.take ⟨.operator o, body.length + 2, none⟩).outcome
      | none => some (c.take ⟨.unidentified, body.length + 2, some .unidentifiedBacktick⟩).outcome := by
  obtain ⟨q, hq, hplace⟩ := delimited_found h hu (by decide) (by decide) hm
  have hstop : c.pos + (body.length + 2) = q.pos + 1 := congrArg Place.pos hplace
  have hword := h.slice hn
  rw [hu, Lexeme.take_quoted, hstop] at hword
  rw [backtick?]
  simp only [Cursor.place, hq, Option.bind_some, hword]
  cases Operator.ofWord? (Byte.backtick :: (body ++ [Byte.backtick])) with
  | none => exact hplace ▸ h.outcome hn _ _
  | some o => exact hplace ▸ h.outcome hn _ _

theorem backtick?_open (h : c.Between s) (hu : c.unread = Byte.backtick :: rest)
    (hm : Byte.backtick ∉ rest) (hn : (c.advance (rest.length + 1)).Between s) :
    backtick? s.toUTF8 c.place =
      some (c.take ⟨.unidentified, rest.length + 1, some .unterminatedBacktick⟩).outcome := by
  have hq := delimited_missing h hu (by decide) (by decide) hm
  rw [backtick?]
  simp only [Cursor.place] at hq ⊢
  simp only [hq, Option.bind_some]
  exact h.outcome hn _ _

theorem outcome_of_solid (h : c.Between s) {n : Nat} (hn : (c.advance n).Between s)
    (hs : ∀ x ∈ c.unread.take n, Byte.isSolid x) (kind : Kind) (issue : Option Issue) :
    outcome? s.toUTF8 kind issue c.place ⟨c.place.pos + n, c.place.line⟩ =
      some (c.take ⟨kind, n, issue⟩).outcome := by
  have hplace := place_advance (Byte.not_mem_of_isSolid (by decide) hs)
  exact hplace ▸ h.outcome hn kind issue

theorem name?_eq (h : c.Between s) (hu : c.unread = b :: rest) (hb : Byte.isNameStart b)
    (hn : (c.advance (Rule.run Byte.isNamePart rest + 1)).Between s) :
    name? s.toUTF8 c.place = some (c.take ⟨nameKind (b :: rest.take (Rule.run Byte.isNamePart rest)),
      Rule.run Byte.isNamePart rest + 1, none⟩).outcome := by
  have hall := (h.drop_bytes hu).1
  have hname : Rule.name (b :: rest) = Rule.run Byte.isNamePart rest + 1 := by
    rw [Rule.name, Rule.run_cons, if_pos (Byte.isNamePart_of_isNameStart hb)]
  have hword := h.slice hn
  rw [hu, List.take_succ_cons] at hword
  have hs : ∀ x ∈ c.unread.take (Rule.run Byte.isNamePart rest + 1), Byte.isSolid x := by
    rw [hu, List.take_succ_cons]
    exact Lexeme.name_isSolid hb rest
  have hout := outcome_of_solid h hn hs
  simp only [Cursor.place] at hall hout ⊢
  simp only [name?, hall, hname, hword, Option.bind_some, hout, nameKind]
  cases Keyword.ofWord? (b :: rest.take (Rule.run Byte.isNamePart rest)) <;> rfl

theorem symbol?_eq (h : c.Between s) (hu : c.unread = b :: rest) {p : Bytes × Operator}
    (hp : Operator.symbolAt? (b :: rest) = some p) (hn : (c.advance p.1.length).Between s) :
    symbol? s.toUTF8 c.place = some (c.take ⟨.operator p.2, p.1.length, none⟩).outcome := by
  rw [symbol?, (h.drop_bytes hu).1, hp]
  exact outcome_of_solid h hn (hu ▸ Lexeme.symbol_isSolid hp) _ _

theorem stray?_eq (h : c.Between s) (hu : c.unread = b :: rest) (hb : Byte.isSolid b)
    (hn : (c.advance (Rule.run Byte.isContinuation rest + 1)).Between s) :
    stray? s.toUTF8 c.place = some (c.take ⟨.unidentified, Rule.run Byte.isContinuation rest + 1,
      some .unidentifiedToken⟩).outcome := by
  have hs : ∀ x ∈ c.unread.take (Rule.run Byte.isContinuation rest + 1), Byte.isSolid x := by
    rw [hu, List.take_succ_cons]
    exact Lexeme.stray_isSolid hb rest
  -- The width that is decoded is that of the first character, all of whose bytes the rule takes.
  obtain ⟨ch, tail, after, rfl, hch, hrun⟩ := Grammar.run_isContinuation (hu ▸ h.isText)
  have hrest := h.standsIn.slice_rest h.isText
  have hwidth : (c.unread.toByteArray.utf8DecodeChar? 0).elim 1 Char.utf8Size =
      Rule.run Byte.isContinuation (tail ++ after) + 1 := by
    rw [hu, ← List.cons_append, ← hch, List.toByteArray_append,
      ByteArray.utf8DecodeChar?_utf8EncodeChar_append, Option.elim_some, hrun,
      ← String.length_utf8EncodeChar, hch, List.length_cons]
  rw [stray?]
  simp only [Cursor.place, hrest, Option.bind_some, hwidth]
  exact outcome_of_solid h hn hs _ _

theorem lexeme?_eq (h : c.Between s) (hu : c.unread = b :: rest)
    (hn : (c.advance (front b rest).length).Between s) (hl : ¬ Byte.isLayout b)
    (hc : ¬ [Byte.slash, Byte.star] <+: b :: rest) :
    lexeme? s.toUTF8 c.place b = some (c.take (front b rest)).outcome := by
  obtain ⟨hall, hrest⟩ := h.drop_bytes hu
  rw [lexeme?, hrest]
  cases b, rest using Lexeme.front_cases with
  | string body after hm hf =>
    rw [hf] at hn ⊢
    rw [if_pos rfl, string?_closed h hu hm hn]
  | openString _ hm hf =>
    rw [hf] at hn ⊢
    rw [if_pos rfl, string?_open h hu hm hn]
  | word body after o hm ho hf =>
    rw [hf] at hn ⊢
    rw [if_neg (by decide), if_pos rfl, backtick?_closed h hu hm hn, ho]
  | unknownWord body after hm ho hf =>
    rw [hf] at hn ⊢
    rw [if_neg (by decide), if_pos rfl, backtick?_closed h hu hm hn, ho]
  | openBacktick _ hm hf =>
    rw [hf] at hn ⊢
    rw [if_neg (by decide), if_pos rfl, backtick?_open h hu hm hn]
  | number b rest hb hf =>
    have hq : b ≠ Byte.quote := by
      rintro rfl
      exact Lexeme.not_beginsNumber rest (by decide) (by decide) hb
    have hbt : b ≠ Byte.backtick := by
      rintro rfl
      exact Lexeme.not_beginsNumber rest (by decide) (by decide) hb
    rw [hf] at hn ⊢
    rw [if_neg hq, if_neg hbt, if_pos hb, hall]
    exact outcome_of_solid h hn (hu ▸ Lexeme.number_isSolid hb) _ _
  | name b rest hb hf =>
    have hne {x : UInt8} (hx : ¬ Byte.isNameStart x) : b ≠ x := by
      rintro rfl
      exact hx hb
    have hnumber := Lexeme.not_beginsNumber rest (Lexeme.not_isDigit_of_isNameStart hb)
      (hne (by decide))
    rw [hf] at hn ⊢
    rw [if_neg (hne (by decide)), if_neg (hne (by decide)), if_neg hnumber, if_pos hb,
      name?_eq h hu hb hn]
  | openComment body hf => exact absurd ⟨body, rfl⟩ hc
  | symbol b rest p hp hb _ hf =>
    obtain ⟨hm, hs, -⟩ := Operator.symbolAt?_longest hp
    obtain ⟨-, -, -, hq, hbt, -, hname⟩ := Operator.head_of_prefix hm hs
    rw [hf] at hn ⊢
    rw [if_neg hq, if_neg hbt, if_neg hb, if_neg hname, symbol?_eq h hu hp hn]
  | stray b rest hq hbt hb hname hp hf =>
    have hsolid : Byte.isSolid b := by simp [Byte.isSolid, hl, hq]
    rw [hf] at hn ⊢
    rw [if_neg hq, if_neg hbt, if_neg hb, if_neg hname, symbol?, hall, hp]
    exact stray?_eq h hu hsolid hn

theorem ahead?_nothing (h : c.Between s) (hu : c.unread = []) :
    ahead? s.toUTF8 c.place = some .nothing := by
  have hbyte : (Text.bytes s.toUTF8)[c.place.pos + 0]? = c.unread[0]? :=
    bytes_getElem? h.standsIn.unread_eq 0
  rw [hu] at hbyte
  rw [ahead?, ← Nat.add_zero c.place.pos, hbyte]
  rfl

theorem ahead?_cons (h : c.Between s) (hu : c.unread = b :: rest) :
    ahead? s.toUTF8 c.place =
      if b = Byte.lineFeed then some (.trivia ⟨c.pos + 1, c.line + 1⟩)
      else if Byte.isLayout b then some (.trivia ⟨c.pos + 1, c.line⟩)
      else if b = Byte.slash ∧ rest.head? = some Byte.slash then
        (lineComment? (Text.isBoundary s.toUTF8) s.toUTF8 ⟨c.pos + 2, c.line⟩).map .trivia
      else if b = Byte.slash ∧ rest.head? = some Byte.star then
        (blockComment? (Text.isBoundary s.toUTF8) s.toUTF8 ⟨c.pos + 2, c.line⟩).map fun r =>
          if r.1 then .trivia r.2 else .openComment r.2
      else some (.lexeme b) := by
  have hzero : (Text.bytes s.toUTF8)[c.place.pos + 0]? = c.unread[0]? :=
    bytes_getElem? h.standsIn.unread_eq 0
  have hone : (Text.bytes s.toUTF8)[c.place.pos + 1]? = c.unread[1]? :=
    bytes_getElem? h.standsIn.unread_eq 1
  rw [hu, Nat.add_zero, List.getElem?_cons_zero] at hzero
  rw [hu, List.getElem?_cons_succ, ← List.head?_eq_getElem?] at hone
  rw [ahead?, hzero]
  simp only [hone]
  rfl

theorem behind_slash (h : c.Between s) {x : UInt8} (hu : c.unread = Byte.slash :: x :: rest)
    (hasc : x < 0x80) (hx : x ≠ Byte.lineFeed) :
    Allows (Text.isBoundary s.toUTF8) (· < 0x80) s.toUTF8 (c.advance 2) ∧ (c.advance 2).unread = rest ∧
      (c.advance 2).place = ⟨c.pos + 2, c.line⟩ := by
  obtain ⟨hallows, hrest⟩ := h.allows.advance (w := [Byte.slash]) hu hasc
  have hfeed : Byte.lineFeed ∉ [Byte.slash, x] := by
    simp only [List.mem_cons, List.not_mem_nil, or_false, not_or]
    exact ⟨by decide, hx.symm⟩
  exact ⟨hallows, hrest, place_before (w := [Byte.slash, x]) hu hfeed⟩

theorem ahead?_trivia (h : c.Between s) (hp : Trivia.piece c.unread ≠ 0) :
    ahead? s.toUTF8 c.place = some (.trivia (c.advance (Trivia.piece c.unread)).place) := by
  obtain ⟨p, rest, hu, hpiece, hl⟩ := Grammar.piece_sound hp
  rw [hl]
  cases hpiece with
  | layout b rest hb =>
    rw [ahead?_cons h hu]
    by_cases hfeed : b = Byte.lineFeed
    · subst hfeed
      have hplace := place_behind_lineFeed (w := []) hu (by simp)
      rw [if_pos rfl]
      exact congrArg (fun p => some (Ahead.trivia p)) hplace.symm
    · have hplace := place_one hu hfeed
      rw [if_neg hfeed, if_pos hb]
      exact congrArg (fun p => some (Ahead.trivia p)) hplace.symm
  | line body rest hm hr =>
    obtain ⟨hallows, hrest, hplace⟩ := behind_slash h hu (by decide) (by decide)
    rw [ahead?_cons h hu, if_neg (by decide), if_neg (by decide), if_pos ⟨rfl, rfl⟩, ← hplace,
      lineComment?_eq hallows hrest hm hr, Option.map_some, Cursor.advance_advance, Nat.add_comm 2]
    rfl
  | block body rest hm =>
    have hstar : ¬ (Byte.star :: (body ++ [Byte.star, Byte.slash] ++ rest)).head? =
        some Byte.slash := fun hs => absurd (Option.some.inj hs) (by decide)
    rw [List.cons_append, List.cons_append] at hu
    obtain ⟨hallows, hrest, hplace⟩ := behind_slash h hu (by decide) (by decide)
    rw [List.append_assoc] at hrest
    rw [ahead?_cons h hu, if_neg (by decide), if_neg (by decide), if_neg (fun hs => hstar hs.2),
      if_pos ⟨rfl, rfl⟩, ← hplace, blockComment?_closed (by decide) hallows hrest hm, Option.map_some,
      Cursor.advance_advance, Nat.add_comm 2, List.length_cons, List.length_cons,
      List.length_append]
    rfl

theorem ahead?_openComment (h : c.Between s) (hp : Trivia.piece c.unread = 0)
    (hu : c.unread = Byte.slash :: Byte.star :: rest) :
    ahead? s.toUTF8 c.place = some (.openComment (c.advance (rest.length + 2)).place) := by
  have hstar : ¬ (Byte.star :: rest).head? = some Byte.slash :=
    fun hs => absurd (Option.some.inj hs) (by decide)
  obtain ⟨hallows, hrest, hplace⟩ := behind_slash h hu (by decide) (by decide)
  rw [hu] at hp
  have hm := Rule.not_infix_of_throughPair? (Grammar.throughPair?_of_piece hp)
  rw [← hrest] at hm
  rw [ahead?_cons h hu, if_neg (by decide), if_neg (by decide), if_neg (fun hs => hstar hs.2),
    if_pos ⟨rfl, rfl⟩, ← hplace, blockComment?_open (by decide) hallows hm, Option.map_some, hrest,
    Cursor.advance_advance, Nat.add_comm 2]
  rfl

theorem ahead?_lexeme (h : c.Between s) (hp : Trivia.piece c.unread = 0)
    (hu : c.unread = b :: rest) (hc : ¬ [Byte.slash, Byte.star] <+: b :: rest) :
    ahead? s.toUTF8 c.place = some (.lexeme b) := by
  rw [hu, Trivia.piece_eq_zero_iff hc] at hp
  have hfeed : b ≠ Byte.lineFeed := by
    rintro rfl
    exact hp.1 (by decide)
  have hslash : ¬ (b = Byte.slash ∧ rest.head? = some Byte.slash) :=
    fun hs => hp.2 ((pair_prefix_iff _ _ _ _).mpr hs)
  have hstar : ¬ (b = Byte.slash ∧ rest.head? = some Byte.star) :=
    fun hs => hc ((pair_prefix_iff _ _ _ _).mpr hs)
  rw [ahead?_cons h hu, if_neg hfeed, if_neg hp.1, if_neg hslash, if_neg hstar]

theorem next?_of_piece (h : c.Between s) (hp : Trivia.piece c.unread = 0) :
    next? s.toUTF8 c.place = some c.takeLexeme.outcome := by
  have hskip := Cursor.skipTrivia_of_piece hp
  cases hu : c.unread with
  | nil =>
    have hn : (c.advance 0).Between s := by rwa [Cursor.advance_zero]
    have hout := h.outcome hn .endOfText none
    rw [Cursor.advance_zero] at hout
    rw [next?_of_nothing (ahead?_nothing h hu), hout, Cursor.takeLexeme_nil hu, Cursor.take,
      Cursor.advance_zero]
    rfl
  | cons b rest =>
    have hn : (c.advance (front b rest).length).Between s := by
      have hn := h.next
      rw [Cursor.next, hskip, Cursor.takeLexeme_eq_take hu] at hn
      exact hn
    rw [Cursor.takeLexeme_eq_take hu]
    by_cases hc : [Byte.slash, Byte.star] <+: b :: rest
    · obtain ⟨rfl, hhead⟩ := (pair_prefix_iff _ _ _ _).mp hc
      obtain ⟨body, rfl⟩ := List.head?_eq_some_iff.mp hhead
      have hf := Lexeme.front_openComment body
      rw [next?_of_openComment (ahead?_openComment h hp hu), hf]
      rw [hf] at hn
      exact h.outcome hn _ _
    · have hahead := ahead?_lexeme h hp hu hc
      rw [hu, Trivia.piece_eq_zero_iff hc] at hp
      rw [next?_of_lexeme hahead, lexeme?_eq h hu hn hp.1 hc]

theorem next?_eq (h : c.Between s) : next? s.toUTF8 c.place = some c.next.outcome := by
  rw [Cursor.next]
  fun_induction Cursor.skipTrivia c with
  | case1 c hp => exact next?_of_piece h hp
  | case2 c hp ih =>
    obtain ⟨p, rest, hu, hpiece, hl⟩ := Grammar.piece_sound hp
    have hn := h.advance hu (hpiece.isText (hu ▸ h.isText))
    rw [← hl] at hn
    rw [next?_of_trivia (ahead?_trivia h hp), ih hn]

theorem guarded_calls_succeed (s : String) (k : Nat) :
    after? s.toUTF8 k = some ((Cursor.ofString s).after k).place ∧
      ((Cursor.ofString s).after k).pos ≤ s.utf8ByteSize ∧
      Text.isBoundary s.toUTF8 ((Cursor.ofString s).after k).pos ∧
      next? s.toUTF8 ((Cursor.ofString s).after k).place =
        some ((Cursor.ofString s).after k).next.outcome := by
  have hbetween (k : Nat) : ((Cursor.ofString s).after k).Between s :=
    Cursor.after_invariant (P := (·.Between s)) (fun _ h => h.next) (Cursor.Between.start s) k
  refine ⟨?_, ?_, (hbetween k).isBoundary, next?_eq (hbetween k)⟩
  · induction k with
    | zero => rfl
    | succ k ih =>
      rw [after?, ih, Option.bind_some, next?_eq (hbetween k)]
      rfl
  · exact Text.le_size_of_isBoundary (hbetween k).isBoundary

/-- The guard does refuse: from inside a character there is no call. -/
example : next? "é".toUTF8 ⟨1, 1⟩ = none := by cbv

end Guarded

end ScriptLexer
