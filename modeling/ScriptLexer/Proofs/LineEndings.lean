import ScriptLexer.Proofs.LexemeBytes
import ScriptLexer.Proofs.LexemeLookahead
import ScriptLexer.Proofs.LineLocations

/-!
Text whose lines end in a carriage return and a line feed. A carriage return put before a line feed
is one more byte of layout, of a string, of a word between backticks or of a comment. No other
lexeme holds either byte, so every rule reads text with the returns as it reads text without them.
-/

namespace ScriptLexer

namespace Bytes

def withReturns (bs : Bytes) : Bytes :=
  bs.flatMap fun b => if b = Byte.lineFeed then [Byte.carriageReturn, Byte.lineFeed] else [b]

@[simp]
theorem withReturns_nil : withReturns [] = [] := rfl

theorem withReturns_lineFeed (bs : Bytes) :
    withReturns (Byte.lineFeed :: bs) =
      Byte.carriageReturn :: Byte.lineFeed :: withReturns bs := rfl

theorem withReturns_cons {b : UInt8} (h : b ≠ Byte.lineFeed) (bs : Bytes) :
    withReturns (b :: bs) = b :: withReturns bs := by
  simp [withReturns, h]

theorem withReturns_append (u v : Bytes) :
    withReturns (u ++ v) = withReturns u ++ withReturns v :=
  List.flatMap_append

theorem withReturns_of_not_mem {bs : Bytes} (h : Byte.lineFeed ∉ bs) : withReturns bs = bs := by
  induction bs with
  | nil => rfl
  | cons b bs ih =>
    have hb : b ≠ Byte.lineFeed := fun he => h (by simp [he])
    rw [withReturns_cons hb, ih fun hm => h (List.mem_cons_of_mem _ hm)]

theorem mem_withReturns {x : UInt8} (hx : x ≠ Byte.carriageReturn) (bs : Bytes) :
    x ∈ withReturns bs ↔ x ∈ bs := by
  induction bs with
  | nil => exact Iff.rfl
  | cons b bs ih =>
    by_cases hb : b = Byte.lineFeed
    · rw [hb, withReturns_lineFeed, List.mem_cons, List.mem_cons, List.mem_cons, ih,
        or_iff_right hx]
    · rw [withReturns_cons hb, List.mem_cons, List.mem_cons, ih]

theorem count_withReturns (bs : Bytes) :
    (withReturns bs).count Byte.lineFeed = bs.count Byte.lineFeed := by
  induction bs with
  | nil => rfl
  | cons b bs ih =>
    by_cases hb : b = Byte.lineFeed
    · rw [hb, withReturns_lineFeed, List.count_cons_of_ne (by decide), List.count_cons_self,
        List.count_cons_self, ih]
    · rw [withReturns_cons hb, List.count_cons_of_ne hb, List.count_cons_of_ne hb, ih]

theorem columnFrom_withReturns (column : Nat) (bs : Bytes) :
    columnFrom column (withReturns bs) = columnFrom column bs := by
  induction bs generalizing column with
  | nil => rfl
  | cons b bs ih =>
    by_cases hb : b = Byte.lineFeed
    · rw [hb, withReturns_lineFeed, columnFrom_cons, columnFrom_cons, columnFrom_cons, if_pos rfl,
        if_pos rfl, ih]
    · rw [withReturns_cons hb, columnFrom_cons, columnFrom_cons, ih]

variable {a b : UInt8} (ha : ¬ Byte.isLayout a) (hb : ¬ Byte.isLayout b)
include hb

theorem head_withReturns (bs : Bytes) : (withReturns bs).head? = some b ↔ bs.head? = some b := by
  cases bs with
  | nil => exact Iff.rfl
  | cons x bs =>
    by_cases hx : x = Byte.lineFeed
    · have hr : Byte.carriageReturn ≠ b := Byte.ne_of_isLayout (by decide) hb
      have hl : Byte.lineFeed ≠ b := Byte.ne_of_isLayout (by decide) hb
      rw [hx, withReturns_lineFeed, List.head?_cons, List.head?_cons, Option.some.injEq,
        Option.some.injEq]
      exact iff_of_false hr hl
    · rw [withReturns_cons hx, List.head?_cons, List.head?_cons]

theorem pair_prefix_withReturns (x : UInt8) (bs : Bytes) :
    [a, b] <+: x :: withReturns bs ↔ [a, b] <+: x :: bs := by
  rw [pair_prefix_iff, pair_prefix_iff, head_withReturns hb]

include ha in
theorem pair_infix_withReturns (bs : Bytes) : [a, b] <:+: withReturns bs ↔ [a, b] <:+: bs := by
  have hr : Byte.carriageReturn ≠ a := Byte.ne_of_isLayout (by decide) ha
  have hl : Byte.lineFeed ≠ a := Byte.ne_of_isLayout (by decide) ha
  induction bs with
  | nil => exact Iff.rfl
  | cons x bs ih =>
    by_cases hx : x = Byte.lineFeed
    · rw [hx, withReturns_lineFeed, Rule.infix_cons_iff_head, Rule.infix_cons_iff_head,
        Rule.infix_cons_iff_head]
      simp [hr, hl, ih]
    · rw [withReturns_cons hx, Rule.infix_cons_iff_head, Rule.infix_cons_iff_head,
        head_withReturns hb]
      exact or_congr_right ih

end Bytes

open Bytes (withReturns withReturns_append withReturns_cons withReturns_lineFeed
  withReturns_of_not_mem)

theorem Replaces.withReturns (after : Bytes) : Replaces after.withReturns after := by
  cases after with
  | nil => exact Replaces.nil []
  | cons b after =>
    by_cases hb : b = Byte.lineFeed
    · rw [hb]
      exact Replaces.layout (by decide) _ _
    · rw [withReturns_cons hb]
      constructor
      · exact fun c hc => Or.inr hc
      · exact fun hp _ => (Bytes.pair_prefix_withReturns (by decide) b after).mpr hp

theorem Operator.ofWord?_withReturns (body : Bytes) :
    ofWord? (Byte.backtick :: (body.withReturns ++ [Byte.backtick])) =
      ofWord? (Byte.backtick :: (body ++ [Byte.backtick])) := by
  by_cases hm : Byte.lineFeed ∈ body
  · have hnone (w : Bytes) (hw : Byte.lineFeed ∈ w) :
        ofWord? (Byte.backtick :: (w ++ [Byte.backtick])) = none := by
      rw [Option.eq_none_iff_forall_ne_some]
      intro o ho
      apply Byte.not_mem_of_isSolid (x := Byte.lineFeed) (by decide) (isSolid_of_ofWord? ho)
      exact List.mem_cons_of_mem _ (List.mem_append_left _ hw)
    rw [hnone body hm, hnone _ ((Bytes.mem_withReturns (by decide) body).mpr hm)]
  · rw [withReturns_of_not_mem hm]

namespace Lexeme

variable {b d : UInt8} {body behind t after rest : Bytes}

theorem length_withReturns_closed (hd : d ≠ Byte.lineFeed) (body : Bytes) :
    (body ++ [d]).withReturns.length + 1 = body.withReturns.length + 2 := by
  rw [withReturns_append, withReturns_cons hd, List.length_append]
  rfl

theorem eq_of_unclosed (hs : rest = t ++ after) (hl : rest.length + 1 = t.length + 1) :
    rest = t := by
  rw [hs, List.length_append] at hl
  have ha : after = [] := List.length_eq_zero_iff.mp (by omega)
  rw [hs, ha, List.append_nil]

theorem front_backtick_withReturns (hm : Byte.backtick ∉ body)
    (hs : body ++ Byte.backtick :: behind = t ++ after) (hl : body.length + 2 = t.length + 1) :
    front Byte.backtick (body ++ Byte.backtick :: behind).withReturns =
      { front Byte.backtick (body ++ Byte.backtick :: behind) with
        length := t.withReturns.length + 1 } := by
  obtain ⟨rfl, rfl⟩ := split_behind hs hl
  have hm' : Byte.backtick ∉ body.withReturns := by rwa [Bytes.mem_withReturns (by decide)]
  rw [length_withReturns_closed (by decide), withReturns_append, withReturns_cons (by decide),
    front_backtick _ hm', front_backtick _ hm, Operator.ofWord?_withReturns]
  cases Operator.ofWord? (Byte.backtick :: (body ++ [Byte.backtick])) <;> rfl

theorem front_solid_withReturns (hs : rest = t ++ after) (hl : (front b rest).length = t.length + 1)
    (hi : (front b rest).issue = none ∨ (front b rest).issue = some .unidentifiedToken)
    (ht : ∀ x ∈ (b :: rest).take (front b rest).length, Byte.isSolid x) :
    front b rest.withReturns = { front b rest with length := t.withReturns.length + 1 } := by
  have hclosed : ∀ i ∈ (front b rest).issue, i.code ∉ openCodes := by
    intro i hmem
    rcases hi with hi | hi
    · rw [hi] at hmem
      cases hmem
    · rw [hi] at hmem
      obtain rfl := Option.some.inj hmem
      decide
  rw [hl, hs, List.take_succ_cons, List.take_left] at ht
  have hm : Byte.lineFeed ∉ t := by
    intro hmem
    exact absurd (ht _ (List.mem_cons_of_mem b hmem)) (by decide)
  have hf := front_replaced hs hl hclosed (Replaces.withReturns after)
  rw [withReturns_of_not_mem hm, ← hl, ← hf, hs, withReturns_append, withReturns_of_not_mem hm]

theorem front_withReturns (hlayout : ¬ Byte.isLayout b) (hs : rest = t ++ after)
    (hl : (front b rest).length = t.length + 1) :
    front b rest.withReturns = { front b rest with length := t.withReturns.length + 1 } := by
  cases b, rest using front_cases with
  | string body behind hm hf =>
    rw [hf] at hl ⊢
    obtain ⟨rfl, rfl⟩ := split_behind hs hl
    rw [length_withReturns_closed (by decide), withReturns_append, withReturns_cons (by decide)]
    apply front_string
    rwa [Bytes.mem_withReturns (by decide)]
  | openString body hm hf =>
    rw [hf] at hl ⊢
    obtain rfl := eq_of_unclosed hs hl
    apply front_openString
    rwa [Bytes.mem_withReturns (by decide)]
  | word body behind o hm ho hf =>
    rw [hf] at hl
    exact front_backtick_withReturns hm hs hl
  | unknownWord body behind hm ho hf =>
    rw [hf] at hl
    exact front_backtick_withReturns hm hs hl
  | openBacktick body hm hf =>
    rw [hf] at hl ⊢
    obtain rfl := eq_of_unclosed hs hl
    apply front_openBacktick
    rwa [Bytes.mem_withReturns (by decide)]
  | openComment body hf =>
    rw [hf] at hl ⊢
    obtain rfl := eq_of_unclosed hs hl
    rw [withReturns_cons (by decide), front_openComment]
    rfl
  | number b rest hn hf =>
    apply front_solid_withReturns hs hl (by simp [hf])
    rw [hf]
    exact number_isSolid hn
  | name b rest hstart hf =>
    apply front_solid_withReturns hs hl (by simp [hf])
    rw [hf, List.take_succ_cons]
    exact name_isSolid hstart rest
  | symbol b rest p hp hn hc hf =>
    apply front_solid_withReturns hs hl (by simp [hf])
    rw [hf]
    exact symbol_isSolid hp
  | stray b rest hq hb hn hname hp hf =>
    apply front_solid_withReturns hs hl (by simp [hf])
    rw [hf, List.take_succ_cons]
    apply stray_isSolid
    simp [Byte.isSolid, hlayout, hq]

end Lexeme

namespace Trivia

theorem piece_openComment_iff (body : Bytes) :
    piece (Byte.slash :: Byte.star :: body) = 0 ↔ ¬ [Byte.star, Byte.slash] <:+: body := by
  rw [← Rule.throughPair?_eq_none_iff]
  constructor
  · exact Grammar.throughPair?_of_piece
  · intro h
    have hc : comment (Byte.star :: body) = 0 := by
      rw [comment, if_neg (by decide), if_pos rfl, h, Option.elim_none]
    rw [piece, if_neg (by decide), if_neg fun hs => hs.2 hc]

theorem piece_withReturns {b : UInt8} {rest : Bytes} (h : piece (b :: rest) = 0) :
    piece (b :: rest.withReturns) = 0 := by
  by_cases hc : [Byte.slash, Byte.star] <+: b :: rest
  · obtain ⟨body, hs⟩ := hc
    obtain ⟨rfl, rfl⟩ := List.cons.inj hs
    have hopen : [Byte.star].append body = Byte.star :: body := rfl
    rw [hopen, piece_openComment_iff] at h
    rwa [hopen, withReturns_cons (by decide), piece_openComment_iff,
      Bytes.pair_infix_withReturns (by decide) (by decide)]
  · have hc' : ¬ [Byte.slash, Byte.star] <+: b :: rest.withReturns := by
      rwa [Bytes.pair_prefix_withReturns (by decide)]
    rw [piece_eq_zero_iff hc', Bytes.pair_prefix_withReturns (by decide)]
    exact (piece_eq_zero_iff hc).mp h

end Trivia

namespace Grammar

theorem Gap.of_layout_cons {b : UInt8} {g after : Bytes} (hb : Byte.isLayout b)
    (h : Gap (b :: g) after) : Gap g after := by
  generalize hs : b :: g = v at h
  cases h with
  | nil => cases hs
  | cons p g' after hp hg =>
    cases hp with
    | layout c after hc =>
      obtain rfl := (List.cons.inj hs).2
      exact hg
    | line body after hbody ha =>
      obtain rfl := (List.cons.inj hs).1
      exact absurd hb (by decide)
    | block body after hbody =>
      obtain rfl := (List.cons.inj hs).1
      exact absurd hb (by decide)

theorem Gap.withReturns {g after : Bytes} (h : Gap g after)
    (ha : after.head? ≠ some Byte.lineFeed) : Gap g.withReturns after.withReturns := by
  induction h with
  | nil after => exact Gap.nil _
  | cons p g after hp hg ih =>
    have hgap := ih ha
    rw [withReturns_append]
    cases hp with
    | layout b after hb =>
      by_cases hl : b = Byte.lineFeed
      · rw [hl]
        apply Gap.cons [Byte.carriageReturn] (Byte.lineFeed :: g.withReturns)
        · exact Piece.layout _ _ (by decide)
        · exact Gap.cons [Byte.lineFeed] _ _ (Piece.layout _ _ (by decide)) hgap
      · rw [withReturns_cons hl]
        exact Gap.cons [b] _ _ (Piece.layout b _ hb) hgap
    | line body after hb hend =>
      have hm : Byte.lineFeed ∉ Byte.slash :: Byte.slash :: body := by
        simp [hb, show Byte.lineFeed ≠ Byte.slash by decide]
      rw [withReturns_of_not_mem hm]
      cases g with
      | nil =>
        have hnil := hend.resolve_right ha
        apply Gap.cons _ [] _ _ hgap
        apply Piece.line body _ hb
        left
        rw [List.nil_append] at hnil
        rw [hnil]
        rfl
      | cons c g =>
        -- The comment now takes the return that stands before the line feed at its end.
        obtain rfl : c = Byte.lineFeed := by simpa using hend
        rw [withReturns_lineFeed] at hgap ⊢
        rw [List.append_cons]
        apply Gap.cons _ (Byte.lineFeed :: Bytes.withReturns g) _ _
          (hgap.of_layout_cons (by decide))
        apply Piece.line (body ++ [Byte.carriageReturn])
        · simp [hb, show Byte.lineFeed ≠ Byte.carriageReturn by decide]
        · exact Or.inr rfl
    | block body after hb =>
      rw [withReturns_cons (by decide), withReturns_cons (by decide), withReturns_append]
      apply Gap.cons _ _ _ _ hgap
      apply Piece.block body.withReturns
      rwa [Bytes.pair_infix_withReturns (by decide) (by decide)]

end Grammar

end ScriptLexer
