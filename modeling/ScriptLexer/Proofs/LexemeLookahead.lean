import Mathlib.Data.List.Find
import ScriptLexer.Proofs.MalformedTokens

/-!
How far a lexeme looks ahead: at the byte after it, and a number at two points after it. What
follows a closed lexeme can be replaced by layout, by nothing, or by text that begins alike.
-/

namespace ScriptLexer

namespace Byte

variable {x : UInt8}

theorem isLayout_cases (h : isLayout x) :
    x = blank ∨ x = tab ∨ x = carriageReturn ∨ x = lineFeed := by
  simpa only [isLayout, Bool.or_eq_true, beq_iff_eq, or_assoc] using h

theorem not_of_isLayout {p : UInt8 → Bool}
    (hp : [blank, tab, carriageReturn, lineFeed].any p = false) (h : isLayout x) : ¬ p x := by
  rw [List.any_eq_false] at hp
  apply hp
  rcases isLayout_cases h with rfl | rfl | rfl | rfl <;> simp

theorem ne_of_isLayout {b : UInt8} (hx : isLayout x) (hb : ¬ isLayout b) : x ≠ b := by
  rintro rfl
  exact hb hx

end Byte

theorem singleton_prefix_iff (b : UInt8) (bs : Bytes) : [b] <+: bs ↔ bs.head? = some b := by
  cases bs with
  | nil => simp
  | cons c bs => simp [List.cons_prefix_cons, eq_comm]

theorem pair_prefix_iff (a b c : UInt8) (bs : Bytes) :
    [a, b] <+: c :: bs ↔ c = a ∧ bs.head? = some b := by
  rw [List.cons_prefix_cons, singleton_prefix_iff, eq_comm]

theorem pair_no_layout {a b : UInt8} (ha : ¬ Byte.isLayout a) (hb : ¬ Byte.isLayout b) :
    ∀ x ∈ [a, b], ¬ Byte.isLayout x :=
  List.forall_mem_cons.mpr ⟨ha, List.forall_mem_singleton.mpr hb⟩

structure Replaces (after' after : Bytes) : Prop where
  head : ∀ b ∈ after'.head?, Byte.isLayout b ∨ b ∈ after.head?
  range : [Byte.point, Byte.point] <+: after → Byte.point ∈ after'.head? →
    [Byte.point, Byte.point] <+: after'

namespace Replaces

variable {after after' : Bytes}

theorem nil (after : Bytes) : Replaces [] after :=
  ⟨fun _ hb => absurd hb (by simp), fun _ hp => absurd hp (by simp)⟩

theorem layout {x : UInt8} (hx : Byte.isLayout x) (more after : Bytes) :
    Replaces (x :: more) after := by
  constructor
  · intro b hb
    obtain rfl : x = b := Option.some.inj hb
    exact Or.inl hx
  · intro _ hp
    obtain rfl : x = Byte.point := Option.some.inj hp
    exact absurd hx (by decide)

theorem append {w : Bytes} (hw : w ≠ []) (u v : Bytes)
    (hr : [Byte.point, Byte.point] <+: w ++ u → [Byte.point, Byte.point] <+: w) :
    Replaces (w ++ v) (w ++ u) := by
  obtain ⟨b, w, rfl⟩ := List.exists_cons_of_ne_nil hw
  constructor
  · exact fun c hc => Or.inr hc
  · exact fun hp _ => (hr hp).trans (List.prefix_append _ _)

theorem of_layout_behind {x : UInt8} (hx : Byte.isLayout x) (after more : Bytes) :
    Replaces (after ++ x :: more) after := by
  cases after with
  | nil => exact layout hx more []
  | cons b after =>
    constructor
    · exact fun c hc => Or.inr hc
    · exact fun hp _ => hp.trans (List.prefix_append _ _)

theorem head_not {p : UInt8 → Bool} (h : Replaces after' after)
    (hp : ∀ {b}, Byte.isLayout b → ¬ p b) (hz : ∀ b ∈ after.head?, ¬ p b) :
    ∀ b ∈ after'.head?, ¬ p b := by
  intro b hb
  rcases h.head b hb with hlayout | hsame
  · exact hp hlayout
  · exact hz b hsame

theorem prefix_of {p t : Bytes} (h : Replaces after' after) (hl : p.length ≤ t.length + 1)
    (hp : ∀ b ∈ p, ¬ Byte.isLayout b) (hs : p <+: t ++ after') : p <+: t ++ after := by
  by_cases hle : p.length ≤ t.length
  · exact (List.prefix_of_prefix_length_le hs (List.prefix_append t after') hle).trans
      (List.prefix_append t after)
  obtain ⟨q, rfl⟩ := List.prefix_of_prefix_length_le (List.prefix_append t after') hs (by omega)
  rw [List.length_append] at hl hle
  obtain ⟨b, rfl⟩ : ∃ b, q = [b] := List.length_eq_one_iff.mp (by omega)
  rw [List.prefix_append_right_inj, singleton_prefix_iff] at hs ⊢
  exact (h.head b hs).resolve_left (hp b (by simp))

end Replaces

namespace Rule

def Stable (after' after : Bytes) (f : Rule) : Prop :=
  ∀ w, f (w ++ after) ≤ w.length → f (w ++ after') = f (w ++ after)

def OpensWith (p : UInt8 → Bool) (f : Rule) : Prop :=
  ∀ bs, f bs = 0 ↔ ∀ b ∈ bs.head?, ¬ p b

theorem opensWith_run (p : UInt8 → Bool) : (run p).OpensWith p := by
  intro bs
  cases bs with
  | nil => simp [run]
  | cons b bs => simp [run_cons]

theorem opensWith_sign : sign.OpensWith Byte.isSign := by
  intro bs
  cases bs with
  | nil => simp [sign]
  | cons b bs => simp [sign]

theorem opensWith_exponent : exponent.OpensWith Byte.isExponentMark := by
  intro bs
  cases bs with
  | nil => simp [exponent]
  | cons b bs => simp [exponent]

variable {after after' : Bytes} {f g : Rule}

theorem Stable.andThen (hf : f.Stable after' after) (hg : g.Stable after' after) :
    (f.andThen g).Stable after' after := by
  intro w hl
  have hfl : f (w ++ after) ≤ w.length := Nat.le_trans (le_andThen f g _) hl
  rw [Rule.andThen, List.drop_append_of_le_length hfl] at hl
  have hgl : g (w.drop (f (w ++ after)) ++ after) ≤ (w.drop (f (w ++ after))).length := by
    rw [List.length_drop]
    omega
  rw [Rule.andThen, Rule.andThen, hf w hfl, List.drop_append_of_le_length hfl,
    List.drop_append_of_le_length hfl, hg _ hgl]

theorem fraction_point (rest : Bytes) : digits.andThen exponent (Byte.point :: rest) = 0 := by
  rw [andThen_of_eq_zero (by rw [digits, run_cons, if_neg (by decide)]), exponent,
    if_neg (by decide)]

theorem head_behind_point
    (hv : point.andThen (digits.andThen exponent) ([Byte.point] ++ after) = 1) :
    after.head? ≠ some Byte.point := by
  intro hp
  have hz : point ([Byte.point] ++ after) = 0 := by simp [point, hp]
  rw [andThen_of_eq_zero hz, List.singleton_append, fraction_point] at hv
  exact absurd hv (by decide)

variable (h : Replaces after' after)
include h

theorem OpensWith.replaced {p : UInt8 → Bool} (hf : f.OpensWith p)
    (hp : ∀ {b}, Byte.isLayout b → ¬ p b) (hl : f after ≤ 0) : f after' = f after := by
  have hz := Nat.le_zero.mp hl
  rw [hz, hf]
  exact h.head_not hp ((hf after).mp hz)

theorem stable_run {p : UInt8 → Bool} (hp : ∀ {b}, Byte.isLayout b → ¬ p b) :
    (run p).Stable after' after := by
  intro w hl
  induction w with
  | nil => exact (opensWith_run p).replaced h hp hl
  | cons b w ih =>
    rw [List.cons_append, run_cons] at hl ⊢
    rw [List.cons_append, run_cons]
    split at hl
    · next hb => rw [if_pos hb, if_pos hb, ih (Nat.le_of_succ_le_succ hl)]
    · next hb => rw [if_neg hb, if_neg hb]

theorem stable_digits : digits.Stable after' after :=
  stable_run h (Byte.not_of_isLayout (by decide))

theorem stable_sign : sign.Stable after' after := by
  intro w hl
  cases w with
  | nil => exact opensWith_sign.replaced h (Byte.not_of_isLayout (by decide)) hl
  | cons b w => rfl

theorem stable_exponent : exponent.Stable after' after := by
  intro w hl
  cases w with
  | nil => exact opensWith_exponent.replaced h (Byte.not_of_isLayout (by decide)) hl
  | cons b w =>
    rw [List.cons_append, exponent] at hl ⊢
    rw [List.cons_append, exponent]
    split at hl
    · next hb =>
      have hs := (stable_sign h).andThen (stable_digits h) w (by rw [List.length_cons] at hl; omega)
      rw [if_pos hb, if_pos hb, hs]
    · next hb => rw [if_neg hb, if_neg hb]

theorem stable_fraction : (digits.andThen exponent).Stable after' after :=
  (stable_digits h).andThen (stable_exponent h)

theorem point_replaced (hz : point after = 0) : point after' = 0 := by
  rcases Grammar.point_cases after' with hz' | ⟨rest, rfl, hrest⟩
  · exact hz'
  have hsame := (h.head Byte.point rfl).resolve_left (by decide)
  obtain ⟨more, rfl⟩ := List.head?_eq_some_iff.mp hsame
  have hrange : more.head? = some Byte.point := by
    by_contra hm
    rw [Grammar.point_cons hm] at hz
    exact absurd hz (by decide)
  obtain ⟨tail, rfl⟩ := List.head?_eq_some_iff.mp hrange
  obtain ⟨tail, rfl⟩ := (List.cons_prefix_cons.mp (h.range ⟨tail, rfl⟩ rfl)).2
  exact absurd rfl hrest

theorem pointed_replaced {v : Bytes}
    (hv : point.andThen (digits.andThen exponent) (v ++ after) = v.length) :
    point.andThen (digits.andThen exponent) (v ++ after') = v.length := by
  have hpl : point (v ++ after) ≤ v.length := hv ▸ le_andThen _ _ _
  have hpoint : point (v ++ after') = point (v ++ after) := by
    rcases v with _ | ⟨b, _ | ⟨c, v⟩⟩
    · have hz : point after = 0 := Nat.le_zero.mp hpl
      rw [List.nil_append, List.nil_append, hz, point_replaced h hz]
    · by_cases hb : b = Byte.point
      -- A point that the number takes last is not the first point of a range: none follows it.
      · subst hb
        have hne := head_behind_point hv
        have hne' : after'.head? ≠ some Byte.point := by
          intro hp
          exact hne ((h.head _ hp).resolve_left (by decide))
        rw [List.singleton_append, List.singleton_append, Grammar.point_cons hne,
          Grammar.point_cons hne']
      · simp [point, hb]
    · rfl
  rw [Rule.andThen, List.drop_append_of_le_length hpl] at hv
  have hf := stable_fraction h (v.drop (point (v ++ after))) (by rw [List.length_drop]; omega)
  rw [Rule.andThen, hpoint, List.drop_append_of_le_length hpl, hf, hv]

theorem number_replaced {w : Bytes} (hw : number (w ++ after) = w.length) :
    number (w ++ after') = w.length := by
  have hl : digits (w ++ after) ≤ w.length := hw ▸ le_andThen _ _ _
  rw [number, Rule.andThen, List.drop_append_of_le_length hl] at hw
  have hv := pointed_replaced h (v := w.drop (digits (w ++ after)))
    (by rw [List.length_drop]; omega)
  rw [number, Rule.andThen, stable_digits h w hl, List.drop_append_of_le_length hl, hv,
    List.length_drop]
  omega

end Rule

namespace Operator

theorem symbols_length : ∀ p ∈ symbols, p.1.length ≤ 2 := by
  decide

theorem symbols_no_layout : ∀ p ∈ symbols, ∀ b ∈ p.1, ¬ Byte.isLayout b := by
  decide +kernel

theorem symbolAt?_replaced {after after' : Bytes} (h : Replaces after' after) {w : Bytes}
    (hw : w ≠ []) (hlongest : ∀ p ∈ symbols, p.1 <+: w ++ after → p.1.length ≤ w.length) :
    symbolAt? (w ++ after') = symbolAt? (w ++ after) := by
  have hpos := List.length_pos_iff.mpr hw
  apply List.find?_congr
  intro p hp
  rw [Bool.eq_iff_iff, List.isPrefixOf_iff_prefix, List.isPrefixOf_iff_prefix]
  constructor
  · have := symbols_length p hp
    exact h.prefix_of (by omega) (symbols_no_layout p hp)
  · intro hs
    exact (List.prefix_of_prefix_length_le hs (List.prefix_append w after)
      (hlongest p hp hs)).trans (List.prefix_append w after')

end Operator

namespace Lexeme

variable {b : UInt8} {t after after' : Bytes}

theorem beginsNumber_replaced (h : Replaces after' after) (hn : ¬ beginsNumber b (t ++ after)) :
    ¬ beginsNumber b (t ++ after') := by
  cases t with
  | nil =>
    simp only [beginsNumber, List.nil_append, Bool.or_eq_true, Bool.and_eq_true, beq_iff_eq,
      Option.any_eq_true, not_or, not_and, not_exists] at hn ⊢
    refine ⟨hn.1, fun hb => ?_⟩
    exact h.head_not (Byte.not_of_isLayout (by decide)) (hn.2 hb)
  | cons c t => exact hn

theorem beginsNumber_kept (hn : beginsNumber b (t ++ after))
    (hl : Rule.number (b :: (t ++ after)) = t.length + 1) : beginsNumber b (t ++ after') := by
  cases t with
  | nil =>
    rcases Grammar.beginsNumber_cases hn with hb | ⟨rfl, d, more, rfl, hd⟩
    · exact Grammar.beginsNumber_of_isDigit _ hb
    -- A point that begins a number takes the digit behind it, so it is not the whole lexeme.
    · have hw : Grammar.Number (Byte.point :: ([d] ++ [])) more :=
        Grammar.Number.fraction [d] [] more (by simp) (by simpa [Grammar.Digits] using hd)
          Grammar.Exponent.absent
      have hlong := Grammar.number_longest hw
      rw [show Byte.point :: ([d] ++ []) ++ more = Byte.point :: ([] ++ d :: more) from rfl,
        hl] at hlong
      exact absurd hlong (by simp)
  | cons c t => exact hn

theorem not_open_of_issue {i : Issue} {kind : Kind} {n : Nat} {l : Lexeme}
    (hl : l = ⟨kind, n, some i⟩) (h : ∀ j ∈ l.issue, j.code ∉ openCodes) : i.code ∉ openCodes := by
  apply h
  rw [hl]
  rfl

theorem split_behind {d : UInt8} {body behind : Bytes} (hs : body ++ d :: behind = t ++ after)
    (hl : body.length + 2 = t.length + 1) : t = body ++ [d] ∧ behind = after := by
  rw [List.append_cons] at hs
  obtain ⟨ht, ha⟩ := List.append_inj hs (by rw [List.length_append, List.length_singleton]; omega)
  exact ⟨ht.symm, ha⟩

theorem backtick_replaced {body behind : Bytes} (hm : Byte.backtick ∉ body)
    (hs : body ++ Byte.backtick :: behind = t ++ after) (hl : body.length + 2 = t.length + 1) :
    front Byte.backtick (t ++ after') = front Byte.backtick (body ++ Byte.backtick :: behind) := by
  obtain ⟨rfl, rfl⟩ := split_behind hs hl
  rw [← List.append_cons, front_backtick _ hm, front_backtick _ hm]

theorem front_replaced {rest : Bytes} (hs : rest = t ++ after)
    (hl : (front b rest).length = t.length + 1)
    (hclosed : ∀ i ∈ (front b rest).issue, i.code ∉ openCodes) (h : Replaces after' after) :
    front b (t ++ after') = front b rest := by
  cases b, rest using front_cases with
  | string body behind hm hf =>
    rw [hf] at hl ⊢
    obtain ⟨rfl, rfl⟩ := split_behind hs hl
    rw [← List.append_cons, front_string _ hm]
  | openString _ hm hf => exact absurd (by decide) (not_open_of_issue hf hclosed)
  | word body behind o hm ho hf => exact backtick_replaced hm hs (by rw [hf] at hl; exact hl)
  | unknownWord body behind hm ho hf => exact backtick_replaced hm hs (by rw [hf] at hl; exact hl)
  | openBacktick _ hm hf => exact absurd (by decide) (not_open_of_issue hf hclosed)
  | number b rest hn hf =>
    subst hs
    rw [hf] at hl ⊢
    have hlength : Rule.number (b :: t ++ after) = (b :: t).length := hl
    rw [front_number (beginsNumber_kept hn hl), ← List.cons_append, ← List.cons_append,
      Rule.number_replaced h hlength, hlength]
  | name b rest hstart hf =>
    subst hs
    rw [hf] at hl
    have hlength : Rule.run Byte.isNamePart (t ++ after) = t.length := Nat.succ.inj hl
    have hrun := Rule.stable_run h (Byte.not_of_isLayout (by decide)) t (Nat.le_of_eq hlength)
    rw [front_name _ hstart, hf, hrun, hlength, List.take_left, List.take_left]
  | openComment body hf => exact absurd (by decide) (not_open_of_issue hf hclosed)
  | symbol b rest p hp hn hc hf =>
    subst hs
    rw [hf] at hl
    have hlongest := (Operator.symbolAt?_longest hp).2.2
    have hlength : p.1.length = (b :: t).length := hl
    rw [hlength, ← List.cons_append] at hlongest
    rw [hf]
    apply front_symbol
    · rw [← List.cons_append, Operator.symbolAt?_replaced h (List.cons_ne_nil b t) hlongest]
      exact hp
    · exact beginsNumber_replaced h hn
    · intro hcomment
      exact hc (h.prefix_of (t := b :: t) (by simp) (pair_no_layout (by decide) (by decide)) hcomment)
  | stray b rest hq hb hn hname hp hf =>
    subst hs
    rw [hf] at hl
    have hnone := Operator.not_prefix_of_symbolAt? hp
    have hrun := Rule.stable_run h (Byte.not_of_isLayout (by decide)) t
      (Nat.le_of_eq (Nat.succ.inj hl))
    have hp' : Operator.symbolAt? (b :: t ++ after') = none := by
      rw [Operator.symbolAt?_replaced h (List.cons_ne_nil b t)
        (fun p hmem hs => absurd hs (hnone p hmem))]
      exact hp
    rw [front_stray hq hb (beginsNumber_replaced h hn) hname hp', hf, hrun]

end Lexeme

namespace Trivia

theorem comment_eq_zero_iff {rest : Bytes} (hs : rest.head? ≠ some Byte.star) :
    comment rest = 0 ↔ rest.head? ≠ some Byte.slash := by
  cases rest with
  | nil => simp [comment]
  | cons c rest =>
    have hstar : c ≠ Byte.star := fun he => hs (congrArg some he)
    simp [comment, hstar]

theorem piece_eq_zero_iff {b : UInt8} {rest : Bytes}
    (hc : ¬ [Byte.slash, Byte.star] <+: b :: rest) :
    piece (b :: rest) = 0 ↔ ¬ Byte.isLayout b ∧ ¬ [Byte.slash, Byte.slash] <+: b :: rest := by
  rw [pair_prefix_iff] at hc ⊢
  by_cases hlayout : Byte.isLayout b
  · simp [piece, hlayout]
  rw [piece, if_neg hlayout]
  by_cases hb : b = Byte.slash
  · have hzero := comment_eq_zero_iff fun hs => hc ⟨hb, hs⟩
    by_cases hcomment : comment rest = 0
    · rw [if_neg fun hs => hs.2 hcomment]
      exact ⟨fun _ => ⟨hlayout, fun hs => hzero.mp hcomment hs.2⟩, fun _ => rfl⟩
    · rw [if_pos ⟨hb, hcomment⟩]
      refine ⟨fun hs => absurd hs (Nat.succ_ne_zero _), fun hs => ?_⟩
      exact absurd (hzero.mpr fun hslash => hs.2 ⟨hb, hslash⟩) hcomment
  · rw [if_neg fun hs => hb hs.1]
    exact ⟨fun _ => ⟨hlayout, fun hs => hb hs.1⟩, fun _ => rfl⟩

variable {b : UInt8} {t after after' : Bytes}

theorem piece_replaced (hz : piece (b :: (t ++ after)) = 0)
    (hclosed : ∀ i ∈ (Lexeme.front b (t ++ after)).issue, i.code ∉ openCodes)
    (h : Replaces after' after) : piece (b :: (t ++ after')) = 0 := by
  have hc : ¬ [Byte.slash, Byte.star] <+: b :: (t ++ after) := by
    rw [pair_prefix_iff]
    rintro ⟨rfl, hs⟩
    obtain ⟨body, hs⟩ := List.head?_eq_some_iff.mp hs
    rw [hs] at hclosed
    exact absurd (by decide) (Lexeme.not_open_of_issue (Lexeme.front_openComment body) hclosed)
  have hc' : ¬ [Byte.slash, Byte.star] <+: b :: (t ++ after') :=
    fun hp => hc (h.prefix_of (t := b :: t) (by simp) (pair_no_layout (by decide) (by decide)) hp)
  obtain ⟨hlayout, hline⟩ := (piece_eq_zero_iff hc).mp hz
  rw [piece_eq_zero_iff hc']
  refine ⟨hlayout, fun hp => hline ?_⟩
  exact h.prefix_of (t := b :: t) (by simp) (pair_no_layout (by decide) (by decide)) hp

end Trivia

namespace Grammar

theorem Piece.replaced {p after after' : Bytes} (h : Piece p after)
    (hh : ∀ b ∈ after'.head?, b = Byte.lineFeed ∨ b ∈ after.head?) : Piece p after' := by
  cases h with
  | layout b after hb => exact Piece.layout b _ hb
  | block body after hb => exact Piece.block body _ hb
  | line body after hb ha =>
    apply Piece.line body _ hb
    cases after' with
    | nil => exact Or.inl rfl
    | cons b after' =>
      right
      rcases hh b rfl with rfl | hsame
      · rfl
      · rcases ha with rfl | ha
        · cases hsame
        · exact (Option.mem_unique hsame ha) ▸ rfl

theorem Gap.replaced {g after after' : Bytes} (h : Gap g after)
    (hh : ∀ b ∈ after'.head?, b = Byte.lineFeed ∨ b ∈ after.head?) : Gap g after' := by
  induction h with
  | nil after => exact Gap.nil _
  | cons p g after hp hg ih =>
    apply Gap.cons p g _ _ (ih hh)
    apply hp.replaced
    cases g with
    | nil => exact hh
    | cons c g => exact fun b hb => Or.inr hb

theorem gap_of_layout {g : Bytes} (hg : ∀ b ∈ g, Byte.isLayout b) (after : Bytes) :
    Gap g after := by
  induction g with
  | nil => exact Gap.nil after
  | cons b g ih =>
    exact Gap.cons [b] g after (Piece.layout b _ (hg b List.mem_cons_self))
      (ih fun c hc => hg c (List.mem_cons_of_mem b hc))

end Grammar

end ScriptLexer
