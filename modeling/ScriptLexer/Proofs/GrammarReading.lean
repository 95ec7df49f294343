import ScriptLexer.Proofs.LongestWords
import ScriptLexer.Proofs.TextCharacters
import ScriptLexer.Proofs.TriviaGaps

namespace ScriptLexer.Grammar

open Lexeme (front beginsNumber front_cases)

theorem not_comment {b : UInt8} (rest : Bytes) (h : b ≠ Byte.slash) :
    ¬ [Byte.slash, Byte.star] <+: b :: rest :=
  fun hp => h (List.cons_prefix_cons.mp hp).1.symm

def FrontReads (b : UInt8) (rest : Bytes) : Prop :=
  ∃ w after, b :: rest = w ++ after ∧ Reads w after (front b rest).kind ∧
    (front b rest).length = w.length

theorem frontReads_word {b : UInt8} {rest : Bytes} (w after : Bytes) (hs : b :: rest = w ++ after)
    (hc : ¬ [Byte.slash, Byte.star] <+: b :: rest) (hw : Word w after (front b rest).kind)
    (hl : (front b rest).length = w.length) : FrontReads b rest := by
  refine ⟨w, after, hs, Reads.word w after _ (hs ▸ hc) hw ?_, hl⟩
  intro v r j hv hword
  rw [← hl]
  exact (hword.front_correct (hs.trans hv) hc).1

theorem frontReads_backtick {body after : Bytes} {k : Kind} {issue : Option Issue}
    (hm : Byte.backtick ∉ body) (hk : backtickKind (Byte.backtick :: (body ++ [Byte.backtick])) = k)
    (hf : front Byte.backtick (body ++ Byte.backtick :: after) = ⟨k, body.length + 2, issue⟩) :
    FrontReads Byte.backtick (body ++ Byte.backtick :: after) := by
  apply frontReads_word (Byte.backtick :: (body ++ [Byte.backtick])) after (by simp)
    (not_comment _ (by decide))
  · rw [hf, ← hk]
    exact Word.backtick body after hm
  · simp [hf]

theorem throughPair?_of_piece {body : Bytes}
    (h : Trivia.piece (Byte.slash :: Byte.star :: body) = 0) :
    Rule.throughPair? Byte.star Byte.slash body = none := by
  cases hp : Rule.throughPair? Byte.star Byte.slash body with
  | none => rfl
  | some n =>
    have hcomment : Trivia.comment (Byte.star :: body) = n + 1 := by
      rw [Trivia.comment, if_neg (by decide), if_pos rfl, hp, Option.elim_some]
    rw [piece_slash (by omega)] at h
    omega

theorem run_isContinuation {b : UInt8} {rest : Bytes} (ht : Bytes.IsText (b :: rest)) :
    ∃ c tail after, rest = tail ++ after ∧ String.utf8EncodeChar c = b :: tail ∧
      Rule.run Byte.isContinuation rest = tail.length := by
  obtain ⟨cs, hcs⟩ := ht
  rcases cs with _ | ⟨c, cs⟩
  · cases hcs
  obtain ⟨x, tail, hx, -, htail⟩ := Bytes.utf8EncodeChar_eq_cons c
  rw [Bytes.ofChars_cons, hx, List.cons_append, List.cons.injEq] at hcs
  obtain ⟨rfl, rfl⟩ := hcs
  refine ⟨c, tail, Bytes.ofChars cs, rfl, hx, ?_⟩
  rw [Rule.run_append _ htail,
    Rule.run_eq_zero (fun _ hh => Bytes.not_isContinuation_of_head hh), Nat.add_zero]

theorem front_reads {b : UInt8} {rest : Bytes} (ht : Bytes.IsText (b :: rest))
    (hp : Trivia.piece (b :: rest) = 0) : FrontReads b rest := by
  cases b, rest using front_cases with
  | string body after hm hf =>
    apply frontReads_word (Byte.quote :: (body ++ [Byte.quote])) after (by simp)
      (not_comment _ (by decide))
    · rw [hf]
      exact Word.string body after hm
    · simp [hf]
  | openString _ hm hf =>
    refine ⟨Byte.quote :: rest, [], (List.append_nil _).symm, ?_, by rw [hf, List.length_cons]⟩
    rw [hf]
    exact Reads.openString rest (not_beginsWord_quote hm)
  | word body after o hm ho hf => exact frontReads_backtick hm (by rw [backtickKind, ho]; rfl) hf
  | unknownWord body after hm ho hf =>
    exact frontReads_backtick hm (by rw [backtickKind, ho]; rfl) hf
  | openBacktick _ hm hf =>
    refine ⟨Byte.backtick :: rest, [], (List.append_nil _).symm, ?_, by rw [hf, List.length_cons]⟩
    rw [hf]
    exact Reads.openBacktick rest (not_beginsWord_backtick hm)
  | number b rest hn hf =>
    have hb : b ≠ Byte.slash := by
      rintro rfl
      exact Lexeme.not_beginsNumber rest (by decide) (by decide) hn
    obtain ⟨w, after, hs, hw, hl⟩ := number_sound hn
    apply frontReads_word w after hs (not_comment rest hb)
    · rw [hf]
      exact Word.number w after hw
    · rw [hf, hl]
  | name b rest hstart hf =>
    have hb : b ≠ Byte.slash := by
      rintro rfl
      exact absurd hstart (by decide)
    let n := Rule.run Byte.isNamePart rest
    have hn : n ≤ rest.length := Rule.run_le Byte.isNamePart rest
    apply frontReads_word (b :: rest.take n) (rest.drop n) (by simp)
      (not_comment rest hb)
    · rw [hf]
      exact Word.name b _ _ hstart (fun _ hc => Rule.of_mem_take_run hc)
    · rw [hf, List.length_cons, List.length_take, Nat.min_eq_left hn]
  | openComment body hf =>
    refine ⟨Byte.slash :: Byte.star :: body, [], (List.append_nil _).symm, ?_, by rw [hf]; rfl⟩
    rw [hf]
    exact Reads.openComment body (Rule.not_infix_of_throughPair? (throughPair?_of_piece hp))
  | symbol b rest p h hn hc hf =>
    obtain ⟨hm, ⟨after, hs⟩, -⟩ := Operator.symbolAt?_longest h
    obtain ⟨s, hsp, he⟩ := Operator.spelling_of_mem_symbols _ hm
    apply frontReads_word p.1 after hs.symm hc
    · rw [hf, show p.1 = Bytes.ofString s from he]
      exact Word.operator p.2 s after hsp
    · rw [hf]
  | stray b rest hq hb hn hname h hf =>
    obtain ⟨c, tail, after, rfl, hx, hrun⟩ := run_isContinuation ht
    have hnot := not_beginsWord (fun he => absurd he hq) (fun he => absurd he hb) hn hname
      (Operator.not_prefix_of_symbolAt? h)
    refine ⟨String.utf8EncodeChar c, after, by rw [hx, List.cons_append], ?_,
      by rw [hf, hrun, hx, List.length_cons]⟩
    rw [hf]
    apply Reads.stray c after (by rwa [hx, List.cons_append])
    · rw [hx]
      exact fun he => hq (List.cons.inj he).1
    · rw [hx]
      exact fun he => hb (List.cons.inj he).1

theorem Reads.front_correct {w after : Bytes} {k : Kind} (h : Reads w after k) {b : UInt8}
    {rest : Bytes} (hs : b :: rest = w ++ after) (ht : Bytes.IsText (b :: rest))
    (hp : Trivia.piece (b :: rest) = 0) :
    (front b rest).length = w.length ∧ (front b rest).kind = k := by
  obtain ⟨v, r, hv, hr, hl⟩ := front_reads ht hp
  cases h with
  | endOfText => cases hs
  | openComment body hi =>
    rw [List.append_nil, List.cons.injEq] at hs
    obtain ⟨rfl, rfl⟩ := hs
    rw [Lexeme.front_openComment]
    exact ⟨rfl, rfl⟩
  | word w after k hc hw hlongest =>
    have hle := (hw.front_correct hs (hs ▸ hc)).1
    have hword : BeginsWord (w ++ after) := ⟨w, after, k, rfl, hw⟩
    have hle' : (front b rest).length ≤ w.length := by
      rw [hs] at hv
      generalize (front b rest).kind = j at hr
      cases hr with
      | endOfText => rw [hl]; exact Nat.zero_le _
      | openComment body hi => exact absurd ⟨body, by rw [hv]; simp⟩ hc
      | word v r j _ hv' _ => rw [hl]; exact hlongest v r j hv hv'
      | openString body hno => exact absurd (by rwa [hv, List.append_nil] at hword) hno
      | openBacktick body hno => exact absurd (by rwa [hv, List.append_nil] at hword) hno
      | stray c r hno => exact absurd (hv ▸ hword) hno
    have he := Nat.le_antisymm hle' hle
    exact ⟨he, (hw.front_correct hs (hs ▸ hc)).2 he.symm⟩
  | openString body hno =>
    rw [List.append_nil, List.cons.injEq] at hs
    obtain ⟨rfl, rfl⟩ := hs
    rw [Lexeme.front_openString (fun hm => hno (BeginsWord.string hm))]
    exact ⟨rfl, rfl⟩
  | openBacktick body hno =>
    rw [List.append_nil, List.cons.injEq] at hs
    obtain ⟨rfl, rfl⟩ := hs
    rw [Lexeme.front_openBacktick (fun hm => hno (BeginsWord.backtick hm))]
    exact ⟨rfl, rfl⟩
  | stray c after hno hq hb =>
    rw [hs] at hv
    generalize (front b rest).kind = j at hr ⊢
    cases hr with
    | endOfText =>
      exact absurd (List.append_eq_nil_iff.mp hv).1 String.utf8EncodeChar_ne_nil
    | openComment body hi => exact absurd (by rw [hv]; exact BeginsWord.slash _) hno
    | word v r j _ hv' _ => exact absurd ⟨v, r, j, hv, hv'⟩ hno
    | openString body _ =>
      rw [List.append_nil] at hv
      exact absurd (Bytes.utf8EncodeChar_eq_singleton hv (by decide)) hq
    | openBacktick body _ =>
      rw [List.append_nil] at hv
      exact absurd (Bytes.utf8EncodeChar_eq_singleton hv (by decide)) hb
    | stray d r _ _ _ =>
      obtain ⟨rfl, rfl⟩ := Bytes.utf8EncodeChar_append_inj hv
      exact ⟨hl, rfl⟩

end ScriptLexer.Grammar
