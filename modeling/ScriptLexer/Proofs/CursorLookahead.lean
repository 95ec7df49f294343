import ScriptLexer.Proofs.LexemeLookahead
import ScriptLexer.Proofs.ResumedScans

namespace ScriptLexer

open Grammar (Gap)
open Lexeme (front)

def Token.content (t : Token) : Kind × Bytes := (t.kind, t.lexeme)

def Cursor.extend (more : Bytes) (c : Cursor) : Cursor := { c with unread := c.unread ++ more }

def Step.extend (more : Bytes) (s : Step) : Step := { s with cursor := s.cursor.extend more }

namespace Cursor

def take (c : Cursor) (l : Lexeme) : Step :=
  ⟨⟨l.kind, c.unread.take l.length, ⟨c.pos, l.length⟩, c.line⟩,
    l.issue.map fun issue => ⟨issue, (c.advance l.length).line, some ⟨c.pos, l.length⟩⟩,
    c.advance l.length⟩

/-- Behind the gap stands the lexeme `b :: t`, and `after` stands behind that. -/
structure Finds (c : Cursor) (gap : Bytes) (b : UInt8) (t after : Bytes) : Prop where
  unread_eq : c.unread = gap ++ b :: (t ++ after)
  isGap : Gap gap (b :: (t ++ after))
  piece_eq : Trivia.piece (b :: (t ++ after)) = 0
  length_eq : (front b (t ++ after)).length = t.length + 1

theorem takeLexeme_eq_take {c : Cursor} {b : UInt8} {rest : Bytes} (h : c.unread = b :: rest) :
    c.takeLexeme = c.take (front b rest) := by
  rw [takeLexeme, h, take, h]

theorem skipTrivia_of_piece {c : Cursor} (h : Trivia.piece c.unread = 0) : c.skipTrivia = c := by
  rw [skipTrivia, if_pos h]

theorem skipTrivia_of_gap {c : Cursor} (h : Gap c.unread []) :
    c.skipTrivia = c.advance c.unread.length := by
  have hnil : (c.advance c.unread.length).unread = [] := by rw [advance, List.drop_length]
  rw [Grammar.skipTrivia_append h c (List.append_nil _).symm, skipTrivia_of_piece]
  rw [hnil]
  rfl

theorem skipTrivia_of_layout {c : Cursor} (h : ∀ b ∈ c.unread, Byte.isLayout b) :
    c.skipTrivia = c.advance c.unread.length :=
  skipTrivia_of_gap (Grammar.gap_of_layout h [])

theorem exists_finds {c : Cursor} (hk : c.next.token.kind ≠ .endOfText) :
    ∃ gap b t, c.next.token.lexeme = b :: t ∧ c.Finds gap b t c.next.cursor.unread := by
  obtain ⟨gap, hu, hgap, -⟩ := Grammar.gap_skipTrivia c
  obtain ⟨b, t, hl⟩ := List.exists_cons_of_ne_nil (lexeme_next_ne_nil hk)
  have happ := next_append c
  have hp := piece_skipTrivia c
  rw [hl, List.cons_append] at happ
  rw [happ] at hu hgap hp
  refine ⟨gap, b, t, hl, hu, hgap, hp, ?_⟩
  rw [← (takeLexeme_cons happ).2]
  exact congrArg List.length hl

namespace Finds

variable {c : Cursor} {gap t after : Bytes} {b : UInt8}

theorem next_eq (h : c.Finds gap b t after) :
    c.next = (c.advance gap.length).take (front b (t ++ after)) := by
  have hu : (c.advance gap.length).unread = b :: (t ++ after) := by
    rw [advance, h.unread_eq, List.drop_left]
  have hp : Trivia.piece (c.advance gap.length).unread = 0 := hu ▸ h.piece_eq
  rw [next, Grammar.skipTrivia_append h.isGap c h.unread_eq, skipTrivia_of_piece hp,
    takeLexeme_eq_take hu]

theorem kind_next (h : c.Finds gap b t after) :
    c.next.token.kind = (front b (t ++ after)).kind := by
  rw [h.next_eq, take]

theorem unread_next (h : c.Finds gap b t after) :
    c.next.token.lexeme = b :: t ∧ c.next.cursor.unread = after := by
  have hu : (c.advance gap.length).unread = b :: t ++ after := by
    rw [advance, h.unread_eq, List.drop_left, List.cons_append]
  have hl : (front b (t ++ after)).length = (b :: t).length := h.length_eq
  rw [h.next_eq]
  generalize c.advance gap.length = d at hu
  constructor
  · rw [take, hu, hl, List.take_left]
  · rw [take, hl, advance, hu, List.drop_left]

theorem diagnostic_next (h : c.Finds gap b t after) :
    c.next.diagnostic.map (·.issue) = (front b (t ++ after)).issue := by
  rw [h.next_eq, take]
  cases (front b (t ++ after)).issue <;> rfl

theorem exists_open (h : c.Finds gap b t after)
    (ho : ∃ i ∈ (front b (t ++ after)).issue, i.code ∈ openCodes) :
    ∃ d ∈ c.next.diagnostic, d.issue.code ∈ openCodes := by
  obtain ⟨i, hi, hcode⟩ := ho
  rw [← h.diagnostic_next] at hi
  obtain ⟨d, hd, rfl⟩ := Option.map_eq_some_iff.mp hi
  exact ⟨d, hd, hcode⟩

theorem replaced {c' : Cursor} {gap' after' : Bytes} (h : c.Finds gap b t after)
    (hu : c'.unread = gap' ++ b :: (t ++ after')) (hgap : Gap gap' (b :: (t ++ after')))
    (hr : Replaces after' after)
    (hopen : (∃ i ∈ (front b (t ++ after)).issue, i.code ∈ openCodes) → after' = after) :
    c'.Finds gap' b t after' ∧ front b (t ++ after') = front b (t ++ after) := by
  by_cases ho : ∃ i ∈ (front b (t ++ after)).issue, i.code ∈ openCodes
  · obtain rfl := hopen ho
    exact ⟨⟨hu, hgap, h.piece_eq, h.length_eq⟩, rfl⟩
  · have hclosed : ∀ i ∈ (front b (t ++ after)).issue, i.code ∉ openCodes :=
      fun i hi hc => ho ⟨i, hi, hc⟩
    have hfront := Lexeme.front_replaced rfl h.length_eq hclosed hr
    have hpiece := Trivia.piece_replaced h.piece_eq hclosed hr
    exact ⟨⟨hu, hgap, hpiece, by rw [hfront, h.length_eq]⟩, hfront⟩

end Finds

theorem extend_advance (more : Bytes) {c : Cursor} {n : Nat} (h : n ≤ c.unread.length) :
    (c.extend more).advance n = (c.advance n).extend more := by
  simp only [extend, advance, List.drop_append_of_le_length h, List.take_append_of_le_length h]

theorem extend_take (more : Bytes) {c : Cursor} {l : Lexeme} (h : l.length ≤ c.unread.length) :
    (c.extend more).take l = (c.take l).extend more := by
  have hu : (c.extend more).unread.take l.length = c.unread.take l.length :=
    List.take_append_of_le_length h
  rw [take, extend_advance more h, hu]
  rfl

namespace Finds

variable {c : Cursor} {gap t r u : Bytes} {b : UInt8}

theorem next_extend (h : (c.extend u).Finds gap b t (r ++ u)) (hu : c.unread = gap ++ b :: (t ++ r)) :
    (c.extend u).next = ((c.advance gap.length).take (front b (t ++ (r ++ u)))).extend u := by
  have hgap : gap.length ≤ c.unread.length := by
    rw [hu, List.length_append]
    omega
  have hl : (front b (t ++ (r ++ u))).length ≤ (c.advance gap.length).unread.length := by
    rw [h.length_eq, advance, hu, List.drop_left, List.length_cons, List.length_append]
    omega
  rw [h.next_eq, extend_advance u hgap, extend_take u hl]

theorem next_replaced {v : Bytes} (h : (c.extend u).Finds gap b t (r ++ u))
    (hu : c.unread = gap ++ b :: (t ++ r)) (hr : Replaces (r ++ v) (r ++ u))
    (hclosed : ∀ d ∈ (c.extend u).next.diagnostic, d.issue.code ∉ openCodes) :
    (c.extend v).next = ((c.advance gap.length).take (front b (t ++ (r ++ u)))).extend v := by
  have hopen : ¬ ∃ i ∈ (front b (t ++ (r ++ u))).issue, i.code ∈ openCodes := by
    intro ho
    obtain ⟨d, hd, hcode⟩ := h.exists_open ho
    exact hclosed d hd hcode
  have hv : (c.extend v).unread = gap ++ b :: (t ++ (r ++ v)) := by
    simp [extend, hu]
  have hgap : Gap gap (b :: (t ++ (r ++ v))) := h.isGap.replaced fun x hx => Or.inr hx
  obtain ⟨h', hfront⟩ := h.replaced hv hgap hr fun ho => absurd ho hopen
  rw [h'.next_extend hu, hfront]

end Finds

end Cursor

end ScriptLexer
