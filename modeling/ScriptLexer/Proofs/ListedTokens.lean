import Mathlib
import ScriptLexer.Listing
import ScriptLexer.Proofs.CursorLookahead
import ScriptLexer.Proofs.LexemeBytes

/-!
The plain listing can be read back. It escapes nothing, but the lexemes of a scan tell where they
end: only strings hold tabs, line feeds and quotes, and only the last one can lack its second quote.
-/

namespace ScriptLexer

open Lexeme (front)

namespace Listing

/-- The length of the lexeme in the first row. A string without a second quote is in the last row,
and the row goes on behind it with the name of its kind. -/
def lexemeLength : Bytes → Nat
  | [] => 0
  | b :: rest =>
    if b = Byte.quote then
      match Rule.through? Byte.quote rest with
      | some n => n + 1
      | none => rest.length + 1 - (Bytes.ofString "\tSTRING\n").length
    else Rule.run (· != Byte.tab) (b :: rest)

def readRow? (bs : Bytes) : Option ((Kind × Bytes) × Bytes) :=
  let behind := bs.drop (lexemeLength bs + 1)
  let name := behind.takeWhile (· != Byte.lineFeed)
  ((Bytes.toString? name).bind Kind.ofName?).map fun kind =>
    ((kind, bs.take (lexemeLength bs)), behind.drop (name.length + 1))

def read? (bs : Bytes) : Option (List (Kind × Bytes)) :=
  if bs = [] then some []
  else
    match readRow? bs with
    | none => none
    | some (row, rest) =>
      if rest.length < bs.length then (read? rest).map (row :: ·) else none
termination_by bs.length

inductive Readable : List Token → Prop
  | nil : Readable []
  | word (t : Token) (ts : List Token) : t.kind ≠ .string → (∀ b ∈ t.lexeme, Byte.isSolid b) →
      Readable ts → Readable (t :: ts)
  | closed (t : Token) (ts : List Token) (body : Bytes) : t.kind = .string →
      t.lexeme = Byte.quote :: (body ++ [Byte.quote]) → Byte.quote ∉ body → Readable ts →
      Readable (t :: ts)
  | opened (t : Token) (body : Bytes) : t.kind = .string → t.lexeme = Byte.quote :: body →
      Byte.quote ∉ body → Readable [t]

theorem names_no_lineFeed : ∀ k ∈ Kind.all, Byte.lineFeed ∉ Bytes.ofString k.name := by
  decide +kernel

theorem readRow?_row {t : Token} {rest : Bytes}
    (h : lexemeLength (t.row ++ Byte.lineFeed :: rest) = t.lexeme.length) :
    readRow? (t.row ++ Byte.lineFeed :: rest) = some (t.content, rest) := by
  have hrow : t.row ++ Byte.lineFeed :: rest =
      t.lexeme ++ Byte.tab :: (Bytes.ofString t.kind.name ++ Byte.lineFeed :: rest) := by
    rw [Token.row, List.append_assoc, List.cons_append]
  have hfeed : ∀ b ∈ Bytes.ofString t.kind.name, (b != Byte.lineFeed) = true := by
    intro b hb
    rw [bne_iff_ne]
    rintro rfl
    exact names_no_lineFeed t.kind (Kind.mem_all t.kind) hb
  have hname : (Bytes.ofString t.kind.name ++ Byte.lineFeed :: rest).takeWhile
      (· != Byte.lineFeed) = Bytes.ofString t.kind.name := by
    rw [List.takeWhile_append_of_pos hfeed,
      List.takeWhile_cons_of_neg (by decide), List.append_nil]
  rw [readRow?, h, hrow, List.take_left, List.drop_length_add_append, List.drop_succ_cons,
    List.drop_zero]
  simp only [hname, Bytes.toString?_ofString, Option.bind_some, Kind.ofName?_name, Option.map_some,
    List.drop_length_add_append, List.drop_succ_cons, List.drop_zero, Token.content]

theorem read?_row {t : Token} {rest : Bytes}
    (h : lexemeLength (t.row ++ Byte.lineFeed :: rest) = t.lexeme.length) :
    read? (t.row ++ Byte.lineFeed :: rest) = (read? rest).map (t.content :: ·) := by
  have hne : t.row ++ Byte.lineFeed :: rest ≠ [] := by simp
  have hlt : rest.length < (t.row ++ Byte.lineFeed :: rest).length := by
    rw [List.length_append, List.length_cons]
    omega
  rw [read?, if_neg hne, readRow?_row h]
  exact if_pos hlt

theorem lexemeLength_word {lexeme : Bytes} (h : ∀ b ∈ lexeme, Byte.isSolid b) (rest : Bytes) :
    lexemeLength (lexeme ++ Byte.tab :: rest) = lexeme.length := by
  have htab : ∀ b ∈ lexeme, (b != Byte.tab) = true := by
    intro b hb
    rw [bne_iff_ne]
    rintro rfl
    exact absurd (h _ hb) (by decide)
  have hrun : Rule.run (· != Byte.tab) (lexeme ++ Byte.tab :: rest) = lexeme.length := by
    rw [Rule.run_append _ htab, Rule.run_cons, if_neg (by decide), Nat.add_zero]
  cases lexeme with
  | nil => rfl
  | cons b lexeme =>
    have hb : b ≠ Byte.quote := by
      rintro rfl
      exact absurd (h _ List.mem_cons_self) (by decide)
    rw [List.cons_append, lexemeLength, if_neg hb]
    exact hrun

theorem lexemeLength_closed {body : Bytes} (h : Byte.quote ∉ body) (rest : Bytes) :
    lexemeLength (Byte.quote :: (body ++ Byte.quote :: rest)) = body.length + 2 := by
  rw [lexemeLength, if_pos rfl, Rule.through?_complete rest h]

theorem lexemeLength_opened {body : Bytes} (h : Byte.quote ∉ body) :
    lexemeLength (Byte.quote :: (body ++ Bytes.ofString "\tSTRING\n")) = body.length + 1 := by
  have hnone : Rule.through? Byte.quote (body ++ Bytes.ofString "\tSTRING\n") = none := by
    rw [Rule.through?_eq_none_iff, List.mem_append, not_or]
    exact ⟨h, by decide⟩
  rw [lexemeLength, if_pos rfl, hnone, List.length_append]
  dsimp only
  omega

theorem read?_plain {ts : List Token} (h : Readable ts) :
    read? (plain ts) = some (ts.map (·.content)) := by
  induction h with
  | nil => rw [plain_nil, read?, if_pos rfl, List.map_nil]
  | word t ts hk hs _ ih =>
    have hl : lexemeLength (t.row ++ Byte.lineFeed :: plain ts) = t.lexeme.length := by
      rw [Token.row, List.append_assoc]
      exact lexemeLength_word hs _
    rw [plain_cons, read?_row hl, ih, Option.map_some, List.map_cons]
  | closed t ts body hk hlex hm _ ih =>
    have hrow : t.row ++ Byte.lineFeed :: plain ts = Byte.quote :: (body ++ Byte.quote ::
        Byte.tab :: (Bytes.ofString t.kind.name ++ Byte.lineFeed :: plain ts)) := by
      simp [Token.row, hlex]
    have hl : lexemeLength (t.row ++ Byte.lineFeed :: plain ts) = t.lexeme.length := by
      rw [hrow, lexemeLength_closed hm, hlex, List.length_cons, List.length_append,
        List.length_singleton]
    rw [plain_cons, read?_row hl, ih, Option.map_some, List.map_cons]
  | opened t body hk hlex hm =>
    -- The row is the last one, so all that stands behind the lexeme is `hend`.
    have hend : Bytes.ofString "\tSTRING\n" =
        Byte.tab :: (Bytes.ofString Kind.string.name ++ [Byte.lineFeed]) := by decide
    have hrow : t.row ++ Byte.lineFeed :: plain [] =
        Byte.quote :: (body ++ Bytes.ofString "\tSTRING\n") := by
      simp [Token.row, hlex, hk, hend, plain_nil]
    have hl : lexemeLength (t.row ++ Byte.lineFeed :: plain []) = t.lexeme.length := by
      rw [hrow, lexemeLength_opened hm, hlex, List.length_cons]
    rw [plain_cons, read?_row hl, plain_nil, read?, if_pos rfl, Option.map_some, List.map_cons,
      List.map_nil]

end Listing

theorem Lexeme.front_listed {b : UInt8} {rest t after : Bytes} (hs : rest = t ++ after)
    (hl : (front b rest).length = t.length + 1) (hk : (front b rest).kind ≠ .unidentified) :
    ((front b rest).kind ≠ .string ∧ ∀ x ∈ b :: t, Byte.isSolid x) ∨
      (front b rest).kind = .string ∧ ∃ body, Byte.quote ∉ body ∧
        (b :: t = Byte.quote :: (body ++ [Byte.quote]) ∨
          b :: t = Byte.quote :: body ∧ after = []) := by
  have htake : (b :: rest).take (front b rest).length = b :: t := by
    rw [hl, hs, List.take_succ_cons, List.take_left]
  cases b, rest using front_cases with
  | string body behind hm hf =>
    rw [hf] at hl
    obtain ⟨rfl, -⟩ := split_behind hs hl
    exact Or.inr ⟨by rw [hf], body, hm, Or.inl rfl⟩
  | openString _ hm hf =>
    have hlength : rest.length + 1 = t.length + 1 := by rwa [hf] at hl
    rw [hs, List.length_append] at hlength
    obtain rfl : after = [] := List.length_eq_zero_iff.mp (by omega)
    rw [List.append_nil] at hs
    exact Or.inr ⟨by rw [hf], t, hs ▸ hm, Or.inr ⟨rfl, rfl⟩⟩
  | word body behind o hm ho hf =>
    rw [hf] at hl
    obtain ⟨rfl, -⟩ := split_behind hs hl
    exact Or.inl ⟨by simp [hf], Operator.isSolid_of_ofWord? ho⟩
  | unknownWord body behind hm ho hf => simp [hf] at hk
  | openBacktick _ hm hf => simp [hf] at hk
  | number b rest hn hf =>
    refine Or.inl ⟨by simp [hf], ?_⟩
    rw [← htake, hf]
    exact number_isSolid hn
  | name b rest hstart hf =>
    refine Or.inl ⟨?_, ?_⟩
    · rcases nameKind_cases (b :: rest.take (Rule.run Byte.isNamePart rest)) with he | ⟨k, he⟩
      · simp [hf, he]
      · simp [hf, he]
    · rw [← htake, hf, List.take_succ_cons]
      exact name_isSolid hstart rest
  | openComment body hf => simp [hf] at hk
  | symbol b rest p hp hn hc hf =>
    refine Or.inl ⟨by simp [hf], ?_⟩
    rw [← htake, hf]
    exact symbol_isSolid hp
  | stray b rest hq hb hn hname hp hf => simp [hf] at hk

namespace Cursor

theorem tokens_of_nil {c : Cursor} (hu : c.unread = []) : c.scan.tokens = [] := by
  have hk : c.next.token.kind = .endOfText := by rw [next_of_nil hu]
  rw [scan_of_end hk]
  rfl

theorem readable_scan (c : Cursor) : Listing.Readable c.scan.tokens := by
  induction c using steps_induction with
  | last c hk =>
    rw [scan_of_end hk]
    exact Listing.Readable.nil
  | more c hk ih =>
    have htokens : c.scan.tokens =
        [c.next.token].filter (·.isProduced) ++ c.next.cursor.scan.tokens := by
      rw [scan_eq_next]
      rfl
    rw [htokens]
    by_cases hu : c.next.token.kind = .unidentified
    · rw [List.filter_cons_of_neg (by simp [Token.isProduced, hu])]
      exact ih
    rw [List.filter_cons_of_pos (by simp [Token.isProduced, hu, hk])]
    obtain ⟨gap, b, t, hl, h⟩ := exists_finds hk
    have hkind := h.kind_next
    rw [hkind] at hu
    rcases Lexeme.front_listed rfl h.length_eq hu with ⟨hs, hsolid⟩ | ⟨hs, body, hm, hb | ⟨hb, hn⟩⟩
    · exact Listing.Readable.word _ _ (hkind ▸ hs) (hl ▸ hsolid) ih
    · exact Listing.Readable.closed _ _ body (hkind ▸ hs) (hl.trans hb) hm ih
    · rw [tokens_of_nil hn]
      exact Listing.Readable.opened _ body (hkind ▸ hs) (hl.trans hb) hm

end Cursor

theorem plain_listing_reads_back (bs cs : Bytes) :
    Listing.read? (Listing.plain (scan bs).tokens) = some ((scan bs).tokens.map (·.content)) ∧
      (Listing.plain (scan bs).tokens = Listing.plain (scan cs).tokens →
        (scan bs).tokens.map (·.content) = (scan cs).tokens.map (·.content)) := by
  have hb := Listing.read?_plain (Cursor.readable_scan (Cursor.start bs))
  have hc := Listing.read?_plain (Cursor.readable_scan (Cursor.start cs))
  refine ⟨hb, fun h => ?_⟩
  rw [scan, scan] at h
  rw [h, hc] at hb
  exact (Option.some.inj hb).symm

theorem listing_reads_back_string :
    Listing.plain (scan (Bytes.ofString "a // b\n\"\tSTRING\n\"")).tokens =
      Listing.plain (scan (Bytes.ofString "a\"\tSTRING\n\"")).tokens ∧
    (scan (Bytes.ofString "a // b\n\"\tSTRING\n\"")).tokens.map (·.content) =
      (scan (Bytes.ofString "a\"\tSTRING\n\"")).tokens.map (·.content) := by
  have h : Listing.plain (scan (Bytes.ofString "a // b\n\"\tSTRING\n\"")).tokens =
      Listing.plain (scan (Bytes.ofString "a\"\tSTRING\n\"")).tokens := by cbv
  exact ⟨h, (plain_listing_reads_back _ _).2 h⟩

end ScriptLexer
