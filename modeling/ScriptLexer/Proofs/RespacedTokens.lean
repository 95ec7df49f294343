import Mathlib
import ScriptLexer.Proofs.CursorLookahead

namespace ScriptLexer

open Lexeme (front)

def Step.finding (s : Step) : (Kind × Bytes) × Option Issue :=
  (s.token.content, s.diagnostic.map (·.issue))

/-- The lexemes of the tokens with layout between them. Where there is none, the two tokens touched
in the text that they come from. -/
inductive Respaced : List Token → Bytes → Prop
  | nil : Respaced [] []
  | single (t : Token) : Respaced [t] t.lexeme
  | cons (t u : Token) (ts : List Token) (sep text : Bytes) : (∀ b ∈ sep, Byte.isLayout b) →
      (sep = [] → t.span.stop = u.span.start) → Respaced (u :: ts) text →
      Respaced (t :: u :: ts) (t.lexeme ++ (sep ++ text))

structure Rescans (text : Bytes) (taken : List Step) : Prop where
  contents_eq : (Cursor.start text).tokens.map (·.content) =
    taken.map (·.token.content) ++ [(.endOfText, [])]
  codes_eq : (scan text).diagnostics.map (·.issue.code) =
    (taken.filterMap (·.diagnostic)).map (·.issue.code)

def Step.TakenFrom (s : Step) (bs : Bytes) : Prop :=
  ∃ c : Cursor, c.StandsIn bs ∧ c.next = s ∧ s.token.kind ≠ .endOfText

namespace Step.TakenFrom

variable {s next : Step} {bs : Bytes}

theorem drop_start (h : s.TakenFrom bs) :
    bs.drop s.token.span.start = s.token.lexeme ++ bs.drop s.token.span.stop := by
  obtain ⟨c, hc, rfl, -⟩ := h
  obtain ⟨hstart, hstop⟩ := Cursor.span_next c
  rw [hstart, hstop, ← hc.skipTrivia.unread_eq, ← hc.next.unread_eq, Cursor.next_append]

theorem lexeme_ne_nil (h : s.TakenFrom bs) : s.token.lexeme ≠ [] := by
  obtain ⟨c, -, rfl, hk⟩ := h
  exact Cursor.lexeme_next_ne_nil hk

theorem start_lt (h : s.TakenFrom bs) : s.token.span.start < bs.length := by
  by_contra hle
  have hd := h.drop_start
  rw [List.drop_eq_nil_iff.mpr (Nat.le_of_not_lt hle)] at hd
  exact h.lexeme_ne_nil (List.append_eq_nil_iff.mp hd.symm).1

end Step.TakenFrom

theorem Step.TakenFrom.range {s : Step} {bs : Bytes} (h : s.TakenFrom bs)
    (hp : [Byte.point, Byte.point] <+: s.token.lexeme ++ bs.drop s.token.span.stop) :
    [Byte.point, Byte.point] <+: s.token.lexeme := by
  obtain ⟨c, hc, rfl, hk⟩ := h
  obtain ⟨gap, b, t, hl, hf⟩ := Cursor.exists_finds hk
  rw [(Cursor.span_next c).2, ← hc.next.unread_eq, hl, List.cons_append] at hp
  rw [hl]
  apply List.prefix_of_prefix_length_le hp (List.prefix_append _ _)
  obtain ⟨rfl, hhead⟩ := (pair_prefix_iff _ _ b _).mp hp
  obtain ⟨more, hmore⟩ := List.head?_eq_some_iff.mp hhead
  have hlength := hf.length_eq
  rw [hmore] at hlength
  exact Nat.le_of_eq hlength

theorem Cursor.Finds.finding_next {c : Cursor} {gap t after : Bytes} {b : UInt8}
    (h : c.Finds gap b t after) :
    c.next.finding = (((front b (t ++ after)).kind, b :: t), (front b (t ++ after)).issue) := by
  rw [Step.finding, Token.content, h.kind_next, h.unread_next.1, h.diagnostic_next]

theorem Cursor.steps_of_layout {c : Cursor} (h : ∀ b ∈ c.unread, Byte.isLayout b) :
    c.steps.map (·.finding) = [((.endOfText, []), none)] := by
  have hu : c.skipTrivia.unread = [] := by
    rw [skipTrivia_of_layout h, advance, List.drop_length]
  have hk : c.next.token.kind = .endOfText := (kind_takeLexeme c.skipTrivia).mpr hu
  rw [steps_eq, if_pos hk, next, takeLexeme_nil hu]
  rfl

namespace Respaced

variable {bs sep text behind : Bytes} {t : Token} {ts : List Token} {s : Step} {rest : List Step}

theorem uncons (h : Respaced (t :: ts) text) :
    ∃ sep behind, text = t.lexeme ++ (sep ++ behind) ∧ (∀ b ∈ sep, Byte.isLayout b) ∧
      Respaced ts behind ∧ (ts = [] → sep = []) ∧
      (sep = [] → ∀ u ∈ ts.head?, t.span.stop = u.span.start) := by
  cases h with
  | single => exact ⟨[], [], by simp, by simp, Respaced.nil, fun _ => rfl, by simp⟩
  | cons t u ts sep behind hsep htouch hrest =>
    refine ⟨sep, behind, rfl, hsep, hrest, by simp, ?_⟩
    intro he v hv
    obtain rfl : u = v := Option.some.inj hv
    exact htouch he

theorem replaces (hrest : ∀ r ∈ rest, r.TakenFrom bs) (h : Respaced (rest.map (·.token)) behind)
    (hsep : ∀ b ∈ sep, Byte.isLayout b)
    (htouch : sep = [] → ∀ u ∈ (rest.map (·.token)).head?, s.token.span.stop = u.span.start) :
    Replaces (sep ++ behind) (bs.drop s.token.span.stop) := by
  cases sep with
  | cons x sep => exact Replaces.layout (hsep x List.mem_cons_self) _ _
  | nil =>
    cases rest with
    | nil =>
      cases h
      exact Replaces.nil _
    | cons next rest =>
      obtain ⟨sep, behind, rfl, -⟩ := h.uncons
      have hnext := hrest next List.mem_cons_self
      rw [htouch rfl next.token rfl, hnext.drop_start, List.nil_append]
      exact Replaces.append hnext.lexeme_ne_nil _ _ hnext.range

theorem eq_nil_of_open (hs : s.TakenFrom bs) (hrest : ∀ r ∈ rest, r.TakenFrom bs)
    (hord : ∀ r ∈ rest, s.token.span.stop ≤ r.token.span.start)
    (ho : ∃ d ∈ s.diagnostic, d.issue.code ∈ openCodes) :
    bs.drop s.token.span.stop = [] ∧ rest = [] := by
  obtain ⟨c, hc, rfl, -⟩ := hs
  obtain ⟨d, hd, hcode⟩ := ho
  have hu := Cursor.unread_of_open hd hcode
  have hnil : bs.drop c.next.token.span.stop = [] := by
    rw [(Cursor.span_next c).2, ← hc.next.unread_eq]
    exact hu
  refine ⟨hnil, ?_⟩
  cases rest with
  | nil => rfl
  | cons next rest =>
    have hlt := (hrest next List.mem_cons_self).start_lt
    have hle := hord next List.mem_cons_self
    rw [List.drop_eq_nil_iff] at hnil
    omega

theorem steps_eq {taken : List Step} (hall : ∀ s ∈ taken, s.TakenFrom bs)
    (hord : taken.Pairwise fun s r => s.token.span.stop ≤ r.token.span.start)
    (h : Respaced (taken.map (·.token)) text) {c : Cursor} {gap : Bytes}
    (hgap : ∀ b ∈ gap, Byte.isLayout b) (hu : c.unread = gap ++ text) :
    c.steps.map (·.finding) = taken.map (·.finding) ++ [((.endOfText, []), none)] := by
  -- The cursor is anywhere: what the induction keeps is that layout and the rest are unread.
  induction taken generalizing text c gap with
  | nil =>
    cases h
    apply Cursor.steps_of_layout
    rwa [hu, List.append_nil]
  | cons s rest ih =>
    obtain ⟨sep, behind, rfl, hsep, hrespaced, hlast, htouch⟩ := h.uncons
    obtain ⟨hs, hrest⟩ := List.forall_mem_cons.mp hall
    obtain ⟨hfirst, hbehind⟩ := List.pairwise_cons.mp hord
    have hr := hrespaced.replaces hrest hsep htouch
    have hlone := eq_nil_of_open hs hrest hfirst
    obtain ⟨d, hd, rfl, hk⟩ := hs
    obtain ⟨gap', b, t, hl, hf⟩ := Cursor.exists_finds hk
    rw [(Cursor.span_next d).2, ← hd.next.unread_eq] at hr hlone
    have hopen : (∃ i ∈ (front b (t ++ d.next.cursor.unread)).issue, i.code ∈ openCodes) →
        sep ++ behind = d.next.cursor.unread := by
      intro ho
      obtain ⟨hnil, rfl⟩ := hlone (hf.exists_open ho)
      cases hrespaced
      rw [hnil, hlast rfl, List.append_nil]
    rw [hl] at hu
    obtain ⟨hf', hfront⟩ := hf.replaced hu (Grammar.gap_of_layout hgap _) hr hopen
    have hfinding : c.next.finding = d.next.finding := by
      rw [hf'.finding_next, hf.finding_next, hfront]
    have hkind : c.next.token.kind = d.next.token.kind :=
      congrArg (fun f => f.1.1) hfinding
    rw [Cursor.steps_eq, if_neg (hkind ▸ hk), List.map_cons, hfinding,
      ih hrest hbehind hrespaced hsep hf'.unread_next.2]
    rfl

end Respaced

theorem rescans_of_findings {text : Bytes} {taken : List Step}
    (h : (Cursor.start text).steps.map (·.finding) =
      taken.map (·.finding) ++ [((.endOfText, []), none)]) : Rescans text taken := by
  constructor
  · have hc := congrArg (List.map Prod.fst) h
    simpa [Cursor.tokens, Step.finding, Function.comp_def] using hc
  · have hi := congrArg (fun l => (l.filterMap Prod.snd).map Issue.code) h
    simpa [scan, Cursor.scan, Step.finding, List.filterMap_append, List.filterMap_map,
      List.map_filterMap, Function.comp_def] using hi

theorem Bytes.IsText.append {v w : Bytes} (hv : v.IsText) (hw : w.IsText) :
    IsText (v ++ w) := by
  obtain ⟨cs, rfl⟩ := hv
  obtain ⟨ds, rfl⟩ := hw
  exact ⟨cs ++ ds, (ofChars_append cs ds).symm⟩

theorem Bytes.isText_of_layout {g : Bytes} (h : ∀ b ∈ g, Byte.isLayout b) : g.IsText := by
  induction g with
  | nil => exact isText_nil
  | cons b g ih =>
    have hb : IsText [b] := by
      rcases Byte.isLayout_cases (h b List.mem_cons_self) with rfl | rfl | rfl | rfl
      · exact isText_ofString " "
      · exact isText_ofString "\t"
      · exact isText_ofString "\r"
      · exact isText_ofString "\n"
    exact hb.append (ih fun c hc => h c (List.mem_cons_of_mem b hc))

namespace Respaced

theorem isText {ts : List Token} {text : Bytes} (h : Respaced ts text)
    (hts : ∀ t ∈ ts, Bytes.IsText t.lexeme) : Bytes.IsText text := by
  induction h with
  | nil => exact Bytes.isText_nil
  | single t => exact hts t List.mem_cons_self
  | cons t u ts sep text hsep htouch hrest ih =>
    obtain ⟨ht, hts⟩ := List.forall_mem_cons.mp hts
    exact ht.append ((Bytes.isText_of_layout hsep).append (ih hts))

theorem intercalate {sep : Bytes} (hne : sep ≠ []) (hsep : ∀ b ∈ sep, Byte.isLayout b)
    (ts : List Token) : Respaced ts (sep.intercalate (ts.map (·.lexeme))) := by
  induction ts with
  | nil => exact Respaced.nil
  | cons t ts ih =>
    cases ts with
    | nil => simpa [List.intercalate] using Respaced.single t
    | cons u ts =>
      have h := Respaced.cons t u ts sep _ hsep (fun he => absurd he hne) ih
      simpa [List.intercalate] using h

end Respaced

theorem Rescans.tokens_eq {text : Bytes} {taken : List Step} (h : Rescans text taken)
    (hp : ∀ step ∈ taken, step.token.isProduced) :
    (scan text).tokens.map (·.content) = taken.map (·.token.content) := by
  let produced : Kind × Bytes → Bool := fun c => c.1 != .unidentified && c.1 != .endOfText
  have hfilter : (scan text).tokens.map (·.content) =
      ((Cursor.start text).tokens.map (·.content)).filter produced := by
    rw [List.filter_map]
    rfl
  have htaken : (taken.map (·.token.content)).filter produced = taken.map (·.token.content) := by
    rw [List.filter_eq_self]
    intro c hc
    obtain ⟨step, hs, rfl⟩ := List.mem_map.mp hc
    exact hp step hs
  have hend : [((.endOfText, []) : Kind × Bytes)].filter produced = [] := rfl
  rw [hfilter, h.contents_eq, List.filter_append, htaken, hend, List.append_nil]

theorem takenFrom_of_sublist {s : String} {taken : List Step}
    (h : taken.Sublist (Cursor.ofString s).steps)
    (hk : ∀ step ∈ taken, step.token.kind ≠ .endOfText) :
    ∀ step ∈ taken, step.TakenFrom (Bytes.ofString s) := by
  intro step hs
  obtain ⟨k, rfl⟩ := Cursor.exists_of_mem_steps (h.subset hs)
  exact ⟨_, Cursor.standsIn_ofString s k, rfl, hk _ hs⟩

theorem rescans_of_respaced {s : String} {taken : List Step} {text : Bytes}
    (h : taken.Sublist (Cursor.ofString s).steps)
    (hk : ∀ step ∈ taken, step.token.kind ≠ .endOfText)
    (ht : Respaced (taken.map (·.token)) text) : Bytes.IsText text ∧ Rescans text taken := by
  constructor
  · apply ht.isText
    intro t htok
    obtain ⟨step, hs, rfl⟩ := List.mem_map.mp htok
    obtain ⟨k, rfl⟩ := Cursor.exists_of_mem_steps (h.subset hs)
    exact Cursor.isText_lexeme_next (Cursor.isText_ofString s k)
  · have hord := (List.pairwise_map.mp (Cursor.ordered_steps (Cursor.ofString s))).sublist h
    have hgap : ∀ b ∈ ([] : Bytes), Byte.isLayout b := by simp
    exact rescans_of_findings (ht.steps_eq (takenFrom_of_sublist h hk) hord hgap rfl)

theorem scan_of_respaced {s : String} {text : Bytes}
    (h : Respaced (scan (Bytes.ofString s)).tokens text) :
    (scan text).tokens.map (·.content) = (scan (Bytes.ofString s)).tokens.map (·.content) := by
  let taken := (Cursor.ofString s).steps.filter (·.token.isProduced)
  have hp : ∀ step ∈ taken, step.token.isProduced := fun step hs => (List.mem_filter.mp hs).2
  have htokens : (scan (Bytes.ofString s)).tokens = taken.map (·.token) := List.filter_map
  have hk : ∀ step ∈ taken, step.token.kind ≠ .endOfText := by
    intro step hs he
    have := hp step hs
    rw [Token.isProduced, he] at this
    exact absurd this (by decide)
  rw [htokens] at h ⊢
  rw [(rescans_of_respaced List.filter_sublist hk h).2.tokens_eq hp, List.map_map]
  rfl

theorem respaced_tokens_rescan (s : String) :
    (∀ taken text, taken.Sublist (Cursor.ofString s).steps →
      (∀ step ∈ taken, step.token.kind ≠ .endOfText) →
      Respaced (taken.map (·.token)) text → Bytes.IsText text ∧ Rescans text taken) ∧
    (∀ text, Respaced (scan (Bytes.ofString s)).tokens text →
      (scan text).tokens.map (·.content) = (scan (Bytes.ofString s)).tokens.map (·.content)) ∧
    ∀ sep : Bytes, sep ≠ [] → (∀ b ∈ sep, Byte.isLayout b) →
      (scan (sep.intercalate ((scan (Bytes.ofString s)).tokens.map (·.lexeme)))).tokens.map
        (·.content) = (scan (Bytes.ofString s)).tokens.map (·.content) :=
  ⟨fun _ _ h hk ht => rescans_of_respaced h hk ht, fun _ h => scan_of_respaced h,
    fun _ hne hsep => scan_of_respaced (Respaced.intercalate hne hsep _)⟩

theorem range_respaced_before_stray :
    ((Cursor.ofString "1..5/**/@").steps.eraseIdx 2).dropLast.Sublist
      (Cursor.ofString "1..5/**/@").steps ∧
    Respaced (((Cursor.ofString "1..5/**/@").steps.eraseIdx 2).dropLast.map (·.token))
      (Bytes.ofString "1..\n@") ∧
    Rescans (Bytes.ofString "1..\n@")
      ((Cursor.ofString "1..5/**/@").steps.eraseIdx 2).dropLast := by
  have hsub := (List.dropLast_sublist _).trans
    (List.eraseIdx_sublist (Cursor.ofString "1..5/**/@").steps 2)
  have htokens : ((Cursor.ofString "1..5/**/@").steps.eraseIdx 2).dropLast.map (·.token) =
      [⟨.number, Bytes.ofString "1", ⟨0, 1⟩, 1⟩, ⟨.operator .dotDot, Bytes.ofString "..", ⟨1, 2⟩, 1⟩,
        ⟨.unidentified, Bytes.ofString "@", ⟨8, 1⟩, 1⟩] := by cbv
  have hend : ∀ t ∈ ((Cursor.ofString "1..5/**/@").steps.eraseIdx 2).dropLast.map (·.token),
      t.kind ≠ .endOfText := by
    rw [htokens]
    decide
  have hk : ∀ step ∈ ((Cursor.ofString "1..5/**/@").steps.eraseIdx 2).dropLast,
      step.token.kind ≠ .endOfText := fun step hs => hend _ (List.mem_map_of_mem hs)
  have hr : Respaced (((Cursor.ofString "1..5/**/@").steps.eraseIdx 2).dropLast.map (·.token))
      (Bytes.ofString "1..\n@") := by
    rw [htokens]
    apply Respaced.cons _ _ _ [] _ (by simp) (fun _ => rfl)
    have hsep : ∀ b ∈ [Byte.lineFeed], Byte.isLayout b := List.forall_mem_singleton.mpr (by decide)
    apply Respaced.cons _ _ _ [Byte.lineFeed] _ hsep (by simp)
    exact Respaced.single _
  exact ⟨hsub, hr, ((respaced_tokens_rescan "1..5/**/@").1 _ _ hsub hk hr).2⟩

end ScriptLexer
