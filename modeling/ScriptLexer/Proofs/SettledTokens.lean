import Mathlib
import ScriptLexer.Proofs.CursorLookahead

namespace ScriptLexer

open Grammar (Gap)
open Lexeme (front)

namespace Cursor

variable {s u v : Bytes} {p : Cursor}

theorem StandsIn.extend (h : p.StandsIn s) (more : Bytes) :
    (p.extend more).StandsIn (s ++ more) := by
  have hle := h.pos_le
  constructor
  · rw [Cursor.extend, h.unread_eq, List.drop_append_of_le_length hle]
  · rw [List.length_append]
    exact Nat.le_trans hle (Nat.le_add_right _ _)
  · have htake : (s ++ more).take p.pos = s.take p.pos := List.take_append_of_le_length hle
    rw [Cursor.extend, htake, h.line_eq]

theorem kind_of_settled (hp : p.StandsIn s) (hle : (p.extend u).next.token.span.stop + 2 ≤ s.length) :
    (p.extend u).next.token.kind ≠ .endOfText := by
  intro hk
  have hu := (kind_takeLexeme (p.extend u).skipTrivia).mp hk
  have hnil : (p.extend u).next.cursor.unread = [] := by
    rw [next, takeLexeme_nil hu]
    exact hu
  have hstop := stop_of_exhausted (hp.extend u) hnil
  rw [List.length_append] at hstop
  omega

theorem Finds.stop_next {c : Cursor} {gap t after : Bytes} {b : UInt8}
    (h : c.Finds gap b t after) : c.next.token.span.stop = c.pos + gap.length + (t.length + 1) := by
  rw [h.next_eq, take, Span.stop, h.length_eq, advance]

theorem Finds.unread_extend {c : Cursor} {gap t after : Bytes} {b : UInt8}
    (h : (c.extend u).Finds gap b t after) (hle : gap.length + (t.length + 1) ≤ c.unread.length) :
    ∃ r, c.unread = gap ++ b :: (t ++ r) ∧ after = r ++ u := by
  have hu : c.unread ++ u = gap ++ b :: t ++ after := by
    rw [List.append_assoc, List.cons_append]
    exact h.unread_eq
  have hp : gap ++ b :: t <+: c.unread := by
    apply List.prefix_of_prefix_length_le ⟨after, hu.symm⟩ (List.prefix_append _ _)
    rwa [List.length_append, List.length_cons]
  obtain ⟨r, hr⟩ := hp
  rw [← hr, List.append_assoc, List.append_cancel_left_eq] at hu
  refine ⟨r, ?_, hu.symm⟩
  rw [← hr, List.append_assoc, List.cons_append]

theorem settled_next (hp : p.StandsIn s) (v : Bytes)
    (hle : (p.extend u).next.token.span.stop + 2 ≤ s.length) :
    ∃ step : Step, (p.extend u).next = step.extend u ∧ (p.extend v).next = step.extend v ∧
      step.cursor.StandsIn s := by
  obtain ⟨gap, b, t, -, h⟩ := exists_finds (kind_of_settled hp hle)
  have hlength : gap.length + (t.length + 1) + 2 ≤ p.unread.length := by
    rw [h.stop_next] at hle
    have hpos : (p.extend u).pos = p.pos := rfl
    rw [hp.unread_eq, List.length_drop]
    omega
  obtain ⟨r, hr, hafter⟩ := h.unread_extend (by omega)
  rw [hafter] at h
  have htwo : 2 ≤ r.length := by
    rw [hr, List.length_append, List.length_cons, List.length_append] at hlength
    omega
  have hne : r ≠ [] := by
    rintro rfl
    exact absurd htwo (by decide)
  have hreplaces : Replaces (r ++ v) (r ++ u) := by
    apply Replaces.append hne
    intro hrange
    exact List.prefix_of_prefix_length_le hrange (List.prefix_append r u) htwo
  have hclosed : ∀ d ∈ (p.extend u).next.diagnostic, d.issue.code ∉ openCodes := by
    intro d hd hcode
    have hnil : (p.extend u).next.cursor.unread = [] := unread_of_open hd hcode
    rw [hafter, List.append_eq_nil_iff] at hnil
    exact hne hnil.1
  refine ⟨_, h.next_extend hr, h.next_replaced hr hreplaces hclosed, ?_⟩
  have hgap : gap.length ≤ p.unread.length := by omega
  apply (hp.advance hgap).advance
  rw [h.length_eq, advance, List.length_drop]
  omega

theorem steps_of_next {c : Cursor} {step : Step} (h : c.next = step)
    (hk : step.token.kind ≠ .endOfText) : c.steps = step :: step.cursor.steps := by
  rw [Cursor.steps_eq, h, if_neg hk]

theorem unsettled_steps {c : Cursor} {n : Nat} (h : ¬ c.next.token.span.stop + 2 ≤ n) :
    ∀ step ∈ c.steps, ¬ step.token.span.stop + 2 ≤ n := by
  intro step hs
  rw [steps_eq] at hs
  split at hs
  · rw [List.mem_singleton.mp hs]
    exact h
  · rcases List.mem_cons.mp hs with rfl | hs
    · exact h
    · have hstart := start_of_mem_steps step.token (List.mem_map_of_mem hs)
      rw [← (span_next c).2] at hstart
      have hstop : step.token.span.start ≤ step.token.span.stop := Nat.le_add_right _ _
      omega

/-- Both scans take the shared steps, which are all settled; no later step of the first one is. -/
structure PartsAfter (s u v : Bytes) (p : Cursor) (shared rest rest' : List Step) : Prop where
  steps_eq : (p.extend u).steps = shared.map (·.extend u) ++ rest
  steps_eq' : (p.extend v).steps = shared.map (·.extend v) ++ rest'
  shared_settled : ∀ step ∈ shared, step.token.span.stop + 2 ≤ s.length
  rest_unsettled : ∀ step ∈ rest, ¬ step.token.span.stop + 2 ≤ s.length

namespace PartsAfter

theorem nil (h : ¬ (p.extend u).next.token.span.stop + 2 ≤ s.length) :
    PartsAfter s u v p [] (p.extend u).steps (p.extend v).steps :=
  ⟨rfl, rfl, by simp, unsettled_steps h⟩

theorem cons {step : Step} {shared rest rest' : List Step} (hp : p.StandsIn s)
    (hle : (p.extend u).next.token.span.stop + 2 ≤ s.length)
    (hu : (p.extend u).next = step.extend u) (hv : (p.extend v).next = step.extend v)
    (h : PartsAfter s u v step.cursor shared rest rest') :
    PartsAfter s u v p (step :: shared) rest rest' := by
  have hk : step.token.kind ≠ .endOfText := by
    have hk := kind_of_settled hp hle
    rw [hu] at hk
    exact hk
  rw [hu] at hle
  constructor
  · rw [steps_of_next hu hk, List.map_cons, List.cons_append, ← h.steps_eq, Step.extend]
  · rw [steps_of_next hv hk, List.map_cons, List.cons_append, ← h.steps_eq', Step.extend]
  · exact List.forall_mem_cons.mpr ⟨hle, h.shared_settled⟩
  · exact h.rest_unsettled

end PartsAfter

theorem exists_partsAfter (hp : p.StandsIn s) (u v : Bytes) :
    ∃ shared rest rest', PartsAfter s u v p shared rest rest' := by
  -- The induction is on the first scan; the second is led along from the same point `p` of `s`.
  generalize hc : p.extend u = c
  induction c using steps_induction generalizing p with
  | last c hk =>
    subst hc
    exact ⟨[], _, _, PartsAfter.nil fun hle => kind_of_settled hp hle hk⟩
  | more c hk ih =>
    subst hc
    by_cases hle : (p.extend u).next.token.span.stop + 2 ≤ s.length
    · obtain ⟨step, hu, hv, hstep⟩ := settled_next hp v hle
      obtain ⟨shared, rest, rest', h⟩ := ih hstep (by rw [hu, Step.extend])
      exact ⟨step :: shared, rest, rest', h.cons hp hle hu hv⟩
    · exact ⟨[], _, _, PartsAfter.nil hle⟩

theorem span_of_mem_diagnostics {steps : List Step} {c : Cursor} (hc : steps ⊆ c.steps)
    {d : Diagnostic} (hd : d ∈ steps.filterMap (·.diagnostic)) :
    ∃ step ∈ steps, d.span = some step.token.span := by
  obtain ⟨step, hs, hd⟩ := List.mem_filterMap.mp hd
  obtain ⟨k, rfl⟩ := exists_of_mem_steps (hc hs)
  exact ⟨_, hs, (faithful_takeLexeme _).span_eq d hd⟩

namespace PartsAfter

variable {shared rest rest' : List Step}

theorem tokens_getElem? (h : PartsAfter s u v p shared rest rest') {k : Nat} {t : Token}
    (ht : (p.extend u).tokens[k]? = some t) (hle : t.span.stop + 2 ≤ s.length) :
    (p.extend v).tokens[k]? = some t := by
  have hu : (p.extend u).tokens = shared.map (·.token) ++ rest.map (·.token) := by
    rw [tokens, h.steps_eq, List.map_append, List.map_map]
    rfl
  have hv : (p.extend v).tokens = shared.map (·.token) ++ rest'.map (·.token) := by
    rw [tokens, h.steps_eq', List.map_append, List.map_map]
    rfl
  rw [hu, List.getElem?_append] at ht
  split at ht
  · next hk => rw [hv, List.getElem?_append_left hk, ht]
  · obtain ⟨step, hs, rfl⟩ := List.mem_map.mp (List.mem_of_getElem? ht)
    exact absurd hle (h.rest_unsettled step hs)

theorem diagnostics_prefix (h : PartsAfter s u v p shared rest rest') :
    (p.extend u).scan.diagnostics.filter (fun d => d.span.any (·.stop + 2 ≤ s.length)) <+:
      (p.extend v).scan.diagnostics := by
  have hu : (p.extend u).scan.diagnostics =
      (shared.map (·.extend u)).filterMap (·.diagnostic) ++ rest.filterMap (·.diagnostic) := by
    rw [scan, h.steps_eq, List.filterMap_append]
  have hv : (p.extend v).scan.diagnostics =
      (shared.map (·.extend u)).filterMap (·.diagnostic) ++ rest'.filterMap (·.diagnostic) := by
    rw [scan, h.steps_eq', List.filterMap_append, List.filterMap_map, List.filterMap_map]
    rfl
  have hshared : shared.map (·.extend u) ⊆ (p.extend u).steps := by
    rw [h.steps_eq]
    exact List.subset_append_left _ _
  have hrest : rest ⊆ (p.extend u).steps := by
    rw [h.steps_eq]
    exact List.subset_append_right _ _
  rw [hu, hv, List.filter_append, List.filter_eq_self.mpr, List.filter_eq_nil_iff.mpr,
    List.append_nil]
  · exact List.prefix_append _ _
  · intro d hd
    obtain ⟨step, hs, hspan⟩ := span_of_mem_diagnostics hrest hd
    simpa [hspan] using h.rest_unsettled step hs
  · intro d hd
    obtain ⟨step, hs, hspan⟩ := span_of_mem_diagnostics hshared hd
    obtain ⟨p, hp, rfl⟩ := List.mem_map.mp hs
    have hle : (p.extend u).token.span.stop + 2 ≤ s.length := h.shared_settled p hp
    simpa [hspan] using hle

end PartsAfter

end Cursor

theorem settled_tokens_shared (s u v : Bytes) :
    (∀ (k : Nat) (t : Token), (Cursor.start (s ++ u)).tokens[k]? = some t →
      t.span.stop + 2 ≤ s.length → (Cursor.start (s ++ v)).tokens[k]? = some t) ∧
    (scan (s ++ u)).diagnostics.filter (fun d => d.span.any (·.stop + 2 ≤ s.length)) <+:
      (scan (s ++ v)).diagnostics := by
  obtain ⟨shared, rest, rest', h⟩ := Cursor.exists_partsAfter (Cursor.standsIn_start s) u v
  exact ⟨fun _ _ ht hle => h.tokens_getElem? ht hle, h.diagnostics_prefix⟩

theorem number_shared_before_range :
    (Cursor.start (Bytes.ofString "@1.." ++ Bytes.ofString "5")).tokens[1]? =
      some ⟨.number, Bytes.ofString "1", ⟨1, 1⟩, 1⟩ ∧
    (Cursor.start (Bytes.ofString "@1.." ++ Bytes.ofString "\"\n")).tokens[1]? =
      some ⟨.number, Bytes.ofString "1", ⟨1, 1⟩, 1⟩ := by
  have ht : (Cursor.start (Bytes.ofString "@1.." ++ Bytes.ofString "5")).tokens[1]? =
      some ⟨.number, Bytes.ofString "1", ⟨1, 1⟩, 1⟩ := by cbv
  have hle : Span.stop ⟨1, 1⟩ + 2 ≤ (Bytes.ofString "@1..").length := by decide
  exact ⟨ht, (settled_tokens_shared (Bytes.ofString "@1..") _ _).1 1 _ ht hle⟩

example : (Cursor.start (Bytes.ofString "1." ++ Bytes.ofString ".")).tokens[0]? =
      some ⟨.number, Bytes.ofString "1", ⟨0, 1⟩, 1⟩ ∧
    (Cursor.start (Bytes.ofString "1." ++ [])).tokens[0]? =
      some ⟨.number, Bytes.ofString "1.", ⟨0, 2⟩, 1⟩ := by
  constructor <;> cbv

end ScriptLexer
