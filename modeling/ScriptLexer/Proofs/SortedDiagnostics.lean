import Mathlib
import ScriptLexer.Proofs.LineCounting
import ScriptLexer.Proofs.TokenTiling

/-!
A scan reports in the order of the text: each diagnostic is found no later than the next and its
lexeme starts earlier. So the order of diagnostics tells those of one scan apart, and sorting them
gives the order of the scan back.
-/

namespace ScriptLexer

namespace Diagnostic

def add (collection : List Diagnostic) (d : Diagnostic) : List Diagnostic := collection ++ [d]

structure Precedes (d e : Diagnostic) : Prop where
  line_le : d.line ≤ e.line
  start_lt : d.span.elim 0 Span.start < e.span.elim 0 Span.start

theorem foldl_add (collection ds : List Diagnostic) :
    ds.foldl add collection = collection ++ ds := by
  induction ds generalizing collection with
  | nil => rw [List.foldl_nil, List.append_nil]
  | cons d ds ih => rw [List.foldl_cons, ih, add, List.append_assoc, List.singleton_append]

theorem Precedes.le {d e : Diagnostic} (h : d.Precedes e) : d.le e := by
  obtain ⟨hline, hstart⟩ := h
  rw [le_iff]
  omega

theorem Precedes.not_le {d e : Diagnostic} (h : d.Precedes e) : ¬ e.le d := by
  obtain ⟨hline, hstart⟩ := h
  rw [le_iff]
  omega

theorem eq_of_le_of_le {ds : List Diagnostic} (h : ds.Pairwise Precedes) {d e : Diagnostic}
    (hd : d ∈ ds) (he : e ∈ ds) (hde : d.le e) (hed : e.le d) : d = e := by
  have : Std.Symm fun d e : Diagnostic => ¬ (d.le e ∧ e.le d) := ⟨fun _ _ h hle => h hle.symm⟩
  have hapart : ds.Pairwise fun d e => ¬ (d.le e ∧ e.le d) :=
    h.imp fun hp hle => hp.not_le hle.2
  by_contra hne
  exact hapart.forall hd he hne ⟨hde, hed⟩

theorem sort_of_perm {ds es : List Diagnostic} (h : ds.Perm es) (hes : es.Pairwise Precedes) :
    sort ds = es := by
  have hperm := (sort_perm ds).trans h
  apply List.Perm.eq_of_pairwise _ (sort_pairwise ds) (hes.imp Precedes.le) hperm
  intro d e hd he
  exact eq_of_le_of_le hes (hperm.mem_iff.mp hd) he

end Diagnostic

namespace Cursor

variable {c : Cursor} {bs : Bytes} {d : Diagnostic}

theorem StandsIn.line_of_diagnostic (h : c.StandsIn bs) (hd : c.next.diagnostic = some d) :
    d.line = 1 + (bs.take c.next.token.span.stop).count Byte.lineFeed := by
  rw [(diagnostic_next hd).2, (span_next c).2]
  exact h.next.line_eq

theorem start_lt_stop_of_diagnostic (hd : c.next.diagnostic = some d) :
    c.next.token.span.start < c.next.token.span.stop :=
  Nat.lt_add_of_pos_right (length_pos_of_diagnostic hd)

theorem StandsIn.precedes {c' : Cursor} {e : Diagnostic} (h : c.StandsIn bs) (h' : c'.StandsIn bs)
    (hle : c.next.token.span.stop ≤ c'.next.token.span.start) (hd : c.next.diagnostic = some d)
    (he : c'.next.diagnostic = some e) : d.Precedes e := by
  have hlt := start_lt_stop_of_diagnostic hd
  have hlt' := start_lt_stop_of_diagnostic he
  constructor
  · rw [h.line_of_diagnostic hd, h'.line_of_diagnostic he]
    apply Nat.add_le_add_left
    exact (List.take_prefix_take_left (by omega)).sublist.count_le _
  · rw [(diagnostic_next hd).1, (diagnostic_next he).1]
    exact Nat.lt_of_lt_of_le hlt hle

theorem StandsIn.pairwise_diagnostics (h : c.StandsIn bs) :
    c.scan.diagnostics.Pairwise Diagnostic.Precedes := by
  have hord := List.pairwise_map.mp (ordered_steps c)
  apply List.pairwise_filterMap.mpr
  apply hord.imp_of_mem
  intro s t hs ht hle d hd e he
  obtain ⟨j, rfl⟩ := exists_of_mem_steps hs
  obtain ⟨k, rfl⟩ := exists_of_mem_steps ht
  exact (h.after j).precedes (h.after k) hle hd he

end Cursor

theorem sort_restores_scan_order (bs : Bytes) (ds : List Diagnostic)
    (h : ds.Perm (scan bs).diagnostics) :
    Diagnostic.sort (ds.foldl Diagnostic.add []) = (scan bs).diagnostics ∧
      Diagnostic.sort (scan bs).diagnostics = (scan bs).diagnostics ∧
      Diagnostic.sort (Diagnostic.sort (ds.foldl Diagnostic.add [])) =
        Diagnostic.sort (ds.foldl Diagnostic.add []) := by
  have hscan := (Cursor.standsIn_start bs).pairwise_diagnostics
  have hsort : Diagnostic.sort (ds.foldl Diagnostic.add []) = (scan bs).diagnostics := by
    rw [Diagnostic.foldl_add]
    exact Diagnostic.sort_of_perm h hscan
  have hown := Diagnostic.sort_of_perm (List.Perm.refl _) hscan
  refine ⟨hsort, hown, ?_⟩
  rw [hsort]
  exact hown

theorem sort_restores_lines_of_lexemes :
    [⟨.unterminatedString, 3, some ⟨6, 2⟩⟩, ⟨.unidentifiedToken, 2, some ⟨4, 1⟩⟩,
        ⟨.unidentifiedBacktick, 2, some ⟨0, 3⟩⟩].Perm
          (scan (Bytes.ofString "\x60\n\x60 @ \"\n")).diagnostics ∧
      Diagnostic.sort ([⟨.unterminatedString, 3, some ⟨6, 2⟩⟩, ⟨.unidentifiedToken, 2, some ⟨4, 1⟩⟩,
        ⟨.unidentifiedBacktick, 2, some ⟨0, 3⟩⟩].foldl Diagnostic.add []) =
          (scan (Bytes.ofString "\x60\n\x60 @ \"\n")).diagnostics := by
  have hd : (scan (Bytes.ofString "\x60\n\x60 @ \"\n")).diagnostics =
      [⟨.unidentifiedBacktick, 2, some ⟨0, 3⟩⟩, ⟨.unidentifiedToken, 2, some ⟨4, 1⟩⟩,
        ⟨.unterminatedString, 3, some ⟨6, 2⟩⟩] := by cbv
  have hperm : [⟨.unterminatedString, 3, some ⟨6, 2⟩⟩, ⟨.unidentifiedToken, 2, some ⟨4, 1⟩⟩,
      ⟨.unidentifiedBacktick, 2, some ⟨0, 3⟩⟩].Perm
        (scan (Bytes.ofString "\x60\n\x60 @ \"\n")).diagnostics := by
    rw [hd]
    decide
  exact ⟨hperm, (sort_restores_scan_order _ _ hperm).1⟩

end ScriptLexer
