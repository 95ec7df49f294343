import Mathlib.Data.List.Forall2
import ScriptLexer.Listing
import ScriptLexer.Proofs.JsonScalars

namespace ScriptLexer.JsonGrammar

open Listing.Json (escape quoted hexDigit Scalar Object renderMember renderObject renderArray
  separator)

section Decimals

theorem valueOf_append (ds : Bytes) (d : UInt8) :
    valueOf (ds ++ [d]) = 10 * valueOf ds + (d.toNat - 0x30) := by
  rw [valueOf, List.foldl_append]
  rfl

theorem decimal_of_lt :
    ∀ n < 10, ∃ d, Bytes.ofString (toString n) = [d] ∧ Byte.isDigit d ∧ d.toNat - 0x30 = n ∧
      (n ≠ 0 → d ≠ 0x30) := by
  intro n hn
  refine ⟨UInt8.ofNat (0x30 + n), ?_⟩
  revert n
  decide

theorem decimal_of_ge {n : Nat} (h : 10 ≤ n) :
    Bytes.ofString (toString n) =
      Bytes.ofString (toString (n / 10)) ++ Bytes.ofString (toString (n % 10)) := by
  rw [← Bytes.ofString_append]
  exact congrArg Bytes.ofString (Nat.repr_eq_repr_append_repr h)

theorem whole_decimal (n : Nat) :
    Whole (Bytes.ofString (toString n)) ∧ valueOf (Bytes.ofString (toString n)) = n := by
  induction n using Nat.strongRecOn with
  | ind n ih =>
    by_cases hn : n < 10
    · obtain ⟨d, hd, hdigit, hvalue, hzero⟩ := decimal_of_lt n hn
      rw [hd]
      refine ⟨?_, by simpa [valueOf] using hvalue⟩
      by_cases hz : n = 0
      · subst hz
        obtain rfl : 0x30 = d := List.singleton_inj.mp hd
        exact Whole.zero
      · exact Whole.positive d [] (hzero hz) ⟨by simp, by simpa using hdigit⟩
    · obtain ⟨hwhole, hvalue⟩ := ih (n / 10) (by omega)
      obtain ⟨d, hd, hdigit, hlast, -⟩ := decimal_of_lt (n % 10) (by omega)
      rw [decimal_of_ge (by omega), hd]
      constructor
      · generalize Bytes.ofString (toString (n / 10)) = w at hwhole hvalue
        cases hwhole with
        | zero =>
          have hzero : 0 = n / 10 := hvalue
          omega
        | positive c ds hc hds =>
          refine Whole.positive c (ds ++ [d]) hc ⟨by simp, ?_⟩
          exact List.forall_mem_append.mpr ⟨hds.2, by simpa using hdigit⟩
      · rw [valueOf_append, hvalue, hlast]
        omega

theorem number_decimal (n : Nat) : Number (Bytes.ofString (toString n)) n := by
  obtain ⟨hwhole, hvalue⟩ := whole_decimal n
  have hm := Magnitude.mk _ _ _ _ _ hwhole Fraction.absent Exponent.absent
  rw [List.append_nil, List.append_nil, hvalue] at hm
  exact Number.positive _ _ (by simpa using hm)

end Decimals

section Strings

theorem shortEscapes_listed {p : UInt8 × UInt8} (h : p ∈ Listing.Json.shortEscapes) :
    p.1 < 0x80 ∧ (p.2, Char.ofNat p.1.toNat) ∈ shortEscapes := by
  have hall : Listing.Json.shortEscapes.all fun p =>
      p.1 < 0x80 ∧ (p.2, Char.ofNat p.1.toNat) ∈ shortEscapes := by decide
  exact of_decide_eq_true (List.all_eq_true.mp hall p h)

theorem codeUnit_control : ∀ n < 0x20, codeUnit? (Bytes.ofString "00" ++
    [hexDigit (UInt8.ofNat n / 16), hexDigit (UInt8.ofNat n % 16)]) =
      some (Char.ofNat n).toNat := by
  decide

theorem ascii_ofNat : ∀ n < 0x80, (Char.ofNat n).toNat = n ∧
    String.utf8EncodeChar (Char.ofNat n) = [UInt8.ofNat n] := by
  decide

theorem lookup_quoted : ∀ n < 0x80, Char.ofNat n = '"' ∨ Char.ofNat n = '\\' →
    Listing.Json.shortEscapes.lookup (UInt8.ofNat n) ≠ none := by
  decide

theorem mem_of_lookup {l : List (UInt8 × UInt8)} {a b : UInt8} (h : l.lookup a = some b) :
    (a, b) ∈ l := by
  obtain ⟨l₁, l₂, rfl, -⟩ := List.lookup_eq_some_iff.mp h
  simp

theorem escape_of_not_ascii {b : UInt8} (h : ¬ b < 0x80) : escape b = [b] := by
  unfold escape
  split
  · next l hl =>
    exact absurd (shortEscapes_listed (mem_of_lookup hl)).1 h
  · have hb : ¬ b < Byte.blank := fun hb => h (UInt8.lt_trans hb (by decide))
    rw [if_neg hb]

theorem character_escape {b : UInt8} (h : b < 0x80) :
    Character (escape b) (Char.ofNat b.toNat) := by
  unfold escape
  split
  · next l hl =>
    apply Character.escaped
    apply Escape.short
    exact (shortEscapes_listed (mem_of_lookup hl)).2
  · next hl =>
    split
    · next hb =>
      have hu := codeUnit_control b.toNat hb
      rw [UInt8.ofNat_toNat] at hu
      apply Character.escaped
      exact Escape.unit _ _ hu
    · next hb =>
      obtain ⟨hn, hc⟩ := ascii_ofNat b.toNat h
      have hspecial := lookup_quoted b.toNat h
      rw [UInt8.ofNat_toNat] at hc hspecial
      rw [← hc]
      apply Character.plain
      · rw [hn]
        exact UInt8.not_lt.mp hb
      · exact fun he => hspecial (Or.inl he) hl
      · exact fun he => hspecial (Or.inr he) hl

theorem character_escaped (c : Char) : Character ((String.utf8EncodeChar c).flatMap escape) c := by
  obtain ⟨b, tail, hb, -, htail⟩ := Bytes.utf8EncodeChar_eq_cons c
  by_cases h : b < 0x80
  · obtain rfl := Bytes.utf8EncodeChar_ascii hb h
    have hc := (ascii_ofNat b.toNat h).2
    rw [UInt8.ofNat_toNat] at hc
    obtain rfl : c = Char.ofNat b.toNat :=
      Bytes.eq_of_utf8EncodeChar (r := []) (by rw [hb, List.append_nil]) hc h
    rw [hb, List.flatMap_cons, List.flatMap_nil, List.append_nil]
    exact character_escape h
  · have hbytes : ∀ x ∈ String.utf8EncodeChar c, escape x = [x] := by
      rw [hb, List.forall_mem_cons]
      refine ⟨escape_of_not_ascii h, fun x hx => escape_of_not_ascii fun hlt => ?_⟩
      exact Bytes.not_isContinuation_of_ascii hlt (htail x hx)
    have hc : 0x80 ≤ c.toNat := by
      refine Nat.le_of_not_lt fun hlt => h ?_
      have he := (ascii_ofNat c.toNat hlt).2
      rw [Char.ofNat_toNat, hb] at he
      rw [(List.cons.inj he).1, UInt8.lt_iff_toNat_lt, UInt8.toNat_ofNat']
      exact Nat.lt_of_le_of_lt (Nat.mod_le _ _) hlt
    rw [List.flatMap_congr hbytes, List.flatMap_singleton']
    apply Character.plain
    · exact Nat.le_trans (by decide) hc
    · rintro rfl
      exact absurd hc (by decide)
    · rintro rfl
      exact absurd hc (by decide)

theorem characters_escaped (cs : List Char) :
    Characters ((Bytes.ofChars cs).flatMap escape) cs := by
  induction cs with
  | nil => exact Characters.nil
  | cons c cs ih =>
    rw [Bytes.ofChars_cons, List.flatMap_append]
    exact Characters.cons _ _ c cs (character_escaped c) ih

theorem quoted_ofString (s : String) : Quoted (quoted (Bytes.ofString s)) s := by
  have h := Quoted.mk _ _ (characters_escaped s.toList)
  rwa [String.ofList_toList, ← Bytes.ofString_eq_ofChars] at h

end Strings

section Values

inductive Means : Scalar → Value → Prop
  | number (n : Nat) : Means (.number n) (.number n)
  | string (s : String) : Means (.string (Bytes.ofString s)) (.string s)

def MemberMeans (m : String × Scalar) (p : String × Value) : Prop := m.1 = p.1 ∧ Means m.2 p.2

inductive ObjectMeans (o : Object) : Value → Prop
  | mk (ms : List (String × Value)) : o ≠ [] → List.Forall₂ MemberMeans o ms →
      ObjectMeans o (.object ms)

theorem Means.denotes {sc : Scalar} {v : Value} (h : Means sc v) : Denotes sc.render v := by
  cases h with
  | number n => exact Denotes.number _ _ (number_decimal n)
  | string s => exact Denotes.string _ _ (quoted_ofString s)

theorem member_renderMember {m : String × Scalar} {p : String × Value} (h : MemberMeans m p)
    {w : Bytes} (hw : IsBlank w) : Member Denotes (Byte.lineFeed :: (renderMember m ++ w)) p := by
  obtain ⟨key, v⟩ := p
  obtain ⟨rfl, hv⟩ := h
  have hkey : Padded Quoted ((Byte.lineFeed :: Bytes.ofString "    ") ++
      (quoted (Bytes.ofString m.1) ++ [])) m.1 :=
    Padded.mk _ _ _ _ (by decide) (quoted_ofString m.1) (by decide)
  have hvalue : Padded Denotes ([Byte.blank] ++ (m.2.render ++ w)) v :=
    Padded.mk _ _ _ _ (by decide) hv.denotes hw
  have he : Byte.lineFeed :: (renderMember m ++ w) =
      (Byte.lineFeed :: Bytes.ofString "    ") ++ (quoted (Bytes.ofString m.1) ++ []) ++
        colon :: ([Byte.blank] ++ (m.2.render ++ w)) := by
    have hcolon : Bytes.ofString ": " = [colon, Byte.blank] := rfl
    simp [renderMember, hcolon]
  rw [he]
  exact Member.mk _ _ _ _ hkey hvalue

variable {α β : Type} {P : Bytes → α → Prop} {R : β → α → Prop} {f : β → Bytes}

theorem series_intercalate {l : List β} {xs : List α} (hl : List.Forall₂ R l xs) (hne : l ≠ [])
    (h : ∀ x y, R x y → ∀ w, IsBlank w → P (Byte.lineFeed :: (f x ++ w)) y) {w : Bytes}
    (hw : IsBlank w) : Series P (Byte.lineFeed :: (separator.intercalate (l.map f) ++ w)) xs := by
  induction hl with
  | nil => exact absurd rfl hne
  | @cons x y l ys hx hl ih =>
    cases hl with
    | nil =>
      rw [List.map_cons, List.map_nil, List.intercalate_singleton]
      exact Series.last _ _ (h x y hx w hw)
    | @cons x' y' l ys hx' hl =>
      have hseparator : separator = [comma, Byte.lineFeed] := rfl
      have hmore := Series.more _ _ _ _ (h x y hx [] (by decide)) (ih (List.cons_ne_nil _ _))
      rw [List.map_cons, List.map_cons, List.intercalate_cons_cons]
      simpa [hseparator] using hmore

theorem padded_renderObject {o : Object} {v : Value} (h : ObjectMeans o v) {w : Bytes}
    (hw : IsBlank w) : Padded Denotes (Byte.lineFeed :: (renderObject o ++ w)) v := by
  cases h with
  | mk ms hne hms =>
    have hs : Series (Member Denotes) (Byte.lineFeed ::
        (separator.intercalate (o.map renderMember) ++ Bytes.ofString "\n  ")) ms :=
      series_intercalate hms hne (fun m p hm w hw => member_renderMember hm hw) (by decide)
    have hp := Padded.mk (Byte.lineFeed :: Bytes.ofString "  ") _ w _ (by decide)
      (Denotes.object _ _ (Enclosed.some _ _ hs)) hw
    have hopen : Bytes.ofString "  \x7b\n" = Bytes.ofString "  " ++ [leftBrace, Byte.lineFeed] :=
      rfl
    have hclose : Bytes.ofString "\n  \x7d" = Bytes.ofString "\n  " ++ [rightBrace] := rfl
    rw [renderObject, hopen, hclose]
    simpa using hp

theorem denotes_renderArray {os : List Object} {vs : List Value}
    (h : List.Forall₂ ObjectMeans os vs) : Denotes (renderArray os) (.array vs) := by
  apply Denotes.array
  cases os with
  | nil =>
    obtain rfl := List.forall₂_nil_left_iff.mp h
    exact Enclosed.none [] (by decide)
  | cons o os =>
    have hs : Series (Padded Denotes) (Byte.lineFeed ::
        (separator.intercalate ((o :: os).map renderObject) ++ [Byte.lineFeed])) vs :=
      series_intercalate h (List.cons_ne_nil _ _) (fun o v ho w hw => padded_renderObject ho hw)
        (by decide)
    have hopen : Bytes.ofString "[\n" = [leftSquare, Byte.lineFeed] := rfl
    have hclose : Bytes.ofString "\n]" = [Byte.lineFeed, rightSquare] := rfl
    unfold renderArray
    rw [hopen, hclose]
    have he : Enclosed leftSquare rightSquare (Padded Denotes) _ vs := Enclosed.some _ _ hs
    simpa using he

end Values

end ScriptLexer.JsonGrammar
