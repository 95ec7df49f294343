import ScriptLexer.Cursor.Basic
import ScriptLexer.Text

/-!
The scanner by offsets into its text. Whatever it cuts from the text is checked: where a cut would
lie outside the text or inside a character there is no result.
-/

namespace ScriptLexer.Guarded

structure Place where
  pos : Nat
  line : Nat
deriving DecidableEq, Repr

structure Outcome where
  token : Token
  diagnostic : Option Diagnostic
  place : Place
deriving DecidableEq, Repr

def rest? (ok : Nat → Bool) (text : Text) (pos : Nat) : Option Bytes :=
  if pos ≤ text.size ∧ ok pos then some (text.bytes.drop pos) else none

def skipTo? (ok : Nat → Bool) (text : Text) (d : UInt8) (p : Place) : Option (Bool × Place) :=
  match (rest? ok text p.pos).map (·.findIdx? fun b => b == d || b == Byte.lineFeed) with
  | none => none
  | some none => some (false, ⟨text.size, p.line⟩)
  | some (some offset) =>
    if h : p.pos + offset < text.size ∧ ok (p.pos + offset) then
      if text[p.pos + offset] = d then some (true, ⟨p.pos + offset, p.line⟩)
      else skipTo? ok text d ⟨p.pos + offset + 1, p.line + 1⟩
    else none
termination_by text.size - p.pos
decreasing_by
  have := h.1
  omega

theorem skipTo?_bounds {ok : Nat → Bool} {text : Text} {d : UInt8} {p q : Place}
    (h : skipTo? ok text d p = some (true, q)) : p.pos ≤ q.pos ∧ q.pos < text.size := by
  fun_induction skipTo? ok text d p with
  | case1 => simp at h
  | case2 => simp at h
  | case3 p offset ho hb hd =>
    simp only [Option.some.injEq, Prod.mk.injEq, true_and] at h
    subst h
    exact ⟨Nat.le_add_right _ _, hb.1⟩
  | case4 p offset ho hb hd ih =>
    have := ih h
    dsimp only at this
    omega
  | case5 => simp at h

def blockComment? (ok : Nat → Bool) (text : Text) (p : Place) : Option (Bool × Place) :=
  match h : skipTo? ok text Byte.star p with
  | none => none
  | some (false, q) => some (false, q)
  | some (true, q) =>
    if text.bytes[q.pos + 1]? = some Byte.slash then some (true, ⟨q.pos + 2, q.line⟩)
    else blockComment? ok text ⟨q.pos + 1, q.line⟩
termination_by text.size - p.pos
decreasing_by
  have := skipTo?_bounds h
  omega

def lineComment? (ok : Nat → Bool) (text : Text) (p : Place) : Option Place :=
  (rest? ok text p.pos).map fun rest =>
    match rest.findIdx? (· == Byte.lineFeed) with
    | none => ⟨text.size, p.line⟩
    | some offset => ⟨p.pos + offset, p.line⟩

inductive Ahead where
  | nothing
  | trivia (behind : Place)
  | openComment (behind : Place)
  | lexeme (b : UInt8)
deriving DecidableEq, Repr

def ahead? (text : Text) (p : Place) : Option Ahead :=
  match text.bytes[p.pos]? with
  | none => some .nothing
  | some b =>
    if b = Byte.lineFeed then some (.trivia ⟨p.pos + 1, p.line + 1⟩)
    else if Byte.isLayout b then some (.trivia ⟨p.pos + 1, p.line⟩)
    else if b = Byte.slash ∧ text.bytes[p.pos + 1]? = some Byte.slash then
      (lineComment? text.isBoundary text ⟨p.pos + 2, p.line⟩).map .trivia
    else if b = Byte.slash ∧ text.bytes[p.pos + 1]? = some Byte.star then
      (blockComment? text.isBoundary text ⟨p.pos + 2, p.line⟩).map fun r =>
        if r.1 then .trivia r.2 else .openComment r.2
    else some (.lexeme b)

def outcome? (text : Text) (kind : Kind) (issue : Option Issue) (p q : Place) : Option Outcome :=
  (text.slice? p.pos q.pos).map fun lexeme =>
    ⟨⟨kind, lexeme, Span.ofBounds p.pos q.pos, p.line⟩,
      issue.map fun i => ⟨i, q.line, some (Span.ofBounds p.pos q.pos)⟩, q⟩

def string? (text : Text) (p : Place) : Option Outcome :=
  (skipTo? text.isBoundary text Byte.quote ⟨p.pos + 1, p.line⟩).bind fun
    | (true, q) => outcome? text .string none p ⟨q.pos + 1, q.line⟩
    | (false, q) => outcome? text .string (some .unterminatedString) p q

def backtick? (text : Text) (p : Place) : Option Outcome :=
  (skipTo? text.isBoundary text Byte.backtick ⟨p.pos + 1, p.line⟩).bind fun
    | (true, q) => (text.slice? p.pos (q.pos + 1)).bind fun word =>
      match Operator.ofWord? word with
      | some o => outcome? text (.operator o) none p ⟨q.pos + 1, q.line⟩
      | none => outcome? text .unidentified (some .unidentifiedBacktick) p ⟨q.pos + 1, q.line⟩
    | (false, q) => outcome? text .unidentified (some .unterminatedBacktick) p q

def name? (text : Text) (p : Place) : Option Outcome :=
  let q : Place := ⟨p.pos + Rule.name (text.bytes.drop p.pos), p.line⟩
  (text.slice? p.pos q.pos).bind fun word =>
    match Keyword.ofWord? word with
    | some k => outcome? text (.keyword k) none p q
    | none => outcome? text .identifier none p q

def stray? (text : Text) (p : Place) : Option Outcome :=
  (text.slice? p.pos text.size).bind fun rest =>
    let width := (rest.toByteArray.utf8DecodeChar? 0).elim 1 Char.utf8Size
    outcome? text .unidentified (some .unidentifiedToken) p ⟨p.pos + width, p.line⟩

def symbol? (text : Text) (p : Place) : Option Outcome :=
  match Operator.symbolAt? (text.bytes.drop p.pos) with
  | some (s, o) => outcome? text (.operator o) none p ⟨p.pos + s.length, p.line⟩
  | none => stray? text p

def lexeme? (text : Text) (p : Place) (b : UInt8) : Option Outcome :=
  if b = Byte.quote then string? text p
  else if b = Byte.backtick then backtick? text p
  else if Lexeme.beginsNumber b (text.bytes.drop (p.pos + 1)) then
    outcome? text .number none p ⟨p.pos + Rule.number (text.bytes.drop p.pos), p.line⟩
  else if Byte.isNameStart b then name? text p
  else symbol? text p

theorem lineComment?_bounds {ok : Nat → Bool} {text : Text} {p q : Place}
    (h : lineComment? ok text p = some q) : p.pos ≤ q.pos := by
  obtain ⟨rest, hr, rfl⟩ := Option.map_eq_some_iff.mp h
  have hle : p.pos ≤ text.size := by
    rw [rest?] at hr
    split at hr
    · next hp => exact hp.1
    · simp at hr
  split
  · exact hle
  · exact Nat.le_add_right _ _

theorem blockComment?_bounds {ok : Nat → Bool} {text : Text} {p q : Place}
    (h : blockComment? ok text p = some (true, q)) : p.pos ≤ q.pos := by
  fun_induction blockComment? ok text p with
  | case1 => simp at h
  | case2 => simp at h
  | case3 p r hr hslash =>
    have := skipTo?_bounds hr
    obtain ⟨-, rfl⟩ : True ∧ _ = q := by simpa using h
    dsimp only
    omega
  | case4 p r hr hslash ih =>
    have := skipTo?_bounds hr
    have := ih h
    dsimp only at this
    omega

theorem ahead?_bounds {text : Text} {p q : Place} (h : ahead? text p = some (.trivia q)) :
    p.pos < q.pos ∧ p.pos < text.size := by
  rw [ahead?] at h
  split at h
  · simp at h
  next b hb =>
  have hlt : p.pos < text.size := by
    rw [← Text.length_bytes]
    exact (List.getElem?_eq_some_iff.mp hb).1
  refine ⟨?_, hlt⟩
  split at h
  · obtain rfl : _ = q := by simpa using h
    exact Nat.lt_succ_self _
  split at h
  · obtain rfl : _ = q := by simpa using h
    exact Nat.lt_succ_self _
  split at h
  · obtain ⟨r, hr, he⟩ := Option.map_eq_some_iff.mp h
    obtain rfl : r = q := by simpa using he
    have := lineComment?_bounds hr
    dsimp only at this
    omega
  split at h
  · obtain ⟨⟨closed, r⟩, hr, he⟩ := Option.map_eq_some_iff.mp h
    cases closed with
    | false => simp at he
    | true =>
      obtain rfl : r = q := by simpa using he
      have := blockComment?_bounds hr
      dsimp only at this
      omega
  · simp at h

def next? (text : Text) (p : Place) : Option Outcome :=
  match _h : ahead? text p with
  | none => none
  | some .nothing => outcome? text .endOfText none p p
  | some (.trivia q) => next? text q
  | some (.openComment q) => outcome? text .unidentified (some .unterminatedComment) p q
  | some (.lexeme b) => lexeme? text p b
termination_by text.size - p.pos
decreasing_by
  have := ahead?_bounds _h
  omega

section

variable {text : Text} {p q : Place}

theorem next?_of_nothing (h : ahead? text p = some .nothing) :
    next? text p = outcome? text .endOfText none p p := by
  rw [next?]
  split <;> simp_all

theorem next?_of_trivia (h : ahead? text p = some (.trivia q)) : next? text p = next? text q := by
  rw [next?]
  split <;> simp_all

theorem next?_of_openComment (h : ahead? text p = some (.openComment q)) :
    next? text p = outcome? text .unidentified (some .unterminatedComment) p q := by
  rw [next?]
  split <;> simp_all

theorem next?_of_lexeme {b : UInt8} (h : ahead? text p = some (.lexeme b)) :
    next? text p = lexeme? text p b := by
  rw [next?]
  split <;> simp_all

end

def after? (text : Text) : Nat → Option Place
  | 0 => some ⟨0, 1⟩
  | k + 1 => ((after? text k).bind (next? text)).map (·.place)

end ScriptLexer.Guarded
