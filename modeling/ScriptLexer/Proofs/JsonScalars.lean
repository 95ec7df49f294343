import ScriptLexer.Proofs.JsonGrammar
import ScriptLexer.Proofs.NumberWords

namespace ScriptLexer.JsonGrammar

variable {α : Type}

def isMark (b : UInt8) : Bool := b == comma || b == colon || b == rightSquare || b == rightBrace

def isDelimiter (b : UInt8) : Bool := Byte.isLayout b || isMark b

def Stops (r : Bytes) : Prop := ∀ b ∈ r.head?, isMark b

def Delimited (r : Bytes) : Prop := ∀ b ∈ r.head?, isDelimiter b

/-- Texts of at most `n` bytes, with what may follow them, are told apart by their bytes alone. -/
def Unambiguous (n : Nat) (Follow : Bytes → Prop) (P : Bytes → α → Prop) : Prop :=
  ∀ ⦃u u' r r' : Bytes⦄ ⦃x x' : α⦄, u.length ≤ n → P u x → P u' x' → Follow r → Follow r' →
    u ++ r = u' ++ r' → u = u' ∧ x = x'

section Classes

theorem append_inj_of_class {p : UInt8 → Bool} {u u' r r' : Bytes} (hu : ∀ b ∈ u, p b)
    (hu' : ∀ b ∈ u', p b) (hr : ∀ b ∈ r.head?, ¬ p b) (hr' : ∀ b ∈ r'.head?, ¬ p b)
    (h : u ++ r = u' ++ r') : u = u' ∧ r = r' := by
  have hrun := Rule.run_append r hu
  rw [h, Rule.run_append r' hu', Rule.run_eq_zero hr, Rule.run_eq_zero hr'] at hrun
  exact List.append_inj h hrun.symm

theorem cons_append_inj {b b' : UInt8} {u u' r r' : Bytes}
    (h : (b :: u) ++ r = (b' :: u') ++ r') : b = b' ∧ u ++ r = u' ++ r' :=
  List.cons.inj h

theorem isDelimiter_cases {b : UInt8} (h : isDelimiter b) :
    b = Byte.blank ∨ b = Byte.tab ∨ b = Byte.carriageReturn ∨ b = Byte.lineFeed ∨ b = comma ∨
      b = colon ∨ b = rightSquare ∨ b = rightBrace := by
  simpa [isDelimiter, isMark, Byte.isLayout, or_assoc] using h

theorem not_isLayout_of_isMark {b : UInt8} (h : isMark b) : ¬ Byte.isLayout b := by
  simp only [isMark, Bool.or_eq_true, beq_iff_eq, or_assoc] at h
  rcases h with rfl | rfl | rfl | rfl <;> decide

theorem Stops.append {w r : Bytes} (hw : IsBlank w) (hr : Stops r) : Delimited (w ++ r) := by
  intro b hb
  cases w with
  | nil =>
    have := hr b hb
    simp [isDelimiter, this]
  | cons c w =>
    obtain rfl : c = b := Option.some.inj hb
    have := hw c List.mem_cons_self
    simp [isDelimiter, this]

theorem stops_cons {b : UInt8} (h : isMark b) (r : Bytes) : Stops (b :: r) := by
  intro c hc
  obtain rfl : b = c := Option.some.inj hc
  exact h

end Classes

section Numbers

def isNumberByte (b : UInt8) : Bool :=
  Byte.isDigit b || Byte.isSign b || b == Byte.point || Byte.isExponentMark b

theorem not_isNumberByte_of_isDelimiter {b : UInt8} (h : isDelimiter b) : ¬ isNumberByte b := by
  rcases isDelimiter_cases h with rfl | rfl | rfl | rfl | rfl | rfl | rfl | rfl <;> decide

theorem Whole.digits {w : Bytes} (h : Whole w) : Digits w := by
  cases h with
  | zero => exact ⟨List.cons_ne_nil _ _, List.forall_mem_singleton.mpr rfl⟩
  | positive d ds _ hd => exact hd

theorem Exponent.head_cases {e : Bytes} {k : Int} (h : Exponent e k) :
    ∀ b ∈ e.head?, Byte.isExponentMark b := by
  intro b hb
  cases h with
  | absent => cases hb
  | present mark s ds k hm hs hd =>
    obtain rfl : mark = b := Option.some.inj hb
    exact hm

theorem Exponent.head_not_digit {e : Bytes} {k : Int} (h : Exponent e k) :
    ∀ b ∈ e.head?, ¬ Byte.isDigit b :=
  fun b hb => Grammar.not_isDigit_of_isExponentMark (h.head_cases b hb)

theorem Fraction.head_not_digit {f ds e : Bytes} {k : Int} (hf : Fraction f ds)
    (he : Exponent e k) : ∀ b ∈ (f ++ e).head?, ¬ Byte.isDigit b := by
  cases hf with
  | absent => exact he.head_not_digit
  | present ds hd =>
    intro b hb
    obtain rfl : Byte.point = b := Option.some.inj hb
    exact Grammar.not_isDigit_point

theorem Sign.all_isSign {s : Bytes} {k : Int} (h : Sign s k) : ∀ b ∈ s, Byte.isSign b := by
  cases h with
  | absent => exact List.forall_mem_nil _
  | plus => exact List.forall_mem_singleton.mpr rfl
  | minus => exact List.forall_mem_singleton.mpr rfl

theorem Digits.head_not_sign {ds : Bytes} (h : Digits ds) :
    ∀ b ∈ ds.head?, ¬ Byte.isSign b :=
  fun b hb => Grammar.not_isSign_of_isDigit (h.2 b (List.mem_of_mem_head? hb))

theorem Exponent.unique {e : Bytes} {k k' : Int} (h : Exponent e k) (h' : Exponent e k') :
    k = k' := by
  cases h with
  | absent =>
    cases h'
    rfl
  | present mark s ds k hm hs hd =>
    generalize hu : mark :: (s ++ ds) = u at h'
    cases h' with
    | absent => cases hu
    | present mark' s' ds' k' hm' hs' hd' =>
      obtain ⟨rfl, rfl⟩ := append_inj_of_class hs.all_isSign hs'.all_isSign hd.head_not_sign
        hd'.head_not_sign (List.cons.inj hu).2
      cases hs <;> cases hs' <;> rfl

theorem Fraction.split_unique {f f' ds ds' e e' : Bytes} {k k' : Int} (hf : Fraction f ds)
    (hf' : Fraction f' ds') (he : Exponent e k) (he' : Exponent e' k') (h : f ++ e = f' ++ e') :
    ds = ds' ∧ e = e' := by
  -- no exponent starts with a point
  have hpoint {e : Bytes} {k : Int} (he : Exponent e k) (t : Bytes) : e ≠ Byte.point :: t := by
    rintro rfl
    exact absurd (he.head_cases _ rfl) (by decide)
  cases hf with
  | absent =>
    cases hf' with
    | absent => exact ⟨rfl, h⟩
    | present ds' hd' => exact absurd h (hpoint he _)
  | present ds hd =>
    cases hf' with
    | absent => exact absurd h.symm (hpoint he' _)
    | present ds' hd' =>
      exact append_inj_of_class hd.2 hd'.2 he.head_not_digit he'.head_not_digit (List.cons.inj h).2

theorem Magnitude.unique {u : Bytes} {q q' : Rat} (h : Magnitude u q) (h' : Magnitude u q') :
    q = q' := by
  cases h with
  | mk w f ds e k hw hf he =>
    generalize hu : w ++ (f ++ e) = u at h'
    cases h' with
    | mk w' f' ds' e' k' hw' hf' he' =>
      obtain ⟨rfl, hrest⟩ := append_inj_of_class hw.digits.2 hw'.digits.2 (hf.head_not_digit he)
        (hf'.head_not_digit he') hu
      obtain ⟨rfl, rfl⟩ := hf.split_unique hf' he he' hrest
      rw [he.unique he']

theorem Magnitude.head_digit {u : Bytes} {q : Rat} (h : Magnitude u q) :
    ∃ d t, u = d :: t ∧ Byte.isDigit d := by
  cases h with
  | mk w f ds e k hw hf he =>
    obtain ⟨hne, hd⟩ := hw.digits
    cases w with
    | nil => exact absurd rfl hne
    | cons d w => exact ⟨d, _, rfl, hd d List.mem_cons_self⟩

theorem Number.head_cases {u : Bytes} {q : Rat} (h : Number u q) :
    ∃ b t, u = b :: t ∧ (b = Byte.minus ∨ Byte.isDigit b) := by
  cases h with
  | positive u q hm =>
    obtain ⟨d, t, rfl, hd⟩ := hm.head_digit
    exact ⟨d, t, rfl, Or.inr hd⟩
  | negative u q hm => exact ⟨Byte.minus, u, rfl, Or.inl rfl⟩

theorem Number.unique {u : Bytes} {q q' : Rat} (h : Number u q) (h' : Number u q') : q = q' := by
  have hminus {t : Bytes} {q : Rat} (hm : Magnitude (Byte.minus :: t) q) : False := by
    obtain ⟨d, t', he, hd⟩ := hm.head_digit
    obtain ⟨rfl, -⟩ := List.cons.inj he
    cases hd
  cases h with
  | positive u q hm =>
    cases h' with
    | positive u q' hm' => exact hm.unique hm'
    | negative t q' hm' => exact (hminus hm).elim
  | negative t q hm =>
    generalize hu : Byte.minus :: t = u at h'
    cases h' with
    | positive u q' hm' =>
      subst hu
      exact (hminus hm').elim
    | negative t' q' hm' =>
      obtain ⟨-, rfl⟩ := List.cons.inj hu
      rw [hm.unique hm']

theorem isNumberByte_of_digits {ds : Bytes} (h : Digits ds) : ∀ b ∈ ds, isNumberByte b := by
  intro b hb
  simp [isNumberByte, h.2 b hb]

theorem Exponent.all_isNumberByte {e : Bytes} {k : Int} (h : Exponent e k) :
    ∀ b ∈ e, isNumberByte b := by
  cases h with
  | absent => exact List.forall_mem_nil _
  | present mark s ds k hm hs hd =>
    rw [List.forall_mem_cons, List.forall_mem_append]
    refine ⟨by simp [isNumberByte, hm], ?_, isNumberByte_of_digits hd⟩
    intro b hb
    simp [isNumberByte, hs.all_isSign b hb]

theorem Fraction.all_isNumberByte {f ds : Bytes} (h : Fraction f ds) :
    ∀ b ∈ f, isNumberByte b := by
  cases h with
  | absent => exact List.forall_mem_nil _
  | present ds hd => exact List.forall_mem_cons.mpr ⟨rfl, isNumberByte_of_digits hd⟩

theorem Magnitude.all_isNumberByte {u : Bytes} {q : Rat} (h : Magnitude u q) :
    ∀ b ∈ u, isNumberByte b := by
  cases h with
  | mk w f ds e k hw hf he =>
    rw [List.forall_mem_append, List.forall_mem_append]
    exact ⟨isNumberByte_of_digits hw.digits, hf.all_isNumberByte, he.all_isNumberByte⟩

theorem Number.all_isNumberByte {u : Bytes} {q : Rat} (h : Number u q) :
    ∀ b ∈ u, isNumberByte b := by
  cases h with
  | positive u q hm => exact hm.all_isNumberByte
  | negative u q hm => exact List.forall_mem_cons.mpr ⟨rfl, hm.all_isNumberByte⟩

theorem number_unambiguous (n : Nat) : Unambiguous n Delimited Number := by
  intro u u' r r' q q' _ hu hu' hr hr' h
  obtain ⟨rfl, -⟩ := append_inj_of_class hu.all_isNumberByte hu'.all_isNumberByte
    (fun b hb => not_isNumberByte_of_isDelimiter (hr b hb))
    (fun b hb => not_isNumberByte_of_isDelimiter (hr' b hb)) h
  exact ⟨rfl, hu.unique hu'⟩

end Numbers

section Strings

theorem length_codeUnit {h : Bytes} {n : Nat} (hc : codeUnit? h = some n) : h.length = 4 := by
  unfold codeUnit? at hc
  split at hc
  · rfl
  · cases hc

theorem codeUnit_unique {h h' r r' : Bytes} {m n : Nat} (hm : codeUnit? h = some m)
    (hn : codeUnit? h' = some n) (he : h ++ r = h' ++ r') : h = h' ∧ m = n ∧ r = r' := by
  obtain ⟨rfl, rfl⟩ := List.append_inj he ((length_codeUnit hm).trans (length_codeUnit hn).symm)
  exact ⟨rfl, Option.some.inj (hm.symm.trans hn), rfl⟩

theorem shortEscapes_unique : ∀ p ∈ shortEscapes, p.1 ≠ unitMark ∧
    ∀ p' ∈ shortEscapes, p.1 = p'.1 → p.2 = p'.2 := by
  decide

theorem toNat_ne_surrogate (c : Char) {m : Nat} (hm : m < 0x400) : c.toNat ≠ 0xd800 + m := by
  intro he
  have hc : c.val.toNat = 0xd800 + m := he
  rcases c.valid with hv | hv <;> omega

theorem Escape.unique {t t' r r' : Bytes} {c c' : Char} (h : Escape t c) (h' : Escape t' c')
    (he : t ++ r = t' ++ r') : t = t' ∧ c = c' := by
  cases h with
  | short b c hb =>
    have hunit := (shortEscapes_unique _ hb).1
    cases h' with
    | short b' c' hb' =>
      obtain ⟨rfl, -⟩ := List.cons.inj he
      exact ⟨rfl, (shortEscapes_unique _ hb).2 _ hb' rfl⟩
    | unit h c' hc' => exact absurd (List.cons.inj he).1 hunit
    | pair h l m n c' => exact absurd (List.cons.inj he).1 hunit
  | unit h c hc =>
    cases h' with
    | short b' c' hb' =>
      exact absurd (List.cons.inj he).1.symm (shortEscapes_unique _ hb').1
    | unit h' c' hc' =>
      obtain ⟨rfl, hn, -⟩ := codeUnit_unique hc hc' (List.cons.inj he).2
      exact ⟨rfl, Char.toNat_inj.mp hn⟩
    | pair h' l m n c' hh hl hm =>
      have ht := (cons_append_inj he).2
      rw [List.append_assoc] at ht
      exact absurd (codeUnit_unique hc hh ht).2.1 (toNat_ne_surrogate c hm)
  | pair h l m n c hh hl hm hn hc =>
    cases h' with
    | short b' c' hb' =>
      exact absurd (List.cons.inj he).1.symm (shortEscapes_unique _ hb').1
    | unit h' c' hc' =>
      have ht := (cons_append_inj he).2
      rw [List.append_assoc] at ht
      exact absurd (codeUnit_unique hh hc' ht).2.1.symm (toNat_ne_surrogate c' hm)
    | pair h' l' m' n' c' hh' hl' hm' hn' hc' =>
      have ht := (cons_append_inj he).2
      rw [List.append_assoc, List.append_assoc] at ht
      obtain ⟨rfl, hmm, ht⟩ := codeUnit_unique hh hh' ht
      obtain ⟨rfl, hnn, -⟩ := codeUnit_unique hl hl' (cons_append_inj (cons_append_inj ht).2).2
      refine ⟨rfl, Char.toNat_inj.mp ?_⟩
      omega

theorem Character.unique {u u' r r' : Bytes} {c c' : Char} (h : Character u c)
    (h' : Character u' c') (he : u ++ r = u' ++ r') : u = u' ∧ c = c' := by
  cases h with
  | plain c hc hq hb =>
    cases h' with
    | plain c' =>
      obtain ⟨rfl, -⟩ := Bytes.utf8EncodeChar_append_inj he
      exact ⟨rfl, rfl⟩
    | escaped t c' => exact absurd (Bytes.eq_of_utf8EncodeChar he rfl (by decide)) hb
  | escaped t c ht =>
    cases h' with
    | plain c' hc' hq' hb' => exact absurd (Bytes.eq_of_utf8EncodeChar he.symm rfl (by decide)) hb'
    | escaped t' c' ht' =>
      obtain ⟨rfl, rfl⟩ := ht.unique ht' (List.cons.inj he).2
      exact ⟨rfl, rfl⟩

theorem Character.ne_quote {u r t : Bytes} {c : Char} (h : Character u c) :
    u ++ r ≠ Byte.quote :: t := by
  intro he
  cases h with
  | plain c hc hq => exact hq (Bytes.eq_of_utf8EncodeChar he rfl (by decide))
  | escaped t c => cases he

theorem Characters.unique {u u' r r' : Bytes} {cs cs' : List Char} (h : Characters u cs)
    (h' : Characters u' cs') (he : u ++ Byte.quote :: r = u' ++ Byte.quote :: r') :
    u = u' ∧ cs = cs' := by
  induction h generalizing u' cs' with
  | nil =>
    cases h' with
    | nil => exact ⟨rfl, rfl⟩
    | cons u' t' c' cs' hu' =>
      rw [List.append_assoc] at he
      exact absurd he.symm hu'.ne_quote
  | cons u t c cs hu ht ih =>
    rw [List.append_assoc] at he
    cases h' with
    | nil => exact absurd he hu.ne_quote
    | cons u' t' c' cs' hu' ht' =>
      rw [List.append_assoc] at he
      obtain ⟨rfl, rfl⟩ := hu.unique hu' he
      obtain ⟨rfl, rfl⟩ := ih ht' (List.append_cancel_left he)
      exact ⟨rfl, rfl⟩

theorem quoted_unambiguous (n : Nat) (Follow : Bytes → Prop) : Unambiguous n Follow Quoted := by
  intro u u' r r' s s' _ hu hu' _ _ he
  cases hu with
  | mk u cs h =>
    cases hu' with
    | mk u' cs' h' =>
      have ht := (cons_append_inj he).2
      rw [List.append_assoc, List.append_assoc] at ht
      obtain ⟨rfl, rfl⟩ := h.unique h' ht
      exact ⟨rfl, rfl⟩

end Strings

end ScriptLexer.JsonGrammar
