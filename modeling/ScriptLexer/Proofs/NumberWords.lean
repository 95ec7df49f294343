import ScriptLexer.Lexeme.Basic
import ScriptLexer.Proofs.ElementaryRules
import ScriptLexer.Proofs.LexicalGrammar

namespace ScriptLexer.Grammar

open Rule

theorem take_andThen (f g : Rule) (bs : Bytes) :
    bs.take (f.andThen g bs) = bs.take (f bs) ++ (bs.drop (f bs)).take (g (bs.drop (f bs))) := by
  rw [andThen, List.take_add]

theorem andThen_append {f g : Rule} {w rest : Bytes} (h : f (w ++ rest) = w.length) :
    f.andThen g (w ++ rest) = w.length + g rest := by
  rw [andThen, h, List.drop_left]

theorem digits_nil : Digits [] := fun _ hd => absurd hd List.not_mem_nil

theorem digits_take (bs : Bytes) : Digits (bs.take (digits bs)) :=
  fun _ hd => of_mem_take_run hd

theorem digits_append {ds : Bytes} (rest : Bytes) (h : Digits ds) :
    digits (ds ++ rest) = ds.length + digits rest :=
  run_append rest h

theorem digits_eq_zero {bs : Bytes} (h : ∀ b ∈ bs.head?, ¬ Byte.isDigit b) : digits bs = 0 :=
  run_eq_zero h

theorem digits_of_stop {ds rest : Bytes} {b : UInt8} (h : Digits ds) (hb : ¬ Byte.isDigit b) :
    digits (ds ++ b :: rest) = ds.length := by
  have hz : digits (b :: rest) = 0 := by
    apply digits_eq_zero
    rintro c hc
    obtain rfl := Option.some.inj hc
    exact hb
  rw [digits_append _ h, hz, Nat.add_zero]

theorem not_isDigit_point : ¬ Byte.isDigit Byte.point := by decide

theorem ne_point_of_isDigit {d : UInt8} {t : Bytes} (h : Byte.isDigit d) :
    (d :: t).head? ≠ some Byte.point := by
  intro he
  have he : d = Byte.point := Option.some.inj he
  exact not_isDigit_point (he ▸ h)

theorem not_isDigit_of_isExponentMark {b : UInt8} (h : Byte.isExponentMark b) :
    ¬ Byte.isDigit b := by
  simp only [Byte.isExponentMark, Bool.or_eq_true, beq_iff_eq] at h
  rcases h with rfl | rfl <;> decide

theorem ne_point_of_isExponentMark {b : UInt8} (h : Byte.isExponentMark b) : b ≠ Byte.point := by
  rintro rfl
  exact absurd h (by decide)

theorem not_isSign_of_isDigit {b : UInt8} (h : Byte.isDigit b) : ¬ Byte.isSign b := by
  intro hs
  simp only [Byte.isSign, Bool.or_eq_true, beq_iff_eq] at hs
  rcases hs with rfl | rfl <;> exact absurd h (by decide)

theorem sign_le_one (bs : Bytes) : sign bs ≤ 1 := by
  cases bs with
  | nil => simp [sign]
  | cons b rest =>
    simp only [sign]
    split <;> omega

theorem isSign_of_mem_take {bs : Bytes} {b : UInt8} (h : b ∈ bs.take (sign bs)) :
    Byte.isSign b := by
  cases bs with
  | nil => simp at h
  | cons c rest =>
    by_cases hc : Byte.isSign c
    · rw [sign, if_pos hc, List.take_succ_cons, List.take_zero, List.mem_singleton] at h
      rw [h, hc]
    · rw [sign, if_neg hc, List.take_zero] at h
      exact absurd h List.not_mem_nil

theorem exponent_sound (bs : Bytes) : Exponent (bs.take (exponent bs)) := by
  cases bs with
  | nil => exact Exponent.absent
  | cons b rest =>
    by_cases hb : Byte.isExponentMark b
    · rw [exponent, if_pos hb, Nat.add_comm, List.take_succ_cons, take_andThen]
      apply Exponent.written b _ _ hb
      · have := sign_le_one rest
        rw [List.length_take]
        omega
      · exact fun _ hs => isSign_of_mem_take hs
      · exact digits_take _
    · rw [exponent, if_neg hb, List.take_zero]
      exact Exponent.absent

theorem exponent_longest {e : Bytes} (h : Exponent e) (after : Bytes) :
    e.length ≤ exponent (e ++ after) := by
  cases h with
  | absent => exact Nat.zero_le _
  | written mark s ds hm hl hs hd =>
    have hn : s.length + ds.length ≤ sign.andThen digits (s ++ (ds ++ after)) := by
      rcases s with _ | ⟨c, t⟩
      · rcases ds with _ | ⟨d, ds⟩
        · exact Nat.zero_le _
        · have hz : sign (d :: ds ++ after) = 0 := by
            rw [List.cons_append, sign, if_neg (not_isSign_of_isDigit (hd d List.mem_cons_self))]
          rw [List.nil_append, andThen_of_eq_zero hz, digits_append after hd, List.length_nil]
          omega
      · have ht : t = [] := List.eq_nil_of_length_eq_zero (by simpa using hl)
        subst ht
        have h1 : sign ([c] ++ (ds ++ after)) = [c].length := by
          rw [List.singleton_append, sign, if_pos (hs c List.mem_cons_self)]
          rfl
        rw [andThen_append h1, digits_append after hd]
        omega
    rw [List.cons_append, List.append_assoc, exponent, if_pos hm, List.length_cons,
      List.length_append]
    omega

theorem exponent_head {e : Bytes} (h : Exponent e) :
    e = [] ∨ ∃ mark rest, e = mark :: rest ∧ Byte.isExponentMark mark := by
  cases h with
  | absent => exact Or.inl rfl
  | written mark s ds hm => exact Or.inr ⟨mark, s ++ ds, rfl, hm⟩

theorem fraction_longest {fs e : Bytes} (hf : Digits fs) (he : Exponent e) (after : Bytes) :
    fs.length + e.length ≤ digits.andThen exponent (fs ++ (e ++ after)) := by
  rcases exponent_head he with rfl | ⟨mark, rest, rfl, hm⟩
  · have hd := digits_append ([] ++ after) hf
    have hl := le_andThen digits exponent (fs ++ ([] ++ after))
    rw [List.length_nil]
    omega
  · have hd : digits (fs ++ (mark :: rest ++ after)) = fs.length :=
      digits_of_stop hf (not_isDigit_of_isExponentMark hm)
    have hl := exponent_longest he after
    rw [andThen_append hd]
    omega

theorem point_cons {rest : Bytes} (h : rest.head? ≠ some Byte.point) :
    point (Byte.point :: rest) = 1 := by
  rw [point, if_pos ⟨rfl, h⟩]

theorem point_andThen (g : Rule) {rest : Bytes} (h : rest.head? ≠ some Byte.point) :
    point.andThen g (Byte.point :: rest) = 1 + g rest :=
  andThen_append (w := [Byte.point]) (point_cons h)

theorem point_eq_zero {bs : Bytes} (h : bs.head? ≠ some Byte.point) : point bs = 0 := by
  cases bs with
  | nil => rfl
  | cons b rest =>
    have hb : b ≠ Byte.point := fun he => h (congrArg some he)
    rw [point, if_neg (fun hp => hb hp.1)]

theorem point_cases (bs : Bytes) :
    point bs = 0 ∨ ∃ rest, bs = Byte.point :: rest ∧ rest.head? ≠ some Byte.point := by
  cases bs with
  | nil => exact Or.inl rfl
  | cons b rest =>
    by_cases h : b = Byte.point ∧ rest.head? ≠ some Byte.point
    · exact Or.inr ⟨rest, by rw [h.1], h.2⟩
    · exact Or.inl (by rw [point, if_neg h])

theorem number_whole {ds e : Bytes} (hd : Digits ds) (he : Exponent e) (after : Bytes) :
    ds.length + e.length ≤ number (ds ++ (e ++ after)) := by
  rcases exponent_head he with rfl | ⟨mark, rest, rfl, hm⟩
  · have hl := le_andThen digits (point.andThen (digits.andThen exponent)) (ds ++ ([] ++ after))
    have ha := digits_append ([] ++ after) hd
    rw [number, List.length_nil]
    omega
  · have hstop := not_isDigit_of_isExponentMark hm
    have hz : digits (mark :: rest ++ after) = 0 :=
      digits_of_stop digits_nil hstop
    have hp : point (mark :: rest ++ after) = 0 := by
      apply point_eq_zero
      intro hb
      exact ne_point_of_isExponentMark hm (Option.some.inj hb)
    have hl : digits (ds ++ (mark :: rest ++ after)) = ds.length := digits_of_stop hd hstop
    rw [number, andThen_append hl, andThen_of_eq_zero hp, andThen_of_eq_zero hz]
    have := exponent_longest he after
    omega

theorem number_pointed {ds fs e : Bytes} (hd : Digits ds) (hf : Digits fs) (he : Exponent e)
    (after : Bytes) (hr : (fs ++ (e ++ after)).head? ≠ some Byte.point) :
    ds.length + 1 + fs.length + e.length ≤
      number (ds ++ Byte.point :: (fs ++ (e ++ after))) := by
  have hl : digits (ds ++ Byte.point :: (fs ++ (e ++ after))) = ds.length :=
    digits_of_stop hd not_isDigit_point
  have := fraction_longest hf he after
  rw [number, andThen_append hl, point_andThen _ hr]
  omega

theorem number_longest {w after : Bytes} (h : Number w after) :
    w.length ≤ number (w ++ after) := by
  cases h with
  | whole ds e after hn hd he =>
    rw [List.append_assoc, List.length_append]
    exact number_whole hd he after
  | pointed ds fs e after hn hd hf he hr =>
    rw [List.append_assoc] at hr
    have := number_pointed hd hf he after hr
    rw [List.append_assoc, List.cons_append, List.append_assoc, List.length_append,
      List.length_cons, List.length_append]
    omega
  | fraction fs e after hn hf he =>
    have hr : (fs ++ (e ++ after)).head? ≠ some Byte.point := by
      obtain ⟨f, fs, rfl⟩ := List.exists_cons_of_ne_nil hn
      exact ne_point_of_isDigit (hf f List.mem_cons_self)
    have := number_pointed digits_nil hf he after hr
    rw [List.nil_append, List.length_nil] at this
    rw [List.cons_append, List.append_assoc, List.length_cons, List.length_append]
    omega

theorem digits_sound (bs : Bytes) :
    ∃ ds rest, bs = ds ++ rest ∧ Digits ds ∧ digits bs = ds.length ∧ digits rest = 0 := by
  refine ⟨bs.take (digits bs), bs.drop (digits bs), (List.take_append_drop _ _).symm,
    digits_take bs, ?_, ?_⟩
  · rw [List.length_take, Nat.min_eq_left (digits_le bs)]
  · exact digits_eq_zero (fun _ hb => not_of_head_drop_run hb)

theorem fraction_sound (bs : Bytes) :
    ∃ fs e after, bs = fs ++ (e ++ after) ∧ Digits fs ∧ Exponent e ∧ digits bs = fs.length ∧
      digits.andThen exponent bs = fs.length + e.length := by
  obtain ⟨fs, rest, rfl, hf, hn, -⟩ := digits_sound bs
  refine ⟨fs, rest.take (exponent rest), rest.drop (exponent rest), ?_, hf, exponent_sound rest,
    hn, ?_⟩
  · rw [List.take_append_drop]
  · rw [andThen_append hn, List.length_take, Nat.min_eq_left (exponent_le rest)]

theorem digits_pos {b : UInt8} (rest : Bytes) (h : Byte.isDigit b) : 0 < digits (b :: rest) := by
  rw [digits, run_cons, if_pos h]
  omega

theorem beginsNumber_cases {b : UInt8} {rest : Bytes} (h : Lexeme.beginsNumber b rest) :
    Byte.isDigit b ∨ b = Byte.point ∧ ∃ d t, rest = d :: t ∧ Byte.isDigit d := by
  simp only [Lexeme.beginsNumber, Bool.or_eq_true, Bool.and_eq_true, beq_iff_eq,
    Option.any_eq_true] at h
  rcases h with h | ⟨h, d, hd, hdigit⟩
  · exact Or.inl h
  · obtain ⟨t, rfl⟩ := List.head?_eq_some_iff.mp hd
    exact Or.inr ⟨h, d, t, rfl, hdigit⟩

theorem point_of_no_digits {b : UInt8} {rest v : Bytes} (h : Lexeme.beginsNumber b rest)
    (hv : b :: rest = v) (hz : digits v = 0) :
    ∃ d t, v = Byte.point :: d :: t ∧ Byte.isDigit d := by
  subst hv
  rcases beginsNumber_cases h with hb | ⟨rfl, d, t, rfl, hd⟩
  · have := digits_pos rest hb
    omega
  · exact ⟨d, t, rfl, hd⟩

theorem number_sound {b : UInt8} {rest : Bytes} (h : Lexeme.beginsNumber b rest) :
    ∃ w after, b :: rest = w ++ after ∧ Number w after ∧ number (b :: rest) = w.length := by
  obtain ⟨ds, v, hs, hd, hn, hz⟩ := digits_sound (b :: rest)
  have hl : number (b :: rest) = ds.length + point.andThen (digits.andThen exponent) v := by
    rw [number, hs, andThen_append (hs ▸ hn)]
  have hpoint (hds : ds = []) : ∃ d t, v = Byte.point :: d :: t ∧ Byte.isDigit d :=
    point_of_no_digits h (by rw [hs, hds, List.nil_append]) hz
  rcases point_cases v with hp | ⟨x, rfl, hx⟩
  · have hds : ds ≠ [] := by
      intro he
      obtain ⟨d, t, rfl, hdigit⟩ := hpoint he
      rw [point_cons (ne_point_of_isDigit hdigit)] at hp
      omega
    refine ⟨ds ++ v.take (exponent v), v.drop (exponent v), ?_,
      Number.whole ds _ _ hds hd (exponent_sound v), ?_⟩
    · rw [List.append_assoc, List.take_append_drop, hs]
    · rw [hl, andThen_of_eq_zero hp, andThen_of_eq_zero hz, List.length_append, List.length_take,
        Nat.min_eq_left (exponent_le v)]
  · obtain ⟨fs, e, after, rfl, hf, he, hfn, hfe⟩ := fraction_sound x
    rw [point_andThen _ hx, hfe] at hl
    by_cases hds : ds = []
    · refine ⟨Byte.point :: (fs ++ e), after, by rw [hs, hds]; simp, ?_,
        by rw [hl, hds]; simp; omega⟩
      apply Number.fraction fs e after _ hf he
      obtain ⟨d, t, ht, hdigit⟩ := hpoint hds
      have := digits_pos t hdigit
      rw [← (List.cons.inj ht).2, hfn] at this
      exact List.length_pos_iff.mp this
    · refine ⟨ds ++ Byte.point :: (fs ++ e), after, by rw [hs]; simp, ?_, by rw [hl]; simp; omega⟩
      rw [← List.append_assoc] at hx
      exact Number.pointed ds fs e after hds hd hf he hx

end ScriptLexer.Grammar
