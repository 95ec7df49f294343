import ScriptLexer.Lexeme.Rule

namespace ScriptLexer.Rule

theorem run_append {p : UInt8 → Bool} {body : Bytes} (rest : Bytes) (h : ∀ b ∈ body, p b) :
    run p (body ++ rest) = body.length + run p rest := by
  rw [run, List.takeWhile_append_of_pos h, List.length_append]
  rfl

theorem run_eq_zero {p : UInt8 → Bool} {bs : Bytes} (h : ∀ b ∈ bs.head?, ¬ p b) :
    run p bs = 0 := by
  cases bs with
  | nil => rfl
  | cons b bs => rw [run_cons, if_neg (h b rfl)]

theorem take_run (p : UInt8 → Bool) (bs : Bytes) : bs.take (run p bs) = bs.takeWhile p :=
  (List.prefix_iff_eq_take.mp (List.takeWhile_prefix p)).symm

theorem of_mem_take_run {p : UInt8 → Bool} {bs : Bytes} {b : UInt8} (h : b ∈ bs.take (run p bs)) :
    p b := by
  rw [take_run] at h
  exact List.all_eq_true.mp List.all_takeWhile b h

theorem drop_run (p : UInt8 → Bool) (bs : Bytes) : bs.drop (run p bs) = bs.dropWhile p := by
  have h : bs.take (run p bs) ++ bs.drop (run p bs) = bs.takeWhile p ++ bs.dropWhile p := by
    rw [List.take_append_drop, List.takeWhile_append_dropWhile]
  rw [take_run] at h
  exact List.append_cancel_left h

theorem not_of_head_drop_run {p : UInt8 → Bool} {bs : Bytes} {b : UInt8}
    (h : (bs.drop (run p bs)).head? = some b) : ¬ p b := by
  rw [drop_run] at h
  have := List.head?_dropWhile_not p bs
  rw [h] at this
  simpa using this

theorem through?_cons (d b : UInt8) (bs : Bytes) :
    through? d (b :: bs) = if b = d then some 1 else (through? d bs).map (· + 1) := by
  by_cases hb : b = d
  · simp [through?, List.idxOf?_cons, hb]
  · simp [through?, List.idxOf?_cons, hb, Function.comp_def]

theorem through?_complete {d : UInt8} {body : Bytes} (rest : Bytes) (h : d ∉ body) :
    through? d (body ++ d :: rest) = some (body.length + 1) := by
  induction body with
  | nil => rw [List.nil_append, through?_cons, if_pos rfl, List.length_nil]
  | cons b body ih =>
    have hb : b ≠ d := fun he => h (by simp [he])
    rw [List.cons_append, through?_cons, if_neg hb,
      ih (fun hm => h (List.mem_cons_of_mem _ hm)), Option.map_some, List.length_cons]

theorem through?_eq_none_iff (d : UInt8) (bs : Bytes) : through? d bs = none ↔ d ∉ bs := by
  simp [through?]

theorem infix_cons_iff_head (a b x : UInt8) (bs : Bytes) :
    [a, b] <:+: x :: bs ↔ (x = a ∧ bs.head? = some b) ∨ [a, b] <:+: bs := by
  rw [List.infix_cons_iff]
  cases bs with
  | nil => simp
  | cons y bs => simp [List.cons_prefix_cons, eq_comm]

theorem throughPairFrom?_complete {a b : UInt8} (hab : a ≠ b) {body : Bytes} (rest : Bytes)
    (seen : Nat) (h : ¬ [a, b] <:+: body) :
    throughPairFrom? a b seen (body ++ a :: b :: rest) = some (seen + body.length + 2) := by
  induction body generalizing seen with
  | nil => simp [throughPairFrom?]
  | cons x body ih =>
    rw [infix_cons_iff_head, not_or] at h
    have hx : ¬ (x = a ∧ (body ++ a :: b :: rest).head? = some b) := by
      rintro ⟨hx, hh⟩
      cases body with
      | nil => exact hab (Option.some.inj hh)
      | cons y body => exact h.1 ⟨hx, hh⟩
    rw [List.cons_append, throughPairFrom?, if_neg hx, ih _ h.2, List.length_cons]
    congr 1
    omega

theorem throughPairFrom?_sound {a b : UInt8} {seen : Nat} {bs : Bytes} {n : Nat}
    (h : throughPairFrom? a b seen bs = some n) :
    ∃ body rest, bs = body ++ a :: b :: rest ∧ ¬ [a, b] <:+: body ∧
      n = seen + body.length + 2 := by
  induction bs generalizing seen with
  | nil => simp [throughPairFrom?] at h
  | cons x bs ih =>
    rw [throughPairFrom?] at h
    split at h
    · next hx =>
      obtain ⟨rest, rfl⟩ := List.head?_eq_some_iff.mp hx.2
      refine ⟨[], rest, by rw [hx.1, List.nil_append], by simp, ?_⟩
      exact (Option.some.inj h).symm
    · next hx =>
      obtain ⟨body, rest, rfl, hi, hn⟩ := ih h
      refine ⟨x :: body, rest, rfl, ?_, by rw [hn, List.length_cons]; omega⟩
      rw [infix_cons_iff_head]
      rintro (⟨rfl, hh⟩ | hb)
      · obtain ⟨tail, rfl⟩ := List.head?_eq_some_iff.mp hh
        exact hx ⟨rfl, rfl⟩
      · exact hi hb

theorem throughPair?_complete {a b : UInt8} (hab : a ≠ b) {body : Bytes} (rest : Bytes)
    (h : ¬ [a, b] <:+: body) :
    throughPair? a b (body ++ a :: b :: rest) = some (body.length + 2) := by
  rw [throughPair?, throughPairFrom?_complete hab rest 0 h, Nat.zero_add]

theorem throughPair?_sound {a b : UInt8} {bs : Bytes} {n : Nat}
    (h : throughPair? a b bs = some n) :
    ∃ body rest, bs = body ++ a :: b :: rest ∧ ¬ [a, b] <:+: body ∧ n = body.length + 2 := by
  obtain ⟨body, rest, hs, hi, hn⟩ := throughPairFrom?_sound h
  exact ⟨body, rest, hs, hi, by omega⟩

theorem throughPairFrom?_ne_none {a b : UInt8} {bs : Bytes} (seen : Nat) (h : [a, b] <:+: bs) :
    throughPairFrom? a b seen bs ≠ none := by
  induction bs generalizing seen with
  | nil => simp at h
  | cons x bs ih =>
    rw [throughPairFrom?]
    split
    · simp
    · next hx => exact ih _ (((infix_cons_iff_head a b x bs).mp h).resolve_left hx)

theorem not_infix_of_throughPair? {a b : UInt8} {bs : Bytes} (h : throughPair? a b bs = none) :
    ¬ [a, b] <:+: bs :=
  fun hi => throughPairFrom?_ne_none 0 hi h

theorem throughPair?_eq_none_iff (a b : UInt8) (bs : Bytes) :
    throughPair? a b bs = none ↔ ¬ [a, b] <:+: bs := by
  constructor
  · exact not_infix_of_throughPair?
  · intro h
    rw [Option.eq_none_iff_forall_ne_some]
    intro n hn
    obtain ⟨body, rest, rfl, -, -⟩ := throughPair?_sound hn
    exact h ⟨body, rest, by simp⟩

end ScriptLexer.Rule
