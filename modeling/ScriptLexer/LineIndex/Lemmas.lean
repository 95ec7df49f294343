import ScriptLexer.LineIndex.Basic

namespace ScriptLexer.LineIndex

theorem lt_of_mem_startsFrom {pos i : Nat} {bs : Bytes} (h : i ∈ startsFrom pos bs) :
    pos ≤ i ∧ i < pos + bs.length := by
  induction bs generalizing pos with
  | nil => simp at h
  | cons b bs ih =>
    rw [startsFrom_cons, List.mem_append] at h
    rw [List.length_cons]
    rcases h with h | h
    · split at h
      · have := List.mem_singleton.mp h
        omega
      · exact absurd h List.not_mem_nil
    · have := ih h
      omega

theorem pairwise_startsFrom (pos : Nat) (bs : Bytes) : (startsFrom pos bs).Pairwise (· < ·) := by
  induction bs generalizing pos with
  | nil => exact List.Pairwise.nil
  | cons b bs ih =>
    rw [startsFrom_cons]
    split
    · refine List.Pairwise.cons (fun i hi => ?_) (ih (pos + 1))
      exact (lt_of_mem_startsFrom hi).1
    · exact ih (pos + 1)

theorem countP_startsFrom (pos limit : Nat) (bs : Bytes) :
    (startsFrom pos bs).countP (· ≤ limit) = (bs.take (limit + 1 - pos)).count Byte.lineFeed := by
  induction bs generalizing pos with
  | nil => simp
  | cons b bs ih =>
    rw [startsFrom_cons, List.countP_append, ih]
    by_cases hp : pos ≤ limit
    · have he : limit + 1 - pos = limit + 1 - (pos + 1) + 1 := by omega
      rw [he, List.take_succ_cons, List.count_cons]
      by_cases hb : b = Byte.lineFeed
      · simp [hb, hp]
        omega
      · simp [hb]
    · have hz : limit + 1 - pos = 0 := by omega
      have hz' : limit + 1 - (pos + 1) = 0 := by omega
      rw [hz, hz']
      split <;> simp [hp]

def Divides (starts : Array Nat) (pos lo hi : Nat) : Prop :=
  lo ≤ hi ∧ hi ≤ starts.size ∧ (∀ i < lo, starts.getD i 0 ≤ pos) ∧
    (∀ i, hi ≤ i → i < starts.size → pos < starts.getD i 0)

theorem getD_le_getD {starts : Array Nat} (hs : starts.toList.Pairwise (· < ·)) {i j : Nat}
    (hij : i ≤ j) (hj : j < starts.size) : starts.getD i 0 ≤ starts.getD j 0 := by
  rcases Nat.lt_or_eq_of_le hij with hlt | rfl
  · have hi : i < starts.size := Nat.lt_trans hlt hj
    have := List.pairwise_iff_getElem.mp hs i j (by simpa using hi) (by simpa using hj) hlt
    simp only [Array.getD, hi, hj, dite_true]
    exact Nat.le_of_lt (by simpa using this)
  · exact Nat.le_refl _

theorem divides_search {starts : Array Nat} {pos lo hi : Nat}
    (hs : starts.toList.Pairwise (· < ·)) (h : Divides starts pos lo hi) :
    Divides starts pos (search starts pos lo hi) (search starts pos lo hi) := by
  fun_induction search starts pos lo hi with
  | case1 lo hi hlt hm ih =>
    obtain ⟨_, hhi, _, habove⟩ := h
    refine ih ⟨by omega, hhi, fun i hi' => ?_, habove⟩
    exact Nat.le_trans (getD_le_getD hs (by omega) (by omega)) hm
  | case2 lo hi hlt hm ih =>
    obtain ⟨_, hhi, hbelow, _⟩ := h
    refine ih ⟨by omega, by omega, hbelow, fun i hi' hsize => ?_⟩
    exact Nat.lt_of_lt_of_le (by omega) (getD_le_getD hs hi' hsize)
  | case3 lo hi hlt =>
    have he : lo = hi := by have := h.1; omega
    subst he
    exact h

theorem getElem?_eq_getD {starts : Array Nat} {i : Nat} (hi : i < starts.size) :
    starts.toList[i]? = some (starts.getD i 0) := by
  simp [Array.getD, hi]

theorem countP_eq_of_divides {starts : Array Nat} {pos n : Nat} (h : Divides starts pos n n) :
    starts.toList.countP (· ≤ pos) = n := by
  obtain ⟨_, hn, hbelow, habove⟩ := h
  have ht : (starts.toList.take n).countP (· ≤ pos) = (starts.toList.take n).length := by
    rw [List.countP_eq_length]
    intro x hx
    obtain ⟨i, hi⟩ := List.mem_iff_getElem?.mp hx
    rw [List.getElem?_take] at hi
    split at hi
    · next hin =>
      rw [getElem?_eq_getD (by omega)] at hi
      obtain rfl := Option.some.inj hi
      simpa using hbelow i hin
    · cases hi
  have hd : (starts.toList.drop n).countP (· ≤ pos) = 0 := by
    rw [List.countP_eq_zero]
    intro x hx
    obtain ⟨i, hi⟩ := List.mem_iff_getElem?.mp hx
    have hin := (List.getElem?_eq_some_iff.mp hi).1
    rw [List.length_drop, Array.length_toList] at hin
    rw [List.getElem?_drop, getElem?_eq_getD (by omega)] at hi
    obtain rfl := Option.some.inj hi
    simpa using habove (n + i) (by omega) (by omega)
  rw [← List.take_append_drop n starts.toList, List.countP_append, ht, hd, List.length_take,
    Array.length_toList]
  omega

theorem pairwise_starts_ofText (text : Text) :
    (ofText text).starts.toList.Pairwise (· < ·) := by
  rw [ofText, List.toList_toArray]
  exact List.Pairwise.cons (fun i hi => (lt_of_mem_startsFrom hi).1) (pairwise_startsFrom 1 _)

theorem lineOf_ofText (text : Text) (pos : Nat) :
    (ofText text).lineOf pos = 1 + (text.bytes.take pos).count Byte.lineFeed := by
  have hd : Divides (ofText text).starts pos 0 (ofText text).starts.size :=
    ⟨Nat.zero_le _, Nat.le_refl _, fun i hi => absurd hi (Nat.not_lt_zero i), fun i h h' => by omega⟩
  have hc := countP_eq_of_divides (divides_search (pairwise_starts_ofText text) hd)
  rw [lineOf, ← hc, ofText, List.toList_toArray, List.countP_cons, countP_startsFrom]
  simp
  omega

end ScriptLexer.LineIndex
