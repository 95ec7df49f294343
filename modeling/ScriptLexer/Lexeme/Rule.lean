import ScriptLexer.Bytes

namespace ScriptLexer

abbrev Rule := Bytes → Nat

namespace Rule

def run (p : UInt8 → Bool) : Rule := fun bs => (bs.takeWhile p).length

def andThen (f g : Rule) : Rule := fun bs => f bs + g (bs.drop (f bs))

def digits : Rule := run Byte.isDigit

/-- A decimal point, but not the first point of a range as in `1..5`. -/
def point : Rule
  | [] => 0
  | b :: rest => if b = Byte.point ∧ rest.head? ≠ some Byte.point then 1 else 0

def sign : Rule
  | [] => 0
  | b :: _ => if Byte.isSign b then 1 else 0

def exponent : Rule
  | [] => 0
  | b :: rest => if Byte.isExponentMark b then 1 + sign.andThen digits rest else 0

def number : Rule := digits.andThen (point.andThen (digits.andThen exponent))

def name : Rule := run Byte.isNamePart

def through? (delimiter : UInt8) (bs : Bytes) : Option Nat := (bs.idxOf? delimiter).map (· + 1)

def throughPairFrom? (a b : UInt8) (seen : Nat) : Bytes → Option Nat
  | [] => none
  | x :: rest =>
    if x = a ∧ rest.head? = some b then some (seen + 2) else throughPairFrom? a b (seen + 1) rest

def throughPair? (a b : UInt8) (bs : Bytes) : Option Nat := throughPairFrom? a b 0 bs

theorem run_cons (p : UInt8 → Bool) (b : UInt8) (bs : Bytes) :
    run p (b :: bs) = if p b then run p bs + 1 else 0 := by
  simp only [run, List.takeWhile_cons]
  split <;> rfl

theorem le_andThen (f g : Rule) (bs : Bytes) : f bs ≤ f.andThen g bs := Nat.le_add_right _ _

theorem andThen_of_eq_zero {f g : Rule} {bs : Bytes} (h : f bs = 0) : f.andThen g bs = g bs := by
  rw [andThen, h, Nat.zero_add, List.drop_zero]

theorem run_le (p : UInt8 → Bool) (bs : Bytes) : run p bs ≤ bs.length :=
  (List.takeWhile_prefix p).length_le

theorem andThen_le {f g : Rule} (hf : ∀ bs, f bs ≤ bs.length) (hg : ∀ bs, g bs ≤ bs.length)
    (bs : Bytes) : f.andThen g bs ≤ bs.length := by
  have h := hg (bs.drop (f bs))
  have := hf bs
  rw [List.length_drop] at h
  simp only [andThen]
  omega

theorem digits_le (bs : Bytes) : digits bs ≤ bs.length := run_le _ bs

theorem point_le (bs : Bytes) : point bs ≤ bs.length := by
  cases bs with
  | nil => simp [point]
  | cons b rest =>
    simp only [point, List.length_cons]
    split <;> omega

theorem sign_le (bs : Bytes) : sign bs ≤ bs.length := by
  cases bs with
  | nil => simp [sign]
  | cons b rest =>
    simp only [sign, List.length_cons]
    split <;> omega

theorem exponent_le (bs : Bytes) : exponent bs ≤ bs.length := by
  cases bs with
  | nil => simp [exponent]
  | cons b rest =>
    have := andThen_le sign_le digits_le rest
    simp only [exponent, List.length_cons]
    split <;> omega

theorem number_le (bs : Bytes) : number bs ≤ bs.length :=
  andThen_le digits_le (andThen_le point_le (andThen_le digits_le exponent_le)) bs

theorem through?_le {delimiter : UInt8} {bs : Bytes} {n : Nat} (h : through? delimiter bs = some n) :
    0 < n ∧ n ≤ bs.length := by
  obtain ⟨i, hi, rfl⟩ := Option.map_eq_some_iff.mp h
  have := List.findIdx?_eq_some_iff_findIdx_eq.mp hi
  omega

theorem throughPairFrom?_le {a b : UInt8} {seen : Nat} {bs : Bytes} {n : Nat}
    (h : throughPairFrom? a b seen bs = some n) : seen + 2 ≤ n ∧ n ≤ seen + bs.length := by
  induction bs generalizing seen with
  | nil => simp [throughPairFrom?] at h
  | cons x rest ih =>
    simp only [throughPairFrom?] at h
    split at h
    · next hx =>
      obtain rfl := Option.some.inj h
      cases rest with
      | nil => simp at hx
      | cons y rest =>
        simp only [List.length_cons]
        omega
    · have := ih h
      simp only [List.length_cons]
      omega

theorem throughPair?_le {a b : UInt8} {bs : Bytes} {n : Nat} (h : throughPair? a b bs = some n) :
    2 ≤ n ∧ n ≤ bs.length := by
  have := throughPairFrom?_le h
  omega

end Rule

end ScriptLexer
