import Mathlib.Algebra.Group.Nat.Defs
import Mathlib.Data.Nat.Basic
import ScriptLexer.Proofs.TextCharacters

/-!
The forms in which a value can be written byte by byte like a character: a lead byte with as many
ones as there are bytes, then six bits to each continuation byte. A character has the shortest form
of its value; longer forms, forms of values that are no characters, and cut forms begin none.
-/

namespace ScriptLexer.Bytes

def continuations : Nat → Nat → Bytes
  | 0, _ => []
  | n + 1, value => UInt8.ofNat (0x80 + value / 64 ^ n % 64) :: continuations n value

def lead (n value : Nat) : Nat := 0x100 - 2 ^ (7 - n) + value / 64 ^ n

def form (n value : Nat) : Bytes := UInt8.ofNat (lead n value) :: continuations n value

def capacity (n : Nat) : Nat := 2 ^ (5 * n + 6)

inductive IllFormed : Bytes → Prop
  | overlong (n value : Nat) (rest : Bytes) (pos : 1 ≤ n) (le : n ≤ 5)
      (shorter : value < 0x80 ∨ ∃ m, 1 ≤ m ∧ m < n ∧ value < capacity m) :
      IllFormed (form n value ++ rest)
  | surrogate (value : Nat) (rest : Bytes) (high : 0xd800 ≤ value) (low : value ≤ 0xdfff) :
      IllFormed (form 2 value ++ rest)
  | beyond (n value : Nat) (rest : Bytes) (pos : 1 ≤ n) (le : n ≤ 5) (fits : value < capacity n)
      (large : 0x10ffff < value) : IllFormed (form n value ++ rest)
  | truncated (c : Char) (front : Bytes) (begins : front <+: String.utf8EncodeChar c)
      (nonempty : front ≠ []) (short : front ≠ String.utf8EncodeChar c) : IllFormed front

theorem length_continuations (n value : Nat) : (continuations n value).length = n := by
  induction n with
  | zero => rfl
  | succ n ih => rw [continuations, List.length_cons, ih]

theorem ofNat_injective {a b : Nat} (ha : a < 0x100) (hb : b < 0x100)
    (h : UInt8.ofNat a = UInt8.ofNat b) : a = b := by
  have hn := congrArg UInt8.toNat h
  rwa [UInt8.toNat_ofNat_of_lt' ha, UInt8.toNat_ofNat_of_lt' hb] at hn

theorem continuations_inj {n v w : Nat} (h : continuations n v = continuations n w) :
    v % 64 ^ n = w % 64 ^ n := by
  induction n with
  | zero => rw [Nat.pow_zero, Nat.mod_one, Nat.mod_one]
  | succ n ih =>
    rw [continuations, continuations, List.cons.injEq] at h
    have hdigit := ofNat_injective (by omega) (by omega) h.1
    rw [Nat.mod_pow_succ, Nat.mod_pow_succ, ih h.2, Nat.add_left_cancel hdigit]

theorem capacity_mono {m n : Nat} (h : m ≤ n) : capacity m ≤ capacity n :=
  Nat.pow_le_pow_right (by decide) (by omega)

theorem lead_lt {n value : Nat} (hn : n ≤ 5) (h : value < capacity n) :
    lead n value < 0x100 - 2 ^ (6 - n) := by
  have hcapacity : capacity n = 64 ^ n * 2 ^ (6 - n) := by
    rw [show 64 = 2 ^ 6 from rfl, ← Nat.pow_mul, ← Nat.pow_add, capacity]
    congr 1
    omega
  have htop : value / 64 ^ n < 2 ^ (6 - n) := Nat.div_lt_of_lt_mul (hcapacity ▸ h)
  have hdouble : 2 ^ (7 - n) = 2 ^ (6 - n) * 2 := by
    rw [← Nat.pow_succ]
    congr 1
    omega
  have hle : 2 ^ (7 - n) ≤ 2 ^ 7 := Nat.pow_le_pow_right (by decide) (Nat.sub_le 7 n)
  rw [lead]
  omega

theorem lead_lt_byte {n value : Nat} (hn : n ≤ 5) (h : value < capacity n) :
    lead n value < 0x100 :=
  Nat.lt_of_lt_of_le (lead_lt hn h) (Nat.sub_le _ _)

theorem lead_not_ascii (n value : Nat) : 0x80 ≤ lead n value := by
  have hle : 2 ^ (7 - n) ≤ 2 ^ 7 := Nat.pow_le_pow_right (by decide) (Nat.sub_le 7 n)
  calc
    0x80 ≤ 0x100 - 2 ^ (7 - n) := by omega
    _ ≤ lead n value := Nat.le_add_right _ _

theorem lead_lt_lead {m n v w : Nat} (h : m < n) (hn : n ≤ 5) (hv : v < capacity m) :
    lead m v < lead n w := by
  have hpow : 2 ^ (7 - n) ≤ 2 ^ (6 - m) := Nat.pow_le_pow_right (by decide) (by omega)
  calc
    lead m v < 0x100 - 2 ^ (6 - m) := lead_lt (by omega) hv
    _ ≤ 0x100 - 2 ^ (7 - n) := Nat.sub_le_sub_left hpow _
    _ ≤ lead n w := Nat.le_add_right _ _

theorem form_unique {m n v w : Nat} {rest : Bytes} (hm : m ≤ 5) (hn : n ≤ 5) (hv : v < capacity m)
    (hw : w < capacity n) (h : form m v <+: form n w ++ rest) : m = n ∧ v = w := by
  rw [form, form, List.cons_append, List.cons_prefix_cons] at h
  have hlead := ofNat_injective (lead_lt_byte hm hv) (lead_lt_byte hn hw) h.1
  obtain hlt | rfl | hgt := Nat.lt_trichotomy m n
  · exact absurd hlead (Nat.ne_of_lt (lead_lt_lead hlt hn hv))
  · have htail : continuations m v = continuations m w := by
      have hprefix : continuations m v <+: continuations m w := by
        apply List.prefix_of_prefix_length_le h.2 (List.prefix_append _ _)
        rw [length_continuations, length_continuations]
      apply hprefix.eq_of_length
      rw [length_continuations, length_continuations]
    have hmod := continuations_inj htail
    have hdiv : v / 64 ^ m = w / 64 ^ m := Nat.add_left_cancel hlead
    refine ⟨rfl, ?_⟩
    rw [← Nat.div_add_mod v (64 ^ m), ← Nat.div_add_mod w (64 ^ m), hmod, hdiv]
  · exact absurd hlead (Nat.ne_of_gt (lead_lt_lead hgt hm hw))

theorem form_one {v : Nat} (h : v < capacity 1) :
    form 1 v = [UInt8.ofNat (v / 64 % 0x20 + 0xc0), UInt8.ofNat (v % 0x40 + 0x80)] := by
  change v < 0x800 at h
  have hlead : lead 1 v = v / 64 % 0x20 + 0xc0 := by
    rw [lead]
    omega
  have hlast : 0x80 + v / 64 ^ 0 % 64 = v % 0x40 + 0x80 := by omega
  rw [form, continuations, continuations, hlead, hlast]

theorem form_two {v : Nat} (h : v < capacity 2) :
    form 2 v = [UInt8.ofNat (v / 4096 % 0x10 + 0xe0), UInt8.ofNat (v / 64 % 0x40 + 0x80),
      UInt8.ofNat (v % 0x40 + 0x80)] := by
  change v < 0x10000 at h
  have hlead : lead 2 v = v / 4096 % 0x10 + 0xe0 := by
    rw [lead]
    omega
  have hnext : 0x80 + v / 64 ^ 1 % 64 = v / 64 % 0x40 + 0x80 := by omega
  have hlast : 0x80 + v / 64 ^ 0 % 64 = v % 0x40 + 0x80 := by omega
  rw [form, continuations, continuations, continuations, hlead, hnext, hlast]

theorem form_three {v : Nat} (h : v < capacity 3) :
    form 3 v = [UInt8.ofNat (v / 262144 % 8 + 0xf0), UInt8.ofNat (v / 4096 % 0x40 + 0x80),
      UInt8.ofNat (v / 64 % 0x40 + 0x80), UInt8.ofNat (v % 0x40 + 0x80)] := by
  change v < 0x200000 at h
  have hlead : lead 3 v = v / 262144 % 8 + 0xf0 := by
    rw [lead]
    omega
  have hnext : 0x80 + v / 64 ^ 2 % 64 = v / 4096 % 0x40 + 0x80 := by omega
  have hthird : 0x80 + v / 64 ^ 1 % 64 = v / 64 % 0x40 + 0x80 := by omega
  have hlast : 0x80 + v / 64 ^ 0 % 64 = v % 0x40 + 0x80 := by omega
  rw [form, continuations, continuations, continuations, continuations, hlead, hnext, hthird,
    hlast]

inductive Shortest (c : Char) : Prop
  | ascii (lt : c.val.toNat < 0x80) (eq : String.utf8EncodeChar c = [UInt8.ofNat c.val.toNat])
  | form (n : Nat) (le : n ≤ 3) (eq : String.utf8EncodeChar c = form n c.val.toNat)
      (not_ascii : 0x80 ≤ c.val.toNat) (fits : c.val.toNat < capacity n)
      (shortest : ∀ m, 1 ≤ m → m < n → capacity m ≤ c.val.toNat)

theorem shortest (c : Char) : Shortest c := by
  have hv : c.val.toNat < 0x110000 := by
    rcases c.valid with h | h <;> omega
  have hmono {m n : Nat} (hm : m < n + 1) (h : capacity n ≤ c.val.toNat) :
      capacity m ≤ c.val.toNat := Nat.le_trans (capacity_mono (Nat.le_of_lt_succ hm)) h
  by_cases hone : c.val.toNat ≤ 0x7f
  · apply Shortest.ascii (Nat.lt_succ_of_le hone)
    simp only [String.utf8EncodeChar, if_pos hone]
  by_cases htwo : c.val.toNat ≤ 0x7ff
  · have hfits : c.val.toNat < capacity 1 := Nat.lt_succ_of_le htwo
    apply Shortest.form 1 (by decide) _ (by omega) hfits
    · intro m hm hlt
      omega
    · simp only [String.utf8EncodeChar, if_neg hone, if_pos htwo, form_one hfits]
  by_cases hthree : c.val.toNat ≤ 0xffff
  · have hfits : c.val.toNat < capacity 2 := Nat.lt_succ_of_le hthree
    apply Shortest.form 2 (by decide) _ (by omega) hfits
    · intro m _ hlt
      exact hmono hlt (show 0x800 ≤ c.val.toNat by omega)
    · simp only [String.utf8EncodeChar, if_neg hone, if_neg htwo, if_pos hthree, form_two hfits]
  · have hfits : c.val.toNat < capacity 3 := Nat.lt_trans hv (by decide)
    apply Shortest.form 3 (by decide) _ (by omega) hfits
    · intro m _ hlt
      exact hmono hlt (show 0x10000 ≤ c.val.toNat by omega)
    · simp only [String.utf8EncodeChar, if_neg hone, if_neg htwo, if_neg hthree, form_three hfits]

theorem value_of_prefix {c : Char} {n w : Nat} {rest : Bytes} (hn : n ≤ 5) (hw : w < capacity n)
    (h : String.utf8EncodeChar c <+: form n w ++ rest) :
    w = c.val.toNat ∧ 0x80 ≤ w ∧ ∀ m, 1 ≤ m → m < n → capacity m ≤ w := by
  cases shortest c with
  | ascii hlt heq =>
    rw [heq, form, List.cons_append, List.cons_prefix_cons] at h
    have hhead := ofNat_injective (by omega) (lead_lt_byte hn hw) h.1
    have := lead_not_ascii n w
    omega
  | form m hm heq hascii hfits hshortest =>
    rw [heq] at h
    obtain ⟨rfl, rfl⟩ := form_unique (by omega) hn hfits hw h
    exact ⟨rfl, hascii, hshortest⟩

theorem IllFormed.ne_nil {bs : Bytes} (h : IllFormed bs) : bs ≠ [] := by
  cases h with
  | truncated c front begins nonempty short => exact nonempty
  | _ => exact List.cons_ne_nil _ _

theorem IllFormed.not_prefix {bs : Bytes} (h : IllFormed bs) (c : Char) :
    ¬ String.utf8EncodeChar c <+: bs := by
  intro hc
  cases h with
  | overlong n value rest pos le shorter =>
    have hfits : value < capacity n := by
      rcases shorter with hlt | ⟨m, -, hm, hlt⟩
      · exact Nat.lt_of_lt_of_le hlt (Nat.le_trans (by decide) (capacity_mono pos))
      · exact Nat.lt_of_lt_of_le hlt (capacity_mono (Nat.le_of_lt hm))
    obtain ⟨-, hascii, hshortest⟩ := value_of_prefix le hfits hc
    rcases shorter with hlt | ⟨m, hpos, hm, hlt⟩
    · omega
    · exact absurd hlt (Nat.not_lt.mpr (hshortest m hpos hm))
  | surrogate value rest high low =>
    have hfits : value < capacity 2 := Nat.lt_of_le_of_lt low (by decide)
    obtain ⟨rfl, -, -⟩ := value_of_prefix (by decide) hfits hc
    rcases c.valid with h | h <;> omega
  | beyond n value rest pos le fits large =>
    obtain ⟨rfl, -, -⟩ := value_of_prefix le fits hc
    rcases c.valid with h | h <;> omega
  | truncated d front begins nonempty short =>
    obtain ⟨behind, hbehind⟩ := hc.trans begins
    have he := utf8EncodeChar_append_inj (hbehind.trans (List.append_nil _).symm)
    obtain rfl := he.1
    exact short (begins.eq_of_length_le hc.length_le)

end ScriptLexer.Bytes
