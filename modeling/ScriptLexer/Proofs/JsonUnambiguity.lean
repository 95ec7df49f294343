import ScriptLexer.Proofs.JsonScalars

/-!
A JSON text has one value. Each way to build texts from smaller ones keeps them told apart by their
bytes, and since the texts inside a value are shorter than the value, so are all values.
-/

namespace ScriptLexer.JsonGrammar

variable {α : Type}

section Values

def Begins (P : Bytes → α → Prop) : Prop :=
  ∀ ⦃u x⦄, P u x → ∃ b t, u = b :: t ∧ ¬ isDelimiter b

def Opens (P : Bytes → α → Prop) : Prop :=
  ∀ ⦃u x⦄, P u x → ∃ w b t, u = w ++ b :: t ∧ IsBlank w ∧ ¬ isDelimiter b

theorem not_isLayout_of_not_isDelimiter {b : UInt8} (h : ¬ isDelimiter b) :
    ¬ Byte.isLayout b :=
  fun hl => h (Bool.or_eq_true_iff.mpr (Or.inl hl))

theorem Stops.head_not_layout {r : Bytes} (h : Stops r) : ∀ b ∈ r.head?, ¬ Byte.isLayout b :=
  fun b hb => not_isLayout_of_isMark (h b hb)

theorem Begins.head_not_layout {P : Bytes → α → Prop} (h : Begins P) {u : Bytes} {x : α}
    (hu : P u x) (r : Bytes) : ∀ b ∈ (u ++ r).head?, ¬ Byte.isLayout b := by
  obtain ⟨c, t, rfl, hc⟩ := h hu
  intro b hb
  obtain rfl : c = b := Option.some.inj hb
  exact not_isLayout_of_not_isDelimiter hc

theorem quoted_begins : Begins Quoted := by
  intro u s h
  cases h with
  | mk u cs h => exact ⟨Byte.quote, _, rfl, by decide⟩

theorem Begins.opens_padded {P : Bytes → α → Prop} (h : Begins P) : Opens (Padded P) := by
  intro u x hu
  cases hu with
  | mk v u w x hv hu hw =>
    obtain ⟨b, t, rfl, hb⟩ := h hu
    exact ⟨v, b, t ++ w, rfl, hv, hb⟩

theorem opens_member (P : Bytes → α → Prop) : Opens (Member P) := by
  intro u m hu
  cases hu with
  | mk k u s x hk hu =>
    obtain ⟨w, b, t, rfl, hw, hb⟩ := quoted_begins.opens_padded hk
    exact ⟨w, b, t ++ colon :: u, by rw [List.append_assoc, List.cons_append], hw, hb⟩

theorem Opens.series {P : Bytes → α → Prop} (h : Opens P) : Opens (Series P) := by
  intro u xs hu
  cases hu with
  | last u x hx => exact h hx
  | more u t x xs hx hxs =>
    obtain ⟨w, b, u, rfl, hw, hb⟩ := h hx
    exact ⟨w, b, u ++ comma :: t, by rw [List.append_assoc, List.cons_append], hw, hb⟩

variable {n : Nat} {P : Bytes → α → Prop}

theorem Unambiguous.padded (h : Unambiguous n Delimited P) (hb : Begins P) :
    Unambiguous n Stops (Padded P) := by
  intro u u' r r' x x' hn hu hu' hr hr' he
  cases hu with
  | mk v u w x hv hu hw =>
    cases hu' with
    | mk v' u' w' x' hv' hu' hw' =>
      rw [List.append_assoc, List.append_assoc, List.append_assoc, List.append_assoc] at he
      rw [List.length_append, List.length_append] at hn
      obtain ⟨rfl, hrest⟩ := append_inj_of_class hv hv' (hb.head_not_layout hu _)
        (hb.head_not_layout hu' _) he
      obtain ⟨rfl, rfl⟩ := h (by omega) hu hu' (hr.append hw) (hr'.append hw') hrest
      obtain ⟨rfl, -⟩ := append_inj_of_class hw hw' hr.head_not_layout hr'.head_not_layout
        (List.append_cancel_left hrest)
      exact ⟨rfl, rfl⟩

theorem Unambiguous.member (h : Unambiguous n Delimited P) (hb : Begins P) :
    Unambiguous n Stops (Member P) := by
  intro u u' r r' m m' hn hu hu' hr hr' he
  have hcolon (t : Bytes) : Stops (colon :: t) := stops_cons rfl t
  cases hu with
  | mk k u s x hk hu =>
    cases hu' with
    | mk k' u' s' x' hk' hu' =>
      rw [List.append_assoc, List.append_assoc] at he
      rw [List.length_append, List.length_cons] at hn
      obtain ⟨rfl, rfl⟩ := (quoted_unambiguous n Delimited).padded quoted_begins (by omega) hk hk'
        (hcolon _) (hcolon _) he
      have hrest := (cons_append_inj (List.append_cancel_left he)).2
      obtain ⟨rfl, rfl⟩ := h.padded hb (by omega) hu hu' hr hr' hrest
      exact ⟨rfl, rfl⟩

theorem Unambiguous.series (h : Unambiguous n Stops P) {c : UInt8} (hc : isMark c)
    (hne : c ≠ comma) : Unambiguous n (fun r => ∃ t, r = c :: t) (Series P) := by
  have hcomma (t : Bytes) : Stops (comma :: t) := stops_cons rfl t
  intro u u' r r' xs xs' hn hu hu' hr hr' he
  obtain ⟨s, rfl⟩ := hr
  obtain ⟨s', rfl⟩ := hr'
  induction hu generalizing u' xs' with
  | last u x hx =>
    cases hu' with
    | last u' x' hx' =>
      obtain ⟨rfl, rfl⟩ := h hn hx hx' (stops_cons hc s) (stops_cons hc s') he
      exact ⟨rfl, rfl⟩
    | more u' t' x' xs' hx' =>
      rw [List.append_assoc] at he
      obtain ⟨rfl, -⟩ := h hn hx hx' (stops_cons hc s) (hcomma _) he
      exact absurd (List.cons.inj (List.append_cancel_left he)).1 hne
  | more u t x xs hx hxs ih =>
    rw [List.append_assoc] at he
    rw [List.length_append, List.length_cons] at hn
    cases hu' with
    | last u' x' hx' =>
      obtain ⟨rfl, -⟩ := h (by omega) hx hx' (hcomma _) (stops_cons hc s') he
      exact absurd (List.cons.inj (List.append_cancel_left he)).1.symm hne
    | more u' t' x' xs' hx' hxs' =>
      rw [List.append_assoc] at he
      obtain ⟨rfl, rfl⟩ := h (by omega) hx hx' (hcomma _) (hcomma _) he
      obtain ⟨rfl, rfl⟩ := ih (by omega) hxs' (cons_append_inj (List.append_cancel_left he)).2
      exact ⟨rfl, rfl⟩

theorem Opens.blank_append_ne (h : Opens P) {c : UInt8} (hc : isMark c) {u w r r' : Bytes} {x : α}
    (hw : IsBlank w) (hu : P u x) : w ++ c :: r ≠ u ++ r' := by
  intro he
  obtain ⟨v, b, t, rfl, hv, hb⟩ := h hu
  rw [List.append_assoc] at he
  have hhead {d : UInt8} {s : Bytes} (hd : ¬ Byte.isLayout d) :
      ∀ b ∈ (d :: s).head?, ¬ Byte.isLayout b := by
    intro b hb
    rwa [← Option.some.inj hb]
  obtain ⟨-, hcb⟩ := append_inj_of_class hw hv (hhead (not_isLayout_of_isMark hc))
    (hhead (not_isLayout_of_not_isDelimiter hb)) he
  obtain rfl := (List.cons.inj hcb).1
  simp [isDelimiter, hc] at hb

theorem Enclosed.cases_inside {o c : UInt8} {u : Bytes} {xs : List α}
    (h : Enclosed o c P u xs) :
    ∃ v, u = o :: (v ++ [c]) ∧ (IsBlank v ∧ xs = [] ∨ Series P v xs) := by
  cases h with
  | none w hw => exact ⟨w, rfl, Or.inl ⟨hw, rfl⟩⟩
  | some v xs hv => exact ⟨v, rfl, Or.inr hv⟩

theorem Unambiguous.enclosed (h : Unambiguous n Stops P) (hopens : Opens P) {o c : UInt8}
    (hc : isMark c) (hne : c ≠ comma) (Follow : Bytes → Prop) :
    Unambiguous (n + 1) Follow (Enclosed o c P) := by
  intro u u' r r' xs xs' hn hu hu' _ _ he
  obtain ⟨v, rfl, hv⟩ := hu.cases_inside
  obtain ⟨v', rfl, hv'⟩ := hu'.cases_inside
  have hinner := (cons_append_inj he).2
  rw [List.append_assoc, List.append_assoc] at hinner
  rw [List.length_cons, List.length_append, List.length_singleton] at hn
  have hmark (r : Bytes) : ∀ b ∈ ([c] ++ r).head?, ¬ Byte.isLayout b :=
    (stops_cons hc r).head_not_layout
  rcases hv with ⟨hw, rfl⟩ | hs
  · rcases hv' with ⟨hw', rfl⟩ | hs'
    · obtain ⟨rfl, -⟩ := append_inj_of_class hw hw' (hmark r) (hmark r') hinner
      exact ⟨rfl, rfl⟩
    · exact absurd hinner (hopens.series.blank_append_ne hc hw hs')
  · rcases hv' with ⟨hw', rfl⟩ | hs'
    · exact absurd hinner.symm (hopens.series.blank_append_ne hc hw' hs)
    · obtain ⟨rfl, rfl⟩ := h.series hc hne (by omega) hs hs' ⟨r, rfl⟩ ⟨r', rfl⟩ hinner
      exact ⟨rfl, rfl⟩

inductive Shape where
  | null
  | boolean (b : Bool)
  | number
  | string
  | array
  | object
deriving DecidableEq

def Value.shape : Value → Shape
  | null => .null
  | boolean b => .boolean b
  | number _ => .number
  | string _ => .string
  | array _ => .array
  | object _ => .object

def shapeOf? (b : UInt8) : Option Shape :=
  if b = Byte.minus ∨ Byte.isDigit b then some .number
  else if b = Byte.quote then some .string
  else if b = leftSquare then some .array
  else if b = leftBrace then some .object
  else if b = 0x6e then some .null
  else if b = 0x74 then some (.boolean true)
  else if b = 0x66 then some (.boolean false)
  else none

theorem Denotes.head {u : Bytes} {v : Value} (h : Denotes u v) :
    ∃ b t, u = b :: t ∧ shapeOf? b = some v.shape := by
  cases h with
  | null => exact ⟨_, _, rfl, rfl⟩
  | yes => exact ⟨_, _, rfl, rfl⟩
  | no => exact ⟨_, _, rfl, rfl⟩
  | number u q h =>
    obtain ⟨b, t, rfl, hb⟩ := h.head_cases
    exact ⟨b, t, rfl, if_pos hb⟩
  | string u s h =>
    cases h
    exact ⟨_, _, rfl, rfl⟩
  | array u vs h =>
    obtain ⟨v, rfl, -⟩ := h.cases_inside
    exact ⟨_, _, rfl, rfl⟩
  | object u ms h =>
    obtain ⟨v, rfl, -⟩ := h.cases_inside
    exact ⟨_, _, rfl, rfl⟩

theorem denotes_begins : Begins Denotes := by
  intro u v h
  obtain ⟨b, t, rfl, hb⟩ := h.head
  refine ⟨b, t, rfl, fun hd => ?_⟩
  rcases isDelimiter_cases hd with rfl | rfl | rfl | rfl | rfl | rfl | rfl | rfl <;> cases hb

theorem Denotes.shape_eq {u u' r r' : Bytes} {v v' : Value} (h : Denotes u v) (h' : Denotes u' v')
    (he : u ++ r = u' ++ r') : v.shape = v'.shape := by
  obtain ⟨b, t, rfl, hb⟩ := h.head
  obtain ⟨b', t', rfl, hb'⟩ := h'.head
  obtain rfl := (cons_append_inj he).1
  exact Option.some.inj (hb.symm.trans hb')

theorem denotes_unambiguous (n : Nat) : Unambiguous n Delimited Denotes := by
  induction n with
  | zero =>
    intro u u' r r' v v' hn hu
    obtain ⟨b, t, rfl, -⟩ := hu.head
    cases hn
  | succ n ih =>
    -- the texts inside the brackets are shorter, so `ih` tells them apart
    have harray : Unambiguous (n + 1) Delimited (Enclosed leftSquare rightSquare (Padded Denotes)) :=
      (ih.padded denotes_begins).enclosed denotes_begins.opens_padded rfl (by decide) Delimited
    have hobject : Unambiguous (n + 1) Delimited (Enclosed leftBrace rightBrace (Member Denotes)) :=
      (ih.member denotes_begins).enclosed (opens_member Denotes) rfl (by decide) Delimited
    intro u u' r r' v v' hn hu hu' hr hr' he
    have hshape := hu.shape_eq hu' he
    cases hu with
    | null =>
      cases hu' with
      | null => exact ⟨rfl, rfl⟩
      | _ => cases hshape
    | yes =>
      cases hu' with
      | yes => exact ⟨rfl, rfl⟩
      | _ => cases hshape
    | no =>
      cases hu' with
      | no => exact ⟨rfl, rfl⟩
      | _ => cases hshape
    | number u q h =>
      cases hu' with
      | number u' q' h' =>
        obtain ⟨rfl, rfl⟩ := number_unambiguous (n + 1) hn h h' hr hr' he
        exact ⟨rfl, rfl⟩
      | _ => cases hshape
    | string u s h =>
      cases hu' with
      | string u' s' h' =>
        obtain ⟨rfl, rfl⟩ := quoted_unambiguous (n + 1) Delimited hn h h' hr hr' he
        exact ⟨rfl, rfl⟩
      | _ => cases hshape
    | array u vs h =>
      cases hu' with
      | array u' vs' h' =>
        obtain ⟨rfl, rfl⟩ := harray hn h h' hr hr' he
        exact ⟨rfl, rfl⟩
      | _ => cases hshape
    | object u ms h =>
      cases hu' with
      | object u' ms' h' =>
        obtain ⟨rfl, rfl⟩ := hobject hn h h' hr hr' he
        exact ⟨rfl, rfl⟩
      | _ => cases hshape

theorem text_value_unique {u : Bytes} {v v' : Value} (h : Padded Denotes u v)
    (h' : Padded Denotes u v') : v = v' := by
  have hend : Stops [] := fun b hb => absurd hb (by simp)
  exact (((denotes_unambiguous u.length).padded denotes_begins) (Nat.le_refl _) h h' hend hend
    rfl).2

end Values

end ScriptLexer.JsonGrammar
