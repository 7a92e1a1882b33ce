import Mathlib.Data.List.GetD
import Mathlib.Tactic
import PolyIdeal.Monomial.Text
import PolyIdeal.Proofs.Decimal.MagnitudeText

/-!
# Reading the text of a monomial

The factors of a monomial are what stands between the signs `*` of its text, and what stands in
front of a sign `^` is a name. A name belongs to one variable, since the numbered ones are longer
than one letter. So text and arity determine the monomial: `eq_of_textWith_eq`. The text of a
monomial other than the constant begins with a letter, so it is not taken for a number.
-/

namespace PolyIdeal.Monomial

open Decimal (separators)

variable {names : List String} {a b m : Monomial} {i j k : ℕ} {e e' : UInt32} {es es' : List UInt32}

/-! ## Reading up to a sign -/

/-- What stands in front of the first sign can be read off, and so can the rest. -/
theorem append_inj_of_head? {c : Char} {x y r r' : List Char} (hx : c ∉ x) (hy : c ∉ y)
    (hr : ∀ d ∈ r.head?, d = c) (hr' : ∀ d ∈ r'.head?, d = c) (h : x ++ r = y ++ r') :
    x = y ∧ r = r' := by
  have hread : ∀ {x r : List Char}, c ∉ x → (∀ d ∈ r.head?, d = c) →
      (x ++ r).takeWhile (· != c) = x := fun {x r} hx hr => by
    rw [List.takeWhile_append_of_pos fun d hd => bne_iff_ne.mpr (ne_of_mem_of_not_mem hd hx)]
    cases r with
    | nil => rw [List.takeWhile_nil, List.append_nil]
    | cons d r =>
      rw [hr d rfl, List.takeWhile_cons_of_neg (by simp), List.append_nil]
  have hxy : x = y := by rw [← hread hx hr, h, hread hy hr']
  exact ⟨hxy, List.append_cancel_left (hxy ▸ h)⟩

/-- A sign stands in front of what may be left out. -/
theorem eq_of_mem_head?_ite {P : Prop} [Decidable P] {c : Char} (xs : List Char) :
    ∀ d ∈ (if P then [] else c :: xs).head?, d = c := by
  intro d hd
  split at hd
  case isTrue => cases hd
  case isFalse => exact (Option.some.inj hd).symm

/-! ## Names -/

/-- Names that belong to one variable each and do not run into what stands around them. -/
structure IsNaming (names : List String) : Prop where
  injective : Function.Injective (variableName names)
  /-- A name begins with a letter, and not with that of infinity, -/
  begins : ∀ i, ∃ c cs, (variableName names i).toList = c :: cs ∧ c.isDigit = false ∧ c ≠ 'i'
  /-- and it contains no sign and no blank. -/
  not_mem : ∀ i, ∀ c ∈ (variableName names i).toList, c ∉ separators

theorem toDigits_injective : Function.Injective (Nat.toDigits 10) :=
  Function.LeftInverse.injective fun _ => Nat.ofDigitChars_ten_toDigits

theorem not_mem_of_mem_toDigits {c : Char} {n : ℕ} (hc : c ∈ Nat.toDigits 10 n) :
    c ∉ separators :=
  Decimal.not_mem_separators_of_isDigit (Decimal.Scaled.isDigit_toDigits n c hc)

/-- The names of the first variables. -/
def letters : List Char := ['x', 'y', 'z', 'w', 'u', 'v']

theorem of_mem_letters {c : Char} (h : c ∈ letters) :
    c.isDigit = false ∧ c ≠ 'i' ∧ c ∉ separators := by
  unfold letters at h
  fin_cases h <;> decide

theorem toList_variableName_of_lt (h : i < letters.length) :
    (variableName defaultNames i).toList = [letters[i]] := by
  rw [variableName, List.getD_eq_getElem defaultNames _ h]
  revert i
  decide

/-- Past the letters the names are numbered. -/
theorem toList_variableName_of_le (h : letters.length ≤ i) :
    (variableName defaultNames i).toList = 'x' :: Nat.toDigits 10 i := by
  rw [variableName, List.getD_eq_default defaultNames _ h, String.toList_append,
    Nat.toString_eq_repr, Nat.toList_repr]
  rfl

theorem one_lt_length_variableName (h : letters.length ≤ i) :
    1 < (variableName defaultNames i).toList.length := by
  rw [toList_variableName_of_le h, List.length_cons]
  exact Nat.succ_lt_succ (List.length_pos_iff.mpr Nat.toDigits_ne_nil)

theorem isNaming_defaultNames : IsNaming defaultNames where
  injective i j h := by
    have hlist := congrArg String.toList h
    rcases Nat.lt_or_ge i letters.length with hi | hi
    · rcases Nat.lt_or_ge j letters.length with hj | hj
      · rw [toList_variableName_of_lt hi, toList_variableName_of_lt hj, List.singleton_inj,
          (by decide : letters.Nodup).getElem_inj_iff] at hlist
        exact hlist
      · have hlength := one_lt_length_variableName hj
        rw [← hlist, toList_variableName_of_lt hi] at hlength
        exact absurd hlength (Nat.lt_irrefl 1)
    · rcases Nat.lt_or_ge j letters.length with hj | hj
      · have hlength := one_lt_length_variableName hi
        rw [hlist, toList_variableName_of_lt hj] at hlength
        exact absurd hlength (Nat.lt_irrefl 1)
      · rw [toList_variableName_of_le hi, toList_variableName_of_le hj] at hlist
        exact toDigits_injective (List.cons.inj hlist).2
  begins i := by
    rcases Nat.lt_or_ge i letters.length with hi | hi
    · obtain ⟨hdigit, hinfinity, -⟩ := of_mem_letters (List.getElem_mem hi)
      exact ⟨_, _, toList_variableName_of_lt hi, hdigit, hinfinity⟩
    · exact ⟨_, _, toList_variableName_of_le hi, by decide⟩
  not_mem i c hc := by
    rcases Nat.lt_or_ge i letters.length with hi | hi
    · rw [toList_variableName_of_lt hi, List.mem_singleton] at hc
      rw [hc]
      exact (of_mem_letters (List.getElem_mem hi)).2.2
    · rw [toList_variableName_of_le hi, List.mem_cons] at hc
      rcases hc with rfl | hc
      · decide
      · exact not_mem_of_mem_toDigits hc

/-! ## Factors -/

theorem toList_factorText (name : String) (e : UInt32) : (factorText name e).toList =
    name.toList ++ if e = 1 then [] else '^' :: Nat.toDigits 10 e.toNat := by
  unfold factorText
  split
  case isTrue => rw [List.append_nil]
  case isFalse =>
    rw [String.toList_append, String.toList_append, Nat.toString_eq_repr, Nat.toList_repr,
      List.append_assoc]
    rfl

/-- A factor is that of one variable with one exponent. -/
theorem IsNaming.factorText_inj (h : IsNaming names)
    (heq : factorText (variableName names i) e = factorText (variableName names j) e') :
    i = j ∧ e = e' := by
  have hname : ∀ k, '^' ∉ (variableName names k).toList := fun k hmem =>
    h.not_mem k _ hmem (by decide)
  have hlist := congrArg String.toList heq
  rw [toList_factorText, toList_factorText] at hlist
  obtain ⟨hnames, hpowers⟩ := append_inj_of_head? (hname i) (hname j)
    (eq_of_mem_head?_ite _) (eq_of_mem_head?_ite _) hlist
  refine ⟨h.injective (String.toList_inj.mp hnames), ?_⟩
  split at hpowers
  case isTrue he =>
    split at hpowers
    case isTrue he' => exact he.trans he'.symm
    case isFalse => cases hpowers
  case isFalse =>
    split at hpowers
    case isTrue => cases hpowers
    case isFalse => exact UInt32.toNat_inj.mp (toDigits_injective (List.cons.inj hpowers).2)

/-- The text of a factor begins with the name of its variable. -/
theorem IsNaming.begins_factorText (h : IsNaming names) (i : ℕ) (e : UInt32) :
    ∃ c cs, (factorText (variableName names i) e).toList = c :: cs ∧ c.isDigit = false ∧
      c ≠ 'i' := by
  obtain ⟨c, cs, hname, hc⟩ := h.begins i
  refine ⟨c, cs ++ if e = 1 then [] else '^' :: Nat.toDigits 10 e.toNat, ?_, hc⟩
  rw [toList_factorText, hname, List.cons_append]

/-- The text of a factor has no sign in it but that of a power. -/
theorem IsNaming.eq_of_mem_factorText (h : IsNaming names) {c : Char}
    (hc : c ∈ (factorText (variableName names i) e).toList) (hsign : c ∈ separators) :
    c = '^' := by
  rw [toList_factorText, List.mem_append] at hc
  rcases hc with hc | hc
  · exact absurd hsign (h.not_mem i c hc)
  · split at hc
    case isTrue => cases hc
    case isFalse =>
      rcases List.mem_cons.mp hc with hc | hc
      · exact hc
      · exact absurd hsign (not_mem_of_mem_toDigits hc)

theorem exists_of_mem_factors {f : String} (hf : f ∈ factors names k es) :
    ∃ i e, k ≤ i ∧ f = factorText (variableName names i) e := by
  induction es generalizing k with
  | nil => cases hf
  | cons e es ih =>
    unfold factors at hf
    simp only at hf
    split at hf
    case isTrue =>
      obtain ⟨i, e, hi, hfi⟩ := ih hf
      exact ⟨i, e, Nat.le_of_succ_le hi, hfi⟩
    case isFalse =>
      rcases List.mem_cons.mp hf with rfl | hf
      · exact ⟨k, e, Nat.le_refl k, rfl⟩
      · obtain ⟨i, e, hi, hfi⟩ := ih hf
        exact ⟨i, e, Nat.le_of_succ_le hi, hfi⟩

/-- The factors determine the exponents, once it is known how many there are. -/
theorem IsNaming.factors_inj (h : IsNaming names) (hlength : es.length = es'.length)
    (heq : factors names k es = factors names k es') : es = es' := by
  induction es generalizing k es' with
  | nil => exact (List.length_eq_zero_iff.mp hlength.symm).symm
  | cons e es ih =>
    obtain ⟨e', es', rfl⟩ := List.exists_cons_of_length_eq_add_one hlength.symm
    have htail := Nat.succ.inj hlength
    -- the variable with index `k` has no factor among the later ones
    have hlater : ∀ {x xs fs}, factorText (variableName names k) x :: fs ≠
        factors names (k + 1) xs := fun {x xs fs} hfs => by
      obtain ⟨i, y, hi, hfi⟩ := exists_of_mem_factors (hfs ▸ List.mem_cons_self)
      rw [(h.factorText_inj hfi).1] at hi
      omega
    unfold factors at heq
    simp only at heq
    split at heq
    case isTrue he =>
      split at heq
      case isTrue he' => rw [he, he', ih htail heq]
      case isFalse he' => exact absurd heq.symm hlater
    case isFalse he =>
      split at heq
      case isTrue he' => exact absurd heq hlater
      case isFalse he' =>
        obtain ⟨hfirst, hrest⟩ := List.cons.inj heq
        rw [(h.factorText_inj hfirst).2, ih htail hrest]

/-! ## Texts -/

theorem factors_eq_nil_iff : factors names k es = [] ↔ es.all (· == 0) = true := by
  induction es generalizing k with
  | nil => exact iff_of_true rfl rfl
  | cons e es ih =>
    unfold factors
    simp only
    split
    case isTrue he =>
      rw [ih, List.all_cons, he]
      rfl
    case isFalse he =>
      rw [List.all_cons, Bool.and_eq_true, beq_iff_eq]
      exact iff_of_false (List.cons_ne_nil _ _) fun hall => he hall.1

/-- The constant has no factors. -/
theorem textWith_of_isOne (hm : m.isOne = true) : m.textWith names = "1" := by
  rw [textWith, factors_eq_nil_iff.mpr hm]

/-- The text of any other monomial consists of its factors. -/
theorem toList_textWith (hm : m.isOne = false) : (m.textWith names).toList =
    ['*'].intercalate ((factors names 0 m.exponents).map String.toList) := by
  have hne : factors names 0 m.exponents ≠ [] := fun hnil => by
    rw [factors_eq_nil_iff, ← isOne, hm] at hnil
    cases hnil
  unfold textWith
  split
  case h_1 hnil => exact absurd hnil hne
  case h_2 => exact String.toList_intercalate

theorem exists_factors (names : List String) (hm : m.isOne = false) :
    ∃ i e fs, factors names 0 m.exponents = factorText (variableName names i) e :: fs := by
  cases hfs : factors names 0 m.exponents with
  | nil =>
    rw [factors_eq_nil_iff, ← isOne, hm] at hfs
    cases hfs
  | cons f fs =>
    obtain ⟨i, e, -, rfl⟩ := exists_of_mem_factors (hfs ▸ List.mem_cons_self)
    exact ⟨i, e, fs, rfl⟩

theorem intercalate_cons_eq_append (c : Char) (x : List Char) (xs : List (List Char)) :
    ∃ r, [c].intercalate (x :: xs) = x ++ r := by
  cases xs with
  | nil => exact ⟨[], by rw [List.intercalate_singleton, List.append_nil]⟩
  | cons y ys => exact ⟨_, by rw [List.intercalate_cons_cons, List.append_assoc]⟩

/-- It begins with a letter. -/
theorem IsNaming.begins_textWith (h : IsNaming names) (hm : m.isOne = false) :
    ∃ c cs, (m.textWith names).toList = c :: cs ∧ c.isDigit = false ∧ c ≠ 'i' := by
  obtain ⟨i, e, fs, hfs⟩ := exists_factors names hm
  obtain ⟨c, cs, hfactor, hc⟩ := h.begins_factorText i e
  obtain ⟨r, hr⟩ := intercalate_cons_eq_append '*' (factorText (variableName names i) e).toList
    (fs.map String.toList)
  refine ⟨c, cs ++ r, ?_, hc⟩
  rw [toList_textWith hm, hfs, List.map_cons, hr, hfactor, List.cons_append]

/-- The factors are read off by splitting the text. -/
theorem IsNaming.splitOn_textWith (h : IsNaming names) (hm : m.isOne = false) :
    (m.textWith names).toList.splitOn '*' = (factors names 0 m.exponents).map String.toList := by
  obtain ⟨i, e, fs, hfs⟩ := exists_factors names hm
  rw [toList_textWith hm]
  refine List.splitOn_intercalate '*' ?_ (by rw [hfs]; exact List.cons_ne_nil _ _)
  intro x hx hmem
  obtain ⟨f, hf, rfl⟩ := List.mem_map.mp hx
  obtain ⟨i, e, -, rfl⟩ := exists_of_mem_factors hf
  exact absurd (h.eq_of_mem_factorText hmem (by decide)) (by decide)

theorem mem_intercalate {c d : Char} {xs : List (List Char)} (h : d ∈ [c].intercalate xs) :
    d = c ∨ ∃ x ∈ xs, d ∈ x := by
  induction xs with
  | nil => cases h
  | cons x xs ih =>
    cases xs with
    | nil =>
      rw [List.intercalate_singleton] at h
      exact .inr ⟨x, List.mem_cons_self, h⟩
    | cons y ys =>
      rw [List.intercalate_cons_cons, List.mem_append, List.mem_append, List.mem_singleton] at h
      rcases h with (h | h) | h
      · exact .inr ⟨x, List.mem_cons_self, h⟩
      · exact .inl h
      · exact (ih h).imp_right fun ⟨z, hz, hdz⟩ => ⟨z, List.mem_cons_of_mem _ hz, hdz⟩

/-- A text has no sign in it but those of products and powers. -/
theorem IsNaming.eq_of_mem_textWith (h : IsNaming names) {c : Char}
    (hc : c ∈ (m.textWith names).toList) (hsign : c ∈ separators) : c = '*' ∨ c = '^' := by
  cases hm : m.isOne with
  | true =>
    rw [textWith_of_isOne hm] at hc
    rw [List.mem_singleton.mp hc] at hsign
    exact absurd hsign (by decide)
  | false =>
    rw [toList_textWith hm] at hc
    refine (mem_intercalate hc).imp_right ?_
    rintro ⟨x, hx, hcx⟩
    obtain ⟨f, hf, rfl⟩ := List.mem_map.mp hx
    obtain ⟨i, e, -, rfl⟩ := exists_of_mem_factors hf
    exact h.eq_of_mem_factorText hcx hsign

theorem IsNaming.textWith_ne (h : IsNaming names) (ha : a.isOne = true) (hb : b.isOne = false) :
    a.textWith names ≠ b.textWith names := fun heq => by
  obtain ⟨c, cs, hb, hdigit, -⟩ := h.begins_textWith hb
  rw [← heq, textWith_of_isOne ha] at hb
  rw [← (List.cons.inj hb).1] at hdigit
  exact absurd hdigit (by decide)

/-- No two monomials of one arity have the same text. -/
theorem IsNaming.eq_of_textWith_eq (h : IsNaming names) (harity : a.arity = b.arity)
    (heq : a.textWith names = b.textWith names) : a = b := by
  have hfactors : factors names 0 a.exponents = factors names 0 b.exponents := by
    cases ha : a.isOne with
    | true =>
      cases hb : b.isOne with
      | true => rw [factors_eq_nil_iff.mpr ha, factors_eq_nil_iff.mpr hb]
      | false => exact absurd heq (h.textWith_ne ha hb)
    | false =>
      cases hb : b.isOne with
      | true => exact absurd heq.symm (h.textWith_ne hb ha)
      | false =>
        have hsplit := congrArg (fun s => s.toList.splitOn '*') heq
        simp only [h.splitOn_textWith ha, h.splitOn_textWith hb] at hsplit
        exact (List.map_injective_iff.mpr fun _ _ => String.toList_inj.mp) hsplit
  exact congrArg Monomial.mk (h.factors_inj harity hfactors)

end PolyIdeal.Monomial
