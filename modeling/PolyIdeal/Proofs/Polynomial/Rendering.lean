import PolyIdeal.Polynomial.Text
import PolyIdeal.Proofs.Monomial.Rendering
import PolyIdeal.Proofs.Polynomial.Descending
import PolyIdeal.Proofs.Scalar.Legible

/-!
# Reading the text of a polynomial

No blank occurs within the text of a term, so the terms and their signs are what stands between the
blanks. A term without its sign begins with a letter if its coefficient is left out, and with a
number otherwise; the number ends where a sign `*` or the term ends. So coefficients and monomials
can be read off, and polynomials of one arity with the same text have the same terms.
-/

namespace PolyIdeal.Polynomial

open Decimal (separators)
open Monomial (IsNaming append_inj_of_head?)

variable {K : Type} [Scalar K] [ScalarText K] {regular : K → Prop} {names : List String}
  {t u : Term K} {ts us : List (Term K)} {p q : Polynomial K} {a b : Monomial}

/-! ## Terms without their signs -/

/-- Whether the monomial is all that is written of a term. -/
def LeavesOutCoeff (t : Term K) : Prop :=
  t.monomial.isOne = false ∧ ScalarText.isUnit (Scalar.abs t.coeff) = true

/-- What is written behind a coefficient. -/
def behindCoeff (names : List String) (m : Monomial) : List Char :=
  if m.isOne then [] else '*' :: (m.textWith names).toList

theorem eq_of_mem_head?_behindCoeff : ∀ d ∈ (behindCoeff names a).head?, d = '*' :=
  Monomial.eq_of_mem_head?_ite _

theorem magnitudeText_of_leavesOutCoeff (h : LeavesOutCoeff t) :
    magnitudeText names t = t.monomial.textWith names := by
  simp only [magnitudeText, h.1, h.2, Bool.false_eq_true, if_false, if_true]

theorem toList_magnitudeText (h : ¬ LeavesOutCoeff t) : (magnitudeText names t).toList =
    (ScalarText.text (Scalar.abs t.coeff)).toList ++ behindCoeff names t.monomial := by
  unfold magnitudeText behindCoeff
  simp only
  split
  case isTrue => rw [List.append_nil]
  case isFalse hone =>
    split
    case isTrue hunit => exact absurd ⟨Bool.eq_false_iff.mpr hone, hunit⟩ h
    case isFalse =>
      rw [String.toList_append, String.toList_append, List.append_assoc]
      rfl

/-! ## Terms with their signs -/

theorem sign_inj :
    ∀ b b' : Bool, (if b then '-' else '+') = (if b' then '-' else '+') → b = b' := by
  decide

/-- A leading minus can be told from the term behind it. -/
theorem leadingSign_inj {b b' : Bool} {x y : List Char} (hx : '-' ∉ x) (hy : '-' ∉ y)
    (h : (if b then ['-'] else []) ++ x = (if b' then ['-'] else []) ++ y) : b = b' ∧ x = y := by
  cases b with
  | true =>
    cases b' with
    | true => exact ⟨rfl, (List.cons.inj h).2⟩
    | false =>
      obtain rfl : '-' :: x = y := h
      exact absurd List.mem_cons_self hy
  | false =>
    cases b' with
    | true =>
      obtain rfl : x = '-' :: y := h
      exact absurd List.mem_cons_self hx
    | false => exact ⟨rfl, h⟩

theorem toList_firstText (names : List String) (t : Term K) : (firstText names t).toList =
    (if ScalarText.isNegative t.coeff then ['-'] else []) ++ (magnitudeText names t).toList := by
  unfold firstText
  rw [String.toList_append]
  split <;> rfl

theorem toList_followingText (names : List String) (t : Term K) :
    (followingText names t).toList = ' ' :: (if ScalarText.isNegative t.coeff then '-' else '+') ::
      ' ' :: (magnitudeText names t).toList := by
  unfold followingText
  rw [String.toList_append]
  split <;> rfl

/-- The text of all terms behind the first one. -/
def following (names : List String) (ts : List (Term K)) : List Char :=
  ts.flatMap fun t => (followingText names t).toList

theorem following_cons (names : List String) (t : Term K) (ts : List (Term K)) :
    following names (t :: ts) = ' ' :: (if ScalarText.isNegative t.coeff then '-' else '+') ::
      ' ' :: ((magnitudeText names t).toList ++ following names ts) := by
  rw [following, List.flatMap_cons, toList_followingText]
  rfl

theorem eq_of_mem_head?_following : ∀ d ∈ (following names ts).head?, d = ' ' := by
  intro d hd
  cases ts with
  | nil => cases hd
  | cons t ts =>
    rw [following_cons] at hd
    exact (Option.some.inj hd).symm

theorem textWith_of_terms_eq_nil (hp : p.terms = []) : p.textWith names = "0" := by
  rw [textWith, hp]

theorem toList_textWith (hp : p.terms = t :: ts) : (p.textWith names).toList =
    (firstText names t).toList ++ following names ts := by
  rw [textWith, hp]
  simp only
  rw [String.toList_append, String.toList_join, List.flatMap_map]
  rfl

/-! ## Reading -/

section Reading

variable (hnames : IsNaming names)

include hnames

theorem behindCoeff_inj (harity : a.arity = b.arity)
    (h : behindCoeff names a = behindCoeff names b) : a = b := by
  refine hnames.eq_of_textWith_eq harity ?_
  unfold behindCoeff at h
  split at h
  case isTrue ha =>
    split at h
    case isTrue hb => rw [Monomial.textWith_of_isOne ha, Monomial.textWith_of_isOne hb]
    case isFalse => cases h
  case isFalse =>
    split at h
    case isTrue => cases h
    case isFalse => exact String.toList_inj.mp (List.cons.inj h).2

variable (hK : Legible K regular)

include hK

/-- A coefficient that is written is not taken for a name. -/
theorem magnitudeText_ne (hu : regular u.coeff) (htl : LeavesOutCoeff t)
    (hul : ¬ LeavesOutCoeff u) : magnitudeText names t ≠ magnitudeText names u := fun heq => by
  obtain ⟨c, cs, htext, hdigit, hi⟩ := hnames.begins_textWith htl.1
  obtain ⟨d, ds, hnumber, hd⟩ := (hK.isPlain hu).exists_cons
  have hlist := congrArg String.toList heq
  rw [magnitudeText_of_leavesOutCoeff htl, toList_magnitudeText hul, htext, hnumber,
    List.cons_append] at hlist
  rw [← (List.cons.inj hlist).1, hdigit] at hd
  exact hd.elim Bool.false_ne_true hi

/-- Magnitude and monomial can be read off a term. -/
theorem magnitudeText_inj (harity : t.monomial.arity = u.monomial.arity)
    (ht : regular t.coeff) (hu : regular u.coeff)
    (heq : magnitudeText names t = magnitudeText names u) :
    Scalar.abs t.coeff = Scalar.abs u.coeff ∧ t.monomial = u.monomial := by
  by_cases htl : LeavesOutCoeff t
  · by_cases hul : LeavesOutCoeff u
    · rw [magnitudeText_of_leavesOutCoeff htl, magnitudeText_of_leavesOutCoeff hul] at heq
      exact ⟨hK.abs_eq_of_isUnit ht hu htl.2 hul.2, hnames.eq_of_textWith_eq harity heq⟩
    · exact absurd heq (magnitudeText_ne hnames hK hu htl hul)
  · by_cases hul : LeavesOutCoeff u
    · exact absurd heq.symm (magnitudeText_ne hnames hK ht hul htl)
    · have hlist := congrArg String.toList heq
      rw [toList_magnitudeText htl, toList_magnitudeText hul] at hlist
      have hsign : ∀ {c}, regular c → '*' ∉ (ScalarText.text (Scalar.abs c)).toList :=
        fun hc hmem => (hK.isPlain hc).not_mem _ hmem (by decide)
      obtain ⟨hnumber, hbehind⟩ := append_inj_of_head? (hsign ht) (hsign hu)
        eq_of_mem_head?_behindCoeff eq_of_mem_head?_behindCoeff hlist
      exact ⟨hK.abs_eq_of_text ht hu (String.toList_inj.mp hnumber),
        behindCoeff_inj hnames harity hbehind⟩

/-- A term has no sign in it but those of products and powers. -/
theorem eq_of_mem_magnitudeText (ht : regular t.coeff) {c : Char}
    (hc : c ∈ (magnitudeText names t).toList) (hsign : c ∈ separators) : c = '*' ∨ c = '^' := by
  by_cases htl : LeavesOutCoeff t
  · rw [magnitudeText_of_leavesOutCoeff htl] at hc
    exact hnames.eq_of_mem_textWith hc hsign
  · rw [toList_magnitudeText htl, List.mem_append] at hc
    rcases hc with hc | hc
    · exact absurd hsign ((hK.isPlain ht).not_mem c hc)
    · unfold behindCoeff at hc
      split at hc
      case isTrue => cases hc
      case isFalse =>
        rcases List.mem_cons.mp hc with hc | hc
        · exact .inl hc
        · exact hnames.eq_of_mem_textWith hc hsign

theorem not_mem_magnitudeText (ht : regular t.coeff) :
    ' ' ∉ (magnitudeText names t).toList ∧ '-' ∉ (magnitudeText names t).toList :=
  ⟨fun hc => absurd (eq_of_mem_magnitudeText hnames hK ht hc (by decide)) (by decide),
    fun hc => absurd (eq_of_mem_magnitudeText hnames hK ht hc (by decide)) (by decide)⟩

/-- It is not the text of the zero polynomial. -/
theorem toList_magnitudeText_ne_zero (ht : regular t.coeff) :
    (magnitudeText names t).toList ≠ ['0'] := fun hzero => by
  by_cases htl : LeavesOutCoeff t
  · obtain ⟨c, cs, htext, hdigit, -⟩ := hnames.begins_textWith htl.1
    rw [magnitudeText_of_leavesOutCoeff htl, htext] at hzero
    rw [(List.cons.inj hzero).1] at hdigit
    exact absurd hdigit (by decide)
  · rw [toList_magnitudeText htl] at hzero
    have hsign : '*' ∉ (ScalarText.text (Scalar.abs t.coeff)).toList :=
      fun hmem => (hK.isPlain ht).not_mem _ hmem (by decide)
    exact (hK.isPlain ht).ne_zero (append_inj_of_head? hsign (by decide)
      eq_of_mem_head?_behindCoeff (by simp) (hzero.trans (List.append_nil _).symm)).1

/-- Sign, magnitude and monomial make up a term. -/
theorem eq_of_sign_of_magnitudeText (harity : t.monomial.arity = u.monomial.arity)
    (ht : regular t.coeff) (hu : regular u.coeff)
    (hsign : ScalarText.isNegative t.coeff = ScalarText.isNegative u.coeff)
    (heq : magnitudeText names t = magnitudeText names u) : t = u := by
  obtain ⟨habs, hmonomial⟩ := magnitudeText_inj hnames hK harity ht hu heq
  cases t
  cases u
  rw [Term.mk.injEq]
  exact ⟨hmonomial, hK.eq_of_abs_eq ht hu hsign habs⟩

theorem not_mem_firstText (ht : regular t.coeff) : ' ' ∉ (firstText names t).toList := by
  rw [toList_firstText, List.mem_append, not_or]
  refine ⟨?_, (not_mem_magnitudeText hnames hK ht).1⟩
  split <;> decide

/-- The first term can be read off. -/
theorem firstText_inj (harity : t.monomial.arity = u.monomial.arity)
    (ht : regular t.coeff) (hu : regular u.coeff)
    (h : (firstText names t).toList = (firstText names u).toList) : t = u := by
  rw [toList_firstText, toList_firstText] at h
  obtain ⟨hsign, hmagnitude⟩ := leadingSign_inj (not_mem_magnitudeText hnames hK ht).2
    (not_mem_magnitudeText hnames hK hu).2 h
  exact eq_of_sign_of_magnitudeText hnames hK harity ht hu hsign (String.toList_inj.mp hmagnitude)

/-- The terms behind the first one can be read off one by one. -/
theorem following_inj {n : ℕ} (htsarity : OfArity n ts) (husarity : OfArity n us)
    (hts : ∀ t ∈ ts, regular t.coeff) (hus : ∀ u ∈ us, regular u.coeff)
    (h : following names ts = following names us) : ts = us := by
  induction ts generalizing us with
  | nil =>
    cases us with
    | nil => rfl
    | cons u us =>
      rw [following_cons] at h
      cases h
  | cons t ts ih =>
    cases us with
    | nil =>
      rw [following_cons] at h
      cases h
    | cons u us =>
      have ht := hts t List.mem_cons_self
      have hu := hus u List.mem_cons_self
      rw [following_cons, following_cons] at h
      -- a sign between blanks, then the term up to the next blank
      obtain ⟨hsign, hrest⟩ := List.cons.inj (List.cons.inj h).2
      obtain ⟨hmagnitude, hfollowing⟩ := append_inj_of_head?
        (not_mem_magnitudeText hnames hK ht).1 (not_mem_magnitudeText hnames hK hu).1
        eq_of_mem_head?_following eq_of_mem_head?_following (List.cons.inj hrest).2
      have hnegative : ScalarText.isNegative t.coeff = ScalarText.isNegative u.coeff :=
        sign_inj _ _ hsign
      have hterm : t = u := eq_of_sign_of_magnitudeText hnames hK
        (htsarity.head.trans husarity.head.symm) ht hu hnegative (String.toList_inj.mp hmagnitude)
      rw [hterm, ih htsarity.tail husarity.tail (fun t h => hts t (List.mem_cons_of_mem _ h))
        (fun u h => hus u (List.mem_cons_of_mem _ h)) hfollowing]

/-- The text of a term is not that of the zero polynomial. -/
theorem toList_firstText_append_ne_zero (ht : regular t.coeff) :
    (firstText names t).toList ++ following names ts ≠ ['0'] := fun hzero => by
  rw [toList_firstText, List.append_assoc] at hzero
  split at hzero
  case isTrue => cases hzero
  case isFalse =>
    exact toList_magnitudeText_ne_zero hnames hK ht (append_inj_of_head?
      (not_mem_magnitudeText hnames hK ht).1 (by decide) eq_of_mem_head?_following (by simp)
      (hzero.trans (List.append_nil _).symm)).1

/-- Polynomials of one arity with the same text have the same terms. -/
theorem terms_eq_of_textWith_eq {n : ℕ} (hparity : OfArity n p.terms)
    (hqarity : OfArity n q.terms) (hp : ∀ t ∈ p.terms, regular t.coeff)
    (hq : ∀ t ∈ q.terms, regular t.coeff)
    (h : p.textWith names = q.textWith names) : p.terms = q.terms := by
  have hlist := congrArg String.toList h
  cases hpt : p.terms with
  | nil =>
    cases hqt : q.terms with
    | nil => rfl
    | cons u us =>
      rw [textWith_of_terms_eq_nil hpt, toList_textWith hqt] at hlist
      exact absurd hlist.symm (toList_firstText_append_ne_zero hnames hK
        (hq u (hqt ▸ List.mem_cons_self)))
  | cons t ts =>
    rw [hpt] at hparity hp
    have ht := hp t List.mem_cons_self
    cases hqt : q.terms with
    | nil =>
      rw [toList_textWith hpt, textWith_of_terms_eq_nil hqt] at hlist
      exact absurd hlist (toList_firstText_append_ne_zero hnames hK ht)
    | cons u us =>
      rw [hqt] at hqarity hq
      have hu := hq u List.mem_cons_self
      rw [toList_textWith hpt, toList_textWith hqt] at hlist
      obtain ⟨hfirst, hfollowing⟩ := append_inj_of_head? (not_mem_firstText hnames hK ht)
        (not_mem_firstText hnames hK hu) eq_of_mem_head?_following eq_of_mem_head?_following hlist
      rw [firstText_inj hnames hK (hparity.head.trans hqarity.head.symm) ht hu hfirst,
        following_inj hnames hK hparity.tail hqarity.tail
          (fun t h => hp t (List.mem_cons_of_mem _ h)) (fun u h => hq u (List.mem_cons_of_mem _ h))
          hfollowing]

end Reading

/-! ## Results -/

/-- The text of a monomial tells the monomial, once its arity is known. The text of a polynomial
tells the terms if its coefficients are of a kind that can be told from their texts, whatever the
order and the threshold are. Of floating-point numbers of both widths these are all that are numbers
other than zero, infinities included. That the terms have the declared arity is so in every
polynomial that can be obtained (`Obtained.fits`). -/
theorem texts_unambiguous :
    (∀ a b : Monomial, a.arity = b.arity → a.text = b.text → a = b) ∧
    (∀ (K : Type) [Scalar K] [ScalarText K] (regular : K → Prop), Legible K regular →
      ∀ p q : Polynomial K, p.arity = q.arity →
        OfArity p.arity p.terms → OfArity q.arity q.terms →
        (∀ t ∈ p.terms, regular t.coeff) → (∀ t ∈ q.terms, regular t.coeff) →
          p.text = q.text → p.terms = q.terms) ∧
    (∀ p q : Polynomial Float, p.arity = q.arity →
      OfArity p.arity p.terms → OfArity q.arity q.terms →
      (∀ t ∈ p.terms, t.coeff.isNaN = false ∧ (t.coeff == 0) = false) →
      (∀ t ∈ q.terms, t.coeff.isNaN = false ∧ (t.coeff == 0) = false) →
        p.text = q.text → p.terms = q.terms) ∧
    (∀ p q : Polynomial Float32, p.arity = q.arity →
      OfArity p.arity p.terms → OfArity q.arity q.terms →
      (∀ t ∈ p.terms, t.coeff.isNaN = false ∧ (t.coeff == 0) = false) →
      (∀ t ∈ q.terms, t.coeff.isNaN = false ∧ (t.coeff == 0) = false) →
        p.text = q.text → p.terms = q.terms) := by
  have hlegible : ∀ (K : Type) [Scalar K] [ScalarText K] (regular : K → Prop),
      Legible K regular → ∀ p q : Polynomial K, p.arity = q.arity →
        OfArity p.arity p.terms → OfArity q.arity q.terms →
        (∀ t ∈ p.terms, regular t.coeff) → (∀ t ∈ q.terms, regular t.coeff) →
          p.text = q.text → p.terms = q.terms := by
    intro K _ _ regular hK p q harity hparity hqarity hp hq heq
    exact terms_eq_of_textWith_eq Monomial.isNaming_defaultNames hK hparity (harity ▸ hqarity)
      hp hq heq
  refine ⟨fun a b harity heq => ?_, hlegible, hlegible Float _ legible_float,
    hlegible Float32 _ legible_float32⟩
  exact Monomial.isNaming_defaultNames.eq_of_textWith_eq harity heq

/-- The sixth power of the first of seven variables less half the last one, and a tenth of a square
in single precision: once with literals, once with quotients and under another order. The texts are
the same, so the terms are. The two monomials with a six in their texts are told apart. -/
theorem terms_eq_sixthPower :
    let p : Polynomial Float := ⟨7, .lex, 1e-4,
      [⟨⟨[6, 0, 0, 0, 0, 0, 0]⟩, 1⟩, ⟨⟨[0, 0, 0, 0, 0, 0, 1]⟩, -0.5⟩]⟩
    let q : Polynomial Float := ⟨7, .grevlex, 1e-2,
      [⟨⟨[6, 0, 0, 0, 0, 0, 0]⟩, 3 / 3⟩, ⟨⟨[0, 0, 0, 0, 0, 0, 1]⟩, 1 / (-2)⟩]⟩
    let r : Polynomial Float32 := ⟨1, .lex, 1e-4, [⟨⟨[2]⟩, 0.1⟩]⟩
    let s : Polynomial Float32 := ⟨1, .grlex, 1e-4, [⟨⟨[2]⟩, 1 / 10⟩]⟩
    (p.text = "x^6 - 0.5*x6" ∧ q.text = "x^6 - 0.5*x6" ∧ p.terms = q.terms) ∧
      (r.text = "0.1*x^2" ∧ s.text = "0.1*x^2" ∧ r.terms = s.terms) ∧
        Monomial.text ⟨[6, 0, 0, 0, 0, 0, 0]⟩ ≠ Monomial.text ⟨[0, 0, 0, 0, 0, 0, 1]⟩ := by
  intro p q r s
  have hp : p.text = "x^6 - 0.5*x6" := by decide +kernel
  have hq : q.text = "x^6 - 0.5*x6" := by decide +kernel
  have hr : r.text = "0.1*x^2" := by decide +kernel
  have hs : s.text = "0.1*x^2" := by decide +kernel
  have hsix : (⟨[6, 0, 0, 0, 0, 0, 0]⟩ : Monomial) ≠ ⟨[0, 0, 0, 0, 0, 0, 1]⟩ := by decide
  obtain ⟨hmonomials, -, hdoubles, hsingles⟩ := texts_unambiguous
  refine ⟨⟨hp, hq, hdoubles p q rfl ?_ ?_ ?_ ?_ (hp.trans hq.symm)⟩,
    ⟨hr, hs, hsingles r s rfl ?_ ?_ ?_ ?_ (hr.trans hs.symm)⟩,
    fun h => hsix (hmonomials _ _ rfl h)⟩
  all_goals decide +kernel

end PolyIdeal.Polynomial
