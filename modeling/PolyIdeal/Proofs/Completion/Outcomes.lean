import PolyIdeal.Proofs.Basis.Gathering
import PolyIdeal.Proofs.Basis.Reducing
import PolyIdeal.Proofs.Completion.Abandoned
import PolyIdeal.Proofs.Completion.Termination
import PolyIdeal.Proofs.CriticalPair.Forming
import PolyIdeal.Proofs.Polynomial.Obtained
import PolyIdeal.ReducedBasis

/-!
# How the computation of a Gröbner basis can end

The two entry points accept any list of polynomials. They can differ in arity, order and threshold,
and any of them can be zero. The steps on the way check their operands over and over, and could
report a quotient that is not exact, a missing leading term, a mismatch of orders, an index that is
out of range or terms that are out of order. None of this can happen. What is left, unless an
exponent overflows, are mixed arities, a generator past the degree limit, and for the entry point
that always reduces the basis without generators.

The polynomials that come out are obtained in the same sense as those that go in, so they can be
used again.
-/

namespace PolyIdeal

variable {K : Type} [Scalar K] {ps : List (Polynomial K)} {settings : Settings} {e : Fault}
  {quotients : Bool}

/-! ## What comes out is obtained -/

namespace Basis

variable {b c : Basis K} {o : TermOrder}

/-- The basis of a list has its members, brought into the order. -/
theorem obtained_ofListIn (hps : ∀ p ∈ ps, p.Obtained quotients) (h : ofListIn o ps = .ok b) :
    ∀ g ∈ b.generators, g.Obtained quotients := by
  refine ofListIn_invariant (P := fun b => ∀ g ∈ b.generators, g.Obtained quotients)
    (fun n o g hg => absurd hg List.not_mem_nil) (fun b c q added p hp hb hq hinsert => ?_) h
  obtain ⟨-, ⟨-, rfl, -⟩ | ⟨-, rfl, -⟩⟩ := insert_eq_ok_iff.mp hinsert
  · exact hb
  · exact List.forall_mem_append.mpr
      ⟨hb, List.forall_mem_singleton.mpr ((hps p hp).reorder hq)⟩

/-- What a completion appends are remainders of S-polynomials. -/
theorem Grows.obtained {limit : Option ℕ} (h : Grows limit b c)
    (hb : ∀ g ∈ b.generators, g.Obtained quotients) :
    ∀ g ∈ c.generators, g.Obtained quotients := by
  induction h with
  | refl => exact hb
  | append _ hf hg hpair _ _ ih =>
    obtain ⟨s, hs, hr⟩ := pairRemainder_eq_ok_iff.mp hpair
    obtain ⟨d, hd, rfl⟩ := Polynomial.remainder_eq_ok_iff.mp hr
    have hso := Polynomial.Obtained.sPolynomial (ih _ hf) (ih _ hg) hs
    exact List.forall_mem_append.mpr ⟨ih, List.forall_mem_singleton.mpr (hso.remainder ih hd)⟩

/-- What replaces a generator is its remainder, made monic. -/
theorem obtained_reduceEach {done todo gs : List (Polynomial K)}
    (hall : ∀ g ∈ done ++ todo, g.Obtained quotients) (h : reduceEach done todo = .ok gs) :
    ∀ g ∈ gs, g.Obtained quotients := by
  have hend := reduceEach_invariant
    (P := fun done todo => ∀ g ∈ done ++ todo, g.Obtained quotients) ?_ hall h
  · rwa [List.append_nil] at hend
  · intro done g todo r g' hall hr hg'
    obtain ⟨d, hd, rfl⟩ := Polynomial.remainder_eq_ok_iff.mp hr
    obtain ⟨hdone, hrest⟩ := List.forall_mem_append.mp hall
    obtain ⟨hg, htodo⟩ := List.forall_mem_cons.mp hrest
    have hothers := List.forall_mem_append.mpr ⟨hdone, htodo⟩
    refine List.forall_mem_append.mpr ⟨List.forall_mem_append.mpr ⟨hdone, ?_⟩, htodo⟩
    exact List.forall_mem_singleton.mpr ((hg.remainder hothers hd).monic hg')

/-- So a reduction of what was obtained is obtained. -/
theorem obtained_reduce (hb : ∀ g ∈ b.generators, g.Obtained quotients) (h : b.reduce = .ok c) :
    ∀ g ∈ c.generators, g.Obtained quotients := by
  obtain ⟨d, rs, ss, hd, hrs, hss, rfl⟩ := reduce_eq_ok_iff.mp h
  have hmonic : ∀ g ∈ [] ++ d.generators, g.Obtained quotients := fun g hg => by
    obtain ⟨f, hf, hfg⟩ := exists_monic_of_mem_minimize hd g hg
    exact (hb f hf).monic hfg
  exact fun g hg => obtained_reduceEach hmonic hrs g ((perm_of_sortByLead hss).subset hg)

end Basis

open PolyIdeal.Basis (SameArity)

/-! ## Completing a list -/

/-- The faults with which the completion of a list can end. -/
inductive Fault.RejectsList (ps : List (Polynomial K)) (settings : Settings) : Fault → Prop
  | overflow : RejectsList ps settings .exponentOverflow
  | mixed {p q : Polynomial K} (hp : ps.head? = some p) (hq : q ∈ ps) (hne : q.arity ≠ p.arity) :
      RejectsList ps settings (.arityMismatch p.arity q.arity)
  | tooLarge {bound actual : ℕ} (hsame : SameArity ps)
      (hlimit : settings.degreeLimit = some bound) (hlt : bound < actual) :
      RejectsList ps settings (.degreeExceeded bound actual)

/-- A completed list has one arity, its basis has a shape, and it is without generators exactly if
all polynomials vanish. -/
theorem completedBasis_eq_ok {b : Basis K} (hps : ∀ p ∈ ps, p.Obtained quotients)
    (h : completedBasis ps settings = .ok b) : SameArity ps ∧
      (b.isEmpty = true ↔ ∀ p ∈ ps, p.VanishesIn settings.order) ∧ (∃ n o, b.Fits n o) ∧
        ∀ g ∈ b.generators, g.Obtained quotients := by
  obtain ⟨start, hstart, h⟩ := bind_eq_ok_iff.mp h
  obtain ⟨c, hc, h⟩ := bind_eq_ok_iff.mp h
  obtain rfl := pure_eq_ok_iff.mp h
  obtain ⟨hsame, hempty⟩ := Basis.ofListIn_eq_ok hstart
  obtain ⟨n, o, hfits⟩ := Basis.exists_fits_ofListIn (fun p hp => (hps p hp).fits.ofArity) hstart
  have hgrows := Basis.grows_of_complete hc
  exact ⟨hsame, hgrows.isEmpty_iff.trans hempty, ⟨n, o, hgrows.fits hfits⟩,
    hgrows.obtained (Basis.obtained_ofListIn hps hstart)⟩

/-- A completion of a list fails with one of the faults that reject the list. -/
theorem completedBasis_eq_error (hps : ∀ p ∈ ps, p.Obtained quotients)
    (h : completedBasis ps settings = .error e) : e.RejectsList ps settings := by
  unfold completedBasis at h
  cases hstart : Basis.ofListIn settings.order ps with
  | error e' =>
    rw [hstart] at h
    obtain rfl : e' = e := Except.error.inj h
    obtain rfl | ⟨p, q, hp, hq, hne, rfl⟩ := Basis.ofListIn_eq_error hstart
    · exact .overflow
    · exact .mixed hp hq hne
  | ok start =>
    rw [bind_of_eq_ok hstart] at h
    obtain ⟨n, o, hfits⟩ := Basis.exists_fits_ofListIn (fun p hp => (hps p hp).fits.ofArity) hstart
    cases hc : start.complete settings with
    | ok c =>
      rw [hc] at h
      cases h
    | error e' =>
      rw [hc] at h
      obtain rfl : e' = e := Except.error.inj h
      rcases Basis.endsCompletion_of_complete hfits hc with _ | ⟨hlimit, hlt⟩
      · exact .overflow
      · exact .tooLarge (Basis.ofListIn_eq_ok hstart).1 hlimit hlt

/-! ## The entry points -/

/-- A result answers a list, if no exponent overflows: mixed arities are reported exactly if
there are some, and a list of one arity ends in a basis, in the report of a degree past the limit
that is set, or in one of the `others`. -/
structure AnswersList (ps : List (Polynomial K)) (settings : Settings) (others : List Fault)
    (result : Except Fault (Basis K)) : Prop where
  mixed_iff : (∃ expected found, result = .error (.arityMismatch expected found)) ↔ ¬ SameArity ps
  uniform : SameArity ps → (∃ b, result = .ok b) ∨
    (∃ bound actual, settings.degreeLimit = some bound ∧ bound < actual ∧
      result = .error (.degreeExceeded bound actual)) ∨ ∃ e ∈ others, result = .error e

omit [Scalar K] in
/-- A result answers a list if successes come from lists of one arity, and faults are those of a
rejected list or others that do. -/
theorem AnswersList.of_rejectsList {others : List Fault} {result : Except Fault (Basis K)}
    (hok : ∀ b, result = .ok b → SameArity ps)
    (herror : ∀ e, result = .error e → e.RejectsList ps settings ∨
      SameArity ps ∧ e ∈ others ∧ ∀ expected found, e ≠ .arityMismatch expected found)
    (hne : result ≠ .error .exponentOverflow) : AnswersList ps settings others result := by
  constructor
  · constructor
    · rintro ⟨expected, found, hmixed⟩ hsame
      rcases herror _ hmixed with h | ⟨-, -, h⟩
      · cases h with
        | mixed hp hq hne => exact hne (hsame _ hp _ hq)
      · exact h expected found rfl
    · intro hmixed
      cases hresult : result with
      | ok b => exact absurd (hok b hresult) hmixed
      | error e =>
        rcases herror e hresult with h | ⟨hsame, -⟩
        · cases h with
          | overflow => exact absurd hresult hne
          | mixed => exact ⟨_, _, rfl⟩
          | tooLarge hsame => exact absurd hsame hmixed
        · exact absurd hsame hmixed
  · intro hsame
    cases hresult : result with
    | ok b => exact .inl ⟨b, rfl⟩
    | error e =>
      rcases herror e hresult with h | ⟨-, hothers, -⟩
      · cases h with
        | overflow => exact absurd hresult hne
        | mixed hp hq hne => exact absurd (hsame _ hp _ hq) hne
        | tooLarge _ hlimit hlt => exact .inr (.inl ⟨_, _, hlimit, hlt, rfl⟩)
      · exact .inr (.inr ⟨e, hothers, rfl⟩)

/-- A basis comes from a list of one arity, and is obtained. -/
theorem groebnerBasis_eq_ok {b : Basis K} (hps : ∀ p ∈ ps, p.Obtained quotients)
    (h : groebnerBasis ps settings = .ok b) :
    SameArity ps ∧ ∀ g ∈ b.generators, g.Obtained quotients := by
  obtain ⟨c, hc, h⟩ := bind_eq_ok_iff.mp h
  obtain ⟨hsame, -, -, hobtained⟩ := completedBasis_eq_ok hps hc
  refine ⟨hsame, ?_⟩
  split at h
  next => exact Basis.obtained_reduce hobtained h
  next => exact pure_eq_ok_iff.mp h ▸ hobtained

/-- The reduction that may follow a completion adds no fault but an overflow. -/
theorem groebnerBasis_eq_error (hps : ∀ p ∈ ps, p.Obtained quotients)
    (h : groebnerBasis ps settings = .error e) : e.RejectsList ps settings := by
  unfold groebnerBasis at h
  cases hc : completedBasis ps settings with
  | error e' =>
    rw [hc] at h
    obtain rfl : e' = e := Except.error.inj h
    exact completedBasis_eq_error hps hc
  | ok c =>
    obtain ⟨-, -, ⟨n, o, hfits⟩, -⟩ := completedBasis_eq_ok hps hc
    rw [bind_of_eq_ok hc] at h
    split at h
    next hreduce =>
      have hne : c.isEmpty = false := by
        simpa using (Bool.and_eq_true_iff.mp hreduce).2
      rw [hfits.overflowOnly_reduce hne e h]
      exact .overflow
    next => cases h

/-- The same for the entry point that always reduces. -/
theorem reducedGroebnerBasis_eq_ok {b : Basis K} (hps : ∀ p ∈ ps, p.Obtained quotients)
    (h : reducedGroebnerBasis ps settings = .ok b) :
    SameArity ps ∧ ∀ g ∈ b.generators, g.Obtained quotients := by
  obtain ⟨c, hc, h⟩ := bind_eq_ok_iff.mp h
  obtain ⟨hsame, -, -, hobtained⟩ := completedBasis_eq_ok hps hc
  split at h
  next => cases h
  next => exact ⟨hsame, Basis.obtained_reduce hobtained h⟩

/-- The entry point that always reduces has one fault more: a completed basis without generators. -/
theorem reducedGroebnerBasis_eq_error (hps : ∀ p ∈ ps, p.Obtained quotients)
    (h : reducedGroebnerBasis ps settings = .error e) : e.RejectsList ps settings ∨
      e = .emptyBasis ∧ ∃ b, completedBasis ps settings = .ok b ∧ b.isEmpty = true := by
  unfold reducedGroebnerBasis at h
  cases hc : completedBasis ps settings with
  | error e' =>
    rw [hc] at h
    obtain rfl : e' = e := Except.error.inj h
    exact .inl (completedBasis_eq_error hps hc)
  | ok c =>
    obtain ⟨-, -, ⟨n, o, hfits⟩, -⟩ := completedBasis_eq_ok hps hc
    rw [bind_of_eq_ok hc] at h
    split at h
    next hempty => exact .inr ⟨(Except.error.inj h).symm, c, rfl, hempty⟩
    next hne =>
      rw [hfits.overflowOnly_reduce (Bool.eq_false_iff.mpr hne) e h]
      exact .inl .overflow

/-- There is nothing to reduce exactly if the completion succeeds and all polynomials vanish. -/
theorem reducedGroebnerBasis_emptyBasis_iff (hps : ∀ p ∈ ps, p.Obtained quotients) :
    reducedGroebnerBasis ps settings = .error .emptyBasis ↔
      (∃ b, completedBasis ps settings = .ok b) ∧ ∀ p ∈ ps, p.VanishesIn settings.order := by
  constructor
  · intro h
    rcases reducedGroebnerBasis_eq_error hps h with h | ⟨-, b, hb, hempty⟩
    · cases h
    · exact ⟨⟨b, hb⟩, (completedBasis_eq_ok hps hb).2.1.mp hempty⟩
  · rintro ⟨⟨b, hb⟩, hvanish⟩
    rw [reducedGroebnerBasis, bind_of_eq_ok hb,
      if_pos ((completedBasis_eq_ok hps hb).2.1.mpr hvanish)]

/-- The outcomes of both entry points, for polynomials obtained in any way and any settings.
Mixed arities are reported exactly if there are some, and a list of one arity ends in a basis or
past the limit that is set; the entry point that always reduces can moreover end without
generators, and does so exactly if the completion succeeds and all polynomials are zero in the
chosen order. Results are obtained again. No pair of a generator with itself is ever formed, by
arriving generators or by the chain criterion. -/
theorem groebnerBases_answerList (hps : ∀ p ∈ ps, p.Obtained true) (settings : Settings) :
    (groebnerBasis ps settings ≠ .error .exponentOverflow →
      AnswersList ps settings [] (groebnerBasis ps settings)) ∧
    (reducedGroebnerBasis ps settings ≠ .error .exponentOverflow →
      AnswersList ps settings [.emptyBasis] (reducedGroebnerBasis ps settings)) ∧
    (reducedGroebnerBasis ps settings = .error .emptyBasis ↔
      (∃ b, completedBasis ps settings = .ok b) ∧ ∀ p ∈ ps, p.VanishesIn settings.order) ∧
    (∀ b, groebnerBasis ps settings = .ok b ∨ reducedGroebnerBasis ps settings = .ok b →
      ∀ g ∈ b.generators, g.Obtained true) ∧
    (∀ n, (List.range n).mapM (fun k => CriticalPair.of k n) =
      .ok (CriticalPair.withEarlier n)) ∧
    ∀ (pair : CriticalPair) (lcm : Monomial) (gs : List (Polynomial K)) (queue : PairQueue),
      chainCriterionFormed pair lcm gs queue = .ok (chainCriterion pair lcm gs queue) := by
  refine ⟨fun hne => ?_, fun hne => ?_, reducedGroebnerBasis_emptyBasis_iff hps, ?_,
    CriticalPair.mapM_of, chainCriterionFormed_eq⟩
  · exact .of_rejectsList (fun b h => (groebnerBasis_eq_ok hps h).1)
      (fun e h => .inl (groebnerBasis_eq_error hps h)) hne
  · refine .of_rejectsList (fun b h => (reducedGroebnerBasis_eq_ok hps h).1) (fun e h => ?_) hne
    refine (reducedGroebnerBasis_eq_error hps h).imp_right ?_
    rintro ⟨rfl, b, hb, -⟩
    exact ⟨(completedBasis_eq_ok hps hb).1, List.mem_singleton_self _, nofun⟩
  · rintro b (h | h)
    · exact (groebnerBasis_eq_ok hps h).2
    · exact (reducedGroebnerBasis_eq_ok hps h).2

/-- Two monomials in one and in two variables are reported as mixed. The zero polynomial alone has
a completed basis, without generators. A hyperbola and two diagonals are completed by a cubic and
a quartic, and these two are what a reduction leaves; with the limit 2 the cubic is reported. -/
theorem groebnerBases_answerList_fourLists :
    (∃ expected found, groebnerBasis
      [(.ofTerm ⟨[1]⟩ 1 .lex : Polynomial Rat), .ofTerm ⟨[1, 0]⟩ 1 .grlex] {} =
        .error (.arityMismatch expected found)) ∧
      reducedGroebnerBasis [(.zero 2 .grlex : Polynomial Rat)] {} = .error .emptyBasis ∧
      ((completedBasis Worklist.hyperbolaDiagonals.generators {}).map Basis.size = .ok 4 ∧
        ∃ b, groebnerBasis Worklist.hyperbolaDiagonals.generators {} = .ok b ∧ b.size = 2 ∧
          ∀ g ∈ b.generators, g.Obtained true) ∧
      ∃ bound actual, bound < actual ∧
        groebnerBasis Worklist.hyperbolaDiagonals.generators { degreeLimit := some 2 } =
          .error (.degreeExceeded bound actual) := by
  have hmixed : ∀ p ∈ [(.ofTerm ⟨[1]⟩ 1 .lex : Polynomial Rat), .ofTerm ⟨[1, 0]⟩ 1 .grlex],
      p.Obtained true := by
    simp only [List.forall_mem_cons]
    exact ⟨.ofTerm .., .ofTerm .., fun p hp => absurd hp List.not_mem_nil⟩
  have hzero : ∀ p ∈ [(.zero 2 .grlex : Polynomial Rat)], p.Obtained true :=
    List.forall_mem_singleton.mpr (.zero ..)
  have hcurves : ∀ p ∈ Worklist.hyperbolaDiagonals.generators, p.Obtained true := by
    have hofTerms : ∀ p ∈ Worklist.hyperbolaDiagonals.generators,
        Polynomial.ofTerms p.terms 2 .lex = .ok p := by decide +kernel
    exact fun p hp => .ofTerms (hofTerms p hp)
  have hne : (groebnerBasis [(.ofTerm ⟨[1]⟩ 1 .lex : Polynomial Rat), .ofTerm ⟨[1, 0]⟩ 1 .grlex]
      {}).map Basis.size ≠ .error .exponentOverflow := by decide +kernel
  have hcompleted : (completedBasis [(.zero 2 .grlex : Polynomial Rat)] {}).map Basis.size =
      .ok 0 := by decide +kernel
  have hvanish : ((.zero 2 .grlex : Polynomial Rat).reorder .lex).map Polynomial.isZero =
      .ok true := by decide +kernel
  have hsame : SameArity Worklist.hyperbolaDiagonals.generators := by
    unfold SameArity
    decide
  have hreduced : (groebnerBasis Worklist.hyperbolaDiagonals.generators {}).map Basis.size =
      .ok 2 := by decide +kernel
  have hlimited : (groebnerBasis Worklist.hyperbolaDiagonals.generators
      { degreeLimit := some 2 }).map Basis.size = .error (.degreeExceeded 2 3) := by decide +kernel
  obtain ⟨b, hb, -⟩ := map_eq_ok_iff.mp hcompleted
  obtain ⟨c, hc, hsize⟩ := map_eq_ok_iff.mp hreduced
  refine ⟨?_, ?_, ⟨by decide +kernel, c, hc, hsize, ?_⟩, ?_⟩
  · refine ((groebnerBases_answerList hmixed {}).1 fun h => hne (by rw [h]; rfl)).mixed_iff.mpr ?_
    intro hsame
    exact absurd (hsame _ rfl _ (.tail _ List.mem_cons_self)) (by decide)
  · refine (groebnerBases_answerList hzero {}).2.2.1.mpr ⟨⟨b, hb⟩, ?_⟩
    exact List.forall_mem_singleton.mpr (map_eq_ok_iff.mp hvanish)
  · exact (groebnerBases_answerList hcurves {}).2.2.2.1 c (.inl hc)
  · have hanswer := (groebnerBases_answerList hcurves { degreeLimit := some 2 }).1 fun h => by
      rw [h] at hlimited
      cases hlimited
    obtain ⟨c, hok⟩ | ⟨bound, actual, -, hlt, herror⟩ | ⟨e, he, -⟩ := hanswer.uniform hsame
    · rw [hok] at hlimited
      cases hlimited
    · exact ⟨bound, actual, hlt, herror⟩
    · exact absurd he List.not_mem_nil

end PolyIdeal
