import PolyIdeal.Proofs.Completion.Abandoned
import PolyIdeal.Proofs.Completion.Termination

/-!
# Degree limits

A degree limit decides where a completion stops and nothing else. `Run.unlimited` is the run with
its limit lifted. As long as no step is refused, a run and its unlimited twin make the same steps:
they have the same basis, the same queue and the same counters. The first generator that is past
the limit parts them. The limited run ends there, and the other one appends this very generator, so
it is the first one in the final basis that is past the limit.

A sweep makes many visits, and a worklist takes one pair at a time. Both keep to this scheme, with
`Basis.Refused` for what is known of the two bases once they differ.
-/

namespace PolyIdeal

variable {K : Type} {n : ℕ} {o : TermOrder} {d : ℕ} {e : Fault} {limit : Option ℕ}

/-! ## Checking a degree -/

namespace Polynomial

variable {p : Polynomial K}

theorem checkDegree_some (p : Polynomial K) (d : ℕ) : p.checkDegree (some d) =
    if p.support.all Monomial.isMeasurable then
      if d < p.degree then .error (.degreeExceeded d p.degree) else .ok ()
    else .error .exponentOverflow := by
  simp only [checkDegree, totalDegree]
  split <;> rfl

theorem degree_le_of_checkDegree (h : p.checkDegree (some d) = .ok ()) : p.degree ≤ d := by
  rw [checkDegree_some] at h
  split at h
  · split at h
    next => cases h
    next hle => exact Nat.not_lt.mp hle
  · cases h

/-- A check fails because a degree cannot be computed or because it is too large. -/
theorem checkDegree_eq_error (h : p.checkDegree (some d) = .error e) :
    e = .exponentOverflow ∨ d < p.degree ∧ e = .degreeExceeded d p.degree := by
  rw [checkDegree_some] at h
  split at h
  · split at h
    next hlt => exact .inr ⟨hlt, (Except.error.inj h).symm⟩
    next => cases h
  · exact .inl (Except.error.inj h).symm

end Polynomial

variable [Scalar K]

namespace Basis

variable {b b' c : Basis K}

/-- What a completion appends under a limit is within it. -/
theorem Grows.exists_added_le (h : Grows (some d) b c) :
    ∃ added, c = { b with generators := b.generators ++ added } ∧ ∀ g ∈ added, g.degree ≤ d := by
  induction h with
  | refl => exact ⟨[], by rw [List.append_nil], fun g hg => absurd hg List.not_mem_nil⟩
  | @append c f g r _ _ _ _ _ hdegree ih =>
    obtain ⟨added, rfl, hle⟩ := ih
    refine ⟨added ++ [r], by rw [← List.append_assoc], List.forall_mem_append.mpr ⟨hle, ?_⟩⟩
    exact List.forall_mem_singleton.mpr (Polynomial.degree_le_of_checkDegree hdegree)

/-- Where `b` stops because a generator fails the degree check with `e`, `b'` has this generator
and perhaps others. -/
def Refused (d : ℕ) (e : Fault) (b b' : Basis K) : Prop :=
  ∃ g added, g.checkDegree (some d) = .error e ∧
    b' = { b with generators := b.generators ++ g :: added }

theorem Refused.grows (h : Refused d e b b') (hc : Grows limit b' c) : Refused d e b c := by
  obtain ⟨g, added, hdegree, rfl⟩ := h
  obtain ⟨more, rfl⟩ := hc.exists_added
  exact ⟨g, added ++ more, hdegree, by rw [List.append_assoc, List.cons_append]⟩

end Basis

open PolyIdeal.Basis (Grows Refused)

/-! ## Sweeps -/

namespace Sweep

variable {s : Sweep K} {f g : Polynomial K} {pairs : List (Polynomial K × Polynomial K)}

omit [Scalar K] in
/-- The same sweep without a limit. -/
def unlimited (s : Sweep K) : Sweep K := { s with degreeLimit := none }

/-- Without a limit nothing is checked. -/
theorem reduction_unlimited (s : Sweep K) (f g : Polynomial K) :
    s.unlimited.reduction f g = s.basis.pairRemainder f g := by
  simp only [reduction, unlimited, Polynomial.checkDegree]
  cases s.basis.pairRemainder f g with
  | error e => rfl
  | ok r =>
    rw [bind_of_eq_ok rfl]
    split <;> rfl

theorem visit_of_reduction_error (h : s.reduction f g = .error e) :
    s.visit f g = ({ s with counters := s.counters.visited }, .error e) := by
  simp only [visit, h]
  rfl

theorem visit_of_reduction_zero {r : Polynomial K} (h : s.reduction f g = .ok r)
    (hz : r.isZero = true) : s.visit f g = ({ s with
      counters := { s.counters.visited with
        zeroReductions := s.counters.zeroReductions + 1 } }, .ok ()) := by
  simp only [visit, h, hz, if_true]
  rfl

theorem visit_of_reduction {r : Polynomial K} (h : s.reduction f g = .ok r)
    (hz : r.isZero = false)
    (hinsert : s.basis.insert r =
      .ok ({ s.basis with generators := s.basis.generators ++ [r] }, true)) :
    s.visit f g = ({ s with
      basis := { s.basis with generators := s.basis.generators ++ [r] }
      counters := { s.counters.visited with
        generatorsAdded := s.counters.generatorsAdded + 1 } }, .ok ()) := by
  simp only [visit, h, hz, hinsert, Bool.false_eq_true, if_false]
  rfl

/-- A visit does what it does without the limit, unless the limit refuses a generator. -/
theorem visit_unlimited (hs : s.basis.Fits n o) (hlimit : s.degreeLimit = some d)
    (hf : f ∈ s.basis.generators) (hg : g ∈ s.basis.generators) :
    s.unlimited.visit f g = ((s.visit f g).1.unlimited, (s.visit f g).2) ∨
      ∃ e, (s.visit f g).2 = .error e ∧ (s.unlimited.visit f g).2 = .ok () ∧
        Refused d e (s.visit f g).1.basis (s.unlimited.visit f g).1.basis := by
  have hfree := reduction_unlimited s f g
  cases hpair : s.basis.pairRemainder f g with
  | error e =>
    have hred : s.reduction f g = .error e := by rw [reduction, hpair]; rfl
    rw [visit_of_reduction_error (hfree.trans hpair), visit_of_reduction_error hred]
    exact .inl rfl
  | ok r =>
    rw [hpair] at hfree
    cases hz : r.isZero with
    | true =>
      have hred : s.reduction f g = .ok r := by
        rw [reduction, bind_of_eq_ok hpair, if_pos hz]
        rfl
      rw [visit_of_reduction_zero hfree hz, visit_of_reduction_zero hred hz]
      exact .inl rfl
    | false =>
      have hinsert := hs.insert_pairRemainder (hs.generators f hf) (hs.generators g hg) hpair hz
      have hred : s.reduction f g = (do r.checkDegree (some d); return r) := by
        rw [reduction, bind_of_eq_ok hpair, if_neg (Bool.eq_false_iff.mp hz), hlimit]
      rw [visit_of_reduction hfree hz hinsert]
      cases hdegree : r.checkDegree (some d) with
      | ok done =>
        rw [hdegree] at hred
        rw [visit_of_reduction hred hz hinsert]
        exact .inl rfl
      | error e =>
        rw [hdegree] at hred
        rw [visit_of_reduction_error hred]
        exact .inr ⟨e, rfl, rfl, r, [], hdegree, rfl⟩

/-- Visits in a row do what they do without the limit, up to the first refusal. -/
theorem visitAll_unlimited (hs : s.basis.Fits n o) (hlimit : s.degreeLimit = some d)
    (hpairs : ∀ x ∈ pairs, x.1 ∈ s.basis.generators ∧ x.2 ∈ s.basis.generators) :
    s.unlimited.visitAll pairs = ((s.visitAll pairs).1.unlimited, (s.visitAll pairs).2) ∨
      ∃ e, (s.visitAll pairs).2 = .error e ∧
        Refused d e (s.visitAll pairs).1.basis (s.unlimited.visitAll pairs).1.basis := by
  induction pairs generalizing s with
  | nil => exact .inl rfl
  | cons x pairs ih =>
    obtain ⟨⟨hf, hg⟩, hrest⟩ := List.forall_mem_cons.mp hpairs
    have hgrows := grows_visit hf hg
    have hgrows' := grows_visit (s := s.unlimited) hf hg
    have hsame := degreeLimit_visit s x.1 x.2
    rw [visitAll, visitAll]
    rcases visit_unlimited hs hlimit hf hg with heq | ⟨e, hreport, hreport', hrefused⟩
    · rw [heq]
      cases hvisit : s.visit x.1 x.2 with
      | mk mid outcome =>
        rw [hvisit] at hgrows hsame
        cases outcome with
        | error e => exact .inl rfl
        | ok done =>
          exact ih (hgrows.fits hs) (hsame.trans hlimit)
            fun y hy => ⟨hgrows.subset (hrest y hy).1, hgrows.subset (hrest y hy).2⟩
    · -- the unlimited sweep goes on, and only appends
      cases hvisit : s.visit x.1 x.2 with
      | mk mid outcome =>
        cases hvisit' : s.unlimited.visit x.1 x.2 with
        | mk mid' outcome' =>
          rw [hvisit] at hreport hrefused
          rw [hvisit'] at hgrows' hreport' hrefused
          obtain rfl : outcome = .error e := hreport
          obtain rfl : outcome' = .ok () := hreport'
          refine .inr ⟨e, rfl, hrefused.grows (grows_visitAll fun y hy => ?_).1⟩
          exact ⟨hgrows'.subset (hrest y hy).1, hgrows'.subset (hrest y hy).2⟩

/-- A sweep, once the basis has a fingerprint. -/
theorem step_of_fingerprint {before : Fingerprint} (h : s.basis.fingerprint = .ok before) :
    s.step = ((s.begun.visitAll (laterPairs s.basis.generators)).1, do
      (s.begun.visitAll (laterPairs s.basis.generators)).2
      (s.begun.visitAll (laterPairs s.basis.generators)).1.basis.fingerprint.map
        fun after => decide (after ≠ before)) := by
  simp only [step, h, begun]
  cases Sweep.visitAll _ (laterPairs s.basis.generators) with
  | mk last outcome => cases outcome <;> rfl

/-- A sweep does what it does without the limit, unless the limit refuses a generator. -/
theorem step_unlimited (hs : s.basis.Fits n o) (hlimit : s.degreeLimit = some d) :
    s.unlimited.step = (s.step.1.unlimited, s.step.2) ∨
      ∃ e, s.step.2 = .error e ∧ Refused d e s.step.1.basis s.unlimited.step.1.basis := by
  cases hbefore : s.basis.fingerprint with
  | error e =>
    have hbefore' : s.unlimited.basis.fingerprint = .error e := hbefore
    refine .inl ?_
    simp only [step, hbefore, hbefore']
  | ok before =>
    rw [step_of_fingerprint hbefore, step_of_fingerprint (s := s.unlimited) hbefore]
    have hpairs : ∀ x ∈ laterPairs s.basis.generators,
        x.1 ∈ s.basis.generators ∧ x.2 ∈ s.basis.generators :=
      fun x hx => mem_generators_of_mem_laterPairs hx
    rcases visitAll_unlimited (s := s.begun) hs hlimit hpairs with heq | ⟨e, hreport, hrefused⟩
    · -- the sweep begins in the same way with and without the limit
      have heq' : s.unlimited.begun.visitAll (laterPairs s.unlimited.basis.generators) =
          ((s.begun.visitAll (laterPairs s.basis.generators)).1.unlimited,
            (s.begun.visitAll (laterPairs s.basis.generators)).2) := heq
      rw [heq']
      exact .inl rfl
    · refine .inr ⟨e, ?_, hrefused⟩
      simp only [hreport]
      rfl

end Sweep

/-! ## Worklists -/

namespace Worklist

variable {w : Worklist K}

omit [Scalar K] in
/-- The same worklist without a limit. -/
def unlimited (w : Worklist K) : Worklist K :=
  { w with settings := { w.settings with degreeLimit := none } }

/-- Adopting a remainder does the same without the limit, unless the limit refuses it. -/
theorem adopt_unlimited {s r : Polynomial K} (hlimit : w.settings.degreeLimit = some d)
    (hr : w.basis.remainder s = .ok r) (hz : r.isZero = false)
    (hinsert : ∃ res, w.basis.insert r = .ok res) :
    w.unlimited.adopt r = ((w.adopt r).1.unlimited, (w.adopt r).2) ∨
      ∃ e, (w.adopt r).2 = .error e ∧
        Refused d e (w.adopt r).1.basis (w.unlimited.adopt r).1.basis := by
  obtain ⟨res, hres⟩ := hinsert
  rcases adopt_cases (w := w.unlimited) hr hz with ⟨e, hrefuse, -⟩ | ⟨-, hfree⟩
  · have hok : w.unlimited.basis.insert r = .ok res := hres
    rw [hok] at hrefuse
    cases hrefuse
  · rw [hfree]
    rcases adopt_cases hr hz with ⟨e, hrefuse, hadopt⟩ | ⟨-, hadopt⟩
    · rw [hadopt]
      refine .inr ⟨e, rfl, r, [], ?_, rfl⟩
      rw [hlimit] at hrefuse
      cases hdegree : r.checkDegree (some d) with
      | error e' =>
        rw [hdegree] at hrefuse
        exact congrArg _ (Except.error.inj hrefuse)
      | ok done =>
        rw [bind_of_eq_ok hdegree, hres] at hrefuse
        cases hrefuse
    · rw [hadopt]
      exact .inl rfl

/-- Settling a pair does the same without the limit, unless the limit refuses a generator. -/
theorem settle_unlimited (hw : w.basis.Fits n o) (hlimit : w.settings.degreeLimit = some d)
    (pair : CriticalPair) :
    w.unlimited.settle pair = ((w.settle pair).1.unlimited, (w.settle pair).2) ∨
      ∃ e, (w.settle pair).2 = .error e ∧
        Refused d e (w.settle pair).1.basis (w.unlimited.settle pair).1.basis := by
  -- a verdict does not depend on the limit
  have hsame : w.unlimited.judge pair = w.judge pair := rfl
  unfold settle
  rw [hsame]
  cases hjudge : w.judge pair with
  | error e => exact .inl rfl
  | ok v =>
    cases v with
    | remainder r =>
      obtain ⟨f, g, hf, hg, hjudged⟩ := judge_eq_ok hjudge
      cases hjudged with
      | remainder hpair hz =>
        have hfits := hw.pairRemainder (hw.generators f (List.mem_of_getElem? hf))
          (hw.generators g (List.mem_of_getElem? hg)) hpair
        obtain ⟨s, -, hrem⟩ := Basis.pairRemainder_eq_ok_iff.mp hpair
        exact adopt_unlimited (w := { w with counters := tally w.counters (.remainder r) })
          hlimit hrem hz (hw.exists_insert hfits)
    | _ => exact .inl rfl

/-- A step does what it does without the limit, unless the limit refuses a generator. -/
theorem step_unlimited (hw : w.basis.Fits n o) (hlimit : w.settings.degreeLimit = some d) :
    w.unlimited.step = (w.step.1.unlimited, w.step.2) ∨
      ∃ e, w.step.2 = .error e ∧ Refused d e w.step.1.basis w.unlimited.step.1.basis := by
  cases hpop : w.queue.pop? with
  | none =>
    have hpop' : w.unlimited.queue.pop? = none := hpop
    refine .inl ?_
    simp only [step, hpop, hpop']
  | some next =>
    obtain ⟨pair, queue⟩ := next
    rw [step_of_pop hpop, step_of_pop (w := w.unlimited) hpop]
    rcases settle_unlimited (w := { w with queue, counters := w.counters.considered })
      hw hlimit pair with heq | ⟨e, hreport, hrefused⟩
    · have heq' : ({ w.unlimited with
          queue, counters := w.unlimited.counters.considered } : Worklist K).settle pair =
          ((({ w with queue, counters := w.counters.considered } : Worklist K).settle
              pair).1.unlimited,
            (({ w with queue, counters := w.counters.considered } : Worklist K).settle
              pair).2) := heq
      rw [heq']
      exact .inl rfl
    · refine .inr ⟨e, ?_, hrefused⟩
      rw [hreport]
      rfl

end Worklist

/-! ## Runs -/

namespace Run

variable {r t : Run K}

omit [Scalar K] in
/-- The same run without a limit. -/
def unlimited : Run K → Run K
  | sweep s => sweep s.unlimited
  | worklist w => worklist w.unlimited

omit [Scalar K] in
theorem unlimited_start (settings : Settings) (b : Basis K) :
    (start settings b).unlimited = start { settings with degreeLimit := none } b := by
  obtain ⟨order, strategy, _, _, _, _⟩ := settings
  cases strategy <;> rfl

omit [Scalar K] in
theorem completion_unlimited (r : Run K) : r.unlimited.completion = r.completion := by
  cases r <;> rfl

omit [Scalar K] in
theorem stepBound_unlimited (r : Run K) : r.unlimited.stepBound = r.stepBound := by
  cases r <;> rfl

/-- A step does what it does without the limit, unless the limit refuses a generator. -/
theorem step_unlimited (hr : r.Ready n o) (hlimit : r.degreeLimit = some d) :
    r.unlimited.step = (r.step.1.unlimited, r.step.2) ∨
      ∃ e, r.step.2 = .error e ∧ Refused d e r.step.1.basis r.unlimited.step.1.basis := by
  cases r with
  | sweep s =>
    rcases Sweep.step_unlimited hr hlimit with heq | hrefused
    · refine .inl ?_
      simp only [unlimited, step, heq]
    · exact .inr hrefused
  | worklist w =>
    rcases Worklist.step_unlimited (Worklist.Ready.fits hr) hlimit with heq | hrefused
    · refine .inl ?_
      simp only [unlimited, step, heq]
    · exact .inr hrefused

/-- A repetition of steps does what it does without the limit, unless the limit refuses a
generator: then it fails with a degree check, after appending generators that pass it, and what
the repetition without the limit returns, if it does, has the refused generator next. -/
theorem repeatStep_unlimited (hr : r.Ready n o) (hlimit : r.degreeLimit = some d) (rounds : ℕ) :
    repeatStep step rounds r.unlimited = (repeatStep step rounds r).map unlimited ∨
      ∃ e b, repeatStep step rounds r = .error e ∧ Grows (some d) r.basis b ∧
        ∀ t, repeatStep step rounds r.unlimited = .ok t → Refused d e b t.basis := by
  induction rounds generalizing r with
  | zero => exact .inl rfl
  | succ rounds ih =>
    have hgrows := r.grows_step 0
    rw [basisMidway_zero, hlimit] at hgrows
    rw [repeatStep_succ, repeatStep_succ]
    rcases step_unlimited hr hlimit with heq | ⟨e, hreport, hrefused⟩
    · rw [heq]
      cases hreport : r.step.2 with
      | error e => exact .inl rfl
      | ok more =>
        cases more with
        | false => exact .inl rfl
        | true =>
          obtain ⟨hready, hsame, -⟩ := hr.step
          exact (ih hready (hsame.trans hlimit)).imp_right
            fun ⟨e, b, herror, hb, hlast⟩ => ⟨e, b, herror, hgrows.trans hb, hlast⟩
    · refine .inr ⟨e, r.step.1.basis, by rw [hreport], hgrows, fun t ht => ?_⟩
      cases hreport' : r.unlimited.step.2 with
      | error e' =>
        rw [hreport'] at ht
        cases ht
      | ok more =>
        rw [hreport'] at ht
        cases more with
        | false => exact Except.ok.inj ht ▸ hrefused
        | true => exact hrefused.grows (grows_of_repeatStep ht)

/-- So does a run to the end. -/
theorem finish_unlimited (hr : r.Ready n o) (hlimit : r.degreeLimit = some d) :
    r.unlimited.finish = r.finish ∨
      ∃ e b, r.finish = .error e ∧ Grows (some d) r.basis b ∧
        ∀ c, r.unlimited.finish = .ok c → Refused d e b c.basis := by
  have hbound := stepBound_unlimited r
  rcases repeatStep_unlimited hr hlimit r.stepBound with heq | ⟨e, b, herror, hgrows, hlast⟩
  · refine .inl ?_
    rw [finish, finish, hbound, heq]
    cases repeatStep step r.stepBound r with
    | error e => rfl
    | ok last => exact congrArg Except.ok (completion_unlimited last)
  · refine .inr ⟨e, b, by rw [finish, herror]; rfl, hgrows, fun c hc => ?_⟩
    obtain ⟨last, hrepeat, rfl⟩ := finish_eq_ok_iff.mp hc
    exact hlast last (hbound ▸ hrepeat)

end Run

/-- A completion with a degree limit against the same completion without one, for either strategy,
any criteria and any coefficient arithmetic. A completion that succeeds with the limit returns
basis and counters of the one without. And if no exponent overflows in either, then the completion
without the limit succeeds, and the one with it returns the same, unless a generator that was
appended is past the limit: then it reports the degree of the first one that is. -/
theorem Basis.complete_degreeLimit {b : Basis K} (hb : b.Fits n o) (settings : Settings) (d : ℕ) :
    (∀ c, b.complete { settings with degreeLimit := some d } = .ok c →
      b.complete { settings with degreeLimit := none } = .ok c) ∧
    (b.complete { settings with degreeLimit := none } ≠ .error .exponentOverflow →
      b.complete { settings with degreeLimit := some d } ≠ .error .exponentOverflow →
        ∃ c added, b.complete { settings with degreeLimit := none } = .ok c ∧
          c.basis = { b with generators := b.generators ++ added } ∧
          b.complete { settings with degreeLimit := some d } =
            match added.find? fun g => decide (d < g.degree) with
            | none => .ok c
            | some g => .error (.degreeExceeded d g.degree)) := by
  have hcases := Run.finish_unlimited
    (Run.ready_start hb { settings with degreeLimit := some d }) (Run.degreeLimit_start _ b)
  rw [Run.unlimited_start, Run.basis_start] at hcases
  -- without a limit, only an overflow can keep the completion from succeeding
  have hfree : b.complete { settings with degreeLimit := none } ≠ .error .exponentOverflow →
      ∃ c, b.complete { settings with degreeLimit := none } = .ok c := by
    intro hne
    cases hfinish : b.complete { settings with degreeLimit := none } with
    | ok c => exact ⟨c, rfl⟩
    | error e =>
      rcases endsCompletion_of_complete hb hfinish with _ | ⟨hnone, -⟩
      · exact absurd hfinish hne
      · cases hnone
  rcases hcases with heq | ⟨e, b', herror, hgrows, hrefused⟩
  · refine ⟨fun c hc => heq.trans hc, fun hne _ => ?_⟩
    obtain ⟨c, hc⟩ := hfree hne
    obtain ⟨added, hbasis, hle⟩ := (grows_of_complete (heq.symm.trans hc)).exists_added_le
    refine ⟨c, added, hc, hbasis, ?_⟩
    have hnone : added.find? (fun g => decide (d < g.degree)) = none :=
      List.find?_eq_none.mpr fun g hg => by simpa using hle g hg
    rw [hnone]
    exact heq.symm.trans hc
  · refine ⟨fun c hc => absurd (herror.symm.trans hc) (by simp), fun hne hne' => ?_⟩
    obtain ⟨c, hc⟩ := hfree hne
    obtain ⟨g, more, hdegree, hbasis⟩ := hrefused c hc
    obtain ⟨added, rfl, hle⟩ := hgrows.exists_added_le
    refine ⟨c, added ++ g :: more, hc, by rw [hbasis, List.append_assoc], ?_⟩
    rcases Polynomial.checkDegree_eq_error hdegree with rfl | ⟨hlt, rfl⟩
    · exact absurd herror hne'
    · have hnone : added.find? (fun g => decide (d < g.degree)) = none :=
        List.find?_eq_none.mpr fun g hg => by simpa using hle g hg
      have hsome : (added ++ g :: more).find? (fun g => decide (d < g.degree)) = some g := by
        rw [List.find?_append, hnone, Option.none_or, List.find?_cons_of_pos (by simpa using hlt)]
      rw [hsome]
      exact herror

/-- Completing the hyperbola and the diagonals appends a cubic and then a quartic. The limit 4 does
not change this, and the limit 3 stops it at the quartic. -/
theorem Basis.complete_degreeLimit_hyperbolaDiagonals :
    Worklist.hyperbolaDiagonals.Fits 2 .lex ∧
      (∃ c, Worklist.hyperbolaDiagonals.complete
          { strategy := .sweep, degreeLimit := some 4 } = .ok c ∧
        Worklist.hyperbolaDiagonals.complete { strategy := .sweep } = .ok c) ∧
      ∃ c added, Worklist.hyperbolaDiagonals.complete {} = .ok c ∧
        c.basis = { Worklist.hyperbolaDiagonals with
          generators := Worklist.hyperbolaDiagonals.generators ++ added } ∧
        added.map Polynomial.degree = [3, 4] ∧
        Worklist.hyperbolaDiagonals.complete { degreeLimit := some 3 } =
          .error (.degreeExceeded 3 4) := by
  have hfits : Worklist.hyperbolaDiagonals.Fits 2 .lex := by decide
  have hlimited : (Worklist.hyperbolaDiagonals.complete
      { strategy := .sweep, degreeLimit := some 4 }).map (·.basis.size) = .ok 4 := by
    decide +kernel
  have hdegrees : (Worklist.hyperbolaDiagonals.complete {}).map
      (fun c => (c.basis.generators.drop 2).map Polynomial.degree) = .ok [3, 4] := by
    decide +kernel
  have hrefused : (Worklist.hyperbolaDiagonals.complete { degreeLimit := some 3 }).map
      (·.basis.size) ≠ .error .exponentOverflow := by decide +kernel
  obtain ⟨c, hc, -⟩ := map_eq_ok_iff.mp hlimited
  obtain ⟨c', hc', hmap⟩ := map_eq_ok_iff.mp hdegrees
  refine ⟨hfits, ⟨c, hc, (complete_degreeLimit hfits { strategy := .sweep } 4).1 c hc⟩, ?_⟩
  obtain ⟨_, added, hok, hbasis, hlimit⟩ := (complete_degreeLimit hfits {} 3).2
    (fun h => absurd (hc'.symm.trans h) (by simp)) fun h => hrefused (by rw [h]; rfl)
  obtain rfl := Except.ok.inj (hc'.symm.trans hok)
  have hadded : added.map Polynomial.degree = [3, 4] := by
    rw [hbasis] at hmap
    exact hmap
  refine ⟨c', added, hc', hbasis, hadded, hlimit.trans ?_⟩
  obtain ⟨cubic, rest, rfl, hcubic, hrest⟩ := List.map_eq_cons_iff.mp hadded
  obtain ⟨quartic, rfl, hquartic⟩ := List.map_eq_singleton_iff.mp hrest
  simp [hcubic, hquartic]

end PolyIdeal
