import PolyIdeal.Proofs.Completion.Limits
import PolyIdeal.Proofs.Division.Degrees

/-!
# Completions that stay in range

A degree limit also keeps exponents small. If no generator has a degree above `d` then no
S-polynomial has one above `2 * d`, and under a graded order no remainder of it has. The remainder
is held against the limit before it becomes a generator, so the next generators are within `d`
again: `Basis.Bounded` is kept by all that a completion appends. If `2 * d` is in range then all
degrees that are ever computed are, and of the faults that can end a completion only the degree
limit is left.
-/

namespace PolyIdeal

open PolyIdeal.Polynomial

variable {K : Type} {n d N : ℕ} {o : TermOrder}

/-- A polynomial with a degree in range can be held against a limit. -/
theorem Polynomial.inRange_checkDegree {p : Polynomial K} (hp : DegreeLE N p.terms)
    (hN : N < UInt32.size) (limit : Option ℕ) : InRange (p.checkDegree limit) := by
  cases limit with
  | none => exact .of_eq_ok rfl
  | some bound =>
    have hmeasurable : p.support.all Monomial.isMeasurable = true :=
      List.all_eq_true.mpr <| List.forall_mem_map.mpr fun t ht =>
        decide_eq_true ((hp t ht).trans_lt hN)
    rw [checkDegree_some, if_pos hmeasurable]
    split
    · exact .of_eq_error rfl Fault.noConfusion
    · exact .of_eq_ok rfl

namespace Basis

variable {b c : Basis K} {f g p : Polynomial K}

/-- Generators of the shape of the basis, with degrees up to `d`. -/
structure Bounded (n : ℕ) (o : TermOrder) (d : ℕ) (b : Basis K) : Prop where
  fits : b.Fits n o
  degree_le : ∀ g ∈ b.generators, g.degree ≤ d

/-- Supports with degrees in range can be sorted. -/
theorem Bounded.inRange_fingerprint (hb : b.Bounded n o d) (hd : d < UInt32.size) :
    InRange b.fingerprint := by
  obtain ⟨f, hf⟩ := exists_fingerprint fun g hg =>
    (degreeLE_degree g).mono (hb.degree_le g hg) |>.rankable hd
  exact .of_eq_ok hf

variable [Scalar K]

theorem inRange_insert (b : Basis K) (p : Polynomial K) : InRange (b.insert p) := by
  have hfit : InRange (b.checkFits p) := by
    refine (inRange_checkArity _ _).bind fun _ _ => ?_
    split
    · exact .of_eq_ok rfl
    · exact .of_eq_error rfl Fault.noConfusion
  refine hfit.bind fun _ _ => ?_
  split
  · exact .of_eq_ok rfl
  · exact .of_eq_ok rfl

/-- What is appended under the limit `d` is within `d` as well. -/
theorem Bounded.grows (hb : b.Bounded n o d) (h : Grows (some d) b c) : c.Bounded n o d := by
  refine ⟨h.fits hb.fits, ?_⟩
  obtain ⟨added, rfl, hle⟩ := h.exists_added_le
  exact List.forall_mem_append.mpr ⟨hb.degree_le, hle⟩

/-- What is left of the S-polynomial of two generators has at most twice their degree. -/
theorem Bounded.staysWithin_pairRemainder (hb : b.Bounded n o d) (ho : o.isGraded = true)
    (hd : 2 * d < UInt32.size) (hf : f ∈ b.generators) (hg : g ∈ b.generators) :
    StaysWithin (2 * d) (b.pairRemainder f g) := by
  have hffits := hb.fits.generators f hf
  have hgfits := hb.fits.generators g hg
  have hsum : f.degree + g.degree ≤ 2 * d := by
    have hfle := hb.degree_le f hf
    have hgle := hb.degree_le g hg
    omega
  have hS := (staysWithin_sPolynomial ho hffits hgfits (hsum.trans_lt hd)).mono hsum
  refine .bind hS.inRange fun S hok => ?_
  have hSle := degree_le_iff.mpr (hS.degreeLE S hok)
  exact (staysWithin_remainder ho (hffits.sPolynomial hgfits hok) hb.fits.generators
    (hSle.trans_lt hd)).mono hSle

/-- So it can be held against the limit and inserted. -/
theorem Bounded.inRange_adopting (hb : b.Bounded n o d) (ho : o.isGraded = true)
    (hd : 2 * d < UInt32.size) (hf : f ∈ b.generators) (hg : g ∈ b.generators)
    (h : b.pairRemainder f g = .ok p) (limit : Option ℕ) :
    InRange (do p.checkDegree limit; b.insert p) :=
  (inRange_checkDegree ((hb.staysWithin_pairRemainder ho hd hf hg).degreeLE p h) hd limit).bind
    fun _ _ => b.inRange_insert p

end Basis

open PolyIdeal.Basis (Bounded Grows)

variable [Scalar K]

/-! ## Sweeps -/

namespace Sweep

variable {s : Sweep K} {f g : Polynomial K} {pairs : List (Polynomial K × Polynomial K)}
  (ho : o.isGraded = true) (hd : 2 * d < UInt32.size)
include ho hd

theorem inRange_reduction (hs : s.basis.Bounded n o d) (hf : f ∈ s.basis.generators)
    (hg : g ∈ s.basis.generators) : InRange (s.reduction f g) := by
  have hpair := hs.staysWithin_pairRemainder ho hd hf hg
  refine hpair.inRange.bind fun r hr => ?_
  split
  · exact .of_eq_ok rfl
  · exact (inRange_checkDegree (hpair.degreeLE r hr) hd _).bind fun _ _ => .of_eq_ok rfl

theorem inRange_visit (hs : s.basis.Bounded n o d) (hf : f ∈ s.basis.generators)
    (hg : g ∈ s.basis.generators) : InRange (s.visit f g).2 := by
  intro herror
  obtain ⟨-, hred | ⟨r, -, hinsert⟩⟩ := visit_eq_error (Prod.ext rfl herror)
  · exact inRange_reduction ho hd hs hf hg hred
  · exact s.basis.inRange_insert r hinsert

/-- Visits in a row stay in range: what they append is within the limit. -/
theorem inRange_visitAll (hs : s.basis.Bounded n o d) (hlimit : s.degreeLimit = some d)
    (hpairs : ∀ x ∈ pairs, x.1 ∈ s.basis.generators ∧ x.2 ∈ s.basis.generators) :
    InRange (s.visitAll pairs).2 := by
  intro herror
  obtain ⟨mid, x, hx, hgrows, -, herror⟩ := exists_visit_of_visitAll hpairs herror
  rw [hlimit] at hgrows
  exact inRange_visit ho hd (hs.grows hgrows) (hgrows.subset (hpairs x hx).1)
    (hgrows.subset (hpairs x hx).2) herror

theorem inRange_step (hs : s.basis.Bounded n o d) (hlimit : s.degreeLimit = some d) :
    InRange s.step.2 := by
  have hlt : d < UInt32.size := by omega
  obtain ⟨before, hbefore⟩ :=
    (hs.inRange_fingerprint hlt).exists_ok (Basis.overflowOnly_fingerprint s.basis)
  have hpairs : ∀ x ∈ laterPairs s.basis.generators,
      x.1 ∈ s.begun.basis.generators ∧ x.2 ∈ s.begun.basis.generators :=
    fun x hx => mem_generators_of_mem_laterPairs hx
  have hgrows := (grows_visitAll hpairs).1
  rw [show s.begun.degreeLimit = some d from hlimit] at hgrows
  rw [step_of_fingerprint hbefore]
  refine (inRange_visitAll ho hd (s := s.begun) hs hlimit hpairs).bind fun _ _ => ?_
  exact ((Bounded.grows (b := s.begun.basis) hs hgrows).inRange_fingerprint hlt).map _

end Sweep

/-! ## Worklists -/

namespace Worklist

variable {w : Worklist K} {pair : CriticalPair}

omit [Scalar K] in
theorem inRange_generator (w : Worklist K) (i : ℕ) : InRange (w.generator i) := by
  unfold generator
  cases w.basis.generators[i]? with
  | none => exact .of_eq_error rfl Fault.noConfusion
  | some g => exact .of_eq_ok rfl

section

variable (ho : o.isGraded = true) (hd : 2 * d < UInt32.size) (hw : w.basis.Bounded n o d)
include ho hd hw

theorem inRange_judge (pair : CriticalPair) : InRange (w.judge pair) := by
  refine (w.inRange_generator _).bind fun f hf => (w.inRange_generator _).bind fun g hg => ?_
  refine (f.inRange_leadingTerm.bind fun _ _ => .of_eq_ok rfl).bind fun a _ => ?_
  refine (g.inRange_leadingTerm.bind fun _ _ => .of_eq_ok rfl).bind fun b _ => ?_
  split
  · exact .of_eq_ok rfl
  · refine (Monomial.inRange_lcm a b).bind fun m _ => ?_
    split
    · exact .of_eq_ok rfl
    · have hpair := hw.staysWithin_pairRemainder ho hd
        (List.mem_of_getElem? (generator_eq_ok_iff.mp hf))
        (List.mem_of_getElem? (generator_eq_ok_iff.mp hg))
      refine hpair.inRange.bind fun r _ => ?_
      split
      · exact .of_eq_ok rfl
      · exact .of_eq_ok rfl

theorem inRange_step : InRange w.step.2 := by
  cases outcome w with
  | idle _ hstep => exact .of_eq_ok (congrArg Prod.snd hstep)
  | @stuck _ queue _ _ hjudge hstep =>
    have hrange := inRange_judge (w := { w with queue }) ho hd hw
    exact .of_eq_error (congrArg Prod.snd hstep) ((hrange _).ne_overflow hjudge)
  | passed _ _ _ hstep => exact .of_eq_ok (congrArg Prod.snd hstep)
  | refused _ hjudge hrefuse hstep =>
    obtain ⟨f, g, hf, hg, hjudged⟩ := judge_eq_ok hjudge
    cases hjudged with
    | remainder hpair _ =>
      have hrange := hw.inRange_adopting ho hd (List.mem_of_getElem? hf)
        (List.mem_of_getElem? hg) hpair w.settings.degreeLimit
      exact .of_eq_error (congrArg Prod.snd hstep) (hrange.ne_overflow hrefuse)
  | appended _ _ _ hstep => exact .of_eq_ok (congrArg Prod.snd hstep)

end
end Worklist

/-! ## Runs -/

namespace Run

variable {r : Run K}

theorem inRange_step (ho : o.isGraded = true) (hd : 2 * d < UInt32.size)
    (hr : r.basis.Bounded n o d) (hlimit : r.degreeLimit = some d) : InRange r.step.2 := by
  cases r with
  | sweep s => exact Sweep.inRange_step ho hd hr hlimit
  | worklist w => exact Worklist.inRange_step ho hd hr

/-- A run that is ready and whose generators are within its limit ends, and if it does not succeed
then it has come to a generator past the limit. -/
theorem Ready.finish_of_bounded (hready : r.Ready n o) (ho : o.isGraded = true)
    (hd : 2 * d < UInt32.size) (hr : r.basis.Bounded n o d) (hlimit : r.degreeLimit = some d) :
    (∃ c, r.finish = .ok c ∧ c.basis.Bounded n o d) ∨
      ∃ actual, d < actual ∧ r.finish = .error (.degreeExceeded d actual) := by
  obtain ⟨k, -, hends⟩ := hready.exists_endsAfter
  rcases hends.ends with ⟨-, hfinish⟩ | ⟨e, herror, hfinish, hkind⟩
  · refine .inl ⟨_, hfinish, hr.grows ?_⟩
    rw [← hlimit]
    exact grows_of_finish hfinish
  · -- the step that failed stood at a basis that is still within the limit
    have hgrows := grows_stateAfter (r := r) (Nat.zero_le k)
    rw [hlimit] at hgrows hkind
    have hrange := inRange_step ho hd (hr.grows hgrows)
      ((degreeLimit_stateAfter r k).trans hlimit)
    rcases hkind with _ | ⟨hbound, hlt⟩
    · exact absurd herror hrange
    · obtain rfl := Option.some.inj hbound
      exact .inr ⟨_, hlt, hfinish⟩

end Run

/-- Under a graded order degrees do not grow, so that no exponent overflows. A dividend with a
degree in range can be divided by any divisors, and remainder and quotients are within its degree.
And if the generators of a basis have degrees up to `d`, the limit is `d` and `2 * d` is in range,
then a completion returns a basis within the limit or reports a generator past it. The strategy,
the criteria and the coefficient arithmetic do not matter. -/
theorem degrees_inRange (n : ℕ) (ho : o.isGraded = true) :
    (∀ (p : Polynomial K) (D : List (Polynomial K)), p.Fits n o →
      (∀ f ∈ D, f.Fits f.arity f.order) → p.degree < UInt32.size → p.DividesWithin D) ∧
    ∀ (b : Basis K) (settings : Settings) (d : ℕ), b.Bounded n o d →
      settings.degreeLimit = some d → 2 * d < UInt32.size →
        (∃ c, b.complete settings = .ok c ∧ c.basis.Bounded n o d) ∨
          ∃ actual, d < actual ∧ b.complete settings = .error (.degreeExceeded d actual) := by
  refine ⟨fun p D hp hD hN => dividesWithin ho hp hD hN, fun b settings d hb hlimit hd => ?_⟩
  exact (Run.ready_start hb.fits settings).finish_of_bounded ho hd
    ((Run.basis_start settings b).symm ▸ hb) ((Run.degreeLimit_start settings b).trans hlimit)

/-- The circle of radius zero and the two axes. -/
def circleAxes : Basis Rat :=
  ⟨2, .grlex, [⟨2, .grlex, 1 / 1000, [⟨⟨[2, 0]⟩, 1⟩, ⟨⟨[0, 2]⟩, 1⟩]⟩,
    ⟨2, .grlex, 1 / 1000, [⟨⟨[1, 1]⟩, 1⟩]⟩]⟩

/-- A cubic is divided by these two. Completing them takes another cubic, so the limit 3 lets the
completion succeed and the limit 2 ends it. -/
theorem degrees_inRange_circleAxes :
    let p : Polynomial Rat :=
      ⟨2, .grlex, 1 / 1000, [⟨⟨[2, 1]⟩, 1⟩, ⟨⟨[1, 2]⟩, 1⟩, ⟨⟨[0, 1]⟩, 1⟩]⟩
    TermOrder.grlex.isGraded = true ∧
    (p.Fits 2 .grlex ∧ (∀ f ∈ circleAxes.generators, f.Fits f.arity f.order) ∧
      p.degree < UInt32.size ∧ p.DividesWithin circleAxes.generators) ∧
    (circleAxes.Bounded 2 .grlex 3 ∧
      ∃ c, circleAxes.complete { strategy := .sweep, degreeLimit := some 3 } = .ok c ∧
        c.basis.Bounded 2 .grlex 3) ∧
    circleAxes.Bounded 2 .grlex 2 ∧
      ∃ actual, 2 < actual ∧
        circleAxes.complete { degreeLimit := some 2 } = .error (.degreeExceeded 2 actual) := by
  intro p
  have hgraded : TermOrder.grlex.isGraded = true := rfl
  have hp : p.Fits 2 .grlex := by decide
  have hD : ∀ f ∈ circleAxes.generators, f.Fits f.arity f.order := by decide
  have hN : p.degree < UInt32.size := by decide
  have hfits : circleAxes.Fits 2 .grlex := by decide
  have htwo : circleAxes.Bounded 2 .grlex 2 := ⟨hfits, by decide⟩
  have hthree : circleAxes.Bounded 2 .grlex 3 := ⟨hfits, by decide⟩
  have hsweep : (circleAxes.complete { strategy := .sweep, degreeLimit := some 3 }).map
      (·.basis.size) = .ok 3 := by decide +kernel
  have hworklist : (circleAxes.complete { degreeLimit := some 2 }).map (·.basis.size) =
      .error (.degreeExceeded 2 3) := by decide +kernel
  refine ⟨hgraded, ⟨hp, hD, hN, (degrees_inRange 2 hgraded).1 p _ hp hD hN⟩, ⟨hthree, ?_⟩, htwo, ?_⟩
  · refine ((degrees_inRange 2 hgraded).2 _ { strategy := .sweep, degreeLimit := some 3 } 3 hthree
      rfl (by decide)).resolve_right fun ⟨_, _, herror⟩ => ?_
    rw [herror] at hsweep
    cases hsweep
  · refine ((degrees_inRange 2 hgraded).2 _ { degreeLimit := some 2 } 2 htwo
      rfl (by decide)).resolve_left fun ⟨_, hok, _⟩ => ?_
    rw [hok] at hworklist
    cases hworklist

-- Not so in `lex`: what a linear form leaves over may be a cubic.
example : let x : Polynomial Rat := ⟨2, .lex, 1 / 1000, [⟨⟨[1, 0]⟩, 1⟩]⟩
    let cubic : Polynomial Rat := ⟨2, .lex, 1 / 1000, [⟨⟨[1, 0]⟩, 1⟩, ⟨⟨[0, 3]⟩, -1⟩]⟩
    x.degree = 1 ∧ (x.remainder [cubic]).map Polynomial.degree = .ok 3 := by decide +kernel

end PolyIdeal
