import PolyIdeal.Proofs.Basis.Fingerprinting
import PolyIdeal.Proofs.Completion.Repetition

/-!
# Where sweeps stop

A sweep stops the run when the fingerprint of the basis is what it was. The fingerprint forgets
coefficients, yet it still counts the generators, and a sweep only ever appends. So an unchanged
fingerprint means that nothing was appended; and since no remainder is ever taken for a duplicate,
nothing appended means that every S-polynomial of the sweep left nothing over.

None of this uses a law of the coefficients, and it concerns one sweep from any state, whatever
happened before.
-/

namespace PolyIdeal

variable {K : Type} [Scalar K] {b : Basis K} {f g : Polynomial K}

namespace Basis

/-- A basis that sweeps do not change: the S-polynomial of every two generators leaves nothing
over, and completing it by sweeps takes one pass that adds nothing. -/
structure SweepStable (b : Basis K) : Prop where
  isGroebner : b.isGroebner = .ok true
  complete : ∀ settings : Settings, settings.strategy = .sweep → ∃ c : Completion K,
    b.complete settings = .ok c ∧ c.basis = b ∧ c.counters.passes = 1 ∧
      c.counters.generatorsAdded = 0

end Basis

/-- The counters once a sweep has taken up one more pair. -/
def Counters.visited (c : Counters) : Counters :=
  { c with pairsConsidered := c.pairsConsidered + 1, sPolynomials := c.sPolynomials + 1 }

namespace Sweep

variable {s s' : Sweep K} {pairs : List (Polynomial K × Polynomial K)}

/-! ## One pair -/

/-- What a successful visit of a pair does: nothing if the pair reduces to zero, else it appends
the remainder. -/
inductive Visit (s : Sweep K) (f g : Polynomial K) (s' : Sweep K) : Prop
  /-- The S-polynomial leaves nothing over. -/
  | reduced (hpair : s.basis.ReducesPair f g) (hbasis : s'.basis = s.basis)
      (hadded : s'.counters.generatorsAdded = s.counters.generatorsAdded)
  /-- The remainder becomes a generator. -/
  | appended {r : Polynomial K} (hpair : s.basis.pairRemainder f g = .ok r)
      (hr : r.isZero = false)
      (hbasis : s'.basis = { s.basis with generators := s.basis.generators ++ [r] })

theorem reduction_eq_ok {r : Polynomial K} (h : s.reduction f g = .ok r) :
    s.basis.pairRemainder f g = .ok r := by
  unfold reduction at h
  obtain ⟨r', hr', h⟩ := bind_eq_ok_iff.mp h
  split at h
  · rw [← pure_eq_ok_iff.mp h]
    exact hr'
  · obtain ⟨_, -, h⟩ := bind_eq_ok_iff.mp h
    rw [← pure_eq_ok_iff.mp h]
    exact hr'

/-- A pair that reduces to zero is not checked against the degree limit. -/
theorem reduction_of_reducesPair (h : s.basis.ReducesPair f g) :
    ∃ r, s.reduction f g = .ok r ∧ r.isZero = true := by
  obtain ⟨r, hr, hz⟩ := h
  refine ⟨r, ?_, hz⟩
  rw [reduction, bind_of_eq_ok hr, if_pos hz]
  rfl

theorem checkDegree_of_reduction {r : Polynomial K} (h : s.reduction f g = .ok r)
    (hz : r.isZero = false) : r.checkDegree s.degreeLimit = .ok () := by
  unfold reduction at h
  obtain ⟨r', -, h⟩ := bind_eq_ok_iff.mp h
  split at h
  next hz' =>
    rw [pure_eq_ok_iff.mp h, hz] at hz'
    cases hz'
  next =>
    obtain ⟨⟨⟩, hdegree, h⟩ := bind_eq_ok_iff.mp h
    rw [← pure_eq_ok_iff.mp h]
    exact hdegree

/-- All that a visit can do, with the whole state that it leaves. -/
inductive VisitOutcome (s : Sweep K) (f g : Polynomial K) : Prop
  /-- The visit fails. -/
  | failed {e : Fault} (hcause : s.reduction f g = .error e ∨
        ∃ r, s.reduction f g = .ok r ∧ s.basis.insert r = .error e)
      (hvisit : s.visit f g = ({ s with counters := s.counters.visited }, .error e))
  /-- The S-polynomial leaves nothing over. -/
  | reduced (hpair : s.basis.ReducesPair f g)
      (hvisit : s.visit f g = ({ s with
        counters := { s.counters.visited with
          zeroReductions := s.counters.zeroReductions + 1 } }, .ok ()))
  /-- The remainder becomes a generator. -/
  | appended {r : Polynomial K} (hpair : s.basis.pairRemainder f g = .ok r)
      (hr : r.isZero = false) (hdegree : r.checkDegree s.degreeLimit = .ok ())
      (hvisit : s.visit f g = ({ s with
        basis := { s.basis with generators := s.basis.generators ++ [r] }
        counters := { s.counters.visited with
          generatorsAdded := s.counters.generatorsAdded + 1 } }, .ok ()))

theorem visitOutcome (s : Sweep K) (f g : Polynomial K) : VisitOutcome s f g := by
  have hvisit : s.visit f g = s.visit f g := rfl
  nth_rewrite 2 [visit] at hvisit
  cases hred : s.reduction f g with
  | error e =>
    simp only [hred] at hvisit
    exact .failed (.inl hred) hvisit
  | ok r =>
    have hpair := reduction_eq_ok hred
    simp only [hred] at hvisit
    cases hz : r.isZero with
    | true =>
      rw [if_pos hz] at hvisit
      exact .reduced ⟨r, hpair, hz⟩ hvisit
    | false =>
      rw [if_neg (Bool.eq_false_iff.mp hz)] at hvisit
      obtain ⟨S, -, hrem⟩ := Basis.pairRemainder_eq_ok_iff.mp hpair
      cases hins : s.basis.insert r with
      | error e =>
        simp only [hins] at hvisit
        exact .failed (.inr ⟨r, hred, hins⟩) hvisit
      | ok res =>
        obtain ⟨basis, added⟩ := res
        -- the remainder cannot be a duplicate
        obtain ⟨rfl, rfl⟩ := Basis.insert_remainder hrem hz hins
        simp only [hins] at hvisit
        exact .appended hpair hz (checkDegree_of_reduction hred hz) hvisit

theorem visit_eq_ok (h : s.visit f g = (s', .ok ())) :
    Visit s f g s' ∧ s'.counters.passes = s.counters.passes := by
  cases visitOutcome s f g with
  | failed _ hvisit =>
    rw [hvisit, Prod.mk.injEq] at h
    cases h.2
  | reduced hpair hvisit =>
    rw [hvisit, Prod.mk.injEq] at h
    obtain ⟨rfl, -⟩ := h
    exact ⟨.reduced hpair rfl rfl, rfl⟩
  | appended hpair hr _ hvisit =>
    rw [hvisit, Prod.mk.injEq] at h
    obtain ⟨rfl, -⟩ := h
    exact ⟨.appended hpair hr rfl, rfl⟩

/-- A visit that fails changes no generators. -/
theorem visit_eq_error {e : Fault} (h : s.visit f g = (s', .error e)) : s'.basis = s.basis ∧
    (s.reduction f g = .error e ∨ ∃ r, s.reduction f g = .ok r ∧ s.basis.insert r = .error e) := by
  cases visitOutcome s f g with
  | failed hcause hvisit =>
    rw [hvisit, Prod.mk.injEq] at h
    obtain ⟨rfl, he⟩ := h
    obtain rfl := Except.error.inj he
    exact ⟨rfl, hcause⟩
  | reduced _ hvisit =>
    rw [hvisit, Prod.mk.injEq] at h
    cases h.2
  | appended _ _ _ hvisit =>
    rw [hvisit, Prod.mk.injEq] at h
    cases h.2

theorem degreeLimit_visit (s : Sweep K) (f g : Polynomial K) :
    (s.visit f g).1.degreeLimit = s.degreeLimit := by
  cases visitOutcome s f g with
  | failed _ hvisit => rw [hvisit]
  | reduced _ hvisit => rw [hvisit]
  | appended _ _ _ hvisit => rw [hvisit]

/-- Visiting a pair that reduces to zero succeeds and leaves the basis alone. -/
theorem visit_of_reducesPair (h : s.basis.ReducesPair f g) :
    ∃ s', s.visit f g = (s', .ok ()) ∧ s'.basis = s.basis ∧
      s'.counters.passes = s.counters.passes ∧
      s'.counters.generatorsAdded = s.counters.generatorsAdded := by
  obtain ⟨r, hr, hz⟩ := reduction_of_reducesPair h
  unfold visit
  simp only [hr, hz, if_true]
  exact ⟨_, rfl, rfl, rfl, rfl⟩

/-! ## All pairs -/

theorem visitAll_cons_eq_ok (h : s.visitAll ((f, g) :: pairs) = (s', .ok ())) :
    ∃ mid, s.visit f g = (mid, .ok ()) ∧ mid.visitAll pairs = (s', .ok ()) := by
  rw [visitAll] at h
  split at h
  next mid hmid => exact ⟨mid, hmid, h⟩
  next => cases h

/-- What every visit keeps holds after all of them. -/
theorem visitAll_invariant {P : Sweep K → Prop}
    (keeps : ∀ s s', ∀ x ∈ pairs, P s → s.visit x.1 x.2 = (s', .ok ()) → P s') (hs : P s)
    (h : s.visitAll pairs = (s', .ok ())) : P s' := by
  induction pairs generalizing s with
  | nil =>
    cases h
    exact hs
  | cons x pairs ih =>
    obtain ⟨mid, hmid, hrest⟩ := visitAll_cons_eq_ok h
    exact ih (fun s s' y hy => keeps s s' y (List.mem_cons_of_mem _ hy))
      (keeps s mid x List.mem_cons_self hs hmid) hrest

/-- A sweep only appends, and one that ends with as many generators as it began with has met only
pairs that reduce to zero. -/
theorem visitAll_eq_ok (h : s.visitAll pairs = (s', .ok ())) :
    s.basis.size ≤ s'.basis.size ∧ (s'.basis.size = s.basis.size →
      s'.basis = s.basis ∧ ∀ x ∈ pairs, s.basis.ReducesPair x.1 x.2) := by
  induction pairs generalizing s with
  | nil =>
    cases h
    exact ⟨le_rfl, fun _ => ⟨rfl, fun _ hx => absurd hx List.not_mem_nil⟩⟩
  | cons x pairs ih =>
    obtain ⟨mid, hmid, hrest⟩ := visitAll_cons_eq_ok h
    obtain ⟨hle, heq⟩ := ih hrest
    cases (visit_eq_ok hmid).1 with
    | reduced hpair hbasis =>
      rw [hbasis] at hle heq
      exact ⟨hle, fun hsize => ⟨(heq hsize).1, List.forall_mem_cons.mpr ⟨hpair, (heq hsize).2⟩⟩⟩
    | appended hpair hr hbasis =>
      have hsize : mid.basis.size = s.basis.size + 1 := by
        rw [hbasis]
        exact List.length_append
      exact ⟨by omega, fun h => by omega⟩

theorem visitAll_of_reducesPair (h : ∀ x ∈ pairs, s.basis.ReducesPair x.1 x.2) :
    ∃ s', s.visitAll pairs = (s', .ok ()) ∧ s'.basis = s.basis ∧
      s'.counters.passes = s.counters.passes ∧
      s'.counters.generatorsAdded = s.counters.generatorsAdded := by
  induction pairs generalizing s with
  | nil => exact ⟨s, rfl, rfl, rfl, rfl⟩
  | cons x pairs ih =>
    obtain ⟨hx, hrest⟩ := List.forall_mem_cons.mp h
    obtain ⟨mid, hmid, hbasis, hpasses, hadded⟩ := visit_of_reducesPair hx
    obtain ⟨s', hs', hbasis', hpasses', hadded'⟩ := ih (s := mid) (by rwa [hbasis])
    refine ⟨s', ?_, hbasis'.trans hbasis, hpasses'.trans hpasses, hadded'.trans hadded⟩
    rw [visitAll]
    simp only [hmid]
    exact hs'

/-! ## One sweep -/

/-- A sweep that succeeds has visited all pairs, between two fingerprints. -/
theorem step_eq_ok {changed : Bool} (h : s.step.2 = .ok changed) :
    ∃ before after, s.basis.fingerprint = .ok before ∧
      { s with counters := { s.counters with passes := s.counters.passes + 1 } }.visitAll
        (laterPairs s.basis.generators) = (s.step.1, .ok ()) ∧
      s.step.1.basis.fingerprint = .ok after ∧ decide (after ≠ before) = changed := by
  unfold step at h ⊢
  cases hbefore : s.basis.fingerprint with
  | error e => simp [hbefore] at h
  | ok before =>
    simp only [hbefore] at h ⊢
    split at h
    next => cases h
    next s' hall =>
      obtain ⟨after, hafter, hchanged⟩ := map_eq_ok_iff.mp h
      exact ⟨before, after, rfl, hall, hafter, hchanged⟩

/-- A sweep that reports no change has changed nothing, and every pair reduced to zero. -/
theorem isGroebner_of_step (h : s.step.2 = .ok false) :
    s.step.1.basis = s.basis ∧ s.basis.isGroebner = .ok true := by
  obtain ⟨before, after, hbefore, hall, hafter, hsame⟩ := step_eq_ok h
  have heq : after = before := by simpa using hsame
  have hsize : s.step.1.basis.size = s.basis.size := by
    rw [← Basis.length_supports hafter, ← Basis.length_supports hbefore, heq]
  obtain ⟨hbasis, hpairs⟩ := (visitAll_eq_ok hall).2 hsize
  refine ⟨hbasis, Basis.isGroebner_eq_ok_true_iff.mpr fun hij hf hg => ?_⟩
  exact hpairs (_, _) (mem_laterPairs_iff.mpr ⟨_, _, hij, hf, hg⟩)

/-- Sweeping a basis all of whose pairs reduce to zero. -/
theorem step_of_isGroebner {fp : Fingerprint} (hfp : s.basis.fingerprint = .ok fp)
    (h : s.basis.isGroebner = .ok true) : s.step.2 = .ok false ∧ s.step.1.basis = s.basis ∧
      s.step.1.counters.passes = s.counters.passes + 1 ∧
      s.step.1.counters.generatorsAdded = s.counters.generatorsAdded := by
  have hpairs : ∀ x ∈ laterPairs s.basis.generators, s.basis.ReducesPair x.1 x.2 :=
    fun ⟨f, g⟩ hx => by
      obtain ⟨i, j, hij, hf, hg⟩ := mem_laterPairs_iff.mp hx
      exact Basis.isGroebner_eq_ok_true_iff.mp h hij hf hg
  obtain ⟨s', hs', hbasis, hpasses, hadded⟩ := visitAll_of_reducesPair
    (s := { s with counters := { s.counters with passes := s.counters.passes + 1 } }) hpairs
  unfold step
  simp only [hfp, hs', hbasis]
  exact ⟨by simp [Except.map], trivial, hpasses, hadded⟩

/-! ## The end of a run -/

theorem sweepStable_of_step (h : s.step.2 = .ok false) : s.step.1.basis.SweepStable := by
  obtain ⟨fp, -, hfp, -⟩ := step_eq_ok h
  obtain ⟨hbasis, hgroebner⟩ := isGroebner_of_step h
  rw [hbasis]
  refine ⟨hgroebner, fun settings hsweep => ?_⟩
  obtain ⟨hfalse, hsame, hpasses, hadded⟩ :=
    step_of_isGroebner (s := start settings s.basis) hfp hgroebner
  refine ⟨⟨(start settings s.basis).step.1.basis, (start settings s.basis).step.1.counters⟩,
    ?_, hsame, hpasses, hadded⟩
  rw [Basis.complete, Run.start, hsweep]
  exact Run.finish_eq_ok_iff.mpr
    ⟨_, repeatStep_of_last (s := Run.sweep (start settings s.basis)) hfalse, rfl⟩

/-- Sweeping stops at a stable basis only. The state from which the last sweep is made may be any,
so this holds after every history of steps, failed ones included; and it holds of what a run to
the end returns. No law of the coefficients is assumed. -/
theorem sweepStable_at_end (s : Sweep K) :
    (s.step.2 = .ok false → s.step.1.basis.SweepStable) ∧
      ∀ c, (Run.sweep s).finish = .ok c → c.basis.SweepStable := by
  refine ⟨sweepStable_of_step, fun c hc => ?_⟩
  obtain ⟨last, -, hfalse, rfl⟩ :=
    Run.exists_last_sweep (P := fun _ => True) (fun _ _ _ => trivial) trivial hc
  exact sweepStable_of_step hfalse

/-- The lines `x = y` and `x = 1`. -/
def twoLines : Basis Rat :=
  ⟨2, .lex, [⟨2, .lex, 1 / 1000, [⟨⟨[1, 0]⟩, 1⟩, ⟨⟨[0, 1]⟩, -1⟩]⟩,
    ⟨2, .lex, 1 / 1000, [⟨⟨[1, 0]⟩, 1⟩, ⟨⟨[0, 0]⟩, -1⟩]⟩]⟩

/-- The first sweep adds the line `y = 1`, the second nothing. -/
theorem sweepStable_twoLines :
    (start {} twoLines).step.2 = .ok true ∧
      (start {} twoLines).step.1.step.2 = .ok false ∧
      (start {} twoLines).step.1.step.1.basis.SweepStable ∧
      ∃ c, (Run.sweep (start {} twoLines)).finish = .ok c ∧ c.basis.SweepStable := by
  have hlast : (start {} twoLines).step.1.step.2 = .ok false := by decide +kernel
  have hsize : (Run.sweep (start {} twoLines)).finish.map (·.basis.size) = .ok 3 := by
    decide +kernel
  obtain ⟨c, hc, -⟩ := map_eq_ok_iff.mp hsize
  exact ⟨by decide +kernel, hlast, (sweepStable_at_end _).1 hlast, c, hc,
    (sweepStable_at_end _).2 c hc⟩

end Sweep
end PolyIdeal
