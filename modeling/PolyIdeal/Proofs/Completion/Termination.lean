import PolyIdeal.Proofs.Completion.Growth

/-!
# Every completion ends

A sweep that reports more to do has appended a generator, and so has taken up room. A step of a
worklist takes a pair from the queue; it queues new pairs only when it appends a generator, and
then the room it takes up pays for all of them: with `s` generators and room for `r` more, the
queue and `r * (s + r)` together go down at every step. Both measures start below the number of
steps that a run is given.

What is left are the ways in which a step can fail. On a basis whose generators have its shape
these are two: an exponent that leaves its 32 bits, and a generator past the degree limit. In
particular no division runs out of rounds. Nothing is assumed of the coefficients.
-/

namespace PolyIdeal

variable {K : Type} {n : ℕ} {o : TermOrder}

/-! ## The faults that a completion can end in -/

/-- An exponent overflow, or a generator past the degree limit. -/
inductive Fault.EndsCompletion (limit : Option ℕ) : Fault → Prop
  | overflow : EndsCompletion limit .exponentOverflow
  | tooLarge {bound actual : ℕ} (hlimit : limit = some bound) (hlt : bound < actual) :
      EndsCompletion limit (.degreeExceeded bound actual)

/-- An overflow may end a completion. -/
theorem OverflowOnly.endsCompletion {α : Type} {x : Except Fault α} {e : Fault}
    (hx : OverflowOnly x) (h : x = .error e) (limit : Option ℕ) : e.EndsCompletion limit := by
  rw [hx e h]
  exact .overflow

/-- A degree past the limit may end a completion. -/
theorem Polynomial.endsCompletion_of_checkDegree {p : Polynomial K} {limit : Option ℕ} {e : Fault}
    (h : p.checkDegree limit = .error e) : e.EndsCompletion limit := by
  cases limit with
  | none => cases h
  | some bound =>
    have hdegree : OverflowOnly p.totalDegree := by
      unfold totalDegree
      split
      · exact .of_eq_ok rfl
      · exact .error
    unfold checkDegree at h
    simp only at h
    rcases hdegree.cases with hd | ⟨actual, hd⟩
    · rw [hd] at h
      cases h
      exact .overflow
    · rw [bind_of_eq_ok hd] at h
      split at h
      next hlt =>
        cases h
        exact .tooLarge rfl hlt
      next => cases h

variable [Scalar K] {e : Fault}

/-! ## Worklists -/

namespace Worklist

variable {w : Worklist K} {pair : CriticalPair}

/-- The basis has its shape, and the queue holds pairs of its generators. -/
structure Ready (n : ℕ) (o : TermOrder) (w : Worklist K) : Prop where
  fits : w.basis.Fits n o
  wellQueued : w.WellQueued

/-- A verdict on a pair of generators is found, unless an exponent overflows. -/
theorem overflowOnly_judge (hw : w.basis.Fits n o) (hp : pair.high < w.basis.size) :
    OverflowOnly (w.judge pair) := by
  have hlow : pair.low < w.basis.size := pair.low_lt_high.trans hp
  have hf : w.basis.generators[pair.low]? = some w.basis.generators[pair.low] :=
    List.getElem?_eq_getElem hlow
  have hg : w.basis.generators[pair.high]? = some w.basis.generators[pair.high] :=
    List.getElem?_eq_getElem hp
  have hfmem := List.mem_of_getElem? hf
  have hgmem := List.mem_of_getElem? hg
  obtain ⟨t, ts, hts⟩ := Polynomial.isZero_eq_false_iff.mp (hw.nonzero _ hfmem)
  obtain ⟨u, us, hus⟩ := Polynomial.isZero_eq_false_iff.mp (hw.nonzero _ hgmem)
  have hta := (hw.generators _ hfmem).leadingTerm_arity
    (Polynomial.leadingTerm_eq_ok_iff.mpr ⟨ts, hts⟩)
  have hua := (hw.generators _ hgmem).leadingTerm_arity
    (Polynomial.leadingTerm_eq_ok_iff.mpr ⟨us, hus⟩)
  unfold judge
  rw [bind_of_eq_ok (generator_eq_ok_iff.mpr hf), bind_of_eq_ok (generator_eq_ok_iff.mpr hg),
    bind_of_eq_ok (Polynomial.leadingMonomial_eq_ok_iff.mpr ⟨t, ts, hts, rfl⟩),
    bind_of_eq_ok (Polynomial.leadingMonomial_eq_ok_iff.mpr ⟨u, us, hus, rfl⟩)]
  split
  · exact .of_eq_ok rfl
  · rw [bind_of_eq_ok (Monomial.lcm_eq_ok_iff.mpr ⟨hta.trans hua.symm, rfl⟩)]
    split
    · exact .of_eq_ok rfl
    · refine (hw.overflowOnly_pairRemainder hfmem hgmem).bind fun r _ => ?_
      split
      · exact .of_eq_ok rfl
      · exact .of_eq_ok rfl

/-- A step of a worklist fails with one of the two. -/
theorem Failed.endsCompletion {w' : Worklist K} {queue : PairQueue}
    (h : Failed w w' pair queue e) (hw : w.Ready n o) :
    e.EndsCompletion w.settings.degreeLimit := by
  have hhigh := hw.wellQueued.high_lt (hw.wellQueued.faithful.contains_first h.pop)
  rcases h.cause with hjudge | ⟨r, hjudge, hadopt⟩
  · exact (overflowOnly_judge (w := { w with queue }) hw.fits hhigh).endsCompletion hjudge _
  · obtain ⟨f, g, hf, hg, hjudged⟩ := judge_eq_ok hjudge
    have hfits := (hjudged.added_fits (w := { w with queue }) hw.fits
      (hw.fits.generators f (List.mem_of_getElem? hf))
      (hw.fits.generators g (List.mem_of_getElem? hg)) r List.mem_cons_self).1
    obtain ⟨res, hinsert⟩ := hw.fits.exists_insert hfits
    cases hdegree : r.checkDegree w.settings.degreeLimit with
    | error e' =>
      rw [hdegree] at hadopt
      cases hadopt
      exact Polynomial.endsCompletion_of_checkDegree hdegree
    | ok done =>
      rw [bind_of_eq_ok hdegree, hinsert] at hadopt
      cases hadopt

/-- A step leaves the worklist ready, whatever it reports, and fails in two ways only. -/
theorem Ready.step (hw : w.Ready n o) : w.step.1.Ready n o ∧
    w.step.1.settings = w.settings ∧
      ∀ e, w.step.2 = .error e → e.EndsCompletion w.settings.degreeLimit := by
  rcases step_cases w with ⟨-, hsame, hreport⟩ | ⟨pair, queue, v, htaken, hreport⟩ |
    ⟨pair, queue, e', hfailed, hreport⟩
  · rw [hsame, hreport]
    exact ⟨hw, rfl, fun e he => by cases he⟩
  · rw [hreport]
    exact ⟨⟨(htaken.fits hw.fits).1, htaken.pops.wellQueued hw.wellQueued⟩, htaken.settings_eq,
      fun e he => by cases he⟩
  · rw [hreport]
    refine ⟨⟨?_, hfailed.pops.wellQueued hw.wellQueued⟩, hfailed.settings_eq, fun e he => ?_⟩
    · rw [hfailed.basis_eq]
      exact hw.fits
    · obtain rfl : e' = e := Except.error.inj he
      exact hfailed.endsCompletion hw

/-- The pending pairs, and the pairs that generators still to come can bring. -/
noncomputable def workload (w : Worklist K) : ℕ :=
  w.queue.length + w.basis.room * (w.basis.size + w.basis.room)

omit [Scalar K] in
/-- The workload is within the bound on the number of steps. -/
theorem workload_lt_stepBound (w : Worklist K) : w.workload < (Run.worklist w).stepBound := by
  have hsum := w.basis.size_add_room_le
  have hroom : w.basis.room ≤ w.basis.sizeBound := (Nat.le_add_left _ _).trans hsum
  have hmul := Nat.mul_le_mul hroom hsum
  show w.queue.length + w.basis.room * (w.basis.size + w.basis.room) <
    w.basis.sizeBound * w.basis.sizeBound + w.queue.length + 1
  omega

variable {w' : Worklist K} {queue : PairQueue}

omit [Scalar K] in
/-- A step that only takes a pair has one pair less to do. -/
theorem Pops.workload_lt (h : Pops w w' pair queue []) : w'.workload < w.workload := by
  have hbasis : w'.basis = w.basis := by rw [h.basis_eq, List.append_nil]
  have hqueue : w'.queue = queue := h.queue_eq
  unfold workload
  rw [hbasis, hqueue, DistinctQueue.length_of_pop? h.pop]
  exact Nat.add_lt_add_right (Nat.lt_succ_self _) _

omit [Scalar K] in
/-- A step that appends a generator queues its pairs with all others, and the room that the
generator takes up outweighs them. -/
theorem Pops.workload_lt_of_room_lt {r : Polynomial K} (h : Pops w w' pair queue [r])
    (hroom : w'.basis.room < w.basis.room) : w'.workload < w.workload := by
  have hsize : w'.basis.size = w.basis.size + 1 := h.size_eq
  have hpop := DistinctQueue.length_of_pop? h.pop
  have hlength : w'.queue.length ≤ queue.length + w.basis.size := by
    rw [h.queue_eq, List.flatMap_singleton]
    refine (DistinctQueue.length_extend_le _ _).trans_eq ?_
    rw [CriticalPair.length_withEarlier]
  -- size and room together do not grow, and one unit of room is worth as much as both
  have hcost : w'.basis.room * (w'.basis.size + w'.basis.room) + (w.basis.size + w.basis.room) ≤
      w.basis.room * (w.basis.size + w.basis.room) := by
    calc w'.basis.room * (w'.basis.size + w'.basis.room) + (w.basis.size + w.basis.room)
        ≤ w'.basis.room * (w.basis.size + w.basis.room) + (w.basis.size + w.basis.room) := by
          refine Nat.add_le_add_right (Nat.mul_le_mul_left _ ?_) _
          omega
      _ = (w'.basis.room + 1) * (w.basis.size + w.basis.room) := (Nat.succ_mul _ _).symm
      _ ≤ w.basis.room * (w.basis.size + w.basis.room) := Nat.mul_le_mul_right _ hroom
  unfold workload
  omega

/-- Each pair that is taken leaves less to do. -/
theorem Taken.workload_lt {v : Verdict K} (h : Taken w w' pair queue v) (hw : w.basis.Fits n o) :
    w'.workload < w.workload := by
  obtain ⟨f, g, hf, hg, hjudged⟩ := h.exists_judged
  cases hjudged with
  | @remainder r hr hz =>
    have hfmem := List.mem_of_getElem? hf
    have hfits := hw.pairRemainder (hw.generators f hfmem)
      (hw.generators g (List.mem_of_getElem? hg)) hr
    obtain ⟨s, -, hrem⟩ := Basis.pairRemainder_eq_ok_iff.mp hr
    refine h.pops.workload_lt_of_room_lt ?_
    rw [h.basis_eq]
    exact hw.room_append_lt (List.ne_nil_of_mem hfmem) hrem hfits hz
  | _ => exact h.pops.workload_lt

end Worklist

/-! ## Sweeps -/

namespace Sweep

variable {s s' : Sweep K} {f g : Polynomial K} {pairs : List (Polynomial K × Polynomial K)}

/-- From `s` to `s'` the basis has stayed as it is, or grown and lost room. -/
structure Advances (n : ℕ) (o : TermOrder) (s s' : Sweep K) : Prop where
  fits : s'.basis.Fits n o
  subset : s.basis.generators ⊆ s'.basis.generators
  room : s'.basis = s.basis ∨ s'.basis.room < s.basis.room
  degreeLimit_eq : s'.degreeLimit = s.degreeLimit

omit [Scalar K] in
theorem Advances.of_basis_eq (hs : s.basis.Fits n o) (h : s'.basis = s.basis)
    (hlimit : s'.degreeLimit = s.degreeLimit) : Advances n o s s' where
  fits := h ▸ hs
  subset := by rw [h]; exact List.Subset.refl _
  room := .inl h
  degreeLimit_eq := hlimit

theorem Advances.of_grows (hs : s.basis.Fits n o)
    (h : Basis.Grows s.degreeLimit s.basis s'.basis) (hlimit : s'.degreeLimit = s.degreeLimit) :
    Advances n o s s' :=
  ⟨h.fits hs, h.subset, h.room hs, hlimit⟩

omit [Scalar K] in
theorem Advances.trans {t : Sweep K} (h : Advances n o s s') (h' : Advances n o s' t) :
    Advances n o s t where
  fits := h'.fits
  subset := List.Subset.trans h.subset h'.subset
  degreeLimit_eq := h'.degreeLimit_eq.trans h.degreeLimit_eq
  room := by
    rcases h'.room with heq' | hlt'
    · rw [heq']
      exact h.room
    · rcases h.room with heq | hlt
      · rw [heq] at hlt'
        exact .inr hlt'
      · exact .inr (hlt'.trans hlt)

/-- The reduction of a pair of generators fails with an overflow or past the limit. -/
theorem endsCompletion_of_reduction (hs : s.basis.Fits n o) (hf : f ∈ s.basis.generators)
    (hg : g ∈ s.basis.generators) (h : s.reduction f g = .error e) :
    e.EndsCompletion s.degreeLimit := by
  unfold reduction at h
  rcases (hs.overflowOnly_pairRemainder hf hg).cases with hr | ⟨r, hr⟩
  · rw [hr] at h
    cases h
    exact .overflow
  · rw [bind_of_eq_ok hr] at h
    split at h
    next => cases h
    next =>
      cases hdegree : r.checkDegree s.degreeLimit with
      | error e' =>
        rw [hdegree] at h
        cases h
        exact Polynomial.endsCompletion_of_checkDegree hdegree
      | ok done =>
        rw [bind_of_eq_ok hdegree] at h
        cases h

/-- A visit to a pair of generators fails in two ways only. -/
theorem endsCompletion_of_visit (hs : s.basis.Fits n o) (hf : f ∈ s.basis.generators)
    (hg : g ∈ s.basis.generators) (h : (s.visit f g).2 = .error e) :
    e.EndsCompletion s.degreeLimit := by
  obtain ⟨-, hred | ⟨r, hred, hinsert⟩⟩ := visit_eq_error (Prod.ext rfl h)
  · exact endsCompletion_of_reduction hs hf hg hred
  · -- a remainder has the shape of the basis, so inserting it cannot fail
    have hfits := hs.pairRemainder (hs.generators f hf) (hs.generators g hg)
      (reduction_eq_ok hred)
    obtain ⟨res, hok⟩ := hs.exists_insert hfits
    rw [hok] at hinsert
    cases hinsert

/-- So do the visits of a sweep. The pairs are those of the generators at its beginning. -/
theorem endsCompletion_of_visitAll (hs : s.basis.Fits n o)
    (hpairs : ∀ x ∈ pairs, x.1 ∈ s.basis.generators ∧ x.2 ∈ s.basis.generators)
    (h : (s.visitAll pairs).2 = .error e) : e.EndsCompletion s.degreeLimit := by
  obtain ⟨mid, x, hx, hgrows, hlimit, herror⟩ := exists_visit_of_visitAll hpairs h
  rw [← hlimit]
  exact endsCompletion_of_visit (hgrows.fits hs) (hgrows.subset (hpairs x hx).1)
    (hgrows.subset (hpairs x hx).2) herror

/-- And so does a sweep. -/
theorem endsCompletion_of_step (hs : s.basis.Fits n o) (h : s.step.2 = .error e) :
    e.EndsCompletion s.degreeLimit := by
  unfold step at h
  cases hbefore : s.basis.fingerprint with
  | error e' =>
    rw [hbefore] at h
    obtain rfl := Except.error.inj h
    exact (Basis.overflowOnly_fingerprint _).endsCompletion hbefore _
  | ok before =>
    rw [hbefore] at h
    simp only at h
    split at h
    next e' hall =>
      obtain rfl := Except.error.inj h
      refine endsCompletion_of_visitAll (s := s.begun) hs
        (fun x hx => mem_generators_of_mem_laterPairs hx) ?_
      rw [begun, hall]
    next s' hall =>
      cases hafter : s'.basis.fingerprint with
      | error e' =>
        rw [hafter] at h
        obtain rfl := Except.error.inj h
        exact (Basis.overflowOnly_fingerprint _).endsCompletion hafter _
      | ok after =>
        rw [hafter] at h
        cases h

/-- A sweep, whatever it reports. -/
theorem advances_step (hs : s.basis.Fits n o) : Advances n o s s.step.1 ∧
    ∀ e, s.step.2 = .error e → e.EndsCompletion s.degreeLimit := by
  have hgrows := s.grows_step 0
  rw [basis_midway_zero] at hgrows
  exact ⟨.of_grows hs hgrows s.degreeLimit_step, fun e he => endsCompletion_of_step hs he⟩

/-- A sweep that reports a change has taken up room. -/
theorem room_lt_of_step (hs : s.basis.Fits n o) (h : s.step.2 = .ok true) :
    s.step.1.basis.room < s.basis.room := by
  refine (advances_step hs).1.room.resolve_left fun hsame => ?_
  obtain ⟨before, after, hbefore, -, hafter, hchanged⟩ := step_eq_ok h
  rw [hsame, hbefore, Except.ok.injEq] at hafter
  exact of_decide_eq_true hchanged hafter.symm

end Sweep

/-! ## Runs -/

namespace Run

/-- What every step of a run keeps. -/
def Ready (n : ℕ) (o : TermOrder) : Run K → Prop
  | sweep s => s.basis.Fits n o
  | worklist w => w.Ready n o

/-- What every step that reports more to do lowers. -/
noncomputable def measure : Run K → ℕ
  | sweep s => s.basis.room
  | worklist w => w.workload

/-- The loop over the steps from `r` on makes `k` steps that report more to do, and ends with the
next one: by reporting nothing left to do, or with a fault of one of two kinds. -/
structure EndsAfter (r : Run K) (k : ℕ) : Prop where
  goes_on : ∀ i < k, (stateAfter step r i).step.2 = .ok true
  ends : (stateAfter step r k).step.2 = .ok false ∧
      r.finish = .ok (stateAfter step r (k + 1)).completion ∨
    ∃ e, (stateAfter step r k).step.2 = .error e ∧ r.finish = .error e ∧
      e.EndsCompletion r.degreeLimit

variable {r : Run K}

omit [Scalar K] in
/-- A run can be started on any basis that has a shape. -/
theorem ready_start {b : Basis K} (hb : b.Fits n o) (settings : Settings) :
    (start settings b).Ready n o := by
  unfold start
  cases settings.strategy with
  | sweep => exact hb
  | worklist => exact ⟨hb, Worklist.wellQueued_start settings b⟩

/-- A step keeps a run ready and fails with one of the two faults. -/
theorem Ready.step (hr : r.Ready n o) : r.step.1.Ready n o ∧
    r.step.1.degreeLimit = r.degreeLimit ∧
      ∀ e, r.step.2 = .error e → e.EndsCompletion r.degreeLimit := by
  cases r with
  | sweep s =>
    obtain ⟨hadv, hfault⟩ := Sweep.advances_step hr
    exact ⟨hadv.fits, hadv.degreeLimit_eq, hfault⟩
  | worklist w =>
    obtain ⟨hready, hsettings, hfault⟩ := Worklist.Ready.step hr
    exact ⟨hready, congrArg Settings.degreeLimit hsettings, hfault⟩

/-- A step that reports progress makes the measure smaller. -/
theorem measure_lt_of_step (hr : r.Ready n o) (h : r.step.2 = .ok true) :
    r.step.1.measure < r.measure := by
  cases r with
  | sweep s => exact Sweep.room_lt_of_step hr h
  | worklist w =>
    obtain ⟨pair, queue, v, htaken⟩ := Worklist.exists_taken h
    exact htaken.workload_lt hr.fits

omit [Scalar K] in
theorem measure_lt_stepBound (r : Run K) : r.measure < r.stepBound := by
  cases r with
  | sweep s =>
    exact Nat.lt_succ_of_le ((Nat.le_add_left _ _).trans s.basis.size_add_room_le)
  | worklist w => exact w.workload_lt_stepBound

omit [Scalar K] in
theorem Ready.fits (hr : r.Ready n o) : r.basis.Fits n o := by
  cases r with
  | sweep s => exact hr
  | worklist w => exact Worklist.Ready.fits hr

/-- What a run returns has the shape of the basis it began with. -/
theorem Ready.fits_of_finish {c : Completion K} (hr : r.Ready n o) (h : r.finish = .ok c) :
    c.basis.Fits n o := by
  obtain ⟨_, hrepeat, rfl⟩ := finish_eq_ok_iff.mp h
  obtain ⟨last, hlast, -, rfl⟩ := exists_last_of_repeatStep (P := Ready n o)
    (fun s hs _ => hs.step.1) hr hrepeat
  exact hlast.step.1.fits

/-- A run that is ready ends, after fewer steps than it is given. -/
theorem Ready.exists_endsAfter (hr : r.Ready n o) : ∃ k < r.stepBound, r.EndsAfter k := by
  obtain ⟨k, hk, hgoes, hends⟩ := exists_endsAfter_of_measure (P := Ready n o) (μ := measure)
    (fun r hr h => ⟨hr.step.1, measure_lt_of_step hr h⟩) hr r.measure_lt_stepBound
  refine ⟨k, hk.trans_lt r.measure_lt_stepBound, hgoes, ?_⟩
  -- the limit in force at the last step is the one at the first
  have hlast := stateAfter_invariant
    (P := fun last : Run K => last.Ready n o ∧ last.degreeLimit = r.degreeLimit)
    (fun last h => ⟨h.1.step.1, h.1.step.2.1.trans h.2⟩) ⟨hr, rfl⟩ k
  unfold finish
  rcases hends with ⟨hfalse, hrepeat⟩ | ⟨e, herror, hrepeat⟩
  · exact .inl ⟨hfalse, by rw [hrepeat]; rfl⟩
  · refine .inr ⟨e, herror, by rw [hrepeat]; rfl, ?_⟩
    rw [← hlast.2]
    exact hlast.1.step.2.2 e herror

/-- A run that fails does so with an overflow or past the limit. -/
theorem Ready.endsCompletion_of_finish (hr : r.Ready n o) (h : r.finish = .error e) :
    e.EndsCompletion r.degreeLimit := by
  obtain ⟨k, -, hk⟩ := hr.exists_endsAfter
  rcases hk.ends with ⟨-, hok⟩ | ⟨e', -, herror, hends⟩
  · rw [hok] at h
    cases h
  · obtain rfl : e' = e := Except.error.inj (herror.symm.trans h)
    exact hends

/-- Completing a basis ends, with either strategy, any settings and any coefficient arithmetic.
The loop can be entered at the start or after any number of steps, failed ones included; it makes
fewer steps than it is given, and what it returns is what its last step reported. -/
theorem exists_endsAfter_start {b : Basis K} (hb : b.Fits n o) (settings : Settings) (j : ℕ) :
    ∃ k < (stateAfter step (start settings b) j).stepBound,
      (stateAfter step (start settings b) j).EndsAfter k :=
  (stateAfter_invariant (P := Ready n o) (fun _ hr => hr.step.1) (ready_start hb settings)
    j).exists_endsAfter

/-- The lines end under both strategies. -/
theorem exists_endsAfter_twoLines : Sweep.twoLines.Fits 2 .lex ∧
    (∃ k < (start {} Sweep.twoLines).stepBound, (start {} Sweep.twoLines).EndsAfter k) ∧
      ∃ k < (start { strategy := .sweep } Sweep.twoLines).stepBound,
        (start { strategy := .sweep } Sweep.twoLines).EndsAfter k := by
  have hfits : Sweep.twoLines.Fits 2 .lex := by decide
  exact ⟨hfits, exists_endsAfter_start hfits {} 0,
    exists_endsAfter_start hfits { strategy := .sweep } 0⟩

end Run

/-- A completion that fails does so with an overflow or past the limit. -/
theorem Basis.endsCompletion_of_complete {b : Basis K} (hb : b.Fits n o) {settings : Settings}
    (h : b.complete settings = .error e) : e.EndsCompletion settings.degreeLimit := by
  have hends := (Run.ready_start hb settings).endsCompletion_of_finish h
  rwa [Run.degreeLimit_start] at hends

end PolyIdeal
