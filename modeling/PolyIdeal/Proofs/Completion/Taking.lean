import PolyIdeal.Completion.Worklist
import PolyIdeal.Proofs.Basis.Generators
import PolyIdeal.Proofs.CriticalPair.Pending

/-!
# What a step of a worklist does

A step takes the oldest pair from the queue and finds a verdict. `Judged` says what each verdict
rests on, and `Taken` what becomes of the basis and the queue: a remainder is appended and its
pairs with all earlier generators are queued; any other verdict leaves both as they are. A
remainder is never refused as a duplicate, so there is no third case. A step can also fail, and
`Failed` says that it then loses its pair and changes nothing else.

`Outcome` lists all that a step can do, with the counters. Later facts about the basis and the
queue are drawn from `step_cases`, or from the parts of it that `exists_taken`, `exists_failed` and
`step_eq_ok_false` are. `Pops` is what a step that succeeds and one that fails have in common.
-/

namespace PolyIdeal

variable {K : Type}

/-- The counters once one more pair has been taken up. -/
def Counters.considered (c : Counters) : Counters :=
  { c with pairsConsidered := c.pairsConsidered + 1 }

/-- The generators that a verdict adds: the remainder, if there is one. -/
def Verdict.added : Verdict K → List (Polynomial K)
  | .remainder r => [r]
  | _ => []

namespace Worklist

variable {w w' : Worklist K} {pair : CriticalPair} {queue : PairQueue} {v : Verdict K}
  {f g : Polynomial K} {n : ℕ} {o : TermOrder}

theorem generator_eq_ok_iff {i : ℕ} : w.generator i = .ok g ↔ w.basis.generators[i]? = some g := by
  unfold generator
  cases w.basis.generators[i]? with
  | none => simp
  | some g => simp

variable [Scalar K]

/-! ## Verdicts -/

/-- What a verdict on the pair of the generators `f` and `g` rests on. -/
inductive Judged (w : Worklist K) (pair : CriticalPair) (f g : Polynomial K) : Verdict K → Prop
  /-- The leading monomials have no variable in common. -/
  | coprime {t u : Term K} (ht : f.leadingTerm = .ok t) (hu : g.leadingTerm = .ok u)
      (huse : w.settings.useProduct = true) (h : t.monomial.isCoprime u.monomial = true) :
      Judged w pair f g .coprime
  /-- A third generator stands between the two. -/
  | linked {t u : Term K} {m : Monomial} (ht : f.leadingTerm = .ok t) (hu : g.leadingTerm = .ok u)
      (hm : t.monomial.lcm u.monomial = .ok m) (huse : w.settings.useChain = true)
      (h : chainCriterion pair m w.basis.generators w.queue = true) :
      Judged w pair f g .linked
  /-- The S-polynomial leaves nothing over. -/
  | settled (h : w.basis.ReducesPair f g) : Judged w pair f g .settled
  /-- The S-polynomial leaves a remainder. -/
  | remainder {r : Polynomial K} (h : w.basis.pairRemainder f g = .ok r) (hr : r.isZero = false) :
      Judged w pair f g (.remainder r)

/-- A pair that is judged has two generators, and its verdict has a reason. -/
theorem judge_eq_ok (h : w.judge pair = .ok v) : ∃ f g, w.basis.generators[pair.low]? = some f ∧
    w.basis.generators[pair.high]? = some g ∧ Judged w pair f g v := by
  unfold judge at h
  simp only [bind_eq_ok_iff, generator_eq_ok_iff, Polynomial.leadingMonomial_eq_ok_iff] at h
  obtain ⟨f, hf, g, hg, a, ⟨t, ts, hts, rfl⟩, b, ⟨u, us, hus, rfl⟩, h⟩ := h
  have ht := Polynomial.leadingTerm_eq_ok_iff.mpr ⟨ts, hts⟩
  have hu := Polynomial.leadingTerm_eq_ok_iff.mpr ⟨us, hus⟩
  refine ⟨f, g, hf, hg, ?_⟩
  split at h
  next hproduct =>
    obtain ⟨huse, hcoprime⟩ := Bool.and_eq_true_iff.mp hproduct
    rw [← pure_eq_ok_iff.mp h]
    exact .coprime ht hu huse hcoprime
  next =>
    obtain ⟨m, hm, h⟩ := bind_eq_ok_iff.mp h
    split at h
    next hchain =>
      obtain ⟨huse, hlinked⟩ := Bool.and_eq_true_iff.mp hchain
      rw [← pure_eq_ok_iff.mp h]
      exact .linked ht hu hm huse hlinked
    next =>
      obtain ⟨r, hr, h⟩ := bind_eq_ok_iff.mp h
      split at h
      next hz =>
        rw [← pure_eq_ok_iff.mp h]
        exact .settled ⟨r, hr, hz⟩
      next hz =>
        rw [← pure_eq_ok_iff.mp h]
        exact .remainder hr (Bool.eq_false_iff.mpr hz)

/-- What a verdict adds fits the basis and is not zero. -/
theorem Judged.added_fits (hw : w.basis.Fits n o) (hf : f.Fits n o) (hg : g.Fits n o)
    (h : Judged w pair f g v) : ∀ r ∈ v.added, r.Fits n o ∧ r.isZero = false := by
  cases h with
  | remainder hr hz => exact List.forall_mem_singleton.mpr ⟨hw.pairRemainder hf hg hr, hz⟩
  | _ => exact fun _ hr => absurd hr List.not_mem_nil

/-! ## Steps -/

/-- Adopting a remainder appends it and queues its pairs, or is refused and changes nothing. -/
theorem adopt_cases {r s : Polynomial K} (hr : w.basis.remainder s = .ok r)
    (hz : r.isZero = false) :
    (∃ e, (do r.checkDegree w.settings.degreeLimit; w.basis.insert r) = .error e ∧
      w.adopt r = (w, .error e)) ∨
    r.checkDegree w.settings.degreeLimit = .ok () ∧ w.adopt r = ({ w with
      basis := { w.basis with generators := w.basis.generators ++ [r] }
      queue := w.queue.extend (CriticalPair.withEarlier w.basis.size)
      counters := { w.counters with generatorsAdded := w.counters.generatorsAdded + 1 } },
      .ok ()) := by
  unfold adopt
  cases hins : (do r.checkDegree w.settings.degreeLimit; w.basis.insert r) with
  | error e => exact .inl ⟨e, rfl, rfl⟩
  | ok res =>
    obtain ⟨basis, added⟩ := res
    obtain ⟨⟨⟩, hdegree, hinsert⟩ := bind_eq_ok_iff.mp hins
    -- the remainder cannot be a duplicate
    obtain ⟨rfl, rfl⟩ := Basis.insert_remainder hr hz hinsert
    exact .inr ⟨hdegree, rfl⟩

/-- All that a step can do, with the whole state that it leaves. -/
inductive Outcome (w : Worklist K) : Prop
  /-- No pair is pending. -/
  | idle (hpop : w.queue.pop? = none) (hstep : w.step = (w, .ok false))
  /-- No verdict on the pair can be found. -/
  | stuck {pair : CriticalPair} {queue : PairQueue} {e : Fault}
      (hpop : w.queue.pop? = some (pair, queue))
      (hjudge : ({ w with queue } : Worklist K).judge pair = .error e)
      (hstep : w.step = ({ w with queue, counters := w.counters.considered }, .error e))
  /-- The verdict adds nothing. -/
  | passed {pair : CriticalPair} {queue : PairQueue} {v : Verdict K}
      (hpop : w.queue.pop? = some (pair, queue))
      (hjudge : ({ w with queue } : Worklist K).judge pair = .ok v) (hv : v.added = [])
      (hstep : w.step =
        ({ w with queue, counters := tally w.counters.considered v }, .ok true))
  /-- There is a remainder, and it cannot be added. -/
  | refused {pair : CriticalPair} {queue : PairQueue} {r : Polynomial K} {e : Fault}
      (hpop : w.queue.pop? = some (pair, queue))
      (hjudge : ({ w with queue } : Worklist K).judge pair = .ok (.remainder r))
      (hrefuse : (do r.checkDegree w.settings.degreeLimit; w.basis.insert r) = .error e)
      (hstep : w.step = ({ w with
        queue
        counters := tally w.counters.considered (.remainder r) }, .error e))
  /-- There is a remainder, and it becomes a generator. -/
  | appended {pair : CriticalPair} {queue : PairQueue} {r : Polynomial K}
      (hpop : w.queue.pop? = some (pair, queue))
      (hjudge : ({ w with queue } : Worklist K).judge pair = .ok (.remainder r))
      (hdegree : r.checkDegree w.settings.degreeLimit = .ok ())
      (hstep : w.step = ({ w with
        basis := { w.basis with generators := w.basis.generators ++ [r] }
        queue := queue.extend (CriticalPair.withEarlier w.basis.size)
        counters := { tally w.counters.considered (.remainder r) with
          generatorsAdded := w.counters.generatorsAdded + 1 } }, .ok true))

/-- A step that finds a pair takes it from the queue, counts it and settles it. -/
theorem step_of_pop (hpop : w.queue.pop? = some (pair, queue)) :
    w.step = ((({ w with queue, counters := w.counters.considered } : Worklist K).settle pair).1,
      (({ w with queue, counters := w.counters.considered } : Worklist K).settle pair).2.map
        fun _ => true) := by
  unfold step
  rw [hpop]
  rfl

/-- Every step ends in one of these ways. -/
theorem outcome (w : Worklist K) : Outcome w := by
  cases hpop : w.queue.pop? with
  | none =>
    refine .idle hpop ?_
    unfold step
    rw [hpop]
  | some next =>
    obtain ⟨pair, queue⟩ := next
    have hstep := step_of_pop hpop
    unfold settle at hstep
    -- the verdict does not depend on the counters
    have hsame : ({ w with queue, counters := w.counters.considered } : Worklist K).judge pair =
      ({ w with queue } : Worklist K).judge pair := rfl
    cases hjudge : ({ w with queue } : Worklist K).judge pair with
    | error e =>
      simp only [hsame, hjudge] at hstep
      exact .stuck hpop hjudge hstep
    | ok v =>
      simp only [hsame, hjudge] at hstep
      cases v with
      | remainder r =>
        obtain ⟨f, g, -, -, hjudged⟩ := judge_eq_ok hjudge
        cases hjudged with
        | remainder hr hz =>
          obtain ⟨s, -, hrem⟩ := Basis.pairRemainder_eq_ok_iff.mp hr
          rcases adopt_cases (w := { w with
            queue
            counters := tally w.counters.considered (.remainder r) }) hrem hz with
            ⟨e, hrefuse, hadopt⟩ | ⟨hdegree, hadopt⟩
          · simp only [hadopt] at hstep
            exact .refused hpop hjudge hrefuse hstep
          · simp only [hadopt] at hstep
            exact .appended hpop hjudge hdegree hstep
      | _ => exact .passed hpop hjudge rfl hstep

/-- A step from `w` to `w'` that takes `pair`, leaving `queue`, and finds the verdict `v`. -/
structure Taken (w w' : Worklist K) (pair : CriticalPair) (queue : PairQueue) (v : Verdict K) :
    Prop where
  pop : w.queue.pop? = some (pair, queue)
  judged : ({ w with queue } : Worklist K).judge pair = .ok v
  basis_eq : w'.basis = { w.basis with generators := w.basis.generators ++ v.added }
  queue_eq : w'.queue =
    queue.extend (v.added.flatMap fun _ => CriticalPair.withEarlier w.basis.size)
  settings_eq : w'.settings = w.settings

/-- A step from `w` to `w'` that takes `pair`, leaving `queue`, and fails. -/
structure Failed (w w' : Worklist K) (pair : CriticalPair) (queue : PairQueue) (e : Fault) :
    Prop where
  pop : w.queue.pop? = some (pair, queue)
  cause : ({ w with queue } : Worklist K).judge pair = .error e ∨
    ∃ r, ({ w with queue } : Worklist K).judge pair = .ok (.remainder r) ∧
      (do r.checkDegree w.settings.degreeLimit; w.basis.insert r) = .error e
  basis_eq : w'.basis = w.basis
  queue_eq : w'.queue = queue
  settings_eq : w'.settings = w.settings

/-- All that a step can do to the basis and the queue. -/
theorem step_cases (w : Worklist K) :
    (w.queue.pop? = none ∧ w.step.1 = w ∧ w.step.2 = .ok false) ∨
      (∃ pair queue v, Taken w w.step.1 pair queue v ∧ w.step.2 = .ok true) ∨
        ∃ pair queue e, Failed w w.step.1 pair queue e ∧ w.step.2 = .error e := by
  cases outcome w with
  | idle hpop hstep =>
    rw [hstep]
    exact .inl ⟨hpop, rfl, rfl⟩
  | stuck hpop hjudge hstep =>
    rw [hstep]
    exact .inr (.inr ⟨_, _, _, ⟨hpop, .inl hjudge, rfl, rfl, rfl⟩, rfl⟩)
  | passed hpop hjudge hv hstep =>
    rw [hstep]
    refine .inr (.inl ⟨_, _, _, ⟨hpop, hjudge, ?_, ?_, rfl⟩, rfl⟩)
    · rw [hv, List.append_nil]
    · rw [hv]
      rfl
  | refused hpop hjudge hrefuse hstep =>
    rw [hstep]
    exact .inr (.inr ⟨_, _, _, ⟨hpop, .inr ⟨_, hjudge, hrefuse⟩, rfl, rfl, rfl⟩, rfl⟩)
  | appended hpop hjudge hdegree hstep =>
    rw [hstep]
    refine .inr (.inl ⟨_, _, _, ⟨hpop, hjudge, rfl, ?_, rfl⟩, rfl⟩)
    rw [Verdict.added, List.flatMap_singleton]

/-- A step that reports progress has taken a pair. -/
theorem exists_taken (h : w.step.2 = .ok true) :
    ∃ pair queue v, Taken w w.step.1 pair queue v := by
  rcases step_cases w with ⟨-, -, hreport⟩ | ⟨pair, queue, v, htaken, -⟩ |
    ⟨_, _, _, -, hreport⟩
  · rw [hreport] at h
    cases h
  · exact ⟨pair, queue, v, htaken⟩
  · rw [hreport] at h
    cases h

/-- A step that fails has taken a pair as well, and done nothing else. -/
theorem exists_failed {e : Fault} (h : w.step.2 = .error e) :
    ∃ pair queue, Failed w w.step.1 pair queue e := by
  rcases step_cases w with ⟨-, -, hreport⟩ | ⟨_, _, _, -, hreport⟩ |
    ⟨pair, queue, e', hfailed, hreport⟩
  · rw [hreport] at h
    cases h
  · rw [hreport] at h
    cases h
  · obtain rfl : e' = e := Except.error.inj (hreport.symm.trans h)
    exact ⟨pair, queue, hfailed⟩

/-- A step that reports the end has found the queue empty, and leaves everything as it is. -/
theorem step_eq_ok_false (h : w.step.2 = .ok false) : w.queue.pop? = none ∧ w.step.1 = w := by
  rcases step_cases w with ⟨hpop, hsame, -⟩ | ⟨_, _, _, -, hreport⟩ | ⟨_, _, _, -, hreport⟩
  · exact ⟨hpop, hsame⟩
  · rw [hreport] at h
    cases h
  · rw [hreport] at h
    cases h

/-! ## The basis and the queue after a step -/

/-- A step from `w` to `w'` that takes `pair`, leaving `queue`, and appends `added`. -/
structure Pops (w w' : Worklist K) (pair : CriticalPair) (queue : PairQueue)
    (added : List (Polynomial K)) : Prop where
  pop : w.queue.pop? = some (pair, queue)
  length_added_le : added.length ≤ 1
  basis_eq : w'.basis = { w.basis with generators := w.basis.generators ++ added }
  queue_eq : w'.queue = queue.extend (added.flatMap fun _ => CriticalPair.withEarlier w.basis.size)

omit [Scalar K] in
theorem length_added_le (v : Verdict K) : v.added.length ≤ 1 := by
  cases v <;> simp [Verdict.added]

/-- A pair that is taken leaves the queue. -/
theorem Taken.pops (h : Taken w w' pair queue v) : Pops w w' pair queue v.added :=
  ⟨h.pop, length_added_le v, h.basis_eq, h.queue_eq⟩

/-- A pair whose step fails leaves the queue as well. -/
theorem Failed.pops {e : Fault} (h : Failed w w' pair queue e) : Pops w w' pair queue [] where
  pop := h.pop
  length_added_le := Nat.zero_le 1
  basis_eq := by rw [h.basis_eq, List.append_nil]
  queue_eq := h.queue_eq

/-- The queue holds each of its pairs once, and only pairs of generators. -/
structure WellQueued (w : Worklist K) : Prop where
  faithful : w.queue.Faithful
  high_lt : ∀ {p}, w.queue.contains p = true → p.high < w.basis.size

omit [Scalar K] in
/-- At the start the pairs of the given generators are queued. -/
theorem wellQueued_start (settings : Settings) (b : Basis K) :
    (start settings b).WellQueued :=
  ⟨PairQueue.faithful_ofAll _, PairQueue.contains_ofAll.mp⟩

namespace Pops

variable {added : List (Polynomial K)}

omit [Scalar K] in
/-- The basis grows by what is appended. -/
theorem size_eq (h : Pops w w' pair queue added) :
    w'.basis.size = w.basis.size + added.length := by
  rw [h.basis_eq, Basis.size, List.length_append]
  rfl

omit [Scalar K] in
/-- A pair is pending after a step if it is queued with the generator that arrived, or if it was
pending and is not the one that was taken. -/
theorem contains_iff (h : Pops w w' pair queue added) {p : CriticalPair} :
    w'.queue.contains p = true ↔
      added ≠ [] ∧ p.high = w.basis.size ∨ p ≠ pair ∧ w.queue.contains p = true := by
  rw [h.queue_eq, DistinctQueue.contains_extend, DistinctQueue.contains_rest h.pop]
  refine or_congr_left ?_
  simp only [List.mem_flatMap, CriticalPair.mem_withEarlier_iff, exists_and_right]
  exact and_congr_left fun _ => ⟨fun ⟨_, hr⟩ => List.ne_nil_of_mem hr, List.exists_mem_of_ne_nil _⟩

omit [Scalar K] in
/-- The queue stays faithful, and has no pairs of generators that are not there. -/
theorem wellQueued (h : Pops w w' pair queue added) (hw : w.WellQueued) : w'.WellQueued := by
  refine ⟨?_, fun {p} hp => ?_⟩
  · rw [h.queue_eq]
    exact (hw.faithful.rest h.pop).extend _
  · rw [h.size_eq]
    rcases h.contains_iff.mp hp with ⟨hne, hhigh⟩ | ⟨-, hp⟩
    · have hpos := List.length_pos_iff.mpr hne
      omega
    · exact Nat.lt_add_right _ (hw.high_lt hp)

omit [Scalar K] in
/-- The pairs of present generators that are not pending after a step: the pair that was taken,
and those that were not pending before. -/
theorem not_pending_iff (h : Pops w w' pair queue added) {p : CriticalPair} :
    p.high < w'.basis.size ∧ w'.queue.contains p = false ↔
      p.high < w.basis.size ∧ (p = pair ∨ w.queue.contains p = false) := by
  rw [← Bool.not_eq_true, h.contains_iff, not_or, not_and_or, not_and_or, not_not, not_not,
    Bool.not_eq_true, h.size_eq]
  have hadded := h.length_added_le
  constructor
  · rintro ⟨hhigh, rfl | hold, hcases⟩
    · exact ⟨hhigh, hcases⟩
    · exact ⟨by omega, hcases⟩
  · rintro ⟨hhigh, hcases⟩
    exact ⟨Nat.lt_add_right _ hhigh, .inr hhigh.ne, hcases⟩

end Pops

namespace Taken

/-- The verdict rests on the generators as they were before the step, and on what is pending
after the pair has left the queue. -/
theorem exists_judged (h : Taken w w' pair queue v) : ∃ f g,
    w.basis.generators[pair.low]? = some f ∧ w.basis.generators[pair.high]? = some g ∧
      Judged { w with queue } pair f g v :=
  judge_eq_ok h.judged

/-- What a step appends has the shape of the basis. -/
theorem fits (h : Taken w w' pair queue v) (hw : w.basis.Fits n o) :
    w'.basis.Fits n o ∧ ∀ r ∈ v.added, r.Fits n o := by
  obtain ⟨f, g, hf, hg, hjudged⟩ := h.exists_judged
  have hadded := hjudged.added_fits (w := { w with queue }) hw
    (hw.generators f (List.mem_of_getElem? hf)) (hw.generators g (List.mem_of_getElem? hg))
  refine ⟨?_, fun r hr => (hadded r hr).1⟩
  rw [h.basis_eq]
  exact ⟨hw.arity_eq, hw.order_eq,
    List.forall_mem_append.mpr ⟨hw.generators, fun r hr => (hadded r hr).1⟩,
    List.forall_mem_append.mpr ⟨hw.nonzero, fun r hr => (hadded r hr).2⟩⟩

theorem listed (h : Taken w w' pair queue v) (hw : w.queue.Listed) : w'.queue.Listed := by
  rw [h.queue_eq]
  exact (hw.rest h.pop).extend _

/-- The generators of a pair that is not pending after the step were there before it. -/
theorem of_not_pending (h : Taken w w' pair queue v) {p : CriticalPair}
    (hf : w'.basis.generators[p.low]? = some f) (hg : w'.basis.generators[p.high]? = some g)
    (hnot : w'.queue.contains p = false) : w.basis.generators[p.low]? = some f ∧
      w.basis.generators[p.high]? = some g ∧ (p = pair ∨ w.queue.contains p = false) := by
  obtain ⟨hold, hcases⟩ := h.pops.not_pending_iff.mp ⟨(List.getElem?_eq_some_iff.mp hg).1, hnot⟩
  rw [h.basis_eq] at hf hg
  rw [List.getElem?_append_left (p.low_lt_high.trans hold)] at hf
  rw [List.getElem?_append_left hold] at hg
  exact ⟨hf, hg, hcases⟩

end Taken

omit [Scalar K] in
/-- In the beginning all pairs of generators are pending. -/
theorem contains_start {b : Basis K} {settings : Settings} {p : CriticalPair}
    (hg : b.generators[p.high]? = some g) : (start settings b).queue.contains p = true :=
  PairQueue.contains_ofAll.mpr (List.getElem?_eq_some_iff.mp hg).1

end Worklist
end PolyIdeal
