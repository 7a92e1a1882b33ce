import PolyIdeal.Proofs.Completion.History
import PolyIdeal.Proofs.Completion.Termination

/-!
# What a completion counts

What a run has counted agrees with the state that it is in: `CountersAgree`. Every S-polynomial
that was divided left nothing over, became a generator or made its step fail, and generators come
from nowhere else: `Counters.Balance`. A remainder taken for a duplicate would upset this; there is
none.

A worklist passes on its pairs in the order in which they came. The pairs that its steps have
taken, followed by those that are pending, are the pairs of the present generators in the order
of `CriticalPair.all`. So their number is known, and each of them has been queued once. A sweep
visits the pairs of the generators that it finds.

Steps that fail at the degree limit are counted as well, and runs go on after them. An exponent
overflow on the other hand ends the program, so the laws are those of runs without one. Nothing
is assumed of the coefficients.
-/

namespace PolyIdeal

variable {K : Type} {n : ℕ} {o : TermOrder}

/-- The counters `c` of a run that began with `m` generators and has `size` of them now, after
`fails` failed steps. -/
structure Counters.Balance (c : Counters) (m size fails : ℕ) : Prop where
  /-- A criterion skips a pair, or its S-polynomial is divided. -/
  considered_eq : c.pairsConsidered = c.skippedByProduct + c.skippedByChain + c.sPolynomials
  /-- An S-polynomial leaves nothing over, adds a generator or makes its step fail. -/
  sPolynomials_eq : c.sPolynomials = c.zeroReductions + c.generatorsAdded + fails
  size_eq : size = m + c.generatorsAdded

namespace Counters

variable {c : Counters} {m size fails : ℕ}

theorem balance_start (m : ℕ) : ({} : Counters).Balance m m 0 := ⟨rfl, rfl, rfl⟩

/-! ## What becomes of an S-polynomial -/

/-- The counters stay in balance if an S-polynomial makes its step fail. -/
theorem Balance.failed (h : c.Balance m size fails) : c.visited.Balance m size (fails + 1) :=
  ⟨congrArg Nat.succ h.considered_eq, congrArg Nat.succ h.sPolynomials_eq, h.size_eq⟩

/-- The counters stay in balance if an S-polynomial leaves nothing over. -/
theorem Balance.reduced (h : c.Balance m size fails) :
    ({ c.visited with zeroReductions := c.zeroReductions + 1 } : Counters).Balance m size
      fails := by
  refine ⟨congrArg Nat.succ h.considered_eq, ?_, h.size_eq⟩
  have hdivided := h.sPolynomials_eq
  show c.sPolynomials + 1 = c.zeroReductions + 1 + c.generatorsAdded + fails
  omega

/-- The counters stay in balance if an S-polynomial becomes a generator. -/
theorem Balance.appended (h : c.Balance m size fails) :
    ({ c.visited with generatorsAdded := c.generatorsAdded + 1 } : Counters).Balance m (size + 1)
      fails := by
  refine ⟨congrArg Nat.succ h.considered_eq, ?_, congrArg Nat.succ h.size_eq⟩
  have hdivided := h.sPolynomials_eq
  show c.sPolynomials + 1 = c.zeroReductions + (c.generatorsAdded + 1) + fails
  omega

end Counters

/-- A completion that does not overflow can only fail at its degree limit. -/
theorem Fault.EndsCompletion.exists_degreeExceeded {limit : Option ℕ} {e : Fault}
    (h : e.EndsCompletion limit) (hno : e ≠ .exponentOverflow) :
    ∃ bound actual, limit = some bound ∧ e = .degreeExceeded bound actual := by
  cases h with
  | overflow => exact absurd rfl hno
  | tooLarge hlimit _ => exact ⟨_, _, hlimit, rfl⟩

variable [Scalar K] {m fails : ℕ}

/-! ## Worklists -/

namespace Worklist

variable {w w' : Worklist K} {pair : CriticalPair} {queue : PairQueue}
  {added : List (Polynomial K)} {t : ℕ}

/-- The pairs that the first `t` steps take from the queue, in the order in which they do. -/
def taken (w : Worklist K) (t : ℕ) : List CriticalPair :=
  (List.range t).filterMap fun s => (w.after s).queue.pop?.map Prod.fst

/-- The pairs that a step puts into the queue, behind those that it leaves there. -/
def arrivals (w : Worklist K) : List CriticalPair :=
  w.step.1.queue.toList.drop (w.queue.length - 1)

/-- The pairs that have been put into the queue, first at the beginning and then by `t` steps. -/
def queued (w : Worklist K) (t : ℕ) : List CriticalPair :=
  w.queue.toList ++ (List.range t).flatMap fun s => (w.after s).arrivals

/-- What a worklist run from `w` has counted after `t` steps. -/
structure CountersAgree (w : Worklist K) (t : ℕ) : Prop where
  /-- Every pair of the present generators has been queued once, -/
  queued_once : ∀ p : CriticalPair, p.high < (w.after t).basis.size → (w.queued t).count p = 1
  /-- and it is pending or was taken, not both, and not twice. -/
  taken_or_pending : ∀ p : CriticalPair, p.high < (w.after t).basis.size →
    (w.taken t).count p + (w.after t).queue.toList.count p = 1
  considered_add_pending : (w.after t).counters.pairsConsidered + (w.after t).queue.length =
    (w.after t).basis.size * ((w.after t).basis.size - 1) / 2
  balance : (w.after t).counters.Balance w.basis.size (w.after t).basis.size (failures step w t)
  /-- The failed steps are those that met a generator past the degree limit. -/
  failed_at_limit : ∀ i < t, ∀ e, (w.after i).step.2 = .error e →
    ∃ bound actual, w.settings.degreeLimit = some bound ∧ e = .degreeExceeded bound actual

/-! ### The order of the pairs -/

/-- One step more takes the pair at the front, if there is one. -/
theorem taken_succ (w : Worklist K) (t : ℕ) :
    w.taken (t + 1) = w.taken t ++ ((w.after t).queue.pop?.map Prod.fst).toList := by
  rw [taken, List.range_succ, List.filterMap_append]
  cases h : (w.after t).queue.pop? with
  | none => simp [taken, h]
  | some next => simp [taken, h]

/-- One step more queues the pairs that arrive in it. -/
theorem queued_succ (w : Worklist K) (t : ℕ) :
    w.queued (t + 1) = w.queued t ++ (w.after t).arrivals := by
  rw [queued, List.range_succ, List.flatMap_append, List.flatMap_singleton, ← List.append_assoc]
  rfl

omit [Scalar K] in
/-- The pairs of a new generator are not pending yet, so they all go to the end. -/
theorem Pops.toList_eq (h : Pops w w' pair queue added) (hw : w.WellQueued) :
    w'.queue.toList =
      queue.toList ++ added.flatMap fun _ => CriticalPair.withEarlier w.basis.size := by
  rw [h.queue_eq]
  have hlength := h.length_added_le
  match added, hlength with
  | [], _ => exact (List.append_nil _).symm
  | [r], _ =>
    rw [List.flatMap_singleton]
    refine DistinctQueue.toList_extend (CriticalPair.nodup_withEarlier _) fun p hp => ?_
    refine Bool.eq_false_iff.mpr fun hpending => ?_
    have hhigh := hw.high_lt ((DistinctQueue.contains_rest h.pop).mp hpending).2
    exact hhigh.ne (CriticalPair.mem_withEarlier_iff.mp hp)

omit [Scalar K] in
/-- The list of all pairs of the generators grows by the same pairs. -/
theorem Pops.all_size (h : Pops w w' pair queue added) : CriticalPair.all w'.basis.size =
    CriticalPair.all w.basis.size ++
      added.flatMap fun _ => CriticalPair.withEarlier w.basis.size := by
  rw [h.size_eq]
  have hlength := h.length_added_le
  match added, hlength with
  | [], _ => exact (List.append_nil _).symm
  | [r], _ => rw [List.flatMap_singleton, List.length_singleton, CriticalPair.all_succ]

/-- The pairs taken, and then those pending, are all that were queued; these are the pairs of the
present generators, in order. -/
theorem queued_start (settings : Settings) (b : Basis K) (t : ℕ) :
    (start settings b).taken t ++ ((start settings b).after t).queue.toList =
        (start settings b).queued t ∧
      (start settings b).queued t =
        CriticalPair.all ((start settings b).after t).basis.size := by
  induction t with
  | zero =>
    have hall : (start settings b).queue.toList = CriticalPair.all b.size :=
      PairQueue.toList_ofAll _
    refine ⟨?_, ?_⟩
    · simp [taken, queued, after]
    · simpa [queued, after, start] using hall
  | succ t ih =>
    obtain ⟨htaken, hqueued⟩ := ih
    have hw := (wellQueued_start settings b).after t
    rw [taken_succ, queued_succ, arrivals, ← after_succ]
    rcases after_cases (start settings b) t with ⟨hnone, hsame⟩ | ⟨pair, queue, added, hpops⟩
    · have hempty := (DistinctQueue.pop?_eq_none_iff _).mp hnone
      rw [hsame, hnone, hempty, ← hqueued, ← htaken, hempty]
      simp
    · -- one pair leaves at the front, and the new ones stand behind what is left
      have hfront := (DistinctQueue.decode_pop? hpops.pop).1
      have hdrop : (queue.toList ++ added.flatMap fun _ => CriticalPair.withEarlier
          ((start settings b).after t).basis.size).drop
            (((start settings b).after t).queue.length - 1) =
          added.flatMap fun _ => CriticalPair.withEarlier
            ((start settings b).after t).basis.size := by
        refine List.drop_left' ?_
        rw [DistinctQueue.length_of_pop? hpops.pop, Nat.add_sub_cancel, DistinctQueue.length_toList]
      rw [hpops.toList_eq hw, hdrop, hpops.all_size, hqueued, hpops.pop]
      refine ⟨?_, rfl⟩
      rw [← hqueued, ← htaken, hfront]
      simp

/-! ### The counters -/

omit [Scalar K] in
theorem pairsConsidered_tally (c : Counters) (v : Verdict K) :
    (tally c v).pairsConsidered = c.pairsConsidered := by
  cases v <;> rfl

/-- Every pair that is taken is counted. -/
theorem pairsConsidered_step (w : Worklist K) : w.step.1.counters.pairsConsidered =
    w.counters.pairsConsidered + (w.queue.pop?.map Prod.fst).toList.length := by
  cases outcome w with
  | idle hpop hstep => rw [hstep, hpop]; rfl
  | stuck hpop _ hstep => rw [hstep, hpop]; rfl
  | passed hpop _ _ hstep => rw [hstep, hpop]; exact pairsConsidered_tally _ _
  | refused hpop _ _ hstep => rw [hstep, hpop]; rfl
  | appended hpop _ _ hstep => rw [hstep, hpop]; rfl

/-- The pairs that are counted are those that were taken. -/
theorem length_taken (settings : Settings) (b : Basis K) (t : ℕ) :
    ((start settings b).taken t).length =
      ((start settings b).after t).counters.pairsConsidered := by
  induction t with
  | zero => rfl
  | succ t ih => rw [taken_succ, after_succ, pairsConsidered_step, List.length_append, ih]

/-- A step that does not overflow keeps the balance. -/
theorem balance_step (hw : w.Ready n o) (hno : w.step.2 ≠ .error .exponentOverflow)
    (h : w.counters.Balance m w.basis.size fails) : w.step.1.counters.Balance m
      w.step.1.basis.size (fails + if w.step.2.isOk then 0 else 1) := by
  cases outcome w with
  | idle hpop hstep =>
    rw [hstep]
    exact h
  | @stuck pair queue e hpop hjudge hstep =>
    -- on generators of one shape only an overflow keeps a verdict from being found
    have hhigh := hw.wellQueued.high_lt (hw.wellQueued.faithful.contains_first hpop)
    have he := overflowOnly_judge (w := { w with queue }) hw.fits hhigh e hjudge
    rw [hstep, he] at hno
    exact absurd rfl hno
  | @passed pair queue v hpop hjudge hv hstep =>
    rw [hstep]
    have hconsidered := h.considered_eq
    cases v with
    | coprime =>
      refine ⟨?_, h.sPolynomials_eq, h.size_eq⟩
      show w.counters.pairsConsidered + 1 =
        w.counters.skippedByProduct + 1 + w.counters.skippedByChain + w.counters.sPolynomials
      omega
    | linked =>
      refine ⟨?_, h.sPolynomials_eq, h.size_eq⟩
      show w.counters.pairsConsidered + 1 =
        w.counters.skippedByProduct + (w.counters.skippedByChain + 1) + w.counters.sPolynomials
      omega
    | settled => exact h.reduced
    | remainder r => cases hv
  | refused hpop hjudge hrefuse hstep =>
    rw [hstep]
    exact h.failed
  | @appended pair queue r hpop hjudge hdegree hstep =>
    rw [hstep]
    show Counters.Balance _ m
      ({ w.basis with generators := w.basis.generators ++ [r] } : Basis K).size fails
    rw [Basis.size_append]
    exact h.appended

/-- A run can go on from where it stands, under the settings that it began with. -/
theorem ready_after {b : Basis K} (hb : b.Fits n o) (settings : Settings) (t : ℕ) :
    ((start settings b).after t).Ready n o ∧
      ((start settings b).after t).settings = settings := by
  induction t with
  | zero => exact ⟨⟨hb, wellQueued_start settings b⟩, rfl⟩
  | succ t ih =>
    rw [after_succ]
    exact ⟨ih.1.step.1, ih.1.step.2.1.trans ih.2⟩

/-- The counters of a run balance after any number of steps. -/
theorem balance_after {b : Basis K} (hb : b.Fits n o) (settings : Settings)
    (hno : ∀ s < t, ((start settings b).after s).step.2 ≠ .error .exponentOverflow) :
    ((start settings b).after t).counters.Balance b.size ((start settings b).after t).basis.size
      (failures step (start settings b) t) := by
  induction t with
  | zero => exact Counters.balance_start _
  | succ t ih =>
    rw [after_succ, failures_succ]
    exact balance_step (ready_after hb settings t).1 (hno t (Nat.lt_succ_self t))
      (ih fun s hs => hno s (Nat.lt_succ_of_lt hs))

theorem countersAgree_start {b : Basis K} (hb : b.Fits n o) (settings : Settings)
    (hno : ∀ s < t, ((start settings b).after s).step.2 ≠ .error .exponentOverflow) :
    (start settings b).CountersAgree t := by
  obtain ⟨htaken, hqueued⟩ := queued_start settings b t
  refine ⟨fun p hp => ?_, fun p hp => ?_, ?_, balance_after hb settings hno,
    fun i hi e he => ?_⟩
  · rw [hqueued]
    exact CriticalPair.count_all hp
  · rw [← List.count_append, htaken, hqueued]
    exact CriticalPair.count_all hp
  · rw [← length_taken, ← DistinctQueue.length_toList, ← List.length_append, htaken, hqueued]
    exact CriticalPair.length_all _
  · obtain ⟨hready, hsettings⟩ := ready_after hb settings i
    have hends := hready.step.2.2 e he
    rw [hsettings] at hends
    exact hends.exists_degreeExceeded fun hover => hno i hi (hover ▸ he)

end Worklist

/-! ## Sweeps -/

namespace Sweep

variable {s : Sweep K} {f g : Polynomial K} {t : ℕ}

/-- What a run of sweeps that began with `m` generators has counted after `fails` failed sweeps.
Sweeps skip no pairs. -/
structure Counted (s : Sweep K) (m fails : ℕ) : Prop where
  sPolynomials_eq : s.counters.sPolynomials = s.counters.pairsConsidered
  balance : s.counters.Balance m s.basis.size fails

/-- What a run of sweeps from `s` has counted after `t` of them. -/
structure CountersAgree (s : Sweep K) (t : ℕ) : Prop where
  counted : (stateAfter step s t).Counted s.basis.size (failures step s t)
  /-- The next sweep considers all pairs of the generators that it finds, unless it fails. -/
  next_pass : ∀ more, (stateAfter step s t).step.2 = .ok more →
    (stateAfter step s (t + 1)).counters.pairsConsidered =
      (stateAfter step s t).counters.pairsConsidered +
        (stateAfter step s t).basis.size * ((stateAfter step s t).basis.size - 1) / 2
  /-- The failed sweeps are those that met a generator past the degree limit. -/
  failed_at_limit : ∀ i < t, ∀ e, (stateAfter step s i).step.2 = .error e →
    ∃ bound actual, s.degreeLimit = some bound ∧ e = .degreeExceeded bound actual

/-- A visit counts one pair. -/
theorem counted_visit (h : s.Counted m fails) :
    (s.visit f g).1.Counted m (fails + if (s.visit f g).2.isOk then 0 else 1) ∧
      (s.visit f g).1.counters.pairsConsidered = s.counters.pairsConsidered + 1 := by
  obtain ⟨hall, hbalance⟩ := h
  cases visitOutcome s f g with
  | failed _ hvisit =>
    rw [hvisit]
    exact ⟨⟨congrArg Nat.succ hall, hbalance.failed⟩, rfl⟩
  | reduced _ hvisit =>
    rw [hvisit]
    exact ⟨⟨congrArg Nat.succ hall, hbalance.reduced⟩, rfl⟩
  | @appended r _ _ _ hvisit =>
    rw [hvisit]
    refine ⟨⟨congrArg Nat.succ hall, ?_⟩, rfl⟩
    show Counters.Balance _ m
      ({ s.basis with generators := s.basis.generators ++ [r] } : Basis K).size fails
    rw [Basis.size_append]
    exact hbalance.appended

/-- The visits of a sweep count all pairs if none of them fails. -/
theorem counted_visitAll (pairs : List (Polynomial K × Polynomial K)) (h : s.Counted m fails) :
    (s.visitAll pairs).1.Counted m (fails + if (s.visitAll pairs).2.isOk then 0 else 1) ∧
      ((s.visitAll pairs).2 = .ok () → (s.visitAll pairs).1.counters.pairsConsidered =
        s.counters.pairsConsidered + pairs.length) := by
  induction pairs generalizing s with
  | nil => exact ⟨h, fun _ => rfl⟩
  | cons x pairs ih =>
    obtain ⟨hcounted, hone⟩ := counted_visit (f := x.1) (g := x.2) h
    rw [visitAll]
    cases hvisit : s.visit x.1 x.2 with
    | mk mid outcome =>
      rw [hvisit] at hcounted hone
      cases outcome with
      | error e => exact ⟨hcounted, fun hok => by cases hok⟩
      | ok done =>
        obtain ⟨hrest, hlength⟩ := ih hcounted
        refine ⟨hrest, fun hok => ?_⟩
        calc (mid.visitAll pairs).1.counters.pairsConsidered
            = mid.counters.pairsConsidered + pairs.length := hlength hok
          _ = s.counters.pairsConsidered + 1 + pairs.length := by rw [← hone]
          _ = s.counters.pairsConsidered + (pairs.length + 1) := by omega

/-- A sweep that does not overflow does what its visits do. -/
theorem step_of_no_overflow (hno : s.step.2 ≠ .error .exponentOverflow) :
    s.step.1 = (s.begun.visitAll (laterPairs s.basis.generators)).1 ∧
      s.step.2.isOk = (s.begun.visitAll (laterPairs s.basis.generators)).2.isOk := by
  unfold begun
  unfold step at hno ⊢
  cases hbefore : s.basis.fingerprint with
  | error e =>
    simp only [hbefore, Basis.overflowOnly_fingerprint _ e hbefore] at hno
    exact absurd rfl hno
  | ok before =>
    simp only [hbefore] at hno ⊢
    split
    next e hall =>
      rw [hall]
      exact ⟨rfl, rfl⟩
    next s' hall =>
      rw [hall] at hno ⊢
      refine ⟨rfl, ?_⟩
      cases hafter : s'.basis.fingerprint with
      | error e =>
        simp only [hafter, Basis.overflowOnly_fingerprint _ e hafter] at hno
        exact absurd rfl hno
      | ok after => rfl

omit [Scalar K] in
/-- Beginning a sweep counts the sweep and no pair. -/
theorem Counted.begun (h : s.Counted m fails) : s.begun.Counted m fails :=
  ⟨h.sPolynomials_eq, h.balance.considered_eq, h.balance.sPolynomials_eq, h.balance.size_eq⟩

/-- A sweep keeps the counters in balance. -/
theorem counted_step (hno : s.step.2 ≠ .error .exponentOverflow) (h : s.Counted m fails) :
    s.step.1.Counted m (fails + if s.step.2.isOk then 0 else 1) := by
  obtain ⟨hstate, hreport⟩ := step_of_no_overflow hno
  rw [hstate, hreport]
  exact (counted_visitAll _ h.begun).1

/-- A sweep that succeeds considers every pair of the generators that it finds. -/
theorem pairsConsidered_step {more : Bool} (h : s.Counted m fails) (hstep : s.step.2 = .ok more) :
    s.step.1.counters.pairsConsidered =
      s.counters.pairsConsidered + s.basis.size * (s.basis.size - 1) / 2 := by
  obtain ⟨before, after, -, hall, -⟩ := step_eq_ok hstep
  have hlength := (counted_visitAll (laterPairs s.basis.generators) h.begun).2
  rw [begun, hall, length_laterPairs] at hlength
  exact hlength rfl

/-- The counters are in balance after any number of sweeps. -/
theorem counted_stateAfter (settings : Settings) (b : Basis K)
    (hno : ∀ i < t, (stateAfter step (start settings b) i).step.2 ≠ .error .exponentOverflow) :
    (stateAfter step (start settings b) t).Counted b.size (failures step (start settings b) t) := by
  induction t with
  | zero => exact ⟨rfl, Counters.balance_start _⟩
  | succ t ih =>
    rw [stateAfter_succ, failures_succ]
    exact counted_step (hno t (Nat.lt_succ_self t)) (ih fun i hi => hno i (Nat.lt_succ_of_lt hi))

theorem advances_stateAfter {b : Basis K} (hb : b.Fits n o) (settings : Settings) (t : ℕ) :
    Advances n o (start settings b) (stateAfter step (start settings b) t) :=
  stateAfter_invariant (fun _ h => h.trans (advances_step h.fits).1)
    (Advances.of_basis_eq hb rfl rfl) t

theorem countersAgree_start {b : Basis K} (hb : b.Fits n o) (settings : Settings)
    (hno : ∀ i < t, (stateAfter step (start settings b) i).step.2 ≠ .error .exponentOverflow) :
    (start settings b).CountersAgree t := by
  have hcounted := counted_stateAfter settings b hno
  refine ⟨hcounted, fun more hmore => ?_, fun i hi e he => ?_⟩
  · rw [stateAfter_succ]
    exact pairsConsidered_step hcounted hmore
  · have hadvances := advances_stateAfter hb settings i
    have hends := endsCompletion_of_step hadvances.fits he
    rw [hadvances.degreeLimit_eq] at hends
    exact hends.exists_degreeExceeded fun hover => hno i hi (hover ▸ he)

end Sweep

/-- The counters of both ways of completing a basis are right after any number of steps, failed
ones included, as long as none has ended in an exponent overflow. -/
theorem countersAgree_of_completion {b : Basis K} (hb : b.Fits n o) (settings : Settings) (t : ℕ) :
    ((∀ i < t, ((Worklist.start settings b).after i).step.2 ≠ .error .exponentOverflow) →
      (Worklist.start settings b).CountersAgree t) ∧
    ((∀ i < t, (stateAfter Sweep.step (Sweep.start settings b) i).step.2 ≠
        .error .exponentOverflow) → (Sweep.start settings b).CountersAgree t) :=
  ⟨Worklist.countersAgree_start hb settings, Sweep.countersAgree_start hb settings⟩

/-- With the degree limit 0 the only pair of the two lines makes its step fail, in both ways, and
the worklist goes on with an empty queue. -/
theorem countersAgree_twoLines : Sweep.twoLines.Fits 2 .lex ∧
    failures Worklist.step (Worklist.start { degreeLimit := some 0 } Sweep.twoLines) 2 = 1 ∧
      (Worklist.start { degreeLimit := some 0 } Sweep.twoLines).CountersAgree 2 ∧
        failures Sweep.step (Sweep.start { degreeLimit := some 0 } Sweep.twoLines) 2 = 2 ∧
          (Sweep.start { degreeLimit := some 0 } Sweep.twoLines).CountersAgree 2 := by
  have hfits : Sweep.twoLines.Fits 2 .lex := by decide
  have hworklist : ∀ i < 2, ((Worklist.start { degreeLimit := some 0 } Sweep.twoLines).after
      i).step.2 ≠ .error .exponentOverflow := by decide +kernel
  have hsweep : ∀ i < 2, (stateAfter Sweep.step (Sweep.start { degreeLimit := some 0 }
      Sweep.twoLines) i).step.2 ≠ .error .exponentOverflow := by decide +kernel
  exact ⟨hfits, by decide +kernel, (countersAgree_of_completion hfits _ 2).1 hworklist,
    by decide +kernel, (countersAgree_of_completion hfits _ 2).2 hsweep⟩

end PolyIdeal
