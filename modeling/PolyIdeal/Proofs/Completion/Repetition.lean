import Mathlib.Logic.Function.Iterate
import PolyIdeal.Completion.Run
import PolyIdeal.Proofs.Fault.Outcome

/-!
# Repeating a step

A repetition that succeeds has ended in a step that reported nothing left to do, and whatever
steps keep holds where that step was made. If every step that reports more to do also lowers a
measure, then one of the steps reports something else before the rounds are used up. Runs of both
kinds come down to this.
-/

namespace PolyIdeal

/-- A repetition goes by the report of its first step. -/
theorem repeatStep_succ {σ : Type} (step : σ → σ × Except Fault Bool) (rounds : ℕ) (s : σ) :
    repeatStep step (rounds + 1) s =
      match (step s).2 with
      | .ok true => repeatStep step rounds (step s).1
      | .ok false => .ok (step s).1
      | .error e => .error e := by
  rw [repeatStep]
  obtain ⟨next, _ | _ | _⟩ := step s <;> rfl

/-- A first step that reports nothing left to do ends the repetition. -/
theorem repeatStep_of_last {σ : Type} {step : σ → σ × Except Fault Bool} {rounds : ℕ} {s : σ}
    (h : (step s).2 = .ok false) : repeatStep step (rounds + 1) s = .ok (step s).1 := by
  rw [repeatStep_succ, h]

/-- A repetition that succeeds ends in a last step, made in a state that has what steps keep. -/
theorem exists_last_of_repeatStep {σ : Type} {step : σ → σ × Except Fault Bool} {P : σ → Prop}
    (keeps : ∀ s, P s → (step s).2 = .ok true → P (step s).1) {rounds : ℕ} {s t : σ} (hs : P s)
    (h : repeatStep step rounds s = .ok t) :
    ∃ last, P last ∧ (step last).2 = .ok false ∧ (step last).1 = t := by
  induction rounds generalizing s with
  | zero => cases h
  | succ rounds ih =>
    rw [repeatStep_succ] at h
    split at h
    next hmore => exact ih (keeps s hs hmore) h
    next hlast => exact ⟨s, hs, hlast, Except.ok.inj h⟩
    next => cases h

/-- The state after `k` steps, whatever they report. -/
def stateAfter {σ : Type} (step : σ → σ × Except Fault Bool) (s : σ) (k : ℕ) : σ :=
  (fun s => (step s).1)^[k] s

theorem stateAfter_succ {σ : Type} (step : σ → σ × Except Fault Bool) (s : σ) (k : ℕ) :
    stateAfter step s (k + 1) = (step (stateAfter step s k)).1 :=
  Function.iterate_succ_apply' _ k s

/-- What every step keeps, whatever it reports, holds after any number of them. -/
theorem stateAfter_invariant {σ : Type} {step : σ → σ × Except Fault Bool} {P : σ → Prop}
    (keeps : ∀ s, P s → P (step s).1) {s : σ} (hs : P s) (k : ℕ) : P (stateAfter step s k) := by
  induction k with
  | zero => exact hs
  | succ k ih =>
    rw [stateAfter_succ]
    exact keeps _ ih

/-- The number of the first `k` steps that fail. -/
def failures {σ : Type} (step : σ → σ × Except Fault Bool) (s : σ) (k : ℕ) : ℕ :=
  (List.range k).countP fun i => !(step (stateAfter step s i)).2.isOk

theorem failures_succ {σ : Type} (step : σ → σ × Except Fault Bool) (s : σ) (k : ℕ) :
    failures step s (k + 1) =
      failures step s k + if (step (stateAfter step s k)).2.isOk then 0 else 1 := by
  rw [failures, List.range_succ, List.countP_append, List.countP_singleton]
  cases (step (stateAfter step s k)).2.isOk <;> rfl

/-- The repetition of a step from `s` makes `k` steps that report more to do. The next step
reports something else, and the repetition returns what that step left or the fault it met. -/
structure EndsAfter {σ : Type} (step : σ → σ × Except Fault Bool) (rounds : ℕ) (s : σ) (k : ℕ) :
    Prop where
  goes_on : ∀ i < k, (step (stateAfter step s i)).2 = .ok true
  ends : (step (stateAfter step s k)).2 = .ok false ∧
      repeatStep step rounds s = .ok (stateAfter step s (k + 1)) ∨
    ∃ e, (step (stateAfter step s k)).2 = .error e ∧ repeatStep step rounds s = .error e

/-- A step that reports more to do puts off the end by one. -/
theorem EndsAfter.succ {σ : Type} {step : σ → σ × Except Fault Bool} {rounds k : ℕ} {s : σ}
    (hmore : (step s).2 = .ok true) (h : EndsAfter step rounds (step s).1 k) :
    EndsAfter step (rounds + 1) s (k + 1) := by
  refine ⟨fun i hi => ?_, ?_⟩
  · cases i with
    | zero => exact hmore
    | succ i => exact h.goes_on i (Nat.lt_of_succ_lt_succ hi)
  · rw [repeatStep_succ, hmore]
    exact h.ends

/-- If steps that report more to do lower a measure, the repetition ends within as many rounds. -/
theorem exists_endsAfter_of_measure {σ : Type} {step : σ → σ × Except Fault Bool} {P : σ → Prop}
    {μ : σ → ℕ}
    (lowers : ∀ s, P s → (step s).2 = .ok true → P (step s).1 ∧ μ (step s).1 < μ s)
    {rounds : ℕ} {s : σ} (hs : P s) (hμ : μ s < rounds) :
    ∃ k ≤ μ s, EndsAfter step rounds s k := by
  induction rounds generalizing s with
  | zero => exact absurd hμ (Nat.not_lt_zero _)
  | succ rounds ih =>
    cases hreport : (step s).2 with
    | error e =>
      refine ⟨0, Nat.zero_le _, fun i hi => absurd hi (Nat.not_lt_zero i), .inr ⟨e, hreport, ?_⟩⟩
      rw [repeatStep_succ, hreport]
    | ok more =>
      cases more with
      | false =>
        exact ⟨0, Nat.zero_le _, fun i hi => absurd hi (Nat.not_lt_zero i),
          .inl ⟨hreport, repeatStep_of_last hreport⟩⟩
      | true =>
        obtain ⟨hnext, hlt⟩ := lowers s hs hreport
        obtain ⟨k, hk, hends⟩ := ih hnext (Nat.lt_of_lt_of_le hlt (Nat.le_of_lt_succ hμ))
        exact ⟨k + 1, Nat.lt_of_le_of_lt hk hlt, hends.succ hreport⟩

namespace Run

variable {K : Type} [Scalar K] {c : Completion K}

theorem finish_eq_ok_iff {r : Run K} : r.finish = .ok c ↔
    ∃ last, repeatStep step r.stepBound r = .ok last ∧ last.completion = c := by
  unfold finish
  simp only [bind_eq_ok_iff, pure_eq_ok_iff]

/-- A run that ends has made a last step. The run is of one kind throughout: its states are
embedded from those of a simpler machine, step by step. -/
theorem exists_last {σ : Type} {next : σ → σ × Except Fault Bool} {embed : σ → Run K}
    {P : σ → Prop} (hstep : ∀ s, (embed s).step = (embed (next s).1, (next s).2))
    (keeps : ∀ s, P s → (next s).2 = .ok true → P (next s).1) {s : σ} (hs : P s)
    (h : (embed s).finish = .ok c) :
    ∃ last, P last ∧ (next last).2 = .ok false ∧ (embed (next last).1).completion = c := by
  obtain ⟨r, hr, hc⟩ := finish_eq_ok_iff.mp h
  obtain ⟨_, ⟨last, rfl, hlast⟩, hfalse, hend⟩ := exists_last_of_repeatStep
    (P := fun r => ∃ s, r = embed s ∧ P s)
    (by
      rintro _ ⟨s, rfl, hs⟩ htrue
      rw [hstep] at htrue ⊢
      exact ⟨_, rfl, keeps s hs htrue⟩) ⟨s, rfl, hs⟩ hr
  rw [hstep] at hfalse hend
  exact ⟨last, hlast, hfalse, (congrArg completion hend).trans hc⟩

/-- A run of sweeps that ends has made a sweep that changed nothing. -/
theorem exists_last_sweep {P : Sweep K → Prop}
    (keeps : ∀ s, P s → s.step.2 = .ok true → P s.step.1) {s : Sweep K} (hs : P s)
    (h : (sweep s).finish = .ok c) :
    ∃ last, P last ∧ last.step.2 = .ok false ∧ (sweep last.step.1).completion = c :=
  exists_last (fun _ => rfl) keeps hs h

/-- A worklist run that ends has found its queue empty. -/
theorem exists_last_worklist {P : Worklist K → Prop}
    (keeps : ∀ w, P w → w.step.2 = .ok true → P w.step.1) {w : Worklist K} (hw : P w)
    (h : (worklist w).finish = .ok c) :
    ∃ last, P last ∧ last.step.2 = .ok false ∧ (worklist last.step.1).completion = c :=
  exists_last (fun _ => rfl) keeps hw h

end Run
end PolyIdeal
