import PolyIdeal.Proofs.Completion.Reliance
import PolyIdeal.Proofs.Completion.Repetition

/-!
# Pairs that a failed step abandons

A step of a worklist takes its pair from the queue before it knows whether it can deal with it. If
the step fails, the pair is gone: it is not pending any more, no later step takes it again, and
the criteria take it for settled. A run that is continued after a failure therefore reports its
end, and returns a basis, with this pair left unresolved. A sweep meets the pair again and fails
again.

So the report of a worklist that nothing is left to do says that every pair was dealt with just
when none of its steps has failed: `discharged_iff_no_failure`. `hyperbolaDiagonals` is a basis
where a continued run ends at what is not a Gröbner basis.
-/

namespace PolyIdeal

variable {K : Type} [Scalar K]

namespace Worklist

variable {w : Worklist K} {p : CriticalPair} {t k T : ℕ}

/-- Step number `t` deals with the pair `p`: a criterion in use skips it, its S-polynomial reduces
to zero, or the remainder becomes a generator. -/
inductive DealsWith (w : Worklist K) (t : ℕ) (p : CriticalPair) : Prop
  | coprime (h : w.FindsAt t p .coprime)
  | linked (h : w.FindsAt t p .linked)
  | settled (h : w.FindsAt t p .settled)
  | answered {r : Polynomial K} (h : w.FindsAt t p (.remainder r))
      (happend : (w.after (t + 1)).basis.generators = (w.after t).basis.generators ++ [r])

/-- Step number `t` takes the pair `p` and fails. -/
structure Abandons (w : Worklist K) (t : ℕ) (p : CriticalPair) : Prop where
  pops : w.PopsAt t p
  fails : ∃ e, (w.after t).step.2 = .error e

theorem DealsWith.popsAt (h : w.DealsWith t p) : w.PopsAt t p := by
  cases h with
  | coprime h => exact h.popsAt
  | linked h => exact h.popsAt
  | settled h => exact h.popsAt
  | answered h _ => exact h.popsAt

/-- A step that takes a pair deals with it or abandons it. -/
theorem PopsAt.dealsWith_or_abandons (h : w.PopsAt t p) : w.DealsWith t p ∨ w.Abandons t p := by
  obtain ⟨queue, hpop⟩ := id h
  rcases step_cases (w.after t) with ⟨hnone, -, -⟩ | ⟨_, _, v, htaken, -⟩ | ⟨_, _, e, -, herror⟩
  · rw [hpop] at hnone
    cases hnone
  · obtain ⟨rfl, rfl⟩ := Prod.mk.inj (Option.some.inj (hpop.symm.trans htaken.pop))
    have hfinds : w.FindsAt t p v := ⟨queue, hpop, htaken.judged⟩
    cases v with
    | coprime => exact .inl (.coprime hfinds)
    | linked => exact .inl (.linked hfinds)
    | settled => exact .inl (.settled hfinds)
    | remainder r =>
      refine .inl (.answered hfinds ?_)
      rw [after_succ, htaken.basis_eq]
      rfl
  · exact .inr ⟨h, e, herror⟩

/-- It does not do both: a step that fails has found no verdict, or a remainder that it does not
append. -/
theorem Abandons.not_dealsWith (h : w.Abandons t p) : ¬ w.DealsWith t p := by
  obtain ⟨⟨queue, hpop⟩, e, herror⟩ := h
  obtain ⟨_, _, hfailed⟩ := exists_failed herror
  obtain ⟨rfl, rfl⟩ := Prod.mk.inj (Option.some.inj (hpop.symm.trans hfailed.pop))
  -- the verdict that a failed step has found, if any, is a remainder
  have hverdict : ∀ v, w.FindsAt t p v → ∃ r, v = .remainder r := by
    rintro v ⟨queue', hpop', hjudge'⟩
    obtain ⟨-, rfl⟩ := Prod.mk.inj (Option.some.inj (hpop.symm.trans hpop'))
    rcases hfailed.cause with hjudge | ⟨r, hjudge, -⟩
    · rw [hjudge] at hjudge'
      cases hjudge'
    · rw [hjudge] at hjudge'
      exact ⟨r, (Except.ok.inj hjudge').symm⟩
  intro hdeals
  cases hdeals with
  | coprime h => obtain ⟨r, hr⟩ := hverdict _ h; cases hr
  | linked h => obtain ⟨r, hr⟩ := hverdict _ h; cases hr
  | settled h => obtain ⟨r, hr⟩ := hverdict _ h; cases hr
  | answered _ happend =>
    rw [after_succ, hfailed.basis_eq] at happend
    have hlength := congrArg List.length happend
    rw [List.length_append, List.length_singleton] at hlength
    omega

/-! ## Runs that have come to their end -/

section Start

variable {settings : Settings} {b : Basis K}

/-- When nothing is left to do, every pair of the generators was taken by an earlier step. -/
theorem exists_popsAt_of_end (hend : ((start settings b).after T).step.2 = .ok false)
    (hp : p.high < ((start settings b).after T).basis.size) :
    ∃ t < T, (start settings b).PopsAt t p := by
  refine (contains_or_popsAt settings b hp).resolve_left fun hpending => ?_
  have hfaithful := ((wellQueued_start settings b).after T).faithful
  have hempty := (DistinctQueue.pop?_eq_none_iff _).mp (step_eq_ok_false hend).1
  rw [← hfaithful.mem_toList_iff, hempty] at hpending
  exact absurd hpending List.not_mem_nil

/-- Only one step takes a pair, so what it abandons is not dealt with before or after. -/
theorem dealt_iff_not_abandoned (hend : ((start settings b).after T).step.2 = .ok false)
    (hp : p.high < ((start settings b).after T).basis.size) :
    (∃ t < T, (start settings b).DealsWith t p) ↔ ¬ ∃ t < T, (start settings b).Abandons t p := by
  constructor
  · rintro ⟨t, -, hdeals⟩ ⟨t', -, habandons⟩
    obtain rfl := PopsAt.unique (wellQueued_start settings b) hdeals.popsAt habandons.pops
    exact habandons.not_dealsWith hdeals
  · intro hnone
    obtain ⟨t, ht, hpops⟩ := exists_popsAt_of_end hend hp
    refine ⟨t, ht, hpops.dealsWith_or_abandons.resolve_right fun habandons => ?_⟩
    exact hnone ⟨t, ht, habandons⟩

/-- A step that fails abandons a pair of generators, which are still there later. -/
theorem exists_abandons {e : Fault} (hT : t < T)
    (h : ((start settings b).after t).step.2 = .error e) :
    ∃ p, p.high < ((start settings b).after T).basis.size ∧ (start settings b).Abandons t p := by
  obtain ⟨p, queue, hfailed⟩ := exists_failed h
  have hpops : (start settings b).PopsAt t p := ⟨queue, hfailed.pop⟩
  exact ⟨p, (hpops.not_contains (wellQueued_start settings b) hT).1, hpops, e, h⟩

theorem all_dealt_iff (hend : ((start settings b).after T).step.2 = .ok false) :
    (∀ p : CriticalPair, p.high < ((start settings b).after T).basis.size →
        ∃ t < T, (start settings b).DealsWith t p) ↔
      ∀ t < T, ∀ e, ((start settings b).after t).step.2 ≠ .error e := by
  constructor
  · intro hall t ht e herror
    obtain ⟨p, hp, habandons⟩ := exists_abandons ht herror
    exact (dealt_iff_not_abandoned hend hp).mp (hall p hp) ⟨t, ht, habandons⟩
  · intro hok p hp
    refine (dealt_iff_not_abandoned hend hp).mpr ?_
    rintro ⟨t, ht, -, e, herror⟩
    exact hok t ht e herror

/-- Carrying a run to its end makes steps that succeed, and returns the state after them. -/
theorem exists_end_of_finish {c : Completion K}
    (h : (Run.worklist ((start settings b).after k)).finish = .ok c) :
    ∃ T, k ≤ T ∧ ((start settings b).after T).step.2 = .ok false ∧
      c = (Run.worklist ((start settings b).after T)).completion ∧
        ∀ t, k ≤ t → t < T → ∀ e, ((start settings b).after t).step.2 ≠ .error e := by
  obtain ⟨last, ⟨T, hk, rfl, hok⟩, hfalse, rfl⟩ := Run.exists_last_worklist
    (P := fun w => ∃ T, k ≤ T ∧ w = (start settings b).after T ∧
      ∀ t, k ≤ t → t < T → ∀ e, ((start settings b).after t).step.2 ≠ .error e)
    (by
      rintro _ ⟨T, hk, rfl, hok⟩ htrue
      refine ⟨T + 1, Nat.le_succ_of_le hk, (after_succ _ T).symm, fun t ht hlt e => ?_⟩
      rcases Nat.lt_succ_iff_lt_or_eq.mp hlt with hlt | rfl
      · exact hok t ht hlt e
      · rw [htrue]
        exact fun h => by cases h)
    ⟨k, le_rfl, rfl, fun t ht hlt => absurd ht (Nat.not_le.mpr hlt)⟩ h
  refine ⟨T, hk, hfalse, ?_, hok⟩
  rw [(step_eq_ok_false hfalse).2]

/-- When a worklist reports that nothing is left to do, a pair of its generators has been dealt
with unless a failed step has taken it; so all have been just when no step has failed. The same
goes for a run that is carried to its end, from wherever it stands. -/
theorem discharged_iff_no_failure (settings : Settings) (b : Basis K) :
    (∀ T, ((start settings b).after T).step.2 = .ok false →
      (∀ p : CriticalPair, p.high < ((start settings b).after T).basis.size →
        ((∃ t < T, (start settings b).DealsWith t p) ↔
          ¬ ∃ t < T, (start settings b).Abandons t p)) ∧
      ((∀ p : CriticalPair, p.high < ((start settings b).after T).basis.size →
          ∃ t < T, (start settings b).DealsWith t p) ↔
        ∀ t < T, ∀ e, ((start settings b).after t).step.2 ≠ .error e)) ∧
    ∀ k c, (Run.worklist ((start settings b).after k)).finish = .ok c →
      ((∀ p : CriticalPair, p.high < c.basis.size → ∃ t, (start settings b).DealsWith t p) ↔
        ∀ t < k, ∀ e, ((start settings b).after t).step.2 ≠ .error e) := by
  refine ⟨fun T hend => ⟨fun p hp => dealt_iff_not_abandoned hend hp, all_dealt_iff hend⟩,
    fun k c hc => ?_⟩
  obtain ⟨T, hk, hend, rfl, hok⟩ := exists_end_of_finish hc
  constructor
  · intro hall t ht e herror
    obtain ⟨p, hp, habandons⟩ := exists_abandons (ht.trans_le hk) herror
    obtain ⟨t', hdeals⟩ := hall p hp
    obtain rfl := PopsAt.unique (wellQueued_start settings b) hdeals.popsAt habandons.pops
    exact habandons.not_dealsWith hdeals
  · intro hbefore p hp
    have hnever : ∀ t < T, ∀ e, ((start settings b).after t).step.2 ≠ .error e := by
      intro t ht
      by_cases htk : t < k
      · exact hbefore t htk
      · exact hok t (Nat.not_lt.mp htk) ht
    obtain ⟨t, -, hdeals⟩ := (all_dealt_iff hend).mpr hnever p hp
    exact ⟨t, hdeals⟩

end Start

/-- The hyperbola `x * y = 1` and the diagonals `x ^ 2 = y ^ 2`. -/
def hyperbolaDiagonals : Basis Rat :=
  ⟨2, .lex, [⟨2, .lex, 1 / 10000, [⟨⟨[1, 1]⟩, 1⟩, ⟨⟨[0, 0]⟩, -1⟩]⟩,
    ⟨2, .lex, 1 / 10000, [⟨⟨[2, 0]⟩, 1⟩, ⟨⟨[0, 2]⟩, -1⟩]⟩]⟩

/-- With the degree limit 2 the first step fails, since the remainder has degree 3. The next one
reports that nothing is left to do, and carrying the run to its end succeeds, with a basis that is
not a Gröbner basis and a pair of it that was not dealt with. -/
theorem not_discharged_hyperbolaDiagonals :
    ((start { degreeLimit := some 2 } hyperbolaDiagonals).after 0).step.2 =
        .error (.degreeExceeded 2 3) ∧
      ((start { degreeLimit := some 2 } hyperbolaDiagonals).after 1).step.2 = .ok false ∧
      (¬ ∀ p : CriticalPair,
        p.high < ((start { degreeLimit := some 2 } hyperbolaDiagonals).after 1).basis.size →
          ∃ t < 1, (start { degreeLimit := some 2 } hyperbolaDiagonals).DealsWith t p) ∧
      ∃ c, (Run.worklist ((start { degreeLimit := some 2 } hyperbolaDiagonals).after 1)).finish =
          .ok c ∧ c.basis.isGroebner = .ok false ∧
        ¬ ∀ p : CriticalPair, p.high < c.basis.size →
          ∃ t, (start { degreeLimit := some 2 } hyperbolaDiagonals).DealsWith t p := by
  have hfails : ((start { degreeLimit := some 2 } hyperbolaDiagonals).after 0).step.2 =
      .error (.degreeExceeded 2 3) := by decide +kernel
  have hend : ((start { degreeLimit := some 2 } hyperbolaDiagonals).after 1).step.2 =
      .ok false := by decide +kernel
  have hrun : (Run.worklist ((start { degreeLimit := some 2 }
      hyperbolaDiagonals).after 1)).finish.map (·.basis.isGroebner) = .ok (.ok false) := by
    decide +kernel
  obtain ⟨c, hc, hcheck⟩ := map_eq_ok_iff.mp hrun
  obtain ⟨hstepped, hfinished⟩ :=
    discharged_iff_no_failure { degreeLimit := some 2 } hyperbolaDiagonals
  refine ⟨hfails, hend, fun hall => ?_, c, hc, hcheck, fun hall => ?_⟩
  · exact (hstepped 1 hend).2.mp hall 0 Nat.zero_lt_one _ hfails
  · exact (hfinished 1 c hc).mp hall 0 Nat.zero_lt_one _ hfails

end Worklist
end PolyIdeal
