import PolyIdeal.Proofs.Basis.Leads
import PolyIdeal.Proofs.Completion.Growth
import PolyIdeal.Proofs.Completion.Termination
import PolyIdeal.Proofs.Completion.Unverified
import PolyIdeal.ReducedBasis

/-!
# When the two strategies agree

A list of polynomials can be completed by sweeps or by a worklist. Over exact scalars the reduced
results are the same. With a threshold they need not be: the worklist skips pairs whose
S-polynomials a sweep divides, and terms that are dropped on the way can leave something over.

What can be said of any coefficients is this. If the list as gathered passes the check, neither
strategy adds anything and the results are equal. Results that agree approximately come from
completed bases that leave the same monomials uncovered, because reduction does not change these.
So when the worklist adds nothing to a list that fails the check, the results differ: the sweeps do
add a generator, and its leading monomial was uncovered. `skewForms` is such a list.
-/

namespace PolyIdeal

variable {K : Type} [Scalar K] {n : ℕ} {o : TermOrder} {ps : List (Polynomial K)} {b : Basis K}
  {settings : Settings} {c : Completion K}

/-! ## Sweeps -/

namespace Sweep

/-- Sweeps add nothing to a basis that passes the check. -/
theorem basis_finish_of_isGroebner (hb : b.isGroebner = .ok true)
    (h : (Run.sweep (start settings b)).finish = .ok c) : c.basis = b := by
  obtain ⟨last, hlast, hfalse, rfl⟩ := Run.exists_last_sweep (P := fun s => s.basis = b)
    (fun s hs htrue => by
      obtain ⟨before, after, hbefore, -⟩ := step_eq_ok htrue
      exact (step_of_isGroebner hbefore (hs ▸ hb)).2.1.trans hs) rfl h
  exact (isGroebner_of_step hfalse).1.trans hlast

/-- Sweeps that end have changed nothing or taken up room, and what they leave passes the check. -/
theorem advances_finish (hb : b.Fits n o) (h : (Run.sweep (start settings b)).finish = .ok c) :
    c.basis.isGroebner = .ok true ∧ c.basis.Fits n o ∧ b.generators ⊆ c.basis.generators ∧
      (c.basis = b ∨ c.basis.room < b.room) := by
  obtain ⟨last, hlast, hfalse, rfl⟩ := Run.exists_last_sweep
    (P := fun s => Advances n o (start settings b) s)
    (fun s hs _ => hs.trans (advances_step hs.fits).1) (.of_basis_eq hb rfl rfl) h
  obtain ⟨hsame, hgroebner⟩ := isGroebner_of_step hfalse
  have hbasis : (Run.sweep last.step.1).completion.basis = last.basis := hsame
  rw [hbasis]
  exact ⟨hgroebner, hlast.fits, hlast.subset, hlast.room⟩

end Sweep

/-! ## Worklists -/

namespace Worklist

/-- A worklist adds nothing to a basis that passes the check. -/
theorem basis_finish_of_isGroebner (hb : b.isGroebner = .ok true)
    (h : (Run.worklist (start settings b)).finish = .ok c) : c.basis = b := by
  obtain ⟨last, hlast, hfalse, rfl⟩ := Run.exists_last_worklist (P := fun w => w.basis = b)
    (fun w hw htrue => by
      obtain ⟨pair, queue, v, htaken⟩ := exists_taken htrue
      obtain ⟨f, g, hf, hg, hjudged⟩ := htaken.exists_judged
      rw [hw] at hf hg
      obtain ⟨r', hr', hz'⟩ := Basis.isGroebner_eq_ok_true_iff.mp hb pair.low_lt_high hf hg
      rw [htaken.basis_eq, hw]
      cases hjudged with
      | @remainder r hr hz =>
        -- the remainder of the pair is the one that the check has seen vanish
        rw [show ({ w with queue } : Worklist K).basis = b from hw, hr', Except.ok.injEq] at hr
        rw [← hr, hz'] at hz
        cases hz
      | _ => simp [Verdict.added]) rfl h
  rw [(step_eq_ok_false hfalse).2]
  exact hlast

theorem basis_finish_of_size_eq (h : (Run.worklist (start settings b)).finish = .ok c)
    (hsize : c.basis.size = b.size) : c.basis = b := by
  obtain ⟨added, hbasis⟩ : ∃ added, c.basis = { b with generators := b.generators ++ added } :=
    (Run.grows_of_finish h).exists_added
  rw [hbasis, Basis.size, List.length_append] at hsize
  have hnil : added = [] := List.eq_nil_of_length_eq_zero (by unfold Basis.size at hsize; omega)
  rw [hbasis, hnil, List.append_nil]

end Worklist

/-! ## Reduced results -/

omit [Scalar K] in
/-- A generator that takes up room covers what was uncovered. -/
theorem Basis.uncovered_ne_of_room_lt {d : Basis K} (hb : b.Fits n o) (hd : d.Fits n o)
    (hsub : b.generators ⊆ d.generators) (h : d.room < b.room) :
    uncovered n b.generators ≠ uncovered n d.generators := by
  have hbne : b.generators ≠ [] := by
    intro hnil
    have hempty : b.isEmpty = true := List.isEmpty_iff.mpr hnil
    rw [show b.room = 0 by rw [room, if_pos hempty]] at h
    exact Nat.not_lt_zero _ h
  have hdne : d.generators ≠ [] := by
    obtain ⟨g, hg⟩ := List.exists_mem_of_ne_nil _ hbne
    exact List.ne_nil_of_mem (hsub hg)
  intro hsame
  rw [hb.room_eq hbne, hd.room_eq hdne, hsame] at h
  exact lt_irrefl _ h

/-- A reduced result leaves the same monomials uncovered as the basis that it was made from. -/
theorem Basis.uncovered_reduced {d : Basis K} (hb : b.generators ≠ [] → b.Fits n o)
    (h : (if b.isEmpty then .ok b else b.reduce) = .ok d) :
    uncovered n d.generators = uncovered n b.generators ∧
      (d.generators.map Polynomial.leadingMonomial).Nodup := by
  split at h
  next hempty =>
    obtain rfl := Except.ok.inj h
    rw [List.isEmpty_iff.mp hempty]
    exact ⟨rfl, List.nodup_nil⟩
  next hne => exact (hb fun hnil => hne (List.isEmpty_iff.mpr hnil)).uncovered_reduce h

/-- The entry point gathers, completes and reduces. -/
theorem groebnerBasis_of_complete (hc : b.complete settings = .ok c)
    (hb : Basis.ofListIn settings.order ps = .ok b) (hreduce : settings.reduce = true) :
    groebnerBasis ps settings = if c.basis.isEmpty then .ok c.basis else c.basis.reduce := by
  have hcompleted : completedBasis ps settings = .ok c.basis := by
    unfold completedBasis
    rw [bind_of_eq_ok hb, bind_of_eq_ok hc]
    rfl
  unfold groebnerBasis
  rw [bind_of_eq_ok hcompleted, hreduce, Bool.true_and]
  cases c.basis.isEmpty with
  | true => rfl
  | false => rfl

/-- What the two strategies make of a list gathered into `b`. They agree if `b` passes the check.
They agree approximately only if their completed bases leave the same monomials uncovered; and if
the worklist adds nothing to a basis that fails the check, they do not. -/
theorem groebnerBasis_strategies {bw bs : Basis K} {cw cs : Completion K}
    (hps : ∀ p ∈ ps, p.arity = n ∧ OfArity n p.terms) (hreduce : settings.reduce = true)
    (hb : Basis.ofListIn settings.order ps = .ok b)
    (hcw : b.complete { settings with strategy := .worklist } = .ok cw)
    (hcs : b.complete { settings with strategy := .sweep } = .ok cs)
    (hw : groebnerBasis ps { settings with strategy := .worklist } = .ok bw)
    (hs : groebnerBasis ps { settings with strategy := .sweep } = .ok bs) :
    (b.isGroebner = .ok true → bw = bs) ∧
      (bw.approxEq bs = true ∨ bs.approxEq bw = true →
        uncovered n cw.basis.generators = uncovered n cs.basis.generators) ∧
        (cw.basis.size = b.size → b.isGroebner ≠ .ok true →
          bw.approxEq bs = false ∧ bs.approxEq bw = false) := by
  have hwfrom := (groebnerBasis_of_complete hcw hb hreduce).symm.trans hw
  have hsfrom := (groebnerBasis_of_complete hcs hb hreduce).symm.trans hs
  have hsame : b.isGroebner = .ok true → cw.basis = b ∧ cs.basis = b := fun hcheck =>
    ⟨Worklist.basis_finish_of_isGroebner hcheck hcw, Sweep.basis_finish_of_isGroebner hcheck hcs⟩
  -- the empty list passes the check
  have hfits : b.isGroebner ≠ .ok true → b.Fits n settings.order := fun hfails => by
    refine Basis.fits_ofListIn (fun p hp => (hps p hp).1) (fun p hp => (hps p hp).2) ?_ hb
    rintro rfl
    obtain rfl := Except.ok.inj hb
    exact hfails rfl
  have hagree : bw.approxEq bs = true ∨ bs.approxEq bw = true →
      uncovered n cw.basis.generators = uncovered n cs.basis.generators := by
    intro happrox
    by_cases hcheck : b.isGroebner = .ok true
    · rw [(hsame hcheck).1, (hsame hcheck).2]
    · have hready := fun s : Settings => Run.ready_start (hfits hcheck) s
      obtain ⟨hcoverw, hnodupw⟩ :=
        Basis.uncovered_reduced (fun _ => (hready _).fits_of_finish hcw) hwfrom
      obtain ⟨hcovers, hnodups⟩ :=
        Basis.uncovered_reduced (fun _ => (hready _).fits_of_finish hcs) hsfrom
      rw [← hcoverw, ← hcovers]
      rcases happrox with happrox | happrox
      · exact Basis.uncovered_of_approxEq happrox hnodups
      · exact (Basis.uncovered_of_approxEq happrox hnodupw).symm
  refine ⟨fun hcheck => ?_, hagree, fun hsize hcheck => ?_⟩
  · rw [(hsame hcheck).1] at hwfrom
    rw [(hsame hcheck).2] at hsfrom
    exact Except.ok.inj (hwfrom.symm.trans hsfrom)
  · have hcw' := Worklist.basis_finish_of_size_eq hcw hsize
    obtain ⟨hpasses, hcsfits, hsub, hroom⟩ := Sweep.advances_finish (hfits hcheck) hcs
    -- sweeps end at a basis that passes the check, so they have added something
    have hlt := hroom.resolve_left fun heq => hcheck (heq ▸ hpasses)
    have hne := Basis.uncovered_ne_of_room_lt (hfits hcheck) hcsfits hsub hlt
    rw [hcw'] at hagree
    constructor
    · exact Bool.eq_false_iff.mpr fun happrox => hne (hagree (.inl happrox))
    · exact Bool.eq_false_iff.mpr fun happrox => hne (hagree (.inr happrox))

/-- On the skew forms the worklist adds nothing, the sweeps add the product `z * w`, and the
reduced results do not agree. -/
theorem groebnerBasis_skewForms : ∃ b bw bs : Basis Rat,
    Basis.ofListIn .lex Worklist.skewForms.generators = .ok b ∧ b.isGroebner = .ok false ∧
      groebnerBasis Worklist.skewForms.generators { strategy := .worklist } = .ok bw ∧
        groebnerBasis Worklist.skewForms.generators { strategy := .sweep } = .ok bs ∧
          bw.size = 2 ∧ bs.size = 3 ∧ bw.approxEq bs = false ∧ bs.approxEq bw = false := by
  have hgather : (Basis.ofListIn .lex Worklist.skewForms.generators).map (fun b =>
      (b.size, b.isGroebner, (b.complete { strategy := .worklist }).map (·.basis.size),
        (b.complete { strategy := .sweep }).map (·.basis.size))) =
        .ok (2, .ok false, .ok 2, .ok 3) := by decide +kernel
  have hrunw : (groebnerBasis Worklist.skewForms.generators { strategy := .worklist }).map
      (·.size) = .ok 2 := by decide +kernel
  have hruns : (groebnerBasis Worklist.skewForms.generators { strategy := .sweep }).map
      (·.size) = .ok 3 := by decide +kernel
  obtain ⟨b, hb, hobserved⟩ := map_eq_ok_iff.mp hgather
  obtain ⟨hsize, hcheck, hcw, hcs⟩ : b.size = 2 ∧ b.isGroebner = .ok false ∧
      (b.complete { strategy := .worklist }).map (·.basis.size) = .ok 2 ∧
        (b.complete { strategy := .sweep }).map (·.basis.size) = .ok 3 := by
    simpa only [Prod.mk.injEq] using hobserved
  obtain ⟨cw, hcw, hwsize⟩ := map_eq_ok_iff.mp hcw
  obtain ⟨cs, hcs, -⟩ := map_eq_ok_iff.mp hcs
  obtain ⟨bw, hw, hbw⟩ := map_eq_ok_iff.mp hrunw
  obtain ⟨bs, hs, hbs⟩ := map_eq_ok_iff.mp hruns
  have hshape : ∀ p ∈ Worklist.skewForms.generators, p.arity = 4 ∧ OfArity 4 p.terms :=
    fun p hp => ⟨(Worklist.fits_skewForms.generators p hp).arity_eq,
      (Worklist.fits_skewForms.generators p hp).ofArity⟩
  have hfails : b.isGroebner ≠ .ok true := by
    rw [hcheck]
    exact fun h => by cases h
  obtain ⟨-, -, hdiffer⟩ := groebnerBasis_strategies hshape
    (show ({} : Settings).reduce = true from rfl) hb hcw hcs hw hs
  exact ⟨b, bw, bs, hb, hcheck, hw, hs, hbw, hbs, hdiffer (hwsize.trans hsize.symm) hfails⟩

end PolyIdeal
