import PolyIdeal.Proofs.Basis.Room
import PolyIdeal.Proofs.Completion.Sweeping
import PolyIdeal.Proofs.Completion.Taking

/-!
# Completions only append

There is one thing that a completion does to its basis: it appends a remainder of the S-polynomial
of two present generators, one that is not zero and passes the degree check. `Basis.Grows` is the
closure of this. The bases that a run goes through form a chain for it, whatever the steps report:
`Run.grows_basisAt`. A moment of a run is given by the number of steps made and, since a sweep
appends in passing, by the number of pairs that the next sweep has visited.

Two facts about runs of any length follow. A generator that was appended at some position has no
term that the leading monomial of an earlier generator divides: `Run.appended_basisAt`. And an
S-polynomial that has once reduced to zero does so at every later moment:
`reduction_persists`. Neither uses a law of the coefficients.
-/

namespace PolyIdeal

variable {K : Type} {n : ℕ} {o : TermOrder} {limit : Option ℕ}

theorem Polynomial.exists_totalDegree_le {p : Polynomial K} {d : ℕ}
    (h : p.checkDegree (some d) = .ok ()) : ∃ a ≤ d, p.totalDegree = .ok a := by
  unfold checkDegree at h
  obtain ⟨a, ha, h⟩ := bind_eq_ok_iff.mp h
  split at h
  next => cases h
  next hle => exact ⟨a, Nat.not_lt.mp hle, ha⟩

variable [Scalar K]

namespace Basis

variable {b c d : Basis K} {f g : Polynomial K}

/-- From `b` to `c` generators were appended, each a remainder of the S-polynomial of two that were
there, not zero and within the degree limit. -/
inductive Grows (limit : Option ℕ) (b : Basis K) : Basis K → Prop
  /-- Nothing was appended. -/
  | refl : Grows limit b b
  /-- One more remainder was appended. -/
  | append {c : Basis K} {f g r : Polynomial K} (h : Grows limit b c) (hf : f ∈ c.generators)
      (hg : g ∈ c.generators) (hpair : c.pairRemainder f g = .ok r) (hr : r.isZero = false)
      (hdegree : r.checkDegree limit = .ok ()) :
      Grows limit b { c with generators := c.generators ++ [r] }

/-- What holds of a generator `g` that a completion has appended at position `i` of `c`. -/
structure AppendedAt (limit : Option ℕ) (c : Basis K) (i : ℕ) (g : Polynomial K) : Prop where
  nonzero : g.isZero = false
  arity_eq : g.arity = c.arity
  order_eq : g.order = c.order
  /-- No term is divisible by the leading monomial of an earlier generator. -/
  irreducible : ∀ j < i, ∀ h, c.generators[j]? = some h → ∀ t ∈ g.terms,
    h.leadDivides t.monomial = false
  /-- The total degree does not exceed the limit, if there is one. -/
  degree_le : ∀ bound, limit = some bound → ∃ a ≤ bound, g.totalDegree = .ok a

namespace Grows

theorem trans (h : Grows limit b c) (h' : Grows limit c d) : Grows limit b d := by
  induction h' with
  | refl => exact h
  | append _ hf hg hpair hr hdegree ih => exact ih.append hf hg hpair hr hdegree

/-- The old generators stay, in front of the new ones. -/
theorem exists_added (h : Grows limit b c) :
    ∃ added, c = { b with generators := b.generators ++ added } := by
  induction h with
  | refl => exact ⟨[], by rw [List.append_nil]⟩
  | @append c f g r _ _ _ _ _ _ ih =>
    obtain ⟨added, rfl⟩ := ih
    refine ⟨added ++ [r], ?_⟩
    rw [← List.append_assoc]

/-- Generators stay. -/
theorem subset (h : Grows limit b c) : b.generators ⊆ c.generators := by
  obtain ⟨added, rfl⟩ := h.exists_added
  exact List.subset_append_left _ _

/-- Without generators there is no pair, so nothing was appended. -/
theorem isEmpty_iff (h : Grows limit b c) : c.isEmpty = true ↔ b.isEmpty = true := by
  induction h with
  | refl => exact Iff.rfl
  | append _ hf _ _ _ _ ih =>
    rw [← ih]
    simp [isEmpty, List.ne_nil_of_mem hf]

/-- A basis that has grown has the shape it had. -/
theorem fits (h : Grows limit b c) (hb : b.Fits n o) : c.Fits n o := by
  induction h with
  | refl => exact hb
  | append _ hf hg hpair hr _ ih =>
    exact ih.append (ih.pairRemainder (ih.generators _ hf) (ih.generators _ hg) hpair) hr

/-- What was appended has taken up room. -/
theorem room (h : Grows limit b c) (hb : b.Fits n o) : c = b ∨ c.room < b.room := by
  induction h with
  | refl => exact .inl rfl
  | @append c f g r h hf hg hpair hr _ ih =>
    have hc := h.fits hb
    have hfits := hc.pairRemainder (hc.generators _ hf) (hc.generators _ hg) hpair
    obtain ⟨S, -, hrem⟩ := pairRemainder_eq_ok_iff.mp hpair
    have hlt := hc.room_append_lt (List.ne_nil_of_mem hf) hrem hfits hr
    rcases ih with rfl | hroom
    · exact .inr hlt
    · exact .inr (hlt.trans hroom)

/-- A pair that reduces to zero keeps doing so. -/
theorem reducesPair (h : Grows limit b c) (hb : b.Fits n o) (hf : f ∈ b.generators)
    (hg : g ∈ b.generators) (hpair : b.ReducesPair f g) : c.ReducesPair f g := by
  have hc := h.fits hb
  obtain ⟨added, rfl⟩ := h.exists_added
  exact hpair.append (hb.generators f hf) (hb.generators g hg)
    fun q hq => hc.generators q (List.mem_append_right _ hq)

/-- Every generator past the old ones is as a completion appends them. -/
theorem appendedAt (h : Grows limit b c) (hb : b.Fits n o) {i : ℕ} (hi : b.size ≤ i)
    (hg : c.generators[i]? = some g) : c.AppendedAt limit i g := by
  induction h with
  | refl =>
    have hlt := (List.getElem?_eq_some_iff.mp hg).1
    exact absurd hi (Nat.not_le.mpr hlt)
  | @append c f' g' r h hf hg' hpair hr hdegree ih =>
    have hc := h.fits hb
    have hbefore : ∀ j < c.size, ∀ q, (c.generators ++ [r])[j]? = some q →
        c.generators[j]? = some q := by
      intro j hj q hq
      rwa [List.getElem?_append_left hj] at hq
    rcases Nat.lt_trichotomy i c.size with hlt | rfl | hgt
    · -- it was there before the last one, and so were all in front of it
      obtain ⟨hz, harity, horder, hirr, hle⟩ := ih (hbefore i hlt g hg)
      exact ⟨hz, harity, horder,
        fun j hj q hq => hirr j hj q (hbefore j (hj.trans hlt) q hq), hle⟩
    · have hsame : (c.generators ++ [r])[c.size]? = some r := List.getElem?_concat_length
      obtain rfl : r = g := Option.some.inj (hsame.symm.trans hg)
      have hfits := hc.pairRemainder (hc.generators _ hf) (hc.generators _ hg') hpair
      obtain ⟨S, -, hrem⟩ := pairRemainder_eq_ok_iff.mp hpair
      refine ⟨hr, hfits.arity_eq.trans hc.arity_eq.symm, hfits.order_eq.trans hc.order_eq.symm,
        fun j hj q hq t ht => ?_, ?_⟩
      · have hq' := List.mem_of_getElem? (hbefore j hj q hq)
        exact Polynomial.leadDivides_of_mem_remainder hrem ht hq'
      · rintro bound rfl
        exact Polynomial.exists_totalDegree_le hdegree
    · have hlt := (List.getElem?_eq_some_iff.mp hg).1
      rw [List.length_append, List.length_singleton] at hlt
      unfold size at hgt
      omega

end Grows
end Basis

open PolyIdeal.Basis (Grows)

/-! ## Sweeps -/

namespace Sweep

variable {s : Sweep K} {f g : Polynomial K} {pairs : List (Polynomial K × Polynomial K)} {i j : ℕ}

/-- A visit appends the remainder of its pair or nothing. -/
theorem grows_visit (hf : f ∈ s.basis.generators) (hg : g ∈ s.basis.generators) :
    Grows s.degreeLimit s.basis (s.visit f g).1.basis := by
  cases visitOutcome s f g with
  | failed _ hvisit =>
    rw [hvisit]
    exact .refl
  | reduced _ hvisit =>
    rw [hvisit]
    exact .refl
  | appended hpair hr hdegree hvisit =>
    rw [hvisit]
    exact Grows.refl.append hf hg hpair hr hdegree

/-- Visits of two lists of pairs are made one after the other, as long as none fails. -/
theorem visitAll_append (xs ys : List (Polynomial K × Polynomial K)) :
    s.visitAll (xs ++ ys) = match s.visitAll xs with
      | (s', .ok ()) => s'.visitAll ys
      | (s', .error e) => (s', .error e) := by
  induction xs generalizing s with
  | nil => rfl
  | cons x xs ih =>
    obtain ⟨f, g⟩ := x
    rw [List.cons_append, visitAll, visitAll]
    cases s.visit f g with
    | mk mid outcome =>
      cases outcome with
      | error e => rfl
      | ok done => exact ih

/-- Visits to pairs of generators, whatever they report. -/
theorem grows_visitAll
    (hpairs : ∀ x ∈ pairs, x.1 ∈ s.basis.generators ∧ x.2 ∈ s.basis.generators) :
    Grows s.degreeLimit s.basis (s.visitAll pairs).1.basis ∧
      (s.visitAll pairs).1.degreeLimit = s.degreeLimit := by
  -- on the pairs still to visit: a visit only appends, so they are still pairs of generators
  induction pairs generalizing s with
  | nil => exact ⟨.refl, rfl⟩
  | cons x pairs ih =>
    obtain ⟨⟨hf, hg⟩, hrest⟩ := List.forall_mem_cons.mp hpairs
    have hgrows := grows_visit hf hg
    have hlimit := degreeLimit_visit s x.1 x.2
    rw [visitAll]
    cases hvisit : s.visit x.1 x.2 with
    | mk mid outcome =>
      rw [hvisit] at hgrows hlimit
      cases outcome with
      | error e => exact ⟨hgrows, hlimit⟩
      | ok done =>
        obtain ⟨hgrows', hlimit'⟩ := ih fun y hy =>
          ⟨hgrows.subset (hrest y hy).1, hgrows.subset (hrest y hy).2⟩
        rw [hlimit] at hgrows'
        exact ⟨hgrows.trans hgrows', hlimit'.trans hlimit⟩

/-- A fault of visits in a row is the fault of one of them. The basis has only grown until then. -/
theorem exists_visit_of_visitAll {e : Fault}
    (hpairs : ∀ x ∈ pairs, x.1 ∈ s.basis.generators ∧ x.2 ∈ s.basis.generators)
    (h : (s.visitAll pairs).2 = .error e) : ∃ mid : Sweep K, ∃ x ∈ pairs,
      Grows s.degreeLimit s.basis mid.basis ∧ mid.degreeLimit = s.degreeLimit ∧
        (mid.visit x.1 x.2).2 = .error e := by
  induction pairs generalizing s with
  | nil => cases h
  | cons x pairs ih =>
    obtain ⟨⟨hf, hg⟩, hrest⟩ := List.forall_mem_cons.mp hpairs
    have hgrows := grows_visit hf hg
    have hlimit := degreeLimit_visit s x.1 x.2
    rw [visitAll] at h
    cases hvisit : s.visit x.1 x.2 with
    | mk mid outcome =>
      rw [hvisit] at hgrows hlimit h
      cases outcome with
      | error e' => exact ⟨s, x, List.mem_cons_self, .refl, rfl, by rw [hvisit]; exact h⟩
      | ok done =>
        obtain ⟨last, y, hy, hgrows', hlimit', herror⟩ := ih (fun y hy =>
          ⟨hgrows.subset (hrest y hy).1, hgrows.subset (hrest y hy).2⟩) h
        rw [hlimit] at hgrows'
        exact ⟨last, y, List.mem_cons_of_mem _ hy, hgrows.trans hgrows', hlimit'.trans hlimit,
          herror⟩

omit [Scalar K] in
theorem mem_generators_of_mem_laterPairs {b : Basis K} {x : Polynomial K × Polynomial K}
    (hx : x ∈ laterPairs b.generators) : x.1 ∈ b.generators ∧ x.2 ∈ b.generators := by
  obtain ⟨i, j, -, hf, hg⟩ := mem_laterPairs_iff.mp hx
  exact ⟨List.mem_of_getElem? hf, List.mem_of_getElem? hg⟩

omit [Scalar K] in
/-- The state in which a sweep makes its first visit. -/
def begun (s : Sweep K) : Sweep K :=
  { s with counters := { s.counters with passes := s.counters.passes + 1 } }

/-- The state inside a sweep, when the first `i` pairs have been visited. -/
def midway (s : Sweep K) (i : ℕ) : Sweep K :=
  match s.basis.fingerprint with
  | .error _ => s
  | .ok _ => (s.begun.visitAll ((laterPairs s.basis.generators).take i)).1

theorem basis_midway_zero (s : Sweep K) : (s.midway 0).basis = s.basis := by
  unfold midway
  split
  next => rfl
  next => rfl

/-- A sweep ends when all pairs have been visited. -/
theorem midway_of_length_le (h : (laterPairs s.basis.generators).length ≤ i) :
    s.midway i = s.step.1 := by
  unfold midway step begun
  rw [List.take_of_length_le h]
  cases s.basis.fingerprint with
  | error e => rfl
  | ok before =>
    simp only
    cases Sweep.visitAll _ (laterPairs s.basis.generators) with
    | mk last outcome => cases outcome <;> rfl

/-- Within a sweep the basis grows from visit to visit. -/
theorem grows_midway (hij : i ≤ j) :
    Grows s.degreeLimit (s.midway i).basis (s.midway j).basis := by
  unfold midway
  split
  next => exact .refl
  next =>
    obtain ⟨zs, hzs⟩ := List.take_prefix_take_left (l := laterPairs s.basis.generators) hij
    have hmem : ∀ x ∈ (laterPairs s.basis.generators).take j,
        x.1 ∈ s.basis.generators ∧ x.2 ∈ s.basis.generators :=
      fun x hx => mem_generators_of_mem_laterPairs (List.mem_of_mem_take hx)
    rw [← hzs] at hmem ⊢
    rw [visitAll_append]
    -- what the first visits leave is where the others begin
    obtain ⟨hgrows, hlimit⟩ := grows_visitAll (s := s.begun) fun x hx =>
      hmem x (List.mem_append_left _ hx)
    split
    next mid hmid =>
      rw [hmid] at hgrows hlimit ⊢
      have hrest : ∀ x ∈ zs, x.1 ∈ mid.basis.generators ∧ x.2 ∈ mid.basis.generators := by
        intro x hx
        obtain ⟨hf, hg⟩ := hmem x (List.mem_append_right _ hx)
        exact ⟨hgrows.subset hf, hgrows.subset hg⟩
      obtain ⟨hgrows', -⟩ := grows_visitAll hrest
      rw [hlimit] at hgrows'
      exact hgrows'
    next hmid =>
      rw [hmid]
      exact .refl

/-- A sweep, whatever it reports. -/
theorem grows_step (s : Sweep K) (i : ℕ) :
    Grows s.degreeLimit (s.midway i).basis s.step.1.basis := by
  rw [← midway_of_length_le (le_max_right i (laterPairs s.basis.generators).length)]
  exact grows_midway (le_max_left _ _)

theorem degreeLimit_step (s : Sweep K) : s.step.1.degreeLimit = s.degreeLimit := by
  rw [← midway_of_length_le le_rfl]
  unfold midway
  split
  next => rfl
  next =>
    exact (grows_visitAll (s := s.begun) fun x hx =>
      mem_generators_of_mem_laterPairs (List.mem_of_mem_take hx)).2

end Sweep

/-! ## Worklists -/

namespace Worklist

/-- A step of a worklist appends the remainder of its pair or nothing. -/
theorem grows_step (w : Worklist K) : Grows w.settings.degreeLimit w.basis w.step.1.basis := by
  cases outcome w with
  | idle _ hstep =>
    rw [hstep]
    exact .refl
  | stuck _ _ hstep =>
    rw [hstep]
    exact .refl
  | passed _ _ _ hstep =>
    rw [hstep]
    exact .refl
  | refused _ _ _ hstep =>
    rw [hstep]
    exact .refl
  | appended _ hjudge hdegree hstep =>
    rw [hstep]
    obtain ⟨f, g, hf, hg, hjudged⟩ := judge_eq_ok hjudge
    cases hjudged with
    | remainder hpair hr =>
      exact Grows.refl.append (List.mem_of_getElem? hf) (List.mem_of_getElem? hg) hpair hr hdegree

/-- The settings are those of the start. -/
theorem settings_step (w : Worklist K) : w.step.1.settings = w.settings := by
  rcases step_cases w with ⟨-, hsame, -⟩ | ⟨_, _, _, htaken, -⟩ | ⟨_, _, _, hfailed, -⟩
  · rw [hsame]
  · exact htaken.settings_eq
  · exact hfailed.settings_eq

end Worklist

/-! ## Runs -/

namespace Run

variable {r : Run K} {k i k' i' : ℕ}

/-- The degree limit that new generators are held against. -/
def degreeLimit : Run K → Option ℕ
  | sweep s => s.degreeLimit
  | worklist w => w.settings.degreeLimit

omit [Scalar K] in
theorem degreeLimit_start (settings : Settings) (b : Basis K) :
    (start settings b).degreeLimit = settings.degreeLimit := by
  unfold start
  cases settings.strategy <;> rfl

omit [Scalar K] in
theorem basis_start (settings : Settings) (b : Basis K) : (start settings b).basis = b := by
  unfold start
  cases settings.strategy <;> rfl

theorem degreeLimit_step (r : Run K) : r.step.1.degreeLimit = r.degreeLimit := by
  cases r with
  | sweep s => exact s.degreeLimit_step
  | worklist w => exact congrArg Settings.degreeLimit w.settings_step

theorem degreeLimit_stateAfter (r : Run K) (k : ℕ) :
    (stateAfter step r k).degreeLimit = r.degreeLimit :=
  stateAfter_invariant (P := fun r' : Run K => r'.degreeLimit = r.degreeLimit)
    (fun r' h => r'.degreeLimit_step.trans h) rfl k

/-- The basis when the next step has visited `i` pairs. A worklist changes its basis only at the
end of a step. -/
def basisMidway : Run K → ℕ → Basis K
  | sweep s, i => (s.midway i).basis
  | worklist w, _ => w.basis

/-- The basis after `k` steps and `i` visits of the next one. -/
def basisAt (r : Run K) (k i : ℕ) : Basis K := (stateAfter step r k).basisMidway i

theorem basisMidway_zero (r : Run K) : r.basisMidway 0 = r.basis := by
  cases r with
  | sweep s => exact s.basis_midway_zero
  | worklist w => rfl

/-- Within a step the basis grows from visit to visit. -/
theorem grows_basisMidway (r : Run K) (h : i ≤ i') :
    Grows r.degreeLimit (r.basisMidway i) (r.basisMidway i') := by
  cases r with
  | sweep s => exact Sweep.grows_midway h
  | worklist w => exact .refl

/-- A step ends with what it has at any moment, or with more. -/
theorem grows_step (r : Run K) (i : ℕ) :
    Grows r.degreeLimit (r.basisMidway i) r.step.1.basis := by
  cases r with
  | sweep s => exact s.grows_step i
  | worklist w => exact w.grows_step

/-- A basis grows from step to step. -/
theorem grows_stateAfter (h : k ≤ k') :
    Grows r.degreeLimit (stateAfter step r k).basis (stateAfter step r k').basis := by
  induction k', h using Nat.le_induction with
  | base => exact .refl
  | succ k' _ ih =>
    have hlast := grows_step (stateAfter step r k') 0
    rw [basisMidway_zero, degreeLimit_stateAfter, ← stateAfter_succ] at hlast
    exact ih.trans hlast

/-- The bases of a run form a chain. -/
theorem grows_basisAt (h : k < k' ∨ k = k' ∧ i ≤ i') :
    Grows r.degreeLimit (r.basisAt k i) (r.basisAt k' i') := by
  unfold basisAt
  rcases h with hlt | ⟨rfl, hle⟩
  · have hfirst := grows_step (stateAfter step r k) i
    have hlast := grows_basisMidway (stateAfter step r k') (Nat.zero_le i')
    rw [degreeLimit_stateAfter, ← stateAfter_succ] at hfirst
    rw [degreeLimit_stateAfter, basisMidway_zero] at hlast
    exact (hfirst.trans (grows_stateAfter hlt)).trans hlast
  · have hgrows := grows_basisMidway (stateAfter step r k) hle
    rwa [degreeLimit_stateAfter] at hgrows

/-- What a run has at any moment has grown from what it was given. -/
theorem grows_start (settings : Settings) (b : Basis K) (k i : ℕ) :
    Grows settings.degreeLimit b ((start settings b).basisAt k i) := by
  have hgrows : Grows (start settings b).degreeLimit ((start settings b).basisAt 0 0)
      ((start settings b).basisAt k i) := grows_basisAt (by omega)
  have hfirst : (start settings b).basisAt 0 0 = b :=
    (basisMidway_zero _).trans (basis_start settings b)
  rwa [hfirst, degreeLimit_start] at hgrows

/-- A repetition of steps appends to the basis. -/
theorem grows_of_repeatStep {t : Run K} {rounds : ℕ} (h : repeatStep step rounds r = .ok t) :
    Grows r.degreeLimit r.basis t.basis := by
  have hkeeps : ∀ s : Run K, Grows r.degreeLimit r.basis s.basis ∧
      s.degreeLimit = r.degreeLimit → Grows r.degreeLimit r.basis s.step.1.basis ∧
        s.step.1.degreeLimit = r.degreeLimit := by
    rintro s ⟨hgrows, hlimit⟩
    have hstep := s.grows_step 0
    rw [basisMidway_zero, hlimit] at hstep
    exact ⟨hgrows.trans hstep, s.degreeLimit_step.trans hlimit⟩
  obtain ⟨last, hlast, -, rfl⟩ := exists_last_of_repeatStep
    (fun s hs _ => hkeeps s hs) ⟨.refl, rfl⟩ h
  exact (hkeeps last hlast).1

/-- What a run ends with has grown from what it began with. -/
theorem grows_of_finish {c : Completion K} (h : r.finish = .ok c) :
    Grows r.degreeLimit r.basis c.basis := by
  obtain ⟨last, hrepeat, rfl⟩ := finish_eq_ok_iff.mp h
  exact grows_of_repeatStep hrepeat

/-- At every moment of a run the basis is the one it began with, followed by generators that are
nonzero, of the arity and order of the basis, within the degree limit, and without a term that the
leading monomial of an earlier generator divides. Steps that fail are no exception. -/
theorem appended_basisAt {b : Basis K} (hb : b.Fits n o) (settings : Settings) (k i : ℕ) :
    (∃ added, (start settings b).basisAt k i = { b with generators := b.generators ++ added }) ∧
      ∀ j g, b.size ≤ j → ((start settings b).basisAt k i).generators[j]? = some g →
        ((start settings b).basisAt k i).AppendedAt settings.degreeLimit j g := by
  have hgrows := grows_start settings b k i
  exact ⟨hgrows.exists_added, fun j g hj hg => hgrows.appendedAt hb hj hg⟩

/-- The first visit of the first sweep over the two lines appends a third one, and so does the
first step of the worklist. -/
theorem appended_basisAt_twoLines : Sweep.twoLines.Fits 2 .lex ∧
    (∃ g, ((start { strategy := .sweep, degreeLimit := some 1 }
        Sweep.twoLines).basisAt 0 1).generators[2]? = some g ∧
      ((start { strategy := .sweep, degreeLimit := some 1 }
        Sweep.twoLines).basisAt 0 1).AppendedAt (some 1) 2 g) ∧
    ∃ g, ((start { degreeLimit := some 1 } Sweep.twoLines).basisAt 1 0).generators[2]? = some g ∧
      ((start { degreeLimit := some 1 } Sweep.twoLines).basisAt 1 0).AppendedAt (some 1) 2 g := by
  have hfits : Sweep.twoLines.Fits 2 .lex := by decide
  have hsweep : 2 < ((start { strategy := .sweep, degreeLimit := some 1 }
      Sweep.twoLines).basisAt 0 1).generators.length := by decide +kernel
  have hworklist : 2 < ((start { degreeLimit := some 1 }
      Sweep.twoLines).basisAt 1 0).generators.length := by decide +kernel
  refine ⟨hfits, ⟨_, List.getElem?_eq_getElem hsweep, ?_⟩,
    ⟨_, List.getElem?_eq_getElem hworklist, ?_⟩⟩
  · exact (appended_basisAt hfits _ 0 1).2 2 _ le_rfl (List.getElem?_eq_getElem hsweep)
  · exact (appended_basisAt hfits _ 1 0).2 2 _ le_rfl (List.getElem?_eq_getElem hworklist)

end Run

/-- A completed basis has been appended to. -/
theorem Basis.grows_of_complete {b : Basis K} {settings : Settings} {c : Completion K}
    (h : b.complete settings = .ok c) : Grows settings.degreeLimit b c.basis := by
  have hgrows := Run.grows_of_finish h
  rwa [Run.degreeLimit_start, Run.basis_start] at hgrows

/-- What has reduced to zero stays so. Divisors behind those of a division that leaves nothing over
change neither its remainder nor its quotients and get the quotient zero. And a pair of generators
that reduces to zero at some moment of a run does so at every later one. -/
theorem reduction_persists :
    (∀ (p : Polynomial K) (D E : List (Polynomial K)) (d : Division K), p.divide D = .ok d →
      d.remainder.isZero = true → (∀ q ∈ E, p.checkCompatible q = .ok ()) →
        p.divide (D ++ E) =
          .ok ⟨d.quotients ++ List.replicate E.length p.cleared, d.remainder⟩) ∧
    ∀ (n : ℕ) (o : TermOrder) (b : Basis K) (settings : Settings) (k i k' i' : ℕ), b.Fits n o →
      (k < k' ∨ k = k' ∧ i ≤ i') →
        ∀ f ∈ ((Run.start settings b).basisAt k i).generators,
          ∀ g ∈ ((Run.start settings b).basisAt k i).generators,
            ((Run.start settings b).basisAt k i).ReducesPair f g →
              ((Run.start settings b).basisAt k' i').ReducesPair f g := by
  refine ⟨fun p D E d h hz hE => Polynomial.divide_append h hz hE, ?_⟩
  intro n o b settings k i k' i' hb hlater f hf g hg hpair
  have hfits := (Run.grows_start settings b k i).fits hb
  exact (Run.grows_basisAt hlater).reducesPair hfits hf hg hpair

/-- The first line reduces to zero by itself, so also by itself and the second one. The pair of the
two lines reduces to zero once the third line is there, so also after two sweeps. -/
theorem reduction_persists_twoLines :
    let f : Polynomial Rat := ⟨2, .lex, 1 / 1000, [⟨⟨[1, 0]⟩, 1⟩, ⟨⟨[0, 1]⟩, -1⟩]⟩
    let g : Polynomial Rat := ⟨2, .lex, 1 / 1000, [⟨⟨[1, 0]⟩, 1⟩, ⟨⟨[0, 0]⟩, -1⟩]⟩
    (∃ d, f.divide [f] = .ok d ∧ d.remainder.isZero = true ∧
      f.divide ([f] ++ [g]) = .ok ⟨d.quotients ++ [f.cleared], d.remainder⟩) ∧
    Sweep.twoLines.Fits 2 .lex ∧ f ∈ Sweep.twoLines.generators ∧ g ∈ Sweep.twoLines.generators ∧
      ((Run.start { strategy := .sweep } Sweep.twoLines).basisAt 0 1).ReducesPair f g ∧
        ((Run.start { strategy := .sweep } Sweep.twoLines).basisAt 2 0).ReducesPair f g := by
  intro f g
  have hfits : Sweep.twoLines.Fits 2 .lex := by decide
  have hf : f ∈ Sweep.twoLines.generators := List.mem_cons_self
  have hg : g ∈ Sweep.twoLines.generators := List.mem_cons_of_mem _ List.mem_cons_self
  have hdivide : (f.divide [f]).map (·.remainder.isZero) = .ok true := by decide +kernel
  have hpair : (((Run.start { strategy := .sweep } Sweep.twoLines).basisAt 0 1).pairRemainder
      f g).map (·.isZero) = .ok true := by decide +kernel
  obtain ⟨d, hd, hz⟩ := map_eq_ok_iff.mp hdivide
  have hreduces : ((Run.start { strategy := .sweep } Sweep.twoLines).basisAt 0 1).ReducesPair f g :=
    map_eq_ok_iff.mp hpair
  have hsub := (Run.grows_start { strategy := .sweep } Sweep.twoLines 0 1).subset
  refine ⟨⟨d, hd, hz, ?_⟩, hfits, hf, hg, hreduces, ?_⟩
  · exact reduction_persists.1 f [f] [g] d hd hz (List.forall_mem_singleton.mpr (by decide))
  · exact reduction_persists.2 2 .lex Sweep.twoLines { strategy := .sweep } 0 1 2 0 hfits
      (.inl Nat.zero_lt_two) f (hsub hf) g (hsub hg) hreduces

end PolyIdeal
