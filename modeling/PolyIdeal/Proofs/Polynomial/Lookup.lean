import PolyIdeal.Polynomial.Lookup
import PolyIdeal.Proofs.Polynomial.Shape

/-!
# Looking up a monomial in a descending list

The search halves a stretch of positions. `Stretch` is what it keeps: the monomial does not compare
larger than the term at the base of the stretch, unless the base is still the first position, and
it compares larger than all terms behind the stretch. A stretch of one position leaves one more
comparison, and the slot it decides on is right: `splits_of_locate`. All that this takes is that
the comparison is `Steady` along the list.

In a list of the arity of the monomial it is, and there the slot tells where the monomial stands or
belongs: `holds_of_locate`. So a term that is inserted at an absent slot comes to stand where its
monomial belongs.

The search meets degrees that do not fit a word only where it probes. Ranks are those of monomials
with degrees of any size, and no law of the coefficients is used.
-/

namespace PolyIdeal.Polynomial

variable {K : Type} {n : ℕ} {o : TermOrder} {ts : List (Term K)} {m : Monomial}
  {base size i : ℕ}

/-- What a slot says about a list: the monomial compares equal to the term at the index, or it
compares smaller than the terms in front of the index and larger than all others. -/
def Slot.Splits (o : TermOrder) (ts : List (Term K)) (m : Monomial) : Slot → Prop
  | found i => ∃ t, ts[i]? = some t ∧ o.cmp m t.monomial = .eq
  | absent i => i ≤ ts.length ∧
      (∀ j < i, ∀ t, ts[j]? = some t → o.cmp m t.monomial = .lt) ∧
        ∀ j, i ≤ j → ∀ t, ts[j]? = some t → o.cmp m t.monomial = .gt

/-- What a slot says about a descending list: the monomial stands at the index, or it belongs
behind the terms in front of the index and in front of all others. -/
def Slot.Holds (o : TermOrder) (n : ℕ) (ts : List (Term K)) (m : Monomial) : Slot → Prop
  | found i => ∃ t, ts[i]? = some t ∧ t.monomial = m
  | absent i => i ≤ ts.length ∧
      (∀ j < i, ∀ t, ts[j]? = some t → o.rank n m < o.rank n t.monomial) ∧
        ∀ j, i ≤ j → ∀ t, ts[j]? = some t → o.rank n t.monomial < o.rank n m

theorem probe_eq_ok_iff {r : Ordering} : probe o ts m i = .ok r ↔
    ∃ t, ts[i]? = some t ∧ o.compare m t.monomial = .ok r := by
  unfold probe
  cases ts[i]? with
  | none => simp
  | some t => simp

theorem cmp_of_probe {r : Ordering} (h : probe o ts m i = .ok r) :
    ∃ t, ts[i]? = some t ∧ o.cmp m t.monomial = r := by
  obtain ⟨t, ht, hcmp⟩ := probe_eq_ok_iff.mp h
  exact ⟨t, ht, TermOrder.cmp_eq_of_compare hcmp⟩

/-- Whatever list is searched, the monomial compares equal to the term that is found. -/
theorem cmp_eq_of_found (h : locate o ts m = .ok (.found i)) :
    ∃ t, ts[i]? = some t ∧ o.cmp m t.monomial = .eq := by
  unfold locate at h
  split at h
  next => cases h
  next =>
    obtain ⟨j, -, h⟩ := bind_eq_ok_iff.mp h
    obtain ⟨r, hr, h⟩ := bind_eq_ok_iff.mp h
    cases r with
    | eq =>
      obtain rfl : j = i := Slot.found.inj (pure_eq_ok_iff.mp h)
      exact cmp_of_probe hr
    | lt => cases h
    | gt => cases h

/-- A monomial that has been looked for in vain compares equal to no term. -/
theorem Slot.Splits.cmp_ne_eq (h : (Slot.absent i).Splits o ts m) :
    ∀ t ∈ ts, o.cmp m t.monomial ≠ .eq := by
  intro t ht
  obtain ⟨j, hj⟩ := List.mem_iff_getElem?.mp ht
  rcases Nat.lt_or_ge j i with hlt | hge
  · rw [h.2.1 j hlt t hj]
    decide
  · rw [h.2.2 j hge t hj]
    decide

/-- Ranks say the same as comparisons. -/
theorem Slot.Splits.holds {s : Slot} (h : s.Splits o ts m) (ha : OfArity n ts)
    (hm : m.arity = n) : s.Holds o n ts m := by
  cases s with
  | found i =>
    obtain ⟨t, ht, hcmp⟩ := h
    exact ⟨t, ht,
      ((TermOrder.cmp_eq_eq_iff o hm (ha t (List.mem_of_getElem? ht))).mp hcmp).symm⟩
  | absent i =>
    obtain ⟨hi, hfront, hback⟩ := h
    refine ⟨hi, fun j hj t ht => ?_, fun j hj t ht => ?_⟩
    · exact (TermOrder.cmp_eq_lt_iff o hm (ha t (List.mem_of_getElem? ht))).mp (hfront j hj t ht)
    · exact (TermOrder.cmp_eq_gt_iff o hm (ha t (List.mem_of_getElem? ht))).mp (hback j hj t ht)

/-- A monomial that has been looked for in vain does not occur. -/
theorem Slot.Holds.not_mem (h : (Slot.absent i).Holds o n ts m) :
    ∀ t ∈ ts, t.monomial ≠ m := by
  rintro t ht rfl
  obtain ⟨j, hj⟩ := List.mem_iff_getElem?.mp ht
  rcases Nat.lt_or_ge j i with hlt | hge
  · exact lt_irrefl _ (h.2.1 j hlt t hj)
  · exact lt_irrefl _ (h.2.2 j hge t hj)

/-! ## Searching -/

/-- Going down the list, the monomial stays larger once it is larger than a term, and it has been
smaller before if it is smaller. -/
def Steady (o : TermOrder) (ts : List (Term K)) (m : Monomial) : Prop :=
  ts.Pairwise fun t u => (o.cmp m t.monomial = .gt → o.cmp m u.monomial = .gt) ∧
    (o.cmp m u.monomial = .lt → o.cmp m t.monomial = .lt)

/-- In a descending list the comparison with a monomial of its arity is steady. -/
theorem Steady.of_descending (ha : OfArity n ts) (hd : Descending o ts) (hm : m.arity = n) :
    Steady o ts m := by
  refine hd.imp_of_mem fun {t u} ht hu htu => ?_
  rw [TermOrder.cmp_eq_gt_iff o hm (ha t ht), TermOrder.cmp_eq_gt_iff o hm (ha u hu),
    TermOrder.cmp_eq_lt_iff o hm (ha t ht), TermOrder.cmp_eq_lt_iff o hm (ha u hu)]
  have hlt := (TermOrder.cmp_eq_gt_iff o (ha t ht) (ha u hu)).mp htu
  exact ⟨hlt.trans, fun h => h.trans hlt⟩

/-- The stretch `[base, base + size)` in which a monomial can be. -/
structure Stretch (o : TermOrder) (ts : List (Term K)) (m : Monomial) (base size : ℕ) :
    Prop where
  size_pos : 0 < size
  end_le : base + size ≤ ts.length
  base_ne : 0 < base → ∀ t, ts[base]? = some t → o.cmp m t.monomial ≠ .gt
  behind : ∀ j, base + size ≤ j → ∀ t, ts[j]? = some t → o.cmp m t.monomial = .gt

section Search

variable (hsteady : Steady o ts m)
include hsteady

theorem Steady.gt {j : ℕ} {t u : Term K} (hij : i < j) (ht : ts[i]? = some t)
    (hu : ts[j]? = some u) (h : o.cmp m t.monomial = .gt) : o.cmp m u.monomial = .gt := by
  obtain ⟨hi, rfl⟩ := List.getElem?_eq_some_iff.mp ht
  obtain ⟨hj, rfl⟩ := List.getElem?_eq_some_iff.mp hu
  exact (List.pairwise_iff_getElem.mp hsteady i j hi hj hij).1 h

theorem Steady.lt {j : ℕ} {t u : Term K} (hij : i < j) (ht : ts[i]? = some t)
    (hu : ts[j]? = some u) (h : o.cmp m u.monomial = .lt) : o.cmp m t.monomial = .lt := by
  obtain ⟨hi, rfl⟩ := List.getElem?_eq_some_iff.mp ht
  obtain ⟨hj, rfl⟩ := List.getElem?_eq_some_iff.mp hu
  exact (List.pairwise_iff_getElem.mp hsteady i j hi hj hij).2 h

/-- Probing the middle of a stretch leaves a shorter stretch. -/
theorem Stretch.halve {r : Ordering} (hs : Stretch o ts m base size) (hsize : 1 < size)
    (h : probe o ts m (base + size / 2) = .ok r) :
    Stretch o ts m (if r = .gt then base else base + size / 2) (size - size / 2) := by
  have hend := hs.end_le
  obtain ⟨t, ht, rfl⟩ := cmp_of_probe h
  split
  next hgt =>
    -- the monomial is larger than the probe, and so it is than all terms behind it
    refine ⟨by omega, by omega, hs.base_ne, fun j hj u hu => ?_⟩
    rcases (show base + size / 2 ≤ j by omega).eq_or_lt with rfl | hjlt
    · rw [ht, Option.some_inj] at hu
      exact hu ▸ hgt
    · exact hsteady.gt hjlt ht hu hgt
  next hgt =>
    refine ⟨by omega, by omega, fun _ u hu => ?_, fun j hj => hs.behind j (by omega)⟩
    rw [ht, Option.some_inj] at hu
    exact hu ▸ hgt

/-- With a round for each position but one, a stretch is narrowed to one position. -/
theorem Stretch.narrow {rounds : ℕ} (hs : Stretch o ts m base size)
    (hrounds : size ≤ rounds + 1) (h : Polynomial.narrow o ts m rounds base size = .ok i) :
    Stretch o ts m i 1 := by
  have hpos := hs.size_pos
  induction rounds generalizing base size with
  | zero =>
    obtain rfl : size = 1 := by omega
    exact Except.ok.inj h ▸ hs
  | succ rounds ih =>
    rw [Polynomial.narrow] at h
    split at h
    next hle =>
      obtain rfl : size = 1 := by omega
      exact Except.ok.inj h ▸ hs
    next hlarge =>
      obtain ⟨r, hr, h⟩ := bind_eq_ok_iff.mp h
      exact ih (hs.halve hsteady (by omega) hr) (by omega) h (by omega)

/-- The slot that a search reports is right. -/
theorem splits_of_locate {s : Slot} (h : locate o ts m = .ok s) : s.Splits o ts m := by
  unfold locate at h
  split at h
  next hempty =>
    obtain rfl := Except.ok.inj h
    rw [List.isEmpty_iff.mp hempty]
    exact ⟨Nat.zero_le _, fun j hj => absurd hj (Nat.not_lt_zero j), fun j _ t ht => by cases ht⟩
  next hne =>
    obtain ⟨i, hi, h⟩ := bind_eq_ok_iff.mp h
    obtain ⟨r, hr, h⟩ := bind_eq_ok_iff.mp h
    have hpos : 0 < ts.length := List.length_pos_iff.mpr fun hnil => hne (List.isEmpty_iff.mpr hnil)
    have hs : Stretch o ts m i 1 := by
      refine Stretch.narrow hsteady ⟨hpos, (Nat.zero_add _).le, fun hlt => absurd hlt
        (Nat.lt_irrefl 0), fun j hj t ht => ?_⟩ (Nat.le_succ _) hi
      rw [List.getElem?_eq_none (by omega)] at ht
      cases ht
    have hend := hs.end_le
    obtain ⟨t, ht, hcmp⟩ := cmp_of_probe hr
    cases r with
    | eq =>
      obtain rfl := pure_eq_ok_iff.mp h
      exact ⟨t, ht, hcmp⟩
    | lt =>
      obtain rfl := pure_eq_ok_iff.mp h
      refine ⟨hend, fun j hj u hu => ?_, hs.behind⟩
      rcases (Nat.le_of_lt_succ hj).eq_or_lt with rfl | hji
      · rw [ht, Option.some_inj] at hu
        exact hu ▸ hcmp
      · exact hsteady.lt hji hu ht hcmp
    | gt =>
      obtain rfl := pure_eq_ok_iff.mp h
      -- a base that has moved is not smaller than the monomial
      have hzero : i = 0 := by
        by_contra hne
        exact hs.base_ne (Nat.pos_of_ne_zero hne) t ht hcmp
      refine ⟨by omega, fun j hj => by omega, fun j hj u hu => ?_⟩
      rcases hj.eq_or_lt with rfl | hij
      · rw [ht, Option.some_inj] at hu
        exact hu ▸ hcmp
      · exact hsteady.gt hij ht hu hcmp

end Search

section Shape

variable (ha : OfArity n ts) (hd : Descending o ts) (hm : m.arity = n)
include ha hd hm

/-- In a descending list the slot tells where a monomial of its arity stands or belongs. -/
theorem holds_of_locate {s : Slot} (h : locate o ts m = .ok s) : s.Holds o n ts m :=
  (splits_of_locate (.of_descending ha hd hm) h).holds ha hm

/-- A term inserted at an absent slot keeps the list descending. -/
theorem descending_insertIdx {c : K} (h : (Slot.absent i).Holds o n ts m) :
    Descending o (ts.insertIdx i ⟨m, c⟩) := by
  obtain ⟨hi, hfront, hback⟩ := h
  obtain ⟨before, after, rfl, rfl, hsplit⟩ := List.exists_of_modifyTailIdx (List.cons ⟨m, c⟩) hi
  have hinsert : (before ++ after).insertIdx before.length ⟨m, c⟩ = before ++ ⟨m, c⟩ :: after :=
    hsplit
  obtain ⟨hbefore, hafter, hcross⟩ := List.pairwise_append.mp hd
  have hbelow : Below o n (o.rank n m) after := fun t ht => by
    obtain ⟨j, hj⟩ := List.mem_iff_getElem?.mp ht
    refine hback (before.length + j) (Nat.le_add_right _ _) t ?_
    rwa [List.getElem?_append_right (Nat.le_add_right _ _), Nat.add_sub_cancel_left]
  have habove : ∀ t ∈ before, o.cmp t.monomial m = .gt := fun t ht => by
    obtain ⟨j, hj⟩ := List.mem_iff_getElem?.mp ht
    have hlt := (List.getElem?_eq_some_iff.mp hj).1
    refine (TermOrder.cmp_eq_gt_iff o (ha t (List.mem_append_left _ ht)) hm).mpr
      (hfront j hlt t ?_)
    rwa [List.getElem?_append_left hlt]
  rw [hinsert]
  refine List.pairwise_append.mpr ⟨hbefore, descending_cons (n := n) ?_ hbelow hafter, ?_⟩
  · exact List.forall_mem_cons.mpr ⟨hm, fun t ht => ha t (List.mem_append_right _ ht)⟩
  · exact fun t ht => List.forall_mem_cons.mpr ⟨habove t ht, hcross t ht⟩

end Shape

/-! ## Adding a term -/

variable [Scalar K] {p q : Polynomial K} {c : K}

/-- Adding a term adjusts the coefficient of a monomial that is there. Else it inserts the term,
unless it is not significant. -/
theorem addTerm_eq_ok_iff : p.addTerm m c = .ok q ↔ p.arity = m.arity ∧
    ((∃ i, locate p.order p.terms m = .ok (.found i) ∧
        { p with terms := adjustAt p.epsilon p.terms i c } = q) ∨
      ∃ i, locate p.order p.terms m = .ok (.absent i) ∧
        (if Scalar.significant p.epsilon c then { p with terms := p.terms.insertIdx i ⟨m, c⟩ }
          else p) = q) := by
  unfold addTerm
  simp only [bind_eq_ok_iff]
  constructor
  · rintro ⟨⟨⟩, harity, s, hs, h⟩
    refine ⟨checkArity_eq_ok_iff.mp harity, ?_⟩
    cases s with
    | found i => exact .inl ⟨i, hs, pure_eq_ok_iff.mp h⟩
    | absent i => exact .inr ⟨i, hs, pure_eq_ok_iff.mp ((apply_ite pure _ _ _).trans h)⟩
  · rintro ⟨harity, ⟨i, hs, h⟩ | ⟨i, hs, h⟩⟩
    · exact ⟨(), checkArity_eq_ok_iff.mpr harity, _, hs, pure_eq_ok_iff.mpr h⟩
    · refine ⟨(), checkArity_eq_ok_iff.mpr harity, _, hs, ?_⟩
      exact (apply_ite pure _ _ _).symm.trans (pure_eq_ok_iff.mpr h)

/-- Adjusting a coefficient takes the term out or leaves all monomials as they are. -/
theorem support_adjustAt (ε : K) (ts : List (Term K)) (i : ℕ) (c : K) :
    ((adjustAt ε ts i c).map Term.monomial).Sublist (ts.map Term.monomial) := by
  unfold adjustAt
  cases ht : ts[i]? with
  | none => exact List.Sublist.refl _
  | some t =>
    simp only
    split
    next => exact (List.eraseIdx_sublist ts i).map _
    next =>
      obtain ⟨hi, rfl⟩ := List.getElem?_eq_some_iff.mp ht
      -- the term is replaced by one with the same monomial
      have hmi : i < (ts.map Term.monomial).length := by rwa [List.length_map]
      have hsame : (ts.map Term.monomial)[i] = ts[i].monomial := List.getElem_map Term.monomial
      rw [List.map_set, ← hsame, List.set_getElem_self]

/-- Adding a term keeps the shape. -/
theorem Fits.addTerm (hp : p.Fits n o) (h : p.addTerm m c = .ok q) : q.Fits n o := by
  obtain ⟨harity, ⟨i, hs, rfl⟩ | ⟨i, hs, rfl⟩⟩ := addTerm_eq_ok_iff.mp h
  · have hsub := support_adjustAt p.epsilon p.terms i c
    have hpairs : (p.terms.map Term.monomial).Pairwise fun a b => o.cmp a b = .gt :=
      List.pairwise_map.mpr hp.descending
    refine ⟨hp.arity_eq, hp.order_eq, fun t ht => ?_, ?_⟩
    · obtain ⟨u, hu, hmon⟩ := List.mem_map.mp (hsub.subset (List.mem_map_of_mem ht))
      rw [← hmon]
      exact hp.ofArity u hu
    · exact List.pairwise_map.mp (hpairs.sublist hsub)
  · split
    next =>
      have hm : m.arity = n := harity.symm.trans hp.arity_eq
      rw [hp.order_eq] at hs
      refine ⟨hp.arity_eq, hp.order_eq, fun t ht => ?_, ?_⟩
      · rcases List.eq_or_mem_of_mem_insertIdx ht with rfl | ht
        · exact hm
        · exact hp.ofArity t ht
      · exact descending_insertIdx hp.ofArity hp.descending hm
          (holds_of_locate hp.ofArity hp.descending hm hs)
    next => exact hp

end PolyIdeal.Polynomial
