import Mathlib.Data.List.Forall2
import PolyIdeal.Fault

/-!
# What an outcome says about the steps behind it

Every operation is a chain of steps in `Except Fault`. A chain succeeds exactly when each step
does, and the `..._eq_ok_iff` lemmas turn one success into the successes it was made of. That is
how every later proof opens an operation.

The second half is about failures. `OverflowOnly x` says that `x` either succeeds or reports an
exponent past 32 bits. On operands that fit each other nothing else can go wrong, and the
closure lemmas here carry that through a chain. `InRange x` says that this is the one failure that
`x` does not report. What is in range and fails by overflow only succeeds.
-/

namespace PolyIdeal

variable {α β : Type}

/-! ## Successes -/

@[simp] theorem pure_eq_ok_iff {a b : α} : (pure a : Except Fault α) = .ok b ↔ a = b := by
  simp [pure, Except.pure]

/-- A chain of two steps succeeds when the first does and then the second. -/
theorem bind_eq_ok_iff {x : Except Fault α} {f : α → Except Fault β} {b : β} :
    (x >>= f) = .ok b ↔ ∃ a, x = .ok a ∧ f a = .ok b := by
  cases x <;> simp [bind, Except.bind]

/-- A step that succeeded hands on its value. -/
theorem bind_of_eq_ok {x : Except Fault α} {a : α} (h : x = .ok a) (f : α → Except Fault β) :
    (x >>= f) = f a := by
  rw [h]
  rfl

/-- The value of a step that is looked at once it is known to succeed. -/
theorem map_eq_ok_iff {x : Except Fault α} {f : α → β} {b : β} :
    x.map f = .ok b ↔ ∃ a, x = .ok a ∧ f a = b := by
  cases x <;> simp [Except.map]

/-- A check of all entries passes if each of them does. -/
theorem forM_eq_ok_iff {f : α → Except Fault Unit} {xs : List α} :
    xs.forM f = .ok () ↔ ∀ x ∈ xs, f x = .ok () := by
  induction xs with
  | nil => simp [List.forM]
  | cons x xs ih =>
    rw [List.forM, bind_eq_ok_iff]
    simp only [ih, List.mem_cons, forall_eq_or_imp]
    exact ⟨fun ⟨_, hx, hxs⟩ => ⟨hx, hxs⟩, fun ⟨hx, hxs⟩ => ⟨(), hx, hxs⟩⟩

/-- A traversal succeeds when every entry does, and yields the results in place. -/
theorem mapM_eq_ok_iff {f : α → Except Fault β} {xs : List α} {ys : List β} :
    xs.mapM f = .ok ys ↔ List.Forall₂ (fun x y => f x = .ok y) xs ys := by
  induction xs generalizing ys with
  | nil =>
    rw [List.mapM_nil, pure_eq_ok_iff, List.forall₂_nil_left_iff]
    exact eq_comm
  | cons x xs ih =>
    rw [List.mapM_cons, bind_eq_ok_iff, List.forall₂_cons_left_iff]
    simp only [bind_eq_ok_iff, pure_eq_ok_iff, ih]
    exact ⟨fun ⟨y, hy, ys, hys, h⟩ => ⟨y, ys, hy, hys, h.symm⟩,
      fun ⟨y, ys, hy, hys, h⟩ => ⟨y, hy, ys, hys, h.symm⟩⟩

/-- What a traversal yields depends only on the outcomes of the entries. -/
theorem mapM_eq_ok_iff_map_eq {f : α → Except Fault β} {xs : List α} {ys : List β} :
    xs.mapM f = .ok ys ↔ xs.map f = ys.map .ok := by
  rw [mapM_eq_ok_iff, ← List.forall₂_eq_eq_eq, List.forall₂_map_left_iff,
    List.forall₂_map_right_iff]

/-- A traversal succeeds when every entry does. -/
theorem exists_mapM_eq_ok {f : α → Except Fault β} {xs : List α} (h : ∀ x ∈ xs, ∃ y, f x = .ok y) :
    ∃ ys, xs.mapM f = .ok ys := by
  induction xs with
  | nil => exact ⟨[], rfl⟩
  | cons x xs ih =>
    obtain ⟨y, hy⟩ := h x List.mem_cons_self
    obtain ⟨ys, hys⟩ := ih fun z hz => h z (List.mem_cons_of_mem _ hz)
    refine ⟨y :: ys, ?_⟩
    rw [List.mapM_cons, bind_of_eq_ok hy, bind_of_eq_ok hys]
    rfl

/-- Each entry of a traversal has its result in the same place. -/
theorem exists_getElem?_of_mapM {f : α → Except Fault β} {xs : List α} {ys : List β} {i : ℕ}
    {x : α} (h : xs.mapM f = .ok ys) (hx : xs[i]? = some x) :
    ∃ y, ys[i]? = some y ∧ f x = .ok y := by
  rw [mapM_eq_ok_iff] at h
  induction h generalizing i with
  | nil => cases hx
  | cons hhead _ ih =>
    cases i with
    | zero => exact ⟨_, rfl, Option.some.inj hx ▸ hhead⟩
    | succ i => exact ih hx

/-- Each result of a traversal stems from the entry in its place. -/
theorem exists_getElem?_of_mapM_right {f : α → Except Fault β} {xs : List α} {ys : List β} {i : ℕ}
    {y : β} (h : xs.mapM f = .ok ys) (hy : ys[i]? = some y) :
    ∃ x, xs[i]? = some x ∧ f x = .ok y := by
  rw [mapM_eq_ok_iff] at h
  induction h generalizing i with
  | nil => cases hy
  | cons hhead _ ih =>
    cases i with
    | zero => exact ⟨_, rfl, Option.some.inj hy ▸ hhead⟩
    | succ i => exact ih hy

/-- Each result of a traversal is the result of an entry. -/
theorem exists_mem_of_mapM {f : α → Except Fault β} {xs : List α} {ys : List β} {y : β}
    (h : xs.mapM f = .ok ys) (hy : y ∈ ys) : ∃ x ∈ xs, f x = .ok y := by
  obtain ⟨i, hi⟩ := List.mem_iff_getElem?.mp hy
  obtain ⟨x, hx, hxy⟩ := exists_getElem?_of_mapM_right h hi
  exact ⟨x, List.mem_of_getElem? hx, hxy⟩

/-- All entries pass a test that may fail. -/
theorem allM_eq_ok_true_iff {f : α → Except Fault Bool} {xs : List α} :
    xs.allM f = .ok true ↔ ∀ x ∈ xs, f x = .ok true := by
  induction xs with
  | nil => simp [List.allM]
  | cons x xs ih =>
    rw [List.allM, bind_eq_ok_iff, List.forall_mem_cons, ← ih]
    constructor
    · rintro ⟨(_ | _), hx, hxs⟩
      · cases hxs
      · exact ⟨hx, hxs⟩
    · rintro ⟨hx, hxs⟩
      exact ⟨true, hx, hxs⟩

/-- A test that gives an answer for each entry gives one for the list. -/
theorem allM_eq_ok {f : α → Except Fault Bool} {p : α → Bool} {xs : List α}
    (h : ∀ x ∈ xs, f x = .ok (p x)) : xs.allM f = .ok (xs.all p) := by
  induction xs with
  | nil => rfl
  | cons x xs ih =>
    obtain ⟨hx, hxs⟩ := List.forall_mem_cons.mp h
    rw [List.allM, bind_of_eq_ok hx, List.all_cons]
    cases p x with
    | false => rfl
    | true => exact ih hxs

/-- A test that is not passed by all has an entry that does not pass it. -/
theorem exists_of_allM_eq_ok_false {f : α → Except Fault Bool} {xs : List α}
    (h : xs.allM f = .ok false) : ∃ x ∈ xs, f x = .ok false := by
  induction xs with
  | nil => cases h
  | cons x xs ih =>
    rw [List.allM, bind_eq_ok_iff] at h
    obtain ⟨_ | _, hx, hxs⟩ := h
    · exact ⟨x, List.mem_cons_self, hx⟩
    · obtain ⟨y, hy, hfalse⟩ := ih hxs
      exact ⟨y, List.mem_cons_of_mem _ hy, hfalse⟩

/-- What every round of a fold keeps holds at its end. -/
theorem foldlM_invariant {f : β → α → Except Fault β} {P : β → Prop} {xs : List α} {b c : β}
    (step : ∀ b c, ∀ x ∈ xs, P b → f b x = .ok c → P c) (hb : P b)
    (h : xs.foldlM f b = .ok c) : P c := by
  induction xs generalizing b with
  | nil =>
    cases h
    exact hb
  | cons x xs ih =>
    rw [List.foldlM_cons, bind_eq_ok_iff] at h
    obtain ⟨d, hd, hc⟩ := h
    exact ih (fun b c y hy => step b c y (List.mem_cons_of_mem _ hy))
      (step b d x List.mem_cons_self hb hd) hc

/-- The arity is the expected one. -/
@[simp] theorem checkArity_eq_ok_iff {expected found : ℕ} :
    checkArity expected found = .ok () ↔ expected = found := by
  unfold checkArity
  split <;> simp_all

/-- A fold that succeeds has made a successful step with each entry. -/
theorem exists_of_foldlM_eq_ok {f : β → α → Except Fault β} {xs : List α} {a b : β} {x : α}
    (h : xs.foldlM f a = .ok b) (hx : x ∈ xs) : ∃ c d, f c x = .ok d := by
  induction xs generalizing a with
  | nil => exact absurd hx List.not_mem_nil
  | cons y ys ih =>
    rw [List.foldlM_cons, bind_eq_ok_iff] at h
    obtain ⟨c, hc, hb⟩ := h
    rcases List.mem_cons.mp hx with rfl | hx
    · exact ⟨a, c, hc⟩
    · exact ih hb hx

/-! ## Failures -/

/-- Succeeds, or reports an exponent past 32 bits. -/
def OverflowOnly (x : Except Fault α) : Prop := ∀ e, x = .error e → e = .exponentOverflow

theorem OverflowOnly.of_eq_ok {x : Except Fault α} {a : α} (h : x = .ok a) : OverflowOnly x := by
  intro e he
  rw [h] at he
  cases he

theorem OverflowOnly.error : OverflowOnly (.error .exponentOverflow : Except Fault α) := by
  intro e he
  cases he
  rfl

/-- Either way an outcome without another failure can turn out. -/
theorem OverflowOnly.cases {x : Except Fault α} (h : OverflowOnly x) :
    x = .error .exponentOverflow ∨ ∃ a, x = .ok a := by
  cases x with
  | error e => exact .inl (congrArg _ (h e rfl))
  | ok a => exact .inr ⟨a, rfl⟩

/-- Two steps, one after the other, that fail only with an overflow. -/
theorem OverflowOnly.bind {x : Except Fault α} {f : α → Except Fault β} (hx : OverflowOnly x)
    (hf : ∀ a, x = .ok a → OverflowOnly (f a)) : OverflowOnly (x >>= f) := by
  rcases hx.cases with h | ⟨a, h⟩
  · rw [h]
    exact .error
  · rw [bind_of_eq_ok h]
    exact hf a h

/-- Steps on every entry of a list that fail only with an overflow. -/
theorem OverflowOnly.mapM {f : α → Except Fault β} {xs : List α}
    (h : ∀ x ∈ xs, OverflowOnly (f x)) : OverflowOnly (xs.mapM f) := by
  induction xs with
  | nil => exact .of_eq_ok rfl
  | cons x xs ih =>
    rw [List.mapM_cons]
    refine (h x List.mem_cons_self).bind fun y _ => ?_
    refine (ih fun z hz => h z (List.mem_cons_of_mem _ hz)).bind fun ys _ => ?_
    exact .of_eq_ok rfl

/-- Tests of every entry of a list that fail only with an overflow. -/
theorem OverflowOnly.allM {f : α → Except Fault Bool} {xs : List α}
    (h : ∀ x ∈ xs, OverflowOnly (f x)) : OverflowOnly (xs.allM f) := by
  induction xs with
  | nil => exact .of_eq_ok rfl
  | cons x xs ih =>
    rw [List.allM]
    refine (h x List.mem_cons_self).bind fun passed _ => ?_
    cases passed with
    | false => exact .of_eq_ok rfl
    | true => exact ih fun y hy => h y (List.mem_cons_of_mem _ hy)

/-! ## Staying in range -/

/-- Does not report an exponent past 32 bits. -/
def InRange (x : Except Fault α) : Prop := x ≠ .error .exponentOverflow

theorem InRange.of_eq_ok {x : Except Fault α} {a : α} (h : x = .ok a) : InRange x := by
  intro he
  rw [h] at he
  cases he

theorem InRange.of_eq_error {x : Except Fault α} {e : Fault} (h : x = .error e)
    (hne : e ≠ .exponentOverflow) : InRange x := by
  intro he
  exact hne (Except.error.inj (h.symm.trans he))

theorem InRange.ne_overflow {x : Except Fault α} {e : Fault} (h : InRange x) (he : x = .error e) :
    e ≠ .exponentOverflow := by
  rintro rfl
  exact h he

/-- What does not overflow, and could fail in no other way, succeeds. -/
theorem InRange.exists_ok {x : Except Fault α} (h : InRange x) (honly : OverflowOnly x) :
    ∃ a, x = .ok a := honly.cases.resolve_left h

/-- Two steps, one after the other, that do not overflow. -/
theorem InRange.bind {x : Except Fault α} {f : α → Except Fault β} (hx : InRange x)
    (hf : ∀ a, x = .ok a → InRange (f a)) : InRange (x >>= f) := by
  cases x with
  | error e => exact fun he => hx (congrArg _ (Except.error.inj he))
  | ok a => exact hf a rfl

theorem InRange.map {x : Except Fault α} (hx : InRange x) (f : α → β) : InRange (x.map f) := by
  cases x with
  | error e => exact fun he => hx (congrArg _ (Except.error.inj he))
  | ok a => exact .of_eq_ok rfl

/-- Steps on every entry of a list that do not overflow. -/
theorem InRange.mapM {f : α → Except Fault β} {xs : List α} (h : ∀ x ∈ xs, InRange (f x)) :
    InRange (xs.mapM f) := by
  induction xs with
  | nil => exact .of_eq_ok rfl
  | cons x xs ih =>
    rw [List.mapM_cons]
    refine (h x List.mem_cons_self).bind fun y _ => ?_
    exact (ih fun z hz => h z (List.mem_cons_of_mem _ hz)).bind fun ys _ => .of_eq_ok rfl

theorem InRange.forM {f : α → Except Fault Unit} {xs : List α} (h : ∀ x ∈ xs, InRange (f x)) :
    InRange (xs.forM f) := by
  induction xs with
  | nil => exact .of_eq_ok rfl
  | cons x xs ih =>
    rw [List.forM]
    exact (h x List.mem_cons_self).bind fun _ _ => ih fun z hz => h z (List.mem_cons_of_mem _ hz)

theorem inRange_checkArity (expected found : ℕ) : InRange (checkArity expected found) := by
  unfold checkArity
  split
  · exact .of_eq_ok rfl
  · exact .of_eq_error rfl Fault.noConfusion

end PolyIdeal
