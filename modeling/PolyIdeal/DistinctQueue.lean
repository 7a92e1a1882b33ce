import Std.Data.TreeSet.Lemmas

/-!
# Queues of distinct entries

Entries leave the queue in the order in which they came, and an entry that is pending is not
queued again. Membership is asked for far more often than entries are added, so the queue carries
a search tree of its entries beside the two halves that hold them in order: `front` as they will
leave, `back` with the latest first. `toList` is the queue as its users see it, and every operation
is characterized by what it does to `toList` and to membership.
-/

namespace PolyIdeal

/-- Pending entries, oldest first, with a search tree of the same entries. -/
structure DistinctQueue (α : Type) [Ord α] where
  front : List α
  back : List α
  pending : Std.TreeSet α

namespace DistinctQueue

variable {α : Type} [Ord α]

/-- The queue without entries. -/
def empty : DistinctQueue α := ⟨[], [], ∅⟩

/-- The pending entries, oldest first. -/
def toList (q : DistinctQueue α) : List α := q.front ++ q.back.reverse

/-- The number of pending entries. -/
def length (q : DistinctQueue α) : Nat := q.front.length + q.back.length

/-- Whether no entry is pending. -/
def isEmpty (q : DistinctQueue α) : Bool := q.front.isEmpty && q.back.isEmpty

/-- Whether an entry is pending. -/
def contains (q : DistinctQueue α) (p : α) : Bool := q.pending.contains p

/-- Adds an entry at the end, and tells whether it was new. -/
def push (q : DistinctQueue α) (p : α) : DistinctQueue α × Bool :=
  if q.contains p then (q, false)
  else ({ q with back := p :: q.back, pending := q.pending.insert p }, true)

/-- Adds entries one after the other, those that are new. -/
def extend (q : DistinctQueue α) (ps : List α) : DistinctQueue α :=
  ps.foldl (fun q p => (q.push p).1) q

/-- Takes out the oldest entry. -/
def pop? (q : DistinctQueue α) : Option (α × DistinctQueue α) :=
  match q.front with
  | p :: ps => some (p, { q with front := ps, pending := q.pending.erase p })
  | [] =>
      match q.back.reverse with
      | p :: ps => some (p, ⟨ps, [], q.pending.erase p⟩)
      | [] => none

/-! ## The queue as a list -/

variable (q : DistinctQueue α) (p : α)

@[simp] theorem toList_empty : (empty : DistinctQueue α).toList = [] := rfl

@[simp] theorem length_toList : q.toList.length = q.length := by
  simp [toList, length]

theorem isEmpty_iff : q.isEmpty = true ↔ q.toList = [] := by
  simp [isEmpty, toList]

/-- A new entry goes to the end; a pending one changes nothing. -/
theorem toList_push :
    (q.push p).1.toList = if q.contains p then q.toList else q.toList ++ [p] := by
  unfold push
  split
  · rfl
  · simp [toList]

/-- There is no entry to take out exactly when the queue is empty. -/
theorem pop?_eq_none_iff : q.pop? = none ↔ q.toList = [] := by
  rcases q with ⟨front, back, pending⟩
  cases front with
  | cons p ps => simp [pop?, toList]
  | nil =>
    cases h : back.reverse with
    | nil => simp [pop?, toList, h]
    | cons p ps => simp [pop?, toList, h]

variable {q p}

/-- Taking an entry out, decoded: it stood first, the others stay as they were, and the search tree
loses that entry. -/
theorem decode_pop? {r : DistinctQueue α} (h : q.pop? = some (p, r)) :
    q.toList = p :: r.toList ∧ r.pending = q.pending.erase p := by
  rcases q with ⟨front, back, pending⟩
  cases front with
  | cons p' ps =>
    simp only [pop?, Option.some.injEq, Prod.mk.injEq] at h
    obtain ⟨rfl, rfl⟩ := h
    exact ⟨rfl, rfl⟩
  | nil =>
    cases hb : back.reverse with
    | nil => simp [pop?, hb] at h
    | cons p' ps =>
      simp only [pop?, hb, Option.some.injEq, Prod.mk.injEq] at h
      obtain ⟨rfl, rfl⟩ := h
      exact ⟨by simp [toList, hb], rfl⟩

/-! ## Membership -/

@[simp] theorem contains_empty (p : α) : (empty : DistinctQueue α).contains p = false := by
  simp [contains, empty]

variable [DecidableEq α] [Std.TransOrd α] [Std.LawfulEqOrd α]

/-- After an entry is added it is pending, and so are those that were. -/
theorem contains_push (q : DistinctQueue α) (p r : α) :
    (q.push p).1.contains r = (decide (p = r) || q.contains r) := by
  unfold push
  split
  · by_cases h : p = r
    · subst h
      simp_all
    · simp [h]
  · simp only [contains, Std.TreeSet.contains_insert, Bool.beq_eq_decide_eq,
      Std.LawfulEqCmp.compare_eq_iff_eq]

/-- After an entry is taken out it is not pending; membership of the others is unchanged. -/
theorem contains_of_pop? {r : DistinctQueue α} (h : q.pop? = some (p, r)) (s : α) :
    r.contains s = (!decide (p = s) && q.contains s) := by
  simp only [contains, (decode_pop? h).2, Std.TreeSet.contains_erase, bne,
    Bool.beq_eq_decide_eq, Std.LawfulEqCmp.compare_eq_iff_eq]

end DistinctQueue

end PolyIdeal
