import Mathlib.Data.List.Basic
import Mathlib.Data.List.Nodup
import PolyIdeal.DistinctQueue

/-!
# What is pending in a queue of distinct entries

The search tree answers whether an entry is pending, the list says which entry is next.
`DistinctQueue.Listed` says that every entry in the tree is in the list; so a queue whose list has
run empty has nothing pending. `DistinctQueue.Faithful` says that list and tree hold the same
entries, each once; so the entry that leaves is not pending any more, and cannot leave a second time
unless it is queued again. Entries that are not pending yet go to the end in the order in which they
are given: `toList_extend`.

What a faithful queue answers is told by its list. So a queue that holds the images of what another
one holds, under a map that confuses no entries, does at every call what the other one does:
`Mirrors`.
-/

namespace PolyIdeal.DistinctQueue

section Agreement

variable {α : Type} [Ord α] {q r : DistinctQueue α} {p s : α} {ps : List α}

/-- Every entry in the search tree is in the list. -/
def Listed (q : DistinctQueue α) : Prop := ∀ p, q.contains p = true → p ∈ q.toList

/-- The list holds the entries of the search tree, each once. -/
structure Faithful (q : DistinctQueue α) : Prop where
  mem_toList_iff : ∀ {p}, p ∈ q.toList ↔ q.contains p = true
  nodup : q.toList.Nodup

theorem listed_empty : (empty : DistinctQueue α).Listed := fun p hp => by
  rw [contains_empty] at hp
  cases hp

theorem faithful_empty : (empty : DistinctQueue α).Faithful where
  mem_toList_iff := by simp
  nodup := List.nodup_nil

/-- When no entry can be taken out, none is pending. -/
theorem Listed.not_contains (h : q.Listed) (hpop : q.pop? = none) (p : α) :
    q.contains p = false := by
  refine Bool.eq_false_iff.mpr fun hp => ?_
  have hmem := h p hp
  rw [(pop?_eq_none_iff q).mp hpop] at hmem
  exact absurd hmem List.not_mem_nil

/-- The entry that leaves was pending. -/
theorem Faithful.contains_first (h : q.Faithful) (hpop : q.pop? = some (p, r)) :
    q.contains p = true := by
  rw [← h.mem_toList_iff, (decode_pop? hpop).1]
  exact List.mem_cons_self

/-! ## The length of a queue -/

/-- The entry that leaves is one less. -/
theorem length_of_pop? (h : q.pop? = some (p, r)) : q.length = r.length + 1 := by
  rw [← length_toList, ← length_toList, (decode_pop? h).1, List.length_cons]

/-- A queue grows by no more than the entries that it is given. -/
theorem length_extend_le (q : DistinctQueue α) (ps : List α) :
    (q.extend ps).length ≤ q.length + ps.length := by
  unfold extend
  induction ps generalizing q with
  | nil => exact Nat.le_refl _
  | cons p ps ih =>
    have hpush : (q.push p).1.length ≤ q.length + 1 := by
      rw [← length_toList, ← length_toList, toList_push]
      split
      · exact Nat.le_succ _
      · exact Nat.le_of_eq List.length_append
    have hrest := ih (q.push p).1
    rw [List.foldl_cons, List.length_cons]
    omega

/-! ## What each operation leaves pending -/

variable [DecidableEq α] [Std.TransOrd α] [Std.LawfulEqOrd α]

/-- The entries that are given become pending, and those that were stay so. -/
theorem contains_extend : (q.extend ps).contains s = true ↔ s ∈ ps ∨ q.contains s = true := by
  unfold extend
  induction ps generalizing q with
  | nil => simp
  | cons p ps ih =>
    rw [List.foldl_cons, ih, contains_push, List.mem_cons, Bool.or_eq_true, decide_eq_true_eq]
    constructor
    · rintro (h | h | h)
      · exact .inl (.inr h)
      · exact .inl (.inl h.symm)
      · exact .inr h
    · rintro ((h | h) | h)
      · exact .inr (.inl h.symm)
      · exact .inl h
      · exact .inr (.inr h)

/-- An entry other than the one taken out is pending if it was. -/
theorem contains_rest (h : q.pop? = some (p, r)) :
    r.contains s = true ↔ s ≠ p ∧ q.contains s = true := by
  rw [contains_of_pop? h, Bool.and_eq_true, Bool.not_eq_true', decide_eq_false_iff_not]
  exact and_congr_left fun _ => ne_comm

/-! ## Pending entries stay listed -/

/-- A new entry is listed at the end. -/
theorem Listed.push (h : q.Listed) (p : α) : (q.push p).1.Listed := fun s hs => by
  rw [contains_push, Bool.or_eq_true, decide_eq_true_eq] at hs
  rw [toList_push]
  split
  next hp => exact hs.elim (fun hps => h s (hps ▸ hp)) (h s)
  next =>
    rcases hs with rfl | hs
    · exact List.mem_append_right _ List.mem_cons_self
    · exact List.mem_append_left _ (h s hs)

theorem Listed.extend (h : q.Listed) (ps : List α) : (q.extend ps).Listed := by
  unfold DistinctQueue.extend
  induction ps generalizing q with
  | nil => exact h
  | cons p ps ih => exact ih (h.push p)

/-- The entry that leaves the list leaves the tree. -/
theorem Listed.rest (h : q.Listed) (hpop : q.pop? = some (p, r)) : r.Listed := fun s hs => by
  obtain ⟨hne, hs⟩ := (contains_rest hpop).mp hs
  have hmem := h s hs
  rw [(decode_pop? hpop).1] at hmem
  exact (List.mem_cons.mp hmem).resolve_left hne

/-! ## List and tree go on to hold the same entries -/

/-- A new entry goes to both, a pending one to neither. -/
theorem Faithful.push (h : q.Faithful) (p : α) : (q.push p).1.Faithful := by
  have hmem : ∀ {s}, s ∈ (q.push p).1.toList ↔ (q.push p).1.contains s = true := by
    intro s
    rw [contains_push, Bool.or_eq_true, decide_eq_true_eq, toList_push]
    split
    next hp =>
      rw [h.mem_toList_iff]
      exact ⟨.inr, fun hs => hs.elim (fun hps => hps ▸ hp) id⟩
    next => rw [List.mem_append, List.mem_singleton, h.mem_toList_iff, or_comm, eq_comm]
  refine ⟨hmem, ?_⟩
  rw [toList_push]
  split
  next => exact h.nodup
  next hp =>
    refine List.nodup_append.mpr ⟨h.nodup, List.pairwise_singleton _ p, fun s hs t ht hst => ?_⟩
    rw [hst, List.mem_singleton.mp ht] at hs
    exact hp (h.mem_toList_iff.mp hs)

theorem Faithful.extend (h : q.Faithful) (ps : List α) : (q.extend ps).Faithful := by
  unfold DistinctQueue.extend
  induction ps generalizing q with
  | nil => exact h
  | cons p ps ih => exact ih (h.push p)

/-- The entry that leaves is nowhere else in the list. -/
theorem Faithful.rest (h : q.Faithful) (hpop : q.pop? = some (p, r)) : r.Faithful := by
  have hlist := (decode_pop? hpop).1
  have hnodup := h.nodup
  rw [hlist, List.nodup_cons] at hnodup
  refine ⟨fun {s} => ?_, hnodup.2⟩
  rw [contains_rest hpop, ← h.mem_toList_iff, hlist, List.mem_cons]
  constructor
  · exact fun hs => ⟨fun hsp => hnodup.1 (hsp ▸ hs), .inr hs⟩
  · exact fun ⟨hne, hs⟩ => hs.resolve_left hne

/-- Entries that are not pending go to the end, in order. -/
theorem toList_extend (hps : ps.Nodup) (h : ∀ p ∈ ps, q.contains p = false) :
    (q.extend ps).toList = q.toList ++ ps := by
  unfold extend
  induction ps generalizing q with
  | nil => exact (List.append_nil _).symm
  | cons p ps ih =>
    obtain ⟨hp, hrest⟩ := List.forall_mem_cons.mp h
    obtain ⟨hnot, hnodup⟩ := List.nodup_cons.mp hps
    have hfresh : ∀ s ∈ ps, (q.push p).1.contains s = false := by
      intro s hs
      rw [contains_push, hrest s hs, Bool.or_false, decide_eq_false_iff_not]
      rintro rfl
      exact hnot hs
    rw [List.foldl_cons, ih hnodup hfresh, toList_push, hp, if_neg Bool.false_ne_true,
      List.append_assoc]
    rfl

/-! ## The list tells the answers -/

omit [Std.TransOrd α] [Std.LawfulEqOrd α]

/-- An entry is pending if the list has it. -/
theorem Faithful.contains_eq (h : q.Faithful) (p : α) :
    q.contains p = decide (p ∈ q.toList) := by
  rw [Bool.eq_iff_iff, decide_eq_true_eq, h.mem_toList_iff]

/-- An entry goes to the end of a list that does not have it. -/
theorem Faithful.toList_push (h : q.Faithful) (p : α) :
    (q.push p).1.toList = if p ∈ q.toList then q.toList else q.toList ++ [p] := by
  rw [DistinctQueue.toList_push, h.contains_eq]
  simp only [decide_eq_true_eq]

/-- An entry is new if the list does not have it. -/
theorem Faithful.push_snd (h : q.Faithful) (p : α) :
    (q.push p).2 = decide (p ∉ q.toList) := by
  unfold DistinctQueue.push
  rw [h.contains_eq]
  split
  next hp => simpa using hp
  next hp => simpa using hp

end Agreement

/-! ## Queues of images -/

section Mirrors

variable {α β : Type} [Ord α] [Ord β] {f : α → β} {q : DistinctQueue α} {r : DistinctQueue β}

/-- The second queue holds the images of what the first one holds, in the same order. -/
structure Mirrors (f : α → β) (q : DistinctQueue α) (r : DistinctQueue β) : Prop where
  source : q.Faithful
  image : r.Faithful
  toList_eq : r.toList = q.toList.map f

variable [DecidableEq α] [Std.TransOrd α] [Std.LawfulEqOrd α]
variable [DecidableEq β] [Std.TransOrd β] [Std.LawfulEqOrd β]

omit [Std.TransOrd α] [Std.LawfulEqOrd α] [Std.TransOrd β] [Std.LawfulEqOrd β] in
/-- Images are asked for with the same answers. -/
theorem Mirrors.contains_eq (h : Mirrors f q r) (hf : Function.Injective f) (p : α) :
    r.contains (f p) = q.contains p := by
  rw [h.image.contains_eq, h.source.contains_eq, h.toList_eq]
  simp only [List.mem_map_of_injective hf]

/-- The image of a new entry is new, and goes to the end as the entry does. -/
theorem Mirrors.push (h : Mirrors f q r) (hf : Function.Injective f) (p : α) :
    (r.push (f p)).2 = (q.push p).2 ∧ Mirrors f (q.push p).1 (r.push (f p)).1 := by
  refine ⟨?_, h.source.push p, h.image.push (f p), ?_⟩
  · rw [h.image.push_snd, h.source.push_snd, h.toList_eq]
    simp only [List.mem_map_of_injective hf]
  · rw [DistinctQueue.toList_push, DistinctQueue.toList_push, h.contains_eq hf, h.toList_eq]
    split
    · rfl
    · rw [List.map_append, List.map_singleton]

theorem Mirrors.extend (h : Mirrors f q r) (hf : Function.Injective f) (ps : List α) :
    Mirrors f (q.extend ps) (r.extend (ps.map f)) := by
  unfold DistinctQueue.extend
  rw [List.foldl_map]
  induction ps generalizing q r with
  | nil => exact h
  | cons p ps ih => exact ih (h.push hf p).2

/-- Either both queues are empty, or an entry leaves the one and its image leaves the other. -/
theorem Mirrors.pop (h : Mirrors f q r) : q.pop? = none ∧ r.pop? = none ∨
    ∃ p q' r', q.pop? = some (p, q') ∧ r.pop? = some (f p, r') ∧ Mirrors f q' r' := by
  cases hq : q.pop? with
  | none =>
    refine .inl ⟨rfl, ?_⟩
    rw [pop?_eq_none_iff, h.toList_eq, (pop?_eq_none_iff q).mp hq, List.map_nil]
  | some next =>
    obtain ⟨p, q'⟩ := next
    have hlist := h.toList_eq
    rw [(decode_pop? hq).1, List.map_cons] at hlist
    cases hr : r.pop? with
    | none =>
      rw [(pop?_eq_none_iff r).mp hr] at hlist
      cases hlist
    | some next' =>
      obtain ⟨s, r'⟩ := next'
      rw [(decode_pop? hr).1, List.cons.injEq] at hlist
      obtain ⟨rfl, hrest⟩ := hlist
      exact .inr ⟨p, q', r', rfl, rfl, h.source.rest hq, h.image.rest hr, hrest⟩

end Mirrors

end PolyIdeal.DistinctQueue
