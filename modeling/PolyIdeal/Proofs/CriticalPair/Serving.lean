import Mathlib.Data.Sym.Sym2
import PolyIdeal.Proofs.CriticalPair.Forming
import PolyIdeal.Proofs.CriticalPair.Pending

/-!
# The queue serves pairs in the order in which they came

From outside, the queue of pending pairs is a plain list: pairs go to its end unless they are in
it, and leave from its front. That the queue keeps its pairs in two halves and in a search tree
beside them cannot be told from any answer, whatever is asked and in whatever order. The step is
one call on a faithful queue, `serveList_id`; a run of calls follows by induction.

The queue takes pairs as they stand, and tells them apart by both positions and their order. A
question names two positions, in either order; it is refused if they are the same, and otherwise
looks for the pair that has the smaller one first. So the queue takes a pair and its reverse for
two, and only the one that ascends is found. As long as every pair that is handed over ascends, none
of this can happen, and pairs may be told apart by their positions alone: `serveList_ends`. Pairs
that have been formed by `Pair.of` ascend, and so do those that a completion queues, which makes its
queue one of these: `mirrors_ofAll`.
-/

namespace PolyIdeal

/-! ## Pairs without an order -/

namespace Pair

variable {a b : ℕ} {p q : Pair}

/-- The two positions of a pair, in no order. -/
def ends (p : Pair) : Sym2 ℕ := s(p.first, p.second)

/-- A pair is formed from its two positions, given in either order, and from no others. -/
theorem of_eq_ok_iff : of a b = .ok p ↔ p.first < p.second ∧ p.ends = s(a, b) := by
  obtain ⟨first, second⟩ := p
  unfold of ends
  rw [Sym2.eq_iff]
  split
  next h =>
    simp only [reduceCtorEq, false_iff]
    omega
  next h =>
    simp only [Except.ok.injEq, mk.injEq]
    omega

/-- No pair is formed from one position, and nothing else is refused. -/
theorem of_eq_error_iff : of a b = .error .equalPair ↔ a = b := by simp [of]

theorem of_comm (a b : ℕ) : of a b = of b a := by
  simp only [of, Nat.min_comm, Nat.max_comm, eq_comm]

/-- Pairs that ascend are told apart by their positions. -/
theorem eq_of_ends_eq (hp : p.first < p.second) (hq : q.first < q.second)
    (h : p.ends = q.ends) : p = q := by
  have hof : of q.first q.second = .ok p := of_eq_ok_iff.mpr ⟨hp, h⟩
  rw [of_eq_ok_iff.mpr ⟨hq, rfl⟩] at hof
  exact (Except.ok.inj hof).symm

theorem ends_mem_map_iff {l : List Pair} (hl : ∀ q ∈ l, q.first < q.second)
    (hp : p.first < p.second) : p.ends ∈ l.map ends ↔ p ∈ l := by
  refine ⟨fun h => ?_, List.mem_map_of_mem⟩
  obtain ⟨q, hq, hends⟩ := List.mem_map.mp h
  exact eq_of_ends_eq (hl q hq) hp hends ▸ hq

/-- The second positions ascend, and of two pairs with the same one the first positions do. -/
def Precedes (p q : Pair) : Prop := p.second < q.second ∨ p.second = q.second ∧ p.first < q.first

end Pair

namespace CriticalPair

theorem toPair_injective : Function.Injective toPair := fun _ _ => eq_of_toPair_eq

theorem map_toPair_of (a b : ℕ) : (of a b).map toPair = Pair.of a b := by
  rcases lt_trichotomy a b with h | rfl | h
  · simp [of, Pair.of, toPair, Except.map, h, h.ne, h.le]
  · simp [of, Pair.of, Except.map]
  · simp [of, Pair.of, toPair, Except.map, h, h.ne', h.le, h.not_gt]

theorem mem_map_toPair_iff {l : List CriticalPair} {p : Pair} :
    p ∈ l.map toPair ↔ ∃ h : p.first < p.second, ⟨p.first, p.second, h⟩ ∈ l := by
  rw [List.mem_map]
  constructor
  · rintro ⟨q, hq, rfl⟩
    exact ⟨q.low_lt_high, hq⟩
  · rintro ⟨h, hp⟩
    exact ⟨_, hp, rfl⟩

theorem pairwise_withEarlier (n : ℕ) :
    (withEarlier n).Pairwise fun p q => p.toPair.Precedes q.toPair := by
  unfold withEarlier
  exact List.pairwise_ofFn.mpr fun k l hkl => .inr ⟨rfl, hkl⟩

theorem pairwise_all (n : ℕ) : (all n).Pairwise fun p q => p.toPair.Precedes q.toPair := by
  induction n with
  | zero => exact .nil
  | succ n ih =>
    rw [all_succ]
    refine List.pairwise_append.mpr ⟨ih, pairwise_withEarlier n, fun p hp q hq => .inl ?_⟩
    rw [mem_all_iff] at hp
    rw [mem_withEarlier_iff] at hq
    exact hp.trans_eq hq.symm

end CriticalPair

namespace PositionQueue

open DistinctQueue

variable {q : PositionQueue} {p : Pair} {l ps : List Pair} {a b n : ℕ}

/-! ## The queue of all pairs -/

/-- The queue of all pairs, as a completion has it. -/
theorem mirrors_ofAll (n : ℕ) :
    Mirrors CriticalPair.toPair (PairQueue.ofAll n) (PositionQueue.ofAll n) :=
  Mirrors.extend ⟨faithful_empty, faithful_empty, rfl⟩ CriticalPair.toPair_injective _

/-- A completion's queue answers a question for two positions as this one does. -/
theorem joins_of_mirrors {r : PairQueue} (h : Mirrors CriticalPair.toPair r q) (a b : ℕ) :
    q.joins a b = r.joinsFormed a b := by
  unfold joins PairQueue.joinsFormed
  rw [← CriticalPair.map_toPair_of]
  cases CriticalPair.of a b with
  | error e => rfl
  | ok p => exact congrArg Except.ok (h.contains_eq CriticalPair.toPair_injective p)

theorem toList_ofAll (n : ℕ) :
    (ofAll n).toList = (CriticalPair.all n).map CriticalPair.toPair := by
  rw [(mirrors_ofAll n).toList_eq, PairQueue.toList_ofAll]

theorem mem_ofAll_iff : p ∈ (ofAll n).toList ↔ p.first < p.second ∧ p.second < n := by
  rw [toList_ofAll, CriticalPair.mem_map_toPair_iff]
  simp only [CriticalPair.mem_all_iff, exists_prop]

/-! ## Calls -/

/-- A call on a queue. -/
inductive Call where
  | push (p : Pair)
  | pop
  | extend (ps : List Pair)
  | contains (a b : ℕ)

/-- The pairs that a call hands over. -/
def Call.handed : Call → List Pair
  | .push p => [p]
  | .extend ps => ps
  | .pop => []
  | .contains _ _ => []

/-- The answer to a call. -/
inductive Answer where
  | pushed (new : Bool)
  | popped (p : Option Pair)
  | extended
  | contained (pending : Except Fault Bool)

/-- What the queue answers, and what is left of it. -/
def serve (q : PositionQueue) : Call → Answer × PositionQueue
  | .push p => (.pushed (q.push p).2, (q.push p).1)
  | .pop => (.popped (q.pop?.map Prod.fst), (q.pop?.map Prod.snd).getD q)
  | .extend ps => (.extended, q.extend ps)
  | .contains a b => (.contained (q.joins a b), q)

section Lists

variable {κ : Type} [DecidableEq κ]

/-- Puts a pair at the end of a list, unless one that is taken for the same is in it. -/
def enqueue (key : Pair → κ) (l : List Pair) (p : Pair) : List Pair :=
  if key p ∈ l.map key then l else l ++ [p]

/-- What a list of pairs would answer, served from the front, if pairs with the same key are taken
for the same. -/
def serveList (key : Pair → κ) (l : List Pair) : Call → Answer × List Pair
  | .push p => (.pushed (key p ∉ l.map key), enqueue key l p)
  | .pop => (.popped l.head?, l.tail)
  | .extend ps => (.extended, ps.foldl (enqueue key) l)
  | .contains a b => (.contained ((Pair.of a b).map fun p => key p ∈ l.map key), l)

end Lists

/-- Calls made one after the other: the answers, and what is left. -/
def serveAll {σ : Type} (serve : σ → Call → Answer × σ) : σ → List Call → List Answer × σ
  | s, [] => ([], s)
  | s, c :: cs =>
      let (answer, s) := serve s c
      let (answers, s) := serveAll serve s cs
      (answer :: answers, s)

/-- Calls may be made in two portions. -/
theorem serveAll_append {σ : Type} (serve : σ → Call → Answer × σ) (s : σ) (cs ds : List Call) :
    (serveAll serve s (cs ++ ds)).2 = (serveAll serve (serveAll serve s cs).2 ds).2 := by
  induction cs generalizing s with
  | nil => rfl
  | cons c cs ih => exact ih (serve s c).2

/-! ## One call: the queue as a list -/

theorem toList_push (h : q.Faithful) (p : Pair) :
    (q.push p).1.toList = enqueue id q.toList p := by
  rw [h.toList_push, enqueue, List.map_id, id]

theorem toList_extend (h : q.Faithful) (ps : List Pair) :
    (q.extend ps).toList = ps.foldl (enqueue id) q.toList := by
  unfold DistinctQueue.extend
  induction ps generalizing q with
  | nil => rfl
  | cons p ps ih => rw [List.foldl_cons, List.foldl_cons, ih (h.push p), toList_push h]

/-- A question for two positions looks for the pair that they form. -/
theorem joins_eq (h : q.Faithful) (a b : ℕ) :
    q.joins a b = (Pair.of a b).map fun p => decide (p ∈ q.toList) := by
  unfold joins
  cases Pair.of a b with
  | error e => rfl
  | ok p => exact congrArg Except.ok (h.contains_eq p)

theorem joins_comm (q : PositionQueue) (a b : ℕ) : q.joins a b = q.joins b a := by
  unfold joins
  rw [Pair.of_comm]

/-- One call: the queue answers as the list of its pairs does, is left with the list that the list
would be left with, and keeps list and tree in agreement. -/
theorem serveList_id (h : q.Faithful) (c : Call) : (q.serve c).2.Faithful ∧
    serveList id q.toList c = ((q.serve c).1, (q.serve c).2.toList) := by
  cases c with
  | push p =>
    refine ⟨h.push p, ?_⟩
    rw [serve, serveList, h.push_snd, toList_push h, List.map_id, id]
  | pop =>
    rw [serve, serveList]
    cases hpop : q.pop? with
    | none =>
      refine ⟨h, ?_⟩
      rw [Option.map_none, Option.map_none, Option.getD_none, (pop?_eq_none_iff q).mp hpop]
      rfl
    | some next =>
      obtain ⟨p, r⟩ := next
      refine ⟨h.rest hpop, ?_⟩
      rw [(decode_pop? hpop).1]
      rfl
  | extend ps =>
    refine ⟨h.extend ps, ?_⟩
    rw [serve, serveList, toList_extend h]
  | contains a b =>
    refine ⟨h, ?_⟩
    rw [serve, serveList, joins_eq h, List.map_id]
    rfl

/-- Any calls. -/
theorem serveAll_id (h : q.Faithful) (cs : List Call) :
    (serveAll serve q cs).2.Faithful ∧ serveAll (serveList id) q.toList cs =
      ((serveAll serve q cs).1, (serveAll serve q cs).2.toList) := by
  induction cs generalizing q with
  | nil => exact ⟨h, rfl⟩
  | cons c cs ih =>
    obtain ⟨hnext, hcall⟩ := serveList_id h c
    obtain ⟨hend, hcalls⟩ := ih hnext
    refine ⟨hend, ?_⟩
    simp only [serveAll, hcall, hcalls]

/-! ## One call: pairs that ascend -/

theorem enqueue_ends (hl : ∀ q ∈ l, q.first < q.second) (hp : p.first < p.second) :
    enqueue Pair.ends l p = enqueue id l p ∧ ∀ q ∈ enqueue id l p, q.first < q.second := by
  unfold enqueue
  simp only [Pair.ends_mem_map_iff hl hp, List.map_id, id, true_and]
  intro q hq
  split at hq
  next => exact hl q hq
  next =>
    rcases List.mem_append.mp hq with hq | hq
    · exact hl q hq
    · exact List.mem_singleton.mp hq ▸ hp

theorem foldl_enqueue_ends (hl : ∀ q ∈ l, q.first < q.second)
    (hps : ∀ p ∈ ps, p.first < p.second) :
    ps.foldl (enqueue Pair.ends) l = ps.foldl (enqueue id) l ∧
      ∀ q ∈ ps.foldl (enqueue id) l, q.first < q.second := by
  induction ps generalizing l with
  | nil => exact ⟨rfl, hl⟩
  | cons p ps ih =>
    obtain ⟨hp, hps⟩ := List.forall_mem_cons.mp hps
    obtain ⟨heq, hnext⟩ := enqueue_ends hl hp
    rw [List.foldl_cons, List.foldl_cons, heq]
    exact ih hnext hps

/-- One call: a list of pairs that ascend, given pairs that ascend, need not tell a pair from its
reverse, and is left with pairs that ascend. -/
theorem serveList_ends (hl : ∀ q ∈ l, q.first < q.second) (c : Call)
    (hc : ∀ p ∈ c.handed, p.first < p.second) :
    serveList Pair.ends l c = serveList id l c ∧
      ∀ q ∈ (serveList id l c).2, q.first < q.second := by
  cases c with
  | push p =>
    have hp : p.first < p.second := hc p List.mem_cons_self
    obtain ⟨heq, hnext⟩ := enqueue_ends hl hp
    refine ⟨?_, hnext⟩
    simp only [serveList, heq, Pair.ends_mem_map_iff hl hp, List.map_id, id]
  | pop => exact ⟨rfl, fun q hq => hl q (List.mem_of_mem_tail hq)⟩
  | extend ps =>
    obtain ⟨heq, hnext⟩ := foldl_enqueue_ends hl hc
    exact ⟨congrArg (Prod.mk _) heq, hnext⟩
  | contains a b =>
    refine ⟨?_, hl⟩
    simp only [serveList, List.map_id, id]
    cases hof : Pair.of a b with
    | error e => rfl
    | ok p =>
      have hp := (Pair.of_eq_ok_iff.mp hof).1
      simp only [Except.map, Pair.ends_mem_map_iff hl hp]

/-- Any calls. -/
theorem serveAll_ends (hl : ∀ q ∈ l, q.first < q.second) (cs : List Call)
    (hcs : ∀ c ∈ cs, ∀ p ∈ c.handed, p.first < p.second) :
    serveAll (serveList Pair.ends) l cs = serveAll (serveList id) l cs ∧
      ∀ q ∈ (serveAll (serveList id) l cs).2, q.first < q.second := by
  induction cs generalizing l with
  | nil => exact ⟨rfl, hl⟩
  | cons c cs ih =>
    obtain ⟨hc, hcs⟩ := List.forall_mem_cons.mp hcs
    obtain ⟨heq, hnext⟩ := serveList_ends hl c hc
    obtain ⟨heqs, hend⟩ := ih hnext hcs
    refine ⟨?_, hend⟩
    simp only [serveAll, heq, heqs]

/-! ## First in, first out -/

/-- What calls on a queue come to, and what is left of it, if pairs with the same key are taken for
the same. -/
structure ServesInOrder {κ : Type} [DecidableEq κ] (key : Pair → κ) (q : PositionQueue)
    (cs : List Call) : Prop where
  /-- The answers are those of the list of its pairs, -/
  answers : (serveAll serve q cs).1 = (serveAll (serveList key) q.toList cs).1
  /-- and the pairs that are left are those that are left in the list. -/
  toList : (serveAll serve q cs).2.toList = (serveAll (serveList key) q.toList cs).2
  /-- The search tree has exactly the pairs that are queued, -/
  pending : ∀ p, (serveAll serve q cs).2.pending.contains p = true ↔
    p ∈ (serveAll serve q cs).2.toList
  /-- no two of which are taken for the same. -/
  nodup : ((serveAll serve q cs).2.toList.map key).Nodup
  length : (serveAll serve q cs).2.length = (serveAll serve q cs).2.toList.length
  /-- A question is answered alike in either order of the two positions. -/
  comm : ∀ a b, (serveAll serve q cs).2.joins a b = (serveAll serve q cs).2.joins b a

/-- Told apart as they stand, pairs are served in order. -/
theorem servesInOrder_id (h : q.Faithful) (cs : List Call) : ServesInOrder id q cs := by
  obtain ⟨hend, hcalls⟩ := serveAll_id h cs
  constructor
  case answers => rw [hcalls]
  case toList => rw [hcalls]
  case pending => exact fun p => hend.mem_toList_iff.symm
  case nodup => exact (List.map_id _).symm ▸ hend.nodup
  case length => exact (length_toList _).symm
  case comm => exact joins_comm _

/-- Told apart by their positions, pairs are served in order if all of them ascend. -/
theorem servesInOrder_ends (h : q.Faithful) (hq : ∀ p ∈ q.toList, p.first < p.second)
    (cs : List Call) (hcs : ∀ c ∈ cs, ∀ p ∈ c.handed, p.first < p.second) :
    ServesInOrder Pair.ends q cs := by
  have hall := servesInOrder_id h cs
  obtain ⟨heq, hend⟩ := serveAll_ends hq cs hcs
  rw [← hall.toList] at hend
  constructor
  case answers => rw [heq, hall.answers]
  case toList => rw [heq, hall.toList]
  case pending => exact hall.pending
  case nodup =>
    have hnodup := hall.nodup
    rw [List.map_id] at hnodup
    exact hnodup.map_on fun p hp s hs => Pair.eq_of_ends_eq (hend p hp) (hend s hs)
  case length => exact hall.length
  case comm => exact hall.comm

/-- Whatever is asked of an empty queue or of the queue of all pairs, it answers like a list of
pairs without repetitions that is filled at the end and served from the front. Pairs are told apart
as they stand; if all that are handed over have the smaller position first, then by their two
positions. The queue of all pairs starts with each pair of `n` generators once, by the larger
position and then by the smaller one. `Pair.of` puts two positions in order, and refuses one
position given twice. -/
theorem servesInOrder_of_start :
    (∀ cs, ServesInOrder id empty cs ∧ ∀ n, ServesInOrder id (ofAll n) cs) ∧
      (∀ cs : List Call, (∀ c ∈ cs, ∀ p ∈ c.handed, p.first < p.second) →
        ServesInOrder Pair.ends empty cs ∧ ∀ n, ServesInOrder Pair.ends (ofAll n) cs) ∧
        empty.toList = [] ∧
          (∀ n p, (ofAll n).toList.count p = if p.first < p.second ∧ p.second < n then 1 else 0) ∧
            (∀ n, (ofAll n).toList.Pairwise Pair.Precedes) ∧
              ∀ a b, (Pair.of a b = .error .equalPair ↔ a = b) ∧
                ∀ p, Pair.of a b = .ok p ↔ p.first < p.second ∧ p.ends = s(a, b) := by
  have hall : ∀ n, (ofAll n).Faithful := fun n => (mirrors_ofAll n).image
  refine ⟨fun cs => ⟨servesInOrder_id faithful_empty cs, fun n => servesInOrder_id (hall n) cs⟩,
    fun cs hcs => ⟨servesInOrder_ends faithful_empty (by simp) cs hcs, fun n =>
      servesInOrder_ends (hall n) (fun p hp => (mem_ofAll_iff.mp hp).1) cs hcs⟩,
    rfl, fun n p => ?_, fun n => ?_, fun a b => ⟨Pair.of_eq_error_iff, fun p => Pair.of_eq_ok_iff⟩⟩
  · split
    next hp => exact List.count_eq_one_of_mem (hall n).nodup (mem_ofAll_iff.mpr hp)
    next hp => exact List.count_eq_zero.mpr fun hmem => hp (mem_ofAll_iff.mp hmem)
  · rw [toList_ofAll]
    exact List.pairwise_map.mpr (CriticalPair.pairwise_all n)

/-- A pair that has left is not pending, and can be queued again, behind the others. -/
theorem servesInOrder_requeued :
    (∀ c ∈ [Call.contains 2 0, .pop, .contains 0 1, .push ⟨0, 1⟩, .contains 1 0, .contains 1 1,
      .extend [⟨0, 2⟩, ⟨3, 4⟩], .pop, .pop, .pop, .pop, .pop],
        ∀ p ∈ c.handed, p.first < p.second) ∧
      ServesInOrder Pair.ends (ofAll 3) [.contains 2 0, .pop, .contains 0 1, .push ⟨0, 1⟩,
        .contains 1 0, .contains 1 1, .extend [⟨0, 2⟩, ⟨3, 4⟩], .pop, .pop, .pop, .pop, .pop] ∧
      (serveAll serve (ofAll 3) [.contains 2 0, .pop, .contains 0 1, .push ⟨0, 1⟩,
        .contains 1 0, .contains 1 1, .extend [⟨0, 2⟩, ⟨3, 4⟩], .pop, .pop, .pop, .pop, .pop]).1 =
        [.contained (.ok true), .popped (some ⟨0, 1⟩), .contained (.ok false), .pushed true,
          .contained (.ok true), .contained (.error .equalPair), .extended,
          .popped (some ⟨0, 2⟩), .popped (some ⟨1, 2⟩), .popped (some ⟨0, 1⟩),
          .popped (some ⟨3, 4⟩), .popped none] := by
  refine ⟨by decide, (servesInOrder_of_start.2.1 _ (by decide)).2 3, by rfl⟩

/-- A pair with the larger position first is queued as it stands. No question finds it, its reverse
is queued beside it, and the two positions are then pending twice. Nor is there an answer to a
question for one position given twice. -/
theorem not_servesInOrder_reversed :
    (serveAll serve empty [.push ⟨3, 1⟩, .contains 3 1, .contains 1 3, .push ⟨1, 3⟩]).1 =
        [.pushed true, .contained (.ok false), .contained (.ok false), .pushed true] ∧
      (serveAll serve empty [.push ⟨3, 1⟩, .contains 3 1, .contains 1 3, .push ⟨1, 3⟩]).2.toList =
        [⟨3, 1⟩, ⟨1, 3⟩] ∧
      Pair.ends ⟨3, 1⟩ = Pair.ends ⟨1, 3⟩ ∧
      ¬ ServesInOrder Pair.ends empty
        [.push ⟨3, 1⟩, .contains 3 1, .contains 1 3, .push ⟨1, 3⟩] ∧
      (serve empty (.contains 1 1)).1 = .contained (.error .equalPair) := by
  have hlist : (serveAll serve empty
      [.push ⟨3, 1⟩, .contains 3 1, .contains 1 3, .push ⟨1, 3⟩]).2.toList =
        [⟨3, 1⟩, ⟨1, 3⟩] := by rfl
  have hends : Pair.ends ⟨3, 1⟩ = Pair.ends ⟨1, 3⟩ := Sym2.eq_swap
  refine ⟨by rfl, hlist, hends, fun h => ?_, by rfl⟩
  have hnodup := h.nodup
  rw [hlist, List.map_cons, List.map_singleton, hends] at hnodup
  exact (List.nodup_cons.mp hnodup).1 List.mem_cons_self

end PositionQueue

end PolyIdeal
