import PolyIdeal.Proofs.Completion.History
import PolyIdeal.Proofs.CriticalPair.Serving

/-!
# The queue of a completion serves pairs in order

A worklist makes two kinds of calls on its queue that change it: it takes out the oldest pair, and
it queues the pairs of a new generator. The pairs that it hands over ascend, as all critical pairs
do. So the condition under which pairs of positions are served in order, whatever the order of the
two, is met by every run: `queue_after`.
-/

namespace PolyIdeal.Worklist

open PositionQueue
open DistinctQueue (Mirrors)

variable {K : Type} {w w' : Worklist K} {pair : CriticalPair} {queue : PairQueue}
  {added : List (Polynomial K)} {q : PositionQueue}

/-- A step that takes a pair makes two calls, and hands over pairs that ascend. -/
theorem Pops.exists_calls (h : Pops w w' pair queue added)
    (hq : Mirrors CriticalPair.toPair w.queue q) :
    ∃ cs : List Call, (∀ c ∈ cs, ∀ p ∈ c.handed, p.first < p.second) ∧
      Mirrors CriticalPair.toPair w'.queue (serveAll serve q cs).2 := by
  let new := added.flatMap fun _ => CriticalPair.withEarlier w.basis.size
  refine ⟨[.pop, .extend (new.map CriticalPair.toPair)], fun c hc p hp => ?_, ?_⟩
  · rcases List.mem_pair.mp hc with rfl | rfl
    · exact absurd hp List.not_mem_nil
    · obtain ⟨hlt, -⟩ := CriticalPair.mem_map_toPair_iff.mp hp
      exact hlt
  · obtain ⟨hnone, -⟩ | ⟨p, r, r', hpop, hpop', hrest⟩ := hq.pop
    · rw [h.pop] at hnone
      cases hnone
    · obtain ⟨rfl, rfl⟩ := Prod.mk.inj (Option.some.inj (h.pop.symm.trans hpop))
      have hcalls : (serveAll serve q [.pop, .extend (new.map CriticalPair.toPair)]).2 =
          r'.extend (new.map CriticalPair.toPair) := by
        simp only [serveAll, serve, hpop', Option.map_some, Option.getD_some]
      rw [hcalls, h.queue_eq]
      exact hrest.extend CriticalPair.toPair_injective new

variable [Scalar K]

/-- What a worklist has queued after any number of steps is what some calls leave of the queue of
all pairs. All pairs that they hand over ascend, so they are served in order, and questions for two
positions are answered alike. -/
theorem queue_after (settings : Settings) (b : Basis K) (t : ℕ) : ∃ cs : List Call,
    (∀ c ∈ cs, ∀ p ∈ c.handed, p.first < p.second) ∧ ServesInOrder Pair.ends (ofAll b.size) cs ∧
      Mirrors CriticalPair.toPair ((start settings b).after t).queue
        (serveAll serve (ofAll b.size) cs).2 ∧
      ∀ i j, (serveAll serve (ofAll b.size) cs).2.joins i j =
        ((start settings b).after t).queue.joinsFormed i j := by
  have hcalls : ∃ cs : List Call, (∀ c ∈ cs, ∀ p ∈ c.handed, p.first < p.second) ∧
      Mirrors CriticalPair.toPair ((start settings b).after t).queue
        (serveAll serve (ofAll b.size) cs).2 := by
    induction t with
    | zero => exact ⟨[], fun c hc => absurd hc List.not_mem_nil, mirrors_ofAll b.size⟩
    | succ t ih =>
      obtain ⟨cs, hcs, hmirrors⟩ := ih
      rcases after_cases (start settings b) t with ⟨-, hsame⟩ | ⟨pair, queue, added, hpops⟩
      · exact ⟨cs, hcs, hsame.symm ▸ hmirrors⟩
      · obtain ⟨ds, hds, hnext⟩ := hpops.exists_calls hmirrors
        refine ⟨cs ++ ds, List.forall_mem_append.mpr ⟨hcs, hds⟩, ?_⟩
        rw [serveAll_append]
        exact hnext
  obtain ⟨cs, hcs, hmirrors⟩ := hcalls
  refine ⟨cs, hcs, ?_, hmirrors, joins_of_mirrors hmirrors⟩
  exact servesInOrder_ends (mirrors_ofAll b.size).image
    (fun p hp => (mem_ofAll_iff.mp hp).1) cs hcs

end PolyIdeal.Worklist
