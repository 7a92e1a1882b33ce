import PolyIdeal.Proofs.Fault.Outcome

/-!
# Outcomes when there is room

`Yields room P x` says in one what `x` returns and when it fails: a result satisfies `P`, and the
only fault is an exponent past 32 bits, which is not reported if there is `room`. So with room there
is a result. The rules follow the ways in which steps are chained; the one for a fold carries an
invariant that may speak of the entries still to come.
-/

namespace PolyIdeal

variable {α β : Type} {room : Prop} {P : α → Prop} {Q : β → Prop} {x : Except Fault α}

/-- Returns something that satisfies `P`, or reports an overflow for want of `room`. -/
def Yields (room : Prop) (P : α → Prop) : Except Fault α → Prop
  | .ok a => P a
  | .error e => e = .exponentOverflow ∧ ¬ room

/-- With room there is a result. -/
theorem yields_iff : Yields room P x ↔
    OverflowOnly x ∧ (room → ∃ a, x = .ok a) ∧ ∀ a, x = .ok a → P a := by
  cases x with
  | ok a =>
    refine ⟨fun h => ⟨.of_eq_ok rfl, fun _ => ⟨a, rfl⟩, fun b hb => ?_⟩, fun h => h.2.2 a rfl⟩
    exact Except.ok.inj hb ▸ h
  | error e =>
    constructor
    · rintro ⟨rfl, hroom⟩
      exact ⟨.error, fun h => absurd h hroom, fun a ha => by cases ha⟩
    · rintro ⟨honly, hroom, -⟩
      refine ⟨honly e rfl, fun h => ?_⟩
      obtain ⟨a, ha⟩ := hroom h
      cases ha

namespace Yields

theorem of_eq_ok {a : α} (h : x = .ok a) (ha : P a) : Yields room P x := by
  rw [h]
  exact ha

/-- What is returned may be looked at again. -/
theorem mono {R : α → Prop} (h : Yields room P x) (hPR : ∀ a, x = .ok a → P a → R a) :
    Yields room R x := by
  cases x with
  | ok a => exact hPR a rfl h
  | error e => exact h

/-- What holds of every result need not be carried through the steps. -/
theorem of_forall_ok (hP : ∀ a, x = .ok a → P a) (h : Yields room (fun _ => True) x) :
    Yields room P x := h.mono fun a ha _ => hP a ha

/-- Less room leads to more faults. -/
theorem of_imp {room' : Prop} (h : Yields room P x) (hroom : room' → room) :
    Yields room' P x := by
  cases x with
  | ok a => exact h
  | error e => exact ⟨h.1, mt hroom h.2⟩

theorem bind {f : α → Except Fault β} (h : Yields room P x)
    (hf : ∀ a, x = .ok a → P a → Yields room Q (f a)) : Yields room Q (x >>= f) := by
  cases x with
  | ok a => exact hf a rfl h
  | error e => exact h

theorem mapM {f : α → Except Fault β} {xs : List α} (h : ∀ a ∈ xs, Yields room Q (f a)) :
    Yields room (fun ys => ∀ b ∈ ys, Q b) (xs.mapM f) := by
  induction xs with
  | nil => exact of_eq_ok rfl fun b hb => absurd hb List.not_mem_nil
  | cons a xs ih =>
    rw [List.mapM_cons]
    refine (h a List.mem_cons_self).bind fun b _ hb => ?_
    refine (ih fun c hc => h c (List.mem_cons_of_mem a hc)).bind fun bs _ hbs => ?_
    exact of_eq_ok rfl (List.forall_mem_cons.mpr ⟨hb, hbs⟩)

/-- The invariant of a fold speaks of the entries still to come. -/
theorem foldlM {f : β → α → Except Fault β} {I : List α → β → Prop} {xs : List α} {b : β}
    (step : ∀ a as c, I (a :: as) c → Yields room (I as) (f c a)) (hb : I xs b) :
    Yields room (I []) (xs.foldlM f b) := by
  induction xs generalizing b with
  | nil => exact of_eq_ok rfl hb
  | cons a as ih =>
    rw [List.foldlM_cons]
    exact (step a as b hb).bind fun c _ hc => ih hc

end Yields
end PolyIdeal
