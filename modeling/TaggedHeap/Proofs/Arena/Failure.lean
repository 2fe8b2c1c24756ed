import TaggedHeap.Proofs.Arena.Accounting

/-!
# Requests that fail

A request that fails leaves nothing behind but its records in the log, and nothing that is done later
depends on the log. So the requests that fail can be left out of a run and nobody will notice: the
others get the same answers, at the same places of the same chunks.
-/

namespace TaggedHeap

namespace Heap

open Exchange

def fails (h : Heap) : Event → Bool
  | .request r => !(h.exchange r).succeeded
  | _ => false

/-- The events without the requests that fail when all of them happen in turn. -/
def withoutFailures (h : Heap) : List Event → List Event
  | [] => []
  | e :: es =>
    if h.fails e then (h.step e).withoutFailures es else e :: (h.step e).withoutFailures es

section Plain

variable {h : Heap} (hd : h.discipline = .plain)
include hd

/-! ## The log is not looked at -/

theorem step_congr {g : Heap} (hs : g.silent = h.silent) (e : Event) :
    (g.step e).silent = (h.step e).silent ∧ g.exchange? e = h.exchange? e := by
  have hg : g.discipline = .plain := (congrArg discipline hs).trans hd
  obtain ⟨arena, discipline, roots, log⟩ := g
  obtain ⟨arena', discipline', roots', log'⟩ := h
  simp only [silent, mk.injEq, and_true] at hs
  obtain ⟨rfl, rfl, rfl⟩ := hs
  cases e with
  | request r =>
    simp only [step, exchange?, exchange_eq hg, exchange_eq hd, serve_eq hg, serve_eq hd]
    cases arena.reserve r <;> exact ⟨rfl, rfl⟩
  | store address w =>
    simp only [step, memory]
    cases arena.memory.write address w <;> exact ⟨rfl, rfl⟩
  | withRoots roots => exact ⟨rfl, rfl⟩

theorem follow_congr {g : Heap} (hs : g.silent = h.silent) (es : List Event) :
    g.exchanges es = h.exchanges es ∧ (g.follow es).silent = (h.follow es).silent := by
  induction es generalizing g h with
  | nil => exact ⟨rfl, hs⟩
  | cons e es ih =>
    obtain ⟨hstep, hex⟩ := step_congr hd hs e
    obtain ⟨hexs, hfollow⟩ := ih (step_plain hd e) hstep
    refine ⟨?_, hfollow⟩
    rw [exchanges, exchanges, hex, hexs]

/-! ## A request that fails -/

/-- Step by step a request comes to the same as at once. -/
theorem run_carryOut_exchange (hb : h.arena.Balanced) (r : Request) :
    (Arena.carryOut r).run (h.exchange r).before.arena =
      match (h.exchange r).answer with
      | .ok x => .ok x (h.exchange r).after.arena
      | .error e => .error e (h.exchange r).before.arena := by
  have hrun := Arena.run_carryOut hb r
  rw [exchange_eq hd]
  cases hr : h.arena.reserve r <;> rw [hr] at hrun <;> exact hrun

theorem after_eq_before {r : Request} {e : Fault} (he : (h.exchange r).answer = .error e) :
    (h.exchange r).after = (h.exchange r).before := by
  rw [exchange_eq hd] at *
  cases hr : h.arena.reserve r with
  | ok v => simp [hr] at he
  | error e' => rfl

theorem step_of_fails {e : Event} (he : h.fails e = true) :
    (h.step e).silent = h.silent ∧ (h.exchange? e).toList.filter succeeded = [] := by
  cases e with
  | request r =>
    rw [fails, exchange_eq hd] at he
    rw [step, exchange?, exchange_eq hd, serve_eq hd]
    cases hr : h.arena.reserve r with
    | ok v => simp [hr, succeeded] at he
    | error e' => exact ⟨rfl, rfl⟩
  | store address w => cases he
  | withRoots roots => cases he

omit hd in
theorem filter_exchange? {e : Event} (he : h.fails e = false) :
    (h.exchange? e).toList.filter succeeded = (h.exchange? e).toList := by
  cases e with
  | request r => simpa [fails, exchange?] using he
  | store address w => rfl
  | withRoots roots => rfl

theorem follow_withoutFailures (es : List Event) :
    h.exchanges (h.withoutFailures es) = (h.exchanges es).filter succeeded ∧
      (h.follow (h.withoutFailures es)).silent = (h.follow es).silent := by
  induction es generalizing h with
  | nil => exact ⟨rfl, rfl⟩
  | cons e es ih =>
    obtain ⟨hexs, hfollow⟩ := ih (step_plain hd e)
    rw [withoutFailures, exchanges, List.filter_append]
    cases he : h.fails e with
    | true =>
      obtain ⟨hstep, hnone⟩ := step_of_fails hd he
      -- The heap and the one that the failure left differ in the log only.
      obtain ⟨hexs', hfollow'⟩ :=
        follow_congr (step_plain hd e) hstep.symm ((h.step e).withoutFailures es)
      rw [if_pos rfl, hnone, List.nil_append]
      exact ⟨hexs'.trans hexs, hfollow'.trans hfollow⟩
    | false =>
      rw [if_neg Bool.false_ne_true, filter_exchange? he, exchanges, hexs]
      exact ⟨rfl, hfollow⟩

end Plain

/-- A request that fails, for whatever reason, leaves every heap that a new one can come to as it
was, also when it is carried out step by step. Without the requests that fail, a run gives the
others the same answers and takes them through the same heaps, so their blocks lie at the same
places of the same chunks. -/
theorem failed_requests_leave_no_trace (config : ArenaConfig) (roots : Roots) (es : List Event) :
    let start : Heap := { arena := { config }, roots }
    (∀ r, let c := (start.follow es).exchange r
      (∀ x, c.answer = .ok x → (Arena.carryOut r).run c.before.arena = .ok x c.after.arena) ∧
      ∀ e, c.answer = .error e →
        (Arena.carryOut r).run c.before.arena = .error e c.before.arena ∧ c.after = c.before) ∧
    start.exchanges (start.withoutFailures es) = (start.exchanges es).filter Exchange.succeeded ∧
    (start.follow (start.withoutFailures es)).silent = (start.follow es).silent := by
  intro start
  have hb : start.arena.Balanced := Arena.balanced_new config
  have hbalanced := (accounted_follow rfl hb es).balanced
  refine ⟨?_, follow_withoutFailures rfl es⟩
  intro r c
  have hd : (start.follow es).discipline = .plain := follow_plain rfl es
  have hrun := run_carryOut_exchange hd hbalanced r
  refine ⟨?_, ?_⟩
  · intro x hx
    exact hrun.trans (by rw [hx])
  · intro e he
    exact ⟨hrun.trans (by rw [he]), after_eq_before hd he⟩

end Heap

end TaggedHeap
