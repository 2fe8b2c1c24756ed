import TaggedHeap.Proofs.Arena.Limit
import TaggedHeap.Proofs.Arena.Requests

/-!
# What is refused

Accesses to memory refuse nothing, and a collection makes the refusals of its own requests fatal. So
what a request is refused for is the memory that it asks for itself, under any discipline.
-/

namespace TaggedHeap

variable {α β : Type}

/-- A computation that may fail but refuses nothing. -/
def Unrefused (x : Except Fault α) : Prop := ∀ c, x ≠ .error (.refused c)

theorem unrefused_ok (a : α) : Unrefused (.ok a) := by
  intro c h
  cases h

theorem unrefused_stray (x : Nat) : Unrefused (.error (.stray x) : Except Fault α) := by
  intro c h
  cases h

theorem unrefused_violated (v : Violation) : Unrefused (.error (.violated v) : Except Fault α) := by
  intro c h
  cases h

namespace Unrefused

variable {x : Except Fault α}

/-- The fault is passed on. -/
theorem error {e : Fault} (hx : Unrefused x) (he : x = .error e) :
    Unrefused (.error e : Except Fault β) := by
  intro c h
  exact hx c (he.trans (congrArg Except.error (Except.error.inj h)))

theorem bind {f : α → Except Fault β} (hx : Unrefused x) (hf : ∀ a, Unrefused (f a)) :
    Unrefused (x >>= f) := by
  cases he : x with
  | ok a => exact hf a
  | error e => exact hx.error he

theorem map (hx : Unrefused x) (f : α → β) : Unrefused (f <$> x) := by
  cases he : x with
  | ok a => exact unrefused_ok (f a)
  | error e => exact hx.error he

end Unrefused

namespace Memory

variable (m : Memory) (a : Nat)

theorem unrefused_target : Unrefused (m.target a) := by
  unfold target
  split
  case isTrue =>
    split
    case h_1 => exact unrefused_ok _
    case h_2 => exact unrefused_stray a
  case isFalse => exact unrefused_stray a

theorem unrefused_read : Unrefused (m.read a) := by
  unfold read
  split
  case h_1 =>
    split
    case h_1 => exact unrefused_ok _
    case h_2 => exact unrefused_stray a
  case h_2 e he => exact (m.unrefused_target a).error he

theorem unrefused_write (w : Word) : Unrefused (m.write a w) := by
  unfold write
  split
  case h_1 => exact unrefused_ok _
  case h_2 e he => exact (m.unrefused_target a).error he

theorem unrefused_readMany (n : Nat) : Unrefused (m.readMany a n) := by
  induction n generalizing a with
  | zero => exact unrefused_ok []
  | succ n ih =>
    rw [readMany]
    exact (m.unrefused_read a).bind fun w => (ih _).bind fun ws => unrefused_ok _

theorem unrefused_writeMany (ws : List Word) : Unrefused (m.writeMany a ws) := by
  induction ws generalizing m a with
  | nil => exact unrefused_ok m
  | cons w ws ih => exact (m.unrefused_write a w).bind fun n => ih n _

end Memory

theorem HeapObject.unrefused_slotCount (o : HeapObject) (m : Memory) :
    Unrefused (o.slotCount m) := by
  refine Unrefused.map (Unrefused.map ?_ _) _
  refine (m.unrefused_read o.address).bind fun w => ?_
  cases Header.ofWord? w with
  | some h => exact unrefused_ok h
  | none => exact unrefused_violated _

theorem HeapObject.unrefused_toWord (o : HeapObject) : Unrefused o.toWord := by
  rw [toWord, Word.pointerTo]
  split
  case isTrue => exact unrefused_ok _
  case isFalse => exact unrefused_violated _

theorem Roots.unrefused_mapM_read (r : Roots) (ps : List Nat) : Unrefused (ps.mapM r.read) := by
  induction ps with
  | nil => exact unrefused_ok []
  | cons p ps ih =>
    rw [List.mapM_cons]
    refine Unrefused.bind ?_ fun w => ih.bind fun ws => unrefused_ok _
    rw [Roots.read]
    split
    case h_1 => exact unrefused_ok _
    case h_2 => exact unrefused_violated _

/-! ## Actions -/

namespace Heap

/-- An action that refuses nothing, whatever heap it starts from. -/
def Unrefusing (x : HeapM α) : Prop := ∀ h c h', x.run h ≠ .error (.refused c) h'

namespace Unrefusing

variable {x : HeapM α}

theorem pure (a : α) : Unrefusing (pure a : HeapM α) := by
  intro h c h' hrun
  cases hrun

theorem bind {f : α → HeapM β} (hx : Unrefusing x) (hf : ∀ a, Unrefusing (f a)) :
    Unrefusing (x >>= f) := by
  intro h c h' hrun
  rw [run_bind] at hrun
  cases hx' : x.run h with
  | ok a h₁ =>
    rw [hx'] at hrun
    exact hf a h₁ c h' hrun
  | error e h₁ =>
    rw [hx'] at hrun
    obtain ⟨rfl, -⟩ := EStateM.Result.error.inj hrun
    exact hx h c h₁ hx'

theorem lift {y : Except Fault α} (hy : Unrefused y) : Unrefusing (Heap.lift y) := by
  intro h c h' hrun
  rw [run_lift] at hrun
  cases y with
  | ok a => cases hrun
  | error e =>
    obtain ⟨rfl, -⟩ := EStateM.Result.error.inj hrun
    exact hy c rfl

theorem reading {f : Memory → Except Fault α} (hf : ∀ m, Unrefused (f m)) :
    Unrefusing (Heap.reading f) :=
  fun h => lift (hf h.memory) h

theorem writing {f : Memory → Except Fault Memory} (hf : ∀ m, Unrefused (f m)) :
    Unrefusing (Heap.writing f) := by
  intro h c h' hrun
  rw [run_writing] at hrun
  cases hm : f h.memory with
  | ok m =>
    rw [hm] at hrun
    cases hrun
  | error e =>
    rw [hm] at hrun
    obtain ⟨rfl, -⟩ := EStateM.Result.error.inj hrun
    exact hf h.memory c hm

/-- Where a refusal is fatal it is none any more. -/
theorem reserve_fatal (roots : Nat) (r : Request) : Unrefusing (reserve roots r fatal) := by
  intro h c h' hrun
  rw [run_reserve] at hrun
  cases hr : h.arena.reserve r with
  | ok answer =>
    rw [hr] at hrun
    cases hrun
  | error e =>
    rw [hr] at hrun
    obtain ⟨he, -⟩ := EStateM.Result.error.inj hrun
    cases e <;> cases he

theorem evacuate (o : HeapObject) : Unrefusing (evacuate o) := by
  refine (reading o.unrefused_slotCount).bind fun slots => ?_
  refine (reserve_fatal 0 _).bind fun address => ?_
  refine (reading fun m => m.unrefused_readMany _ _).bind fun contents => ?_
  refine (writing fun m => m.unrefused_writeMany _ _).bind fun _ => ?_
  refine (writing fun m => m.unrefused_writeMany _ _).bind fun _ => ?_
  exact pure _

theorem relocateAll (ws : List Word) : Unrefusing (relocateAll ws) := by
  induction ws with
  | nil => exact pure []
  | cons w ws ih =>
    refine bind ?_ fun moved => bind ih fun rest => pure _
    rw [relocate]
    split
    case isTrue => exact (evacuate _).bind fun o => lift o.unrefused_toWord
    case isFalse => exact pure w

end Unrefusing

theorem unrefusing_collect : Unrefusing collect := by
  intro h c h' hrun
  have hall : Unrefusing (relocateAll h.roots >>= setRoots) := by
    refine (Unrefusing.relocateAll h.roots).bind fun ws => ?_
    intro g d g' hset
    cases hset
  exact hall h c h' hrun

theorem unrefusing_prepare (r : Request) : Unrefusing (prepare r) := by
  intro h c h' hrun
  rw [run_prepare] at hrun
  split at hrun
  case h_1 => cases hrun
  case h_2 =>
    split at hrun
    case h_1 => cases hrun
    case h_2 e hsize =>
      obtain rfl := Request.eq_of_size_eq_error hsize
      cases hrun
  case h_3 => exact unrefusing_collect _ _ _ hrun

/-- What a request is refused for, whatever is done ahead of it. -/
theorem refused_of_allocate {r : Request} {h h' : Heap} {c : Refusal}
    (hrun : (allocate r).run h = .error (.refused c) h') : c = .outOfMemory r.wordCount := by
  rw [run_allocate] at hrun
  cases hp : (prepare r).run h with
  | error e h₁ =>
    rw [hp] at hrun
    obtain ⟨rfl, -⟩ := EStateM.Result.error.inj hrun
    exact absurd hp (unrefusing_prepare r _ _ _)
  | ok u h₁ =>
    rw [hp] at hrun
    simp only [run_reserve] at hrun
    cases hr : h₁.arena.reserve r with
    | ok answer =>
      rw [hr] at hrun
      cases hrun
    | error e =>
      rw [hr] at hrun
      obtain ⟨rfl, -⟩ := EStateM.Result.error.inj hrun
      rcases Arena.reserve_eq_error hr with he | he | he | he | he <;> cases he
      rfl

end Heap

end TaggedHeap
