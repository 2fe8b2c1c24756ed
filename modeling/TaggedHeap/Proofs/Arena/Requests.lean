import TaggedHeap.Heap.Allocation
import TaggedHeap.Proofs.Arena.Frontier

/-!
# Requests

What one request does to a heap. The discipline comes first, and what the arena reserves after that is
a block of one chunk. Without a collector a request changes no word that is there, and one that fails
changes neither the arena nor the roots.
-/

namespace TaggedHeap

namespace Arena

/-- Words of the last chunk. -/
theorem inChunk_addressInLast {a : Arena} {start n : Nat} (hn : 0 < n)
    (hfit : start + n ≤ a.capacity) : a.memory.InChunk ⟨a.addressInLast start, n⟩ := by
  have hc : 0 < a.capacity := by omega
  cases hl : a.memory.chunks.getLast? with
  | none => simp [capacity, hl] at hc
  | some c =>
    rw [capacity, hl] at hfit
    exact ⟨_, c, start, List.getLast?_eq_getElem?.symm.trans hl, rfl, hfit⟩

theorem Grants.inChunk {a b : Arena} {x n : Nat} (h : a.Grants x n b) (hn : 0 < n) :
    b.memory.InChunk ⟨x, n⟩ := by
  obtain ⟨start, rfl, hfit⟩ := h.inLast
  exact inChunk_addressInLast hn hfit

/-- What is given for a request lies in one chunk, and memory is as it was but for a new chunk. -/
theorem inChunk_of_reserve {a b : Arena} {r : Request} {x : Nat} (hr : r.isEmpty = false)
    (h : a.reserve r = .ok (x, b)) :
    b.memory.InChunk ⟨x, r.wordCount⟩ ∧
      (b.memory = a.memory ∨ ∃ k, b.memory = a.memory.grow k) := by
  have hn := Request.wordCount_pos hr
  cases reserves_of_ok h with
  | nothing he => simp [hr] at he
  | inChunk _ _ hfit _ => exact ⟨inChunk_addressInLast hn hfit, .inl rfl⟩
  | newChunk _ hk hc _ =>
    obtain ⟨hmax, -, -⟩ := Count.roundUp_eq_ok Nat.two_pos hk
    have hcap := capacity_addChunk hc
    obtain ⟨rfl, -⟩ := addChunk_eq_ok hc
    have hfit := Nat.le_trans (Nat.le_max_left _ _) (Nat.le_trans hmax (Nat.le_of_eq hcap.symm))
    exact ⟨inChunk_addressInLast hn ((Nat.zero_add _).symm ▸ hfit), .inr ⟨_, rfl⟩⟩

end Arena

/-- Nothing is moved ahead of a request. -/
def Discipline.Still (d : Discipline) : Prop := ∀ n, d ≠ .moving n

namespace Heap

/-- The answer to a request and the heap that it leaves. -/
def serve (h : Heap) (r : Request) : Except Fault Nat × Heap :=
  match (allocate r).run h with
  | .ok x h' => (.ok x, h')
  | .error e h' => (.error e, h')

theorem run_prepare (r : Request) (h : Heap) :
    (prepare r).run h =
      match h.discipline with
      | .plain => .ok () h
      | .recording calls =>
        match r.size with
        | .ok size => .ok () { h with discipline := .recording (calls ++ [(size, h.roots.length)]) }
        | .error e => .error e h
      | .moving n => collect.run { h with discipline := .moving (n + 1) } := by
  obtain ⟨arena, discipline, roots, log⟩ := h
  cases discipline with
  | plain => rfl
  | recording calls =>
    change (lift r.size >>= fun size =>
      setDiscipline (.recording (calls ++ [(size, roots.length)]))).run _ = _
    rw [run_bind, run_lift]
    cases r.size <;> rfl
  | moving n => rfl

/-- What the discipline does comes ahead of the request. -/
theorem run_allocate (r : Request) (h : Heap) :
    (allocate r).run h =
      match (prepare r).run h with
      | .ok _ h' => (reserve h'.roots.length r).run h'
      | .error e h' => .error e h' := by
  rw [allocate, run_bind]
  cases (prepare r).run h <;> rfl

theorem run_allocate_plain {h : Heap} (hd : h.discipline = .plain) (r : Request) :
    (allocate r).run h = (reserve h.roots.length r).run h := by
  rw [run_allocate, run_prepare, hd]

theorem inChunk_of_allocate {h g : Heap} {r : Request} {x : Nat} (hr : r.isEmpty = false)
    (hrun : (allocate r).run h = .ok x g) : g.memory.InChunk ⟨x, r.wordCount⟩ := by
  rw [run_allocate] at hrun
  split at hrun
  case h_2 => cases hrun
  case h_1 h₁ _ =>
    rw [run_reserve] at hrun
    split at hrun
    case h_2 => cases hrun
    case h_1 y b hres =>
      obtain ⟨rfl, rfl⟩ := EStateM.Result.ok.inj hrun
      exact (Arena.inChunk_of_reserve hr hres).1

/-- What a discipline without a collector does ahead of a request changes nothing but itself. -/
theorem run_prepare_of_still {h k : Heap} {r : Request} {u : Unit} (hd : h.discipline.Still)
    (hrun : (prepare r).run h = .ok u k) :
    ∃ d : Discipline, d.Still ∧ k = { h with discipline := d } := by
  rw [run_prepare] at hrun
  split at hrun
  case h_1 hplain =>
    cases hrun
    exact ⟨h.discipline, hd, rfl⟩
  case h_2 calls _ =>
    split at hrun
    case h_1 =>
      cases hrun
      exact ⟨.recording _, by simp [Discipline.Still], rfl⟩
    case h_2 => cases hrun
  case h_3 n hmoving => exact absurd hmoving (hd n)

/-- Without a collector, what is given for a request is what the arena reserves for it. -/
theorem reserve_of_allocate {h g : Heap} {r : Request} {x : Nat} (hd : h.discipline.Still)
    (hrun : (allocate r).run h = .ok x g) : h.arena.reserve r = .ok (x, g.arena) := by
  rw [run_allocate] at hrun
  split at hrun
  case h_2 => cases hrun
  case h_1 k hprepare =>
    obtain ⟨d, -, rfl⟩ := run_prepare_of_still hd hprepare
    rw [run_reserve] at hrun
    split at hrun
    case h_2 => cases hrun
    case h_1 y b hres =>
      obtain ⟨rfl, rfl⟩ := EStateM.Result.ok.inj hrun
      exact hres

/-- Without a collector, asking for memory changes no word that is there. -/
theorem read_of_allocate {h g : Heap} {r : Request} {x : Nat} (hd : h.discipline.Still)
    (hr : r.isEmpty = false) (hrun : (allocate r).run h = .ok x g) {a : Nat} {w : Word}
    (hw : h.memory.read a = .ok w) : g.memory.read a = .ok w := by
  rcases (Arena.inChunk_of_reserve hr (reserve_of_allocate hd hrun)).2 with he | ⟨k, he⟩
  · exact (congrArg (Memory.read · a) he).trans hw
  · exact (congrArg (Memory.read · a) he).trans (Memory.read_grow hw k)

/-- Without a collector, a request that fails leaves arena and roots as they were. -/
theorem unchanged_of_allocate_error {h g : Heap} {r : Request} {e : Fault}
    (hd : h.discipline.Still) (hrun : (allocate r).run h = .error e g) :
    g.arena = h.arena ∧ g.roots = h.roots := by
  rw [run_allocate] at hrun
  split at hrun
  case h_1 k hprepare =>
    obtain ⟨d, -, rfl⟩ := run_prepare_of_still hd hprepare
    rw [run_reserve] at hrun
    split at hrun
    case h_1 => cases hrun
    case h_2 =>
      cases hrun
      exact ⟨rfl, rfl⟩
  case h_2 e' k hprepare =>
    cases hrun
    rw [run_prepare] at hprepare
    split at hprepare
    case h_1 => cases hprepare
    case h_2 =>
      split at hprepare
      case h_1 => cases hprepare
      case h_2 =>
        cases hprepare
        exact ⟨rfl, rfl⟩
    case h_3 n hmoving => exact absurd hmoving (hd n)

theorem serve_eq {h : Heap} (hd : h.discipline = .plain) (r : Request) :
    h.serve r =
      match h.arena.reserve r with
      | .ok (x, b) =>
        (.ok x, { h with arena := b, log := h.log ++ h.arena.records h.roots.length r })
      | .error e => (.error e, { h with log := h.log ++ h.arena.records h.roots.length r }) := by
  rw [serve, run_allocate_plain hd, run_reserve]
  cases h.arena.reserve r <;> rfl

end Heap

end TaggedHeap
