import TaggedHeap.Proofs.Arena.Limit
import TaggedHeap.Proofs.Arena.Unlimited
import TaggedHeap.Proofs.Heap.Construction

/-!
# Evacuation

What a collection does to the blocks in use. Each object that a root points to gets a block of its
own with the same words and leaves zeros behind; all other blocks stay as they are. Zeros are no
header, so an object that a second root points to as well stops the collection.
-/

namespace TaggedHeap

namespace Contents

/-- The words of the block at `x` stand at `y` and zeros at `x`. -/
def moved (f : Contents) (x y : Nat) (ws : List Word) : Contents :=
  (f.put y ws).put x (List.replicate ws.length Word.zero)

theorem moved_old (f : Contents) (x y : Nat) (w : Word) (ws : List Word) :
    f.moved x y (w :: ws) x = some (Word.zero :: List.replicate ws.length Word.zero) :=
  put_self _ _ _

theorem moved_new (f : Contents) {x y : Nat} (ws : List Word) (h : y ≠ x) :
    f.moved x y ws y = some ws := by
  rw [moved, put_of_ne _ _ h, put_self]

theorem moved_of_ne (f : Contents) {x y z : Nat} (ws : List Word) (hx : z ≠ x) (hy : z ≠ y) :
    f.moved x y ws z = f z := by
  rw [moved, put_of_ne _ _ hx, put_of_ne _ _ hy]

/-- An object that can be moved stands at the address. -/
def Movable (f : Contents) (x : Nat) : Prop :=
  ∃ hd : Header, ∃ ws, f x = some (hd.toWord :: ws) ∧ hd.Fits ws

/-- The block at the address has no header any more. -/
def Wiped (f : Contents) (x : Nat) : Prop := ∃ ws, f x = some (Word.zero :: ws)

/-- The words of the block that a word points to, none if it is no pointer. -/
def slotsOf (f : Contents) (w : Word) : Nat :=
  if w.kind = .pointer then ((f w.toNat).map List.length).getD 0 else 0

/-- The words that moving what the words point to takes. -/
def slots (f : Contents) : List Word → Nat
  | [] => 0
  | w :: ws => f.slotsOf w + f.slots ws

theorem slotsOf_of_ne {f : Contents} {w : Word} (hw : w.kind ≠ .pointer) : f.slotsOf w = 0 :=
  if_neg hw

theorem slotsOf_of_some {f : Contents} {w : Word} {ws : List Word} (hw : w.kind = .pointer)
    (hx : f w.toNat = some ws) : f.slotsOf w = ws.length := by
  rw [slotsOf, if_pos hw, hx]
  rfl

theorem slots_append (f : Contents) (vs ws : List Word) :
    f.slots (vs ++ ws) = f.slots vs + f.slots ws := by
  induction vs with
  | nil => rw [List.nil_append, slots, Nat.zero_add]
  | cons v vs ih => rw [List.cons_append, slots, slots, ih, Nat.add_assoc]

theorem slots_mono {f : Contents} {vs ws : List Word} (h : vs <+: ws) : f.slots vs ≤ f.slots ws := by
  obtain ⟨us, rfl⟩ := h
  rw [slots_append]
  exact Nat.le_add_right _ _

theorem slotsOf_le_slots {f : Contents} {w : Word} {ws : List Word} (h : w ∈ ws) :
    f.slotsOf w ≤ f.slots ws := by
  obtain ⟨before, after, rfl⟩ := List.append_of_mem h
  rw [slots_append, slots]
  omega

end Contents

theorem Header.toWord_ne_zero (hd : Header) : hd.toWord ≠ Word.zero := by
  intro h
  have ht := hd.toNat_toWord
  have hz : (Word.zero).toNat = 0 := rfl
  rw [h, hz] at ht
  omega

theorem Contents.Movable.slotsOf_le {f : Contents} {w : Word} (hw : w.kind = .pointer)
    (h : f.Movable w.toNat) : 0 < f.slotsOf w ∧ f.slotsOf w ≤ maxSlots := by
  obtain ⟨hd, ws, hx, hfit⟩ := h
  have hle := Layout.slotCount_le hd
  rw [hfit] at hle
  rw [slotsOf_of_some hw hx]
  exact ⟨Nat.succ_pos _, hle⟩

theorem Contents.Movable.not_wiped {f : Contents} {x : Nat} (h : f.Movable x) : ¬ f.Wiped x := by
  rintro ⟨us, hu⟩
  obtain ⟨hd, ws, hw, -⟩ := h
  rw [hw] at hu
  exact hd.toWord_ne_zero (List.cons.inj (Option.some.inj hu)).1

theorem Arena.Owns.header_of_wiped {a : Arena} {f : Contents} (ho : a.Owns f) {o : HeapObject}
    (hx : f.Wiped o.address) :
    o.header a.memory = .error (.violated (.notAHeader o.address 0)) := by
  obtain ⟨ws, hx⟩ := hx
  exact HeapObject.header_of_none (ho.read_start hx) rfl

/-- The heaps differ in memory and log alone. -/
structure Heap.Alike (h h' : Heap) : Prop where
  roots : h'.roots = h.roots
  discipline : h'.discipline = h.discipline
  config : h'.arena.config = h.arena.config

theorem Heap.Alike.refl (h : Heap) : h.Alike h := ⟨rfl, rfl, rfl⟩

theorem Heap.Alike.trans {h h' h'' : Heap} (hh : h.Alike h') (hh' : h'.Alike h'') :
    h.Alike h'' :=
  ⟨hh'.roots.trans hh.roots, hh'.discipline.trans hh.discipline, hh'.config.trans hh.config⟩

namespace Heap

variable {h : Heap} {f : Contents}

/-- A request that succeeds is given a block that was not in use. -/
theorem run_reserve_of_ok (ho : h.arena.Owns f) {r : Request} (hr : r.isEmpty = false) {x : Nat}
    {b : Arena} (he : h.arena.reserve r = .ok (x, b)) (roots : Nat) (report : Fault → Fault) :
    ∃ h', (reserve roots r report).run h = .ok x h' ∧ h'.arena = b ∧ h.Alike h' ∧ f x = none ∧
      x % (wordSize * r.alignment) = 0 ∧
      h'.arena.Owns (f.put x (List.replicate r.wordCount Word.zero)) := by
  obtain ⟨hg, hb, hal⟩ := ho.valid.reserve hr he
  obtain ⟨hnew, hown⟩ := ho.grants hg hb (Request.wordCount_pos hr)
  rw [run_reserve, he]
  exact ⟨_, rfl, rfl, ⟨rfl, rfl, hg.config_eq⟩, hnew, hal, hown⟩

theorem run_reserve_of_isEmpty {r : Request} (hr : r.isEmpty = true) (roots : Nat)
    (report : Fault → Fault) :
    ∃ h', (reserve roots r report).run h = .ok r.dangling h' ∧ h.Alike h' ∧ h'.arena = h.arena := by
  rw [run_reserve, Arena.reserve_of_isEmpty hr]
  exact ⟨_, rfl, ⟨rfl, rfl, rfl⟩, rfl⟩

theorem run_reserve_of_error {r : Request} {e : Fault} (he : h.arena.reserve r = .error e)
    (roots : Nat) (report : Fault → Fault) :
    ∃ h', (reserve roots r report).run h = .error (report e) h' ∧ h.Alike h' ∧
      h'.arena = h.arena := by
  rw [run_reserve, he]
  exact ⟨_, rfl, ⟨rfl, rfl, rfl⟩, rfl⟩

theorem run_reserve_eq_error {h' : Heap} {roots : Nat} {r : Request} {report : Fault → Fault}
    {e : Fault} (he : (reserve roots r report).run h = .error e h') :
    h.Alike h' ∧ h'.arena = h.arena := by
  rw [run_reserve] at he
  split at he
  case h_1 => cases he
  case h_2 =>
    obtain ⟨-, rfl⟩ := EStateM.Result.error.inj he
    exact ⟨⟨rfl, rfl, rfl⟩, rfl⟩

/-- Memory for an object, from an arena without a limit. -/
theorem run_reserve_of_le (ho : h.arena.Owns f) (hl : h.arena.config.limit = none) (roots : Nat)
    {r : Request} (report : Fault → Fault) (hr : r.isEmpty = false) (hn : r.wordCount ≤ maxSlots) :
    (∃ k, h.arena.config.opening r.wordCount = .ok k ∧
      ((∃ x h', (reserve roots r report).run h = .ok x h' ∧ h.Alike h' ∧ f x = none ∧
          x % (wordSize * r.alignment) = 0 ∧
          h'.arena.Owns (f.put x (List.replicate r.wordCount Word.zero))) ∨
        ∃ h', (reserve roots r report).run h = .error (report .exhausted) h')) ∨
    ∃ e h', h.arena.config.opening r.wordCount = .error e ∧
      (reserve roots r report).run h = .error (report e) h' ∧ h.Alike h' ∧ h'.arena = h.arena ∧
      h.arena.memory.chunks = [] := by
  rcases ho.valid.reserve_cases hl hr hn with ⟨k, hk, ⟨x, b, he⟩ | he⟩ | ⟨e, hk, he, hnil⟩
  · obtain ⟨h', hrun, -, hsame, hnew, hal, hown⟩ := run_reserve_of_ok ho hr he roots report
    exact .inl ⟨k, hk, .inl ⟨x, h', hrun, hsame, hnew, hal, hown⟩⟩
  · obtain ⟨h', hrun, -⟩ := run_reserve_of_error he roots report
    exact .inl ⟨k, hk, .inr ⟨h', hrun⟩⟩
  · obtain ⟨h', hrun, hsame, harena⟩ := run_reserve_of_error he roots report
    exact .inr ⟨e, h', hk, hrun, hsame, harena, hnil⟩

/-- Without a limit, and with blocks in use, there is one way in which a request fails. -/
theorem exhausted_of_error (ho : h.arena.Owns f) (hl : h.arena.config.limit = none) {x : Nat}
    {ws : List Word} (hx : f x = some ws) {r : Request} (hr : r.isEmpty = false)
    (hn : r.wordCount ≤ maxSlots) {e : Fault} (he : h.arena.reserve r = .error e) :
    e = .exhausted := by
  rcases ho.valid.reserve_cases hl hr hn with ⟨k, -, ⟨y, b, hok⟩ | hroom⟩ | ⟨-, -, -, hnil⟩
  · rw [hok] at he
    cases he
  · rw [hroom] at he
    exact (Except.error.inj he).symm
  · obtain ⟨i, c, start, hc, -⟩ := ho.inChunk hx
    rw [hnil] at hc
    cases hc

/-! ## One object -/

/-- What is moved is told by the words that stand at the object. -/
theorem run_evacuate_of_holds {o : HeapObject} {hd : Header} {ws : List Word}
    (hh : h.memory.Holds o.address (hd.toWord :: ws)) (hfit : hd.Fits ws) :
    (evacuate o).run h = (do
      let address ← reserve 0 (.words (ws.length + 1)) fatal
      let contents ← reading fun m => m.readMany o.address (ws.length + 1)
      writing fun m => m.writeMany address contents
      writing fun m => m.writeMany o.address (List.replicate (ws.length + 1) Word.zero)
      return (⟨address⟩ : HeapObject) : HeapM HeapObject).run h := by
  have hslots : (reading o.slotCount).run h = .ok (ws.length + 1) h := by
    rw [run_reading_of_ok (HeapObject.slotCount_eq hh), hfit]
  rw [evacuate, run_bind, hslots]

/-- An object is moved by writing its words to the new memory and zeros over the old one. -/
theorem run_evacuate_of_writes {h₁ : Heap} {o : HeapObject} {hd : Header} {ws : List Word}
    {x : Nat} {m₁ m₂ : Memory} (hh : h.memory.Holds o.address (hd.toWord :: ws)) (hfit : hd.Fits ws)
    (hr : (reserve 0 (.words (ws.length + 1)) fatal).run h = .ok x h₁)
    (hold : h₁.memory.Holds o.address (hd.toWord :: ws))
    (hm₁ : h₁.memory.writeMany x (hd.toWord :: ws) = .ok m₁)
    (hm₂ : m₁.writeMany o.address (List.replicate (ws.length + 1) Word.zero) = .ok m₂) :
    (evacuate o).run h = .ok ⟨x⟩ ((h₁.withMemory m₁).withMemory m₂) := by
  have hread : h₁.memory.readMany o.address (ws.length + 1) = .ok (hd.toWord :: ws) :=
    Memory.readMany_eq_ok_iff_holds.2 hold
  rw [run_evacuate_of_holds hh hfit, run_bind, hr]
  simp only
  rw [run_bind, run_reading_of_ok hread]
  simp only
  rw [run_bind, run_writing_of_ok hm₁]
  simp only
  rw [run_bind, run_writing_of_ok (h := h₁.withMemory m₁) hm₂]
  rfl

/-- An object stays where it is if no memory is handed out for it. -/
theorem run_evacuate_of_error {o : HeapObject} {hd : Header} {ws : List Word} {e : Fault}
    (hh : h.memory.Holds o.address (hd.toWord :: ws)) (hfit : hd.Fits ws)
    (he : h.arena.reserve (.words (ws.length + 1)) = .error e) :
    ∃ h', (evacuate o).run h = .error (fatal e) h' ∧ h.Alike h' ∧ h'.arena = h.arena := by
  obtain ⟨h', hr, hsame, harena⟩ := run_reserve_of_error he 0 fatal
  rw [run_evacuate_of_holds hh hfit, run_bind, hr]
  exact ⟨h', rfl, hsame, harena⟩

section Evacuate

variable {o : HeapObject} {hd : Header} {ws rest : List Word} (ho : h.arena.Owns f)
  (hx : f o.address = some ((hd.toWord :: ws) ++ rest)) (hfit : hd.Fits ws)
include ho hx hfit

/-- The slots that the header gives are moved. What is behind them in the block stays. -/
theorem run_evacuate_prefix_of_ok {x : Nat} {b : Arena}
    (he : h.arena.reserve (.words (ws.length + 1)) = .ok (x, b)) :
    ∃ h', (evacuate o).run h = .ok ⟨x⟩ h' ∧ h.Alike h' ∧ f x = none ∧
      h'.arena.allocated = b.allocated ∧ h'.arena.frontier = b.frontier ∧
      h'.arena.Owns ((f.put x (hd.toWord :: ws)).put o.address
        (List.replicate (ws.length + 1) Word.zero ++ rest)) := by
  obtain ⟨h', hr, hb, hsame, hnew, -, hown⟩ := run_reserve_of_ok ho rfl he 0 fatal
  have hne : o.address ≠ x := Contents.ne_of_eq_none hnew hx
  -- The new block takes the words of the old one, then the old one is wiped.
  have hold : f.put x (List.replicate (ws.length + 1) Word.zero) o.address =
      some ((hd.toWord :: ws) ++ rest) := (f.put_of_ne _ hne).trans hx
  have hlen : (hd.toWord :: ws).length = (List.replicate (ws.length + 1) Word.zero).length := by
    simp
  obtain ⟨m₁, hm₁, hown₁⟩ := hown.overwrite (f.put_self _ _) hlen
  rw [Contents.put_put] at hown₁
  have hold₁ : f.put x (hd.toWord :: ws) o.address = some ((hd.toWord :: ws) ++ rest) :=
    (f.put_of_ne _ hne).trans hx
  obtain ⟨m₂, hm₂, hown₂⟩ := hown₁.overwritePrefix hold₁ hlen.symm
  refine ⟨(h'.withMemory m₁).withMemory m₂, ?_, hsame.trans ⟨rfl, rfl, rfl⟩, hnew, ?_, ?_, hown₂⟩
  · exact run_evacuate_of_writes (Memory.holds_append.1 (ho.holds hx)).1 hfit hr
      (Memory.holds_append.1 (hown.holds hold)).1 hm₁ hm₂
  · rw [← hb]
    rfl
  · rw [← hb]
    exact Arena.frontier_congr ((Memory.sizes_writeMany hm₂).trans (Memory.sizes_writeMany hm₁))

end Evacuate

section Evacuate

variable {o : HeapObject} {hd : Header} {ws : List Word} (ho : h.arena.Owns f)
  (hx : f o.address = some (hd.toWord :: ws)) (hfit : hd.Fits ws)
include ho hx hfit

/-- An object is moved to the memory that is handed out for it. -/
theorem run_evacuate_of_ok {x : Nat} {b : Arena}
    (he : h.arena.reserve (.words (ws.length + 1)) = .ok (x, b)) :
    ∃ h', (evacuate o).run h = .ok ⟨x⟩ h' ∧ h.Alike h' ∧ f x = none ∧
      h'.arena.allocated = b.allocated ∧ h'.arena.Owns (f.moved o.address x (hd.toWord :: ws)) := by
  have hx' : f o.address = some ((hd.toWord :: ws) ++ []) := by rw [List.append_nil, hx]
  obtain ⟨h', hr, hsame, hnew, hb, -, hown⟩ := run_evacuate_prefix_of_ok ho hx' hfit he
  rw [List.append_nil] at hown
  exact ⟨h', hr, hsame, hnew, hb, hown⟩

end Evacuate

/-- What does not begin with a header is no object. -/
theorem run_evacuate_of_read {o : HeapObject} {w : Word} (hr : h.memory.read o.address = .ok w)
    (hw : Header.ofWord? w = none) :
    (evacuate o).run h = .error (.violated (.notAHeader o.address w.toNat)) h := by
  have hslots : (reading o.slotCount).run h =
      .error (.violated (.notAHeader o.address w.toNat)) h := by
    rw [run_reading, HeapObject.slotCount, HeapObject.layout, HeapObject.header_of_none hr hw]
    rfl
  rw [evacuate, run_bind, hslots]

theorem run_evacuate_of_wiped (ho : h.arena.Owns f) {o : HeapObject} (hx : f.Wiped o.address) :
    (evacuate o).run h = .error (.violated (.notAHeader o.address 0)) h := by
  obtain ⟨ws, hx⟩ := hx
  exact run_evacuate_of_read (ho.read_start hx) rfl

end Heap

end TaggedHeap
