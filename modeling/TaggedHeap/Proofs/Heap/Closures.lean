import TaggedHeap.Proofs.Graph.Collection
import TaggedHeap.Proofs.Heap.Footprint
import TaggedHeap.Proofs.Heap.Strings

/-!
# Closures

A closure takes its captures from the roots that the request for its memory left, so it has the words
that a collection made of them. Which positions they are taken from is of no matter: a position may
be named more than once. Nothing is assumed of the heap, so this holds under every discipline.
-/

namespace TaggedHeap

/-- The slots that hold references, in order. -/
def Layout.references (l : Layout) : List Nat :=
  List.range' l.referencesStart (l.referencesEnd - l.referencesStart)

namespace Roots

variable {r : Roots} {ps : List Nat} {ws : List Word}

theorem read_eq_ok_iff {p : Nat} {w : Word} : r.read p = .ok w ↔ r[p]? = some w := by
  rw [read]
  cases r[p]? <;> simp

/-- The words at the positions, one by one. -/
theorem getElem?_of_mapM_read (h : ps.mapM r.read = .ok ws) {i p : Nat} (hi : ps[i]? = some p) :
    ∃ w, ws[i]? = some w ∧ r[p]? = some w := by
  induction ps generalizing ws i with
  | nil => simp at hi
  | cons q ps ih =>
    rw [List.mapM_cons] at h
    obtain ⟨w, hw, h⟩ := bind_eq_ok_iff.1 h
    obtain ⟨us, hus, h⟩ := bind_eq_ok_iff.1 h
    obtain rfl := Except.ok.inj h
    cases i with
    | zero =>
      obtain rfl : q = p := by simpa using hi
      exact ⟨w, rfl, read_eq_ok_iff.1 hw⟩
    | succ i => exact ih hus (by simpa using hi)

theorem exists_mapM_read (h : ∀ p ∈ ps, p < r.length) : ∃ ws, ps.mapM r.read = .ok ws := by
  induction ps with
  | nil => exact ⟨[], rfl⟩
  | cons p ps ih =>
    obtain ⟨ws, hws⟩ := ih fun q hq => h q (List.mem_cons_of_mem _ hq)
    have hp := read_of_some (List.getElem?_eq_getElem (h p List.mem_cons_self))
    rw [mapM_read_cons_of_ok hp, hws]
    exact ⟨_, rfl⟩

end Roots

/-! ## The positions of the roots -/

namespace Heap

variable {h h' : Heap}

theorem length_of_relocateAll {ws ws' : List Word} (hrun : (relocateAll ws).run h = .ok ws' h') :
    ws'.length = ws.length := by
  induction ws generalizing h ws' with
  | nil =>
    cases hrun
    rfl
  | cons w ws ih =>
    obtain ⟨v, k, -, hrun⟩ := run_bind_eq_ok_iff.1 hrun
    obtain ⟨vs, k', hrest, hrun⟩ := run_bind_eq_ok_iff.1 hrun
    cases hrun
    rw [List.length_cons, List.length_cons, ih hrest]

/-- A request keeps the roots at their positions, whatever it does to them. -/
theorem length_roots_of_allocate {r : Request} {x : Nat} (hrun : (allocate r).run h = .ok x h') :
    h'.roots.length = h.roots.length := by
  rw [run_allocate] at hrun
  split at hrun
  case h_2 => cases hrun
  case h_1 k hprepare =>
    have hk : k.roots.length = h.roots.length := by
      by_cases hd : h.discipline.Still
      case pos =>
        obtain ⟨d, -, rfl⟩ := run_prepare_of_still hd hprepare
        rfl
      case neg =>
        obtain ⟨n, hn⟩ : ∃ n, h.discipline = .moving n := by simpa [Discipline.Still] using hd
        rw [run_prepare, hn] at hprepare
        have hcollect : (relocateAll h.roots >>= setRoots : HeapM Unit).run _ = .ok _ k := hprepare
        obtain ⟨ws, k', hall, hset⟩ := run_bind_eq_ok_iff.1 hcollect
        cases hset
        exact length_of_relocateAll hall
    rw [run_reserve] at hrun
    split at hrun
    case h_2 => cases hrun
    case h_1 =>
      cases hrun
      exact hk

end Heap

namespace Closure

open Heap

variable {code descriptor : Word} {captures : List Nat}

/-! ## What is stored -/

/-- The closure has the code, the descriptor and, as its captures, the words of the roots at the
positions. -/
structure Closes (c : Closure) (code descriptor : Word) (captures : List Nat) (roots : Roots)
    (m : Memory) : Prop where
  header : ∃ hd, c.object.header m = .ok hd ∧ hd.uid = closureUid ∧
    hd.nfields = captures.length ∧ hd.marked = false ∧
    (List.range captures.length).mapM captureSlot = .ok hd.layout.references
  inChunk : m.InChunk ⟨c.object.address, captures.length + 3⟩
  ofObject_eq : ofObject c.object m = .ok c
  captureCount_eq : c.captureCount m = .ok captures.length
  code_eq : c.code m = .ok code
  descriptor_eq : c.descriptor m = .ok descriptor
  capture_eq : ∀ i p, captures[i]? = some p → ∃ w, roots[p]? = some w ∧ c.capture i m = .ok w
  capture_of_le : ∀ i, captures.length ≤ i → c.capture i m = .error (.violated
    (if i + 3 < wordLimit then .slotOutOfBounds (i + 3) (captures.length + 3) else .sumOverflow))

theorem layout_of_uid {hd : Header} (hu : hd.uid = closureUid) :
    hd.layout = .closure hd.nfields := by
  rw [Header.layout, Layout.ofHeader, Header.isClosure, hu]
  rfl

/-- The slots of so many captures, in order. -/
theorem mapM_captureSlot {n : Nat} (hn : n + 3 ≤ wordLimit) :
    (List.range n).mapM captureSlot = .ok (Layout.closure n).references := by
  have hslots : (Layout.closure n).references = (List.range n).map (3 + ·) := by
    rw [List.range_eq_range', List.map_add_range']
    simp [Layout.references, Layout.referencesStart, Layout.referencesEnd, closureExtraSlots]
  have hall : ∀ ns : List Nat, (∀ i ∈ ns, i < n) →
      ns.mapM captureSlot = .ok (ns.map (3 + ·)) := by
    intro ns
    induction ns with
    | nil => exact fun _ => rfl
    | cons i ns ih =>
      intro hlt
      have hi := hlt i List.mem_cons_self
      rw [List.mapM_cons, captureSlot_of_lt (by omega),
        ih fun j hj => hlt j (List.mem_cons_of_mem _ hj), Nat.add_comm i 3]
      rfl
  rw [hslots]
  exact hall _ fun i hi => List.mem_range.1 hi

theorem closes_of_holds {c : Closure} {hd : Header} {roots : Roots} {m : Memory} {ws : List Word}
    (hh : Header.ofFields? closureUid captures.length = .ok hd)
    (hm : m.Holds c.object.address (hd.toWord :: code :: descriptor :: ws))
    (hc : m.InChunk ⟨c.object.address, captures.length + 3⟩) (hl : ws.length = captures.length)
    (hread : captures.mapM roots.read = .ok ws) : c.Closes code descriptor captures roots m := by
  obtain ⟨hu, hn, hmark⟩ := Header.ofFields?_eq_ok hh
  have hle : captures.length ≤ 255 := hn ▸ hd.nfields_le
  have hfit : hd.Fits (code :: descriptor :: ws) := Header.fits_closure hu (hl.trans hn.symm)
  have hheader := HeapObject.header_eq hm
  constructor
  case header =>
    refine ⟨hd, hheader, hu, hn, hmark, ?_⟩
    rw [layout_of_uid hu, hn]
    exact mapM_captureSlot (by simp only [wordLimit]; omega)
  case inChunk => exact hc
  case ofObject_eq =>
    rw [ofObject, hheader]
    simp only [bind, Except.bind, Header.isClosure, hu, beq_self_eq_true, if_true]
    rfl
  case captureCount_eq =>
    rw [captureCount, hheader, ← hn]
    rfl
  case code_eq => exact HeapObject.read_of_getElem? hm hfit rfl
  case descriptor_eq => exact HeapObject.read_of_getElem? hm hfit rfl
  case capture_eq =>
    intro i p hp
    obtain ⟨w, hw, hr⟩ := Roots.getElem?_of_mapM_read hread hp
    obtain ⟨hi, -⟩ := List.getElem?_eq_some_iff.1 hp
    refine ⟨w, hr, ?_⟩
    rw [capture_eq_read c (by simp only [wordLimit]; omega)]
    exact HeapObject.read_of_getElem? hm hfit hw
  case capture_of_le =>
    intro i hi
    split
    case isTrue hlt =>
      rw [capture_eq_read c hlt,
        HeapObject.read_of_le hm hfit (by simp only [List.length_cons]; omega)]
      simp only [List.length_cons, hl]
    case isFalse hge => exact capture_of_le c (Nat.not_lt.1 hge) m

/-! ## What a call does -/

theorem words_of_closure (n : Nat) : 1 + closureExtraSlots + n = n + 3 := by
  simp only [closureExtraSlots]
  omega

/-- A call that is given memory ends in a closure unless a position names no root. -/
theorem run_allocate_of_request (code descriptor : Word) {h g : Heap} {x : Nat}
    (hn : captures.length ≤ maxFields)
    (hrun : (Heap.allocate (.words (captures.length + 3))).run h = .ok x g) :
    ∃ m, g.memory.ChangedWithin ⟨x, captures.length + 3⟩ m ∧
      (((Closure.allocate code descriptor captures).run h = .ok ⟨⟨x⟩⟩ (g.withMemory m) ∧
          (Closure.mk ⟨x⟩).Closes code descriptor captures g.roots m) ∨
        ∃ e, captures.mapM g.roots.read = .error e ∧
          (Closure.allocate code descriptor captures).run h = .error e (g.withMemory m)) := by
  have hh : Header.ofFields? closureUid captures.length = .ok _ :=
    Header.ofFields?_of_le (by decide) hn
  have hc := inChunk_of_allocate (r := .words (captures.length + 3)) rfl hrun
  obtain ⟨us, hlen, hold⟩ := hc.exists_holds
  rw [← words_of_closure] at hrun
  obtain ⟨m, ws, hws, hwords, hch, ⟨hread, hmade⟩ | ⟨e, he, hmade⟩⟩ :=
    run_allocate_of_holds code descriptor hh hrun hold hlen
  · exact ⟨m, hch, .inl ⟨hmade,
      closes_of_holds hh hwords (hc.of_sizes_eq hch.sizes_eq) hws hread⟩⟩
  · exact ⟨m, hch, .inr ⟨e, he, hmade⟩⟩

theorem run_allocate_of_request_error {h g : Heap} {e : Fault} (hn : captures.length ≤ maxFields)
    (hrun : (Heap.allocate (.words (captures.length + 3))).run h = .error e g) :
    (Closure.allocate code descriptor captures).run h = .error e g := by
  rw [← words_of_closure] at hrun
  exact run_allocate_of_error (Header.ofFields?_of_le (by decide) hn) hrun

theorem run_allocate_of_lt {h : Heap} (hn : maxFields < captures.length) :
    (Closure.allocate code descriptor captures).run h =
      .error (.refused (.tooManyFields captures.length)) h :=
  run_allocate_of_refused (Header.ofFields?_of_lt (by decide) hn)

/-- The call does not fail behind the request if all positions name roots. -/
theorem exists_run_allocate_of_request {h g : Heap} {x : Nat} (hn : captures.length ≤ maxFields)
    (hp : ∀ p ∈ captures, p < h.roots.length)
    (hrun : (Heap.allocate (.words (captures.length + 3))).run h = .ok x g) :
    ∃ h', (Closure.allocate code descriptor captures).run h = .ok ⟨⟨x⟩⟩ h' := by
  obtain ⟨ws, hws⟩ := Roots.exists_mapM_read (r := g.roots) fun p hmem =>
    length_roots_of_allocate hrun ▸ hp p hmem
  obtain ⟨m, -, ⟨hmade, -⟩ | ⟨e, he, -⟩⟩ := run_allocate_of_request code descriptor hn hrun
  · exact ⟨_, hmade⟩
  · rw [hws] at he
    cases he

/-- A call that succeeded was given memory first. -/
theorem request_of_run_allocate {h h' : Heap} {c : Closure}
    (hrun : (Closure.allocate code descriptor captures).run h = .ok c h') :
    captures.length ≤ maxFields ∧ ∃ g m,
      (Heap.allocate (.words (captures.length + 3))).run h = .ok c.object.address g ∧
      h' = g.withMemory m ∧ g.memory.ChangedWithin ⟨c.object.address, captures.length + 3⟩ m ∧
      c.Closes code descriptor captures g.roots m := by
  by_cases hn : captures.length ≤ maxFields
  case neg =>
    rw [run_allocate_of_lt (Nat.not_le.1 hn)] at hrun
    cases hrun
  refine ⟨hn, ?_⟩
  cases ha : (Heap.allocate (.words (captures.length + 3))).run h with
  | error e g =>
    rw [run_allocate_of_request_error hn ha] at hrun
    cases hrun
  | ok x g =>
    obtain ⟨m, hch, ⟨hmade, hcloses⟩ | ⟨e, -, hmade⟩⟩ :=
      run_allocate_of_request code descriptor hn ha
    all_goals rw [hmade] at hrun; cases hrun
    exact ⟨g, m, rfl, rfl, hch, hcloses⟩

/-- More captures than a header counts are refused before memory is asked for. Otherwise the call
fails with the request, and if that is given a block and all positions name roots the call succeeds.
Every closure that is made has the code, the descriptor and the words that the roots hold after the
call at the positions of its captures, in order, and there are no captures behind them. Without a
collector no word outside of its block is changed. -/
theorem allocate_closes_roots (h : Heap) (code descriptor : Word) (captures : List Nat) :
    let n := captures.length
    (maxFields < n → (Closure.allocate code descriptor captures).run h =
      .error (.refused (.tooManyFields n)) h) ∧
    (n ≤ maxFields →
      (∀ e h', (Heap.allocate (.words (n + 3))).run h = .error e h' →
        (Closure.allocate code descriptor captures).run h = .error e h') ∧
      ∀ x g, (Heap.allocate (.words (n + 3))).run h = .ok x g →
        (∀ p ∈ captures, p < h.roots.length) →
        ∃ h', (Closure.allocate code descriptor captures).run h = .ok ⟨⟨x⟩⟩ h') ∧
    ∀ c h', (Closure.allocate code descriptor captures).run h = .ok c h' →
      c.Closes code descriptor captures h'.roots h'.memory ∧
      (h.discipline.Still → ∀ a w, ¬ Span.Covers ⟨c.object.address, n + 3⟩ a →
        h.memory.read a = .ok w → h'.memory.read a = .ok w) := by
  intro n
  refine ⟨run_allocate_of_lt, fun hn => ⟨?_, ?_⟩, ?_⟩
  · intro e h' hrun
    exact run_allocate_of_request_error hn hrun
  · intro x g hrun hp
    exact exists_run_allocate_of_request hn hp hrun
  · intro c h' hrun
    obtain ⟨-, g, m, ha, rfl, hch, hcloses⟩ := request_of_run_allocate hrun
    refine ⟨hcloses, fun hd a w ha' hw => ?_⟩
    exact (hch.read_eq a (Span.not_covers.1 ha')).trans (read_of_allocate hd rfl ha hw)

/-- A constructor with the uid five and no fields that a root names, and a number in the other
root. -/
def sample : Heap where
  arena := {
    config := { chunkWords := 8 }, cursor := 1, allocated := 1,
    memory := { chunks := [#[.ofNat 0x56, .zero, .zero, .zero, .zero, .zero, .zero, .zero]] } }
  discipline := .moving 0
  roots := [.ofNat Memory.origin, .unboxed 7]

/-- A closure over the constructor, the number and the constructor again. Both captures of the
constructor name its copy. -/
theorem allocate_closes_moved_roots :
    ∃ c h', (Closure.allocate (.ofNat 64) (.ofNat 2) [0, 1, 0]).run sample = .ok c h' ∧
      c.Closes (.ofNat 64) (.ofNat 2) [0, 1, 0] h'.roots h'.memory ∧
      h'.roots = [.ofNat (Memory.origin + wordSize), .unboxed 7] := by
  have hgiven : Graph.given (Closure.allocate (.ofNat 64) (.ofNat 2) [0, 1, 0]) sample =
      some ⟨⟨Memory.origin + 2 * wordSize⟩⟩ := by decide +kernel
  have hrun := Graph.run_of_given hgiven
  obtain ⟨-, -, hmade⟩ := allocate_closes_roots sample (.ofNat 64) (.ofNat 2) [0, 1, 0]
  exact ⟨_, _, hrun, (hmade _ _ hrun).1, by decide +kernel⟩

end Closure

end TaggedHeap
