import TaggedHeap.Proofs.Client.Answers

/-!
# Operations on roots

Each operation that allocates nothing is determined by the items: those that read answer what the
item has, those that write change one item.
-/

namespace TaggedHeap.Client

open Heap Script

variable {c : ArenaConfig} {items : List Item} {i n : Nat}

/-! ## Slots -/

theorem determined_argument
    (hi : items.length ≤ i ∨ ∃ hd ws, items[i]? = some (.object hd ws) ∧ True) :
    Determined c items (Op.argument i n).run := by
  have hrun : (Op.argument i n).run = (do
      let o ← (Operand.root i).object []
      let v ← reading (o.argument n)
      return .word v) := bind_assoc ..
  rw [hrun]
  refine determined_reading (fun o => reading (o.argument n)) hi fun hd ws _ => ?_
  by_cases hn : n + 1 < wordLimit
  · refine ⟨wordAt ws n, ?_⟩
    intro h f w hr ho
    rw [outcome, run_reading, HeapObject.argument_eq_read _ hn, ho.read_eq hr]
    cases wordAt ws n <;> rfl
  · refine ⟨.error (.violated .sumOverflow), ?_⟩
    intro h f w _ _
    rw [outcome, run_reading, HeapObject.argument_of_le _ (by omega)]

theorem determined_capture
    (hi : items.length ≤ i ∨ ∃ hd ws, items[i]? = some (.object hd ws) ∧ hd.uid = closureUid) :
    Determined c items (Op.capture i n).run := by
  have hrun : (Op.capture i n).run = (do
      let o ← (Operand.root i).object []
      let v ← (do reading ((← reading (Closure.ofObject o)).capture n))
      return .word v) := by
    change ((((Operand.root i).object [] >>= fun o => reading (Closure.ofObject o)) >>= fun c =>
      reading (c.capture n)) >>= fun v => (pure (.word v) : HeapM Answer)) = _
    simp only [bind_assoc]
  rw [hrun]
  apply determined_reading _ hi
  intro hd ws hu
  by_cases hn : n + 3 < wordLimit
  · refine ⟨wordAt ws (n + 2), ?_⟩
    intro h f w hr ho
    rw [outcome, run_bind, ho.run_ofObject hr hu]
    simp only
    rw [run_reading, Closure.capture_eq_read _ hn, ho.read_eq hr]
    cases wordAt ws (n + 2) <;> rfl
  · refine ⟨.error (.violated .sumOverflow), ?_⟩
    intro h f w hr ho
    rw [outcome, run_bind, ho.run_ofObject hr hu]
    simp only
    rw [run_reading, Closure.capture_of_le _ (by omega)]

theorem determined_write {k : HeapObject → HeapM Unit} {p : Header → Prop} {w : Word}
    (hi : items.length ≤ i ∨ ∃ hd ws, items[i]? = some (.object hd ws) ∧ p hd)
    (hp : ∀ hd, p hd → hd.uid ≠ cstringUid)
    (hk : ∀ hd ws, p hd → ∀ h f v, Represents h items f → Found h f i v hd ws →
      (k ⟨v.toNat⟩).run h = (writing (HeapObject.write ⟨v.toNat⟩ (n + 1) w)).run h) :
    Determined c items (do
      let o ← (Operand.root i).object []
      k o
      return .done) := by
  refine determined_object (k := fun o => do k o; return .done) hi fun hd ws _ hpd => ?_
  rcases Nat.lt_or_ge n ws.length with hn | hn
  · refine ⟨.ok .done, items.set i (.object hd (ws.set n w)), ?_⟩
    intro h f v hr ho
    obtain ⟨m, hm, hrep⟩ := ho.run_write hr (hp hd hpd) hn w
    rw [outcome_then ((hk hd ws hpd h f v hr ho).trans hm) fun _ => Answer.done]
    exact ⟨_, rfl, rfl, hrep⟩
  · refine ⟨.error (.violated (.slotOutOfBounds (n + 1) (ws.length + 1))), items, ?_⟩
    intro h f v hr ho
    rw [outcome_then_of_error
      ((hk hd ws hpd h f v hr ho).trans (ho.run_write_of_le hr hn w)) fun _ => Answer.done]
    exact ⟨f, rfl, rfl, hr⟩

theorem determined_refused {k : HeapObject → HeapM Unit} {p : Header → Prop} {e : Fault}
    (hi : items.length ≤ i ∨ ∃ hd ws, items[i]? = some (.object hd ws) ∧ p hd)
    (hk : ∀ hd ws, p hd → ∀ h f v, Represents h items f → Found h f i v hd ws →
      (k ⟨v.toNat⟩).run h = .error e h) :
    Determined c items (do
      let o ← (Operand.root i).object []
      k o
      return .done) := by
  refine determined_object (k := fun o => do k o; return .done) hi fun hd ws _ hpd => ?_
  refine ⟨.error e, items, ?_⟩
  intro h f v hr ho
  rw [outcome_then_of_error (hk hd ws hpd h f v hr ho) fun _ => Answer.done]
  exact ⟨f, rfl, rfl, hr⟩

theorem determined_setArgument {w : Word}
    (hi : items.length ≤ i ∨ ∃ hd ws, items[i]? = some (.object hd ws) ∧ hd.uid ≠ cstringUid) :
    Determined c items (Op.setArgument i n w).run := by
  change Determined c items (do
    let o ← (Operand.root i).object []
    writing (o.setArgument n w)
    return .done)
  by_cases hn : n + 1 < wordLimit
  · refine determined_write (n := n) (w := w) hi (fun _ h => h) fun hd ws _ h f v _ _ => ?_
    rw [HeapObject.setArgument_eq_write _ hn]
  · apply determined_refused (e := .violated .sumOverflow) hi
    intro hd ws _ h f v _ _
    exact run_writing_of_error (HeapObject.setArgument_of_le _ (by omega) w _)

theorem determined_setCapture {w : Word}
    (hi : items.length ≤ i ∨ ∃ hd ws, items[i]? = some (.object hd ws) ∧ hd.uid = closureUid) :
    Determined c items (Op.setCapture i n w).run := by
  change Determined c items (do
    let o ← (Operand.root i).object []
    (do
      let c ← reading (Closure.ofObject o)
      writing (c.setCapture n w))
    return .done)
  by_cases hn : n + 3 < wordLimit
  · refine determined_write (n := n + 2) (w := w)
      (k := fun o => do writing ((← reading (Closure.ofObject o)).setCapture n w)) hi
      (fun hd hu => by rw [hu]; decide) fun hd ws hu h f v hr ho => ?_
    rw [run_bind, ho.run_ofObject hr hu]
    simp only
    rw [Closure.setCapture_eq_write _ hn]
  · refine determined_refused (e := .violated .sumOverflow)
      (k := fun o => do writing ((← reading (Closure.ofObject o)).setCapture n w)) hi
      fun hd ws hu h f v hr ho => ?_
    rw [run_bind, ho.run_ofObject hr hu]
    exact run_writing_of_error (Closure.setCapture_of_le _ (by omega) w _)

/-! ## Marks -/

theorem determined_header {k : HeapObject → Memory → Except Fault Memory} (g : Header → Header)
    (hg : ∀ hd, (g hd).uid = hd.uid ∧ (g hd).nfields = hd.nfields)
    (hi : items.length ≤ i ∨ ∃ hd ws, items[i]? = some (.object hd ws) ∧ True)
    (hk : ∀ h f v hd ws, Represents h items f → Found h f i v hd ws →
      ∃ m, k ⟨v.toNat⟩ h.memory = .ok m ∧
        (h.withMemory m).arena.Owns (f.put v.toNat ((g hd).toWord :: ws))) :
    Determined c items (do
      let o ← (Operand.root i).object []
      writing (k o)
      return .done) := by
  refine determined_object (k := fun o => do writing (k o); return .done) hi fun hd ws _ _ => ?_
  refine ⟨.ok .done, items.set i (.object (g hd) ws), ?_⟩
  intro h f v hr ho
  obtain ⟨m, hm, hown⟩ := hk h f v hd ws hr ho
  obtain ⟨hu, hn⟩ := hg hd
  rw [outcome_then (run_writing_of_ok hm) fun _ => Answer.done]
  refine ⟨_, rfl, rfl, hr.update ho.root ho.pointer hown ?_ fun he => ho.terminated (hu ▸ he)⟩
  rw [Header.Fits, Header.layout_congr hu hn]
  exact ho.fits

theorem determined_mark
    (hi : items.length ≤ i ∨ ∃ hd ws, items[i]? = some (.object hd ws) ∧ True) :
    Determined c items (Op.mark i).run :=
  determined_header Header.mark (fun _ => ⟨rfl, rfl⟩) hi fun _ _ v _ _ hr ho =>
    HeapObject.mark_eq_ok (o := ⟨v.toNat⟩) hr.owns ho.block

theorem determined_unmark
    (hi : items.length ≤ i ∨ ∃ hd ws, items[i]? = some (.object hd ws) ∧ True) :
    Determined c items (Op.unmark i).run :=
  determined_header Header.unmark (fun _ => ⟨rfl, rfl⟩) hi fun _ _ v _ _ hr ho =>
    HeapObject.unmark_eq_ok (o := ⟨v.toNat⟩) hr.owns ho.block

/-! ## Roots -/

theorem determined_push {w : Word} (hw : w.IsData) : Determined c items (Op.push w).run := by
  refine ⟨.ok (.rootIndex items.length), items ++ [.data w], fun h f hc hr => .inr ⟨f, ?_⟩⟩
  have hrun : (Op.push w).run.run h =
      .ok (.rootIndex h.roots.length) { h with roots := h.roots ++ [w] } := rfl
  rw [outcome_of_ok hrun, hr.length_eq]
  refine ⟨rfl, hc, hr.push ⟨rfl, hw⟩ ?_⟩
  intro i v x _ _
  rw [hw.block?]
  simp

theorem determined_truncate (size : Nat) : Determined c items (Op.truncate size).run := by
  refine ⟨.ok (.flag (items.take size).isEmpty), items.take size, fun h f hc hr => .inr ⟨f, ?_⟩⟩
  have hrun : (Op.truncate size).run.run h =
      .ok (.flag (h.roots.take size).isEmpty) { h with roots := h.roots.take size } := rfl
  have hrep := hr.truncate size
  have hempty : (h.roots.take size).isEmpty = (items.take size).isEmpty := by
    have hl : (h.roots.take size).length = (items.take size).length := hrep.length_eq
    rw [Bool.eq_iff_iff, List.isEmpty_iff_length_eq_zero, List.isEmpty_iff_length_eq_zero, hl]
  rw [outcome_of_ok hrun, hempty]
  exact ⟨rfl, hc, hrep⟩

theorem determined_readDWord
    (hi : items.length ≤ i ∨ ∃ d, items[i]? = some (.dword d)) :
    Determined c items (Op.readDWord i).run := by
  rcases hi with hge | ⟨d, hd⟩
  · refine Determined.of_unchanged (.error (.violated (.rootOutOfBounds items.length i)))
      fun h f hr => outcome_of_error ?_
    have hnone : h.roots[i]? = none := List.getElem?_eq_none (hr.length_eq ▸ hge)
    rw [Op.run, Step.run, run_bind, Operand.eval, run_root, Roots.read_of_none hnone, hr.length_eq]
  · apply Determined.of_unchanged (.ok (.number d.toNat))
    intro h f hr
    apply outcome_of_ok
    obtain ⟨w, hw, x, rfl, -, -, hal, hx⟩ := hr.root hd
    have hread := DWord.read_eq hr.owns hal hx
    rw [Op.run, Step.run, run_bind, Operand.eval, run_root, Roots.read_of_some hw]
    simp only
    rw [run_bind, run_reading_of_ok hread]
    rfl

end TaggedHeap.Client
