import TaggedHeap.Proofs.Heap.Calls

/-!
# Isolation

Over an arena no call touches what another one made: at every point of a run every slot holds the
word that was last written to it. The invariant is that the words of each block are those of the
ledger. Then the headers give no slots but those that the blocks have, and no write is refused that
the ledger enters.
-/

namespace TaggedHeap

/-- The words are those that a ledger expects of what was made `k`-th. -/
inductive Describes (written : Writes) (k : Nat) : Made → List Word → Prop where
  | object {m : Made} {o : HeapObject} {hd : Header} {ws : List Word} :
    m.object? = some o → m.shape? = some (hd.uid, hd.nfields) → m.Terminable → hd.Fits ws →
    ws.length = m.contents.length →
    (∀ n w, m.contents[n]? = some w → ws[n]? = some (written.latest k (n + 1) w)) →
    Describes written k m (hd.toWord :: ws)
  | pair (p : Pair) :
    Describes written k (.pair p) [written.latest k 0 .zero, written.latest k 1 .zero]
  | dword (d : DWord) {x : Nat} : x % dwordSize = 0 → x < wordLimit →
    Describes written k (.dword d (.taggedDWord x)) [d.lo, d.hi]

theorem Describes.congr {written written' : Writes} {k : Nat} {m : Made} {ws : List Word}
    (h : Describes written k m ws)
    (hw : ∀ n, written'.lookup (k, n) = written.lookup (k, n)) : Describes written' k m ws := by
  cases h with
  | object ho hs ht hfit hl hws =>
    exact .object ho hs ht hfit hl fun n w hn => (hws n w hn).trans (by rw [Writes.latest_eq (hw _)])
  | pair p =>
    rw [← Writes.latest_eq (hw 0), ← Writes.latest_eq (hw 1)]
    exact .pair p
  | dword d hal hx => exact .dword d hal hx

theorem Begins.describes {m : Made} {ws : List Word} (h : Begins m ws) (hm : m.Regular) (k : Nat) :
    Describes [] k m ws := by
  cases h with
  | object ho hs ht hfit => exact .object ho hs ht (hfit hm) rfl fun n w hw => hw
  | pair p => exact .pair p
  | dword d hal hx => exact .dword d hal hx

namespace Describes

variable {written : Writes} {k : Nat} {m : Made} {o : HeapObject} {ws : List Word}

theorem object_words (h : Describes written k m ws) (ho : m.object? = some o) :
    ∃ (hd : Header) (vs : List Word), ws = hd.toWord :: vs ∧ m.shape? = some (hd.uid, hd.nfields) ∧
      m.Terminable ∧ hd.Fits vs ∧ vs.length = m.contents.length ∧
      ∀ n w, m.contents[n]? = some w → vs[n]? = some (written.latest k (n + 1) w) := by
  cases h with
  | @object _ _ hd vs _ hs ht hfit hl hws => exact ⟨hd, vs, rfl, hs, ht, hfit, hl, hws⟩
  | pair p => cases ho
  | dword d => cases ho

/-- A word is written to a slot behind the header. -/
theorem setSlot (h : Describes written k m ws) (ho : m.object? = some o) {n : Nat}
    (hn : n + 1 < ws.length) (w : Word) :
    Describes (((k, n + 1), w) :: written) k m (ws.set (n + 1) w) := by
  obtain ⟨hd, vs, rfl, hs, ht, hfit, hl, hws⟩ := h.object_words ho
  refine .object ho hs ht (by simpa [Header.Fits] using hfit) (by simpa using hl) ?_
  intro i v hi
  by_cases hin : i = n
  · subst hin
    rw [List.getElem?_set_self (Nat.lt_of_succ_lt_succ hn), Writes.latest_cons_self]
  · rw [List.getElem?_set_ne (Ne.symm hin), hws i v hi, Writes.latest_cons_of_ne _ (.inr (by omega))]

/-- One component of a pair is written. -/
theorem setPair {p : Pair} (h : Describes written k (.pair p) ws) {n : Nat} (hn : n < 2) (w : Word) :
    Describes (((k, n), w) :: written) k (.pair p) (ws.set n w) := by
  cases h with
  | object ho => cases ho
  | pair p =>
    have hd : Describes (((k, n), w) :: written) k (.pair p) _ := .pair p
    obtain rfl | rfl : n = 0 ∨ n = 1 := by omega
    · rw [Writes.latest_cons_self, Writes.latest_cons_of_ne _ (.inr (by decide))] at hd
      exact hd
    · rw [Writes.latest_cons_self, Writes.latest_cons_of_ne _ (.inr (by decide))] at hd
      exact hd

/-- The mark of an object is changed. -/
theorem setMark {hd hd' : Header} {vs : List Word} (h : Describes written k m (hd.toWord :: vs))
    (ho : m.object? = some o) (hu : hd'.uid = hd.uid) (hn : hd'.nfields = hd.nfields) :
    Describes written k m (hd'.toWord :: vs) := by
  obtain ⟨hd₀, us, hws, hs, ht, hfit, hl, hlatest⟩ := h.object_words ho
  obtain ⟨hword, rfl⟩ := List.cons.inj hws
  obtain rfl : hd = hd₀ := by
    have hread := Header.ofWord?_toWord hd
    rw [hword, Header.ofWord?_toWord] at hread
    exact (Option.some.inj hread).symm
  refine .object ho (by rw [hs, hu, hn]) ht ?_ hl hlatest
  rw [Header.Fits, Header.layout_congr hu hn]
  exact hfit

end Describes

/-- Slot zero is not written. -/
theorem Call.Allowed.exists_succ {c : Call} (hc : c.Allowed) {k n : Nat} {w : Word}
    (hzero : n = 0 → c = .setSlot k 0 w) : ∃ i, n = i + 1 := by
  apply Nat.exists_eq_succ_of_ne_zero
  intro hn
  obtain rfl := hzero hn
  simp [Call.Allowed] at hc

namespace Ledger

open Heap

/-- The words of the blocks are as the ledger has them. -/
structure Sound (l : Ledger) (f : Contents) : Prop where
  blocks : l.Blocks f
  described : Each Describes l f

namespace Sound

variable {l : Ledger} {f : Contents}

/-- An object that was made stands at its address. -/
theorem object (h : l.Sound f) {k : Nat} {o : HeapObject} (ho : l.object? k = some o) :
    ∃ (m : Made) (hd : Header) (ws : List Word), l.made[k]? = some m ∧ m.object? = some o ∧
      f o.address = some (hd.toWord :: ws) ∧ m.shape? = some (hd.uid, hd.nfields) ∧
      m.Terminable ∧ hd.Fits ws ∧ ws.length = m.contents.length ∧
      ∀ n w, m.contents[n]? = some w → ws[n]? = some (l.written.latest k (n + 1) w) := by
  obtain ⟨m, hk, hm⟩ := Option.bind_eq_some_iff.1 ho
  obtain ⟨us, hf, hdesc⟩ := h.described k m hk
  obtain ⟨hd, ws, rfl, hwords⟩ := hdesc.object_words hm
  exact ⟨m, hd, ws, hk, hm, Made.start_of_object? hm ▸ hf, hwords⟩

/-- The headers give the slots that the objects were made with. -/
theorem confined (h : l.Sound f) (c : Call) : c.Confined l := by
  have hgives {k n : Nat} (hg : l.Gives k n) : n < l.slotCount k := by
    obtain ⟨o, w, ho, hr, hn⟩ := hg
    obtain ⟨m, hd, ws, hk, hm, hf, -, -, hfit, hlen, -⟩ := h.object ho
    obtain rfl := Except.ok.inj ((h.blocks.owns.read_start hf).symm.trans hr)
    rw [Word.slotsGiven_of_ofWord? (Header.ofWord?_toWord hd), hfit, hlen] at hn
    rwa [l.slotCount_eq hk, Made.slotCount_of_object? hm]
  cases c with
  | setSlot | setArgument | setCapture => exact hgives
  | _ => trivial

/-- Every call keeps the blocks as the ledger describes them. -/
theorem call (h : l.Sound f) {c : Call} (hc : c.Allowed) : ∃ g, (l.call c).Sound g := by
  obtain ⟨g, ht⟩ := h.blocks.turn (h.confined c)
  refine ⟨g, ht.blocks h.blocks, ?_⟩
  generalize l.call c = l' at ht
  cases ht with
  | keeps hd ho => exact h.described
  | makes hd hnew ho hm hreg =>
    exact h.described.concat Describes.congr h.blocks hnew (hm.describes (hreg hc) _) _
  | @setsSlot k n m o ws w memory hk hm hf hn hzero ho =>
    obtain ⟨n, rfl⟩ := hc.exists_succ hzero
    exact h.described.changed Describes.congr h.blocks hk (l.lookup_entered k _ w)
      ((h.described.of_block hk hf).setSlot hm hn w) _
  | @setsPair k n p ws w memory hk hf hn ho =>
    exact h.described.changed Describes.congr h.blocks hk (l.lookup_entered k n w)
      ((h.described.of_block hk hf).setPair hn w) _
  | @refused k n m o w e hk hm hn hzero he =>
    -- The write does not fail, as the object has the slots that it was made with.
    obtain ⟨m', hd, ws, hk', -, hf, -, -, hfit, hlen, -⟩ :=
      h.object (Option.bind_eq_some_iff.2 ⟨m, hk, hm⟩)
    obtain rfl := Option.some.inj (hk.symm.trans hk')
    rw [Made.slotCount_of_object? hm, ← hlen] at hn
    obtain ⟨n, rfl⟩ := hc.exists_succ hzero
    obtain ⟨memory, hwrite, -⟩ :=
      HeapObject.write_eq_ok h.blocks.owns hf hfit (Nat.lt_of_succ_lt_succ hn) w
    have hno := he.symm.trans hwrite
    cases hno
  | @marks k m o hd hd' ws memory hk hm hf hu hn ho =>
    exact h.described.changed Describes.congr h.blocks hk (fun _ _ _ => rfl)
      ((h.described.of_block hk hf).setMark hm hu hn) _

theorem run (h : l.Sound f) {calls : List Call} (hc : ∀ c ∈ calls, c.Allowed) :
    ∃ g, (l.run calls).Sound g := by
  induction calls generalizing l f with
  | nil => exact ⟨f, h⟩
  | cons c calls ih =>
    obtain ⟨g, hg⟩ := h.call (hc c List.mem_cons_self)
    exact ih hg fun d hd => hc d (List.mem_cons_of_mem c hd)

/-! ## What the blocks say -/

theorem headed_stored (h : l.Sound f) {k : Nat} {m : Made} {o : HeapObject} {uid nfields : Nat}
    (hk : l.made[k]? = some m) (ho : m.object? = some o) (hs : m.shape? = some (uid, nfields)) :
    nfields ≤ 255 ∧ l.Headed o uid nfields ∧ l.Stored k o m.contents := by
  obtain ⟨m', hd, ws, hk', -, hf, hshape, -, hfit, -, hws⟩ :=
    h.object (Option.bind_eq_some_iff.2 ⟨m, hk, ho⟩)
  obtain rfl : m = m' := Option.some.inj (hk.symm.trans hk')
  obtain ⟨rfl, rfl⟩ := Prod.mk.inj (Option.some.inj (hs.symm.trans hshape))
  have hh := h.blocks.owns.holds hf
  refine ⟨hd.nfields_le, ⟨hd, HeapObject.header_eq hh, rfl, rfl⟩, ?_⟩
  intro n w hn
  exact HeapObject.read_of_getElem? hh hfit (hws n w hn)

/-- A string that was not written to still has the bytes that it was made from. -/
theorem bytes_eq (h : l.Sound f) {k : Nat} {bytes : List UInt8} {s : CString}
    (hk : l.made[k]? = some (.cstring bytes s)) (hnone : ∀ n, l.written.lookup (k, n) = none) :
    s.bytes l.heap.memory = .ok bytes := by
  obtain ⟨m, hd, ws, hk', -, hf, -, hterm, -, hlen, hws⟩ :=
    h.object (Option.bind_eq_some_iff.2 ⟨_, hk, rfl⟩)
  obtain rfl : Made.cstring bytes s = m := Option.some.inj (hk.symm.trans hk')
  have hpack : ws = CString.pack (CString.wordsFor (bytes.length + 1)) bytes := by
    apply List.ext_getElem?
    intro n
    cases hc : (CString.pack (CString.wordsFor (bytes.length + 1)) bytes)[n]? with
    | none =>
      rw [List.getElem?_eq_none_iff] at hc ⊢
      exact hlen ▸ hc
    | some w =>
      rw [hws n w hc, Writes.latest, hnone]
      rfl
  subst hpack
  have hb := CString.bytes_eq h.blocks.owns hf (CString.zero_mem_bytes_pack bytes)
  rwa [CString.takeWhile_bytes_pack hterm] at hb

theorem reads (h : l.Sound f) {k : Nat} {m : Made} (hk : l.made[k]? = some m) : l.Reads k m := by
  cases m with
  | constructor uid nfields o =>
    obtain ⟨hle, hhead, hslot⟩ := h.headed_stored hk rfl rfl
    refine ⟨hhead, hslot, ?_⟩
    intro n hn
    rw [HeapObject.argument_eq_read o (by simp only [wordLimit]; omega)]
    exact hslot n .zero (by simp [Made.contents, hn])
  | closure code descriptor captured c =>
    obtain ⟨hle, hhead, hslot⟩ := h.headed_stored hk rfl rfl
    refine ⟨hhead, hslot, hslot 0 code rfl, hslot 1 descriptor rfl, ?_⟩
    intro n w hw
    have hn := (List.getElem?_eq_some_iff.1 hw).1
    rw [Closure.capture_eq_read c (by simp only [wordLimit]; omega)]
    exact hslot (n + 2) w hw
  | cstring bytes s =>
    obtain ⟨-, hhead, hslot⟩ := h.headed_stored hk rfl rfl
    exact ⟨hhead, hslot, h.bytes_eq hk⟩
  | pair p =>
    obtain ⟨ws, hf, hdesc⟩ := h.described _ _ hk
    cases hdesc with
    | object ho => simp [Made.object?] at ho
    | pair p =>
      obtain ⟨hfst, hrest⟩ := Memory.holds_cons.1 (h.blocks.owns.holds hf)
      exact ⟨hfst, (Memory.holds_cons.1 hrest).1⟩
  | dword d w =>
    obtain ⟨ws, hf, hdesc⟩ := h.described _ _ hk
    cases hdesc with
    | object ho => simp [Made.object?] at ho
    | dword d hal hlt =>
      rw [Made.start, Word.dwordAddress_taggedDWord hal hlt] at hf
      exact DWord.read_eq h.blocks.owns hal hf

end Sound

theorem sound_new (config : ArenaConfig) :
    Sound { heap := { arena := { config } } } fun _ => none :=
  ⟨blocks_new config, fun _ _ hk => by simp at hk⟩

/-- Over a new arena, after any calls, all that was made reads as the words last written to it. -/
theorem every_slot_reads_last_write (config : ArenaConfig) (calls : List Call)
    (hc : ∀ c ∈ calls, c.Allowed) : (run { heap := { arena := { config } } } calls).Intact := by
  obtain ⟨f, hf⟩ := (sound_new config).run hc
  exact fun k m hk => hf.reads hk

theorem pair_beside_constructor_reads_last_write :
    let l := run { heap := { arena := {} } }
      [.constructor 5 2, .pair, .setArgument 0 1 (.unboxed 7), .setFirst 1 (.unboxed 8)]
    l.made.length = 2 ∧ l.Intact :=
  ⟨by decide +kernel,
    every_slot_reads_last_write {} _ (by simp [Call.Allowed, closureUid])⟩

end Ledger

end TaggedHeap
