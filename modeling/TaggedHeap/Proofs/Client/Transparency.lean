import TaggedHeap.Proofs.Client.Operations

/-!
# Transparency of collections

An allocation may be preceded by a collection, which moves everything and changes no item; then a
block is handed out that no item lies in. So allocations are determined as well, and a client
program is answered the same whether the heap collects or not. Only where the chunks no longer fit
the address space does it make a difference, since copies take memory too.
-/

namespace TaggedHeap.Client

open Heap Script

variable {c : ArenaConfig} {items : List Item}

/-! ## Requests -/

section Requests

variable {h : Heap} {f : Contents} (hr : Represents h items f) {r : Request}
  (hn : r.wordCount ≤ maxSlots)
include hr hn

/-- Whatever the discipline does ahead of a request, the items stay. -/
theorem Represents.run_prepare :
    (∃ h', (prepare r).run h = .error .exhausted h') ∨
    ∃ h' g, (prepare r).run h = .ok () h' ∧ h'.arena.config = h.arena.config ∧
      Represents h' items g := by
  rw [Heap.run_prepare]
  cases h.discipline with
  | plain => exact .inr ⟨h, f, rfl, rfl, hr⟩
  | recording calls =>
    rw [Request.size_eq_ok_of_le hn]
    exact .inr ⟨_, f, rfl, rfl, hr.congr rfl rfl hr.owns fun _ _ => rfl⟩
  | moving n =>
    have hr' : Represents { h with discipline := .moving (n + 1) } items f :=
      hr.congr rfl rfl hr.owns fun _ _ => rfl
    rcases run_collect hr'.owns hr'.unlimited fun w hw hp => hr'.movable hw hp with
      ⟨h', g, hc, -, hcfg, hown, hrel⟩ | ⟨h', hc⟩ | ⟨e, h', -, hshared⟩
    · exact .inr ⟨h', g, hc, hcfg, hr'.relocated hcfg hown hrel⟩
    · exact .inl ⟨h', hc⟩
    · exact absurd hr'.unshared hshared

/-- A request is answered with a block that no item lies in, unless no chunk can be made. -/
theorem Represents.run_allocate (he : r.isEmpty = false) :
    (∃ h', (allocate r).run h = .error .exhausted h') ∨
    (∃ e h' g, h.arena.config.opening r.wordCount = .error e ∧ (allocate r).run h = .error e h' ∧
      h'.arena.config = h.arena.config ∧ Represents h' items g) ∨
    ∃ k x h' g, h.arena.config.opening r.wordCount = .ok k ∧ (allocate r).run h = .ok x h' ∧
      h'.arena.config = h.arena.config ∧ Represents h' items g ∧ g x = none ∧
      x % (wordSize * r.alignment) = 0 ∧
      h'.arena.Owns (g.put x (List.replicate r.wordCount Word.zero)) := by
  rw [Heap.run_allocate]
  rcases hr.run_prepare hn with ⟨h', hp⟩ | ⟨h₁, f₁, hp, hcfg, hr₁⟩
  · rw [hp]
    exact .inl ⟨h', rfl⟩
  · rw [hp]
    simp only
    rcases run_reserve_of_le hr₁.owns hr₁.unlimited h₁.roots.length id he hn with
      ⟨k, hk, ⟨x, h', hres, hsame, hnew, hal, hown⟩ | ⟨h', hres⟩⟩ |
        ⟨e, h', hk, hres, hsame, harena, -⟩
    · have hkeep : h'.arena.Owns f₁ := hown.of_put hnew
      refine .inr (.inr ⟨k, x, h', f₁, hcfg ▸ hk, hres, hsame.config.trans hcfg, ?_, hnew, hal, hown⟩)
      exact hr₁.congr hsame.roots hsame.config hkeep fun _ _ => rfl
    · exact .inl ⟨h', hres⟩
    · refine .inr (.inl ⟨e, h', f₁, hcfg ▸ hk, hres, hsame.config.trans hcfg, ?_⟩)
      exact hr₁.congr hsame.roots hsame.config (harena ▸ hr₁.owns) fun _ _ => rfl

end Requests

/-! ## Making something -/

/-- Something is made in a new block and the word for it pushed. -/
theorem Represents.keep {h : Heap} {f : Contents} (hr : Represents h items f) {m : Memory} {x : Nat}
    {ws : List Word} {w : Word} {item : Item} (hx : f x = none)
    (ho : (h.withMemory m).arena.Owns (f.put x ws)) (hw : w.block? = some x)
    (hs : item.Shown (f.put x ws) w) :
    Represents { h.withMemory m with roots := h.roots ++ [w] } (items ++ [item]) (f.put x ws) := by
  have hk : Represents (h.withMemory m) items (f.put x ws) := by
    refine hr.congr rfl rfl ho fun y hy => f.put_of_ne _ ?_
    rintro rfl
    exact hy hx
  apply hk.push hs
  intro i v y hi hv hy
  obtain rfl := Option.some.inj (hw.symm.trans hy)
  obtain ⟨it, -, hit⟩ := hr.item hi
  exact hit.ne_none hv hx

theorem run_keep (source : Source) (h : Heap) :
    (keep source).run h =
      match (source.eval []).run h with
      | .ok w h' => .ok (.rootIndex h'.roots.length) { h' with roots := h'.roots ++ [w] }
      | .error e h' => .error e h' := by
  rw [Client.keep, run_bind]
  cases (source.eval []).run h <;> rfl

/-- What is refused before memory is asked for is determined. -/
theorem determined_keep_of_refused {source : Source} {e : Fault}
    (hs : ∀ h, (source.eval []).run h = .error e h) : Determined c items (keep source) :=
  .of_unchanged (.error e) fun h _ _ => outcome_of_error (by rw [run_keep, hs])

/-- What is made by one request is determined if the item that it becomes is. -/
theorem determined_keep {source : Source} {r : Request} (item : Item) (he : r.isEmpty = false)
    (hn : r.wordCount ≤ maxSlots)
    (herr : ∀ h e h', (Heap.allocate r).run h = .error e h' →
      (source.eval []).run h = .error e h')
    (hok : ∀ h x h' g, (Heap.allocate r).run h = .ok x h' → Represents h' items g →
      x % (wordSize * r.alignment) = 0 →
      h'.arena.Owns (g.put x (List.replicate r.wordCount Word.zero)) →
      ∃ m ws w, (source.eval []).run h = .ok w (h'.withMemory m) ∧
        (h'.withMemory m).arena.Owns (g.put x ws) ∧ w.block? = some x ∧
        item.Shown (g.put x ws) w) :
    Determined c items (keep source) := by
  cases hk : c.opening r.wordCount with
  | error e =>
    refine ⟨.error e, items, ?_⟩
    intro h f hc hr
    rcases hr.run_allocate hn he with
      ⟨h', ha⟩ | ⟨e', h', g, hk', ha, hcfg, hr'⟩ | ⟨k, _, _, _, hk', _⟩
    · rw [outcome_of_error (by rw [run_keep, herr h _ h' ha])]
      exact .inl rfl
    · rw [hc, hk] at hk'
      obtain rfl := Except.error.inj hk'
      rw [outcome_of_error (by rw [run_keep, herr h _ h' ha])]
      exact .inr ⟨g, rfl, hcfg.trans hc, hr'⟩
    · rw [hc, hk] at hk'
      cases hk'
  | ok k =>
    refine ⟨.ok (.rootIndex items.length), items ++ [item], ?_⟩
    intro h f hc hr
    rcases hr.run_allocate hn he with
      ⟨h', ha⟩ | ⟨e', _, _, hk', _⟩ | ⟨_, x, h', g, -, ha, hcfg, hr', hx, hal, hown⟩
    · rw [outcome_of_error (by rw [run_keep, herr h _ h' ha])]
      exact .inl rfl
    · rw [hc, hk] at hk'
      cases hk'
    · obtain ⟨m, ws, w, hrun, hown', hw, hs⟩ := hok h x h' g ha hr' hal hown
      have hkeep := hr'.keep hx hown' hw hs
      rw [outcome_of_ok (by rw [run_keep, hrun])]
      refine .inr ⟨_, ?_, hcfg.trans hc, hkeep⟩
      exact congrArg (fun n => Except.ok (Answer.rootIndex n)) hr'.length_eq

/-- The word for an object that was made, and the item that it becomes. -/
theorem object_made {α : Type} {x : HeapM α} (object : α → HeapObject) {a : α} {h h' : Heap}
    {g : Contents} {hd : Header} {ws : List Word} (hx : x.run h = .ok a h')
    (ho : h'.arena.Owns (g.put (object a).address (hd.toWord :: ws))) (hfit : hd.Fits ws)
    (hz : hd.uid = cstringUid → 0 ∈ ws.flatMap Word.bytes) :
    ∃ w, (do lift (object (← x)).toWord : HeapM Word).run h = .ok w h' ∧
      w.block? = some (object a).address ∧
      Item.Shown (g.put (object a).address (hd.toWord :: ws)) w (.object hd ws) := by
  obtain ⟨hal, hlt⟩ := ho.start_aligned (g.put_self _ _)
  have hkind := Word.kind_ofNat hal hlt
  have hnat : (Word.ofNat (object a).address).toNat = (object a).address :=
    Word.toNat_ofNat_of_lt hlt
  refine ⟨.ofNat (object a).address, ?_, ?_, hkind, ?_, hfit, hz⟩
  · rw [run_bind, hx]
    simp only
    rw [run_lift, HeapObject.toWord, Word.pointerTo, if_pos hal]
  · rw [Word.block?_of_pointer hkind, hnat]
  · rw [hnat, Contents.put_self]

theorem determined_constructor {uid : Nat} (hu : 2 ≤ uid) (nfields : Nat) :
    Determined c items (Op.constructor uid nfields).run := by
  cases hh : Header.ofFields? uid nfields with
  | error e =>
    apply determined_keep_of_refused (e := e)
    intro h
    rw [Source.eval, run_bind, HeapObject.run_allocate_of_refused hh]
  | ok hd =>
    obtain ⟨hu', hn, -⟩ := Header.ofFields?_eq_ok hh
    have hle : hd.nfields ≤ 255 := hd.nfields_le
    have hfit : hd.Fits (List.replicate nfields Word.zero) :=
      Header.fits_of_uid_ne (by simp only [closureUid]; omega) (by rw [List.length_replicate, hn])
    refine determined_keep (r := .words (nfields + 1)) (.object hd (List.replicate nfields .zero))
      rfl (by simp only [Request.wordCount, maxSlots, maxFields]; omega) (fun h e h' ha => ?_)
      fun h x h' g ha hr hal ho => ?_
    · rw [Source.eval, run_bind, HeapObject.run_allocate_of_error hh ha]
    · obtain ⟨m, hm, hown⟩ := HeapObject.run_allocate_of_ok hh ha ho (g.put_self _ _)
      rw [Contents.put_put] at hown
      obtain ⟨w, hw, hblock, hs⟩ := object_made id hm hown hfit
        fun he => by simp only [cstringUid] at he; omega
      exact ⟨m, _, w, hw, hown, hblock, hs⟩

/-- Captures are taken from items that hold data. -/
theorem captures_eq {captures : List Nat} (hc : ∀ i ∈ captures, ∃ w, items[i]? = some (.data w)) :
    ∃ us, ∀ h f, Represents h items f → captures.mapM h.roots.read = .ok us := by
  induction captures with
  | nil => exact ⟨[], fun _ _ _ => rfl⟩
  | cons i captures ih =>
    obtain ⟨w, hi⟩ := hc i List.mem_cons_self
    obtain ⟨us, hus⟩ := ih fun j hj => hc j (List.mem_cons_of_mem _ hj)
    refine ⟨w :: us, ?_⟩
    intro h f hr
    obtain ⟨v, hv, rfl, -⟩ := hr.root hi
    rw [Roots.mapM_read_cons_of_ok (Roots.read_of_some hv), hus h f hr]
    rfl

theorem determined_closure (code descriptor : Word) {captures : List Nat}
    (hc : ∀ i ∈ captures, ∃ w, items[i]? = some (.data w)) :
    Determined c items (Op.closure code descriptor captures).run := by
  cases hh : Header.ofFields? closureUid captures.length with
  | error e =>
    apply determined_keep_of_refused (e := e)
    intro h
    rw [Source.eval, run_bind, Closure.run_allocate_of_refused hh]
  | ok hd =>
    obtain ⟨hu, hn, -⟩ := Header.ofFields?_eq_ok hh
    have hle : hd.nfields ≤ 255 := hd.nfields_le
    obtain ⟨us, hus⟩ := captures_eq hc
    refine determined_keep (r := .words (1 + closureExtraSlots + captures.length))
      (.object hd (code :: descriptor :: us)) (by simp [Request.isEmpty, closureExtraSlots])
      (by simp only [Request.wordCount, maxSlots, maxFields, closureExtraSlots]; omega)
      (fun h e h' ha => ?_) fun h x h' g ha hr hal ho => ?_
    · rw [Source.eval, run_bind, Closure.run_allocate_of_error hh ha]
    · obtain ⟨m, ws, hlen, hown, hend⟩ :=
        Closure.run_allocate_of_ok code descriptor hh ha ho (g.put_self _ _)
      rw [Contents.put_put] at hown
      rcases hend with ⟨hws, hm⟩ | ⟨e, he, -⟩
      · obtain rfl : us = ws := Except.ok.inj ((hus h' g hr).symm.trans hws)
        obtain ⟨w, hw, hblock, hs⟩ := object_made Closure.object hm hown
          (Header.fits_closure hu (hlen.trans hn.symm))
          fun he => by rw [hu] at he; cases he
        exact ⟨m, _, w, hw, hown, hblock, hs⟩
      · rw [hus h' g hr] at he
        cases he

theorem determined_cstring (bytes : List UInt8) :
    Determined c items (Op.cstring bytes).run := by
  cases hh : CString.headerFor bytes with
  | error e =>
    apply determined_keep_of_refused (e := e)
    intro h
    rw [Source.eval, run_bind, CString.run_allocate_of_refused hh]
  | ok hd =>
    obtain ⟨-, hu, hn, -⟩ := CString.headerFor_eq_ok hh
    have hle : hd.nfields ≤ 255 := hd.nfields_le
    have hfit : hd.Fits (CString.pack hd.nfields bytes) :=
      Header.fits_of_uid_ne (by rw [hu]; decide) (CString.length_pack _ _)
    refine determined_keep (r := .words (hd.nfields + 1)) (.object hd (CString.pack hd.nfields bytes))
      rfl (by simp only [Request.wordCount, maxSlots, maxFields]; omega) (fun h e h' ha => ?_)
      fun h x h' g ha hr hal ho => ?_
    · rw [Source.eval, run_bind, CString.run_allocate_of_error hh ha]
    · obtain ⟨m, hm, hown⟩ := CString.run_allocate_of_ok hh ha ho (g.put_self _ _)
      rw [Contents.put_put] at hown
      obtain ⟨w, hw, hblock, hs⟩ := object_made CString.object hm hown hfit
        fun _ => hn ▸ CString.zero_mem_bytes_pack bytes
      exact ⟨m, _, w, hw, hown, hblock, hs⟩

theorem determined_dword (d : DWord) : Determined c items (Op.dword d).run := by
  refine determined_keep (r := .dwords 1) (.dword d) rfl
    (by simp only [Request.wordCount, maxSlots, maxFields]; omega)
    (fun h e h' ha => DWord.run_allocate_of_error ha) fun h x h' g ha hr hal ho => ?_
  have hal : x % dwordSize = 0 := by
    simpa only [dwordSize, Request.alignment, Nat.mul_comm] using hal
  have hlt := (ho.start_aligned (g.put_self x _)).2
  obtain ⟨m, hm, hown⟩ := DWord.run_allocate_of_ok (d := d) ha hal ho (g.put_self _ _)
  rw [Contents.put_put] at hown
  have hkind := Word.kind_taggedDWord hal hlt
  have haddr := Word.dwordAddress_taggedDWord hal hlt
  refine ⟨m, _, .taggedDWord x, hm, hown, ?_, x, rfl, hkind, haddr, hal, g.put_self _ _⟩
  simp [Word.block?, hkind, haddr]

/-! ## Programs -/

/-- Every operation that a client may carry out is determined. -/
theorem Op.Permitted.determined {h : Heap} {f : Contents} {op : Op} (hp : op.Permitted h)
    (hr : Represents h items f) : Determined c items op.run := by
  cases op with
  | constructor uid nfields => exact determined_constructor hp nfields
  | closure code descriptor captures =>
    apply determined_closure code descriptor
    intro i hi
    obtain ⟨w, hw, hdata⟩ := hp i hi
    obtain ⟨item, hitem, hs⟩ := hr.item hw
    cases item with
    | data v => exact ⟨v, hitem⟩
    | object hd ws => exact absurd hs.1 hdata.ne_pointer
    | dword d =>
      obtain ⟨x, -, hk, -⟩ := hs
      exact absurd hk hdata.ne_dwordPointer
  | cstring bytes => exact determined_cstring bytes
  | dword d => exact determined_dword d
  | push w => exact determined_push hp
  | truncate size => exact determined_truncate size
  | setArgument i n w => exact determined_setArgument (hr.of_onObject hp)
  | setCapture i n w => exact determined_setCapture (hr.of_onObject hp)
  | mark i => exact determined_mark (hr.of_onObject hp)
  | unmark i => exact determined_unmark (hr.of_onObject hp)
  | ask i q => exact determined_ask (hr.of_onObject hp)
  | argument i n => exact determined_argument (hr.of_onObject hp)
  | capture i n => exact determined_capture (hr.of_onObject hp)
  | readDWord i =>
    apply determined_readDWord
    rcases Nat.lt_or_ge i items.length with hlt | hge
    · obtain ⟨w, hw, hs⟩ := hr.root (List.getElem?_eq_getElem hlt)
      obtain ⟨item, hitem, hs⟩ := hr.item hw
      cases item with
      | data v => exact absurd (hp w hw) hs.2.ne_dwordPointer
      | object hd ws => exact absurd (hs.1.symm.trans (hp w hw)) (by decide)
      | dword d => exact .inr ⟨d, hitem⟩
    · exact .inl hge

/-- Heaps that hold the same items answer a program the same. -/
theorem Program.answers_eq {p : Program} {h k : Heap} {f g : Contents}
    (hr : Represents h items f) (kr : Represents k items g)
    (hc : k.arena.config = h.arena.config) (hp : p.Permitted h)
    (hx : ∀ r ∈ p.answers h, isExhausted r = false)
    (kx : ∀ r ∈ p.answers k, isExhausted r = false) :
    p.answers k = p.answers h := by
  -- Both heaps hold the same items before each step, so the same step keeps it so.
  induction p generalizing h k items f g with
  | done => rfl
  | step op next ih =>
    obtain ⟨hop, hnext⟩ := hp
    obtain ⟨hx₁, hx₂⟩ := List.forall_mem_cons.1 hx
    obtain ⟨kx₁, kx₂⟩ := List.forall_mem_cons.1 kx
    obtain ⟨result, items', hdet⟩ := hop.determined (c := h.arena.config) hr
    obtain ⟨f', hf, hcfg, hr'⟩ :=
      (hdet h f rfl hr).resolve_left fun he => by rw [he] at hx₁; cases hx₁
    obtain ⟨g', hg, kcfg, kr'⟩ :=
      (hdet k g hc kr).resolve_left fun he => by rw [he] at kx₁; cases kx₁
    rw [hf] at hnext hx₂
    rw [hg] at kx₂
    simp only [answers]
    rw [hg, hf, ih result hr' kr' (kcfg.trans hcfg.symm) hnext hx₂ kx₂]

def start (config : ArenaConfig) (d : Discipline) : Heap := { arena := { config }, discipline := d }

theorem represents_start {config : ArenaConfig} (hl : config.limit = none) (d : Discipline) :
    Represents (start config d) [] fun _ => none :=
  ⟨hl, (Arena.valid_new config).owns_none, rfl, by simp [start], by simp [start]⟩

/-- A client program is answered the same over an arena that collects and one that does not. -/
theorem collections_transparent (config : ArenaConfig) (hl : config.limit = none) (n : Nat)
    (p : Program) (hp : p.Permitted (start config .plain))
    (hx : ∀ r ∈ p.answers (start config .plain), isExhausted r = false)
    (hy : ∀ r ∈ p.answers (start config (.moving n)), isExhausted r = false) :
    p.answers (start config (.moving n)) = p.answers (start config .plain) :=
  Program.answers_eq (represents_start hl .plain) (represents_start hl (.moving n)) rfl hp hx hy

/-- Makes a constructor, a string and a double word and reads all of them back. -/
def sample : Program :=
  .step (.constructor 5 1) fun _ => .step (.setArgument 0 0 (.unboxed 7)) fun _ =>
  .step (.cstring [104, 105]) fun _ => .step (.mark 0) fun _ =>
  .step (.dword ⟨.zero, .zero⟩) fun _ => .step (.argument 0 0) fun _ =>
  .step (.ask 1 .bytes) fun _ => .step (.readDWord 2) fun _ => .done

theorem sample_transparent :
    sample.answers (start {} (.moving 0)) = sample.answers (start {} .plain) :=
  collections_transparent {} rfl 0 sample (by decide +kernel) (by decide +kernel)
    (by decide +kernel)

end TaggedHeap.Client
