import TaggedHeap.Proofs.Heap.Calls

/-!
# Headers

The header of an object is the word in its slot zero. Marking changes one bit of it, and a write to
slot zero replaces it, by any word: from then on the object has the slots that this word gives it.
As long as nothing is written to slots that an object has because of such a word only, the header
of an object stays, but for the mark, until a write to its own slot zero.
-/

namespace TaggedHeap

namespace Word

/-- The words differ in the mark bit of headers at most. -/
def SameButMark (v w : Word) : Prop :=
  v.toNat / Header.uidUnit = w.toNat / Header.uidUnit ∧
    v.toNat % Header.markUnit = w.toNat % Header.markUnit

instance : DecidableRel SameButMark := fun _ _ => inferInstanceAs (Decidable (_ ∧ _))

theorem SameButMark.trans {u v w : Word} (huv : u.SameButMark v) (hvw : v.SameButMark w) :
    u.SameButMark w :=
  ⟨huv.1.trans hvw.1, huv.2.trans hvw.2⟩

end Word

/-- The mark is all that tells header words with the same fields apart. -/
theorem Header.sameButMark_toWord {hd hd' : Header} (hu : hd.uid = hd'.uid)
    (hn : hd.nfields = hd'.nfields) : hd.toWord.SameButMark hd'.toWord := by
  simp only [Word.SameButMark, toNat_toWord, hu, hn, nfieldsUnit, uidUnit, markUnit]
  split <;> split <;> omega

namespace Made

/-- The word is the header that it was made with, but for the mark. -/
def Heads (m : Made) (w : Word) : Prop :=
  ∃ uid nfields created, m.shape? = some (uid, nfields) ∧ headerWord uid nfields = .ok created ∧
    w.SameButMark created

theorem Heads.of_sameButMark {m : Made} {v w : Word} (h : m.Heads w) (hv : v.SameButMark w) :
    m.Heads v := by
  obtain ⟨uid, nfields, created, hshape, hcreated, hw⟩ := h
  exact ⟨uid, nfields, created, hshape, hcreated, hv.trans hw⟩

theorem Heads.kind_eq {m : Made} {w : Word} (h : m.Heads w) : w.kind = .header := by
  obtain ⟨uid, nfields, created, -, hcreated, hw⟩ := h
  obtain ⟨hd, -, -, -, rfl⟩ := Word.headerWord_eq_ok_iff.1 hcreated
  rw [Word.kind_eq_header_iff]
  exact hw.2.trans hd.toNat_toWord_bounds.1

theorem heads_toWord {m : Made} {hd : Header} (hs : m.shape? = some (hd.uid, hd.nfields)) :
    m.Heads hd.toWord := by
  have hcreated : headerWord hd.uid hd.nfields = .ok hd.unmark.toWord :=
    Word.headerWord_eq_ok_iff.2 ⟨hd.unmark, rfl, rfl, rfl, rfl⟩
  exact ⟨hd.uid, hd.nfields, _, hs, hcreated, Header.sameButMark_toWord rfl rfl⟩

end Made

/-- A write to slot zero of what was made `k`-th writes its header again, with the mark or without
it. -/
def Call.Spares (k : Nat) (l : Ledger) : Call → Prop
  | .setSlot j 0 w => j = k → ∀ m, l.made[j]? = some m → m.Heads w
  | _ => True

/-- If it is an object, the words begin with its header. -/
def Made.Leads (m : Made) (ws : List Word) : Prop :=
  ∀ o, m.object? = some o → ∃ w vs, ws = w :: vs ∧ m.Heads w

theorem Begins.leads {m : Made} {ws : List Word} (h : Begins m ws) : m.Leads ws := by
  intro o ho
  cases h with
  | object _ hs => exact ⟨_, _, rfl, Made.heads_toWord hs⟩
  | pair => cases ho
  | dword => cases ho

namespace Ledger

/-- What was made `k`-th still has its header, if it ever had one. -/
structure Kept (k : Nat) (l : Ledger) (f : Contents) : Prop where
  blocks : l.Blocks f
  led : Each (fun _ j m ws => j = k → m.Leads ws) l f

/-- Each of the calls is as required, in the state in which it is made. -/
def Along (p : Ledger → Call → Prop) : Ledger → List Call → Prop
  | _, [] => True
  | l, c :: calls => p l c ∧ Along p (l.call c) calls

namespace Kept

variable {k : Nat} {l : Ledger} {f : Contents}

/-- Every call keeps the blocks and the header. -/
theorem call (h : l.Kept k f) {c : Call} (hc : c.Confined l) (hs : c.Spares k l) :
    ∃ g, (l.call c).Kept k g := by
  obtain ⟨g, ht⟩ := h.blocks.turn hc
  refine ⟨g, ht.blocks h.blocks, ?_⟩
  generalize l.call c = l' at ht
  cases ht with
  | keeps hd ho => exact h.led
  | makes hd hnew ho hm hreg =>
    exact h.led.concat (fun hu _ => hu) h.blocks hnew (fun _ => hm.leads) _
  | @setsSlot j n m o ws w memory hj hm hf hn hzero ho =>
    have hleads := h.led.of_block hj hf
    apply h.led.changed (fun hu _ => hu) h.blocks hj (l.lookup_entered j n w)
    intro hjk o ho
    obtain ⟨v, vs, rfl, hv⟩ := hleads hjk o ho
    cases n with
    | zero =>
      obtain rfl := hzero rfl
      exact ⟨w, vs, rfl, hs hjk m hj⟩
    | succ n => exact ⟨v, vs.set n w, rfl, hv⟩
  | @setsPair j n p ws w memory hj hf hn ho =>
    apply h.led.changed (fun hu _ => hu) h.blocks hj (l.lookup_entered j n w)
    intro _ o ho
    cases ho
  | refused hj hm hn hzero he => exact h.led
  | @marks j m o hd hd' ws memory hj hm hf hu hn ho =>
    have hleads := h.led.of_block hj hf
    apply h.led.changed (fun hu _ => hu) h.blocks hj fun _ _ _ => rfl
    intro hjk o ho
    obtain ⟨v, vs, hws, hv⟩ := hleads hjk o ho
    obtain ⟨rfl, rfl⟩ := List.cons.inj hws
    exact ⟨_, _, rfl, hv.of_sameButMark (Header.sameButMark_toWord hu hn)⟩

theorem run (h : l.Kept k f) {calls : List Call} (hc : Along Call.Confined l calls)
    (hs : Along (Call.Spares k) l calls) : ∃ g, (l.run calls).Kept k g := by
  induction calls generalizing l f with
  | nil => exact ⟨f, h⟩
  | cons c calls ih =>
    obtain ⟨g, hg⟩ := h.call hc.1 hs.1
    exact ih hg hc.2 hs.2

end Kept

end Ledger

end TaggedHeap
