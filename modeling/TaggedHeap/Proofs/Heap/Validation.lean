import TaggedHeap.Proofs.Heap.Allocations
import TaggedHeap.Proofs.Heap.Closures

/-!
# Checks ahead of effects

A call that allocates looks at its arguments, makes one request and writes to the block that it was
given, in this order. So a call whose arguments do not fit leaves the heap as it is, one whose
request fails leaves what the request left, and no other word is written by any. Nothing is assumed
of the heap.
-/

namespace TaggedHeap

namespace Allocation

open Heap

/-- The request of a call, made once the arguments are found to fit. -/
def request : Allocation → Request
  | .block r => r
  | .constructor _ nfields => .words (nfields + 1)
  | .closure _ _ captures => .words (captures.length + 3)
  | .cstring bytes => .words (CString.fieldsFor bytes.length + 1)
  | .pair => .words 2
  | .dword _ => .dwords 1

/-- The arguments are refused, for this cause. Of two causes the first in the order of the checks
is given. -/
inductive Unfit : Allocation → Refusal → Prop where
  | uid {uid nfields : Nat} : maxUids ≤ uid → Unfit (.constructor uid nfields) (.uidOutOfRange uid)
  | fields {uid nfields : Nat} : uid < maxUids → maxFields < nfields →
    Unfit (.constructor uid nfields) (.tooManyFields nfields)
  | captures {code descriptor : Word} {captures : List Nat} : maxFields < captures.length →
    Unfit (.closure code descriptor captures) (.tooManyFields captures.length)
  | zero {bytes : List UInt8} {i : Nat} : CString.FirstZero bytes i →
    Unfit (.cstring bytes) (.interiorNul i)
  | length {bytes : List UInt8} : 0 ∉ bytes → CString.maxBytes < bytes.length →
    Unfit (.cstring bytes) (.tooManyFields (CString.fieldsFor bytes.length))

/-- The arguments of the call are not refused. -/
def Fit (c : Allocation) : Prop := ∀ cause, ¬ c.Unfit cause

/-- The ways in which a call ends. The answer of one that succeeds names the block. -/
inductive Ending {α : Type} (c : Allocation) (h : Heap) (answer : Nat → α) :
    EStateM.Result Fault Heap α → Prop where
  | unfit {cause : Refusal} : c.Unfit cause → Ending c h answer (.error (.refused cause) h)
  | unserved {e : Fault} {g : Heap} : c.Fit → (Heap.allocate c.request).run h = .error e g →
    Ending c h answer (.error e g)
  /-- What was written stays written. -/
  | stopped {e : Fault} {x : Nat} {g : Heap} {m : Memory} : c.Fit →
    (Heap.allocate c.request).run h = .ok x g →
    g.memory.ChangedWithin ⟨x, c.request.wordCount⟩ m → (∀ cause, e ≠ .refused cause) →
    Ending c h answer (.error e (g.withMemory m))
  | made {x : Nat} {g : Heap} {m : Memory} : c.Fit → (Heap.allocate c.request).run h = .ok x g →
    g.memory.ChangedWithin ⟨x, c.request.wordCount⟩ m →
    Ending c h answer (.ok (answer x) (g.withMemory m))

theorem Ending.map {α β : Type} {c : Allocation} {h : Heap} {answer : Nat → α} {y : HeapM α}
    (hy : c.Ending h answer (y.run h)) (f : α → β) :
    c.Ending h (fun x => f (answer x)) ((f <$> y).run h) := by
  rw [run_map]
  generalize y.run h = result at hy ⊢
  cases hy with
  | unfit hu => exact .unfit hu
  | unserved hf hr => exact .unserved hf hr
  | stopped hf hr hc he => exact .stopped hf hr hc he
  | made hf hr hc => exact .made hf hr hc

/-! ## One lemma a kind -/

theorem ending_block (r : Request) (h : Heap) :
    (block r).Ending h id ((Heap.allocate r).run h) := by
  have hfit : (block r).Fit := fun _ hu => nomatch hu
  cases ha : (Heap.allocate r).run h with
  | error e g => exact .unserved hfit ha
  | ok x g => exact @Ending.made _ (block r) h id x g g.memory hfit ha (.refl _ _)

theorem ending_constructor (uid nfields : Nat) (h : Heap) :
    (constructor uid nfields).Ending h HeapObject.mk ((HeapObject.allocate uid nfields).run h) := by
  by_cases hu : uid < maxUids
  case neg =>
    rw [HeapObject.run_allocate_of_refused (Header.ofFields?_of_uid (Nat.not_lt.1 hu) _)]
    exact .unfit (.uid (Nat.not_lt.1 hu))
  by_cases hn : nfields ≤ maxFields
  case neg =>
    rw [HeapObject.run_allocate_of_refused (Header.ofFields?_of_lt hu (Nat.not_le.1 hn))]
    exact .unfit (.fields hu (Nat.not_le.1 hn))
  have hfit : (constructor uid nfields).Fit := by
    intro cause hunfit
    cases hunfit with
    | uid hge => exact absurd hu (Nat.not_lt.2 hge)
    | fields _ hlt => exact absurd hn (Nat.not_le.2 hlt)
  have hh := Header.ofFields?_of_le hu hn
  cases ha : (Heap.allocate (.words (nfields + 1))).run h with
  | error e g =>
    rw [HeapObject.run_allocate_of_error hh ha]
    exact .unserved hfit ha
  | ok x g =>
    obtain ⟨ws, hlen, hold⟩ :=
      (inChunk_of_allocate (r := .words (nfields + 1)) rfl ha).exists_holds
    obtain ⟨w, ws, rfl⟩ := List.exists_cons_of_length_eq_add_one hlen
    obtain ⟨m, hrun, -, hc⟩ := HeapObject.run_allocate_of_holds hh ha hold
    rw [hrun]
    exact .made hfit ha (Nat.succ.inj hlen ▸ hc)

theorem ending_closure (code descriptor : Word) (captures : List Nat) (h : Heap) :
    (closure code descriptor captures).Ending h (fun x => Closure.mk ⟨x⟩)
      ((Closure.allocate code descriptor captures).run h) := by
  by_cases hn : captures.length ≤ maxFields
  case neg =>
    rw [Closure.run_allocate_of_lt (Nat.not_le.1 hn)]
    exact .unfit (.captures (Nat.not_le.1 hn))
  have hfit : (closure code descriptor captures).Fit := by
    intro cause hunfit
    cases hunfit with
    | captures hlt => exact absurd hn (Nat.not_le.2 hlt)
  cases ha : (Heap.allocate (.words (captures.length + 3))).run h with
  | error e g =>
    rw [Closure.run_allocate_of_request_error hn ha]
    exact .unserved hfit ha
  | ok x g =>
    obtain ⟨m, hc, ⟨hrun, -⟩ | ⟨e, he, hrun⟩⟩ :=
      Closure.run_allocate_of_request code descriptor hn ha
    · rw [hrun]
      exact .made hfit ha hc
    · rw [hrun]
      refine .stopped hfit ha hc fun cause => ?_
      rintro rfl
      exact Roots.unrefused_mapM_read _ _ _ he

theorem ending_cstring (bytes : List UInt8) (h : Heap) :
    (cstring bytes).Ending h (fun x => CString.mk ⟨x⟩) ((CString.allocate bytes).run h) := by
  by_cases hz : 0 ∈ bytes
  case pos =>
    obtain ⟨i, hi⟩ := CString.exists_firstZero hz
    rw [CString.run_allocate_of_refused (CString.headerFor_of_firstZero hi)]
    exact .unfit (.zero hi)
  by_cases hl : bytes.length ≤ CString.maxBytes
  case neg =>
    rw [CString.run_allocate_of_refused (CString.headerFor_of_lt hz (Nat.not_le.1 hl))]
    exact .unfit (.length hz (Nat.not_le.1 hl))
  have hfit : (cstring bytes).Fit := by
    intro cause hunfit
    cases hunfit with
    | zero hi => exact hz hi.mem
    | length _ hlt => exact absurd hl (Nat.not_le.2 hlt)
  cases ha : (Heap.allocate (.words (CString.fieldsFor bytes.length + 1))).run h with
  | error e g =>
    rw [CString.run_allocate_of_request_error hz hl ha]
    exact .unserved hfit ha
  | ok x g =>
    obtain ⟨m, hrun, -, hc⟩ := CString.run_allocate_of_request hz hl ha
    rw [hrun]
    exact .made hfit ha hc

theorem ending_pair (h : Heap) : pair.Ending h Pair.mk (Pair.allocate.run h) := by
  have hfit : pair.Fit := fun _ hu => nomatch hu
  rw [Pair.run_allocate]
  cases ha : (Heap.allocate (.words 2)).run h with
  | error e g => exact .unserved hfit ha
  | ok x g => exact @Ending.made _ pair h Pair.mk x g g.memory hfit ha (.refl _ _)

theorem ending_dword (d : DWord) (h : Heap) :
    (dword d).Ending h Word.taggedDWord (d.allocate.run h) := by
  have hfit : (dword d).Fit := fun _ hu => nomatch hu
  cases ha : (Heap.allocate (.dwords 1)).run h with
  | error e g =>
    rw [DWord.run_allocate_of_error ha]
    exact .unserved hfit ha
  | ok x g =>
    obtain ⟨ws, hlen, hold⟩ := (inChunk_of_allocate (r := .dwords 1) rfl ha).exists_holds
    obtain ⟨m, hrun, -, hc⟩ := DWord.run_allocate_of_holds (d := d) ha hold hlen
    rw [hrun, run_lift, Word.dwordPointerTo]
    split
    case h_1 w hw =>
      split at hw
      case isFalse => cases hw
      case isTrue =>
        cases hw
        exact .made hfit ha hc
    case h_2 e he =>
      split at he
      case isTrue => cases he
      case isFalse =>
        cases he
        exact .stopped hfit ha hc fun cause hrefused => by cases hrefused

theorem ending_call (c : Allocation) (h : Heap) : c.Ending h (fun _ => ()) (c.call.run h) := by
  cases c with
  | block r => exact (ending_block r h).map fun _ => ()
  | constructor uid nfields => exact (ending_constructor uid nfields h).map fun _ => ()
  | closure code descriptor captures =>
    exact (ending_closure code descriptor captures h).map fun _ => ()
  | cstring bytes => exact (ending_cstring bytes h).map fun _ => ()
  | pair => exact (ending_pair h).map fun _ => ()
  | dword d => exact (ending_dword d h).map fun _ => ()

/-! ## What calls refuse -/

section Refused

variable {c : Allocation} {h h' : Heap} {cause : Refusal}

/-- A call is refused for its arguments before it does anything, or else for its request. -/
theorem refused_cases (hrun : c.call.run h = .error (.refused cause) h') :
    c.Unfit cause ∧ h' = h ∨
      c.Fit ∧ (Heap.allocate c.request).run h = .error (.refused cause) h' := by
  have hend := c.ending_call h
  rw [hrun] at hend
  generalize hresult : EStateM.Result.error (Fault.refused cause) h' = result at hend
  cases hend with
  | unfit hu =>
    cases hresult
    exact .inl ⟨hu, rfl⟩
  | unserved hf hr =>
    cases hresult
    exact .inr ⟨hf, hr⟩
  | stopped _ _ _ he =>
    cases hresult
    exact absurd rfl (he cause)
  | made => cases hresult

theorem run_of_unfit (hu : c.Unfit cause) : c.call.run h = .error (.refused cause) h := by
  cases hu with
  | uid hge =>
    rw [call, run_map, HeapObject.run_allocate_of_refused (Header.ofFields?_of_uid hge _)]
  | fields hu hn =>
    rw [call, run_map, HeapObject.run_allocate_of_refused (Header.ofFields?_of_lt hu hn)]
  | captures hn => rw [call, run_map, Closure.run_allocate_of_lt hn]
  | zero hi =>
    rw [call, run_map, CString.run_allocate_of_refused (CString.headerFor_of_firstZero hi)]
  | length hz hl =>
    rw [call, run_map, CString.run_allocate_of_refused (CString.headerFor_of_lt hz hl)]

theorem unfit_ne_outOfMemory (hu : c.Unfit cause) (n : Nat) : cause ≠ .outOfMemory n := by
  cases hu <;> simp

end Refused

theorem run_nullary (uid : Nat) (h : Heap) :
    (lift (nullary uid)).run h =
      if hu : uid < maxUids then .ok (Header.mk uid 0 false hu (Nat.zero_le _)).toWord h
      else .error (.violated (.uidOutOfRange uid)) h := by
  rw [run_lift, nullary, headerWord, Header.ofFields]
  by_cases hu : uid < maxUids
  · rw [dif_pos hu, dif_pos (Nat.zero_le _), dif_pos hu]
    rfl
  · rw [dif_neg hu, dif_neg hu]
    rfl

/-- A call is refused for its arguments if and only if they do not fit, for the first cause in the
order of the checks, and then the heap is as it was: nothing was moved, noted or handed out. Any
other refusal is that of its request for memory, so the arguments fit, and without a collector arena
and roots are as they were, with no word of a new object in memory. A constructor without fields
takes nothing of the heap. -/
theorem refused_before_effects (h : Heap) :
    (∀ (c : Allocation) cause h', (∀ n, cause ≠ .outOfMemory n) →
      (c.call.run h = .error (.refused cause) h' ↔ c.Unfit cause ∧ h' = h)) ∧
    (∀ (c : Allocation) n h', c.call.run h = .error (.refused (.outOfMemory n)) h' →
      n = c.request.wordCount ∧ c.Fit ∧
        (h.discipline.Still → h'.arena = h.arena ∧ h'.roots = h.roots)) ∧
    ∀ uid, (lift (nullary uid)).run h =
      if hu : uid < maxUids then .ok (Header.mk uid 0 false hu (Nat.zero_le _)).toWord h
      else .error (.violated (.uidOutOfRange uid)) h := by
  refine ⟨?_, ?_, fun uid => run_nullary uid h⟩
  · intro c cause h' hcause
    constructor
    · intro hrun
      rcases refused_cases hrun with hu | ⟨-, hr⟩
      · exact hu
      · exact absurd (refused_of_allocate hr) (hcause _)
    · rintro ⟨hu, rfl⟩
      exact run_of_unfit hu
  · intro c n h' hrun
    rcases refused_cases hrun with ⟨hu, -⟩ | ⟨hf, hr⟩
    · exact absurd rfl (unfit_ne_outOfMemory hu n)
    · refine ⟨Refusal.outOfMemory.inj (refused_of_allocate hr), hf, fun hd => ?_⟩
      exact unchanged_of_allocate_error hd hr

/-- An allocator that notes its calls and has two words left: a uid that is too large is not noted, a
constructor of three words is noted and changes nothing else. -/
theorem refused_before_effects_noted :
    let h : Heap := { arena := { config := { limit := some 2 } }, discipline := .recording [] }
    (constructor maxUids 300).call.run h = .error (.refused (.uidOutOfRange maxUids)) h ∧
    ∃ h', (constructor 5 2).call.run h = .error (.refused (.outOfMemory 3)) h' ∧
      h'.discipline = .recording [(3, 0)] ∧ h'.arena = h.arena ∧ h'.roots = h.roots := by
  intro h
  obtain ⟨hunfit, hmemory, -⟩ := refused_before_effects h
  refine ⟨(hunfit _ _ h (by simp)).2 ⟨.uid (Nat.le_refl _), rfl⟩, ?_⟩
  obtain ⟨h', hrun, hnoted⟩ : ∃ h', (constructor 5 2).call.run h =
      .error (.refused (.outOfMemory 3)) h' ∧ h'.discipline = .recording [(3, 0)] :=
    ⟨_, rfl, rfl⟩
  obtain ⟨-, -, hkept⟩ := hmemory _ _ h' hrun
  exact ⟨h', hrun, hnoted, hkept (by simp [h, Discipline.Still])⟩

end Allocation

end TaggedHeap
