import TaggedHeap.Proofs.Arena.Requests
import TaggedHeap.Proofs.Heap.Construction
import TaggedHeap.Script.Run

/-!
# Requests on record

A heap that records its requests does what a plain one does. All but the requests pays no heed to
the discipline, and a request is noted ahead of being made, by its size and the roots there are.
Every allocation checks its arguments first and makes one request, or none where they are refused, so
the notes of a script can be told from the steps and from the roots that each of them finds.
-/

namespace TaggedHeap

namespace Heap

variable {α β : Type}

/-- The same heap under another discipline. -/
def under (h : Heap) (d : Discipline) : Heap := { h with discipline := d }

/-- The same outcome on the heap under another discipline. -/
def relabel (d : Discipline) : EStateM.Result Fault Heap α → EStateM.Result Fault Heap α
  | .ok a h => .ok a (h.under d)
  | .error e h => .error e (h.under d)

/-! ## Actions that pay no heed to the discipline -/

def Indifferent (x : HeapM α) : Prop :=
  ∀ h d, x.run (h.under d) = relabel d (x.run h)

theorem indifferent_pure (a : α) : Indifferent (pure a : HeapM α) := fun _ _ => rfl

theorem indifferent_lift (x : Except Fault α) : Indifferent (lift x) := by
  intro h d
  rw [run_lift, run_lift]
  cases x <;> rfl

theorem indifferent_bind {x : HeapM α} {f : α → HeapM β} (hx : Indifferent x)
    (hf : ∀ a, Indifferent (f a)) : Indifferent (x >>= f) := by
  intro h d
  rw [run_bind, run_bind, hx h d]
  cases x.run h with
  | ok a h' => exact hf a h' d
  | error e h' => rfl

/-- What is looked up in the heap may be anything but the discipline. -/
theorem indifferent_get_bind {f : Heap → HeapM α} (hf : ∀ h, Indifferent (f h))
    (hd : ∀ h d, f (h.under d) = f h) : Indifferent (get >>= f) := by
  intro h d
  change (f (h.under d)).run (h.under d) = relabel d ((f h).run h)
  rw [hd, hf]

theorem indifferent_modify {f : Heap → Heap} (hf : ∀ h d, f (h.under d) = (f h).under d) :
    Indifferent (modify f : HeapM Unit) := by
  intro h d
  change EStateM.Result.ok () (f (h.under d)) = .ok () ((f h).under d)
  rw [hf]

theorem indifferent_reading (f : Memory → Except Fault α) : Indifferent (reading f) :=
  indifferent_get_bind (fun _ => indifferent_lift _) fun _ _ => rfl

theorem indifferent_writing (f : Memory → Except Fault Memory) : Indifferent (writing f) := by
  refine indifferent_get_bind (fun _ => ?_) fun _ _ => rfl
  exact indifferent_bind (indifferent_lift _) fun _ => indifferent_modify fun _ _ => rfl

theorem indifferent_root (i : Nat) : Indifferent (root i) :=
  indifferent_get_bind (fun _ => indifferent_lift _) fun _ _ => rfl

theorem indifferent_setRoots (r : Roots) : Indifferent (setRoots r) :=
  indifferent_modify fun _ _ => rfl

theorem indifferent_reserve (roots : Nat) (r : Request) (report : Fault → Fault) :
    Indifferent (reserve roots r report) := by
  intro h d
  have harena : (h.under d).arena = h.arena := rfl
  rw [run_reserve, run_reserve, harena]
  cases h.arena.reserve r <;> rfl

theorem indifferent_place (address : Nat) (hd : Header) : Indifferent (place address hd) :=
  indifferent_bind (indifferent_writing _) fun _ => indifferent_pure _

/-! ## Actions with notes -/

/-- Recorded, the action adds these notes and does nothing else that it does not do plain. -/
structure Notes (x : HeapM α) (h : Heap) (notes : List (Nat × Nat)) : Prop where
  plain : x.run h = relabel .plain (x.run h)
  recorded : ∀ calls,
    x.run (h.under (.recording calls)) = relabel (.recording (calls ++ notes)) (x.run h)

variable {h : Heap} {log : List (Nat × Nat)}

theorem under_plain (hd : h.discipline = .plain) : h.under .plain = h := by
  rw [← hd]
  rfl

theorem Indifferent.notes {x : HeapM α} (hx : Indifferent x) (hd : h.discipline = .plain) :
    Notes x h [] := by
  constructor
  · rw [← hx, under_plain hd]
  · intro calls
    rw [hx, List.append_nil]

theorem Notes.bind {x : HeapM α} {f : α → HeapM β} (hx : Notes x h log)
    (hf : ∀ a, Indifferent (f a)) : Notes (x >>= f) h log := by
  constructor
  · have hplain := hx.plain
    rw [run_bind]
    cases hr : x.run h with
    | ok a h' =>
      rw [hr] at hplain
      have hsame := hf a h' .plain
      rwa [← (EStateM.Result.ok.inj hplain).2] at hsame
    | error e h' =>
      rw [hr] at hplain
      have hsame := (EStateM.Result.error.inj hplain).2
      simp only [relabel, ← hsame]
  · intro calls
    rw [run_bind, run_bind, hx.recorded]
    cases x.run h with
    | ok a h' => exact hf a h' _
    | error e h' => rfl

/-- A check ahead of the action lets it be carried out or stops it. -/
theorem notes_lift_bind {e : Except Fault α} {f : α → HeapM β} (hd : h.discipline = .plain)
    (hok : ∀ a, e = .ok a → Notes (f a) h log) (herror : ∀ g, e = .error g → log = []) :
    Notes (lift e >>= f) h log := by
  cases e with
  | ok a => exact hok a rfl
  | error g =>
    rw [herror g rfl]
    have hstop : (lift (.error g) >>= f : HeapM β) = lift (.error g) := rfl
    rw [hstop]
    exact Indifferent.notes (indifferent_lift _) hd

/-- A request is noted with its size. -/
theorem notes_allocate (hd : h.discipline = .plain) {r : Request} {n : Nat} (hn : r.size = .ok n) :
    Notes (allocate r) h [(n, h.roots.length)] := by
  have hreserve := indifferent_reserve h.roots.length r id h
  constructor
  · rw [run_allocate_plain hd, ← hreserve, under_plain hd]
  · intro calls
    have hprepare : (prepare r).run (h.under (.recording calls)) =
        .ok () (h.under (.recording (calls ++ [(n, h.roots.length)]))) := by
      simp only [run_prepare, under, hn]
    rw [run_allocate_plain hd, ← hreserve, run_allocate, hprepare]
    rfl

end Heap

open Heap

/-! ## Arguments in range -/

theorem Header.exists_ofFields?_iff {uid nfields : Nat} :
    (∃ hd, Header.ofFields? uid nfields = .ok hd) ↔ uid < maxUids ∧ nfields ≤ maxFields := by
  unfold Header.ofFields?
  by_cases hu : uid < maxUids
  · by_cases hn : nfields ≤ maxFields
    · simp [hu, hn]
    · simp [hu, hn]
  · simp [hu]

theorem CString.exists_headerFor_iff {bytes : List UInt8} :
    (∃ hd, headerFor bytes = .ok hd) ↔ 0 ∉ bytes ∧ bytes.length / wordSize + 1 ≤ maxFields := by
  have hwords : wordsFor (bytes.length + 1) = bytes.length / wordSize + 1 := by
    simp only [wordsFor, wordSize]
    omega
  unfold headerFor
  split
  case h_1 i hi =>
    have hmem : 0 ∈ bytes := by
      obtain ⟨hlt, hzero, -⟩ := List.findIdx?_eq_some_iff_getElem.1 hi
      rw [beq_iff_eq] at hzero
      exact hzero ▸ List.getElem_mem hlt
    simp [hmem]
  case h_2 hnone =>
    have hmem : 0 ∉ bytes := fun hz => by simpa using List.findIdx?_eq_none_iff.1 hnone 0 hz
    rw [Header.exists_ofFields?_iff, hwords]
    simp [hmem, cstringUid, maxUids]

/-! ## Allocations -/

section Allocation

variable {h : Heap} (hd : h.discipline = .plain)
include hd

/-- An allocation checks its arguments, requests so many words and finishes on what it was given. -/
theorem notes_checked_allocate {α β : Type} {e : Except Fault α} {p : Prop} [Decidable p]
    {size : α → Nat} {n : Nat} {f : α → Nat → HeapM β} (hp : (∃ a, e = .ok a) ↔ p)
    (hn : ∀ a, e = .ok a → size a = n) (hf : ∀ a x, Indifferent (f a x)) :
    Notes (lift e >>= fun a => Heap.allocate (.words (size a)) >>= f a) h
      (if p then [(n, h.roots.length)] else []) := by
  apply notes_lift_bind hd
  · intro a ha
    rw [if_pos (hp.1 ⟨a, ha⟩), ← hn a ha]
    exact (notes_allocate hd rfl).bind (hf a)
  · intro g hg
    rw [if_neg]
    intro h
    obtain ⟨a, ha⟩ := hp.2 h
    rw [hg] at ha
    cases ha

theorem HeapObject.notes_allocate (uid nfields : Nat) :
    Notes (HeapObject.allocate uid nfields) h
      (if uid < maxUids ∧ nfields ≤ maxFields then [(nfields + 1, h.roots.length)] else []) :=
  notes_checked_allocate hd Header.exists_ofFields?_iff (fun _ _ => rfl)
    fun a x => indifferent_place x a

theorem Pair.notes_allocate : Notes Pair.allocate h [(2, h.roots.length)] :=
  (Heap.notes_allocate hd rfl).bind fun _ => indifferent_pure _

theorem DWord.notes_allocate (d : DWord) : Notes d.allocate h [(2, h.roots.length)] :=
  (Heap.notes_allocate hd rfl).bind fun _ =>
    indifferent_bind (indifferent_writing _) fun _ => indifferent_lift _

omit hd in
theorem Closure.indifferent_fill (c : Closure) (n : Nat) (positions : List Nat) :
    Indifferent (c.fill n positions) := by
  induction positions generalizing n with
  | nil => exact indifferent_pure ()
  | cons i positions ih =>
    exact indifferent_bind (indifferent_root i) fun _ =>
      indifferent_bind (indifferent_writing _) fun _ => ih (n + 1)

theorem Closure.notes_allocate (code descriptor : Word) (captures : List Nat) :
    Notes (Closure.allocate code descriptor captures) h
      (if captures.length ≤ maxFields then [(captures.length + 3, h.roots.length)] else []) := by
  have hrange : (∃ hd, Header.ofFields? closureUid captures.length = .ok hd) ↔
      captures.length ≤ maxFields := by
    rw [Header.exists_ofFields?_iff]
    exact and_iff_right (by decide)
  have hsize : 1 + closureExtraSlots + captures.length = captures.length + 3 := by
    simp only [closureExtraSlots]
    omega
  refine notes_checked_allocate hd hrange (fun _ _ => hsize) fun a x => ?_
  apply indifferent_bind (indifferent_place x a)
  intro o
  apply indifferent_bind (indifferent_writing _)
  intro _
  apply indifferent_bind (indifferent_writing _)
  intro _
  exact indifferent_bind (Closure.indifferent_fill _ 0 captures) fun _ => indifferent_pure _

theorem CString.notes_allocate (bytes : List UInt8) :
    Notes (CString.allocate bytes) h
      (if 0 ∉ bytes ∧ bytes.length / wordSize + 1 ≤ maxFields then
        [(bytes.length / wordSize + 2, h.roots.length)] else []) := by
  refine notes_checked_allocate hd CString.exists_headerFor_iff ?_ fun a x => ?_
  · intro a ha
    obtain ⟨-, -, hn, -⟩ := CString.headerFor_eq_ok ha
    simp only [hn, wordsFor, wordSize]
    omega
  · apply indifferent_bind (indifferent_place x a)
    intro o
    exact indifferent_bind (indifferent_writing _) fun _ => indifferent_pure _

end Allocation

/-! ## Steps -/

namespace Script

theorem Operand.indifferent_eval (regs : Registers) (o : Operand) : Indifferent (o.eval regs) := by
  cases o with
  | root i => exact indifferent_root i
  | header uid nfields => exact indifferent_lift _
  | _ => exact indifferent_pure _

theorem Operand.indifferent_object (regs : Registers) (o : Operand) :
    Indifferent (o.object regs) :=
  indifferent_bind (o.indifferent_eval regs) fun _ => indifferent_lift _

theorem Operand.indifferent_pair (regs : Registers) (o : Operand) : Indifferent (o.pair regs) :=
  indifferent_bind (o.indifferent_eval regs) fun _ => indifferent_lift _

theorem Operand.indifferent_closure (regs : Registers) (o : Operand) :
    Indifferent (o.closure regs) :=
  indifferent_bind (o.indifferent_object regs) fun _ => indifferent_reading _

theorem indifferent_fillBlock (regs : Registers) (address : Nat) (os : List Operand) :
    Indifferent (fillBlock regs address os) := by
  induction os generalizing address with
  | nil => exact indifferent_pure ()
  | cons o os ih =>
    exact indifferent_bind (o.indifferent_eval regs) fun _ =>
      indifferent_bind (indifferent_writing _) fun _ => ih _

/-- The words that a source requests: none where it makes nothing, or where its arguments are out
of range. -/
def Source.requested? : Source → Option Nat
  | .constructor uid nfields =>
    if uid < maxUids ∧ nfields ≤ maxFields then some (nfields + 1) else none
  | .pair => some 2
  | .dword _ => some 2
  | .closure _ _ captures =>
    if captures.length ≤ maxFields then some (captures.length + 3) else none
  | .cstring bytes =>
    if 0 ∉ bytes ∧ bytes.length / wordSize + 1 ≤ maxFields then some (bytes.length / wordSize + 2)
    else none
  | .words n _ => some n
  | .dwords n => some (2 * n)
  | .operand _ | .nullary _ | .root _ | .slot _ _ | .argument _ _ | .capture _ _ => none

/-- The notes of a step that finds so many roots. -/
def Step.notes (roots : Nat) : Step → List (Nat × Nat)
  | .obtain _ source => (source.requested?.map fun n => (n, roots)).toList
  | _ => []

/-- Showing the notes tells the disciplines apart, and so does a request for more double words than
can be noted. -/
def Step.Comparable : Step → Prop
  | .listCalls => False
  | .obtain _ (.dwords n) => 2 * n < wordLimit
  | _ => True

theorem indifferent_answer {α : Type} {x : HeapM α} (hx : Indifferent x) (f : α → Answer) :
    Indifferent (x >>= fun a => pure (f a)) :=
  indifferent_bind hx fun _ => indifferent_pure _

theorem Query.indifferent_eval (o : HeapObject) (q : Query) : Indifferent (q.eval o) := by
  cases q with
  | pointer => exact indifferent_answer (indifferent_lift _) _
  | debug => exact indifferent_pure _
  | references => exact indifferent_answer (indifferent_reading _) _
  | code | descriptor | captureCount | capacity | bytes =>
    exact indifferent_bind (indifferent_reading _) fun _ =>
      indifferent_answer (indifferent_reading _) _
  | _ => exact indifferent_answer (indifferent_reading _) _

theorem Change.indifferent_run (regs : Registers) (o : HeapObject) (c : Change) :
    Indifferent (c.run regs o) := by
  cases c with
  | mark | unmark => exact indifferent_writing _
  | slot n w | argument n w =>
    exact indifferent_bind (w.indifferent_eval regs) fun _ => indifferent_writing _
  | capture n w =>
    apply indifferent_bind (indifferent_reading _)
    intro c
    exact indifferent_bind (w.indifferent_eval regs) fun _ => indifferent_writing _

theorem indifferent_mapM_eval (regs : Registers) (ws : List Operand) :
    Indifferent (ws.mapM (Operand.eval regs)) := by
  induction ws with
  | nil => exact indifferent_pure []
  | cons w ws ih =>
    rw [List.mapM_cons]
    exact indifferent_bind (w.indifferent_eval regs) fun _ =>
      indifferent_bind ih fun _ => indifferent_pure _

/-- Steps other than those that obtain a word request nothing. -/
theorem Step.indifferent_run (regs : Registers) {step : Step} (hc : step.Comparable)
    (hs : ∀ register source, step ≠ .obtain register source) : Indifferent (step.run regs) := by
  cases step with
  | obtain register source => exact absurd rfl (hs register source)
  | listCalls => exact hc.elim
  | pushRoot w =>
    apply indifferent_bind (w.indifferent_eval regs)
    intro v
    refine indifferent_get_bind (fun h => ?_) fun _ _ => rfl
    exact indifferent_answer (indifferent_setRoots _) _
  | setRoot i w =>
    apply indifferent_bind (w.indifferent_eval regs)
    intro v
    refine indifferent_get_bind (fun h => ?_) fun _ _ => rfl
    apply indifferent_bind (indifferent_lift _)
    intro r
    exact indifferent_answer (indifferent_setRoots r) _
  | truncateRoots size =>
    refine indifferent_get_bind (fun h => ?_) fun _ _ => rfl
    apply indifferent_bind (indifferent_setRoots _)
    intro _
    exact indifferent_get_bind (fun _ => indifferent_pure _) fun _ _ => rfl
  | fillRoots w =>
    apply indifferent_bind (w.indifferent_eval regs)
    intro v
    refine indifferent_get_bind (fun h => ?_) fun _ _ => rfl
    exact indifferent_answer (indifferent_setRoots _) _
  | replaceRoots ws =>
    apply indifferent_bind (indifferent_mapM_eval regs ws)
    intro r
    apply indifferent_bind (indifferent_setRoots r)
    intro _
    exact indifferent_get_bind (fun _ => indifferent_pure _) fun _ _ => rfl
  | listRoots | listChunks | peek chunk start stop =>
    exact indifferent_get_bind (fun _ => indifferent_pure _) fun _ _ => rfl
  | first pair | second pair =>
    apply indifferent_bind (pair.indifferent_pair regs)
    intro p
    exact indifferent_answer (indifferent_reading _) _
  | setFirst pair w | setSecond pair w =>
    apply indifferent_bind (pair.indifferent_pair regs)
    intro p
    apply indifferent_bind (w.indifferent_eval regs)
    intro v
    apply indifferent_bind (indifferent_writing _)
    intro _
    exact indifferent_answer (indifferent_lift _) _
  | readDWord w =>
    apply indifferent_bind (w.indifferent_eval regs)
    intro v
    exact indifferent_answer (indifferent_reading _) _
  | dwordAddress w | classify w => exact indifferent_answer (w.indifferent_eval regs) _
  | same object other =>
    apply indifferent_bind (object.indifferent_object regs)
    intro o
    exact indifferent_answer (other.indifferent_object regs) _
  | query object q =>
    exact indifferent_bind (object.indifferent_object regs) fun o => q.indifferent_eval o
  | change object c =>
    apply indifferent_bind (object.indifferent_object regs)
    intro o
    exact indifferent_answer (c.indifferent_run regs o) fun _ => .done

theorem toList_map_ite {α β : Type} {p : Prop} [Decidable p] (a : α) (f : α → β) :
    ((if p then some a else none).map f).toList = if p then [f a] else [] := by
  split <;> rfl

section Notes

variable {h : Heap} (hd : h.discipline = .plain)
include hd

theorem Source.notes_eval (regs : Registers) {source : Source}
    (hs : ∀ n, source = .dwords n → 2 * n < wordLimit) :
    Notes (source.eval regs) h (source.requested?.map fun n => (n, h.roots.length)).toList := by
  cases source with
  | operand w => exact (w.indifferent_eval regs).notes hd
  | nullary uid => exact (indifferent_lift _).notes hd
  | root i => exact (indifferent_root i).notes hd
  | slot object n | argument object n =>
    refine Indifferent.notes ?_ hd
    exact indifferent_bind (object.indifferent_object regs) fun _ => indifferent_reading _
  | capture object n =>
    refine Indifferent.notes ?_ hd
    exact indifferent_bind (object.indifferent_closure regs) fun _ => indifferent_reading _
  | constructor uid nfields =>
    rw [requested?, toList_map_ite]
    exact (HeapObject.notes_allocate hd uid nfields).bind fun _ => indifferent_lift _
  | pair => exact (Pair.notes_allocate hd).bind fun _ => indifferent_lift _
  | dword value => exact DWord.notes_allocate hd value
  | closure code descriptor captures =>
    rw [requested?, toList_map_ite]
    exact (Closure.notes_allocate hd code descriptor captures).bind fun _ => indifferent_lift _
  | cstring bytes =>
    rw [requested?, toList_map_ite]
    exact (CString.notes_allocate hd bytes).bind fun _ => indifferent_lift _
  | words n contents =>
    apply (Heap.notes_allocate hd rfl).bind
    intro address
    exact indifferent_bind (indifferent_fillBlock regs address contents) fun _ => indifferent_lift _
  | dwords n =>
    have hsize : (Request.dwords n).size = .ok (2 * n) := by
      rw [Nat.mul_comm]
      exact Count.mul_eq_ok_iff.2 ⟨Nat.mul_comm 2 n ▸ hs n rfl, rfl⟩
    exact (Heap.notes_allocate hd hsize).bind fun _ => indifferent_lift _

theorem Step.notes_run (regs : Registers) {step : Step} (hc : step.Comparable) :
    Notes (step.run regs) h (step.notes h.roots.length) := by
  cases step with
  | obtain register source =>
    refine (Source.notes_eval hd regs fun n hn => ?_).bind fun _ => indifferent_pure _
    subst hn
    exact hc
  | _ => exact (Step.indifferent_run regs hc (by simp)).notes hd

end Notes

/-! ## Sessions -/

namespace Session

/-- The same session on the heap under another discipline. -/
def under (s : Session) (d : Discipline) : Session := { s with heap := s.heap.under d }

/-- The notes of the steps in turn, each of which finds the roots that the steps before it left. -/
def notes (s : Session) : List Step → List (Nat × Nat)
  | [] => []
  | step :: steps => step.notes s.heap.roots.length ++ (s.step step).2.notes steps

theorem step_of_ok {s : Session} {step : Step} {answer : Answer} {h : Heap}
    (hr : (step.run s.registers).run s.heap = .ok answer h) :
    s.step step =
      (⟨.ok answer, h.log⟩, ⟨{ h with log := [] }, step.keep s.registers answer⟩) := by
  rw [Session.step, hr]

theorem step_of_error {s : Session} {step : Step} {fault : Fault} {h : Heap}
    (hr : (step.run s.registers).run s.heap = .error fault h) :
    s.step step = (⟨.error fault, h.log⟩, ⟨{ h with log := [] }, s.registers⟩) := by
  rw [Session.step, hr]

theorem step_recording {s : Session} (hd : s.heap.discipline = .plain) {step : Step}
    (hc : step.Comparable) :
    (s.step step).2.heap.discipline = .plain ∧ ∀ calls,
      (s.under (.recording calls)).step step =
        ((s.step step).1,
          (s.step step).2.under (.recording (calls ++ step.notes s.heap.roots.length))) := by
  obtain ⟨hplain, hrecorded⟩ := Step.notes_run hd s.registers hc
  cases hr : (step.run s.registers).run s.heap with
  | ok answer h' =>
    rw [hr] at hplain
    have hstep := step_of_ok hr
    refine ⟨?_, fun calls => ?_⟩
    · rw [hstep]
      exact congrArg discipline (EStateM.Result.ok.inj hplain).2
    · have hrun := hrecorded calls
      rw [hr] at hrun
      rw [hstep]
      exact step_of_ok (s := s.under (.recording calls)) hrun
  | error fault h' =>
    rw [hr] at hplain
    have hstep := step_of_error hr
    refine ⟨?_, fun calls => ?_⟩
    · rw [hstep]
      exact congrArg discipline (EStateM.Result.error.inj hplain).2
    · have hrun := hrecorded calls
      rw [hr] at hrun
      rw [hstep]
      exact step_of_error (s := s.under (.recording calls)) hrun

/-- Step by step, a session whose heap records its requests has the outcomes of a plain one and
leaves the same memory, roots and registers; what it has recorded are the notes of the steps so far. -/
theorem run_recording {s : Session} (hd : s.heap.discipline = .plain) {steps : List Step}
    (hc : ∀ step ∈ steps, step.Comparable) (calls : List (Nat × Nat)) (i : Nat) :
    ((s.under (.recording calls)).run steps)[i]? =
      ((s.run steps)[i]?).map fun r =>
        (r.1, r.2.under (.recording (calls ++ s.notes (steps.take (i + 1))))) := by
  induction steps generalizing s calls i with
  | nil => rfl
  | cons step steps ih =>
    obtain ⟨hstep, hsteps⟩ := List.forall_mem_cons.1 hc
    obtain ⟨hplain, hrecorded⟩ := step_recording hd hstep
    rw [run, run, hrecorded calls]
    cases i with
    | zero => simp [notes]
    | succ i =>
      simp only [List.getElem?_cons_succ, List.take_succ_cons, notes, ← List.append_assoc]
      exact ih hplain hsteps _ i

/-- An allocation, one with its uid out of range, and one that exceeds the limit. -/
def sampleSteps : List Step :=
  [.obtain (some "a") (.constructor 5 1), .pushRoot (.register "a"),
    .change (.register "a") (.argument 0 (.unboxed 7)), .obtain none (.constructor maxUids 1),
    .obtain none (.cstring [104, 105])]

theorem run_recording_sample :
    let s : Session := { heap := { arena := { config := { limit := some 3 } } } }
    (s.heap.discipline = .plain ∧ ∀ step ∈ sampleSteps, step.Comparable) ∧
      (((s.under (.recording [])).run sampleSteps)[4]?).map (fun r => r.2.heap.discipline) =
        some (.recording [(2, 0), (2, 1)]) := by
  intro s
  have hc : ∀ step ∈ sampleSteps, step.Comparable := by simp [sampleSteps, Step.Comparable]
  refine ⟨⟨rfl, hc⟩, ?_⟩
  rw [run_recording rfl hc [] 4]
  decide +kernel

end Session

end Script

end TaggedHeap
