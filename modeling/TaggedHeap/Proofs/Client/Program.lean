import TaggedHeap.Proofs.Object.References
import TaggedHeap.Script.Run

/-!
# Client programs

A client keeps what it makes in the roots and finds it again by its position there; it holds on to
no address. What it does next may depend on all that it was answered before, faults included.
-/

namespace TaggedHeap

namespace Client

open Heap Script

inductive Op where
  | constructor (uid nfields : Nat)
  | closure (code descriptor : Word) (captures : List Nat)
  | cstring (bytes : List UInt8)
  | dword (value : DWord)
  | push (w : Word)
  | truncate (size : Nat)
  | setArgument (i n : Nat) (w : Word)
  | setCapture (i n : Nat) (w : Word)
  | mark (i : Nat)
  | unmark (i : Nat)
  | ask (i : Nat) (q : Query)
  | argument (i n : Nat)
  | capture (i n : Nat)
  | readDWord (i : Nat)

/-- Makes something and pushes the word for it as a root. -/
def keep (source : Source) : HeapM Answer := do
  Step.run [] (.pushRoot (.literal (← source.eval [])))

def Op.run : Op → HeapM Answer
  | .constructor uid nfields => keep (.constructor uid nfields)
  | .closure code descriptor captures => keep (.closure code descriptor captures)
  | .cstring bytes => keep (.cstring bytes)
  | .dword d => keep (.dword d)
  | .push w => Step.run [] (.pushRoot (.literal w))
  | .truncate size => Step.run [] (.truncateRoots size)
  | .setArgument i n w => Step.run [] (.change (.root i) (.argument n (.literal w)))
  | .setCapture i n w => Step.run [] (.change (.root i) (.capture n (.literal w)))
  | .mark i => Step.run [] (.change (.root i) .mark)
  | .unmark i => Step.run [] (.change (.root i) .unmark)
  | .ask i q => Step.run [] (.query (.root i) q)
  | .argument i n => Step.run [] (.obtain none (.argument (.root i) n))
  | .capture i n => Step.run [] (.obtain none (.capture (.root i) n))
  | .readDWord i => Step.run [] (.readDWord (.root i))

/-- What an action answers and the heap that it leaves. -/
def outcome {α : Type} (x : HeapM α) (h : Heap) : Except Fault α × Heap :=
  match x.run h with
  | .ok a h' => (.ok a, h')
  | .error e h' => (.error e, h')

/-- A program is done, or it carries out an operation and goes on as the answer asks for. -/
inductive Program where
  | done
  | step (op : Op) (next : Except Fault Answer → Program)

/-- All that the program is answered. -/
def Program.answers : Program → Heap → List (Except Fault Answer)
  | .done, _ => []
  | .step op next, h =>
    (outcome op.run h).1 :: (next (outcome op.run h).1).answers (outcome op.run h).2

/-- The chunks no longer fit the address space. -/
def isExhausted : Except Fault Answer → Bool
  | .error .exhausted => true
  | _ => false

/-! ## What a client may do -/

/-- What the root points to, if there is such a root, is an object whose header is as asked for. -/
def OnObject (h : Heap) (i : Nat) (p : Header → Prop) : Prop :=
  ∀ w ∈ h.roots[i]?, ∃ o ∈ (HeapObject.ofWord w).toOption, ∃ hd ∈ (o.header h.memory).toOption, p hd

instance (h : Heap) (i : Nat) (p : Header → Prop) [DecidablePred p] : Decidable (OnObject h i p) :=
  inferInstanceAs (Decidable (∀ w ∈ h.roots[i]?, ∃ o ∈ (HeapObject.ofWord w).toOption,
    ∃ hd ∈ (o.header h.memory).toOption, p hd))

/-- Code, descriptor and captures are asked of closures, bytes of strings, addresses of nothing. -/
def Suits (hd : Header) : Query → Prop
  | .code | .descriptor | .captureCount => hd.uid = closureUid
  | .capacity | .bytes => hd.uid = cstringUid
  | .pointer | .debug | .asClosure | .asCString => False
  | _ => True

instance (hd : Header) (q : Query) : Decidable (Suits hd q) := by
  unfold Suits
  split <;> infer_instance

/-- Constructors have uids of their own, no capture and no pushed word refers to memory, and the
bytes of strings are not written to. -/
def Op.Permitted (h : Heap) : Op → Prop
  | .constructor uid _ => 2 ≤ uid
  | .closure _ _ captures => ∀ i ∈ captures, ∃ w ∈ h.roots[i]?, w.IsData
  | .cstring _ | .dword _ | .truncate _ => True
  | .push w => w.IsData
  | .setArgument i _ _ => OnObject h i fun hd => hd.uid ≠ cstringUid
  | .setCapture i _ _ | .capture i _ => OnObject h i fun hd => hd.uid = closureUid
  | .mark i | .unmark i | .argument i _ => OnObject h i fun _ => True
  | .ask i q => OnObject h i fun hd => Suits hd q
  | .readDWord i => ∀ w ∈ h.roots[i]?, w.kind = .dwordPointer

instance (h : Heap) (op : Op) : Decidable (op.Permitted h) := by
  cases op <;> unfold Op.Permitted <;> infer_instance

/-- Each operation is permitted in the heap that the ones before it left. -/
def Program.Permitted : Program → Heap → Prop
  | .done, _ => True
  | .step op next, h =>
    op.Permitted h ∧ (next (outcome op.run h).1).Permitted (outcome op.run h).2

instance Program.decidablePermitted : (p : Program) → (h : Heap) → Decidable (p.Permitted h)
  | .done, _ => .isTrue trivial
  | .step op next, h =>
    have := (next (outcome op.run h).1).decidablePermitted (outcome op.run h).2
    inferInstanceAs (Decidable (op.Permitted h ∧ _))

end Client

end TaggedHeap
