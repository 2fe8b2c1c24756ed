import TaggedHeap.Proofs.Graph.Collection

/-!
# Running into the limit

A collection copies one object after the other and wipes each when it is copied; the roots are
redirected once all copies are made. Where the limit leaves no room for one of the copies, the roots
in front of it still name the wiped places and those behind it name objects that were not touched.
So a root is lost if and only if its object was copied and another one could not be.
-/

namespace TaggedHeap.Graph

open Heap

/-- The fault of a request, or of a copy for a collection, that exceeds the limit. -/
inductive OverLimit : Fault → Prop where
  | request (n : Nat) : OverLimit (.refused (.outOfMemory n))
  | copy (n : Nat) : OverLimit (.violated (.collectionRefused (.outOfMemory n)))

/-- The second word points to an object with the header and the slots of what the first one pointed
to before. -/
structure Keeps (m : Memory) (w : Word) (m' : Memory) (w' : Word) : Prop where
  pointer : w'.kind = .pointer
  header : ∃ hd, (HeapObject.mk w.toNat).header m = .ok hd ∧
    (HeapObject.mk w'.toNat).header m' = .ok hd
  slots : ∀ n, (HeapObject.mk w'.toNat).read n m' = (HeapObject.mk w.toNat).read n m

/-- The words that a copy of what the word points to takes. -/
def copySize (m : Memory) (w : Word) : Nat :=
  if w.kind = .pointer then ((HeapObject.mk w.toNat).slotCount m).toOption.getD 0 else 0

/-- The words that copies of what the words point to take. -/
def copySizes (m : Memory) : List Word → Nat
  | [] => 0
  | w :: ws => copySize m w + copySizes m ws

/-- A request for words that leaves a collection over the limit exceeded the limit itself. -/
theorem exceeds_of_fatal {a : Arena} {n : Nat} {e : Fault} (he : a.reserve (.words n) = .error e)
    (h : OverLimit (fatal e)) : ∃ limit, a.config.limit = some limit ∧ limit < a.allocated + n := by
  rcases Arena.reserve_words_eq_error he with rfl | rfl | rfl | ⟨-, hlimit⟩
  · cases h
  · cases h
  · cases h
  · exact hlimit

/-- A collection that is over the limit stopped at a copy that the limit leaves no room for. -/
theorem exceeds_of_stops {h h' : Heap} {f : Contents} {ws : List Word} {e : Fault} {limit : Nat}
    (hs : Stops h f ws e h') (he : OverLimit e) (hl : h.arena.config.limit = some limit) :
    ∃ before before' v after g, ws = before ++ v :: after ∧ h.Copied (f.slots before) h' g ∧
      Relocated f before before' g ∧ limit < h.arena.allocated + f.slots (before ++ [v]) := by
  cases hs with
  | wiped => cases he
  | @refused before before' after v g _ _ hc hr _ hres =>
    obtain ⟨l, hl', hlt⟩ := exceeds_of_fatal hres he
    obtain rfl : limit = l := Option.some.inj (hl.symm.trans (hc.alike.config ▸ hl'))
    refine ⟨before, before', v, after, g, rfl, hc, hr, ?_⟩
    rw [hc.allocated_eq] at hlt
    rw [Contents.slots_append, Contents.slots, Contents.slots]
    omega

section Objects

variable {a b : Arena} {f g : Contents} {w w' : Word} {hd : Header} {us : List Word}

theorem keeps_of_owns (ha : a.Owns f) (hb : b.Owns g) (hw' : w'.kind = .pointer) (hfit : hd.Fits us)
    (hf : f w.toNat = some (hd.toWord :: us)) (hg : g w'.toNat = some (hd.toWord :: us)) :
    Keeps a.memory w b.memory w' := by
  refine ⟨hw', ⟨hd, HeapObject.header_eq (ha.holds hf), HeapObject.header_eq (hb.holds hg)⟩, ?_⟩
  intro n
  cases n with
  | zero =>
    rw [HeapObject.read_of_getElem? (o := ⟨w'.toNat⟩) (hb.holds hg) hfit rfl,
      HeapObject.read_of_getElem? (o := ⟨w.toNat⟩) (ha.holds hf) hfit rfl]
  | succ n =>
    rw [HeapObject.read_succ (o := ⟨w'.toNat⟩) (hb.holds hg) hfit,
      HeapObject.read_succ (o := ⟨w.toNat⟩) (ha.holds hf) hfit]

end Objects

section Sizes

variable {config : ArenaConfig} {h : Heap} {objects : List Nat} {f : Contents}
  (hs : Sound config h objects f)
include hs

theorem copySize_eq {w : Word} (hw : w ∈ h.roots) : copySize h.memory w = f.slotsOf w := by
  by_cases hp : w.kind = .pointer
  · obtain ⟨hd, us, hx, hfit⟩ := hs.root_movable hw hp
    have hcount := HeapObject.slotCount_eq (o := ⟨w.toNat⟩) (hs.owns.holds hx)
    have hcount : (HeapObject.mk w.toNat).slotCount h.memory = .ok hd.layout.slotCount := hcount
    rw [copySize, if_pos hp, hcount, hfit, Contents.slotsOf_of_some hp hx]
    rfl
  · rw [copySize, if_neg hp, Contents.slotsOf_of_ne hp]

theorem copySizes_eq {ws : List Word} (hws : ∀ w ∈ ws, w ∈ h.roots) :
    copySizes h.memory ws = f.slots ws := by
  induction ws with
  | nil => rfl
  | cons w ws ih =>
    rw [copySizes, Contents.slots, copySize_eq hs (hws w List.mem_cons_self),
      ih fun v hv => hws v (List.mem_cons_of_mem _ hv)]

end Sizes

/-! ## Roots behind and in front of the copy that was refused -/

section Roots

variable {config : ArenaConfig} {h h' : Heap} {objects : List Nat} {f g : Contents}
  (hs : Sound config h objects f)
include hs

/-- Once all copies are made, every root points to the copy. -/
theorem keeps_of_relocated {roots : Roots} (hr : Relocated f h.roots roots g)
    (ho : h'.arena.Owns g) {i : Nat} {w : Word} (hi : h.roots[i]? = some w)
    (hp : w.kind = .pointer) : ∃ w', roots[i]? = some w' ∧ Keeps h.memory w h'.memory w' := by
  obtain ⟨w', hi', hm⟩ := hr.moved hs.rooted hi
  refine ⟨w', hi', ?_⟩
  rcases hm with ⟨hn, -⟩ | ⟨-, hp', -, -, hd, us, hold, hnew⟩
  · exact absurd hp hn
  · obtain ⟨hd', us', hf, hfit⟩ := hs.root_movable (List.mem_of_getElem? hi) hp
    rw [← hold, hf] at hnew
    exact keeps_of_owns hs.owns ho hp' hfit hf hnew

variable {before before' later : List Word} (hroots : h.roots = before ++ later)
  (hr : Relocated f before before' g) (ho : h'.arena.Owns g)
include hroots hr ho

/-- A root whose turn did not come names its object where it was. -/
theorem keeps_of_later (hu : Unshared h.roots) {w : Word} (hw : w ∈ later) (hp : w.kind = .pointer) :
    Keeps h.memory w h'.memory w := by
  have hmem : w ∈ h.roots := by
    rw [hroots]
    exact List.mem_append_right _ hw
  obtain ⟨hd, us, hf, hfit⟩ := hs.root_movable hmem hp
  exact keeps_of_owns hs.owns ho hp hfit hf (hr.of_later (hroots ▸ hu) hw hf)

/-- A root whose object was copied names the place that was wiped. -/
theorem not_keeps_of_before {w : Word} (hw : w ∈ before) (hp : w.kind = .pointer) :
    ¬ Keeps h.memory w h'.memory w := by
  have hrooted : Rooted f before := by
    intro v hv
    apply hs.rooted
    rw [hroots]
    exact List.mem_append_left _ hv
  obtain ⟨i, hi⟩ := List.getElem?_of_mem hw
  obtain ⟨w', -, hm⟩ := hr.moved hrooted hi
  rintro ⟨-, ⟨hd, -, hheader⟩, -⟩
  rcases hm with ⟨hn, -⟩ | ⟨-, -, -, hwiped, -⟩
  · exact hn hp
  · have hgone := ho.header_of_wiped (o := ⟨w.toNat⟩) hwiped
    rw [show (HeapObject.mk w.toNat).header h'.memory = _ from hgone] at hheader
    cases hheader

/-- With `n` words handed out, a root keeps its object if the limit was met before its turn. -/
theorem keeps_iff_of_stopped {v : Word} {limit n i : Nat} {w : Word}
    (hpre : before ++ [v] <+: h.roots) (hsame : h'.roots = h.roots) (hu : Unshared h.roots)
    (hcopied : 0 < f.slots before → n + f.slots before ≤ limit)
    (hstuck : limit < n + f.slots (before ++ [v])) (hi : h.roots[i]? = some w)
    (hp : w.kind = .pointer) :
    (∃ w', h'.roots[i]? = some w' ∧ Keeps h.memory w h'.memory w') ↔
      limit < n + f.slots (h.roots.take (i + 1)) ∨ n + f.slots h.roots ≤ limit := by
  have hkeeps : (∃ w', h'.roots[i]? = some w' ∧ Keeps h.memory w h'.memory w') ↔
      Keeps h.memory w h'.memory w := by
    rw [hsame, hi]
    simp
  rw [hkeeps]
  rcases Nat.lt_or_ge i before.length with hlt | hge
  · -- The object of the root was copied before the copy that was refused.
    have hw : w ∈ before := by
      rw [hroots, List.getElem?_append_left hlt] at hi
      exact List.mem_of_getElem? hi
    have hpos := (hs.root_movable (hroots ▸ List.mem_append_left _ hw) hp).slotsOf_le hp
    have htake : h.roots.take (i + 1) <+: before := by
      apply List.prefix_of_prefix_length_le (List.take_prefix _ _) ⟨later, hroots.symm⟩
      rw [List.length_take]
      omega
    have hle := Contents.slots_mono (f := f) htake
    have hall := Contents.slots_mono (f := f) hpre
    have hfit := hcopied (Nat.lt_of_lt_of_le hpos.1 (Contents.slotsOf_le_slots hw))
    exact iff_of_false (not_keeps_of_before hs hroots hr ho hw hp) (by omega)
  · -- The turn of the root did not come.
    have hw : w ∈ later := by
      rw [hroots, List.getElem?_append_right hge] at hi
      exact List.mem_of_getElem? hi
    have htake : before ++ [v] <+: h.roots.take (i + 1) :=
      List.prefix_take_iff.2 ⟨hpre, by simpa using hge⟩
    have hle := Contents.slots_mono (f := f) htake
    exact iff_of_true (keeps_of_later hs hroots hr ho hu hw hp) (.inl (by omega))

end Roots

/-- Where a request under a collector, or one of the copies ahead of it, exceeds the limit, a root
keeps its object if and only if the copies up to this object exceed the limit already or all copies
keep to it. -/
theorem refused_allocation_keeps_iff {config : ArenaConfig} {limit : Nat}
    (hl : config.limit = some limit) {h : Heap} {objects : List Nat} (hb : Built config h objects)
    (hu : Unshared h.roots) {r : Request} {e : Fault} {h' : Heap}
    (hr : (Heap.allocate r).run h = .error e h') (he : OverLimit e) {i : Nat} {w : Word}
    (hi : h.roots[i]? = some w) (hp : w.kind = .pointer) :
    (∃ w', h'.roots[i]? = some w' ∧ Keeps h.memory w h'.memory w') ↔
      limit < h.arena.allocated + copySizes h.memory (h.roots.take (i + 1)) ∨
        h.arena.allocated + copySizes h.memory h.roots ≤ limit := by
  obtain ⟨f, hs⟩ := hb.sound
  obtain ⟨k, hk⟩ := hs.moving
  have hl : h.arena.config.limit = some limit := by rw [hs.config_eq, hl]
  have hmem := List.mem_of_getElem? hi
  have hpos := ((hs.root_movable hmem hp).slotsOf_le hp).1
  rw [copySizes_eq hs fun v hv => List.mem_of_mem_take hv, copySizes_eq hs fun v hv => hv]
  rcases run_allocate_moving_cases hk hs.owns (fun v hv hq => hs.root_movable hv hq) r with
    ⟨h₁, roots, g, hrun, hc, hrel⟩ | ⟨e', h₁, hrun, hstop⟩
  · -- All copies were made, and it is the request that was refused.
    obtain ⟨hsame, harena⟩ := run_reserve_eq_error (hrun.symm.trans hr)
    have ho : h'.arena.Owns g := harena ▸ hc.owns
    refine iff_of_true ?_ (.inr (hc.le_limit hl ?_))
    · rw [hsame.roots]
      exact keeps_of_relocated hs hrel ho hi hp
    · exact Nat.lt_of_lt_of_le hpos (Contents.slotsOf_le_slots hmem)
  · rw [hrun] at hr
    obtain ⟨rfl, rfl⟩ := EStateM.Result.error.inj hr
    obtain ⟨before, before', v, after, g, hroots, hc, hrel, hstuck⟩ := exceeds_of_stops hstop he hl
    have hpre : before ++ [v] <+: h.roots := ⟨after, by rw [hroots, List.append_assoc]; rfl⟩
    exact keeps_iff_of_stopped hs hroots hrel hc.owns hpre hc.alike.roots hu (hc.le_limit hl) hstuck
      hi hp

/-! ## Two rooted constructors and room for one copy -/

section Sample

/-- The heap that an action leaves when it stops, and why it does. -/
def stopped {α : Type} (x : HeapM α) (h : Heap) : Option (Fault × Heap) :=
  match x.run h with
  | .ok _ _ => none
  | .error e h' => some (e, h')

theorem run_of_stopped {α : Type} {x : HeapM α} {h h' : Heap} {e : Fault}
    (hx : stopped x h = some (e, h')) : x.run h = .error e h' := by
  rw [stopped] at hx
  split at hx
  case h_1 => cases hx
  case h_2 heq =>
    rw [heq]
    cases hx
    rfl

def tightConfig : ArenaConfig := { chunkWords := 16, limit := some 9 }

def tightEmpty : Heap := { arena := { config := tightConfig }, discipline := .moving 0 }

/-- A rooted constructor. -/
def tightFirst : Heap :=
  { after (HeapObject.allocate 5 1) tightEmpty with roots := [.ofNat Memory.origin] }

/-- Another one, made once the first one was moved. -/
def tight : Heap :=
  { after (HeapObject.allocate 6 1) tightFirst with
    roots := [.ofNat (Memory.origin + 16), .ofNat (Memory.origin + 32)] }

theorem tight_built : Built tightConfig tight [Memory.origin + 32, Memory.origin + 16] := by
  have hfirst : given (HeapObject.allocate 5 1) tightEmpty = some ⟨Memory.origin⟩ := by
    decide +kernel
  have hobjects : (HeapObject.mk Memory.origin).address ::
      (pointees (after (HeapObject.allocate 5 1) tightEmpty).roots ++
        ([] : List Nat).filter fun x => x ∉ pointees tightEmpty.roots) = [Memory.origin] := by
    decide +kernel
  have hroots : pointees [Word.ofNat Memory.origin] ⊆ [Memory.origin] := by decide +kernel
  have hsecond : given (HeapObject.allocate 6 1) tightFirst = some ⟨Memory.origin + 32⟩ := by
    decide +kernel
  have hobjects' : (HeapObject.mk (Memory.origin + 32)).address ::
      (pointees (after (HeapObject.allocate 6 1) tightFirst).roots ++
        [Memory.origin].filter fun x => x ∉ pointees tightFirst.roots) =
          [Memory.origin + 32, Memory.origin + 16] := by
    decide +kernel
  have hroots' : pointees [Word.ofNat (Memory.origin + 16), Word.ofNat (Memory.origin + 32)] ⊆
      [Memory.origin + 32, Memory.origin + 16] := by
    decide +kernel
  have hb : Built tightConfig tightEmpty [] := .new 0
  have hb := hb.constructor (by decide) (run_of_given hfirst)
  rw [hobjects] at hb
  have hb : Built tightConfig tightFirst [Memory.origin] := hb.setRoots hroots
  have hb := hb.constructor (by decide) (run_of_given hsecond)
  rw [hobjects'] at hb
  exact hb.setRoots hroots'

/-- The first root is lost and the second one is kept. -/
theorem tight_refused :
    ∃ h', (Heap.allocate (.words 1)).run tight =
        .error (.violated (.collectionRefused (.outOfMemory 2))) h' ∧
      (¬ ∃ w', h'.roots[0]? = some w' ∧
        Keeps tight.memory (.ofNat (Memory.origin + 16)) h'.memory w') ∧
      ∃ w', h'.roots[1]? = some w' ∧
        Keeps tight.memory (.ofNat (Memory.origin + 32)) h'.memory w' := by
  have hstopped : (stopped (Heap.allocate (.words 1)) tight).map Prod.fst =
      some (.violated (.collectionRefused (.outOfMemory 2))) := by
    decide +kernel
  obtain ⟨⟨e, h'⟩, hx, rfl⟩ := Option.map_eq_some_iff.1 hstopped
  have hrun := run_of_stopped hx
  have hunshared : Unshared tight.roots := by
    refine List.pairwise_pair.2 fun _ => ?_
    decide +kernel
  have hfirst : tight.roots[0]? = some (.ofNat (Memory.origin + 16)) := rfl
  have hsecond : tight.roots[1]? = some (.ofNat (Memory.origin + 32)) := rfl
  have hkind : (Word.ofNat (Memory.origin + 16)).kind = .pointer ∧
      (Word.ofNat (Memory.origin + 32)).kind = .pointer := by
    decide +kernel
  have hsizes : tight.arena.allocated = 6 ∧ copySizes tight.memory (tight.roots.take 1) = 2 ∧
      copySizes tight.memory (tight.roots.take 2) = 4 ∧ copySizes tight.memory tight.roots = 4 := by
    decide +kernel
  obtain ⟨hallocated, hone, htwo, hall⟩ := hsizes
  refine ⟨h', hrun, ?_, ?_⟩
  · rw [refused_allocation_keeps_iff rfl tight_built hunshared hrun (.copy 2) hfirst hkind.1, hone,
      hall, hallocated]
    decide
  · rw [refused_allocation_keeps_iff rfl tight_built hunshared hrun (.copy 2) hsecond hkind.2, htwo,
      hall, hallocated]
    decide

end Sample

end TaggedHeap.Graph
