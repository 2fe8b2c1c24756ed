import TaggedHeap.Proofs.Graph.Building

/-!
# What a collection does to a graph

A collection moves what each root points to and redirects that root alone. A field still names the
old place, where zeros are left, and a second root finds no header there. So the graph is preserved
if and only if no two roots are the same pointer and no path from a root to data runs through what a
root points to.
-/

namespace TaggedHeap.Graph

open Heap

/-- The word in a field of what a word points to. -/
def field (m : Memory) (w : Word) (n : Nat) : Except Fault Word := do
  let o ← HeapObject.ofWord w
  o.argument n m

/-- The word that a path of fields leads to. -/
def follow (m : Memory) (w : Word) : List Nat → Except Fault Word
  | [] => .ok w
  | n :: path => do follow m (← field m w n) path

/-- The word is data or points to one of the objects. -/
def Refers (objects : List Nat) (w : Word) : Prop :=
  w.IsData ∨ w.kind = .pointer ∧ w.toNat ∈ objects

/-- No word in a field or a root leads out of the objects. -/
structure Closed (h : Heap) (objects : List Nat) : Prop where
  fields : ∀ x ∈ objects, ∀ n w, HeapObject.argument ⟨x⟩ n h.memory = .ok w → Refers objects w
  roots : ∀ w ∈ h.roots, Refers objects w

/-- Roots are equal when they were, and each path from a root to data still leads there. -/
structure Preserved (h h' : Heap) : Prop where
  equal : ∀ i j : Nat, h.roots[i]? = h.roots[j]? → h'.roots[i]? = h'.roots[j]?
  different : ∀ (i j : Nat) (v w : Word), h.roots[i]? = some v → h.roots[j]? = some w →
    v.kind = .pointer → w.kind = .pointer → v ≠ w → h'.roots[i]? ≠ h'.roots[j]?
  paths : ∀ (i : Nat) (w v : Word) (path : List Nat), h.roots[i]? = some w →
    follow h.memory w path = .ok v → v.IsData →
    ∃ w', h'.roots[i]? = some w' ∧ follow h'.memory w' path = .ok v

/-- No path from a word to data runs through what a root points to, its beginning apart. -/
def Untangled (h : Heap) (w : Word) : Prop :=
  ∀ (p q : List Nat) (u v : Word), p ≠ [] → follow h.memory w p = .ok u → u.kind = .pointer →
    u ∈ h.roots → follow h.memory u q = .ok v → ¬ v.IsData

/-! ## Fields -/

section Fields

variable {m : Memory} {w : Word} {n : Nat}

theorem field_of_ne (hw : w.kind ≠ .pointer) :
    field m w n = .error (.violated (.notAPointer w.toNat)) := by
  rw [field, HeapObject.ofWord_of_ne hw]
  rfl

theorem field_of_pointer (hw : w.kind = .pointer) :
    field m w n = HeapObject.argument ⟨w.toNat⟩ n m := by
  rw [field, HeapObject.ofWord_of_pointer hw]
  rfl

theorem follow_cons (path : List Nat) :
    follow m w (n :: path) = (field m w n).bind fun v => follow m v path := rfl

theorem follow_cons_eq_ok {path : List Nat} {v : Word} (h : follow m w (n :: path) = .ok v) :
    ∃ u, field m w n = .ok u ∧ follow m u path = .ok v := by
  rw [follow_cons] at h
  cases hf : field m w n with
  | error e =>
    rw [hf] at h
    cases h
  | ok u =>
    rw [hf] at h
    exact ⟨u, rfl, h⟩

theorem follow_append {p q : List Nat} {u : Word} (h : follow m w p = .ok u) :
    follow m w (p ++ q) = follow m u q := by
  induction p generalizing w with
  | nil =>
    obtain rfl := Except.ok.inj h
    rfl
  | cons n p ih =>
    obtain ⟨v, hv, hrest⟩ := follow_cons_eq_ok h
    rw [List.cons_append, follow_cons, hv]
    exact ih hrest

/-- Fields of an object are told by its words. -/
theorem argument_eq {x : Nat} {hd : Header} {us : List Word} (h : m.Holds x (hd.toWord :: us))
    (hfit : hd.Fits us) :
    HeapObject.argument ⟨x⟩ n m =
      if n + 1 < wordLimit then wordAt us n else .error (.violated .sumOverflow) := by
  split
  case isTrue hlt =>
    rw [HeapObject.argument_eq_read _ hlt]
    exact HeapObject.read_succ (o := ⟨x⟩) h hfit n
  case isFalse hge => exact HeapObject.argument_of_le _ (by omega) m

theorem field_of_wiped {a : Arena} {f : Contents} (ho : a.Owns f) (hw : w.kind = .pointer)
    (hx : f.Wiped w.toNat) (v : Word) : field a.memory w n ≠ .ok v := by
  have hheader := ho.header_of_wiped (o := ⟨w.toNat⟩) hx
  rw [field_of_pointer hw]
  by_cases hlt : n + 1 < wordLimit
  · rw [HeapObject.argument_eq_read _ hlt]
    simp [HeapObject.read, HeapObject.slot, HeapObject.slotCount, HeapObject.layout, hheader, bind,
      Except.bind, Functor.map, Except.map]
  · rw [HeapObject.argument_of_le _ (by omega)]
    simp

end Fields

/-- The words are the same data, or point to objects with the same words. -/
inductive Same (f g : Contents) : Word → Word → Prop where
  | data {w : Word} : w.kind ≠ .pointer → Same f g w w
  | object {w w' : Word} {hd : Header} {us : List Word} :
    w.kind = .pointer → w'.kind = .pointer → hd.Fits us → f w.toNat = some (hd.toWord :: us) →
    g w'.toNat = some (hd.toWord :: us) → Same f g w w'

theorem Same.field_eq {a b : Arena} {f g : Contents} (ha : a.Owns f) (hb : b.Owns g) {w w' : Word}
    (h : Same f g w w') (n : Nat) : field b.memory w' n = field a.memory w n := by
  cases h with
  | data hw => rw [field_of_ne hw, field_of_ne hw]
  | object hw hw' hfit hf hg =>
    rw [field_of_pointer hw, field_of_pointer hw', argument_eq (ha.holds hf) hfit,
      argument_eq (hb.holds hg) hfit]

/-! ## Paths -/

section Paths

variable {config : ArenaConfig} {h h' : Heap} {objects : List Nat} {f g : Contents}
  (hs : Sound config h objects f) (hc : Closed h objects)
  (hr : Relocated f h.roots h'.roots g) (ho : h'.arena.Owns g)

include hs hr

theorem Sound.root (i : Nat) {w : Word} (hi : h.roots[i]? = some w) :
    ∃ w', h'.roots[i]? = some w' ∧ Same f g w w' ∧ (w.kind = .pointer → g.Wiped w.toNat) := by
  obtain ⟨w', hi', hm⟩ := hr.moved hs.rooted hi
  refine ⟨w', hi', ?_⟩
  rcases hm with ⟨hn, rfl⟩ | ⟨hp, hp', -, hwiped, hd, us, hold, hnew⟩
  · exact ⟨.data hn, fun hp => absurd hp hn⟩
  · obtain ⟨hd', us', hf, hfit⟩ := hs.root_movable (List.mem_of_getElem? hi) hp
    rw [← hold, hf] at hnew
    exact ⟨.object hp hp' hfit hf hnew, fun _ => hwiped⟩

theorem Sound.wiped {w : Word} (hw : w ∈ h.roots) (hp : w.kind = .pointer) : g.Wiped w.toNat := by
  obtain ⟨i, hi⟩ := List.getElem?_of_mem hw
  obtain ⟨-, -, -, hwiped⟩ := hs.root hr i hi
  exact hwiped hp

theorem Sound.same {w : Word} (hw : Refers objects w) (hn : w.kind = .pointer → w ∉ h.roots) :
    Same f g w w := by
  rcases hw with hdata | ⟨hp, hx⟩
  · exact .data hdata.ne_pointer
  · obtain ⟨hd, us, hf, hfit⟩ := hs.movable _ hx
    refine .object hp hp hfit hf (hr.of_unrooted hf fun v hv _ he => ?_)
    exact hn hp (Word.toNat_inj.1 he ▸ hv)

omit hs hr in
include hc in
theorem Closed.refers {w u : Word} {n : Nat} (hw : Refers objects w)
    (hf : field h.memory w n = .ok u) : Refers objects u := by
  rcases hw with hdata | ⟨hp, hx⟩
  · rw [field_of_ne hdata.ne_pointer] at hf
    cases hf
  · rw [field_of_pointer hp] at hf
    exact hc.fields _ hx n u hf

include hc ho

/-- A path to data that runs through no root still leads there. -/
theorem follow_of_untangled {path : List Nat} {w w' v : Word} (hw : Same f g w w')
    (href : Refers objects w) (hu : Untangled h w) (hf : follow h.memory w path = .ok v)
    (hv : v.IsData) : follow h'.memory w' path = .ok v := by
  induction path generalizing w w' with
  | nil =>
    obtain rfl := Except.ok.inj hf
    cases hw with
    | data => rfl
    | object hp => exact absurd hp hv.ne_pointer
  | cons n path ih =>
    obtain ⟨u, hu₁, hu₂⟩ := follow_cons_eq_ok hf
    have hstep : ∀ p, follow h.memory w (n :: p) = follow h.memory u p := fun p => by
      rw [follow_cons, hu₁]
      rfl
    have hfree : u.kind = .pointer → u ∉ h.roots := fun hp hmem =>
      hu [n] path u v (by simp) (hstep []) hp hmem hu₂ hv
    have hnext : Untangled h u := fun p q u' v' _ hp =>
      hu (n :: p) q u' v' (by simp) ((hstep p).trans hp)
    have hfield : field h'.memory w' n = .ok u := (hw.field_eq hs.owns ho n).trans hu₁
    rw [follow_cons, hfield]
    exact ih (hs.same hr (hc.refers href hu₁) hfree) (hc.refers href hu₁) hnext hu₂

/-- A path through what a root points to leads to no data any more. -/
theorem follow_blocked {p q : List Nat} {w w' u v : Word} (hw : Same f g w w')
    (href : Refers objects w) (hp : p ≠ []) (hf : follow h.memory w p = .ok u)
    (hk : u.kind = .pointer) (hu : u ∈ h.roots) (hv : v.IsData) :
    follow h'.memory w' (p ++ q) ≠ .ok v := by
  induction p generalizing w w' with
  | nil => exact absurd rfl hp
  | cons n p ih =>
    obtain ⟨d, hd, hrest⟩ := follow_cons_eq_ok hf
    have hfield : field h'.memory w' n = .ok d := (hw.field_eq hs.owns ho n).trans hd
    rw [List.cons_append, follow_cons, hfield]
    -- The field still holds the old address, so the first root on the path ends it.
    by_cases hroot : d.kind = .pointer ∧ d ∈ h.roots
    · obtain ⟨hkd, hmem⟩ := hroot
      intro hend
      have hend : follow h'.memory d (p ++ q) = .ok v := hend
      cases hpq : p ++ q with
      | nil =>
        rw [hpq] at hend
        obtain rfl := Except.ok.inj hend
        exact hv.ne_pointer hkd
      | cons k rest =>
        rw [hpq] at hend
        obtain ⟨u', hu', -⟩ := follow_cons_eq_ok hend
        exact field_of_wiped ho hkd (hs.wiped hr hmem hkd) u' hu'
    · have hnil : p ≠ [] := by
        rintro rfl
        obtain rfl := Except.ok.inj hrest
        exact hroot ⟨hk, hu⟩
      have hsame := hs.same hr (hc.refers href hd) fun hkd hmem => hroot ⟨hkd, hmem⟩
      exact ih hsame (hc.refers href hd) hnil hrest

end Paths

/-! ## The whole graph -/

section Whole

variable {config : ArenaConfig} {h h' : Heap} {objects : List Nat} {f g : Contents}
  (hs : Sound config h objects f) (hc : Closed h objects)
  (hr : Relocated f h.roots h'.roots g) (ho : h'.arena.Owns g)
include hs hc hr ho

/-- After a collection the graph is what it was exactly if no root was tangled up with another. -/
theorem preserved_iff : Preserved h h' ↔ ∀ w ∈ h.roots, Untangled h w := by
  constructor
  · intro hpres w hw p q u v hp hf hk hu hq hv
    obtain ⟨i, hi⟩ := List.getElem?_of_mem hw
    have hpath : follow h.memory w (p ++ q) = .ok v := (follow_append hf).trans hq
    obtain ⟨w', hi', hfollow⟩ := hpres.paths i w v (p ++ q) hi hpath hv
    obtain ⟨w'', hi'', hsame, -⟩ := hs.root hr i hi
    obtain rfl := Option.some.inj (hi'.symm.trans hi'')
    exact follow_blocked hs hc hr ho hsame (hc.roots w hw) hp hf hk hu hv hfollow
  · intro hu
    refine ⟨fun i j hij => ?_, fun i j v w hi hj hv hw hne he => ?_, fun i w v path hi hf hv => ?_⟩
    · cases hi : h.roots[i]? with
      | none =>
        have hlen := hr.length_eq
        have hi' := List.getElem?_eq_none_iff.1 hi
        have hj' := List.getElem?_eq_none_iff.1 (hij.symm.trans hi)
        rw [List.getElem?_eq_none (by omega), List.getElem?_eq_none (by omega)]
      | some w =>
        have hj := hij.symm.trans hi
        by_cases hp : w.kind = .pointer
        · obtain rfl := unshared_iff.1 hr.unshared i j w hi hj hp
          rfl
        · obtain ⟨v, hv, hm⟩ := hr.moved hs.rooted hi
          obtain ⟨u, hu', hm'⟩ := hr.moved hs.rooted hj
          rw [hv, hu']
          rcases hm with ⟨-, rfl⟩ | ⟨hp', -⟩
          · rcases hm' with ⟨-, rfl⟩ | ⟨hp', -⟩
            · rfl
            · exact absurd hp' hp
          · exact absurd hp' hp
    · obtain ⟨v', hv', hm⟩ := hr.moved hs.rooted hi
      obtain ⟨w', hw', -⟩ := hr.moved hs.rooted hj
      rcases hm with ⟨hn, -⟩ | ⟨-, hp, -⟩
      · exact hn hv
      · have hij := unshared_iff.1 (hr.unshared_after hs.rooted) i j v' hv' (he ▸ hv') hp
        subst hij
        exact hne (Option.some.inj (hi.symm.trans hj))
    · obtain ⟨w', hi', hsame, -⟩ := hs.root hr i hi
      have hmem := List.mem_of_getElem? hi
      exact ⟨w', hi', follow_of_untangled hs hc hr ho hsame (hc.roots w hmem) (hu w hmem) hf hv⟩

end Whole

/-- A request under a collector preserves the graph that was built exactly if a chunk can be made
for it, no two roots are the same pointer and no root is tangled up with another. -/
theorem collection_preserves_iff {config : ArenaConfig} (hl : config.limit = none) {h : Heap}
    {objects : List Nat} (hb : Built config h objects) (hc : Closed h objects) {n : Nat}
    (hn : n ≤ 256) (hx : ∀ h', (Heap.allocate (.words n)).run h ≠ .error .exhausted h') :
    (∃ x h', (Heap.allocate (.words n)).run h = .ok x h' ∧ Preserved h h') ↔
      (n = 0 ∨ config.Opens) ∧ Unshared h.roots ∧ ∀ w ∈ h.roots, Untangled h w := by
  obtain ⟨f, hs⟩ := hb.sound
  obtain ⟨k, hk⟩ := hs.moving
  have hcfg := hs.config_eq
  rcases run_allocate_moving hk hs.owns (hcfg ▸ hl) (fun w hw hp => hs.root_movable hw hp) (n := n)
    (by simp only [maxSlots, maxFields]; omega) with
    ⟨h', ha⟩ | ⟨e, h', ha, hfail⟩ | ⟨x, h', g, ha, -, -, hr, ho, hsize⟩
  · exact absurd ha (hx h')
  · refine iff_of_false ?_ ?_
    · rintro ⟨x, h'', hok, -⟩
      rw [ha] at hok
      cases hok
    · rintro ⟨hsize, hu, -⟩
      rcases hfail with hshared | ⟨hne, hclosed⟩
      · exact hshared hu
      · rw [hcfg] at hclosed
        exact hsize.elim hne hclosed
  · have hpres := preserved_iff hs hc hr ho
    constructor
    · rintro ⟨y, h'', hok, hp⟩
      rw [ha] at hok
      obtain ⟨rfl, rfl⟩ := EStateM.Result.ok.inj hok
      exact ⟨hsize.imp_right fun h => hcfg ▸ h.1, hr.unshared, hpres.1 hp⟩
    · rintro ⟨-, -, hu⟩
      exact ⟨x, h', ha, hpres.2 hu⟩

/-! ## One rooted constructor -/

section Sample

def after {α : Type} (x : HeapM α) (h : Heap) : Heap :=
  match x.run h with
  | .ok _ h' => h'
  | .error _ h' => h'

def given {α : Type} (x : HeapM α) (h : Heap) : Option α :=
  match x.run h with
  | .ok a _ => some a
  | .error _ _ => none

theorem run_of_given {α : Type} {x : HeapM α} {h : Heap} {a : α} (hx : given x h = some a) :
    x.run h = .ok a (after x h) := by
  rw [given] at hx
  rw [after]
  split at hx
  case h_1 heq =>
    rw [heq]
    rw [Option.some.inj hx]
  case h_2 => cases hx

def empty : Heap := { discipline := .moving 0 }

/-- A constructor with one field. -/
def fresh : Heap := after (HeapObject.allocate 5 1) empty

/-- The number seven in its field. -/
def filled : Heap := after (writing (HeapObject.setArgument ⟨Memory.origin⟩ 0 (.unboxed 7))) fresh

/-- A root that points to it. -/
def sample : Heap := { filled with roots := [.ofNat Memory.origin] }

theorem sample_built : Built {} sample [Memory.origin] := by
  have hfresh : given (HeapObject.allocate 5 1) empty = some ⟨Memory.origin⟩ := by
    decide +kernel
  have hobjects : (HeapObject.mk Memory.origin).address :: (pointees fresh.roots ++
      ([] : List Nat).filter fun x => x ∉ pointees empty.roots) = [Memory.origin] := by
    decide +kernel
  have hfilled : given (writing (HeapObject.setArgument ⟨Memory.origin⟩ 0 (.unboxed 7))) fresh =
      some () := by
    decide +kernel
  have hroots : pointees [Word.ofNat Memory.origin] ⊆ [Memory.origin] := by decide +kernel
  have hu : 2 ≤ 5 := by decide
  have hnew : Built {} empty [] := .new 0
  have hb := hnew.constructor hu (run_of_given hfresh)
  rw [← fresh, hobjects] at hb
  exact (hb.setArgument (List.mem_singleton.2 rfl) (run_of_given hfilled)).setRoots hroots

theorem sample_root {w : Word} (hw : w ∈ sample.roots) : w = .ofNat Memory.origin :=
  List.mem_singleton.1 hw

theorem sample_field {n : Nat} {u : Word}
    (h : HeapObject.argument ⟨Memory.origin⟩ n sample.memory = .ok u) : u = .unboxed 7 := by
  let hd : Header := ⟨5, 1, false, by decide, by decide⟩
  have hread : (sample.memory.readMany Memory.origin 2).toOption =
      some [hd.toWord, .unboxed 7] := by
    decide +kernel
  have hholds : sample.memory.Holds Memory.origin [hd.toWord, .unboxed 7] := by
    apply Memory.readMany_eq_ok_iff_holds.1
    cases hm : sample.memory.readMany Memory.origin 2 with
    | error e =>
      rw [hm] at hread
      cases hread
    | ok ws =>
      rw [hm] at hread
      have hws : ws = [hd.toWord, .unboxed 7] := Option.some.inj hread
      rw [← hws]
  have hfit : hd.Fits [.unboxed 7] := rfl
  rw [argument_eq hholds hfit] at h
  split at h
  case isFalse => simp at h
  case isTrue =>
    cases n with
    | zero =>
      have h : Except.ok (Word.unboxed 7) = (.ok u : Except Fault Word) := h
      exact (Except.ok.inj h).symm
    | succ n => simp [wordAt] at h

theorem sample_data : (Word.unboxed 7).IsData := by decide +kernel

theorem sample_closed : Closed sample [Memory.origin] := by
  refine ⟨fun x hx n w hw => ?_, fun w hw => ?_⟩
  · have hx : x = Memory.origin := List.mem_singleton.1 hx
    subst hx
    rw [sample_field hw]
    exact .inl sample_data
  · rw [sample_root hw]
    exact .inr ⟨by decide +kernel, by decide +kernel⟩

theorem sample_untangled : ∀ w ∈ sample.roots, Untangled sample w := by
  intro w hw p q u v hp hf hk _ _
  have hroot : (Word.ofNat Memory.origin).kind = .pointer := by decide +kernel
  have haddress : (Word.ofNat Memory.origin).toNat = Memory.origin := by decide +kernel
  obtain ⟨n, p, rfl⟩ := List.exists_cons_of_ne_nil hp
  obtain ⟨d, hd, hrest⟩ := follow_cons_eq_ok (sample_root hw ▸ hf)
  rw [field_of_pointer hroot, haddress] at hd
  rw [sample_field hd] at hrest
  cases p with
  | nil =>
    have hu : Word.unboxed 7 = u := Except.ok.inj hrest
    rw [← hu] at hk
    exact absurd hk sample_data.ne_pointer
  | cons k p =>
    obtain ⟨e, he, -⟩ := follow_cons_eq_ok hrest
    rw [field_of_ne sample_data.ne_pointer] at he
    cases he

theorem sample_preserved :
    ∃ x h', (Heap.allocate (.words 3)).run sample = .ok x h' ∧ Preserved sample h' := by
  have hgiven : given (Heap.allocate (.words 3)) sample = some (Memory.origin + 32) := by
    decide +kernel
  have hx : ∀ h', (Heap.allocate (.words 3)).run sample ≠ .error .exhausted h' := by
    intro h' he
    rw [run_of_given hgiven] at he
    cases he
  have hopens : ({} : ArenaConfig).Opens := by
    simp [ArenaConfig.Opens, Arena.chunkByteLimit, wordSize]
  have hunshared : Unshared [Word.ofNat Memory.origin] := List.pairwise_singleton _ _
  exact (collection_preserves_iff rfl sample_built sample_closed (by decide) hx).2
    ⟨.inr hopens, hunshared, sample_untangled⟩

end Sample

end TaggedHeap.Graph
