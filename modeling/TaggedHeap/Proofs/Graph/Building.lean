import TaggedHeap.Proofs.Heap.Relocation

/-!
# Object graphs under a collector

A program builds a graph of constructors whose fields and roots point to one another. It asks a
collecting heap for them, so each allocation moves what the roots point to; the roots then tell where
to, and everything else is where it was. Of what a root pointed to no other word may be used.
-/

namespace TaggedHeap

namespace Heap

section Moving

variable {h h' : Heap} {k : Nat} (hd : h.discipline = .moving k) (r : Request)
include hd

theorem run_allocate_of_relocateAll {roots : Roots}
    (hrun : (relocateAll h.roots).run { h with discipline := .moving (k + 1) } = .ok roots h') :
    (allocate r).run h = (reserve roots.length r).run { h' with roots } := by
  rw [run_allocate, run_prepare, hd]
  simp only
  rw [run_collect_eq, run_bind, hrun]
  rfl

theorem run_allocate_of_relocateAll_error {e : Fault}
    (hrun : (relocateAll h.roots).run { h with discipline := .moving (k + 1) } = .error e h') :
    (allocate r).run h = .error e h' := by
  rw [run_allocate, run_prepare, hd]
  simp only
  rw [run_collect_eq, run_bind, hrun]

end Moving

/-- A request under a collector is made once the roots are relocated, unless that stops midway. -/
theorem run_allocate_moving_cases {h : Heap} {f : Contents} {k : Nat}
    (hd : h.discipline = .moving k) (ho : h.arena.Owns f)
    (hws : ∀ w ∈ h.roots, w.kind = .pointer → f.Movable w.toNat) (r : Request) :
    (∃ h' roots g, (allocate r).run h = (reserve roots.length r).run { h' with roots } ∧
      Copied { h with discipline := .moving (k + 1) } (f.slots h.roots) h' g ∧
      Relocated f h.roots roots g) ∨
    ∃ e h', (allocate r).run h = .error e h' ∧
      Stops { h with discipline := .moving (k + 1) } f h.roots e h' := by
  rcases run_relocateAll (h := { h with discipline := .moving (k + 1) }) ho
    fun w hw hp => .inl (hws w hw hp) with ⟨roots, h', g, hr, hc, hrel⟩ | ⟨e, h', hr, hstop⟩
  · exact .inl ⟨h', roots, g, run_allocate_of_relocateAll hd r hr, hc, hrel⟩
  · exact .inr ⟨e, h', run_allocate_of_relocateAll_error hd r hr, hstop⟩

/-- A request that succeeds is given a block that was in use neither before nor after the roots were
relocated. -/
theorem run_allocate_moving_eq_ok {h h' : Heap} {f : Contents} {k x : Nat}
    (hd : h.discipline = .moving k) (ho : h.arena.Owns f)
    (hws : ∀ w ∈ h.roots, w.kind = .pointer → f.Movable w.toNat) {r : Request}
    (hr : r.isEmpty = false) (ha : (allocate r).run h = .ok x h') :
    ∃ g, h'.discipline = .moving (k + 1) ∧ h'.arena.config = h.arena.config ∧
      Relocated f h.roots h'.roots g ∧ g x = none ∧
      h'.arena.Owns (g.put x (List.replicate r.wordCount Word.zero)) := by
  rcases run_allocate_moving_cases hd ho hws r with ⟨h₁, roots, g, hrun, hc, hrel⟩ | ⟨e, h₁, hrun, -⟩
  case inr =>
    rw [hrun] at ha
    cases ha
  cases hres : h₁.arena.reserve r with
  | error e =>
    obtain ⟨h₂, he, -⟩ := run_reserve_of_error (h := { h₁ with roots }) hres roots.length id
    rw [hrun, he] at ha
    cases ha
  | ok answer =>
    obtain ⟨h₂, hok, -, hsame, hnew, -, hown⟩ :=
      run_reserve_of_ok (h := { h₁ with roots }) hc.owns hr hres roots.length id
    rw [hrun, hok] at ha
    obtain ⟨rfl, rfl⟩ := EStateM.Result.ok.inj ha
    exact ⟨g, hsame.discipline.trans hc.alike.discipline, hsame.config.trans hc.alike.config,
      hsame.roots.symm ▸ hrel, hnew, hown⟩

/-- A request for words under a collector: the roots are relocated, then the words are handed out. -/
theorem run_allocate_moving {h : Heap} {f : Contents} {k : Nat} (hd : h.discipline = .moving k)
    (ho : h.arena.Owns f) (hl : h.arena.config.limit = none)
    (hws : ∀ w ∈ h.roots, w.kind = .pointer → f.Movable w.toNat) {n : Nat} (hn : n ≤ maxSlots) :
    (∃ h', (allocate (.words n)).run h = .error .exhausted h') ∨
    (∃ e h', (allocate (.words n)).run h = .error e h' ∧
      (¬ Unshared h.roots ∨ n ≠ 0 ∧ ¬ h.arena.config.Opens)) ∨
    ∃ x h' g, (allocate (.words n)).run h = .ok x h' ∧ h'.discipline = .moving (k + 1) ∧
      h'.arena.config = h.arena.config ∧ Relocated f h.roots h'.roots g ∧ h'.arena.Owns g ∧
      (n = 0 ∨ h.arena.config.Opens ∧ g x = none ∧
        h'.arena.Owns (g.put x (List.replicate n Word.zero))) := by
  rw [run_allocate, run_prepare, hd]
  simp only
  rcases run_collect (h := { h with discipline := .moving (k + 1) }) ho hl hws with
    ⟨h₁, g, hc, hd₁, hcfg, hown, hrel⟩ | ⟨h₁, hc⟩ | ⟨e, h₁, hc, hshared⟩
  · rw [hc]
    simp only
    cases n with
    | zero =>
      rw [run_reserve]
      exact .inr (.inr ⟨_, _, g, rfl, hd₁, hcfg, hrel, hown, .inl rfl⟩)
    | succ n =>
      have hopen : h₁.arena.config.opening (n + 1) = h.arena.config.opening (n + 1) := by rw [hcfg]
      rcases run_reserve_of_le hown (hcfg ▸ hl) h₁.roots.length id (r := .words (n + 1)) rfl hn with
        ⟨j, hj, ⟨x, h', hr, hsame, hnew, -, hown'⟩ | ⟨h', hr⟩⟩ | ⟨e, h', he, hr, -⟩
      · have hkeep : h'.arena.Owns g := hown'.of_put hnew
        refine .inr (.inr ⟨x, h', g, hr, hsame.discipline.trans hd₁, hsame.config.trans hcfg,
          hsame.roots.symm ▸ hrel, hkeep, .inr ⟨?_, hnew, hown'⟩⟩)
        exact ArenaConfig.opens_of_opening (hopen.symm.trans hj)
      · exact .inl ⟨h', hr⟩
      · refine .inr (.inl ⟨e, h', hr, .inr ⟨Nat.succ_ne_zero n, fun hopens => ?_⟩⟩)
        obtain ⟨j, hj⟩ := hopens.opening hn
        have he : h₁.arena.config.opening (n + 1) = .error e := he
        rw [hopen, hj] at he
        cases he
  · rw [hc]
    exact .inl ⟨h₁, rfl⟩
  · rw [hc]
    exact .inr (.inl ⟨e, h₁, rfl, .inl hshared⟩)

end Heap

namespace Graph

open Heap

/-- The addresses of what the pointers among the words point to. -/
def pointees (ws : List Word) : List Nat := (ws.filter (·.kind = .pointer)).map Word.toNat

theorem mem_pointees {ws : List Word} {x : Nat} :
    x ∈ pointees ws ↔ ∃ w ∈ ws, w.kind = .pointer ∧ w.toNat = x := by
  simp [pointees, and_assoc]

/-- Heaps that constructors were built in under a collector, with the addresses of those that may be
used: the new one, what the roots point to now, and what no root pointed to before. -/
inductive Built (config : ArenaConfig) : Heap → List Nat → Prop where
  | new (n : Nat) : Built config { arena := { config }, discipline := .moving n } []
  | constructor {h h' : Heap} {objects : List Nat} {uid nfields : Nat} {o : HeapObject} :
    Built config h objects → 2 ≤ uid → (HeapObject.allocate uid nfields).run h = .ok o h' →
    Built config h' (o.address :: (pointees h'.roots ++
      objects.filter fun x => x ∉ pointees h.roots))
  | setArgument {h h' : Heap} {objects : List Nat} {x n : Nat} {w : Word} :
    Built config h objects → x ∈ objects →
    (writing (HeapObject.setArgument ⟨x⟩ n w)).run h = .ok () h' → Built config h' objects
  | setRoots {h : Heap} {objects : List Nat} {roots : Roots} :
    Built config h objects → pointees roots ⊆ objects → Built config { h with roots } objects

/-- The objects are blocks in use, and the roots point to none but them. -/
structure Sound (config : ArenaConfig) (h : Heap) (objects : List Nat) (f : Contents) : Prop where
  config_eq : h.arena.config = config
  moving : ∃ n, h.discipline = .moving n
  owns : h.arena.Owns f
  movable : ∀ x ∈ objects, f.Movable x
  roots : pointees h.roots ⊆ objects

namespace Sound

variable {config : ArenaConfig} {h : Heap} {objects : List Nat} {f : Contents}

theorem root_movable (hs : Sound config h objects f) {w : Word} (hw : w ∈ h.roots)
    (hp : w.kind = .pointer) : f.Movable w.toNat :=
  hs.movable _ (hs.roots (mem_pointees.2 ⟨w, hw, hp, rfl⟩))

theorem rooted (hs : Sound config h objects f) : Rooted f h.roots := by
  intro w hw hp
  obtain ⟨hd, us, hf, -⟩ := hs.root_movable hw hp
  simp [hf]

/-- A collection leaves the objects that no root points to and moves the others. -/
theorem relocated (hs : Sound config h objects f) {g : Contents} {roots : Roots}
    (hr : Relocated f h.roots roots g) :
    ∀ x ∈ pointees roots ++ objects.filter (fun x => x ∉ pointees h.roots), g.Movable x := by
  intro x hx
  rcases List.mem_append.1 hx with hx | hx
  · obtain ⟨w', hw', hp', rfl⟩ := mem_pointees.1 hx
    obtain ⟨i, hi⟩ := List.getElem?_of_mem hw'
    obtain ⟨w, hw, hm⟩ := hr.came hs.rooted hi
    rcases hm with ⟨hn, rfl⟩ | ⟨hp, -, -, -, hd, us, hold, hnew⟩
    · exact absurd hp' hn
    · obtain ⟨hd', us', hf, hfit⟩ := hs.root_movable (List.mem_of_getElem? hw) hp
      rw [hf] at hold
      exact ⟨hd', us', hnew.trans hold.symm, hfit⟩
  · obtain ⟨hx, hn⟩ := List.mem_filter.1 hx
    obtain ⟨hd, us, hf, hfit⟩ := hs.movable x hx
    refine ⟨hd, us, hr.of_unrooted hf fun w hw hp he => ?_, hfit⟩
    exact of_decide_eq_true hn (mem_pointees.2 ⟨w, hw, hp, he⟩)

theorem constructor (hs : Sound config h objects f) {uid nfields : Nat} (hu : 2 ≤ uid)
    {o : HeapObject} {h' : Heap} (hr : (HeapObject.allocate uid nfields).run h = .ok o h') :
    ∃ g, Sound config h' (o.address :: (pointees h'.roots ++
      objects.filter fun x => x ∉ pointees h.roots)) g := by
  obtain ⟨k, hk⟩ := hs.moving
  cases hh : Header.ofFields? uid nfields with
  | error e =>
    rw [HeapObject.run_allocate_of_refused hh] at hr
    cases hr
  | ok hd =>
    obtain ⟨hu', hn, -⟩ := Header.ofFields?_eq_ok hh
    cases ha : (Heap.allocate (.words (nfields + 1))).run h with
    | error e h₁ =>
      rw [HeapObject.run_allocate_of_error hh ha] at hr
      cases hr
    | ok x h₁ =>
    obtain ⟨g, hd₁, hcfg, hrel, hnew, hown⟩ := run_allocate_moving_eq_ok hk hs.owns
      (fun w hw hp => hs.root_movable hw hp) rfl ha
    obtain ⟨m, hm, hown'⟩ := HeapObject.run_allocate_of_ok hh ha hown (g.put_self _ _)
    rw [hm] at hr
    obtain ⟨rfl, rfl⟩ := EStateM.Result.ok.inj hr
    rw [Contents.put_put] at hown'
    have hfit : hd.Fits (List.replicate nfields Word.zero) :=
      Header.fits_of_uid_ne (by simp only [closureUid]; omega)
        (by rw [List.length_replicate, hn])
    refine ⟨g.put x (hd.toWord :: List.replicate nfields Word.zero), hcfg.trans hs.config_eq,
      ⟨k + 1, hd₁⟩, hown', ?_, ?_⟩
    · intro y hy
      rcases List.mem_cons.1 hy with rfl | hy
      · exact ⟨hd, _, g.put_self _ _, hfit⟩
      · obtain ⟨hd', us, hg, hfit'⟩ := hs.relocated hrel y hy
        have hne := Contents.ne_of_eq_none hnew hg
        exact ⟨hd', us, (g.put_of_ne _ hne).trans hg, hfit'⟩
    · intro y hy
      exact List.mem_cons_of_mem _ (List.mem_append_left _ hy)

theorem setArgument (hs : Sound config h objects f) {x n : Nat} {w : Word} (hx : x ∈ objects)
    {h' : Heap} (hr : (writing (HeapObject.setArgument ⟨x⟩ n w)).run h = .ok () h') :
    ∃ g, Sound config h' objects g := by
  obtain ⟨hd, us, hf, hfit⟩ := hs.movable x hx
  by_cases hlt : n + 1 < wordLimit
  · rw [HeapObject.setArgument_eq_write _ hlt] at hr
    rcases Nat.lt_or_ge n us.length with hn | hn
    · obtain ⟨m, hm, hown⟩ := HeapObject.write_eq_ok (o := ⟨x⟩) hs.owns hf hfit hn w
      rw [run_writing_of_ok hm] at hr
      obtain ⟨-, rfl⟩ := EStateM.Result.ok.inj hr
      refine ⟨_, hs.config_eq, hs.moving, hown, fun y hy => ?_, hs.roots⟩
      by_cases hyx : y = x
      · subst hyx
        exact ⟨hd, _, f.put_self _ _, by simpa [Header.Fits] using hfit⟩
      · obtain ⟨hd', us', hf', hfit'⟩ := hs.movable y hy
        exact ⟨hd', us', (f.put_of_ne _ hyx).trans hf', hfit'⟩
    · rw [run_writing_of_error
        (HeapObject.write_of_le (o := ⟨x⟩) hs.owns hf hfit (Nat.lt_succ_of_le hn) w)] at hr
      cases hr
  · rw [run_writing_of_error (HeapObject.setArgument_of_le _ (by omega) w _)] at hr
    cases hr

end Sound

/-- What was built is in use. -/
theorem Built.sound {config : ArenaConfig} {h : Heap} {objects : List Nat}
    (hb : Built config h objects) : ∃ f, Sound config h objects f := by
  induction hb with
  | new n =>
    exact ⟨fun _ => none, rfl, ⟨n, rfl⟩, (Arena.valid_new config).owns_none, by simp, by
      simp [pointees]⟩
  | constructor _ hu hr ih =>
    obtain ⟨f, hs⟩ := ih
    exact hs.constructor hu hr
  | setArgument _ hx hr ih =>
    obtain ⟨f, hs⟩ := ih
    exact hs.setArgument hx hr
  | setRoots _ hr ih =>
    obtain ⟨f, hs⟩ := ih
    exact ⟨f, hs.config_eq, hs.moving, hs.owns, hs.movable, hr⟩

end Graph

end TaggedHeap
