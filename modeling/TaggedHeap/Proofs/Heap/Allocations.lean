import TaggedHeap.Proofs.Graph.Building

/-!
# Allocations under a collector

Every function that allocates makes one request. Ahead of it come checks that may refuse, behind it
writes to the block that was handed out, which no root points to. So what an allocation does to the
roots, and to what they point to, is what the collection ahead of its request does.
-/

namespace TaggedHeap

/-- Something without a header was taken for an object. -/
def Fault.Headerless (e : Fault) : Prop := ∃ x w, e = .violated (.notAHeader x w)

/-- The functions that allocate, with their arguments. -/
inductive Allocation where
  | block (r : Request)
  | constructor (uid nfields : Nat)
  | closure (code descriptor : Word) (captures : List Nat)
  | cstring (bytes : List UInt8)
  | pair
  | dword (value : DWord)

/-- The call, without what it answers. -/
def Allocation.call : Allocation → HeapM Unit
  | .block r => (fun _ => ()) <$> Heap.allocate r
  | .constructor uid nfields => (fun _ => ()) <$> HeapObject.allocate uid nfields
  | .closure code descriptor captures => (fun _ => ()) <$> Closure.allocate code descriptor captures
  | .cstring bytes => (fun _ => ()) <$> CString.allocate bytes
  | .pair => (fun _ => ()) <$> Pair.allocate
  | .dword d => (fun _ => ()) <$> d.allocate

/-! ## Faults that are no matter of headers -/

section Faults

variable {e : Fault}

theorem Arena.not_headerless_of_reserve {a : Arena} {r : Request} (h : a.reserve r = .error e) :
    ¬ e.Headerless := by
  rintro ⟨x, w, rfl⟩
  rcases reserve_eq_error h with he | he | he | he | he <;> cases he

theorem Header.not_headerless_of_ofFields? {uid nfields : Nat}
    (h : Header.ofFields? uid nfields = .error e) : ¬ e.Headerless := by
  rintro ⟨x, w, rfl⟩
  unfold Header.ofFields? at h
  split at h
  case isFalse => cases h
  case isTrue => split at h <;> cases h

theorem CString.not_headerless_of_headerFor {bytes : List UInt8}
    (h : CString.headerFor bytes = .error e) : ¬ e.Headerless := by
  unfold headerFor at h
  split at h
  case h_1 =>
    rintro ⟨x, w, rfl⟩
    cases h
  case h_2 => exact Header.not_headerless_of_ofFields? h

theorem Roots.not_headerless_of_mapM_read {r : Roots} {is : List Nat}
    (h : is.mapM r.read = .error e) : ¬ e.Headerless := by
  induction is with
  | nil => cases h
  | cons i is ih =>
    cases hi : r[i]? with
    | none =>
      have hread := read_of_none hi
      rw [mapM_read_cons_of_error hread] at h
      rintro ⟨x, w, rfl⟩
      cases h
    | some w =>
      rw [mapM_read_cons_of_ok (read_of_some hi)] at h
      cases hrest : is.mapM r.read with
      | ok ws =>
        rw [hrest] at h
        cases h
      | error e' =>
        rw [hrest] at h
        obtain rfl := Except.error.inj h
        exact ih hrest

end Faults

namespace Heap

/-- A collection moved what the roots point to, and then nothing happened to it. -/
structure Collected (h : Heap) (f : Contents) (h' : Heap) (g : Contents) : Prop where
  moving : ∃ n, h'.discipline = .moving n
  config_eq : h'.arena.config = h.arena.config
  owns : h'.arena.Owns g
  relocated : Relocated f h.roots h'.roots g

variable {h h' : Heap} {f g : Contents} {x k : Nat}

/-- What is done to a block outside of the contents. -/
theorem Collected.withMemory (hc : h.Collected f h' g) (hx : g x = none) {m : Memory}
    {ws : List Word} (ho : (h'.withMemory m).arena.Owns (g.put x ws)) :
    h.Collected f (h'.withMemory m) g :=
  ⟨hc.moving, hc.config_eq, ho.of_put hx, hc.relocated⟩

/-- The ways in which an allocation ends: it is refused before anything was done, the chunks no
longer fit the address space, or the collection ahead of its request goes through. -/
inductive Ends (y : HeapM Unit) (h : Heap) (f : Contents) : Prop where
  | refused {e : Fault} : y.run h = .error e h → ¬ e.Headerless → Ends y h f
  | exhausted {h' : Heap} : y.run h = .error .exhausted h' → Ends y h f
  | failed {h' : Heap} {g : Contents} {e : Fault} :
    h.Collected f h' g → y.run h = .error e h' → ¬ e.Headerless → Ends y h f
  | done {h' : Heap} {g : Contents} : h.Collected f h' g → y.run h = .ok () h' → Ends y h f

theorem Ends.of_ok {y : HeapM Unit} {u : Unit} (hy : Ends y h f) (hrun : y.run h = .ok u h') :
    ∃ g, h.Collected f h' g := by
  cases hy with
  | refused hrun' | exhausted hrun' | failed _ hrun' =>
    rw [hrun'] at hrun
    cases hrun
  | done hc hrun' =>
    rw [hrun'] at hrun
    obtain ⟨-, rfl⟩ := EStateM.Result.ok.inj hrun
    exact ⟨_, hc⟩

theorem Ends.of_error {y : HeapM Unit} {e : Fault} (hy : Ends y h f)
    (hrun : y.run h = .error e h') :
    e = .exhausted ∨ ¬ e.Headerless ∧ (h' = h ∨ ∃ g, h.Collected f h' g) := by
  cases hy with
  | refused hrun' he =>
    rw [hrun'] at hrun
    obtain ⟨rfl, rfl⟩ := EStateM.Result.error.inj hrun
    exact .inr ⟨he, .inl rfl⟩
  | exhausted hrun' =>
    rw [hrun'] at hrun
    exact .inl (EStateM.Result.error.inj hrun).1.symm
  | failed hc hrun' he =>
    rw [hrun'] at hrun
    obtain ⟨rfl, rfl⟩ := EStateM.Result.error.inj hrun
    exact .inr ⟨he, .inr ⟨_, hc⟩⟩
  | done hc hrun' =>
    rw [hrun'] at hrun
    cases hrun

/-! ## From a request to an allocation -/

section Unlimited

variable (hd : h.discipline = .moving k) (ho : h.arena.Owns f) (hl : h.arena.config.limit = none)
  (hws : ∀ w ∈ h.roots, w.kind = .pointer → f.Movable w.toNat) (hu : Unshared h.roots)
include hd ho hl hws hu

/-- Without a limit, the collection goes through unless there is no room. -/
theorem run_allocate_collected (r : Request) :
    (∃ h', (allocate r).run h = .error .exhausted h') ∨
    ∃ h' g, h.Collected f h' g ∧
      ((∃ e, (allocate r).run h = .error e h' ∧ ¬ e.Headerless) ∨
        ∃ x, (allocate r).run h = .ok x h' ∧ (r.isEmpty = false →
          g x = none ∧ x % (wordSize * r.alignment) = 0 ∧
            h'.arena.Owns (g.put x (List.replicate r.wordCount Word.zero)))) := by
  rcases run_allocate_moving_cases hd ho hws r with
    ⟨h₁, roots, g, hrun, hc, hrel⟩ | ⟨e, h₁, hrun, hs⟩
  case inr =>
    obtain rfl := hs.exhausted hl hws hu
    exact .inl ⟨h₁, hrun⟩
  have hcollected : ∀ h₂, Alike { h₁ with roots } h₂ → h₂.arena.Owns g → h.Collected f h₂ g := by
    intro h₂ hsame hown
    refine ⟨⟨k + 1, ?_⟩, hsame.config.trans hc.alike.config, hown, hsame.roots ▸ hrel⟩
    rw [hsame.discipline, hc.alike.discipline]
  cases hres : h₁.arena.reserve r with
  | error e =>
    obtain ⟨h₂, he, hsame, harena⟩ :=
      run_reserve_of_error (h := { h₁ with roots }) hres roots.length id
    exact .inr ⟨h₂, g, hcollected h₂ hsame (harena ▸ hc.owns),
      .inl ⟨e, hrun.trans he, Arena.not_headerless_of_reserve hres⟩⟩
  | ok answer =>
    cases hr : r.isEmpty with
    | true =>
      obtain ⟨h₂, hok, hsame, harena⟩ :=
        run_reserve_of_isEmpty (h := { h₁ with roots }) hr roots.length id
      exact .inr ⟨h₂, g, hcollected h₂ hsame (harena ▸ hc.owns),
        .inr ⟨_, hrun.trans hok, by simp⟩⟩
    | false =>
      obtain ⟨h₂, hok, -, hsame, hnew, hal, hown⟩ :=
        run_reserve_of_ok (h := { h₁ with roots }) hc.owns hr hres roots.length id
      exact .inr ⟨h₂, g, hcollected h₂ hsame (hown.of_put hnew),
        .inr ⟨_, hrun.trans hok, fun _ => ⟨hnew, hal, hown⟩⟩⟩

/-- An allocation that makes one request and then only writes to the block it is given. -/
theorem ends_of_request {α : Type} {y : HeapM α} {r : Request} (hr : r.isEmpty = false)
    (herr : ∀ e h', (allocate r).run h = .error e h' → y.run h = .error e h')
    (hok : ∀ x h' (g : Contents), (allocate r).run h = .ok x h' → x % (wordSize * r.alignment) = 0 →
      h'.arena.Owns (g.put x (List.replicate r.wordCount Word.zero)) →
      ∃ m ws, (h'.withMemory m).arena.Owns (g.put x ws) ∧
        ((∃ a, y.run h = .ok a (h'.withMemory m)) ∨
          ∃ e, y.run h = .error e (h'.withMemory m) ∧ ¬ e.Headerless)) :
    Ends ((fun _ => ()) <$> y) h f := by
  rcases run_allocate_collected hd ho hl hws hu r with
    ⟨h', ha⟩ | ⟨h', g, hc, ⟨e, ha, he⟩ | ⟨x, ha, hx⟩⟩
  · exact .exhausted (by rw [run_map, herr _ _ ha])
  · exact .failed hc (by rw [run_map, herr _ _ ha]) he
  · obtain ⟨hnew, hal, hown⟩ := hx hr
    obtain ⟨m, ws, hown', ⟨a, hrun⟩ | ⟨e, hrun, he⟩⟩ := hok x h' g ha hal hown
    · exact .done (hc.withMemory hnew hown') (by rw [run_map, hrun])
    · exact .failed (hc.withMemory hnew hown') (by rw [run_map, hrun]) he

theorem ends_block (r : Request) : Ends (Allocation.block r).call h f := by
  rw [Allocation.call]
  rcases run_allocate_collected hd ho hl hws hu r with
    ⟨h', ha⟩ | ⟨h', g, hc, ⟨e, ha, he⟩ | ⟨x, ha, -⟩⟩
  · exact .exhausted (by rw [run_map, ha])
  · exact .failed hc (by rw [run_map, ha]) he
  · exact .done hc (by rw [run_map, ha])

theorem ends_constructor (uid nfields : Nat) :
    Ends (Allocation.constructor uid nfields).call h f := by
  rw [Allocation.call]
  cases hh : Header.ofFields? uid nfields with
  | error e =>
    exact .refused (by rw [run_map, HeapObject.run_allocate_of_refused hh])
      (Header.not_headerless_of_ofFields? hh)
  | ok hd' =>
    apply ends_of_request hd ho hl hws hu (r := .words (nfields + 1)) rfl
    · intro e h' ha
      exact HeapObject.run_allocate_of_error hh ha
    · intro x h' g ha _ hown
      obtain ⟨m, hm, hown'⟩ := HeapObject.run_allocate_of_ok hh ha hown (g.put_self _ _)
      rw [Contents.put_put] at hown'
      exact ⟨m, _, hown', .inl ⟨_, hm⟩⟩

theorem ends_closure (code descriptor : Word) (captures : List Nat) :
    Ends (Allocation.closure code descriptor captures).call h f := by
  rw [Allocation.call]
  cases hh : Header.ofFields? closureUid captures.length with
  | error e =>
    exact .refused (by rw [run_map, Closure.run_allocate_of_refused hh])
      (Header.not_headerless_of_ofFields? hh)
  | ok hd' =>
    have hr : (Request.words (1 + closureExtraSlots + captures.length)).isEmpty = false := by
      simp [Request.isEmpty, closureExtraSlots]
    apply ends_of_request hd ho hl hws hu hr
    · intro e h' ha
      exact Closure.run_allocate_of_error hh ha
    · intro x h' g ha _ hown
      obtain ⟨m, ws, -, hown', hrun⟩ :=
        Closure.run_allocate_of_ok code descriptor hh ha hown (g.put_self _ _)
      rw [Contents.put_put] at hown'
      refine ⟨m, _, hown', ?_⟩
      rcases hrun with ⟨-, hrun⟩ | ⟨e, he, hrun⟩
      · exact .inl ⟨_, hrun⟩
      · exact .inr ⟨e, hrun, Roots.not_headerless_of_mapM_read he⟩

theorem ends_cstring (bytes : List UInt8) : Ends (Allocation.cstring bytes).call h f := by
  rw [Allocation.call]
  cases hh : CString.headerFor bytes with
  | error e =>
    exact .refused (by rw [run_map, CString.run_allocate_of_refused hh])
      (CString.not_headerless_of_headerFor hh)
  | ok hd' =>
    apply ends_of_request hd ho hl hws hu (r := .words (hd'.nfields + 1)) rfl
    · intro e h' ha
      exact CString.run_allocate_of_error hh ha
    · intro x h' g ha _ hown
      obtain ⟨m, hm, hown'⟩ := CString.run_allocate_of_ok hh ha hown (g.put_self _ _)
      rw [Contents.put_put] at hown'
      exact ⟨m, _, hown', .inl ⟨_, hm⟩⟩

theorem ends_pair : Ends Allocation.pair.call h f := by
  rw [Allocation.call]
  apply ends_of_request hd ho hl hws hu (r := .words 2) rfl
  · intro e h' ha
    rw [Pair.run_allocate, ha]
  · intro x h' g ha _ hown
    exact ⟨h'.memory, _, hown, .inl ⟨⟨x⟩, by rw [Pair.run_allocate, ha]; rfl⟩⟩

theorem ends_dword (d : DWord) : Ends (Allocation.dword d).call h f := by
  rw [Allocation.call]
  apply ends_of_request hd ho hl hws hu (r := .dwords 1) rfl
  · intro e h' ha
    exact DWord.run_allocate_of_error ha
  · intro x h' g ha hal hown
    obtain ⟨m, hm, hown'⟩ := DWord.run_allocate_of_ok (d := d) ha hal hown (g.put_self _ _)
    rw [Contents.put_put] at hown'
    exact ⟨m, _, hown', .inl ⟨_, hm⟩⟩

theorem ends_call (c : Allocation) : Ends c.call h f := by
  cases c with
  | block r => exact ends_block hd ho hl hws hu r
  | constructor uid nfields => exact ends_constructor hd ho hl hws hu uid nfields
  | closure code descriptor captures => exact ends_closure hd ho hl hws hu code descriptor captures
  | cstring bytes => exact ends_cstring hd ho hl hws hu bytes
  | pair => exact ends_pair hd ho hl hws hu
  | dword d => exact ends_dword hd ho hl hws hu d

end Unlimited

end Heap

end TaggedHeap
