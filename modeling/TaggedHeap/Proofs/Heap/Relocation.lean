import TaggedHeap.Proofs.Heap.Evacuation

/-!
# Relocation

The words of the roots are relocated one by one, and each move changes the blocks that the next one
finds. A relocation says which blocks came of which words; from it follow what each word points to
in the end and which blocks no move has touched.
-/

namespace TaggedHeap

/-- The second word came of the first one, and the second blocks of the first ones: what the word
points to was moved, if it is a pointer. -/
inductive Relocates : Contents → Word → Word → Contents → Prop where
  | keep {f : Contents} {w : Word} : w.kind ≠ .pointer → Relocates f w w f
  | move {f : Contents} {w w' : Word} {hd : Header} {us : List Word} :
    w.kind = .pointer → w'.kind = .pointer → f w.toNat = some (hd.toWord :: us) →
    f w'.toNat = none → Relocates f w w' (f.moved w.toNat w'.toNat (hd.toWord :: us))

/-- The same for words that are relocated in turn. -/
inductive Relocated : Contents → List Word → List Word → Contents → Prop where
  | nil (f : Contents) : Relocated f [] [] f
  | cons {f g k : Contents} {w w' : Word} {ws ws' : List Word} :
    Relocates f w w' g → Relocated g ws ws' k → Relocated f (w :: ws) (w' :: ws') k

/-- No two of the words are the same pointer. -/
def Unshared (ws : List Word) : Prop := ws.Pairwise fun v w => v.kind = .pointer → v ≠ w

theorem unshared_iff {ws : List Word} :
    Unshared ws ↔ ∀ (i j : Nat) (w : Word), ws[i]? = some w → ws[j]? = some w →
      w.kind = .pointer → i = j := by
  refine ⟨fun h i j w hi hj hp => ?_, fun h => List.pairwise_iff_getElem.2 ?_⟩
  · obtain ⟨hil, hiw⟩ := List.getElem?_eq_some_iff.1 hi
    obtain ⟨hjl, hjw⟩ := List.getElem?_eq_some_iff.1 hj
    rcases Nat.lt_trichotomy i j with hlt | he | hlt
    · exact absurd (hiw.trans hjw.symm)
        (List.pairwise_iff_getElem.1 h i j hil hjl hlt (hiw.symm ▸ hp))
    · exact he
    · exact absurd (hjw.trans hiw.symm)
        (List.pairwise_iff_getElem.1 h j i hjl hil hlt (hjw.symm ▸ hp))
  · intro i j hi hj hlt hp he
    have := h i j ws[i] (List.getElem?_eq_getElem hi) (he ▸ List.getElem?_eq_getElem hj) hp
    omega

/-- All pointers among the words point to blocks in use. -/
def Rooted (f : Contents) (ws : List Word) : Prop :=
  ∀ w ∈ ws, w.kind = .pointer → f w.toNat ≠ none

theorem Rooted.tail {f : Contents} {w : Word} {ws : List Word} (h : Rooted f (w :: ws)) :
    Rooted f ws :=
  fun v hv => h v (List.mem_cons_of_mem _ hv)

namespace Relocates

variable {f g : Contents} {w w' : Word}

theorem of_ne (h : Relocates f w w' g) {x : Nat} {us : List Word} (hx : f x = some us)
    (hn : w.kind = .pointer → w.toNat ≠ x) : g x = some us := by
  cases h with
  | keep => exact hx
  | move hw hw' hold hnew =>
    have hne : x ≠ w'.toNat := Contents.ne_of_eq_none hnew hx
    exact (f.moved_of_ne _ (hn hw).symm hne).trans hx

/-- A block in use stays one of the same length. -/
theorem length_eq (h : Relocates f w w' g) {x : Nat} {us : List Word} (hx : f x = some us) :
    ∃ vs, g x = some vs ∧ vs.length = us.length := by
  by_cases hw : w.kind = .pointer ∧ w.toNat = x
  · obtain ⟨hp, rfl⟩ := hw
    cases h with
    | keep hn => exact absurd hp hn
    | move _ _ hold _ =>
      rw [hold] at hx
      obtain rfl := Option.some.inj hx
      exact ⟨_, f.moved_old _ _ _ _, by simp⟩
  · exact ⟨us, h.of_ne hx fun hp he => hw ⟨hp, he⟩, rfl⟩

theorem ne_none (h : Relocates f w w' g) {x : Nat} (hx : f x ≠ none) : g x ≠ none := by
  obtain ⟨us, hu⟩ := Option.ne_none_iff_exists'.1 hx
  obtain ⟨vs, hv, -⟩ := h.length_eq hu
  simp [hv]

theorem slotsOf_eq (h : Relocates f w w' g) {v : Word} (hv : v.kind = .pointer → f v.toNat ≠ none) :
    g.slotsOf v = f.slotsOf v := by
  by_cases hp : v.kind = .pointer
  · obtain ⟨us, hu⟩ := Option.ne_none_iff_exists'.1 (hv hp)
    obtain ⟨vs, hvs, hlen⟩ := h.length_eq hu
    rw [Contents.slotsOf_of_some hp hu, Contents.slotsOf_of_some hp hvs, hlen]
  · rw [Contents.slotsOf_of_ne hp, Contents.slotsOf_of_ne hp]

/-- The word does not point to a block without a header. -/
theorem ne_of_wiped (h : Relocates f w w' g) {x : Nat} (hx : f.Wiped x) (hw : w.kind = .pointer) :
    w.toNat ≠ x := by
  cases h with
  | keep hn => exact absurd hw hn
  | @move w' hd us _ _ hold _ =>
    rintro rfl
    obtain ⟨vs, hx⟩ := hx
    rw [hold] at hx
    exact hd.toWord_ne_zero (List.cons.inj (Option.some.inj hx)).1

theorem wiped (h : Relocates f w w' g) {x : Nat} (hx : f.Wiped x) : g.Wiped x := by
  obtain ⟨us, hu⟩ := hx
  exact ⟨us, h.of_ne hu (h.ne_of_wiped ⟨us, hu⟩)⟩

theorem wiped_old (h : Relocates f w w' g) (hw : w.kind = .pointer) : g.Wiped w.toNat := by
  cases h with
  | keep hn => exact absurd hw hn
  | move => exact ⟨_, f.moved_old _ _ _ _⟩

/-- A block that has a header afterwards was not moved. -/
theorem of_header (h : Relocates f w w' g) {x : Nat} (hx : f x ≠ none) {hd : Header}
    {us : List Word} (hg : g x = some (hd.toWord :: us)) : f x = some (hd.toWord :: us) := by
  cases h with
  | keep => exact hg
  | @move w' hd' us' hw hw' hold hnew =>
    have hne : x ≠ w.toNat := by
      rintro rfl
      rw [f.moved_old] at hg
      exact hd.toWord_ne_zero (List.cons.inj (Option.some.inj hg)).1.symm
    have hne' : x ≠ w'.toNat := by
      rintro rfl
      exact hx hnew
    rwa [f.moved_of_ne _ hne hne'] at hg

theorem movable (h : Relocates f w w' g) {x : Nat} (hx : f.Movable x)
    (hn : w.kind = .pointer → w.toNat ≠ x) : g.Movable x := by
  obtain ⟨hd, us, hold, hfit⟩ := hx
  exact ⟨hd, us, h.of_ne hold hn, hfit⟩

end Relocates

theorem Rooted.slots_eq {f g : Contents} {ws : List Word} {w w' : Word} (h : Rooted f ws)
    (hs : Relocates f w w' g) : g.slots ws = f.slots ws := by
  induction ws with
  | nil => rfl
  | cons v ws ih =>
    rw [Contents.slots, Contents.slots, hs.slotsOf_eq (h v List.mem_cons_self), ih h.tail]

theorem Rooted.relocates {f g : Contents} {ws : List Word} {w w' : Word} (h : Rooted f ws)
    (hs : Relocates f w w' g) : Rooted g ws :=
  fun v hv hp => hs.ne_none (h v hv hp)

namespace Relocated

variable {f g : Contents} {ws ws' : List Word}

theorem of_unrooted (h : Relocated f ws ws' g) {x : Nat} {us : List Word} (hx : f x = some us)
    (hn : ∀ w ∈ ws, w.kind = .pointer → w.toNat ≠ x) : g x = some us := by
  induction h with
  | nil f => exact hx
  | cons hs _ ih =>
    exact ih (hs.of_ne hx (hn _ List.mem_cons_self)) fun v hv => hn v (List.mem_cons_of_mem _ hv)

/-- What a word points to stays where it is while those in front of it are relocated. -/
theorem of_later (h : Relocated f ws ws' g) {later : List Word} (hu : Unshared (ws ++ later))
    {w : Word} (hw : w ∈ later) {us : List Word} (hx : f w.toNat = some us) :
    g w.toNat = some us := by
  apply h.of_unrooted hx
  intro v hv hp he
  exact (List.pairwise_append.1 hu).2.2 v hv w hw hp (Word.toNat_inj.1 he)

theorem ne_of_wiped (h : Relocated f ws ws' g) {x : Nat} (hx : f.Wiped x) :
    ∀ w ∈ ws, w.kind = .pointer → w.toNat ≠ x := by
  induction h with
  | nil f => simp
  | cons hs _ ih =>
    intro v hv hp
    rcases List.mem_cons.1 hv with rfl | hv
    · exact hs.ne_of_wiped hx hp
    · exact ih (hs.wiped hx) v hv hp

theorem wiped (h : Relocated f ws ws' g) {x : Nat} (hx : f.Wiped x) : g.Wiped x := by
  obtain ⟨us, hu⟩ := hx
  exact ⟨us, h.of_unrooted hu (h.ne_of_wiped ⟨us, hu⟩)⟩

theorem unshared (h : Relocated f ws ws' g) : Unshared ws := by
  induction h with
  | nil f => exact List.Pairwise.nil
  | @cons f g k w w' ws ws' hs hrest ih =>
    refine List.pairwise_cons.2 ⟨fun v hv hp hvw => ?_, ih⟩
    subst hvw
    exact hrest.ne_of_wiped (hs.wiped_old hp) w hv hp rfl

theorem length_eq (h : Relocated f ws ws' g) : ws'.length = ws.length := by
  induction h with
  | nil f => rfl
  | cons _ _ ih => simp [ih]

/-- What became of one word. -/
def Moved (f g : Contents) (w w' : Word) : Prop :=
  (w.kind ≠ .pointer ∧ w' = w) ∨
    (w.kind = .pointer ∧ w'.kind = .pointer ∧ f w'.toNat = none ∧ g.Wiped w.toNat ∧
      ∃ hd : Header, ∃ us, f w.toNat = some (hd.toWord :: us) ∧ g w'.toNat = some (hd.toWord :: us))

/-- A word that comes later became of what there was earlier as well. -/
theorem Moved.of_relocates {k : Contents} {v v' w w' : Word} (h : Moved g k v v')
    (hs : Relocates f w w' g) (hr : v.kind = .pointer → f v.toNat ≠ none) : Moved f k v v' := by
  rcases h with hkeep | ⟨hv, hv', hfresh, hwiped, hd, us, hold, hmoved⟩
  · exact .inl hkeep
  · refine .inr ⟨hv, hv', ?_, hwiped, hd, us, hs.of_header (hr hv) hold, hmoved⟩
    cases hf : f v'.toNat with
    | none => rfl
    | some ws => exact absurd hfresh (hs.ne_none (by simp [hf]))

theorem moved (h : Relocated f ws ws' g) (hr : Rooted f ws) {i : Nat} {w : Word}
    (hi : ws[i]? = some w) : ∃ w', ws'[i]? = some w' ∧ Moved f g w w' := by
  induction h generalizing i w with
  | nil f => simp at hi
  | @cons f g k w₀ w' ws ws' hs hrest ih =>
    cases i with
    | zero =>
      obtain rfl : w₀ = w := by simpa using hi
      refine ⟨w', rfl, ?_⟩
      cases hs with
      | keep hw => exact .inl ⟨hw, rfl⟩
      | @move w' hd us hw hw' hold hnew =>
        have hne : w'.toNat ≠ w₀.toNat := (Contents.ne_of_eq_none hnew hold).symm
        refine .inr ⟨hw, hw', hnew, hrest.wiped ⟨_, f.moved_old _ _ _ _⟩, hd, us, hold, ?_⟩
        -- The new block was free, so no later word points to it and moves it on.
        exact hrest.of_unrooted (f.moved_new _ hne) fun v hv hp he => hr.tail v hv hp (he ▸ hnew)
    | succ i =>
      obtain ⟨v', hv', hm⟩ := ih (hr.tail.relocates hs) hi
      exact ⟨v', hv', hm.of_relocates hs (hr.tail w (List.mem_of_getElem? hi))⟩

theorem came (h : Relocated f ws ws' g) (hr : Rooted f ws) {i : Nat} {w' : Word}
    (hi : ws'[i]? = some w') : ∃ w, ws[i]? = some w ∧ Moved f g w w' := by
  have hlt := (List.getElem?_eq_some_iff.1 hi).1
  rw [h.length_eq] at hlt
  obtain ⟨v, hv, hm⟩ := h.moved hr (List.getElem?_eq_getElem hlt)
  obtain rfl : w' = v := Option.some.inj (hi.symm.trans hv)
  exact ⟨ws[i], List.getElem?_eq_getElem hlt, hm⟩

theorem unshared_after (h : Relocated f ws ws' g) (hr : Rooted f ws) : Unshared ws' := by
  induction h with
  | nil f => exact List.Pairwise.nil
  | @cons f g k w w' ws ws' hs hrest ih =>
    refine List.pairwise_cons.2 ⟨fun v' hv' hp he => ?_, ih (hr.tail.relocates hs)⟩
    subst he
    obtain ⟨i, hi⟩ := List.getElem?_of_mem hv'
    -- A later move takes a block that is free by then, and the first one is in use.
    obtain ⟨u, -, hm⟩ := hrest.came (hr.tail.relocates hs) hi
    rcases hm with ⟨hn, rfl⟩ | ⟨-, -, hnone, -⟩
    · exact hn hp
    · cases hs with
      | keep hw => exact hw hp
      | move hw hw' hold hnew =>
        have hne : w'.toNat ≠ w.toNat := (Contents.ne_of_eq_none hnew hold).symm
        rw [f.moved_new _ hne] at hnone
        cases hnone

end Relocated

namespace Heap

variable {h : Heap} {f : Contents}

/-- Blocks of so many words in all were handed out for copies. -/
structure Copied (h : Heap) (n : Nat) (h' : Heap) (g : Contents) : Prop where
  alike : h.Alike h'
  owns : h'.arena.Owns g
  allocated_eq : h'.arena.allocated = h.arena.allocated + n
  allows : n = 0 ∨ h'.arena.Allows 0

theorem Copied.of_arena_eq (ho : h.arena.Owns f) {h' : Heap} (hs : h.Alike h')
    (ha : h'.arena = h.arena) : h.Copied 0 h' f :=
  ⟨hs, ha ▸ ho, by rw [ha, Nat.add_zero], .inl rfl⟩

theorem Copied.refl (ho : h.arena.Owns f) : h.Copied 0 h f := .of_arena_eq ho (.refl h) rfl

theorem Copied.trans {h' h'' : Heap} {g k : Contents} {m n : Nat} (hh : h.Copied m h' g)
    (hh' : h'.Copied n h'' k) : h.Copied (m + n) h'' k := by
  refine ⟨hh.alike.trans hh'.alike, hh'.owns, ?_, ?_⟩
  · rw [hh'.allocated_eq, hh.allocated_eq, Nat.add_assoc]
  · rcases hh'.allows with rfl | hl
    · rcases hh.allows with rfl | hl
      · exact .inl rfl
      · refine .inr fun limit hlimit => ?_
        have := hl limit (hh'.alike.config ▸ hlimit)
        rw [hh'.allocated_eq]
        omega
    · exact .inr hl

theorem Copied.le_limit {h' : Heap} {n limit : Nat} (hh : h.Copied n h' f)
    (hl : h.arena.config.limit = some limit) (hn : 0 < n) : h.arena.allocated + n ≤ limit := by
  rcases hh.allows with rfl | hallows
  · exact absurd hn (Nat.lt_irrefl 0)
  · rw [← hh.allocated_eq]
    exact hallows limit (hh.alike.config ▸ hl)

/-- A word follows what it points to. -/
theorem run_relocate_of_aligned {h' : Heap} {w : Word} {x : Nat} (hp : w.kind = .pointer)
    (hr : (evacuate ⟨w.toNat⟩).run h = .ok ⟨x⟩ h') (hal : x % wordSize = 0) (hlt : x < wordLimit) :
    ∃ w', (relocate w).run h = .ok w' h' ∧ w'.toNat = x ∧ w'.kind = .pointer := by
  refine ⟨.ofNat x, ?_, Word.toNat_ofNat_of_lt hlt, Word.kind_ofNat hal hlt⟩
  rw [relocate, if_pos hp, run_bind, hr]
  simp only [HeapObject.toWord, Word.pointerTo, hal, if_true]
  rfl

theorem run_relocate_of_ok {h' : Heap} {g : Contents} {w : Word} {x : Nat} {ws : List Word}
    (hp : w.kind = .pointer) (hr : (evacuate ⟨w.toNat⟩).run h = .ok ⟨x⟩ h') (ho : h'.arena.Owns g)
    (hx : g x = some ws) :
    ∃ w', (relocate w).run h = .ok w' h' ∧ w'.toNat = x ∧ w'.kind = .pointer :=
  run_relocate_of_aligned hp hr (ho.start_aligned hx).1 (ho.start_aligned hx).2

theorem run_relocate_of_error {h' : Heap} {w : Word} {e : Fault} (hp : w.kind = .pointer)
    (hr : (evacuate ⟨w.toNat⟩).run h = .error e h') : (relocate w).run h = .error e h' := by
  rw [relocate, if_pos hp, run_bind, hr]

/-- The object that a word points to is moved, or the memory for the copy is not to be had. -/
theorem run_relocate (ho : h.arena.Owns f) {w : Word} (hw : w.kind = .pointer → f.Movable w.toNat) :
    (∃ w' h' g, (relocate w).run h = .ok w' h' ∧ h.Copied (f.slotsOf w) h' g ∧
      Relocates f w w' g) ∨
    ∃ e h', (relocate w).run h = .error (fatal e) h' ∧ h.Copied 0 h' f ∧ w.kind = .pointer ∧
      h'.arena.reserve (.words (f.slotsOf w)) = .error e := by
  by_cases hp : w.kind = .pointer
  · obtain ⟨hd, us, hold, hfit⟩ := hw hp
    have hslots : f.slotsOf w = us.length + 1 := Contents.slotsOf_of_some hp hold
    rw [hslots]
    cases he : h.arena.reserve (.words (us.length + 1)) with
    | ok answer =>
      obtain ⟨x, b⟩ := answer
      obtain ⟨h', hr, hsame, hnew, hb, hown⟩ :=
        run_evacuate_of_ok (o := ⟨w.toNat⟩) ho hold hfit he
      have hne : x ≠ w.toNat := (Contents.ne_of_eq_none hnew hold).symm
      obtain ⟨w', hrun, rfl, hkind⟩ := run_relocate_of_ok hp hr hown (f.moved_new _ hne)
      obtain ⟨hcharge, hallows⟩ := Arena.charged_of_reserve_words (Nat.succ_ne_zero _) he
      refine .inl ⟨w', h', _, hrun, ⟨hsame, hown, hb.trans hcharge, .inr ?_⟩,
        .move hp hkind hold hnew⟩
      intro limit hlimit
      have := hallows limit (hsame.config ▸ hlimit)
      rw [hb, hcharge]
      exact this
    | error e =>
      obtain ⟨h', hr, hsame, harena⟩ :=
        run_evacuate_of_error (o := ⟨w.toNat⟩) (ho.holds hold) hfit he
      exact .inr ⟨e, h', run_relocate_of_error hp hr, .of_arena_eq ho hsame harena, hp,
        by rw [harena, he]⟩
  · rw [Contents.slotsOf_of_ne hp]
    exact .inl ⟨w, h, f, by rw [relocate, if_neg hp]; rfl, .refl ho, .keep hp⟩

theorem run_relocate_of_wiped (ho : h.arena.Owns f) {w : Word} (hp : w.kind = .pointer)
    (hw : f.Wiped w.toNat) :
    (relocate w).run h = .error (.violated (.notAHeader w.toNat 0)) h :=
  run_relocate_of_error hp (run_evacuate_of_wiped ho (o := ⟨w.toNat⟩) hw)

/-- Relocating words in turn stopped at one of them, with the objects of the words in front of it
moved: no header was left where the word points to, or there was no memory for a copy. -/
inductive Stops (h : Heap) (f : Contents) : List Word → Fault → Heap → Prop where
  | wiped {before before' after : List Word} {w : Word} {g : Contents} {h' : Heap} :
    h.Copied (f.slots before) h' g → Relocated f before before' g → w.kind = .pointer →
    g.Wiped w.toNat →
    Stops h f (before ++ w :: after) (.violated (.notAHeader w.toNat 0)) h'
  | refused {before before' after : List Word} {w : Word} {g : Contents} {h' : Heap} {e : Fault} :
    h.Copied (f.slots before) h' g → Relocated f before before' g → w.kind = .pointer →
    h'.arena.reserve (.words (f.slotsOf w)) = .error e →
    Stops h f (before ++ w :: after) (fatal e) h'

theorem Stops.cons {h' h'' : Heap} {g : Contents} {w w' : Word} {ws : List Word} {e : Fault}
    (hw : Relocates f w w' g) (hc : h.Copied (f.slotsOf w) h' g) (hr : Rooted f ws)
    (hs : Stops h' g ws e h'') : Stops h f (w :: ws) e h'' := by
  cases hs with
  | @wiped before before' after v k _ hcs hrel hp hx =>
    have hbefore : Rooted f before := fun u hu => hr u (List.mem_append_left _ hu)
    rw [hbefore.slots_eq hw] at hcs
    exact @Stops.wiped h f (w :: before) _ after v k _ (hc.trans hcs) (.cons hw hrel) hp hx
  | @refused before before' after v k _ _ hcs hrel hp he =>
    have hbefore : Rooted f before := fun u hu => hr u (List.mem_append_left _ hu)
    rw [hbefore.slots_eq hw] at hcs
    rw [hw.slotsOf_eq (hr v (by simp))] at he
    exact @Stops.refused h f (w :: before) _ after v k _ _ (hc.trans hcs) (.cons hw hrel) hp he

/-- Words whose objects have their headers are relocated in turn, as far as memory lasts. -/
theorem run_relocateAll {ws : List Word} (ho : h.arena.Owns f)
    (hws : ∀ w ∈ ws, w.kind = .pointer → f.Movable w.toNat ∨ f.Wiped w.toNat) :
    (∃ ws' h' g, (relocateAll ws).run h = .ok ws' h' ∧ h.Copied (f.slots ws) h' g ∧
      Relocated f ws ws' g) ∨
    ∃ e h', (relocateAll ws).run h = .error e h' ∧ Stops h f ws e h' := by
  induction ws generalizing h f with
  | nil => exact .inl ⟨[], h, f, rfl, .refl ho, .nil f⟩
  | cons w ws ih =>
    have hrooted : Rooted f ws := by
      intro v hv hp
      rcases hws v (List.mem_cons_of_mem _ hv) hp with ⟨hd, us, hx, -⟩ | ⟨us, hx⟩ <;> simp [hx]
    rw [relocateAll, run_bind]
    by_cases hwiped : w.kind = .pointer ∧ f.Wiped w.toNat
    · rw [run_relocate_of_wiped ho hwiped.1 hwiped.2]
      exact .inr ⟨_, h, rfl, @Stops.wiped h f [] [] ws w f h (.refl ho) (.nil f) hwiped.1 hwiped.2⟩
    · have hmov : w.kind = .pointer → f.Movable w.toNat := fun hp =>
        (hws w List.mem_cons_self hp).resolve_right fun hx => hwiped ⟨hp, hx⟩
      rcases run_relocate ho hmov with ⟨w', h₁, g, hr, hc, hs⟩ | ⟨e, h₁, hr, hc, hp, he⟩
      case inr =>
        rw [hr]
        exact .inr ⟨_, h₁, rfl, @Stops.refused h f [] [] ws w f h₁ e hc (.nil f) hp he⟩
      rw [hr]
      simp only
      rw [run_bind]
      have hrest : ∀ v ∈ ws, v.kind = .pointer → g.Movable v.toNat ∨ g.Wiped v.toNat := by
        intro v hv hp
        rcases hws v (List.mem_cons_of_mem _ hv) hp with hx | hx
        · by_cases hn : w.kind = .pointer → w.toNat ≠ v.toNat
          · exact .inl (hs.movable hx hn)
          · obtain ⟨hwp, he⟩ := Classical.not_imp.1 hn
            rw [← Classical.not_not.1 he]
            exact .inr (hs.wiped_old hwp)
        · exact .inr (hs.wiped hx)
      rcases ih hc.owns hrest with ⟨ws', h₂, k, hr', hc', hrel⟩ | ⟨e, h₂, hr', hstop⟩
      · rw [hr']
        rw [hrooted.slots_eq hs] at hc'
        exact .inl ⟨w' :: ws', h₂, k, rfl, hc.trans hc', .cons hs hrel⟩
      · rw [hr']
        exact .inr ⟨e, h₂, rfl, hstop.cons hs hc hrooted⟩

theorem run_collect_eq (h : Heap) :
    collect.run h = (relocateAll h.roots >>= setRoots : HeapM Unit).run h := rfl

/-- A collection relocates the roots or stops midway. -/
theorem run_collect_cases (ho : h.arena.Owns f)
    (hws : ∀ w ∈ h.roots, w.kind = .pointer → f.Movable w.toNat) :
    (∃ h' roots g, collect.run h = .ok () { h' with roots } ∧ h.Copied (f.slots h.roots) h' g ∧
      Relocated f h.roots roots g) ∨
    ∃ e h', collect.run h = .error e h' ∧ Stops h f h.roots e h' := by
  rw [run_collect_eq, run_bind]
  rcases run_relocateAll ho fun w hw hp => .inl (hws w hw hp) with
    ⟨roots, h', g, hr, hc, hrel⟩ | ⟨e, h', hr, hstop⟩
  · rw [hr]
    exact .inl ⟨h', roots, g, rfl, hc, hrel⟩
  · rw [hr]
    exact .inr ⟨e, h', rfl, hstop⟩

/-- Without a limit, relocating pointers that differ only stops where there is no room. -/
theorem Stops.exhausted {ws : List Word} {e : Fault} {h' : Heap} (hs : Stops h f ws e h')
    (hl : h.arena.config.limit = none) (hws : ∀ w ∈ ws, w.kind = .pointer → f.Movable w.toNat)
    (hu : Unshared ws) : e = .exhausted := by
  cases hs with
  | @wiped before _ after w _ _ _ hrel hp hx =>
    obtain ⟨hd, us, hold, hfit⟩ := hws w (by simp) hp
    exact absurd hx (Contents.Movable.not_wiped ⟨hd, us, hrel.of_later hu (by simp) hold, hfit⟩)
  | @refused before _ after w _ _ _ hc hrel hp he =>
    have hmov := hws w (by simp) hp
    obtain ⟨hpos, hle⟩ := hmov.slotsOf_le hp
    obtain ⟨hd, us, hold, hfit⟩ := hmov
    have hr : (Request.words (f.slotsOf w)).isEmpty = false := by
      simp only [Request.isEmpty, beq_eq_false_iff_ne]
      omega
    have hlater := hrel.of_later hu (by simp) hold
    rw [exhausted_of_error hc.owns (hc.alike.config ▸ hl) hlater hr hle he]
    rfl

/-- A collection relocates the roots, unless there is no room or two roots are the same pointer. -/
theorem run_collect (ho : h.arena.Owns f) (hl : h.arena.config.limit = none)
    (hws : ∀ w ∈ h.roots, w.kind = .pointer → f.Movable w.toNat) :
    (∃ h' g, collect.run h = .ok () h' ∧ h'.discipline = h.discipline ∧
      h'.arena.config = h.arena.config ∧ h'.arena.Owns g ∧ Relocated f h.roots h'.roots g) ∨
    (∃ h', collect.run h = .error .exhausted h') ∨
    ∃ e h', collect.run h = .error e h' ∧ ¬ Unshared h.roots := by
  rcases run_collect_cases ho hws with ⟨h', roots, g, hr, hc, hrel⟩ | ⟨e, h', hr, hstop⟩
  · exact .inl ⟨_, g, hr, hc.alike.discipline, hc.alike.config, hc.owns, hrel⟩
  · by_cases hu : Unshared h.roots
    case neg => exact .inr (.inr ⟨e, h', hr, hu⟩)
    obtain rfl := hstop.exhausted hl hws hu
    exact .inr (.inl ⟨h', hr⟩)

end Heap

end TaggedHeap
