-- Objects that own pins of a pool, next to other callers that have pins of
-- their own: every pin of a frame is owned by an object or held by a caller.
import DuckDbms.PoolOrder
import DuckDbms.Lib.Owners

open machine owners duck.slotted_page duck.disk_manager

namespace duck.buffer_pool

open BufferPoolManager

/-! ## Other callers -/

theorem pinMore_add (pins extra : Nat → Nat) (n : Nat) :
    pinMore (fun m => pins m + extra m) n = fun m => pinMore pins n m + extra m := by
  funext m
  rw [pinMore_apply, pinMore_apply]
  split
  · rename_i h
    subst h
    omega
  · rfl

theorem pinLess_add {pins : Nat → Nat} (extra : Nat → Nat) {n : Nat} (h : 0 < pins n) :
    pinLess (fun m => pins m + extra m) n = fun m => pinLess pins n m + extra m := by
  funext m
  rw [pinLess_apply, pinLess_apply]
  split
  · rename_i he
    subst he
    omega
  · rfl

/-- A page that comes in moves no page that somebody has pinned. -/
theorem Swapped.keeps_pinned {b b' : BufferPoolManager} {pins : Nat → Nat} {n f m g : Nat} {rd : Bool}
    (W : Swapped b b' pins n f rd) (hu : b.page_table (some n) = none) (hpos : 0 < pins m)
    (hc : b.page_table (some m) = some g) : b'.page_table (some m) = some g := by
  have hmn : m ≠ n := by
    rintro rfl
    rw [hu] at hc
    cases hc
  have hleft : (b.frames f).page_id ≠ some m := by
    intro h
    have := W.unpinned m h
    omega
  rw [W.table, if_neg hmn, if_neg hleft, hc]

/-- The calls of callers who match their pins leave the pins of others alone, and the pages that
are pinned by anybody where they are. -/
theorem InOrder.other {s t : FlatStore} {extra : Nat → Nat}
    (O : InOrder s.pool fun n => s.pins n + extra n) {call : PoolCall}
    (h1 : CallersMatchPins s call) (h2 : DeletesAllocated s call) (h : s.next call = some t) :
    InOrder t.pool (fun n => t.pins n + extra n) ∧
      ∀ m g, 0 < s.pins m + extra m → s.pool.page_table (some m) = some g →
        t.pool.page_table (some m) = some g := by
  cases call with
  | new_page =>
    obtain ⟨n, _, hu, _, O1, ⟨f, b', hnew, W, O'⟩ | ⟨hnew, _⟩⟩ := O.new_page
    · rw [FlatStore.next_new_page hnew W.page_id] at h
      cases h
      rw [pinMore_add] at O'
      exact ⟨O', fun m g hpos hc => W.keeps_pinned hu hpos hc⟩
    · rw [FlatStore.next_new_page_none hnew] at h
      cases h
      exact ⟨O1, fun m g _ hc => hc⟩
  | fetch_page n =>
    rcases O.fetch_page h1 with ⟨f, _, hfetch, O'⟩ | ⟨hu, ⟨f, b', hfetch, W, O'⟩ | ⟨hfetch, _⟩⟩
    · rw [FlatStore.next_fetch_page hfetch] at h
      cases h
      rw [pinMore_add] at O'
      exact ⟨O', fun m g _ hc => hc⟩
    · rw [FlatStore.next_fetch_page hfetch] at h
      cases h
      rw [pinMore_add] at O'
      exact ⟨O', fun m g hpos hc => W.keeps_pinned hu hpos hc⟩
    · rw [FlatStore.next_fetch_page_none hfetch] at h
      cases h
      exact ⟨O, fun m g _ hc => hc⟩
  | write n data =>
    obtain ⟨f, hc, rfl⟩ := Option.map_eq_some_iff.mp h
    exact ⟨O.set_data hc data, fun m g _ hc => hc⟩
  | unpin_page n dirty =>
    cases h
    have hpos : 0 < s.pins n := h1
    have hpos' : 0 < s.pins n + extra n := by omega
    have O' := O.unpin_page hpos' dirty
    rw [pinLess_add extra hpos] at O'
    refine ⟨O', fun m g _ hc => ?_⟩
    simp only
    rw [page_table_unpin_page]
    exact hc
  | delete_page n =>
    obtain ⟨hpool, hpins⟩ := FlatStore.next_delete_page h
    rw [hpool, hpins]
    rcases O.delete_page h2 with ⟨hdel, _⟩ | ⟨_, D⟩
    · rw [hdel]
      exact ⟨O, fun m g _ hc => hc⟩
    · refine ⟨D.inorder, fun m g hpos hc => ?_⟩
      have hmn : m ≠ n := by
        rintro rfl
        have := D.pinned
        omega
      rw [D.table m hmn, hc]
  | flush_all =>
    cases h
    obtain ⟨file, heq, O', _⟩ := O.flush_all
    exact ⟨O', fun m g _ hc => by simp only; rw [heq]; exact hc⟩

/-! ## Objects and callers -/

/-- The pins of page `n` that objects own. `owned` tells the frame of each object. -/
def pinsOn (b : BufferPoolManager) (owned : List (Option FrameID)) (n : Nat) : Nat :=
  (b.page_table (some n)).elim 0 (owners_of owned)

/-- Every pin is held by a caller or owned by an object, and an object that has a frame has the
frame of a cached page. -/
structure Owned (b : BufferPoolManager) (outside : Nat → Nat) (owned : List (Option FrameID)) :
    Prop where
  order : InOrder b fun n => outside n + pinsOn b owned n
  found : ∀ f, some f ∈ owned → ∃ n, b.page_table (some n) = some f

section
variable {b : BufferPoolManager} {outside : Nat → Nat} {owned : List (Option FrameID)}

theorem pinsOn_cached {n f : Nat} (h : b.page_table (some n) = some f) :
    pinsOn b owned n = owners_of owned f := by
  unfold pinsOn
  rw [h]
  rfl

theorem pinsOn_uncached {n : Nat} (h : b.page_table (some n) = none) : pinsOn b owned n = 0 := by
  unfold pinsOn
  rw [h]
  rfl

/-- Two pages are not found in one frame. -/
theorem PoolInv.page_unique {pins : Nat → Nat} (I : PoolInv b pins) {n m f : Nat}
    (hn : b.page_table (some n) = some f) (hm : b.page_table (some m) = some f) : n = m := by
  have h := (I.holds n f).mp hn
  rw [(I.holds m f).mp hm] at h
  exact (Option.some.inj h).symm

/-- The objects own the same pins while their pages stay where they are. -/
theorem Owned.pinsOn_eq (W : Owned b outside owned) {b' : BufferPoolManager} {pins : Nat → Nat}
    (I : PoolInv b' pins)
    (hkeep : ∀ n f, some f ∈ owned → b.page_table (some n) = some f → b'.page_table (some n) = some f)
    (n : Nat) : pinsOn b' owned n = pinsOn b owned n := by
  -- a frame that is owned holds the page in both pools, or in neither of them
  have hboth : ∀ f, some f ∈ owned →
      (b'.page_table (some n) = some f ↔ b.page_table (some n) = some f) := by
    intro f hf
    obtain ⟨m, hm⟩ := W.found f hf
    have hm' := hkeep m f hf hm
    exact ⟨fun h => I.page_unique hm' h ▸ hm, fun h => hkeep n f hf h⟩
  have hzero : ∀ f, some f ∉ owned → owners_of owned f = 0 := by
    intro f hf
    exact Nat.eq_zero_of_not_pos fun h => hf (owners_of_pos.mp h)
  rcases hc : b.page_table (some n) with _ | f
  · rw [pinsOn_uncached hc]
    rcases hc' : b'.page_table (some n) with _ | g
    · exact pinsOn_uncached hc'
    · rw [pinsOn_cached hc']
      refine hzero g fun hg => ?_
      rw [(hboth g hg).mp hc'] at hc
      cases hc
  · rw [pinsOn_cached hc]
    by_cases hf : some f ∈ owned
    · exact pinsOn_cached ((hboth f hf).mpr hc)
    · rw [hzero f hf]
      rcases hc' : b'.page_table (some n) with _ | g
      · exact pinsOn_uncached hc'
      · rw [pinsOn_cached hc']
        refine hzero g fun hg => ?_
        have hfg := (hboth g hg).mp hc'
        rw [hc] at hfg
        cases hfg
        exact hf hg

/-- Without objects every pin is a caller's. -/
theorem Owned.no_object (O : InOrder b outside) : Owned b outside [] := by
  have hpins : (fun n => outside n + pinsOn b [] n) = outside := by
    funext n
    unfold pinsOn
    rcases b.page_table (some n) with _ | f <;> rfl
  exact ⟨by rw [hpins]; exact O, fun f hf => absurd hf List.not_mem_nil⟩

/-- It does not matter which object owns a pin. -/
theorem Owned.pass (W : Owned b outside owned) {owned' : List (Option FrameID)}
    (h : ∀ f, owners_of owned' f = owners_of owned f) : Owned b outside owned' := by
  have hon : pinsOn b owned' = pinsOn b owned := by
    funext n
    unfold pinsOn
    congr 1
    funext f
    exact h f
  refine ⟨by rw [hon]; exact W.order, fun f hf => W.found f ?_⟩
  rw [← owners_of_pos, ← h f]
  exact owners_of_pos.mpr hf

/-- The other callers go on, and every object keeps its page. -/
theorem Owned.other {s t : FlatStore} (W : Owned s.pool s.pins owned) {call : PoolCall}
    (h1 : CallersMatchPins s call) (h2 : DeletesAllocated s call) (h : s.next call = some t) :
    Owned t.pool t.pins owned ∧ ∀ n f, some f ∈ owned → s.pool.page_table (some n) = some f →
      t.pool.page_table (some n) = some f := by
  obtain ⟨O', hkeep⟩ := W.order.other h1 h2 h
  have hstays : ∀ n f, some f ∈ owned → s.pool.page_table (some n) = some f →
      t.pool.page_table (some n) = some f := by
    intro n f hf hc
    refine hkeep n f ?_ hc
    rw [pinsOn_cached hc]
    have := owners_of_pos.mpr hf
    omega
  have hon : pinsOn t.pool owned = pinsOn s.pool owned := funext (W.pinsOn_eq O'.inv hstays)
  refine ⟨⟨by rw [hon]; exact O', fun f hf => ?_⟩, hstays⟩
  obtain ⟨n, hn⟩ := W.found f hf
  exact ⟨n, hstays n f hf hn⟩

/-- An object gets a pin of page `n`. -/
theorem pinsOn_gained {pins : Nat → Nat} (I : PoolInv b pins) {n f : Nat}
    (hn : b.page_table (some n) = some f) {owned' : List (Option FrameID)}
    (hcount : ∀ g, owners_of owned' g = owners_of owned g + one_for (some f) g) (m : Nat) :
    pinsOn b owned' m = if m = n then pinsOn b owned n + 1 else pinsOn b owned m := by
  rcases hc : b.page_table (some m) with _ | g
  · have hmn : m ≠ n := by
      rintro rfl
      rw [hn] at hc
      cases hc
    rw [if_neg hmn, pinsOn_uncached hc, pinsOn_uncached hc]
  · rw [pinsOn_cached hc, pinsOn_cached hc, pinsOn_cached hn, hcount]
    by_cases hmn : m = n
    · subst hmn
      obtain rfl : f = g := Option.some.inj (hn.symm.trans hc)
      rw [one_for_self, if_pos rfl]
    · have hfg : f ≠ g := by
        rintro rfl
        exact hmn (I.page_unique hc hn)
      rw [one_for_other hfg, if_neg hmn]
      rfl

/-- An object gets a page that was fetched for it, or no frame is found for the page. -/
theorem Owned.fetch_page (W : Owned b outside owned) {n : Nat} (ha : Allocated b.disk_manager n) :
    (∃ f b', b.fetch_page (some n) = (.ok (some f), b') ∧
      ∀ owned' : List (Option FrameID),
        (∀ g, owners_of owned' g = owners_of owned g + one_for (some f) g) →
        Owned b' outside owned') ∨
    (b.fetch_page (some n) = (.ok none, b) ∧ b.page_table (some n) = none ∧ AllPinned b) := by
  have hmain : ∀ f b', InOrder b' (pinMore (fun n => outside n + pinsOn b owned n) n) →
      b'.page_table (some n) = some f →
      (∀ m g, 0 < outside m + pinsOn b owned m → b.page_table (some m) = some g →
        b'.page_table (some m) = some g) →
      ∀ owned' : List (Option FrameID),
        (∀ g, owners_of owned' g = owners_of owned g + one_for (some f) g) →
        Owned b' outside owned' := by
    intro f b' O' hn hkeep owned' hcount
    have hstays : ∀ n f, some f ∈ owned → b.page_table (some n) = some f →
        b'.page_table (some n) = some f := by
      intro m g hg hc
      refine hkeep m g ?_ hc
      rw [pinsOn_cached hc]
      have := owners_of_pos.mpr hg
      omega
    have hpins : (fun m => outside m + pinsOn b' owned' m) =
        pinMore (fun n => outside n + pinsOn b owned n) n := by
      funext m
      rw [pinMore_apply, pinsOn_gained O'.inv hn hcount, W.pinsOn_eq O'.inv hstays,
        W.pinsOn_eq O'.inv hstays]
      split
      · rename_i he
        rw [he]
        omega
      · rfl
    refine ⟨by rw [hpins]; exact O', fun g hg => ?_⟩
    rcases gained hcount hg with rfl | hg
    · exact ⟨n, hn⟩
    · obtain ⟨m, hm⟩ := W.found g hg
      exact ⟨m, hstays m g hg hm⟩
  rcases W.order.fetch_page ha with ⟨f, hc, hfetch, O'⟩ | ⟨hu, ⟨f, b', hfetch, S, O'⟩ | ⟨hfetch, hall⟩⟩
  · exact Or.inl ⟨f, _, hfetch, hmain f _ O' hc fun m g _ h => h⟩
  · refine Or.inl ⟨f, b', hfetch, hmain f b' O' S.cached fun m g hpos hc => ?_⟩
    exact S.keeps_pinned hu hpos hc
  · exact Or.inr ⟨hfetch, hu, hall⟩

/-- A caller hands its pin over to an object. -/
theorem Owned.hand_over (W : Owned b outside owned) {n f : Nat} (hn : b.page_table (some n) = some f)
    (hpos : 0 < outside n) {owned' : List (Option FrameID)}
    (hcount : ∀ g, owners_of owned' g = owners_of owned g + one_for (some f) g) :
    Owned b (pinLess outside n) owned' := by
  have hpins : (fun m => pinLess outside n m + pinsOn b owned' m) =
      fun m => outside m + pinsOn b owned m := by
    funext m
    rw [pinLess_apply, pinsOn_gained W.order.inv hn hcount]
    split
    · rename_i he
      rw [he]
      omega
    · rfl
  refine ⟨by rw [hpins]; exact W.order, fun g hg => ?_⟩
  rcases gained hcount hg with rfl | hg
  · exact ⟨n, hn⟩
  · exact W.found g hg

/-- An object gives up its pin. -/
theorem Owned.unpin_page (W : Owned b outside owned) {f : FrameID} (hf : some f ∈ owned) (dirty : Bool)
    {owned' : List (Option FrameID)}
    (hcount : ∀ g, owners_of owned' g + one_for (some f) g = owners_of owned g) :
    Owned (b.unpin_page (b.frames f).page_id dirty) outside owned' := by
  obtain ⟨n, hn⟩ := W.found f hf
  have hpos : 0 < outside n + pinsOn b owned n := by
    have := owners_of_pos.mpr hf
    rw [pinsOn_cached hn]
    omega
  have O' := W.order.unpin_page hpos dirty
  have htable := page_table_unpin_page b (some n) dirty
  have hon : pinsOn (b.unpin_page (some n) dirty) owned' = pinsOn b owned' := by
    unfold pinsOn
    rw [htable]
  have hpins : (fun m => outside m + pinsOn (b.unpin_page (some n) dirty) owned' m) =
      pinLess (fun n => outside n + pinsOn b owned n) n := by
    funext m
    rw [hon, pinLess_apply, pinsOn_gained W.order.inv hn (fun g => (hcount g).symm) n,
      pinsOn_gained W.order.inv hn (fun g => (hcount g).symm) m, if_pos rfl]
    split
    · rename_i he
      rw [he]
      omega
    · rfl
  rw [(W.order.inv.holds n f).mp hn]
  refine ⟨by rw [hpins]; exact O', fun g hg => ?_⟩
  rw [htable]
  refine W.found g (owners_of_pos.mp ?_)
  have := owners_of_pos.mpr hg
  have := hcount g
  omega

/-! ## What the counts say -/

/-- An object with a frame stands on a cached page, that has more pins than the other callers
hold, and the pins of a page are those of its objects and of the other callers. -/
def AccountsForPins (b : BufferPoolManager) (outside : Nat → Nat) (owned : List (Option FrameID)) :
    Prop :=
  (∀ f, some f ∈ owned → ∃ n, (b.frames f).page_id = some n ∧ b.page_table (some n) = some f ∧
    outside n < (b.frames f).pin_count) ∧
  (∀ n f, b.page_table (some n) = some f →
    (b.frames f).pin_count = outside n + owners_of owned f) ∧
  ∀ n, b.page_table (some n) = none → outside n = 0

theorem Owned.accounts (W : Owned b outside owned) : AccountsForPins b outside owned := by
  have hcount : ∀ n f, b.page_table (some n) = some f →
      (b.frames f).pin_count = outside n + owners_of owned f := by
    intro n f hc
    rw [W.order.inv.pin_count_eq hc, pinsOn_cached hc]
  refine ⟨fun f hf => ?_, hcount, fun n hn => ?_⟩
  · obtain ⟨n, hn⟩ := W.found f hf
    refine ⟨n, (W.order.inv.holds n f).mp hn, hn, ?_⟩
    rw [hcount n f hn]
    have := owners_of_pos.mpr hf
    omega
  · have := W.order.inv.absent n hn
    omega

end

end duck.buffer_pool
