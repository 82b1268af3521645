-- What is in the pages, wherever they are. A trait of the pages is what somebody
-- wants to know of their data: while the clean frames agree with the file on it,
-- no eviction changes it.
import DuckDbms.PoolLaws

open duck.slotted_page duck.disk_manager

namespace duck.buffer_pool

open BufferPoolManager

/-! ## The data of a page -/

/-- The data of a page, in its frame when it is cached, or else in the file. -/
def view (b : BufferPoolManager) (n : Nat) : PageData :=
  match b.page_table (some n) with
  | some f => (b.frames f).data
  | none => b.disk_manager.file n

theorem view_cached {b : BufferPoolManager} {n : Nat} {f : FrameID}
    (h : b.page_table (some n) = some f) : view b n = (b.frames f).data := by
  unfold view
  rw [h]

theorem view_uncached {b : BufferPoolManager} {n : Nat} (h : b.page_table (some n) = none) :
    view b n = b.disk_manager.file n := by
  unfold view
  rw [h]

section
variable {pins : Nat → Nat} {b : BufferPoolManager}

/-- What the views of the other pages are after `swap_page`. -/
theorem Swapped.view_other {b' : BufferPoolManager} {n f : Nat} {rd : Bool}
    (W : Swapped b b' pins n f rd) (I : PoolInv b pins) {m : Nat} (hm : m ≠ n) :
    view b' m = view b m ∨
      (b.page_table (some m) = some f ∧ (b.frames f).is_dirty = false ∧
        view b' m = b.disk_manager.file m) := by
  have ht := W.table m
  rw [if_neg hm] at ht
  by_cases hv : (b.frames f).page_id = some m
  · rw [if_pos hv] at ht
    have hc := (I.holds m f).mpr hv
    rw [view_uncached ht, view_cached hc, W.disk]
    unfold written
    simp only [hv]
    by_cases hd : (b.frames f).is_dirty = true
    · left
      simp [hd]
    · right
      exact ⟨hc, by simpa using hd, by simp [hd]⟩
  · left
    rw [if_neg hv] at ht
    rcases hc : b.page_table (some m) with _ | g
    · rw [hc] at ht
      rw [view_uncached hc, view_uncached ht, W.disk]
      unfold written
      split
      · rename_i v hid
        split
        · have hne : m ≠ v := fun he => hv (he ▸ hid)
          simp [Function.update_of_ne hne]
        · rfl
      · rfl
    · rw [hc] at ht
      have hg : g ≠ f := fun he => hv (he ▸ (I.holds m g).mp hc)
      rw [view_cached hc, view_cached ht, W.frames, Function.update_of_ne hg]

/-- The file of a page that does not leave its frame stays as it is. -/
theorem written_other {n f : Nat} (h : (b.frames f).page_id ≠ some n) :
    written b f n = b.disk_manager.file n := by
  unfold written
  rcases hid : (b.frames f).page_id with _ | v
  · rfl
  · have hne : n ≠ v := fun he => h (he ▸ hid)
    simp only
    split
    · rw [Function.update_of_ne hne]
    · rfl

theorem alone_of_uncached (I : PoolInv b pins) {n : Nat} (h : b.page_table (some n) = none) :
    ∀ f, b.find_next_frame.1 = some f → ∀ g, g ≠ f → (b.frames g).page_id ≠ some n :=
  fun _ _ g _ => I.uncached h g

theorem view_set_data (I : PoolInv b pins) {n f : Nat} (h : b.page_table (some n) = some f)
    (d : PageData) :
    view (b.set_data f d) n = d ∧ ∀ m, m ≠ n → view (b.set_data f d) m = view b m := by
  have hframe : ∀ g, (b.set_data f d).frames g =
      if g = f then { b.frames f with data := d } else b.frames g := by
    intro g
    show Function.update b.frames f _ g = _
    by_cases hg : g = f
    · simp [hg]
    · rw [Function.update_of_ne hg, if_neg hg]
  refine ⟨by rw [view_cached (b := b.set_data f d) h, hframe, if_pos rfl], fun m hm => ?_⟩
  unfold view
  show (match b.page_table (some m) with | some g => _ | none => _) = _
  rcases hc : b.page_table (some m) with _ | g
  · rfl
  · have hg : g ≠ f := by
      rintro rfl
      have h1 := (I.holds m g).mp hc
      rw [(I.holds n g).mp h] at h1
      exact hm (Option.some.inj h1).symm
    simp only
    rw [hframe, if_neg hg]

/-- What an unpin leaves of the frames. -/
theorem frames_unpin_page (I : PoolInv b pins) {n : Nat} (hpos : 0 < pins n) (dirty : Bool) :
    ∃ f, b.page_table (some n) = some f ∧
      (∀ g, ((b.unpin_page (some n) dirty).frames g).data = (b.frames g).data) ∧
      ∀ g, ((b.unpin_page (some n) dirty).frames g).is_dirty =
        ((decide (g = f) && dirty) || (b.frames g).is_dirty) := by
  obtain ⟨f, hf, heq, _⟩ := I.unpin_page hpos dirty
  have hframe : ∀ g, (b.unpin_page (some n) dirty).frames g = if g = f then
      ⟨some n, (b.frames f).data, pins n - 1, dirty || (b.frames f).is_dirty⟩ else b.frames g := by
    intro g
    rw [heq]
    show Function.update b.frames f _ g = _
    by_cases hg : g = f
    · simp [hg]
    · rw [Function.update_of_ne hg, if_neg hg]
  refine ⟨f, hf, fun g => ?_, fun g => ?_⟩
  all_goals
    rw [hframe]
    by_cases hg : g = f <;> simp [hg]

theorem view_unpin_page (I : PoolInv b pins) {n : Nat} (hpos : 0 < pins n) (dirty : Bool)
    (m : Nat) : view (b.unpin_page (some n) dirty) m = view b m := by
  obtain ⟨_, _, hdata, _⟩ := frames_unpin_page I hpos dirty
  unfold view
  rw [page_table_unpin_page, capacity_unpin_page]
  split
  · rw [hdata]
  · rfl

end

/-! ## Traits that evictions keep -/

/-- A clean frame and the file have the same trait of a page, unless its holder changed it and
will unpin it as dirty. -/
def Agrees {α : Type} (trait : PageData → α) (pending : Nat → Prop) (b : BufferPoolManager) :
    Prop :=
  ∀ n f, b.page_table (some n) = some f → (b.frames f).is_dirty = false → ¬ pending n →
    trait (b.frames f).data = trait (b.disk_manager.file n)

section
variable {α : Type} {trait : PageData → α} {pins : Nat → Nat} {pending : Nat → Prop}
  {b b' : BufferPoolManager}

/-- An empty pool has no frames that could disagree. -/
theorem agrees_make (d : DiskManager) (k : Nat) : Agrees trait pending (.make d k) := by
  intro n f hc
  cases hc

/-- What `swap_page` leaves when it brings page `n` in. -/
theorem Agrees.swapped (A : Agrees trait pending b) (I : PoolInv b pins)
    (held : ∀ n, pending n → 0 < pins n) {n f : Nat} {rd : Bool} (W : Swapped b b' pins n f rd)
    (hu : b.page_table (some n) = none) :
    Agrees trait (fun m => pending m ∨ (rd = false ∧ m = n)) b' ∧
      ∀ m, rd = true ∨ m ≠ n → trait (view b' m) = trait (view b m) := by
  have hnf : (b.frames f).page_id ≠ some n := I.uncached hu f
  have hn := W.table n
  rw [if_pos rfl] at hn
  constructor
  · intro m g hc hd hp
    by_cases hmn : m = n
    · subst hmn
      obtain rfl : f = g := Option.some.inj (hn.symm.trans hc)
      rcases rd with _ | _
      · exact absurd (Or.inr ⟨rfl, rfl⟩) hp
      · rw [W.frames, W.disk, Function.update_self]
        rfl
    · rw [W.table, if_neg hmn] at hc
      split at hc
      · cases hc
      · rename_i hv
        have hg : g ≠ f := fun h => hv (h ▸ (I.holds m g).mp hc)
        rw [W.frames, Function.update_of_ne hg] at hd ⊢
        rw [W.disk]
        simp only
        rw [written_other hv]
        exact A m g hc hd fun h => hp (Or.inl h)
  · intro m hm
    by_cases hmn : m = n
    · subst hmn
      obtain rfl := hm.resolve_right fun h => h rfl
      rw [view_cached hn, W.frames, Function.update_self, view_uncached hu]
      simp only [if_true]
      rw [written_other hnf]
    · rcases W.view_other I hmn with h | ⟨hc, hd, h⟩
      · rw [h]
      · -- the page that leaves its frame is clean, and nobody has it pinned
        rw [h, view_cached hc]
        refine (A m f hc hd fun hp => ?_).symm
        have h0 := W.unpinned m ((I.holds m f).mp hc)
        have := held m hp
        omega

theorem Agrees.fetch_page (A : Agrees trait pending b) (I : PoolInv b pins)
    (F : NoFaults b.disk_manager) (held : ∀ n, pending n → 0 < pins n) {n : Nat}
    (hn : n < b.disk_manager.capacity) :
    Agrees trait pending (b.fetch_page (some n)).2 ∧
      ∀ m, trait (view (b.fetch_page (some n)).2 m) = trait (view b m) := by
  unfold BufferPoolManager.fetch_page
  rcases I.find_cached_page n with ⟨f, b', hfind, hc, _, hfr, ht, hd, _⟩ | ⟨hfind, hu⟩
  · rw [hfind]
    have hframe : ∀ g, (b'.frames g).data = (b.frames g).data ∧
        (b'.frames g).is_dirty = (b.frames g).is_dirty := by
      intro g
      rw [hfr]
      by_cases hg : g = f
      · subst hg
        rw [Function.update_self]
        exact ⟨rfl, rfl⟩
      · rw [Function.update_of_ne hg]
        exact ⟨rfl, rfl⟩
    constructor
    · intro m g hg hdirty hp
      simp only at hg hdirty ⊢
      rw [ht] at hg
      rw [(hframe g).2] at hdirty
      rw [(hframe g).1, hd]
      exact A m g hg hdirty hp
    · intro m
      unfold view
      simp only
      rw [ht]
      split
      · rw [(hframe _).1]
      · rw [hd]
  · rw [hfind]
    simp only
    rcases I.swap_page F hn true (alone_of_uncached I hu) with
      ⟨f, b', hswap, W⟩ | ⟨hswap, _⟩
    · rw [hswap]
      obtain ⟨A', hview⟩ := A.swapped I held W hu
      refine ⟨fun m g hc hd hp => A' m g hc hd ?_, fun m => hview m (Or.inl rfl)⟩
      rintro (h | ⟨h, _⟩)
      · exact hp h
      · cases h
    · rw [hswap]
      exact ⟨A, fun _ => rfl⟩

/-- A holder writes the data of its page. -/
theorem Agrees.set_data (A : Agrees trait pending b) (I : PoolInv b pins) (pending' : Nat → Prop)
    {n f : Nat} (h : b.page_table (some n) = some f) (d : PageData)
    (hle : ∀ m, pending m → pending' m)
    (hd : pending' n ∨ (b.frames f).is_dirty = true ∨ trait d = trait (view b n)) :
    Agrees trait pending' (b.set_data f d) := by
  have hframe : ∀ g, (b.set_data f d).frames g =
      if g = f then { b.frames f with data := d } else b.frames g := by
    intro g
    show Function.update b.frames f _ g = _
    by_cases hg : g = f
    · simp [hg]
    · rw [Function.update_of_ne hg, if_neg hg]
  intro m g hc hdirty hp
  change b.page_table (some m) = some g at hc
  rw [hframe] at hdirty ⊢
  by_cases hg : g = f
  · subst hg
    obtain rfl : m = n := by
      have h1 := (I.holds m g).mp hc
      rw [(I.holds n g).mp h] at h1
      exact (Option.some.inj h1).symm
    rw [if_pos rfl] at hdirty ⊢
    rcases hd with hd | hd | hd
    · exact absurd hd hp
    · simp only at hdirty
      rw [hdirty] at hd
      cases hd
    · simp only at hdirty ⊢
      rw [hd, view_cached h]
      exact A m g h hdirty fun hq => hp (hle m hq)
  · rw [if_neg hg] at hdirty ⊢
    exact A m g hc hdirty fun hq => hp (hle m hq)

/-- A holder lets go of its page, and marks it dirty if it waits for that. -/
theorem Agrees.unpin_page (A : Agrees trait pending b) (I : PoolInv b pins)
    (pending' : Nat → Prop) {n : Nat} (hpos : 0 < pins n) (dirty : Bool)
    (hle : ∀ m, pending m → pending' m ∨ (m = n ∧ dirty = true)) :
    Agrees trait pending' (b.unpin_page (some n) dirty) := by
  obtain ⟨f, hf, hdata, hflag⟩ := frames_unpin_page I hpos dirty
  intro m g hc hdirty hp
  rw [page_table_unpin_page] at hc
  rw [hdata, capacity_unpin_page]
  rw [hflag, Bool.or_eq_false_iff] at hdirty
  refine A m g hc hdirty.2 fun hpm => ?_
  rcases hle m hpm with h | ⟨rfl, hd⟩
  · exact hp h
  · obtain rfl : f = g := Option.some.inj (hf.symm.trans hc)
    simp [hd] at hdirty

end

end duck.buffer_pool
