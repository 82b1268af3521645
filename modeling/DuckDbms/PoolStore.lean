-- The pool as a store of pages. What a page means does not depend on where it
-- is, in a frame or in the file, nor on how its tuples are laid out; the calls
-- of the pool keep the meaning of every page.
import DuckDbms.PageTraits
import DuckDbms.PageCompaction
import Mathlib.Data.Finset.Card

open duck.slotted_page duck.disk_manager

namespace duck.buffer_pool

open BufferPoolManager

/-! ## The meaning of the pages -/

/-- What a page says, up to the place of its tuples. -/
@[ext] structure Meaning where
  good : Prop
  rows : List Row
  next : PageID

def meaning (d : PageData) : Meaning := ⟨Good d, rowsOf d, d.header.next_page_id⟩

/-- The pages of a pool. -/
def contents (b : BufferPoolManager) (n : Nat) : Meaning := meaning (view b n)

/-- The id was given out and not given back since. -/
def Allocated (d : DiskManager) (n : Nat) : Prop := n < d.capacity ∧ some n ∉ d.free_list

instance (d : DiskManager) (n : Nat) : Decidable (Allocated d n) :=
  inferInstanceAs (Decidable (_ ∧ _))

/-- Every frame holds a page that somebody has pinned. -/
def AllPinned (b : BufferPoolManager) : Prop :=
  b.free_frames_list = [] ∧ b.pool_size = b.pool_capacity ∧
    ∀ n f, b.page_table (some n) = some f → (b.frames f).pin_count ≠ 0

/-- A pool that stores pages: its parts agree, the free ids are not in use, and no page can
lose its meaning by an eviction. `pending` tells the pages whose holders changed them and
will unpin them as dirty. `evicts` tells whether pages may be evicted at all; a pool that
never evicts has a frame for every page of the disk, and its flags do not matter. -/
structure Store (evicts : Prop) (pins : Nat → Nat) (pending : Nat → Prop)
    (b : BufferPoolManager) : Prop where
  inv : PoolInv b pins
  faults : NoFaults b.disk_manager
  free_nodup : b.disk_manager.free_list.Nodup
  free : ∀ p ∈ b.disk_manager.free_list,
    ∃ n, p = some n ∧ n < b.disk_manager.capacity ∧ b.page_table p = none
  held : ∀ n, pending n → 0 < pins n
  clean : evicts → ∀ n f, b.page_table (some n) = some f → (b.frames f).is_dirty = false →
    ¬ pending n → meaning (b.frames f).data = meaning (b.disk_manager.file n)
  roomy : ¬ evicts → b.disk_manager.capacity ≤ b.pool_capacity

section
variable {evicts : Prop} {pins : Nat → Nat} {pending : Nat → Prop} {b : BufferPoolManager}

/-- No eviction changes the meaning of a page. -/
theorem Store.agrees (S : Store evicts pins pending b) : evicts → Agrees meaning pending b := S.clean

theorem Store.allocated_of_cached (S : Store evicts pins pending b) {n f : Nat}
    (h : b.page_table (some n) = some f) : Allocated b.disk_manager n := by
  refine ⟨S.inv.known n f h, fun hm => ?_⟩
  obtain ⟨_, _, _, hn⟩ := S.free _ hm
  rw [h] at hn
  cases hn

/-- A pool with a frame for every page of the disk has one left for a page that is not cached. -/
theorem not_full_of_roomy (I : PoolInv b pins) (hr : b.disk_manager.capacity ≤ b.pool_capacity)
    {n : Nat} (hn : n < b.disk_manager.capacity) (hu : b.page_table (some n) = none) :
    ¬ (b.free_frames_list = [] ∧ b.pool_size = b.pool_capacity) := by
  rintro ⟨hfree, hsize⟩
  -- the frames below `pool_size` hold distinct pages, all of them but `n`
  have hpage : ∀ f < b.pool_size, ∃ m, (b.frames f).page_id = some m := by
    intro f hf
    rcases h : (b.frames f).page_id with _ | m
    · have := (I.free f).mpr ⟨hf, h⟩
      rw [hfree] at this
      cases this
    · exact ⟨m, rfl⟩
  have hcard : (Finset.range b.pool_size).card ≤
      ((Finset.range b.disk_manager.capacity).erase n).card := by
    refine Finset.card_le_card_of_injOn (fun f => ((b.frames f).page_id).getD 0) ?_ ?_
    · intro f hf
      obtain ⟨m, hm⟩ := hpage f (by simpa using hf)
      have hm' := (I.holds m f).mpr hm
      have hne : m ≠ n := by
        rintro rfl
        rw [hu] at hm'
        cases hm'
      simpa [hm, hne] using I.known m f hm'
    · intro f hf g hg he
      obtain ⟨m, hm⟩ := hpage f (by simpa using hf)
      obtain ⟨k, hk⟩ := hpage g (by simpa using hg)
      simp only [hm, hk, Option.getD_some] at he
      exact I.unique hm (he ▸ hk)
  rw [Finset.card_range, Finset.card_erase_of_mem (by simpa using hn), Finset.card_range] at hcard
  omega

/-- A pool with two frames has one to give while at most one page is pinned. -/
theorem not_allPinned (I : PoolInv b pins) (h2 : 2 ≤ b.pool_capacity) {p : Nat}
    (hp : ∀ n, pins n ≠ 0 → n = p) : ¬ AllPinned b := by
  rintro ⟨hfree, hsize, hall⟩
  have hpage : ∀ f < b.pool_size, (b.frames f).page_id = some p := by
    intro f hf
    rcases h : (b.frames f).page_id with _ | m
    · have := (I.free f).mpr ⟨hf, h⟩
      rw [hfree] at this
      cases this
    · have hpin := hall m f ((I.holds m f).mpr h)
      rw [I.pinned m f h] at hpin
      rw [hp m hpin]
  have := I.unique (hpage 0 (by omega)) (hpage 1 (by omega))
  omega

/-- A pool in which nobody has a page pinned has a frame to give, if it has any frames. -/
theorem not_allPinned_idle (I : PoolInv b pins) (h1 : 1 ≤ b.pool_capacity)
    (hp : ∀ n, pins n = 0) : ¬ AllPinned b := by
  rintro ⟨hfree, hsize, hall⟩
  rcases h : (b.frames 0).page_id with _ | m
  · have := (I.free 0).mpr ⟨by omega, h⟩
    rw [hfree] at this
    cases this
  · have hpin := hall m 0 ((I.holds m 0).mpr h)
    rw [I.pinned m 0 h, hp m] at hpin
    exact hpin rfl

/-! ## Pages that come in -/

/-- Page `n` has one more pin. -/
def pinMore (pins : Nat → Nat) (n : Nat) : Nat → Nat := Function.update pins n (pins n + 1)

/-- Page `n` has one pin less. -/
def pinLess (pins : Nat → Nat) (n : Nat) : Nat → Nat := Function.update pins n (pins n - 1)

theorem pinMore_apply (pins : Nat → Nat) (n m : Nat) :
    pinMore pins n m = if m = n then pins n + 1 else pins m := by
  unfold pinMore
  by_cases h : m = n
  · simp [h]
  · rw [Function.update_of_ne h, if_neg h]

theorem pinLess_apply (pins : Nat → Nat) (n m : Nat) :
    pinLess pins n m = if m = n then pins n - 1 else pins m := by
  unfold pinLess
  by_cases h : m = n
  · simp [h]
  · rw [Function.update_of_ne h, if_neg h]

theorem le_pinMore (pins : Nat → Nat) (n m : Nat) : pins m ≤ pinMore pins n m := by
  rw [pinMore_apply]
  split
  · rename_i h
    rw [h]
    omega
  · omega

theorem pinLess_pinMore (pins : Nat → Nat) (n : Nat) : pinLess (pinMore pins n) n = pins := by
  funext m
  rw [pinLess_apply, pinMore_apply, pinMore_apply, if_pos rfl]
  split
  · rename_i h
    rw [h]
    omega
  · rfl

/-- The page that is evicted when a page comes in from the file, if any. -/
def Evicts (b : BufferPoolManager) (m : Nat) : Prop :=
  ∃ f, b.find_next_frame.1 = some f ∧ (b.frames f).page_id = some m

/-- The pool after page `n` came into frame `f`, whether it was there before or not. -/
structure Brought (evicts : Prop) (pins : Nat → Nat) (pending : Nat → Prop)
    (b b' : BufferPoolManager) (n f : Nat) : Prop where
  store : Store evicts (pinMore pins n) pending b'
  table : b'.page_table (some n) = some f
  disk : b'.disk_manager.capacity = b.disk_manager.capacity ∧
    b'.disk_manager.free_list = b.disk_manager.free_list
  capacity : b'.pool_capacity = b.pool_capacity
  stays : ∀ m g, b.page_table (some m) = some g →
    ¬ (b.page_table (some n) = none ∧ Evicts b m) → b'.page_table (some m) = some g
  pinned : ∀ m g, b.page_table (some m) = some g → 0 < pins m → b'.page_table (some m) = some g

/-- `swap_page` brings in a page that was in no frame. A new page is not read, so it waits
for its holder to unpin it as dirty. -/
theorem Store.swapped (S : Store evicts pins pending b) {b' : BufferPoolManager} {n f : Nat}
    {rd : Bool} (W : Swapped b b' pins n f rd) (hu : b.page_table (some n) = none)
    (ha : Allocated b.disk_manager n) :
    Brought evicts pins (fun m => pending m ∨ (rd = false ∧ m = n)) b b' n f ∧
      contents b' = if rd then contents b else
        Function.update (contents b) n (meaning zeroPage) := by
  have hnf : (b.frames f).page_id ≠ some n := S.inv.uncached hu f
  have hother : ∀ m, m ≠ n → contents b' m = contents b m := by
    intro m hm
    by_cases he : evicts
    · exact ((S.agrees he).swapped S.inv S.held W hu).2 m (Or.inr hm)
    · rcases W.view_other S.inv hm with h | ⟨hc, _⟩
      · unfold contents
        rw [h]
      · exact absurd (W.victim m ((S.inv.holds m f).mp hc))
          (not_full_of_roomy S.inv (S.roomy he) ha.1 hu)
  have hn := W.table n
  rw [if_pos rfl] at hn
  have hview : view b' n = if rd then view b n else zeroPage := by
    rw [view_cached hn, W.frames, Function.update_self, view_uncached hu, written_other hnf]
  have hcapacity : b'.disk_manager.capacity = b.disk_manager.capacity := by rw [W.disk]
  have hfree : b'.disk_manager.free_list = b.disk_manager.free_list := by rw [W.disk]
  refine ⟨⟨⟨W.inv, ?_, ?_, ?_, ?_, ?_, ?_⟩, hn, ⟨hcapacity, hfree⟩, W.capacity, ?_, ?_⟩, ?_⟩
  · rw [W.disk]
    exact ⟨S.faults.pread, S.faults.pwrite⟩
  · rw [hfree]
    exact S.free_nodup
  · intro p hp
    rw [hfree] at hp
    obtain ⟨m, rfl, hm, hc⟩ := S.free p hp
    refine ⟨m, rfl, by omega, ?_⟩
    have hne : m ≠ n := fun he => ha.2 (he ▸ hp)
    rw [W.table, if_neg hne, hc, ite_self]
  · intro m hm
    rw [pinMore_apply]
    split
    · omega
    · rename_i hne
      exact S.held m (hm.resolve_right fun h => hne h.2)
  · exact fun he => ((S.agrees he).swapped S.inv S.held W hu).1
  · intro he
    rw [hcapacity, W.capacity]
    exact S.roomy he
  · intro m g hc hev
    have hne : m ≠ n := by
      rintro rfl
      rw [hu] at hc
      cases hc
    rw [W.table, if_neg hne, if_neg fun h => hev ⟨hu, f, W.next, h⟩, hc]
  · intro m g hc hpos
    have hne : m ≠ n := by
      rintro rfl
      rw [hu] at hc
      cases hc
    rw [W.table, if_neg hne, if_neg ?_, hc]
    intro h
    have := W.unpinned m h
    omega
  · funext m
    by_cases hm : m = n
    · subst hm
      unfold contents
      rw [hview]
      rcases rd with _ | _ <;> simp
    · rw [hother m hm]
      split
      · rfl
      · rw [Function.update_of_ne hm]

/-- `fetch_page` pins a page, and no page changes its meaning. -/
theorem Store.fetch_page (S : Store evicts pins pending b) {n : Nat}
    (ha : Allocated b.disk_manager n) :
    (∃ f b', b.fetch_page (some n) = (.ok (some f), b') ∧
      Brought evicts pins pending b b' n f ∧ contents b' = contents b) ∨
    (b.fetch_page (some n) = (.ok none, b) ∧ AllPinned b) := by
  unfold BufferPoolManager.fetch_page
  rcases S.inv.find_cached_page n with ⟨f, b', hfind, hc, hinv, hfr, ht, hd, hk⟩ | ⟨hfind, hu⟩
  · left
    rw [hfind]
    have hframe : ∀ g, (b'.frames g).data = (b.frames g).data ∧
        (b'.frames g).is_dirty = (b.frames g).is_dirty := by
      intro g
      rw [hfr]
      by_cases hg : g = f
      · subst hg
        rw [Function.update_self]
        exact ⟨rfl, rfl⟩
      · rw [Function.update_of_ne hg]
        exact ⟨rfl, rfl⟩
    refine ⟨f, b', rfl, ⟨⟨hinv, ?_, ?_, ?_, ?_, ?_, ?_⟩, by rw [ht, hc], by rw [hd]; exact ⟨rfl, rfl⟩, hk,
      fun m g h _ => by rw [ht, h], fun m g h _ => by rw [ht, h]⟩, ?_⟩
    · rw [hd]
      exact S.faults
    · rw [hd]
      exact S.free_nodup
    · rw [hd, ht]
      exact S.free
    · intro m hm
      exact Nat.lt_of_lt_of_le (S.held m hm) (le_pinMore pins n m)
    · intro he m g hg hdirty hp
      rw [ht] at hg
      rw [(hframe g).2] at hdirty
      rw [(hframe g).1, hd]
      exact S.clean he m g hg hdirty hp
    · rw [hd, hk]
      exact S.roomy
    · funext m
      unfold contents view
      rw [ht]
      split
      · rw [(hframe _).1]
      · rw [hd]
  · rw [hfind]
    simp only
    rcases S.inv.swap_page S.faults ha.1 true (alone_of_uncached S.inv hu) with
      ⟨f, b', hswap, W⟩ | ⟨hswap, hfree, hsize, hall⟩
    · obtain ⟨hb, hcont⟩ := S.swapped W hu ha
      have hp : (fun m => pending m ∨ (true = false ∧ m = n)) = pending := by
        funext m
        simp
      rw [hp] at hb
      exact Or.inl ⟨f, b', hswap, hb, hcont⟩
    · refine Or.inr ⟨hswap, hfree, hsize, fun m g hc => ?_⟩
      rw [S.inv.pinned m g ((S.inv.holds m g).mp hc)]
      exact hall m g hc

/-! ## New pages -/

/-- The disk gives out an id that nobody has. -/
structure GivenOut (d d' : DiskManager) (n : Nat) : Prop where
  fresh : ¬ Allocated d n
  lt : n < d'.capacity
  allocated : ∀ m, Allocated d' m ↔ Allocated d m ∨ m = n
  capacity : d.capacity ≤ d'.capacity
  sub : ∀ p ∈ d'.free_list, p ∈ d.free_list

/-- The frame that comes next does not depend on the disk. -/
theorem next_frame_allocate_page (b : BufferPoolManager) :
    b.allocate_page.2.find_next_frame.1 = b.find_next_frame.1 := by
  have hfree : b.allocate_page.2.free_frames_list = b.free_frames_list := rfl
  have hsize : b.allocate_page.2.pool_size = b.pool_size := rfl
  have hframes : b.allocate_page.2.pool_capacity = b.pool_capacity := rfl
  have hlru : b.allocate_page.2.find_lru = b.find_lru := rfl
  unfold BufferPoolManager.find_next_frame
  rw [hfree, hsize, hframes, hlru]
  rcases b.free_frames_list with _ | ⟨f, rest⟩
  · simp only
    split
    · rfl
    · split <;> rfl
  · rfl

theorem evicts_allocate_page {m : Nat} : Evicts b.allocate_page.2 m ↔ Evicts b m := by
  unfold Evicts
  rw [next_frame_allocate_page]
  rfl

theorem allocate_page_cases (d : DiskManager) :
    (∃ p rest, d.free_list = p :: rest ∧ d.allocate_page = (p, { d with free_list := rest })) ∨
    (d.free_list = [] ∧
      d.allocate_page = (some d.capacity, { d with capacity := d.capacity + 1 })) := by
  unfold DiskManager.allocate_page
  split
  · rename_i p rest h
    exact Or.inl ⟨p, rest, h, rfl⟩
  · rename_i h
    exact Or.inr ⟨h, rfl⟩

theorem file_allocate_page (b : BufferPoolManager) :
    b.allocate_page.2.disk_manager.file = b.disk_manager.file := by
  unfold BufferPoolManager.allocate_page
  rcases allocate_page_cases b.disk_manager with ⟨p, rest, _, h⟩ | ⟨_, h⟩ <;> rw [h]

/-- An id that is given out changes no page. -/
theorem view_allocate_page (b : BufferPoolManager) (m : Nat) : view b.allocate_page.2 m = view b m := by
  unfold view
  rw [file_allocate_page]
  rfl

/-- Another disk with the same file, and ids that are still not in use. -/
theorem Store.set_disk (S : Store evicts pins pending b) {d : DiskManager}
    (hfile : d.file = b.disk_manager.file) (hfaults : NoFaults d)
    (hcap : b.disk_manager.capacity ≤ d.capacity) (hnd : d.free_list.Nodup)
    (hsub : ∀ p ∈ d.free_list, p ∈ b.disk_manager.free_list)
    (hroom : ¬ evicts → d.capacity ≤ b.pool_capacity) :
    Store evicts pins pending { b with disk_manager := d } ∧
      contents { b with disk_manager := d } = contents b := by
  refine ⟨⟨S.inv.set_disk hcap, hfaults, hnd, ?_, S.held, ?_, hroom⟩, ?_⟩
  · intro p hp
    obtain ⟨n, rfl, hn, hc⟩ := S.free p (hsub p hp)
    exact ⟨n, rfl, Nat.lt_of_lt_of_le hn hcap, hc⟩
  · intro he n f hc hd hp
    rw [show ({ b with disk_manager := d } : BufferPoolManager).disk_manager.file =
      b.disk_manager.file from hfile]
    exact S.clean he n f hc hd hp
  · funext n
    unfold contents view
    rw [show ({ b with disk_manager := d } : BufferPoolManager).disk_manager.file =
      b.disk_manager.file from hfile]

theorem Store.allocate_page (S : Store evicts pins pending b)
    (hroom : ¬ evicts → b.allocate_page.2.disk_manager.capacity ≤ b.pool_capacity) :
    ∃ n, b.allocate_page.1 = some n ∧
      GivenOut b.disk_manager b.allocate_page.2.disk_manager n ∧ b.page_table (some n) = none ∧
      Store evicts pins pending b.allocate_page.2 ∧ contents b.allocate_page.2 = contents b := by
  have hf := S.faults
  have hnd := S.free_nodup
  unfold BufferPoolManager.allocate_page at hroom ⊢
  simp only at hroom ⊢
  rcases allocate_page_cases b.disk_manager with ⟨p, rest, hfree, heq⟩ | ⟨hfree, heq⟩
  · rw [heq] at hroom ⊢
    simp only at hroom ⊢
    rw [hfree, List.nodup_cons] at hnd
    obtain ⟨n, rfl, hn, hu⟩ := S.free p (by simp [hfree])
    refine ⟨n, rfl, ⟨fun h => h.2 (by simp [hfree]), hn, fun m => ?_, Nat.le_refl _,
      fun p hp => by simp [hfree, hp]⟩, hu, ?_⟩
    · unfold Allocated
      simp only [hfree, List.mem_cons, Option.some.injEq, not_or]
      constructor
      · rintro ⟨h1, h2⟩
        by_cases hm : m = n
        · exact Or.inr hm
        · exact Or.inl ⟨h1, hm, h2⟩
      · rintro (⟨h1, _, h2⟩ | rfl)
        · exact ⟨h1, h2⟩
        · exact ⟨hn, hnd.1⟩
    · exact S.set_disk rfl ⟨hf.pread, hf.pwrite⟩ (Nat.le_refl _) hnd.2
        (fun p hp => by simp [hfree, hp]) hroom
  · rw [heq] at hroom ⊢
    simp only at hroom ⊢
    have hu : b.page_table (some b.disk_manager.capacity) = none := by
      rcases hc : b.page_table (some b.disk_manager.capacity) with _ | f
      · rfl
      · have := S.inv.known _ f hc
        omega
    refine ⟨_, rfl, ⟨fun h => ?_, by simp, fun m => ?_, by simp, fun p hp => hp⟩, hu, ?_⟩
    · have := h.1
      omega
    · unfold Allocated
      simp only [hfree, List.not_mem_nil, not_false_eq_true, and_true]
      omega
    · exact S.set_disk rfl ⟨hf.pread, hf.pwrite⟩ (by simp) hnd (fun p hp => hp) hroom

/-- `new_page` brings in a page of zeros under a fresh id. -/
theorem Store.new_page (S : Store evicts pins pending b)
    (hroom : ¬ evicts → b.allocate_page.2.disk_manager.capacity ≤ b.pool_capacity) :
    ∃ n, GivenOut b.disk_manager b.allocate_page.2.disk_manager n ∧
      ((∃ f b', b.new_page = (.ok (some f), b') ∧
        Brought evicts pins (fun m => pending m ∨ m = n) b.allocate_page.2 b' n f ∧
        contents b' = Function.update (contents b) n (meaning zeroPage)) ∨
      (b.new_page = (.ok none, b.allocate_page.2) ∧ AllPinned b ∧
        Store evicts pins pending b.allocate_page.2 ∧ contents b.allocate_page.2 = contents b)) := by
  obtain ⟨n, hid, hg, hu, S1, hc⟩ := S.allocate_page hroom
  refine ⟨n, hg, ?_⟩
  have ha : Allocated b.allocate_page.2.disk_manager n := (hg.allocated n).mpr (Or.inr rfl)
  unfold BufferPoolManager.new_page
  rw [hid]
  rcases S1.inv.swap_page S1.faults hg.lt false (alone_of_uncached S1.inv hu) with
    ⟨f, b', hswap, W⟩ | ⟨hswap, hfree, hsize, hall⟩
  · left
    obtain ⟨hb, hcont⟩ := S1.swapped W hu ha
    have hp : (fun m => pending m ∨ (false = false ∧ m = n)) = fun m => pending m ∨ m = n := by
      funext m
      simp
    rw [hp] at hb
    refine ⟨f, b', hswap, hb, ?_⟩
    rw [hcont, hc]
    simp
  · refine Or.inr ⟨hswap, ⟨hfree, hsize, fun m g hm => ?_⟩, S1, hc⟩
    rw [S.inv.pinned m g ((S.inv.holds m g).mp hm)]
    exact hall m g hm

/-- A new page may have any trait until its holder has unpinned it. -/
theorem Agrees.new_page {α : Type} {trait : PageData → α} (A : Agrees trait pending b) (S : Store evicts pins pending b)
    (hroom : ¬ evicts → b.allocate_page.2.disk_manager.capacity ≤ b.pool_capacity) :
    (∀ f b' x, b.new_page = (.ok (some f), b') → b'.page_table (some x) = some f →
      Agrees trait (fun m => pending m ∨ m = x) b' ∧
        ∀ m, m ≠ x → trait (view b' m) = trait (view b m)) ∧
    ∀ b', b.new_page = (.ok none, b') →
      Agrees trait pending b' ∧ ∀ m, trait (view b' m) = trait (view b m) := by
  obtain ⟨n, hid, hg, hu, S1, _⟩ := S.allocate_page hroom
  have hfile := file_allocate_page b
  have A1 : Agrees trait pending b.allocate_page.2 := by
    intro m g hc hd hp
    rw [hfile]
    exact A m g hc hd hp
  have hview1 := view_allocate_page b
  unfold BufferPoolManager.new_page
  rw [hid]
  rcases S1.inv.swap_page S1.faults hg.lt false (alone_of_uncached S1.inv hu) with
    ⟨f, b1, hswap, W⟩ | ⟨hswap, _⟩
  · rw [hswap]
    obtain ⟨A2, hview⟩ := A1.swapped S1.inv S1.held W hu
    have hn := W.table n
    rw [if_pos rfl] at hn
    refine ⟨?_, fun b' h => by cases h⟩
    intro g b' x h hx
    cases h
    obtain rfl : n = x := by
      have h1 := (W.inv.holds x f).mp hx
      rw [(W.inv.holds n f).mp hn] at h1
      exact Option.some.inj h1
    refine ⟨fun m g hc hd hp => A2 m g hc hd ?_, fun m hm => ?_⟩
    · rintro (h | ⟨_, h⟩)
      · exact hp (Or.inl h)
      · exact hp (Or.inr h)
    · rw [hview m (Or.inr hm), hview1]
  · rw [hswap]
    refine ⟨fun f b' x h => (by cases h), ?_⟩
    intro b' h
    cases h
    exact ⟨A1, fun m => by rw [hview1]⟩

/-! ## Writes and unpins -/

/-- A holder writes the data of its page. If the meaning changes, the page has to be dirty
by now, or to become so when it is unpinned. -/
theorem Store.set_data (S : Store evicts pins pending b) (pending' : Nat → Prop) {n f : Nat}
    (h : b.page_table (some n) = some f) (hpos : 0 < pins n) (d : PageData)
    (hle : ∀ m, pending m → pending' m) (hge : ∀ m, pending' m → pending m ∨ m = n)
    (hd : evicts → pending' n ∨ (b.frames f).is_dirty = true ∨ meaning d = contents b n) :
    Store evicts pins pending' (b.set_data f d) ∧
      contents (b.set_data f d) = Function.update (contents b) n (meaning d) := by
  obtain ⟨hn, hother⟩ := view_set_data S.inv h d
  refine ⟨⟨S.inv.set_data h d, S.faults, S.free_nodup, S.free, ?_,
    fun he => (S.agrees he).set_data S.inv pending' h d hle (hd he), S.roomy⟩, ?_⟩
  · intro m hm
    rcases hge m hm with hm | rfl
    · exact S.held m hm
    · exact hpos
  · funext m
    unfold contents
    by_cases hm : m = n
    · subst hm
      rw [Function.update_self, hn]
    · rw [Function.update_of_ne hm, hother m hm]

/-- A holder lets go of its page, and marks it dirty if it waits for that. -/
theorem Store.unpin_page (S : Store evicts pins pending b) (pending' : Nat → Prop) {n : Nat}
    (hpos : 0 < pins n) (dirty : Bool) (hge : ∀ m, pending' m → pending m)
    (hle : ∀ m, pending m → pending' m ∨ (m = n ∧ dirty = true))
    (hheld : pending' n → 1 < pins n) :
    Store evicts (pinLess pins n) pending' (b.unpin_page (some n) dirty) ∧
      contents (b.unpin_page (some n) dirty) = contents b ∧
      (b.unpin_page (some n) dirty).page_table = b.page_table ∧
      (b.unpin_page (some n) dirty).disk_manager = b.disk_manager ∧
      (b.unpin_page (some n) dirty).pool_capacity = b.pool_capacity := by
  obtain ⟨f, hf, heq, hinv⟩ := S.inv.unpin_page hpos dirty
  have htable := page_table_unpin_page b (some n) dirty
  have hdisk := capacity_unpin_page b (some n) dirty
  have hcap : (b.unpin_page (some n) dirty).pool_capacity = b.pool_capacity := by rw [heq]; rfl
  refine ⟨⟨hinv, by rw [hdisk]; exact S.faults, by rw [hdisk]; exact S.free_nodup,
    by rw [hdisk, htable]; exact S.free, ?_,
    fun he => (S.agrees he).unpin_page S.inv pending' hpos dirty hle,
    by rw [hdisk, hcap]; exact S.roomy⟩, ?_, htable, hdisk, hcap⟩
  · intro m hm
    rw [pinLess_apply]
    split
    · rename_i he
      have := hheld (he ▸ hm)
      omega
    · exact S.held m (hge m hm)
  · funext m
    unfold contents
    rw [view_unpin_page S.inv hpos dirty]

/-! ## Pages that are given back -/

/-- `delete_page` of a page that nobody has pinned gives its id back; the other pages stay. -/
theorem Store.delete_page (S : Store evicts pins pending b) {n : Nat} (h0 : n ≠ 0)
    (ha : Allocated b.disk_manager n) (hpin : pins n = 0) :
    ∃ b', b.delete_page (some n) = (.ok true, b') ∧ Store evicts pins pending b' ∧
      (∀ m, m ≠ n → contents b' m = contents b m) ∧
      (∀ m, m ≠ n → b'.page_table (some m) = b.page_table (some m)) ∧
      b'.disk_manager = returned b.disk_manager n ∧ b'.pool_capacity = b.pool_capacity := by
  have hret := returned_capacity b.disk_manager n
  have hmain : ∀ b1 : BufferPoolManager, PoolInv b1 pins → b1.disk_manager = b.disk_manager →
      b1.pool_capacity = b.pool_capacity → b1.page_table (some n) = none →
      (∀ m, m ≠ n → b1.page_table (some m) = b.page_table (some m)) →
      (∀ m g, b1.page_table (some m) = some g → b1.frames g = b.frames g) →
      ∃ b', b1.deallocate (some n) = (.ok true, b') ∧ Store evicts pins pending b' ∧
        (∀ m, m ≠ n → contents b' m = contents b m) ∧
        (∀ m, m ≠ n → b'.page_table (some m) = b.page_table (some m)) ∧
        b'.disk_manager = returned b.disk_manager n ∧ b'.pool_capacity = b.pool_capacity := by
    intro b1 I1 h1 h2 h3 h4 h5
    unfold deallocate
    rw [deallocate_page_eq _ h0, h1]
    refine ⟨_, rfl, ⟨I1.set_disk (by rw [h1, hret.1]), ?_, ?_, ?_, S.held, ?_, ?_⟩, ?_, h4,
      rfl, h2⟩
    · unfold returned
      split <;> exact ⟨S.faults.pread, S.faults.pwrite⟩
    · simp only
      rcases hret.2.2 with h | h <;> rw [h]
      · exact S.free_nodup
      · exact List.nodup_cons.mpr ⟨ha.2, S.free_nodup⟩
    · intro p hp
      have hold : p ∈ b.disk_manager.free_list ∨ p = some n := by
        simp only at hp
        rcases hret.2.2 with h | h <;> rw [h] at hp
        · exact Or.inl hp
        · exact (List.mem_cons.mp hp).symm
      show ∃ m, p = some m ∧ m < (returned b.disk_manager n).capacity ∧ b1.page_table p = none
      rw [hret.1]
      rcases hold with hp | rfl
      · obtain ⟨m, rfl, hm, hc⟩ := S.free p hp
        have hne : m ≠ n := fun he => ha.2 (he ▸ hp)
        exact ⟨m, rfl, hm, by rw [h4 m hne, hc]⟩
      · exact ⟨n, rfl, ha.1, h3⟩
    · intro he m g hc hdirty hp
      change b1.page_table (some m) = some g at hc
      have hne : m ≠ n := by
        rintro rfl
        rw [h3] at hc
        cases hc
      show meaning (b1.frames g).data = meaning ((returned b.disk_manager n).file m)
      change (b1.frames g).is_dirty = false at hdirty
      rw [h5 m g hc] at hdirty ⊢
      rw [hret.2.1]
      rw [h4 m hne] at hc
      exact S.clean he m g hc hdirty hp
    · intro he
      show (returned b.disk_manager n).capacity ≤ b1.pool_capacity
      rw [hret.1, h2]
      exact S.roomy he
    · intro m hm
      unfold contents
      rcases hc : b.page_table (some m) with _ | g
      · have hc' : ({ b1 with disk_manager := returned b.disk_manager n } :
            BufferPoolManager).page_table (some m) = none := (h4 m hm).trans hc
        rw [view_uncached hc, view_uncached hc']
        simp only [hret.2.1]
      · have hc' : ({ b1 with disk_manager := returned b.disk_manager n } :
            BufferPoolManager).page_table (some m) = some g := (h4 m hm).trans hc
        rw [view_cached hc, view_cached hc']
        simp only [h5 m g hc']
  unfold BufferPoolManager.delete_page
  rcases hc : b.page_table (some n) with _ | f
  · exact hmain b S.inv rfl rfl hc (fun _ _ => rfl) fun _ _ _ => rfl
  · have hcount := S.inv.pin_count_eq hc
    simp only
    rw [if_neg (by omega)]
    have htable : ∀ m, m ≠ n →
        (b.drop_frame (some n) f).page_table (some m) = b.page_table (some m) := by
      intro m hm
      have hne : (some m : PageID) ≠ some n := by simpa using hm
      exact Function.update_of_ne hne _ _
    have hnone : (b.drop_frame (some n) f).page_table (some n) = none := Function.update_self ..
    refine hmain _ (S.inv.drop_frame hc hpin) rfl rfl hnone htable ?_
    intro m g hg
    have hne : m ≠ n := by
      rintro rfl
      rw [hnone] at hg
      cases hg
    rw [htable m hne] at hg
    have hgf : g ≠ f := by
      rintro rfl
      have h1 := (S.inv.holds m g).mp hg
      rw [(S.inv.holds n g).mp hc] at h1
      exact hne (Option.some.inj h1).symm
    exact Function.update_of_ne hgf _ _

end

end duck.buffer_pool
