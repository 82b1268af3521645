-- The pool as a flat store, byte for byte: callers who keep to their pins read
-- back what was saved last, wherever the page has been in between.
import DuckDbms.PoolStore
import DuckDbms.Lib.Machine

open machine duck.slotted_page duck.disk_manager

namespace duck.buffer_pool

open BufferPoolManager

/-! ## Callers -/

/-- The pool, the pins that callers hold, the pages whose holders wrote and have yet to unpin
them as dirty, and the flat store: the bytes of a page at its last unpin, from the first dirty
unpin on after it was allocated. The counts are those of the code as long as a page has less
than 2^32 pins and the disk less than 2^32 pages. -/
structure FlatStore where
  pool : BufferPoolManager
  pins : Nat → Nat
  unsaved : Nat → Bool
  stored : Nat → Option PageData

inductive PoolCall
  | new_page
  | fetch_page (page_id : Nat)
  /-- a holder writes the bytes of its page -/
  | write (page_id : Nat) (data : PageData)
  | unpin_page (page_id : Nat) (dirty : Bool)
  | delete_page (page_id : Nat)
  | flush_all

namespace FlatStore

variable (s : FlatStore)

/-- What the callers know after a page came in. -/
def brought (pool : BufferPoolManager) (page_id : Nat) (stored : Nat → Option PageData) :
    FlatStore :=
  ⟨pool, pinMore s.pins page_id, s.unsaved, stored⟩

def next : PoolCall → Option FlatStore
  | .new_page =>
    match s.pool.new_page with
    | (.ok (some f), pool) => (pool.frames f).page_id.map fun n =>
        s.brought pool n (Function.update s.stored n none)
    | (_, pool) => some { s with pool }
  | .fetch_page n =>
    match s.pool.fetch_page (some n) with
    | (.ok (some _), pool) => some (s.brought pool n s.stored)
    | (_, pool) => some { s with pool }
  | .write n data => (s.pool.page_table (some n)).map fun f =>
      { s with pool := s.pool.set_data f data, unsaved := Function.update s.unsaved n true }
  | .unpin_page n dirty => some
      { pool := s.pool.unpin_page (some n) dirty
        pins := pinLess s.pins n
        unsaved := Function.update s.unsaved n (s.unsaved n && !dirty)
        stored := if dirty || (s.stored n).isSome then
          Function.update s.stored n (some (view s.pool n)) else s.stored }
  | .delete_page n =>
    match s.pool.delete_page (some n) with
    | (.ok true, pool) => some { s with pool, stored := Function.update s.stored n none }
    | (_, pool) => some { s with pool }
  | .flush_all => some { s with pool := s.pool.flush_all.2 }

variable {s}

theorem next_new_page {b : BufferPoolManager} {n : Nat} {f : FrameID}
    (h : s.pool.new_page = (.ok (some f), b)) (hid : (b.frames f).page_id = some n) :
    s.next .new_page = some (s.brought b n (Function.update s.stored n none)) := by
  unfold next
  rw [h]
  simp only [hid, Option.map_some]

theorem next_new_page_none {b : BufferPoolManager} (h : s.pool.new_page = (.ok none, b)) :
    s.next .new_page = some { s with pool := b } := by
  unfold next
  rw [h]

theorem next_fetch_page {b : BufferPoolManager} {n : Nat} {f : FrameID}
    (h : s.pool.fetch_page (some n) = (.ok (some f), b)) :
    s.next (.fetch_page n) = some (s.brought b n s.stored) := by
  unfold next
  simp only [h]

theorem next_fetch_page_none {b : BufferPoolManager} {n : Nat}
    (h : s.pool.fetch_page (some n) = (.ok none, b)) :
    s.next (.fetch_page n) = some { s with pool := b } := by
  unfold next
  simp only [h]

theorem next_delete_page {n : Nat} {t : FlatStore} (h : s.next (.delete_page n) = some t) :
    t.pool = (s.pool.delete_page (some n)).2 ∧ t.pins = s.pins := by
  unfold next at h
  simp only at h
  generalize s.pool.delete_page (some n) = r at h ⊢
  obtain ⟨e | _ | _, b⟩ := r
  all_goals
    cases h
    exact ⟨rfl, rfl⟩

end FlatStore

/-- An empty pool of any capacity over a disk that works. Its free ids are ids it gave out. -/
def flatMachine : Machine FlatStore PoolCall where
  start s := ∃ d k, NoFaults d ∧ d.free_list.Nodup ∧
    (∀ p ∈ d.free_list, ∃ n, p = some n ∧ n < d.capacity) ∧
    s = ⟨.make d k, fun _ => 0, fun _ => false, fun _ => none⟩
  next := FlatStore.next

/-- Callers fetch allocated pages, write and unpin pages that they hold, and the last holder of
a page that was written unpins it as dirty. -/
def CallersKeepPins (s : FlatStore) : PoolCall → Prop
  | .fetch_page n => Allocated s.pool.disk_manager n
  | .write n _ => 0 < s.pins n
  | .unpin_page n dirty => 0 < s.pins n ∧ (s.pins n = 1 → s.unsaved n = true → dirty = true)
  | .new_page | .delete_page _ | .flush_all => True

/-- Callers delete allocated pages only. -/
def DeletesAllocated (s : FlatStore) : PoolCall → Prop
  | .delete_page n => Allocated s.pool.disk_manager n
  | _ => True

/-- Callers leave the page of the disk header alone. -/
def KeepsMetadata (_ : FlatStore) : PoolCall → Prop
  | .delete_page n => n ≠ 0
  | _ => True

/-- Page ids and pin counts are `std::uint32_t`. -/
def FitsWords (s : FlatStore) : PoolCall → Prop
  | .new_page => s.pool.disk_manager.free_list = [] → s.pool.disk_manager.capacity + 1 < 2 ^ 32
  | .fetch_page n => s.pins n + 1 < 2 ^ 32
  | _ => True

/-! ## What the calls keep -/

/-- The parts of the pool agree, and what a page loses in its frame is in the file. -/
structure FlatInv (s : FlatStore) : Prop where
  inv : PoolInv s.pool s.pins
  faults : NoFaults s.pool.disk_manager
  free_nodup : s.pool.disk_manager.free_list.Nodup
  free : ∀ p ∈ s.pool.disk_manager.free_list,
    ∃ n, p = some n ∧ n < s.pool.disk_manager.capacity ∧ s.pool.page_table p = none
  held : ∀ n, s.unsaved n = true → 0 < s.pins n
  clean : ∀ n f, s.pool.page_table (some n) = some f → (s.pool.frames f).is_dirty = false →
    s.unsaved n = false → s.stored n ≠ none → (s.pool.frames f).data = s.pool.disk_manager.file n
  stored : ∀ n data, s.stored n = some data → s.pins n = 0 → view s.pool n = data

/-- A page that somebody has pinned stays in its frame. -/
def KeepsPinned (s t : FlatStore) : Prop :=
  ∀ n f, 0 < s.pins n → s.pool.page_table (some n) = some f →
    t.pool.page_table (some n) = some f ∧ (t.pool.frames f).page_id = some n

section
variable {s : FlatStore}

theorem flatInv_start (h : flatMachine.start s) : FlatInv s := by
  obtain ⟨d, k, hf, hnd, hfree, rfl⟩ := h
  refine ⟨poolInv_make d k, hf, hnd, ?_, ?_, ?_, ?_⟩
  · intro p hp
    obtain ⟨n, rfl, hn⟩ := hfree p hp
    exact ⟨n, rfl, hn, rfl⟩
  · intro n hn
    cases hn
  · intro n f hc
    cases hc
  · intro n data hs
    cases hs

/-- A page comes into frame `f`. What the page in that frame held is in the file by then. -/
theorem FlatInv.swapped (I : FlatInv s) {b : BufferPoolManager} {n f : Nat} {rd : Bool}
    (W : Swapped s.pool b s.pins n f rd) (hu : s.pool.page_table (some n) = none)
    (hn : some n ∉ s.pool.disk_manager.free_list) {stored' : Nat → Option PageData}
    (hst : stored' = if rd then s.stored else Function.update s.stored n none) :
    FlatInv (s.brought b n stored') ∧ KeepsPinned s (s.brought b n stored') ∧
      (rd = true → (b.frames f).data = view s.pool n) ∧ b.page_table (some n) = some f ∧
      (b.frames f).page_id = some n := by
  have hnf : (s.pool.frames f).page_id ≠ some n := I.inv.uncached hu f
  have htable := W.table n
  rw [if_pos rfl] at htable
  have hframe : b.frames f = ⟨some n, if rd then view s.pool n else zeroPage, 1, false⟩ := by
    rw [W.frames, Function.update_self, view_uncached hu, written_other hnf]
  have hfree : b.disk_manager.free_list = s.pool.disk_manager.free_list := by rw [W.disk]
  have hcap : b.disk_manager.capacity = s.pool.disk_manager.capacity := by rw [W.disk]
  have hstored : ∀ m, stored' m ≠ none → s.stored m = stored' m ∧ (m = n → rd = true) := by
    intro m hm
    rw [hst] at hm ⊢
    rcases rd with _ | _
    · by_cases he : m = n
      · subst he
        simp at hm
      · simp [he]
    · simp
  refine ⟨⟨W.inv, ?_, ?_, ?_, ?_, ?_, ?_⟩, ?_, ?_, htable, by rw [hframe]⟩
  · show NoFaults b.disk_manager
    rw [W.disk]
    exact ⟨I.faults.pread, I.faults.pwrite⟩
  · show b.disk_manager.free_list.Nodup
    rw [hfree]
    exact I.free_nodup
  · intro p hp
    change p ∈ b.disk_manager.free_list at hp
    rw [hfree] at hp
    obtain ⟨m, rfl, hm, hc⟩ := I.free p hp
    refine ⟨m, rfl, Nat.lt_of_lt_of_le hm (Nat.le_of_eq hcap.symm), ?_⟩
    have hne : m ≠ n := fun he => hn (he ▸ hp)
    show b.page_table (some m) = none
    rw [W.table, if_neg hne, hc, ite_self]
  · intro m hm
    exact Nat.lt_of_lt_of_le (I.held m hm) (le_pinMore s.pins n m)
  · intro m g hc hd hun hst
    change b.page_table (some m) = some g at hc
    change (b.frames g).is_dirty = false at hd
    show (b.frames g).data = b.disk_manager.file m
    obtain ⟨h1, h2⟩ := hstored m hst
    rw [W.disk]
    by_cases hm : m = n
    · subst hm
      obtain rfl : f = g := Option.some.inj (htable.symm.trans hc)
      rw [W.frames, Function.update_self, h2 rfl]
      rfl
    · rw [W.table, if_neg hm] at hc
      split at hc
      · cases hc
      · rename_i hv
        have hg : g ≠ f := fun h => hv (h ▸ (I.inv.holds m g).mp hc)
        rw [W.frames, Function.update_of_ne hg] at hd ⊢
        simp only
        rw [written_other hv]
        exact I.clean m g hc hd hun (by rw [h1]; exact hst)
  · intro m data hm hp
    change stored' m = some data at hm
    change pinMore s.pins n m = 0 at hp
    show view b m = data
    rw [pinMore_apply] at hp
    split at hp
    · omega
    · rename_i hne
      have hs : s.stored m = some data := (hstored m (by rw [hm]; simp)).1.trans hm
      have hv := I.stored m data hs hp
      rcases W.view_other I.inv hne with h | ⟨hc, hd, h⟩
      · rw [h]
        exact hv
      · -- the page leaves its frame, and the file has what the frame had
        have hun : s.unsaved m = false := by
          by_contra hun
          have := I.held m (by simpa using hun)
          omega
        rw [h, ← I.clean m f hc hd hun (by rw [hs]; simp), ← view_cached hc]
        exact hv
  · intro m g hpos hc
    change b.page_table (some m) = some g ∧ (b.frames g).page_id = some m
    have hne : m ≠ n := by
      rintro rfl
      rw [hu] at hc
      cases hc
    have hv : (s.pool.frames f).page_id ≠ some m := by
      intro hv
      have := W.unpinned m hv
      omega
    have hid := (I.inv.holds m g).mp hc
    have hg : g ≠ f := fun h => hv (h ▸ hid)
    rw [W.table, if_neg hne, if_neg hv, W.frames, Function.update_of_ne hg]
    exact ⟨hc, hid⟩
  · intro hrd
    rw [hframe, hrd]
    rfl

/-- Another list of free ids, and more pages. -/
theorem FlatInv.set_disk (I : FlatInv s) {d : DiskManager} (hfile : d.file = s.pool.disk_manager.file)
    (hfaults : NoFaults d) (hcap : s.pool.disk_manager.capacity ≤ d.capacity)
    (hnd : d.free_list.Nodup) (hsub : ∀ p ∈ d.free_list, p ∈ s.pool.disk_manager.free_list) :
    FlatInv { s with pool := { s.pool with disk_manager := d } } := by
  refine ⟨I.inv.set_disk hcap, hfaults, hnd, ?_, I.held, ?_, ?_⟩
  · intro p hp
    obtain ⟨n, rfl, hn, hc⟩ := I.free p (hsub p hp)
    exact ⟨n, rfl, Nat.lt_of_lt_of_le hn hcap, hc⟩
  · intro n f hc hd hun hst
    show (s.pool.frames f).data = d.file n
    rw [hfile]
    exact I.clean n f hc hd hun hst
  · intro n data hs hp
    rw [← I.stored n data hs hp]
    unfold view
    simp only [hfile]

theorem keepsPinned_refl (I : FlatInv s) : KeepsPinned s s :=
  fun n f _ hc => ⟨hc, (I.inv.holds n f).mp hc⟩

theorem FlatInv.new_page (I : FlatInv s) {t : FlatStore} (h : s.next .new_page = some t) :
    FlatInv t ∧ KeepsPinned s t := by
  have hf := I.faults
  have hnd := I.free_nodup
  -- the id that the disk gives out is on no list, and in no frame
  obtain ⟨n, d, ha, hid, hlt, hu, hout, I1⟩ : ∃ n d, s.pool.disk_manager.allocate_page = (some n, d) ∧
      s.pool.allocate_page = (some n, { s.pool with disk_manager := d }) ∧ n < d.capacity ∧
      s.pool.page_table (some n) = none ∧ some n ∉ d.free_list ∧
      FlatInv { s with pool := { s.pool with disk_manager := d } } := by
    unfold BufferPoolManager.allocate_page
    rcases allocate_page_cases s.pool.disk_manager with ⟨p, rest, hfree, heq⟩ | ⟨hfree, heq⟩
    · rw [hfree, List.nodup_cons] at hnd
      obtain ⟨n, rfl, hn, hu⟩ := I.free p (by simp [hfree])
      refine ⟨n, _, heq, by rw [heq], hn, hu, hnd.1, ?_⟩
      exact I.set_disk rfl ⟨hf.pread, hf.pwrite⟩ (Nat.le_refl _) hnd.2
        (fun p hp => by simp [hfree, hp])
    · refine ⟨_, _, heq, by rw [heq], Nat.lt_succ_self _, ?_, by simp [hfree], ?_⟩
      · rcases hc : s.pool.page_table (some s.pool.disk_manager.capacity) with _ | f
        · rfl
        · have := I.inv.known _ f hc
          omega
      · exact I.set_disk rfl ⟨hf.pread, hf.pwrite⟩ (Nat.le_succ _) hnd (fun p hp => hp)
  unfold FlatStore.next BufferPoolManager.new_page at h
  rw [hid] at h
  simp only at h
  rcases I1.inv.swap_page I1.faults hlt false (alone_of_uncached I1.inv hu) with
    ⟨f, b, hswap, W⟩ | ⟨hswap, _⟩
  · obtain ⟨J, K, _, _, hpage⟩ := I1.swapped W hu hout rfl
    rw [hswap] at h
    simp only [hpage, Option.map_some, Option.some.injEq] at h
    subst h
    exact ⟨J, K⟩
  · rw [hswap] at h
    cases h
    exact ⟨I1, keepsPinned_refl I⟩

/-- What a fetch leaves, and what it returns. -/
theorem FlatInv.fetch_page (I : FlatInv s) {n : Nat} (ha : Allocated s.pool.disk_manager n) :
    (∃ f b, s.pool.fetch_page (some n) = (.ok (some f), b) ∧ FlatInv (s.brought b n s.stored) ∧
      KeepsPinned s (s.brought b n s.stored) ∧ (b.frames f).data = view s.pool n ∧
      b.page_table (some n) = some f ∧ (b.frames f).page_id = some n) ∨
    s.pool.fetch_page (some n) = (.ok none, s.pool) := by
  unfold BufferPoolManager.fetch_page
  rcases I.inv.find_cached_page n with ⟨f, b, hfind, hc, hinv, hfr, ht, hd, hk⟩ | ⟨hfind, hu⟩
  · left
    rw [hfind]
    have hframe : ∀ g, (b.frames g).data = (s.pool.frames g).data ∧
        (b.frames g).is_dirty = (s.pool.frames g).is_dirty ∧
        (b.frames g).page_id = (s.pool.frames g).page_id := by
      intro g
      rw [hfr]
      by_cases hg : g = f
      · subst hg
        rw [Function.update_self]
        exact ⟨rfl, rfl, rfl⟩
      · rw [Function.update_of_ne hg]
        exact ⟨rfl, rfl, rfl⟩
    have hid := (I.inv.holds n f).mp hc
    refine ⟨f, b, rfl, ⟨hinv, ?_, ?_, ?_, ?_, ?_, ?_⟩, ?_, ?_, by rw [ht, hc], ?_⟩
    · show NoFaults b.disk_manager
      rw [hd]
      exact I.faults
    · show b.disk_manager.free_list.Nodup
      rw [hd]
      exact I.free_nodup
    · show ∀ p ∈ b.disk_manager.free_list, ∃ n, p = some n ∧ n < b.disk_manager.capacity ∧
        b.page_table p = none
      rw [hd, ht]
      exact I.free
    · intro m hm
      exact Nat.lt_of_lt_of_le (I.held m hm) (le_pinMore s.pins n m)
    · intro m g hg hdirty hun hst
      change b.page_table (some m) = some g at hg
      change (b.frames g).is_dirty = false at hdirty
      show (b.frames g).data = b.disk_manager.file m
      rw [ht] at hg
      rw [(hframe g).2.1] at hdirty
      rw [(hframe g).1, hd]
      exact I.clean m g hg hdirty hun hst
    · intro m data hm hp
      change pinMore s.pins n m = 0 at hp
      show view b m = data
      have hp0 : s.pins m = 0 := by
        have := le_pinMore s.pins n m
        omega
      rw [← I.stored m data hm hp0]
      unfold view
      rw [ht]
      split
      · rw [(hframe _).1]
      · rw [hd]
    · intro m g _ hg
      refine ⟨?_, ?_⟩
      · show b.page_table (some m) = some g
        rw [ht, hg]
      · show (b.frames g).page_id = some m
        rw [(hframe g).2.2]
        exact (I.inv.holds m g).mp hg
    · rw [(hframe f).1, view_cached hc]
    · rw [(hframe f).2.2]
      exact hid
  · rw [hfind]
    simp only
    rcases I.inv.swap_page I.faults ha.1 true (alone_of_uncached I.inv hu) with
      ⟨f, b, hswap, W⟩ | ⟨hswap, _⟩
    · obtain ⟨J, K, hdata, htable, hid⟩ := I.swapped W hu ha.2 rfl
      exact Or.inl ⟨f, b, hswap, J, K, hdata rfl, htable, hid⟩
    · exact Or.inr hswap

theorem FlatInv.write (I : FlatInv s) {n : Nat} {data : PageData} (hpos : 0 < s.pins n)
    {t : FlatStore} (h : s.next (.write n data) = some t) : FlatInv t ∧ KeepsPinned s t := by
  unfold FlatStore.next at h
  obtain ⟨f, hc, rfl⟩ := Option.map_eq_some_iff.mp h
  have hid := (I.inv.holds n f).mp hc
  have hframe : ∀ g, (s.pool.set_data f data).frames g =
      if g = f then { s.pool.frames f with data } else s.pool.frames g := by
    intro g
    show Function.update s.pool.frames f _ g = _
    by_cases hg : g = f
    · simp [hg]
    · rw [Function.update_of_ne hg, if_neg hg]
  have hother : ∀ m g, m ≠ n → s.pool.page_table (some m) = some g → g ≠ f := by
    rintro m g hm hg rfl
    rw [(I.inv.holds m g).mp hg] at hid
    exact hm (Option.some.inj hid)
  refine ⟨⟨I.inv.set_data hc data, I.faults, I.free_nodup, I.free, ?_, ?_, ?_⟩, ?_⟩
  · intro m hm
    by_cases he : m = n
    · exact he ▸ hpos
    · simp only [Function.update_of_ne he] at hm
      exact I.held m hm
  · intro m g hg hdirty hun hst
    simp only at hg hdirty hun ⊢
    change s.pool.page_table (some m) = some g at hg
    have hm : m ≠ n := by
      rintro rfl
      simp at hun
    rw [Function.update_of_ne hm] at hun
    rw [hframe, if_neg (hother m g hm hg)] at hdirty ⊢
    exact I.clean m g hg hdirty hun hst
  · intro m d hm hp
    simp only at hm hp ⊢
    have hne : m ≠ n := by
      rintro rfl
      omega
    rw [← I.stored m d hm hp]
    rcases hg : s.pool.page_table (some m) with _ | g
    · have hg' : (s.pool.set_data f data).page_table (some m) = none := hg
      rw [view_uncached hg, view_uncached hg']
      rfl
    · have hg' : (s.pool.set_data f data).page_table (some m) = some g := hg
      rw [view_cached hg, view_cached hg', hframe, if_neg (hother m g hne hg)]
  · intro m g _ hg
    refine ⟨hg, ?_⟩
    simp only
    rw [hframe]
    split
    · rename_i he
      rw [← he]
      exact (I.inv.holds m g).mp hg
    · exact (I.inv.holds m g).mp hg

theorem FlatInv.unpin_page (I : FlatInv s) {n : Nat} {dirty : Bool} (hpos : 0 < s.pins n)
    (hlast : s.pins n = 1 → s.unsaved n = true → dirty = true) {t : FlatStore}
    (h : s.next (.unpin_page n dirty) = some t) : FlatInv t ∧ KeepsPinned s t := by
  unfold FlatStore.next at h
  cases h
  obtain ⟨f, hc, heq, hinv⟩ := I.inv.unpin_page hpos dirty
  have hid := (I.inv.holds n f).mp hc
  have htable := page_table_unpin_page s.pool (some n) dirty
  have hdisk := capacity_unpin_page s.pool (some n) dirty
  have hframe : ∀ g, (s.pool.unpin_page (some n) dirty).frames g = if g = f then
      ⟨some n, (s.pool.frames f).data, s.pins n - 1, dirty || (s.pool.frames f).is_dirty⟩
      else s.pool.frames g := by
    intro g
    rw [heq]
    show Function.update s.pool.frames f _ g = _
    by_cases hg : g = f
    · simp [hg]
    · rw [Function.update_of_ne hg, if_neg hg]
  have hview : ∀ m, view (s.pool.unpin_page (some n) dirty) m = view s.pool m := by
    intro m
    unfold view
    rw [htable, hdisk]
    split
    · rw [hframe]
      split
      · rename_i he
        rw [he]
      · rfl
    · rfl
  have hstored : ∀ m, m ≠ n → (if dirty || (s.stored n).isSome then
      Function.update s.stored n (some (view s.pool n)) else s.stored) m = s.stored m := by
    intro m hm
    split
    · rw [Function.update_of_ne hm]
    · rfl
  refine ⟨⟨hinv, ?_, ?_, ?_, ?_, ?_, ?_⟩, ?_⟩
  · simp only
    rw [hdisk]
    exact I.faults
  · simp only
    rw [hdisk]
    exact I.free_nodup
  · simp only
    rw [hdisk, htable]
    exact I.free
  · intro m hm
    simp only at hm ⊢
    rw [pinLess_apply]
    split
    · rename_i he
      subst he
      simp only [Function.update_self, Bool.and_eq_true, Bool.not_eq_true'] at hm
      by_contra h0
      rw [hlast (by omega) hm.1] at hm
      cases hm.2
    · rename_i he
      rw [Function.update_of_ne he] at hm
      exact I.held m hm
  · intro m g hg hdirty hun hst
    simp only at hg hdirty hun hst ⊢
    rw [htable] at hg
    rw [hdisk]
    by_cases hm : m = n
    · subst hm
      obtain rfl : f = g := Option.some.inj (hc.symm.trans hg)
      rw [hframe, if_pos rfl] at hdirty ⊢
      simp only [Bool.or_eq_false_iff] at hdirty
      obtain ⟨rfl, hd⟩ := hdirty
      simp only [Function.update_self, Bool.not_false, Bool.and_true] at hun
      refine I.clean m f hg hd hun ?_
      rintro hno
      simp [hno] at hst
    · rw [Function.update_of_ne hm] at hun
      rw [hstored m hm] at hst
      have hgf : g ≠ f := by
        rintro rfl
        rw [(I.inv.holds m g).mp hg] at hid
        exact hm (Option.some.inj hid)
      rw [hframe, if_neg hgf] at hdirty ⊢
      exact I.clean m g hg hdirty hun hst
  · intro m data hm hp
    simp only at hm hp ⊢
    rw [hview]
    by_cases he : m = n
    · subst he
      split at hm
      · rw [Function.update_self] at hm
        exact Option.some.inj hm
      · rename_i hno
        rw [hm] at hno
        simp at hno
    · rw [pinLess_apply, if_neg he] at hp
      rw [hstored m he] at hm
      exact I.stored m data hm hp
  · intro m g _ hg
    simp only
    rw [htable, hframe]
    refine ⟨hg, ?_⟩
    split
    · rename_i he
      subst he
      exact (hid.symm.trans ((I.inv.holds m g).mp hg))
    · exact (I.inv.holds m g).mp hg

/-- The end of a delete, over a pool in which the page is in no frame any more. -/
theorem FlatInv.deallocated (I : FlatInv s) {n : Nat} (h0 : n ≠ 0)
    (ha : Allocated s.pool.disk_manager n) (hpin : s.pins n = 0) {b : BufferPoolManager}
    (Ib : PoolInv b s.pins) (hdisk : b.disk_manager = s.pool.disk_manager)
    (hnone : b.page_table (some n) = none)
    (htable : ∀ m, m ≠ n → b.page_table (some m) = s.pool.page_table (some m))
    (hframe : ∀ m g, b.page_table (some m) = some g → b.frames g = s.pool.frames g) :
    ∃ b', b.deallocate (some n) = (.ok true, b') ∧
      FlatInv { s with pool := b', stored := Function.update s.stored n none } ∧
      KeepsPinned s { s with pool := b', stored := Function.update s.stored n none } := by
  have hret := returned_capacity s.pool.disk_manager n
  have hother : ∀ m g, b.page_table (some m) = some g → m ≠ n ∧ s.pool.page_table (some m) = some g := by
    intro m g hg
    have hm : m ≠ n := by
      rintro rfl
      rw [hnone] at hg
      cases hg
    exact ⟨hm, (htable m hm).symm.trans hg⟩
  unfold deallocate
  rw [deallocate_page_eq _ h0, hdisk]
  refine ⟨_, rfl, ⟨Ib.set_disk (by rw [hdisk, hret.1]), ?_, ?_, ?_, I.held, ?_, ?_⟩, ?_⟩
  · simp only
    unfold returned
    split <;> exact ⟨I.faults.pread, I.faults.pwrite⟩
  · simp only
    rcases hret.2.2 with h | h <;> rw [h]
    · exact I.free_nodup
    · exact List.nodup_cons.mpr ⟨ha.2, I.free_nodup⟩
  · intro p hp
    simp only at hp ⊢
    rw [hret.1]
    have hold : p ∈ s.pool.disk_manager.free_list ∨ p = some n := by
      rcases hret.2.2 with h | h <;> rw [h] at hp
      · exact Or.inl hp
      · exact (List.mem_cons.mp hp).symm
    rcases hold with hp | rfl
    · obtain ⟨m, rfl, hm, hc⟩ := I.free p hp
      have hne : m ≠ n := fun he => ha.2 (he ▸ hp)
      exact ⟨m, rfl, hm, by rw [htable m hne, hc]⟩
    · exact ⟨n, rfl, ha.1, hnone⟩
  · intro m g hg hdirty hun hst
    simp only at hg hdirty hst ⊢
    obtain ⟨hm, hg'⟩ := hother m g hg
    rw [Function.update_of_ne hm] at hst
    rw [hframe m g hg] at hdirty ⊢
    rw [hret.2.1]
    exact I.clean m g hg' hdirty hun hst
  · intro m data hm hp
    simp only at hm ⊢
    have hne : m ≠ n := by
      rintro rfl
      simp at hm
    rw [Function.update_of_ne hne] at hm
    rw [← I.stored m data hm hp]
    unfold view
    simp only
    rw [← htable m hne, hret.2.1]
    rcases hg : b.page_table (some m) with _ | g
    · rfl
    · simp only
      rw [hframe m g hg]
  · intro m g hpos hg
    simp only
    have hm : m ≠ n := by
      rintro rfl
      omega
    have hg' : b.page_table (some m) = some g := by rw [htable m hm, hg]
    refine ⟨hg', ?_⟩
    rw [hframe m g hg']
    exact (I.inv.holds m g).mp hg

theorem FlatInv.delete_page (I : FlatInv s) {n : Nat} (h0 : n ≠ 0)
    (ha : Allocated s.pool.disk_manager n) {t : FlatStore}
    (h : s.next (.delete_page n) = some t) : FlatInv t ∧ KeepsPinned s t := by
  unfold FlatStore.next BufferPoolManager.delete_page at h
  rcases hc : s.pool.page_table (some n) with _ | f
  · obtain ⟨b, hd, J, K⟩ := I.deallocated h0 ha (I.inv.absent n hc) I.inv rfl hc
      (fun _ _ => rfl) (fun _ _ _ => rfl)
    simp only [hc, hd] at h
    cases h
    exact ⟨J, K⟩
  · simp only [hc] at h
    by_cases hpos : (s.pool.frames f).pin_count > 0
    · rw [if_pos hpos] at h
      cases h
      exact ⟨I, keepsPinned_refl I⟩
    have hid := (I.inv.holds n f).mp hc
    have hpin : s.pins n = 0 := by
      rw [← I.inv.pin_count_eq hc]
      omega
    have htable : ∀ m, m ≠ n →
        (s.pool.drop_frame (some n) f).page_table (some m) = s.pool.page_table (some m) := by
      intro m hm
      show Function.update s.pool.page_table (some n) none (some m) = _
      rw [Function.update_of_ne (by simpa using hm)]
    have hnone : (s.pool.drop_frame (some n) f).page_table (some n) = none :=
      Function.update_self ..
    obtain ⟨b, hd, J, K⟩ := I.deallocated h0 ha hpin (I.inv.drop_frame hc hpin) rfl hnone htable (by
      intro m g hg
      have hm : m ≠ n := by
        rintro rfl
        rw [hnone] at hg
        cases hg
      rw [htable m hm] at hg
      have hgf : g ≠ f := by
        rintro rfl
        rw [(I.inv.holds m g).mp hg] at hid
        exact hm (Option.some.inj hid)
      show Function.update s.pool.frames f _ g = _
      rw [Function.update_of_ne hgf])
    rw [if_neg hpos, hd] at h
    cases h
    exact ⟨J, K⟩

/-- `flush_all` brings the file up to date with the frames that are dirty, and changes nothing
else. -/
theorem PoolInv.flushed {pins : Nat → Nat} (ids : List FrameID) {b : BufferPoolManager}
    (I : PoolInv b pins) (F : NoFaults b.disk_manager) : ∃ file,
      flush_frames ids b = (.ok (), { b with disk_manager := { b.disk_manager with file } }) ∧
      (∀ n, file n = b.disk_manager.file n ∨ ∃ f, b.page_table (some n) = some f ∧
        (b.frames f).is_dirty = true ∧ file n = (b.frames f).data) ∧
      ∀ n f, b.page_table (some n) = some f → f ∈ ids → (b.frames f).is_dirty = true →
        file n = (b.frames f).data := by
  induction ids generalizing b with
  | nil => exact ⟨b.disk_manager.file, rfl, fun n => Or.inl rfl, fun _ _ _ hf => by cases hf⟩
  | cons id rest ih =>
    unfold flush_frames
    split
    swap
    · rename_i hclean
      obtain ⟨file, h1, h2, h3⟩ := ih I F
      refine ⟨file, h1, h2, fun n f hc hf hd => h3 n f hc ?_ hd⟩
      rcases List.mem_cons.mp hf with rfl | hf
      · exact absurd hd hclean
      · exact hf
    rename_i hdirty
    rcases hid : (b.frames id).page_id with _ | n
    · rw [(I.empty id hid).2] at hdirty
      cases hdirty
    have hc := (I.holds n id).mpr hid
    have hlt := I.known n id hc
    have hflush : b.flush_page (b.frames id) = .ok { b with disk_manager := { b.disk_manager with
        file := Function.update b.disk_manager.file n (b.frames id).data } } := by
      unfold flush_page DiskManager.write_page
      rw [hid]
      simp only
      rw [if_neg (by omega), F.pwrite n]
      rfl
    rw [hflush]
    have hinv : PoolInv { b with disk_manager := { b.disk_manager with
        file := Function.update b.disk_manager.file n (b.frames id).data } } pins :=
      I.set_disk (Nat.le_refl _)
    obtain ⟨file, h1, h2, h3⟩ := ih hinv ⟨F.pread, F.pwrite⟩
    refine ⟨file, h1, fun m => ?_, fun m f hf hid' hd => ?_⟩
    · rcases h2 m with h | ⟨g, hg, hd, h⟩
      · simp only at h
        by_cases hm : m = n
        · subst hm
          rw [Function.update_self] at h
          exact Or.inr ⟨id, hc, hdirty, h⟩
        · rw [Function.update_of_ne hm] at h
          exact Or.inl h
      · exact Or.inr ⟨g, hg, hd, h⟩
    · rcases List.mem_cons.mp hid' with rfl | hrest
      swap
      · exact h3 m f hf hrest hd
      -- the frame may come again later on, with the same data
      have hmn : m = n := by
        rw [(I.holds m f).mp hf] at hid
        exact Option.some.inj hid
      subst hmn
      rcases h2 m with h | ⟨g, hg, _, h⟩
      · simp only at h
        rwa [Function.update_self] at h
      · obtain rfl : f = g := Option.some.inj (hf.symm.trans hg)
        exact h

theorem FlatInv.flush_all (I : FlatInv s) {t : FlatStore} (h : s.next .flush_all = some t) :
    FlatInv t ∧ KeepsPinned s t := by
  obtain ⟨file, hf, hfile, _⟩ := PoolInv.flushed (List.range s.pool.pool_size) I.inv I.faults
  unfold FlatStore.next BufferPoolManager.flush_all at h
  rw [hf] at h
  cases h
  refine ⟨⟨I.inv.set_disk (Nat.le_refl _), ⟨I.faults.pread, I.faults.pwrite⟩, I.free_nodup, I.free,
    I.held, ?_, ?_⟩, keepsPinned_refl I⟩
  · intro n f hc hd hun hst
    simp only at hc hd ⊢
    rcases hfile n with h | ⟨g, hg, hd', _⟩
    · rw [h]
      exact I.clean n f hc hd hun hst
    · obtain rfl : f = g := Option.some.inj (hc.symm.trans hg)
      rw [hd] at hd'
      cases hd'
  · intro n data hs hp
    have hv := I.stored n data hs hp
    unfold view at hv ⊢
    simp only
    rcases hc : s.pool.page_table (some n) with _ | g
    · rw [hc] at hv
      rcases hfile n with h | ⟨f, hf, _⟩
      · simp only
        rw [h]
        exact hv
      · rw [hc] at hf
        cases hf
    · rw [hc] at hv
      exact hv

/-- Every call of callers who keep to their pages keeps the store. -/
theorem flatInv_next (I : FlatInv s) {call : PoolCall} (h1 : CallersKeepPins s call)
    (h2 : DeletesAllocated s call) (h3 : KeepsMetadata s call) {t : FlatStore}
    (h : s.next call = some t) : FlatInv t ∧ KeepsPinned s t := by
  cases call with
  | new_page => exact I.new_page h
  | fetch_page n =>
    rcases I.fetch_page h1 with ⟨f, b, hf, J, K, _⟩ | hf
    · rw [FlatStore.next_fetch_page hf] at h
      cases h
      exact ⟨J, K⟩
    · rw [FlatStore.next_fetch_page_none hf] at h
      cases h
      exact ⟨I, keepsPinned_refl I⟩
  | write n data => exact I.write h1 h
  | unpin_page n dirty => exact I.unpin_page h1.1 h1.2 h
  | delete_page n => exact I.delete_page h3 h2 h
  | flush_all => exact I.flush_all h

end

/-! ## The law -/

/-- A fetch of a page that nobody has pinned and that was saved returns the bytes it had at its
last unpin, and no call moves a pinned page or gives its frame to another one. -/
def ReadsWhatWasSaved (ok : FlatStore → PoolCall → Prop) (s : FlatStore) : Prop :=
  (∀ n f b, ok s (.fetch_page n) → s.pool.fetch_page (some n) = (.ok (some f), b) →
    (b.frames f).page_id = some n ∧ b.page_table (some n) = some f ∧
      (s.pins n = 0 → ∀ data, s.stored n = some data → (b.frames f).data = data)) ∧
  ∀ call t, ok s call → flatMachine.next s call = some t → KeepsPinned s t

/-- The rules of the callers, with deletes of allocated pages only, and with less than 2^32 pins
on a page and less than 2^32 pages. -/
def CallersKeepPages (s : FlatStore) (call : PoolCall) : Prop :=
  CallersKeepPins s call ∧ DeletesAllocated s call ∧ KeepsMetadata s call ∧ FitsWords s call

theorem the_pool_is_a_flat_store (s : FlatStore) (h : flatMachine.Reach CallersKeepPages s) :
    ReadsWhatWasSaved CallersKeepPages s := by
  have I : FlatInv s := by
    apply h.invariant
    · exact fun s h0 => flatInv_start h0
    · intro s call t I hok hn
      exact (flatInv_next I hok.1 hok.2.1 hok.2.2.1 hn).1
  refine ⟨?_, fun call t hok hn => (flatInv_next I hok.1 hok.2.1 hok.2.2.1 hn).2⟩
  intro n f b hok hf
  rcases I.fetch_page hok.1 with ⟨g, b', hf', _, _, hdata, htable, hid⟩ | hf'
  · rw [hf] at hf'
    cases hf'
    refine ⟨hid, htable, fun hp data hs => ?_⟩
    rw [hdata]
    exact I.stored n data hs hp
  · rw [hf] at hf'
    cases hf'

/-! ## What goes wrong without the rules for deletes -/

instance (s : FlatStore) (call : PoolCall) : Decidable (CallersKeepPins s call) :=
  match call with
  | .fetch_page n => inferInstanceAs (Decidable (Allocated s.pool.disk_manager n))
  | .write n _ => inferInstanceAs (Decidable (0 < s.pins n))
  | .unpin_page n dirty => inferInstanceAs
      (Decidable (0 < s.pins n ∧ (s.pins n = 1 → s.unsaved n = true → dirty = true)))
  | .new_page => .isTrue trivial
  | .delete_page _ => .isTrue trivial
  | .flush_all => .isTrue trivial

instance (s : FlatStore) (call : PoolCall) : Decidable (DeletesAllocated s call) :=
  match call with
  | .delete_page n => inferInstanceAs (Decidable (Allocated s.pool.disk_manager n))
  | .new_page | .fetch_page _ | .write _ _ | .unpin_page _ _ | .flush_all => .isTrue trivial

instance (s : FlatStore) (call : PoolCall) : Decidable (KeepsMetadata s call) :=
  match call with
  | .delete_page n => inferInstanceAs (Decidable (n ≠ 0))
  | .new_page | .fetch_page _ | .write _ _ | .unpin_page _ _ | .flush_all => .isTrue trivial

instance (s : FlatStore) (call : PoolCall) : Decidable (FitsWords s call) :=
  match call with
  | .new_page => inferInstanceAs (Decidable
      (s.pool.disk_manager.free_list = [] → s.pool.disk_manager.capacity + 1 < 2 ^ 32))
  | .fetch_page n => inferInstanceAs (Decidable (s.pins n + 1 < 2 ^ 32))
  | .write _ _ | .unpin_page _ _ | .delete_page _ | .flush_all => .isTrue trivial

instance (s : FlatStore) (call : PoolCall) : Decidable (CallersKeepPages s call) :=
  inferInstanceAs (Decidable (_ ∧ _ ∧ _ ∧ _))

/-- A new disk, with the page of its header alone. -/
def new_disk : DiskManager := ⟨1, [], fun _ => zeroPage, fun _ => false, fun _ => false⟩

def new_pool (k : Nat) : FlatStore :=
  ⟨.make new_disk k, fun _ => 0, fun _ => false, fun _ => none⟩

theorem new_pool_starts (k : Nat) : flatMachine.start (new_pool k) :=
  ⟨new_disk, k, ⟨fun _ => rfl, fun _ => rfl⟩, List.nodup_nil, by simp [new_disk], rfl⟩

/-- The calls of a list that meets a condition reach a state. -/
theorem reach_of_calls {ok : FlatStore → PoolCall → Prop} [∀ s call, Decidable (ok s call)]
    {k : Nat} {calls : List PoolCall} {s : FlatStore}
    (h : flatMachine.execIf (fun s call => decide (ok s call)) (new_pool k) calls = some s) :
    flatMachine.Reach ok s :=
  (Machine.Reach.start (new_pool_starts k)).run
    (Machine.run_of_execIf (fun _ _ hc => of_decide_eq_true hc) h)

/-- A page whose header counts seven slots. -/
def sevenSlots : PageData := { zeroPage with header := ⟨none, 7, 0⟩ }

/-- A fetch of the header page finds no slots on it. -/
def finds_no_slots (s : FlatStore) : Bool :=
  match s.pool.fetch_page (some 0) with
  | (.ok (some f), b) => (b.frames f).data.header.slot_count == 0
  | _ => false

/-- A page that is deleted twice is given out twice. The two holders share one pin count, and
the frame of the second one is given away. The page of the disk header leaves its frame before
its delete is refused, and what was saved in it is lost. -/
theorem pages_that_are_deleted_twice_are_shared :
    ¬ (∀ s, flatMachine.Reach CallersKeepPins s → ReadsWhatWasSaved CallersKeepPins s) ∧
    ¬ (∀ s, flatMachine.Reach (fun s call => CallersKeepPins s call ∧ DeletesAllocated s call) s →
      ReadsWhatWasSaved (fun s call => CallersKeepPins s call ∧ DeletesAllocated s call) s) := by
  constructor
  · intro h
    obtain ⟨s, hs, hp⟩ : ∃ s, flatMachine.execIf (fun s call => decide (CallersKeepPins s call))
        (new_pool 2) [.new_page, .unpin_page 1 true, .delete_page 1, .delete_page 1, .new_page,
          .new_page, .unpin_page 1 false] = some s ∧
        (decide (0 < s.pins 1) && (s.pool.page_table (some 1) == some 1) &&
          (s.next .new_page).any fun t => t.pool.page_table (some 1) != some 1) = true := by
      apply Option.map_eq_some_iff.mp
      decide +kernel
    simp only [Bool.and_eq_true, decide_eq_true_eq, beq_iff_eq] at hp
    obtain ⟨⟨hpin, htable⟩, hgone⟩ := hp
    obtain ⟨t, ht, hne⟩ := (Option.any_eq_true _ _).mp hgone
    have hkeeps := (h s (reach_of_calls hs)).2 .new_page t trivial ht
    rw [(hkeeps 1 1 hpin htable).1] at hne
    cases hne
  · intro h
    obtain ⟨s, hs, hp⟩ : ∃ s, flatMachine.execIf
        (fun s call => decide (CallersKeepPins s call ∧ DeletesAllocated s call)) (new_pool 1)
        [.fetch_page 0, .write 0 sevenSlots, .unpin_page 0 true, .delete_page 0] = some s ∧
        (decide (Allocated s.pool.disk_manager 0) && decide (s.pins 0 = 0) &&
          ((s.stored 0).any fun d => d.header.slot_count == 7) &&
          finds_no_slots s) = true := by
      apply Option.map_eq_some_iff.mp
      decide +kernel
    simp only [Bool.and_eq_true, decide_eq_true_eq] at hp
    obtain ⟨⟨⟨ha, hpin⟩, hstored⟩, hf⟩ := hp
    obtain ⟨d, hd, h7⟩ := (Option.any_eq_true _ _).mp hstored
    unfold finds_no_slots at hf
    split at hf
    · rename_i f b hfetch
      have hdata := ((h s (reach_of_calls hs)).1 0 f b ⟨ha, trivial⟩ hfetch).2.2 hpin d hd
      rw [hdata, beq_iff_eq] at hf
      rw [beq_iff_eq, hf] at h7
      cases h7
    · cases hf

/-- In a pool of one frame a page is written, saved and evicted, and comes back as it was. -/
theorem an_evicted_page_reads_what_was_saved : ∃ s f b,
    flatMachine.execIf (fun s call => decide (CallersKeepPages s call)) (new_pool 1)
      [.new_page, .write 1 sevenSlots, .unpin_page 1 true, .new_page, .unpin_page 2 true] = some s ∧
    s.pool.fetch_page (some 1) = (.ok (some f), b) ∧ (b.frames f).data = sevenSlots := by
  obtain ⟨s, hs⟩ : ∃ s, flatMachine.execIf (fun s call => decide (CallersKeepPages s call))
      (new_pool 1) [.new_page, .write 1 sevenSlots, .unpin_page 1 true, .new_page,
        .unpin_page 2 true] = some s := ⟨_, rfl⟩
  obtain ⟨b, hb⟩ : ∃ b, s.pool.fetch_page (some 1) = (.ok (some 0), b) := by
    cases hs
    exact ⟨_, rfl⟩
  refine ⟨s, 0, b, hs, hb, ?_⟩
  refine ((the_pool_is_a_flat_store s (reach_of_calls hs)).1 1 0 b ?_ hb).2.2 ?_ sevenSlots ?_
  · cases hs
    decide
  · cases hs
    rfl
  · cases hs
    rfl

end duck.buffer_pool
