-- Threads that share the pool, with what is saved in its pages. The way of a
-- page into a frame is one step here, the read of its bytes included.
import DuckDbms.PoolRefinement
import DuckDbms.PoolInterleavings

open machine duck.slotted_page duck.disk_manager

namespace duck.buffer_pool

open BufferPoolManager

/-! ## Threads over the flat store -/

/-- The flat store, of less than 2^32 pins a page and 2^32 pages, and the call of each thread that
has `swap_page` before it. -/
structure ThreadStore where
  flat : FlatStore
  missed : Nat → Option Pending

/-- A section of a call that runs under the latch of the pool, or a write of a holder under
the latch of its page. -/
inductive PoolSection
  /-- `find_cached_page` of a `fetch_page` -/
  | find (thread page_id : Nat)
  /-- `allocate_page` of a `new_page` -/
  | allocate (thread : Nat)
  | swap (thread : Nat)
  | write (page_id : Nat) (data : PageData)
  | unpin (page_id : Nat) (dirty : Bool)
  | delete (page_id : Nat)
  | flush_all

namespace ThreadStore

variable (s : ThreadStore)

def set_missed (thread : Nat) (p : Option Pending) : ThreadStore :=
  { s with missed := Function.update s.missed thread p }

/-- What a thread knows after its `swap_page`. -/
def swapped (thread : Nat) (p : Pending) :
    Except String (Option FrameID) × BufferPoolManager → Option ThreadStore
  | (.ok (some _), pool) => p.page_id.map fun n => (⟨s.flat.brought pool n
      (if p.read_from_disk then s.flat.stored else Function.update s.flat.stored n none),
      s.missed⟩ : ThreadStore).set_missed thread none
  | (_, pool) => some (({ s with flat := { s.flat with pool } }).set_missed thread none)

def next : PoolSection → Option ThreadStore
  | .find thread n =>
    if s.missed thread = none then
      match s.flat.pool.find_cached_page (some n) with
      | (some _, pool) => some { s with flat := s.flat.brought pool n s.flat.stored }
      | (none, pool) => some (({ s with flat := { s.flat with pool } }).set_missed thread
          (some ⟨some n, true⟩))
    else none
  | .allocate thread =>
    if s.missed thread = none then
      some (({ s with flat := { s.flat with pool := s.flat.pool.allocate_page.2 } }).set_missed
        thread (some ⟨s.flat.pool.allocate_page.1, false⟩))
    else none
  | .swap thread => (s.missed thread).bind fun p =>
      s.swapped thread p (s.flat.pool.swap_page p.page_id p.read_from_disk)
  | .write n data => (s.flat.next (.write n data)).map fun flat => { s with flat }
  | .unpin n dirty => (s.flat.next (.unpin_page n dirty)).map fun flat => { s with flat }
  | .delete n => (s.flat.next (.delete_page n)).map fun flat => { s with flat }
  | .flush_all => (s.flat.next .flush_all).map fun flat => { s with flat }

end ThreadStore

/-- An empty pool over a disk that works, before any call. -/
def threadMachine : Machine ThreadStore PoolSection where
  start s := flatMachine.start s.flat ∧ s.missed = fun _ => none
  next := ThreadStore.next

/-- The rules of the callers, thread by thread. No page comes into a frame while another
frame holds it, and nobody deletes a page that a thread is about to bring in. -/
def ThreadsKeepPages (s : ThreadStore) : PoolSection → Prop
  | .find _ n => Allocated s.flat.pool.disk_manager n
  | .allocate _ => True
  | .swap thread => ∀ p, s.missed thread = some p → s.flat.pool.page_table p.page_id = none
  | .write n data => CallersKeepPages s.flat (.write n data)
  | .unpin n dirty => CallersKeepPages s.flat (.unpin_page n dirty)
  | .delete n => CallersKeepPages s.flat (.delete_page n) ∧
      ∀ t p, s.missed t = some p → p.page_id ≠ some n
  | .flush_all => True

/-- The pool stores what is saved, and the pages on their way into a frame are allocated. -/
structure ThreadInv (s : ThreadStore) : Prop where
  flat : FlatInv s.flat
  missed : ∀ t p, s.missed t = some p →
    ∃ n, p.page_id = some n ∧ Allocated s.flat.pool.disk_manager n

section
variable {s : ThreadStore}

theorem threadInv_start (h : threadMachine.start s) : ThreadInv s := by
  refine ⟨flatInv_start h.1, fun t p hp => ?_⟩
  rw [h.2] at hp
  cases hp

theorem ThreadInv.set_missed (I : ThreadInv s) (thread : Nat) {o : Option Pending}
    (h : ∀ p, o = some p → ∃ n, p.page_id = some n ∧ Allocated s.flat.pool.disk_manager n) :
    ThreadInv (s.set_missed thread o) := by
  refine ⟨I.flat, fun t p hp => ?_⟩
  change Function.update s.missed thread o t = some p at hp
  by_cases ht : t = thread
  · subst ht
    rw [Function.update_self] at hp
    exact h p hp
  · rw [Function.update_of_ne ht] at hp
    exact I.missed t p hp

/-- Another flat store over a disk with the pages that are on their way. -/
theorem ThreadInv.set_flat (I : ThreadInv s) {flat : FlatStore} (h : FlatInv flat)
    (ha : ∀ t p n, s.missed t = some p → p.page_id = some n →
      Allocated s.flat.pool.disk_manager n → Allocated flat.pool.disk_manager n) :
    ThreadInv { s with flat } := by
  refine ⟨h, fun t p hp => ?_⟩
  obtain ⟨n, hid, hn⟩ := I.missed t p hp
  exact ⟨n, hid, ha t p n hp hid hn⟩

/-! ## What one section keeps -/

/-- The id that the disk gives out was not in use, and is in no frame. -/
theorem FlatInv.allocate_page {s : FlatStore} (I : FlatInv s) :
    ∃ n, s.pool.allocate_page.1 = some n ∧
      GivenOut s.pool.disk_manager s.pool.allocate_page.2.disk_manager n ∧
      FlatInv { s with pool := s.pool.allocate_page.2 } := by
  have hf := I.faults
  have hnd := I.free_nodup
  unfold BufferPoolManager.allocate_page
  simp only
  rcases allocate_page_cases s.pool.disk_manager with ⟨p, rest, hfree, heq⟩ | ⟨hfree, heq⟩
  · rw [heq]
    rw [hfree, List.nodup_cons] at hnd
    obtain ⟨n, rfl, hn, hu⟩ := I.free p (by simp [hfree])
    refine ⟨n, rfl, ⟨fun h => h.2 (by simp [hfree]), hn, fun m => ?_, Nat.le_refl _,
      fun p hp => by simp [hfree, hp]⟩, ?_⟩
    · unfold Allocated
      simp only [hfree, List.mem_cons, Option.some.injEq, not_or]
      constructor
      · rintro ⟨h1, h2⟩
        by_cases hm : m = n
        · exact Or.inr hm
        · exact Or.inl ⟨h1, hm, h2⟩
      · rintro (⟨h1, _, h2⟩ | rfl)
        · exact ⟨h1, h2⟩
        · exact ⟨hn, hnd.1⟩
    · exact I.set_disk rfl ⟨hf.pread, hf.pwrite⟩ (Nat.le_refl _) hnd.2
        (fun p hp => by simp [hfree, hp])
  · rw [heq]
    refine ⟨_, rfl, ⟨fun h => ?_, by simp, fun m => ?_, by simp, fun p hp => hp⟩, ?_⟩
    · have := h.1
      omega
    · unfold Allocated
      simp only [hfree, List.not_mem_nil, not_false_eq_true, and_true]
      omega
    · exact I.set_disk rfl ⟨hf.pread, hf.pwrite⟩ (by simp) hnd (fun p hp => hp)

/-- What `find_cached_page` leaves when the page is in a frame. -/
theorem FlatInv.find_cached_page {s : FlatStore} (I : FlatInv s) {n f : Nat}
    {b : BufferPoolManager} (ha : Allocated s.pool.disk_manager n)
    (h : s.pool.find_cached_page (some n) = (some f, b)) :
    FlatInv (s.brought b n s.stored) ∧ KeepsPinned s (s.brought b n s.stored) ∧
      (b.frames f).data = view s.pool n ∧ b.page_table (some n) = some f ∧
      (b.frames f).page_id = some n := by
  have hfetch : s.pool.fetch_page (some n) = (.ok (some f), b) := by
    unfold BufferPoolManager.fetch_page
    rw [h]
  rcases I.fetch_page ha with ⟨g, b', hg, J, K, hdata, htable, hid⟩ | hg
  · rw [hfetch] at hg
    cases hg
    exact ⟨J, K, hdata, htable, hid⟩
  · rw [hfetch] at hg
    cases hg

/-- A section that gives a page to its thread, and the frame of the page. -/
def ThreadStore.gives (s : ThreadStore) : PoolSection → Option (FrameID × Nat)
  | .find _ n => (s.flat.pool.page_table (some n)).map fun f => (f, n)
  | .swap thread => (s.missed thread).bind fun p =>
      match s.flat.pool.swap_page p.page_id p.read_from_disk with
      | (.ok (some f), _) => p.page_id.map fun n => (f, n)
      | _ => none
  | .allocate _ | .write _ _ | .unpin _ _ | .delete _ | .flush_all => none

/-- The bytes of a page that comes to a thread: those at its last unpin, if it was saved and
nobody else holds it. -/
def GivesSaved (t : ThreadStore) (f : FrameID) (n : Nat) : Prop :=
  t.flat.pool.page_table (some n) = some f ∧ (t.flat.pool.frames f).page_id = some n ∧
    (t.flat.pins n = 1 → ∀ data, t.flat.stored n = some data →
      (t.flat.pool.frames f).data = data)

/-- What a section keeps, and what it gives. -/
structure Kept (s : ThreadStore) (e : PoolSection) (t : ThreadStore) : Prop where
  inv : ThreadInv t
  pinned : KeepsPinned s.flat t.flat
  gives : ∀ f n, s.gives e = some (f, n) → GivesSaved t f n

theorem ThreadInv.find (I : ThreadInv s) {thread n : Nat} {t : ThreadStore}
    (ha : Allocated s.flat.pool.disk_manager n) (h : s.next (.find thread n) = some t) :
    Kept s (.find thread n) t := by
  unfold ThreadStore.next at h
  simp only at h
  split at h
  swap
  · cases h
  rcases I.flat.inv.find_cached_page n with ⟨f, b, hfind, hc, _, _, _, hd, _⟩ | ⟨hfind, hu⟩
  · obtain ⟨J, K, hdata, htable, hid⟩ := I.flat.find_cached_page ha hfind
    rw [hfind] at h
    cases h
    refine ⟨I.set_flat J fun _ _ m _ _ hm => ?_, K, ?_⟩
    · show Allocated b.disk_manager m
      rwa [hd]
    · intro g m hg
      unfold ThreadStore.gives at hg
      simp only [hc, Option.map_some] at hg
      cases hg
      refine ⟨htable, hid, fun hp data hs => ?_⟩
      change pinMore s.flat.pins n n = 1 at hp
      rw [pinMore_apply, if_pos rfl] at hp
      exact hdata.trans (I.flat.stored n data hs (by omega))
  · rw [hfind] at h
    cases h
    refine ⟨I.set_missed thread ?_, keepsPinned_refl I.flat, ?_⟩
    · rintro p ⟨rfl⟩
      exact ⟨n, rfl, ha⟩
    · intro g m hg
      unfold ThreadStore.gives at hg
      simp only [hu] at hg
      cases hg

theorem ThreadInv.allocate (I : ThreadInv s) {thread : Nat} {t : ThreadStore}
    (h : s.next (.allocate thread) = some t) : Kept s (.allocate thread) t := by
  unfold ThreadStore.next at h
  simp only at h
  split at h
  swap
  · cases h
  cases h
  obtain ⟨n, hid, G, J⟩ := I.flat.allocate_page
  have I1 := I.set_flat J fun _ _ m _ _ hm => (G.allocated m).mpr (Or.inl hm)
  refine ⟨I1.set_missed thread ?_, keepsPinned_refl I.flat, fun f n h => by cases h⟩
  rintro p ⟨rfl⟩
  exact ⟨n, hid, (G.allocated n).mpr (Or.inr rfl)⟩

theorem ThreadInv.swap (I : ThreadInv s) {thread : Nat} {t : ThreadStore}
    (hok : ThreadsKeepPages s (.swap thread)) (h : s.next (.swap thread) = some t) :
    Kept s (.swap thread) t ∧ ∀ p f n, s.missed thread = some p → p.read_from_disk = false →
      s.gives (.swap thread) = some (f, n) → (t.flat.pool.frames f).data = zeroPage := by
  unfold ThreadStore.next at h
  simp only at h
  obtain ⟨p, hp, h⟩ := Option.bind_eq_some_iff.mp h
  obtain ⟨n, hid, ha⟩ := I.missed thread p hp
  have hu := hok p hp
  rw [hid] at hu h
  rcases I.flat.inv.swap_page I.flat.faults ha.1 p.read_from_disk
      (alone_of_uncached I.flat.inv hu) with ⟨f, b, hswap, W⟩ | ⟨hswap, _⟩
  · obtain ⟨J, K, hdata, htable, hpage⟩ := I.flat.swapped W hu ha.2 rfl
    rw [hswap] at h
    unfold ThreadStore.swapped at h
    simp only [hid, Option.map_some, Option.some.injEq] at h
    subst h
    have hgives : ∀ g m, s.gives (.swap thread) = some (g, m) → g = f ∧ m = n := by
      intro g m hg
      unfold ThreadStore.gives at hg
      simp only [hp, Option.bind_some, hid, hswap, Option.map_some] at hg
      cases hg
      exact ⟨rfl, rfl⟩
    refine ⟨⟨(I.set_flat J fun _ _ m _ _ hm => ?_).set_missed thread (by simp), K, ?_⟩, ?_⟩
    · show Allocated b.disk_manager m
      rw [W.disk]
      exact hm
    · intro g m hg
      obtain ⟨rfl, rfl⟩ := hgives g m hg
      refine ⟨htable, hpage, fun _ data hs => ?_⟩
      rcases hrd : p.read_from_disk with _ | _
      · change (if p.read_from_disk then s.flat.stored
          else Function.update s.flat.stored m none) m = some data at hs
        rw [hrd] at hs
        simp at hs
      · change (if p.read_from_disk then s.flat.stored
          else Function.update s.flat.stored m none) m = some data at hs
        rw [hrd, if_pos rfl] at hs
        exact (hdata hrd).trans (I.flat.stored m data hs W.fresh)
    · intro q g m hq hrd hg
      rw [hp] at hq
      cases hq
      obtain ⟨rfl, rfl⟩ := hgives g m hg
      show (b.frames g).data = zeroPage
      rw [W.frames, Function.update_self, hrd]
      rfl
  · rw [hswap] at h
    cases h
    have hno : ∀ g m, s.gives (.swap thread) ≠ some (g, m) := by
      intro g m hg
      unfold ThreadStore.gives at hg
      simp only [hp, Option.bind_some, hid, hswap] at hg
      cases hg
    exact ⟨⟨I.set_missed thread (by simp), keepsPinned_refl I.flat,
      fun g m hg => absurd hg (hno g m)⟩, fun _ g m _ _ hg => absurd hg (hno g m)⟩

/-- The calls that are one section do what they do for one thread. -/
theorem ThreadInv.call (I : ThreadInv s) {call : PoolCall} {flat : FlatStore}
    (hok : CallersKeepPages s.flat call) (h : s.flat.next call = some flat)
    (ha : ∀ t p n, s.missed t = some p → p.page_id = some n →
      Allocated s.flat.pool.disk_manager n → Allocated flat.pool.disk_manager n) :
    ThreadInv { s with flat } ∧ KeepsPinned s.flat flat := by
  obtain ⟨J, K⟩ := flatInv_next I.flat hok.1 hok.2.1 hok.2.2.1 h
  exact ⟨I.set_flat J ha, K⟩

theorem disk_unpin_page {b : BufferPoolManager} (p : PageID) (dirty : Bool) :
    (b.unpin_page p dirty).disk_manager = b.disk_manager := capacity_unpin_page b p dirty

/-- A page that is not the one that is deleted stays allocated. -/
theorem Allocated.delete_page {b : BufferPoolManager} {n m : Nat} (h0 : n ≠ 0) (hm : m ≠ n)
    (h : Allocated b.disk_manager m) :
    Allocated (b.delete_page (some n)).2.disk_manager m := by
  have hret := returned_capacity b.disk_manager n
  have hdealloc : ∀ b1 : BufferPoolManager, b1.disk_manager = b.disk_manager →
      Allocated (b1.deallocate (some n)).2.disk_manager m := by
    intro b1 h1
    unfold deallocate
    rw [deallocate_page_eq _ h0, h1]
    refine ⟨Nat.lt_of_lt_of_le h.1 (Nat.le_of_eq hret.1.symm), fun hmem => ?_⟩
    simp only at hmem
    rcases hret.2.2 with he | he <;> rw [he] at hmem
    · exact h.2 hmem
    · rcases List.mem_cons.mp hmem with he | hmem
      · exact hm (Option.some.inj he)
      · exact h.2 hmem
  unfold BufferPoolManager.delete_page
  split
  · split
    · exact h
    · exact hdealloc _ rfl
  · exact hdealloc b rfl

/-- Every section of a thread that keeps to the rules. -/
theorem threadInv_next (I : ThreadInv s) {e : PoolSection} (hok : ThreadsKeepPages s e)
    {t : ThreadStore} (h : s.next e = some t) : Kept s e t := by
  cases e with
  | find thread n => exact I.find hok h
  | allocate thread => exact I.allocate h
  | swap thread => exact (I.swap hok h).1
  | write n data =>
    obtain ⟨flat, hn, rfl⟩ := Option.map_eq_some_iff.mp h
    obtain ⟨J, K⟩ := I.call hok hn fun _ _ m _ _ hm => by
      obtain ⟨f, _, rfl⟩ := Option.map_eq_some_iff.mp hn
      exact hm
    exact ⟨J, K, fun f n h => by cases h⟩
  | unpin n dirty =>
    change (s.flat.next (.unpin_page n dirty)).map (fun flat => { s with flat }) = some t at h
    obtain ⟨flat, hn, rfl⟩ := Option.map_eq_some_iff.mp h
    obtain ⟨J, K⟩ := I.call hok hn fun _ _ m _ _ hm => by
      cases hn
      show Allocated (s.flat.pool.unpin_page (some n) dirty).disk_manager m
      rwa [disk_unpin_page]
    exact ⟨J, K, fun f n h => by cases h⟩
  | delete n =>
    obtain ⟨flat, hn, rfl⟩ := Option.map_eq_some_iff.mp h
    obtain ⟨J, K⟩ := I.call hok.1 hn fun t p m hp hid hm => by
      rw [(FlatStore.next_delete_page hn).1]
      refine hm.delete_page hok.1.2.2.1 ?_
      rintro rfl
      exact hok.2 t p hp hid
    exact ⟨J, K, fun f n h => by cases h⟩
  | flush_all =>
    change (s.flat.next .flush_all).map (fun flat => { s with flat }) = some t at h
    obtain ⟨flat, hn, rfl⟩ := Option.map_eq_some_iff.mp h
    have hcall : CallersKeepPages s.flat .flush_all := ⟨trivial, trivial, trivial, trivial⟩
    obtain ⟨J, K⟩ := I.call hcall hn fun _ _ m _ _ hm => by
      obtain ⟨file, hf, _⟩ := PoolInv.flushed (List.range s.flat.pool.pool_size) I.flat.inv
        I.flat.faults
      unfold FlatStore.next BufferPoolManager.flush_all at hn
      rw [hf] at hn
      cases hn
      exact hm
    exact ⟨J, K, fun f n h => by cases h⟩

end

end duck.buffer_pool
