-- Threads that share the buffer pool. The lookup of a page and its way into a
-- frame are two sections under the latch, and other threads run in between.
import DuckDbms.PoolLaws
import DuckDbms.Lib.Machine

open machine duck.slotted_page duck.disk_manager

namespace duck.buffer_pool

open BufferPoolManager

/-- A call that left the first section of `fetch_page` without a page, or the first step of
`new_page` with an id, and has `swap_page` before it. -/
structure Pending where
  page_id : PageID
  read_from_disk : Bool

/-- The pool, the pins that the callers hold, and the call of each thread that is between
two sections. -/
structure SharedPool where
  pool : BufferPoolManager
  pins : PageID → Nat
  pending : Nat → Option Pending

inductive PoolEvent
  /-- `find_cached_page` of a `fetch_page` -/
  | find (thread : Nat) (page_id : PageID)
  /-- `allocate_page` of a `new_page` -/
  | allocate (thread : Nat)
  | swap (thread : Nat)
  | unpin (page_id : PageID) (dirty : Bool)
  | delete (page_id : PageID)

/-- The id was given out and not given back since. -/
def allocated (d : DiskManager) : PageID → Bool
  | some n => n < d.capacity && !d.free_list.contains (some n)
  | none => false

/-- The id was given out at some time. -/
def given_out (d : DiskManager) : PageID → Bool
  | some n => n < d.capacity
  | none => false

namespace SharedPool

variable (s : SharedPool)

def set_pins (page_id : PageID) (k : Nat) : SharedPool :=
  { s with pins := Function.update s.pins page_id k }

def set_pending (thread : Nat) (p : Option Pending) : SharedPool :=
  { s with pending := Function.update s.pending thread p }

/-- Callers fetch pages that are allocated, unpin what they pinned, and delete pages that
were given out. -/
def next : PoolEvent → Option SharedPool
  | .find thread page_id =>
    if s.pending thread = none ∧ allocated s.pool.disk_manager page_id then
      match s.pool.find_cached_page page_id with
      | (some _, pool) => some ({ s with pool }.set_pins page_id (s.pins page_id + 1))
      | (none, pool) => some ({ s with pool }.set_pending thread (some ⟨page_id, true⟩))
    else none
  | .allocate thread =>
    if s.pending thread = none then
      some ({ s with pool := s.pool.allocate_page.2 }.set_pending thread
        (some ⟨s.pool.allocate_page.1, false⟩))
    else none
  | .swap thread =>
    match s.pending thread with
    | none => none
    | some p =>
      match s.pool.swap_page p.page_id p.read_from_disk with
      | (.ok (some _), pool) =>
        some (({ s with pool }.set_pins p.page_id (s.pins p.page_id + 1)).set_pending thread none)
      | (_, pool) => some ({ s with pool }.set_pending thread none)
  | .unpin page_id dirty =>
    if 0 < s.pins page_id then
      some ({ s with pool := s.pool.unpin_page page_id dirty }.set_pins page_id
        (s.pins page_id - 1))
    else none
  | .delete page_id =>
    if given_out s.pool.disk_manager page_id then
      some { s with pool := (s.pool.delete_page page_id).2 }
    else none

end SharedPool

/-- A disk that works, with ids it gave out on its free list. -/
structure DiskOk (d : DiskManager) : Prop where
  faults : NoFaults d
  free : ∀ p ∈ d.free_list, given_out d p

/-- An empty pool of some capacity over a disk that works. -/
def poolMachine : Machine SharedPool PoolEvent where
  start s := ∃ d k, DiskOk d ∧ s = ⟨.make d k, fun _ => 0, fun _ => none⟩
  next := SharedPool.next

/-- When `swap_page` puts a page into a frame, no other frame holds that page. -/
def SwapsAlone (s : SharedPool) : PoolEvent → Prop
  | .swap thread => ∀ p, s.pending thread = some p → ∀ f, s.pool.find_next_frame.1 = some f →
      ∀ g, g ≠ f → (s.pool.frames g).page_id ≠ p.page_id
  | _ => True

/-- Page ids and pin counts are `std::uint32_t`. -/
def SectionsFitWords (s : SharedPool) : PoolEvent → Prop
  | .find _ page_id => s.pins page_id + 1 < 2 ^ 32
  | .allocate _ =>
    s.pool.disk_manager.free_list = [] → s.pool.disk_manager.capacity + 1 < 2 ^ 32
  | .swap thread => ∀ p, s.pending thread = some p → s.pins p.page_id + 1 < 2 ^ 32
  | .unpin _ _ | .delete _ => True

/-- What the threads keep: the pool agrees with the pins they hold, and the pages they are
about to bring in were given out. -/
structure SharedInv (s : SharedPool) : Prop where
  pool : PoolInv s.pool fun n => s.pins (some n)
  disk : DiskOk s.pool.disk_manager
  pending : ∀ t p, s.pending t = some p → given_out s.pool.disk_manager p.page_id

theorem given_out_iff {d : DiskManager} {p : PageID} :
    given_out d p = true ↔ ∃ n, p = some n ∧ n < d.capacity := by
  unfold given_out
  cases p <;> simp

theorem given_out_mono {d d' : DiskManager} {p : PageID} (h : d.capacity ≤ d'.capacity)
    (hp : given_out d p = true) : given_out d' p = true := by
  obtain ⟨n, rfl, hn⟩ := given_out_iff.mp hp
  exact given_out_iff.mpr ⟨n, rfl, by omega⟩

/-- The pins of the pages, when one of them changes. -/
theorem pins_update (pins : PageID → Nat) (n k : Nat) :
    (fun m => Function.update pins (some n) k (some m)) =
      Function.update (fun m => pins (some m)) n k := by
  funext m
  by_cases h : m = n
  · subst h
    simp
  · rw [Function.update_of_ne (by simpa using h), Function.update_of_ne h]

theorem SharedInv.set_pending {s : SharedPool} (I : SharedInv s) (t : Nat) {o : Option Pending}
    (h : ∀ p, o = some p → given_out s.pool.disk_manager p.page_id) :
    SharedInv (s.set_pending t o) := by
  refine ⟨I.pool, I.disk, ?_⟩
  intro u p hu
  change Function.update s.pending t o u = some p at hu
  by_cases hut : u = t
  · subst hut
    rw [Function.update_self] at hu
    exact h p hu
  · rw [Function.update_of_ne hut] at hu
    exact I.pending u p hu

theorem diskOk_allocate {d : DiskManager} (D : DiskOk d) :
    DiskOk d.allocate_page.2 ∧ given_out d.allocate_page.2 d.allocate_page.1 ∧
      d.capacity ≤ d.allocate_page.2.capacity := by
  have hfree := D.free
  unfold DiskManager.allocate_page
  split
  · rename_i p rest hp
    rw [hp] at hfree
    refine ⟨⟨⟨D.faults.pread, D.faults.pwrite⟩, fun q hq => hfree q (by simp [hq])⟩, ?_, Nat.le_refl _⟩
    exact hfree p (by simp)
  · rename_i hnil
    refine ⟨⟨⟨D.faults.pread, D.faults.pwrite⟩, ?_⟩, ?_, by simp⟩
    · intro q hq
      rw [hnil] at hq
      cases hq
    · exact given_out_iff.mpr ⟨_, rfl, by simp⟩

theorem diskOk_delete {b : BufferPoolManager} (D : DiskOk b.disk_manager) {n : Nat}
    (hn : n < b.disk_manager.capacity) : DiskOk (b.delete_page (some n)).2.disk_manager := by
  have hdealloc : ∀ b1 : BufferPoolManager, b1.disk_manager = b.disk_manager →
      DiskOk (b1.deallocate (some n)).2.disk_manager := by
    intro b1 h1
    unfold deallocate
    by_cases h0 : n = 0
    · subst h0
      show DiskOk b1.disk_manager
      rwa [h1]
    · rw [deallocate_page_eq _ h0, h1]
      unfold returned
      simp only
      split
      · exact D
      · refine ⟨⟨D.faults.pread, D.faults.pwrite⟩, ?_⟩
        intro p hp
        rcases List.mem_cons.mp hp with rfl | hp
        · exact given_out_iff.mpr ⟨n, rfl, hn⟩
        · exact D.free p hp
  unfold BufferPoolManager.delete_page
  rcases h : b.page_table (some n) with _ | f
  · exact hdealloc b rfl
  · simp only
    split
    · exact D
    · exact hdealloc _ rfl

theorem sharedInv_swap {s t : SharedPool} {thread : Nat} (I : SharedInv s)
    (hok : SwapsAlone s (.swap thread)) (h : s.next (.swap thread) = some t) : SharedInv t := by
  unfold SharedPool.next at h
  simp only at h
  rcases hp : s.pending thread with _ | p
  · rw [hp] at h
    cases h
  rw [hp] at h
  simp only at h
  obtain ⟨n, hid, hn⟩ := given_out_iff.mp (I.pending thread p hp)
  have alone := hok p hp
  rw [hid] at h alone
  rcases I.pool.swap_page I.disk.faults hn p.read_from_disk alone with ⟨f, b, hswap, S⟩ | ⟨hswap, _⟩
  · rw [hswap] at h
    obtain rfl := Option.some.inj h
    have hdisk : b.disk_manager = { s.pool.disk_manager with file := written s.pool f } := S.disk
    have J : SharedInv ({ s with pool := b }.set_pins (some n) (s.pins (some n) + 1)) := by
      refine ⟨?_, ?_, ?_⟩
      · show PoolInv b fun m => Function.update s.pins (some n) (s.pins (some n) + 1) (some m)
        rw [pins_update]
        exact S.inv
      · show DiskOk b.disk_manager
        rw [hdisk]
        exact ⟨⟨I.disk.faults.pread, I.disk.faults.pwrite⟩, I.disk.free⟩
      · intro u q hq
        show given_out b.disk_manager q.page_id
        rw [hdisk]
        exact I.pending u q hq
    exact J.set_pending thread (by simp)
  · rw [hswap] at h
    obtain rfl := Option.some.inj h
    exact I.set_pending thread (by simp)

/-- One step of any thread. -/
theorem sharedInv_next {s t : SharedPool} {e : PoolEvent} (I : SharedInv s) (hok : SwapsAlone s e)
    (h : s.next e = some t) : SharedInv t := by
  cases e with
  | find thread page_id =>
    unfold SharedPool.next at h
    simp only at h
    split at h
    swap
    · cases h
    rename_i hg
    obtain ⟨_, hall⟩ := hg
    obtain ⟨n, rfl, hn⟩ : ∃ n, page_id = some n ∧ n < s.pool.disk_manager.capacity := by
      unfold allocated at hall
      split at hall
      · exact ⟨_, rfl, by simp at hall; exact hall.1⟩
      · cases hall
    rcases I.pool.find_cached_page n with ⟨f, b, hfind, _, hinv, _, _, hdisk, _⟩ | ⟨hfind, _⟩
    · rw [hfind] at h
      obtain rfl := Option.some.inj h
      refine ⟨?_, ?_, ?_⟩
      · show PoolInv b fun m => Function.update s.pins (some n) (s.pins (some n) + 1) (some m)
        rw [pins_update]
        exact hinv
      · show DiskOk b.disk_manager
        rw [hdisk]
        exact I.disk
      · show ∀ u q, s.pending u = some q → given_out b.disk_manager q.page_id
        rw [hdisk]
        exact I.pending
    · rw [hfind] at h
      obtain rfl := Option.some.inj h
      refine I.set_pending thread ?_
      rintro p ⟨rfl⟩
      exact given_out_iff.mpr ⟨n, rfl, hn⟩
  | allocate thread =>
    unfold SharedPool.next at h
    simp only at h
    split at h
    swap
    · cases h
    obtain rfl := Option.some.inj h
    obtain ⟨hd, hout, hcap⟩ := diskOk_allocate I.disk
    have J : SharedInv { s with pool := s.pool.allocate_page.2 } :=
      ⟨I.pool.allocate_page, hd, fun u q hq => given_out_mono hcap (I.pending u q hq)⟩
    refine J.set_pending thread ?_
    rintro p ⟨rfl⟩
    exact hout
  | swap thread => exact sharedInv_swap I hok h
  | unpin page_id dirty =>
    unfold SharedPool.next at h
    simp only at h
    split at h
    swap
    · cases h
    rename_i hpos
    obtain rfl := Option.some.inj h
    rcases page_id with _ | n
    · -- nobody can hold `INVALID_PAGE_ID`: it is in no frame
      have hun : s.pool.unpin_page none dirty = s.pool := by
        unfold BufferPoolManager.unpin_page
        rw [show s.pool.page_table none = none from I.pool.table_invalid]
      rw [hun]
      refine ⟨?_, I.disk, I.pending⟩
      have : (fun m => Function.update s.pins none (s.pins none - 1) (some m)) =
          fun m => s.pins (some m) := by
        funext m
        rw [Function.update_of_ne (by simp)]
      show PoolInv s.pool fun m => Function.update s.pins none (s.pins none - 1) (some m)
      rw [this]
      exact I.pool
    · obtain ⟨f, _, heq, hinv⟩ := I.pool.unpin_page hpos dirty
      have hdisk : (s.pool.unpin_page (some n) dirty).disk_manager = s.pool.disk_manager := by
        rw [heq]
        rfl
      refine ⟨?_, ?_, ?_⟩
      · show PoolInv (s.pool.unpin_page (some n) dirty) fun m =>
          Function.update s.pins (some n) (s.pins (some n) - 1) (some m)
        rw [pins_update]
        exact hinv
      · show DiskOk (s.pool.unpin_page (some n) dirty).disk_manager
        rw [hdisk]
        exact I.disk
      · show ∀ u q, s.pending u = some q →
          given_out (s.pool.unpin_page (some n) dirty).disk_manager q.page_id
        rw [hdisk]
        exact I.pending
  | delete page_id =>
    unfold SharedPool.next at h
    simp only at h
    split at h
    swap
    · cases h
    rename_i hout
    obtain rfl := Option.some.inj h
    obtain ⟨n, rfl, hn⟩ := given_out_iff.mp hout
    obtain ⟨hinv, _, hcap⟩ := I.pool.delete_page n
    refine ⟨hinv, diskOk_delete I.disk hn, ?_⟩
    intro u q hq
    exact given_out_mono (Nat.le_of_eq hcap.symm) (I.pending u q hq)

theorem sharedInv_reach {s : SharedPool} (h : poolMachine.Reach SwapsAlone s) : SharedInv s := by
  refine h.invariant ?_ fun s e t I hok hn => sharedInv_next I hok hn
  rintro s ⟨d, k, hd, rfl⟩
  exact ⟨poolInv_make d k, hd, by simp⟩

/-- A page is in one frame at most, the page table knows which, and the pins of the frame
are those that callers still hold. -/
def PinsAndTableAgree (s : SharedPool) : Prop :=
  (∀ n f g, (s.pool.frames f).page_id = some n → (s.pool.frames g).page_id = some n → f = g) ∧
  (∀ n f, s.pool.page_table (some n) = some f ↔ (s.pool.frames f).page_id = some n) ∧
  (∀ n f, (s.pool.frames f).page_id = some n → (s.pool.frames f).pin_count = s.pins (some n)) ∧
  (∀ n, (∀ f, (s.pool.frames f).page_id ≠ some n) → s.pins (some n) = 0)

/-- As long as `swap_page` never brings in a page that another frame holds, and ids and pins fit
into their words, the page table, the frames and the pins agree. -/
theorem pages_swapped_in_alone_stay_in_one_frame {s : SharedPool}
    (h : poolMachine.Reach (fun s e => SwapsAlone s e ∧ SectionsFitWords s e) s) :
    PinsAndTableAgree s := by
  have I := (sharedInv_reach (h.mono fun _ _ hok => hok.1)).pool
  refine ⟨fun n f g hf hg => I.unique hf hg, I.holds, I.pinned, fun n hn => ?_⟩
  apply I.absent
  rcases hc : s.pool.page_table (some n) with _ | f
  · rfl
  · exact absurd ((I.holds n f).mp hc) (hn f)

/-- An empty pool with two frames, over a disk with two pages. -/
def twoFrames : SharedPool :=
  ⟨.make { capacity := 2, free_list := [], file := fun _ => zeroPage } 2, fun _ => 0, fun _ => none⟩

theorem twoFrames_start : poolMachine.start twoFrames :=
  ⟨_, 2, ⟨⟨fun _ => rfl, fun _ => rfl⟩, fun p hp => by cases hp⟩, rfl⟩

/-- One thread brings page 1 in, and another one finds it there. -/
theorem a_page_swapped_in_alone_is_found_again :
    ∃ s, poolMachine.exec twoFrames [.find 0 (some 1), .swap 0, .find 1 (some 1)] = some s ∧
      s.pins (some 1) = 2 ∧ PinsAndTableAgree s := by
  have h1 : poolMachine.Reach (fun s e => SwapsAlone s e ∧ SectionsFitWords s e)
      (twoFrames.set_pending 0 (some ⟨some 1, true⟩)) :=
    .step (e := .find 0 (some 1)) (.start twoFrames_start)
      ⟨trivial, show 0 + 1 < 2 ^ 32 by decide⟩ rfl
  have hswap : SwapsAlone (twoFrames.set_pending 0 (some ⟨some 1, true⟩)) (.swap 0) := by
    intro p hp f _ g _
    obtain rfl : ⟨some 1, true⟩ = p := Option.some.inj hp
    show (none : PageID) ≠ some 1
    simp
  have hfits : SectionsFitWords (twoFrames.set_pending 0 (some ⟨some 1, true⟩)) (.swap 0) := by
    intro p hp
    obtain rfl : ⟨some 1, true⟩ = p := Option.some.inj hp
    exact show 0 + 1 < 2 ^ 32 by decide
  exact ⟨_, rfl, rfl, pages_swapped_in_alone_stay_in_one_frame
    ((h1.step ⟨hswap, hfits⟩ rfl).step (e := .find 1 (some 1))
      ⟨trivial, show 1 + 1 < 2 ^ 32 by decide⟩ rfl)⟩

/-- Two threads miss page 1, and each brings it into a frame of its own. -/
theorem two_misses_put_a_page_into_two_frames :
    ¬ ∀ s, poolMachine.Reach always s → PinsAndTableAgree s := by
  intro h
  obtain ⟨s, hr, hs⟩ := Machine.run_of_exec_check (m := poolMachine) (s := twoFrames)
    (l := [.find 0 (some 1), .find 1 (some 1), .swap 0, .swap 1])
    (p := fun s => (s.pool.frames 0).page_id == some 1 && (s.pool.frames 1).page_id == some 1)
    (by decide)
  rw [Bool.and_eq_true, beq_iff_eq, beq_iff_eq] at hs
  have := (h s (Machine.Reach.run (.start twoFrames_start) hr)).1 1 0 1 hs.1 hs.2
  cases this

end duck.buffer_pool
