-- Heap calls with evictions between them. A page that was changed reaches the
-- file when it is evicted, as long as every restore finds its page dirty.
import DuckDbms.HeapLaws
import DuckDbms.Lib.Machine

open machine duck.slotted_page duck.disk_manager duck.buffer_pool chain

namespace duck.table_heap

/-- The pool, and the pins of its other users, page by page. The counts are those of the code as
long as a page has less than 2^32 pins and the disk less than 2^32 pages. -/
structure HeapPool where
  pool : BufferPoolManager
  outside : Nat → Nat

inductive HeapEvent
  | insert (first_page_id : Nat) (tuple : List UInt8)
  | update (first_page_id : Nat) (rid : RID) (tuple : List UInt8)
  | delete (rid : RID)
  | restore (rid : RID) (tuple : List UInt8)
  /-- another user brings a page in, and another page may make way for it -/
  | fetch (page_id : Nat)
  | unpin (page_id : Nat)

/-- An assertion that fails has no next state. -/
def HeapPool.next (s : HeapPool) : HeapEvent → Option HeapPool
  | .insert first_page_id tuple =>
    (insert_tuple s.pool (some first_page_id) tuple).map fun r => { s with pool := r.2 }
  | .update first_page_id rid tuple =>
    (update_tuple s.pool (some first_page_id) rid tuple).map fun r => { s with pool := r.2 }
  | .delete rid => some { s with pool := (delete_tuple s.pool rid).2 }
  | .restore rid tuple =>
    (restore_tuple s.pool rid tuple).map fun r => { s with pool := r.2 }
  | .fetch n =>
    if Allocated s.pool.disk_manager n then
      match s.pool.fetch_page (some n) with
      | (.ok (some _), b) => some ⟨b, pinMore s.outside n⟩
      | (_, b) => some { s with pool := b }
    else none
  | .unpin n =>
    if 0 < s.outside n then some ⟨s.pool.unpin_page (some n) false, pinLess s.outside n⟩ else none

def evictionMachine (heads : Nat → Prop) : Machine HeapPool HeapEvent where
  start s := HeapState True s.outside (fun _ => False) heads s.pool
  next := HeapPool.next

/-- RIDs are on pages of the heaps, and the sizes of tuples fit into a slot. -/
def OnHeaps (heads : Nat → Prop) (s : HeapPool) : HeapEvent → Prop
  | .insert h _ => heads h
  | .update h rid tuple => heads h ∧
      (∃ n, rid.page_id = some n ∧ OnChain (succ s.pool) heads n) ∧ tuple.length < 65536
  | .delete rid => ∃ n, rid.page_id = some n ∧ OnChain (succ s.pool) heads n
  | .restore rid tuple =>
      (∃ n, rid.page_id = some n ∧ OnChain (succ s.pool) heads n) ∧ tuple.length < 65536
  | .fetch _ | .unpin _ => True

/-- A restore runs on a page that is cached and dirty. -/
def RestoresDirty (s : HeapPool) : HeapEvent → Prop
  | .restore rid _ => ∃ f, s.pool.page_table rid.page_id = some f ∧
      (s.pool.frames f).is_dirty = true
  | _ => True

/-- A page in a frame that is not dirty and that nobody has pinned says what its image in the
file says, and bringing a page in changes the rows of no page. -/
def EvictionsKeepRows (s : HeapPool) : Prop :=
  (∀ n f, s.pool.page_table (some n) = some f → (s.pool.frames f).is_dirty = false →
    (s.pool.frames f).pin_count = 0 →
    rowsOf (s.pool.frames f).data = rowsOf (s.pool.disk_manager.file n)) ∧
  ∀ q t, s.next (.fetch q) = some t → ∀ n, rowsOf (view t.pool n) = rowsOf (view s.pool n)

section
variable {heads : Nat → Prop} {s t : HeapPool}

/-- The pool brings a page in for another user, if it has a frame. -/
theorem evict_fetch {evicts : Prop} (H : HeapState evicts s.outside (fun _ => False) heads s.pool)
    {q : Nat} (h : s.next (.fetch q) = some t) :
    HeapState evicts t.outside (fun _ => False) heads t.pool ∧
      contents t.pool = contents s.pool := by
  unfold HeapPool.next at h
  simp only at h
  split at h
  swap
  · cases h
  rename_i ha
  rcases H.store.fetch_page ha with ⟨f, b', hf, B, hc⟩ | ⟨hf, _⟩
  · rw [hf] at h
    cases h
    exact ⟨H.same_contents B.store hc (allocated_congr B.disk), hc⟩
  · rw [hf] at h
    cases h
    exact ⟨H, rfl⟩

theorem evict_unpin {evicts : Prop} (H : HeapState evicts s.outside (fun _ => False) heads s.pool)
    {q : Nat} (h : s.next (.unpin q) = some t) :
    HeapState evicts t.outside (fun _ => False) heads t.pool ∧
      contents t.pool = contents s.pool := by
  unfold HeapPool.next at h
  simp only at h
  split at h
  swap
  · cases h
  rename_i hpos
  cases h
  obtain ⟨S, hc, _, hd, _⟩ := H.store.unpin_page (fun _ => False) hpos false (fun m => id)
    (fun m hm => hm.elim) fun hm => hm.elim
  refine ⟨H.same_contents S hc fun n => ?_, hc⟩
  rw [hd]
  exact id

/-- One call of a heap, or of another user of the pool. -/
theorem evict_next {e : HeapEvent} (H : HeapState True s.outside (fun _ => False) heads s.pool)
    (hok : OnHeaps heads s e ∧ RestoresDirty s e) (h : s.next e = some t) :
    HeapState True t.outside (fun _ => False) heads t.pool := by
  obtain ⟨hon, hdirty⟩ := hok
  cases e with
  | insert first_page_id tuple =>
    obtain ⟨⟨r, b'⟩, hr, rfl⟩ := Option.map_eq_some_iff.mp h
    exact (H.insert_tuple hon hr fun he => absurd trivial he).1.heap
  | update first_page_id rid tuple =>
    obtain ⟨p, slot⟩ := rid
    obtain ⟨hh, ⟨n, rfl, hn⟩, ht⟩ := hon
    obtain ⟨⟨r, b'⟩, hr, rfl⟩ := Option.map_eq_some_iff.mp h
    exact (H.update_tuple hh hn ht hr fun he => absurd trivial he).1.heap
  | delete rid =>
    obtain ⟨p, slot⟩ := rid
    obtain ⟨n, rfl, hn⟩ := hon
    cases h
    rcases H.delete_tuple hn slot with ⟨b', hd, R, _⟩ | ⟨hd, _⟩
    · simp only [hd]
      exact R.heap
    · simp only [hd]
      exact H
  | restore rid tuple =>
    obtain ⟨p, slot⟩ := rid
    obtain ⟨⟨n, rfl, hn⟩, ht⟩ := hon
    obtain ⟨⟨r, b'⟩, hr, rfl⟩ := Option.map_eq_some_iff.mp h
    rcases H.restore_tuple hn slot ht fun _ => hdirty with
      ⟨b1, h1, _, R, _⟩ | ⟨h1, _⟩ | ⟨h1, _⟩
    · rw [hr] at h1
      cases h1
      exact R.heap
    · rw [hr] at h1
      cases h1
    · rw [hr] at h1
      cases h1
      exact H
  | fetch q => exact (evict_fetch H h).1
  | unpin q => exact (evict_unpin H h).1

theorem evict_reach
    (h : (evictionMachine heads).Reach (fun s e => OnHeaps heads s e ∧ RestoresDirty s e) s) :
    HeapState True s.outside (fun _ => False) heads s.pool :=
  h.invariant (fun _ hs => hs) fun _ _ _ H hok hn => evict_next H hok hn

/-- As long as every restore finds its page dirty in a frame, evictions lose nothing. -/
theorem evictions_keep_rows_when_restores_find_dirty_pages
    (h : (evictionMachine heads).Reach (fun s e => OnHeaps heads s e ∧ RestoresDirty s e) s) :
    EvictionsKeepRows s := by
  have H := evict_reach h
  refine ⟨fun n f hc hd _ => ?_, fun q t hn n => ?_⟩
  · exact congrArg Meaning.rows (H.store.clean trivial n f hc hd id)
  · have := congrFun (evict_fetch H hn).2 n
    exact congrArg Meaning.rows this

end

/-- Three heaps of one page each in a pool of two frames. -/
def three_heaps : HeapPool :=
  ⟨(create (create (create (empty_pool 2)).2).2).2, fun _ => 0⟩

theorem three_heaps_start : (evictionMachine (· ∈ [1, 2, 3])).start three_heaps := by
  have h1 : (create (empty_pool 2)).1 = .ok (some 1) := by rfl
  have h2 : (create (create (empty_pool 2)).2).1 = .ok (some 2) := by rfl
  have h3 : (create (create (create (empty_pool 2)).2).2).1 = .ok (some 3) := by rfl
  obtain ⟨H1, _⟩ := (heapState_empty_pool 2).created (fun h => absurd trivial h) h1
  obtain ⟨H2, _⟩ := H1.created (fun h => absurd trivial h) h2
  obtain ⟨H3, _⟩ := H2.created (fun h => absurd trivial h) h3
  have hheads : (· ∈ [1, 2, 3]) = fun h : Nat => ((False ∨ h = 1) ∨ h = 2) ∨ h = 3 := by
    funext h
    simp [or_assoc]
  show HeapState True _ _ (· ∈ [1, 2, 3]) _
  rw [hheads]
  exact H3

/-- The RID is on the first page of a heap, and a restore finds its page dirty. -/
def on_first_pages (heads : List Nat) (s : HeapPool) : HeapEvent → Bool
  | .insert h _ => h ∈ heads
  | .update h rid tuple =>
    h ∈ heads && heads.any (rid.page_id == some ·) && decide (tuple.length < 65536)
  | .delete rid => heads.any (rid.page_id == some ·)
  | .restore rid tuple => heads.any (rid.page_id == some ·) && decide (tuple.length < 65536) &&
      (s.pool.page_table rid.page_id).any fun f => (s.pool.frames f).is_dirty
  | .fetch _ | .unpin _ => true

theorem onHeaps_of_check (heads : List Nat) (s : HeapPool) (e : HeapEvent)
    (H : HeapState True s.outside (fun _ => False) (· ∈ heads) s.pool)
    (h : on_first_pages heads s e = true) : OnHeaps (· ∈ heads) s e ∧ RestoresDirty s e := by
  have hpage : ∀ p : PageID, heads.any (p == some ·) = true →
      ∃ n, p = some n ∧ OnChain (succ s.pool) (· ∈ heads) n := by
    intro p hp
    obtain ⟨n, hn, he⟩ := List.any_eq_true.mp hp
    exact ⟨n, by simpa using he, n, hn, H.forest.onPath_head hn⟩
  cases e with
  | insert h' tuple =>
    have hh : h' ∈ heads := of_decide_eq_true h
    exact ⟨hh, trivial⟩
  | update h' rid tuple =>
    simp only [on_first_pages, Bool.and_eq_true, decide_eq_true_eq] at h
    exact ⟨⟨h.1.1, hpage _ h.1.2, h.2⟩, trivial⟩
  | delete rid => exact ⟨hpage _ h, trivial⟩
  | restore rid tuple =>
    simp only [on_first_pages, Bool.and_eq_true, decide_eq_true_eq, Option.any_eq_true] at h
    exact ⟨⟨hpage _ h.1.1, h.1.2⟩, h.2⟩
  | fetch | unpin => exact ⟨trivial, trivial⟩

/-- A tuple that was deleted is put back while its page is still in its frame, and stays when
the page has been evicted and read again. -/
theorem a_tuple_restored_on_a_dirty_page_stays :
    ∃ s : HeapPool, tupleOf (rowsOf (view s.pool 1)) 0 = some [7] ∧ s.pool.page_table (some 1) = none ∧
      EvictionsKeepRows s := by
  obtain ⟨s, hs, hp⟩ : ∃ s, (evictionMachine (· ∈ [1, 2, 3])).execIf (on_first_pages [1, 2, 3])
      three_heaps [.insert 1 [7], .delete ⟨some 1, 0⟩, .restore ⟨some 1, 0⟩ [7], .fetch 2,
        .fetch 3] = some s ∧
      (tupleOf (rowsOf (view s.pool 1)) 0 == some [7] && (s.pool.page_table (some 1)).isNone) =
        true := by
    apply Option.map_eq_some_iff.mp
    decide +kernel
  rw [Bool.and_eq_true, beq_iff_eq, Option.isNone_iff_eq_none] at hp
  exact ⟨s, hp.1, hp.2, evictions_keep_rows_when_restores_find_dirty_pages
    (Machine.Reach.execIf (fun _ => evict_reach) (onHeaps_of_check _) (.start three_heaps_start) hs)⟩

/-- The page of a deleted tuple is written to the file and leaves its frame. The tuple is put
back on the page that is read again, and nothing says that this page is dirty. -/
theorem a_restore_leaves_its_page_clean :
    ¬ ∀ (heads : Nat → Prop) (s : HeapPool),
      (evictionMachine heads).Reach (OnHeaps heads) s → EvictionsKeepRows s := by
  intro h
  obtain ⟨s, hs, hp⟩ : ∃ s, (evictionMachine (· ∈ [1, 2, 3])).execIf (on_first_pages [1, 2, 3])
      three_heaps [.insert 1 [7], .delete ⟨some 1, 0⟩, .fetch 2, .fetch 3, .unpin 2] = some s ∧
      ((s.next (.restore ⟨some 1, 0⟩ [7])).any fun t => (t.pool.page_table (some 1)).any fun f =>
        !(t.pool.frames f).is_dirty && (t.pool.frames f).pin_count == 0 &&
          rowsOf (t.pool.frames f).data != rowsOf (t.pool.disk_manager.file 1)) = true := by
    apply Option.map_eq_some_iff.mp
    decide +kernel
  have hr := Machine.Reach.execIf (fun _ => evict_reach) (onHeaps_of_check _)
    (.start three_heaps_start) hs
  have H := evict_reach hr
  obtain ⟨t, ht, hp⟩ := Option.any_eq_true _ _ |>.mp hp
  obtain ⟨f, hf, hp⟩ := Option.any_eq_true _ _ |>.mp hp
  simp only [Bool.and_eq_true, Bool.not_eq_true', beq_iff_eq, bne_iff_ne] at hp
  obtain ⟨⟨hclean, hpin⟩, hne⟩ := hp
  have hok : OnHeaps (· ∈ [1, 2, 3]) s (.restore ⟨some 1, 0⟩ [7]) :=
    ⟨⟨1, rfl, 1, by simp, H.forest.onPath_head (by simp)⟩, by decide⟩
  exact hne ((h _ t ((hr.mono fun _ _ h => h.1).step hok ht)).1 1 f hf hclean hpin)

end duck.table_heap
