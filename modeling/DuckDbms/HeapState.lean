-- The heaps in a pool: chains of slotted pages that end, that have no page in
-- common, and that are all in use. A new heap starts as one empty page.
import DuckDbms.TableHeap
import DuckDbms.PoolStore
import DuckDbms.Lib.Chains

open duck.slotted_page duck.disk_manager duck.buffer_pool chain

namespace duck.table_heap

/-! ## A tuple on a page -/

/-- A page without tuples, as `init` leaves it. -/
def emptyMeaning : Meaning := ⟨True, [], none⟩

theorem meaning_init (d : PageData) : meaning (init d) = emptyMeaning := by
  unfold meaning emptyMeaning
  rw [eq_true (good_init d)]
  rfl

/-- What `insert_tuple` asks of a page: room in its free space, or room in the free space that
its compaction would leave. A tuple needs a directory entry too when no slot is free. -/
def HasRoom (d : PageData) (n : Nat) : Prop :=
  (need (rowsOf d) n : Int) ≤ free_space_bytes d ∨
    (is_compacted d = false ∧ (need (rowsOf d) n : Int) ≤ free_space_bytes (compact d))

theorem try_insert_spec {d : PageData} {t : List UInt8} (g : Good d) (ht : t.length < 65536) :
    (∃ i, (try_insert d t).1 = some i ∧ MayTake (rowsOf d) i ∧ HasRoom d t.length ∧
      meaning (try_insert d t).2 = ⟨True, place (rowsOf d) i t, d.header.next_page_id⟩) ∨
    ((try_insert d t).1 = none ∧ ¬ HasRoom d t.length ∧
      meaning (try_insert d t).2 = meaning d) := by
  unfold try_insert
  rcases insert_tuple_spec g ht none with ⟨i, h1, h2, h3, h4, h5, h6⟩ | ⟨h1, h2⟩
  · left
    generalize slotted_page.insert_tuple d t none = r at *
    obtain ⟨o, d'⟩ := r
    simp only at h1 h2 h3 h4
    subst h1
    refine ⟨i, rfl, h5, Or.inl h6, ?_⟩
    unfold meaning
    rw [eq_true h2, h3, h4]
  · rw [h1]
    simp only
    by_cases hc : is_compacted d = true
    · right
      rw [if_pos hc]
      refine ⟨rfl, ?_, rfl⟩
      unfold HasRoom
      rw [hc]
      rintro (h | ⟨h, _⟩)
      · omega
      · cases h
    · rw [if_neg hc]
      obtain ⟨c1, c2, c3⟩ := compact_spec g
      have hf : is_compacted d = false := by simpa using hc
      rcases insert_tuple_spec c1 ht none with ⟨i, k1, k2, k3, k4, k5, k6⟩ | ⟨k1, k2⟩
      · left
        rw [c2] at k3 k5 k6
        refine ⟨i, k1, k5, Or.inr ⟨hf, k6⟩, ?_⟩
        unfold meaning
        rw [eq_true k2, k3, k4, c3]
      · right
        rw [k1]
        rw [c2] at k2
        refine ⟨rfl, ?_, ?_⟩
        · rintro (h | ⟨_, h⟩) <;> omega
        · unfold meaning
          rw [eq_true c1, eq_true g, c2, c3]

/-- An empty page has room for every tuple that `insert_tuple` lets through. -/
theorem hasRoom_empty {d : PageData} {n : Nat} (h : meaning d = emptyMeaning) (hn : n ≤ 8180) :
    HasRoom d n := by
  have hrows : rowsOf d = [] := congrArg Meaning.rows h
  have g : Good d := (congrArg Meaning.good h).mpr trivial
  have hcount : d.header.slot_count = 0 := by rw [← length_rowsOf, hrows]; rfl
  left
  unfold need free_space_bytes
  rw [hrows, hcount, g.unused hcount, if_pos (by intro r hr; cases hr)]
  unfold kPAGE_SIZE sizeofPageHeader sizeofSlot
  omega

/-! ## The chains of the heaps -/

/-- The page that a page links to. -/
def succ (b : BufferPoolManager) (n : Nat) : Option Nat := (contents b n).next

/-- A pool with the heaps whose first pages are `heads`: their chains end, have no page in
common, and all their pages are slotted pages that are in use. -/
structure HeapState (evicts : Prop) (pins : Nat → Nat) (pending heads : Nat → Prop)
    (b : BufferPoolManager) : Prop where
  store : Store evicts pins pending b
  forest : Forest (succ b) heads
  pages : ∀ n, OnChain (succ b) heads n → (contents b n).good ∧ Allocated b.disk_manager n
  metadata : Allocated b.disk_manager 0

section
variable {evicts : Prop} {pins pins' : Nat → Nat} {pending pending' heads : Nat → Prop}
  {b b' : BufferPoolManager}

/-- A path of the chains has no more pages than the disk. -/
theorem HeapState.length_le (H : HeapState evicts pins pending heads b) {n : Nat} {l : List Nat}
    (hn : OnChain (succ b) heads n) (hl : Path (succ b) (some n) l) :
    l.length ≤ b.disk_manager.capacity := by
  obtain ⟨h, hh, l0, hl0, hm⟩ := hn
  obtain ⟨pre, suf, rfl, hs⟩ := hl0.suffix hm
  have hsub : l ⊆ List.range b.disk_manager.capacity := by
    intro k hk
    rw [hl.unique hs] at hk
    exact List.mem_range.mpr (H.pages k ⟨h, hh, _, hl0, List.mem_append_right _ hk⟩).2.1
  have := (List.subperm_of_subset hl.nodup hsub).length_le
  rwa [List.length_range] at this

/-- Changes that leave the links of the chains alone. -/
theorem HeapState.keep (H : HeapState evicts pins pending heads b)
    (S : Store evicts pins' pending' b')
    (hc : ∀ n, OnChain (succ b) heads n →
      (contents b' n).next = (contents b n).next ∧ (contents b' n).good)
    (ha : ∀ n, OnChain (succ b) heads n ∨ n = 0 → Allocated b'.disk_manager n) :
    HeapState evicts pins' pending' heads b' ∧
      ∀ h, heads h → ∀ n, OnPath (succ b') h n ↔ OnPath (succ b) h n := by
  obtain ⟨hf, hp⟩ := H.forest.congr (f := succ b') fun n hn => (hc n hn).1
  refine ⟨⟨S, hf, ?_, ha 0 (Or.inr rfl)⟩, hp⟩
  rintro n ⟨h, hh, hn⟩
  have hon : OnChain (succ b) heads n := ⟨h, hh, (hp h hh n).mp hn⟩
  exact ⟨(hc n hon).2, ha n (Or.inl hon)⟩

/-- Pages that only move between the frames and the disk. -/
theorem HeapState.same_contents (H : HeapState evicts pins pending heads b)
    (S : Store evicts pins' pending' b') (hc : contents b' = contents b)
    (ha : ∀ n, Allocated b.disk_manager n → Allocated b'.disk_manager n) :
    HeapState evicts pins' pending' heads b' := by
  refine (H.keep S (fun n hn => ?_) fun n hn => ?_).1
  · rw [hc]
    exact ⟨rfl, (H.pages n hn).1⟩
  · apply ha
    rcases hn with hn | rfl
    · exact (H.pages n hn).2
    · exact H.metadata

/-- The last page of a chain gets a successor. -/
theorem HeapState.link (H : HeapState evicts pins pending heads b)
    (S : Store evicts pins' pending' b') {h n x : Nat} (hh : heads h)
    (hn : OnPath (succ b) h n) (hend : succ b n = none) (hx : ¬ OnChain (succ b) heads x)
    (hxe : contents b x = emptyMeaning) (hxa : Allocated b.disk_manager x)
    (hdisk : b'.disk_manager = b.disk_manager)
    (hc : contents b' = Function.update (contents b) n { contents b n with next := some x }) :
    HeapState evicts pins' pending' heads b' ∧
      ∀ k, heads k → ∀ m, OnPath (succ b') k m ↔ OnPath (succ b) k m ∨ (k = h ∧ m = x) := by
  have hsucc : succ b' = Function.update (succ b) n (some x) := by
    funext m
    unfold succ
    rw [hc]
    by_cases hm : m = n
    · subst hm
      simp
    · rw [Function.update_of_ne hm, Function.update_of_ne hm]
  have hxend : succ b x = none := by
    unfold succ
    rw [hxe]
    rfl
  obtain ⟨hf, hp⟩ := H.forest.link hh hn hend hx hxend
  rw [← hsucc] at hf hp
  have hgood : ∀ m, (contents b' m).good ↔ (contents b m).good := by
    intro m
    rw [hc]
    by_cases hm : m = n
    · subst hm
      simp
    · rw [Function.update_of_ne hm]
  refine ⟨⟨S, hf, ?_, by rw [hdisk]; exact H.metadata⟩, hp⟩
  rintro m ⟨k, hk, hm⟩
  rw [hdisk, hgood]
  rcases (hp k hk m).mp hm with hm | ⟨_, rfl⟩
  · exact H.pages m ⟨k, hk, hm⟩
  · refine ⟨?_, hxa⟩
    rw [hxe]
    trivial

end

/-! ## New heaps -/

section
variable {evicts : Prop} {pins : Nat → Nat} {pending heads : Nat → Prop} {b : BufferPoolManager}

/-- An empty pool over a disk that keeps its header page to itself, with no heaps. -/
theorem heapState_make {d : DiskManager} {k : Nat} (hf : NoFaults d) (hnd : d.free_list.Nodup)
    (hfree : ∀ p ∈ d.free_list, ∃ n, p = some n ∧ n < d.capacity) (h0 : Allocated d 0)
    (hroom : ¬ evicts → d.capacity ≤ k) :
    HeapState evicts (fun _ => 0) (fun _ => False) (fun _ => False) (.make d k) := by
  refine ⟨⟨poolInv_make d k, hf, hnd, ?_, ?_, ?_, hroom⟩, ⟨?_, ?_⟩, ?_, h0⟩
  · intro p hp
    obtain ⟨n, rfl, hn⟩ := hfree p hp
    exact ⟨n, rfl, hn, rfl⟩
  · intro n hn
    exact hn.elim
  · intro _ n f hc
    cases hc
  · intro h hh
    exact hh.elim
  · intro h _ _ _ hh
    exact hh.elim
  · rintro n ⟨h, hh, _⟩
    exact hh.elim

/-- `create` makes a heap of one empty page, under an id that nobody had. -/
theorem HeapState.create (H : HeapState evicts pins pending heads b)
    (hroom : ¬ evicts → b.allocate_page.2.disk_manager.capacity ≤ b.pool_capacity) :
    (∃ x b', table_heap.create b = (.ok (some x), b') ∧ ¬ Allocated b.disk_manager x ∧
      HeapState evicts pins pending (fun h => heads h ∨ h = x) b' ∧
      contents b' = Function.update (contents b) x emptyMeaning ∧
      b'.pool_capacity = b.pool_capacity ∧
      ∀ m, Allocated b.disk_manager m → Allocated b'.disk_manager m) ∨
    (∃ e, table_heap.create b = (.error e, b.allocate_page.2) ∧ AllPinned b ∧
      HeapState evicts pins pending heads b.allocate_page.2 ∧
      contents b.allocate_page.2 = contents b) := by
  obtain ⟨x, hg, hcases⟩ := H.store.new_page hroom
  unfold table_heap.create
  rcases hcases with ⟨f, b1, hnew, B, hc1⟩ | ⟨hnew, hall, S1, hc1⟩
  swap
  · rw [hnew]
    have hkept := H.same_contents S1 hc1 fun m hm => (hg.allocated m).mpr (Or.inl hm)
    exact Or.inr ⟨_, rfl, hall, hkept, hc1⟩
  left
  rw [hnew]
  simp only
  have hx0 : pins x = 0 := by
    apply H.store.inv.absent
    rcases hcx : b.page_table (some x) with _ | f
    · rfl
    · exact absurd (H.store.allocated_of_cached hcx) hg.fresh
  have hpx : ¬ pending x := fun hp => by
    have := H.store.held x hp
    omega
  obtain ⟨S2, hc2⟩ := B.store.set_data (fun m => pending m ∨ m = x) B.table
    (by rw [pinMore_apply, if_pos rfl]; omega) (init (b1.frames f).data) (fun m => id)
    (fun m => Or.inl) (fun _ => Or.inl (Or.inr rfl))
  have hid : ((b1.set_data f (init (b1.frames f).data)).frames f).page_id = some x :=
    (S2.inv.holds x f).mp B.table
  rw [hid]
  obtain ⟨S3, hc3, _, hd3, hk3⟩ := S2.unpin_page pending (n := x)
    (by rw [pinMore_apply, if_pos rfl]; omega) true (fun m => Or.inl)
    (fun m hm => hm.imp id fun h => ⟨h, rfl⟩) (fun hp => absurd hp hpx)
  rw [pinLess_pinMore] at S3
  generalize (b1.set_data f (init (b1.frames f).data)).unpin_page (some x) true = b3 at *
  have hc : contents b3 = Function.update (contents b) x emptyMeaning := by
    rw [hc3, hc2, hc1, meaning_init, Function.update_idem]
  have hdisk : b3.disk_manager.capacity = b.allocate_page.2.disk_manager.capacity ∧
      b3.disk_manager.free_list = b.allocate_page.2.disk_manager.free_list := by
    rw [hd3]
    exact B.disk
  have hal : ∀ m, Allocated b3.disk_manager m ↔ Allocated b.disk_manager m ∨ m = x := by
    intro m
    rw [← hg.allocated m]
    unfold Allocated
    rw [hdisk.1, hdisk.2]
  have hxc : ¬ OnChain (succ b) heads x := fun hon => hg.fresh (H.pages x hon).2
  obtain ⟨K, hp⟩ := H.keep S3
    (fun m hmo => by
      have hmx : m ≠ x := fun he => hxc (he ▸ hmo)
      rw [hc, Function.update_of_ne hmx]
      exact ⟨rfl, (H.pages m hmo).1⟩)
    (fun m hmo => (hal m).mpr (Or.inl (hmo.elim (fun h => (H.pages m h).2)
      fun h => h ▸ H.metadata)))
  have hxc' : ¬ OnChain (succ b3) heads x := by
    rintro ⟨h, hh, hon⟩
    exact hxc ⟨h, hh, (hp h hh x).mp hon⟩
  have hxe : succ b3 x = none := by
    unfold succ
    rw [hc, Function.update_self]
    rfl
  obtain ⟨F, hone⟩ := K.forest.add hxc' hxe
  refine ⟨x, b3, rfl, hg.fresh, ⟨S3, F, ?_, K.metadata⟩, hc, by rw [hk3]; exact B.capacity,
    fun m hm => (hal m).mpr (Or.inl hm)⟩
  rintro m ⟨h, hh | rfl, hon⟩
  · exact K.pages m ⟨h, hh, hon⟩
  · obtain rfl := (hone m).mp hon
    rw [hc, Function.update_self]
    exact ⟨trivial, (hal m).mpr (Or.inr rfl)⟩

/-- A call of `create` that returned a page. -/
theorem HeapState.created (H : HeapState evicts pins pending heads b)
    (hroom : ¬ evicts → b.allocate_page.2.disk_manager.capacity ≤ b.pool_capacity) {x : Nat}
    (h : (table_heap.create b).1 = .ok (some x)) :
    HeapState evicts pins pending (fun h => heads h ∨ h = x) (table_heap.create b).2 ∧
      contents (table_heap.create b).2 = Function.update (contents b) x emptyMeaning := by
  rcases H.create hroom with ⟨y, b', hc, _, K, hb, _⟩ | ⟨e, hc, _⟩
  · rw [hc] at h ⊢
    simp only [Except.ok.injEq, Option.some.injEq] at h
    subst h
    exact ⟨K, hb⟩
  · rw [hc] at h
    cases h

end

end duck.table_heap
