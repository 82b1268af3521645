-- The pages that the calls of a heap allocate and give back: an insert keeps no
-- page that it has not linked, and a drop gives back as many as the free list
-- has room for.
import DuckDbms.CatalogUndo
import DuckDbms.HeapGrowth

open chain
open duck.disk_manager duck.buffer_pool duck.table_heap duck.table duck.tuple

/-! ## The pages that a call allocates -/

namespace duck.table_heap

/-- The pages that are allocated in the end were so before, or are on the chains. -/
def Accounted (heads : Nat → Prop) (b b' : BufferPoolManager) : Prop :=
  ∀ m, Allocated b'.disk_manager m → Allocated b.disk_manager m ∨ OnChain (succ b') heads m

section
variable {heads : Nat → Prop} {pins : Nat → Nat} {pending : Nat → Prop}
  {b b' b0 : BufferPoolManager} {h : Nat} {tuple : List UInt8} {c c' : InsertCall}

theorem keepsIds_allocated (K : KeepsIds b b') (m : Nat) :
    Allocated b'.disk_manager m ↔ Allocated b.disk_manager m := by
  unfold Allocated
  rw [K.disk]

theorem keepsIds_accounted (K : KeepsIds b b') : Accounted heads b b' :=
  fun m hm => Or.inl ((keepsIds_allocated K m).mp hm)

theorem keepsIds_get_tuple (b : BufferPoolManager) (rid : RID) :
    KeepsIds b (table_heap.get_tuple b rid).2 := by
  unfold table_heap.get_tuple
  exact keepsIds_with_page b rid.page_id _

theorem Accounted.trans {b1 : BufferPoolManager} (h : Accounted heads b b1)
    (R : Ran True heads pins pending b1 b') (h' : Accounted heads b1 b') : Accounted heads b b' := by
  intro m hm
  rcases h' m hm with hm | hm
  · exact (h m hm).imp_right R.onChain
  · exact Or.inr hm

/-- Of the steps of an insert only two change the ids of the disk. -/
theorem keepsIds_insert_step (hcreate : ∀ page, c.pc ≠ .create page)
    (hback : ∀ page p q, c.pc ≠ .delete_new page p q) (hstep : insert_step b c = some (b', c')) :
    KeepsIds b b' := by
  unfold insert_step at hstep
  rcases hpc : c.pc with _ | page | page | ⟨page, g⟩ | ⟨page, g⟩ | ⟨page, g⟩ | ⟨page, g, q⟩ |
    ⟨page, p, q⟩ | ⟨page, dirty, after⟩ | r
  all_goals rw [hpc] at hstep; simp only at hstep
  · have hf := keepsIds_fetch_page b c.page_id
    generalize b.fetch_page c.page_id = r at hf hstep
    obtain ⟨_ | _ | _, b1⟩ := r
    all_goals
      cases hstep
      exact hf
  · generalize try_insert (b.frames page).data c.tuple_data = r at hstep
    obtain ⟨_ | slot, d⟩ := r
    · simp only at hstep
      split at hstep
      · split at hstep
        all_goals
          cases hstep
          exact ⟨rfl, rfl⟩
      · cases hstep
        exact ⟨rfl, rfl⟩
    · cases hstep
      exact ⟨rfl, rfl⟩
  · exact absurd hpc (hcreate page)
  · cases hstep
    exact ⟨rfl, rfl⟩
  · cases hstep
    exact keepsIds_unpin_page _ _ _
  · split at hstep
    all_goals
      cases hstep
      exact ⟨rfl, rfl⟩
  · cases hstep
    exact keepsIds_refl b
  · exact absurd hpc (hback page p q)
  · split at hstep
    all_goals
      cases hstep
      exact keepsIds_unpin_page _ _ _
  · cases hstep

/-- A new page stays with its call until the call has linked it. -/
theorem fresh_step (A : Alone True heads pins pending h tuple b0 b c)
    (W : Stepped True heads pins pending b c b' c') {m : Nat} (hm : c.fresh m) :
    c'.fresh m ∨ OnChain (succ b') heads m := by
  obtain ⟨hpc, hmem⟩ := hm
  have M := W.move
  cases M with
  | inited _ | unpinned _ => exact Or.inl ⟨rfl, hmem⟩
  | @linked page next_page n x hlink hid _ hx hc =>
    right
    obtain rfl : m = x := by
      rw [(A.call.fresh_new hx).1, List.mem_singleton] at hmem
      exact Option.some.inj hmem
    obtain ⟨k, n', _, hk, hid', hon⟩ := A.call.heap (by rw [hlink]; rfl)
    obtain rfl : n = n' := Option.some.inj (hid.symm.trans hid')
    refine ⟨k, hk, (W.onPath k hk n hon).follow ?_⟩
    unfold succ
    rw [hc, Function.update_self]
  | passed hlink hid hend =>
    rw [A.last (by rw [hlink]; rfl) _ hid] at hend
    cases hend
  | read hback | gave_back hback =>
    have hkeeps := A.keeps
    rw [hback] at hkeeps
    cases hkeeps
  | found hno | not_found hno | placed hno | stuck hno | last hno | full hno | created hno
  | not_created hno | returned hno | continued hno =>
    rw [hno] at hpc
    cases hpc

/-- A page that the call has allocated is its new page, or on the chains. -/
theorem accounted_step (A : Alone True heads pins pending h tuple b0 b c)
    (W : Stepped True heads pins pending b c b' c') (hstep : insert_step b c = some (b', c'))
    (hfits : tuple.length ≤ 8180 ∧ 2 ≤ b0.pool_capacity ∧ ∀ m, pins m = 0)
    (hacc : ∀ m, Allocated b.disk_manager m →
      Allocated b0.disk_manager m ∨ OnChain (succ b) heads m ∨ c.fresh m) {m : Nat}
    (hm : Allocated b'.disk_manager m) :
    Allocated b0.disk_manager m ∨ OnChain (succ b') heads m ∨ c'.fresh m := by
  have hold : Allocated b.disk_manager m →
      Allocated b0.disk_manager m ∨ OnChain (succ b') heads m ∨ c'.fresh m := by
    intro hm
    rcases hacc m hm with hm | ⟨k, hk, hm⟩ | hm
    · exact Or.inl hm
    · exact Or.inr (Or.inl ⟨k, hk, W.onPath k hk m hm⟩)
    · exact Or.inr (fresh_step A W hm).symm
  by_cases hcreate : ∃ page, c.pc = .create page
  swap
  · refine hold ((keepsIds_allocated (keepsIds_insert_step ?_ ?_ hstep) m).mp hm)
    · exact fun page hpc => hcreate ⟨page, hpc⟩
    · intro page p q hpc
      have hkeeps := A.keeps
      rw [hpc] at hkeeps
      cases hkeeps
  obtain ⟨page, hpc⟩ := hcreate
  obtain ⟨x, hg, ⟨f, b1, hnew, B, _⟩ | ⟨_, hall, _⟩⟩ :=
    A.heap.store.new_page fun h => absurd trivial h
  swap
  · exact absurd hfits (A.not_allPinned (by rw [hpc]; rfl) hall)
  have hid : (b1.frames f).page_id = some x := (B.store.inv.holds x f).mp B.table
  unfold insert_step at hstep
  rw [hpc] at hstep
  simp only [hnew, hid] at hstep
  cases hstep
  rcases (hg.allocated m).mp (allocated_congr ⟨B.disk.1.symm, B.disk.2.symm⟩ m hm) with hm | rfl
  · exact hold hm
  · exact Or.inr (Or.inr ⟨rfl, List.mem_cons_self⟩)

theorem accounted_run {fuel : Nat} {r : Except String (Option RID)}
    (A : Alone True heads pins pending h tuple b0 b c) (hpends : ∀ m, pending m → 0 < pins m)
    (hfits : tuple.length ≤ 8180 ∧ 2 ≤ b0.pool_capacity ∧ ∀ m, pins m = 0)
    (hacc : ∀ m, Allocated b.disk_manager m →
      Allocated b0.disk_manager m ∨ OnChain (succ b) heads m ∨ c.fresh m)
    (hr : run_insert fuel b c = some (r, b')) : Accounted heads b0 b' := by
  induction fuel generalizing b c with
  | zero => cases hr
  | succ fuel ih =>
    unfold run_insert at hr
    split at hr
    · rename_i r' hpc
      cases hr
      intro m hm
      rcases hacc m hm with hm | hm | ⟨hfresh, _⟩
      · exact Or.inl hm
      · exact Or.inr hm
      · rw [hpc] at hfresh
        cases hfresh
    · rename_i hnot
      have hrun : c.pc.running = true := by
        rcases hpc : c.pc with _ | _ | _ | _ | _ | _ | _ | _ | _ | r'
        all_goals first | rfl | exact absurd hpc (hnot r')
      obtain ⟨⟨b1, c1⟩, hstep, hr⟩ := Option.bind_eq_some_iff.mp hr
      have hroom : ¬ True → ∀ page, c.pc = .create page →
          b.allocate_page.2.disk_manager.capacity ≤ b.pool_capacity := fun h => absurd trivial h
      obtain ⟨_, _, hstep', W⟩ := insert_step_spec A.heap A.call hrun hroom hpends
        fun m hm => (A.fresh m hm).1
      obtain ⟨_, _, hstep'', A', _⟩ := A.step hpends hrun hroom
      rw [hstep] at hstep' hstep''
      cases hstep'
      cases hstep''
      exact ih A' (fun m hm => accounted_step A W hstep hfits hacc hm) hr

/-- An insert in a pool that nobody else uses allocates only pages that it links. -/
theorem HeapState.insert_accounted (H : HeapState True pins pending heads b) (hh : heads h)
    (h2 : 2 ≤ b.pool_capacity) (hidle : ∀ m, pins m = 0) {r : Except String (Option RID)}
    (hr : table_heap.insert_tuple b (some h) tuple = some (r, b')) : Accounted heads b b' := by
  by_cases hlen : tuple.length ≤ 8180
  · exact accounted_run (alone_begin H hh tuple) H.store.held ⟨hlen, h2, hidle⟩
      (fun m hm => Or.inl hm) hr
  · rw [insert_tuple_too_long b _ (Nat.lt_of_not_le hlen)] at hr
    cases hr
    exact keepsIds_accounted (keepsIds_refl b)

theorem HeapState.update_accounted (H : HeapState True pins pending heads b) (hh : heads h)
    (h2 : 2 ≤ b.pool_capacity) (hidle : ∀ m, pins m = 0) {n : Nat} (hn : OnPath (succ b) h n)
    {slot : Nat} {r : Except String (Option RID)}
    (hr : table_heap.update_tuple b (some h) ⟨some n, slot⟩ tuple = some (r, b')) :
    Accounted heads b b' := by
  have hids := keepsIds_with_page b (some n) (update_section ⟨some n, slot⟩ tuple)
  unfold table_heap.update_tuple at hr
  rcases H.with_page ⟨h, hh, hn⟩ _ (fun page hid hm _ =>
      H.update_section_keeps ⟨h, hh, hn⟩ slot tuple page hid hm) with
    ⟨page, b1, h1, _, _, _, R, _⟩ | ⟨h1, _⟩
  · rw [h1] at hr hids
    have hfirst : Accounted heads b b1 := keepsIds_accounted hids
    generalize (update_section ⟨some n, slot⟩ tuple page).1 = u at hr
    cases u with
    | not_found =>
      cases hr
      exact hfirst
    | placed rid =>
      cases hr
      exact hfirst
    | no_room =>
      obtain ⟨R', _⟩ := R.heap.insert_tuple hh hr fun he => absurd trivial he
      exact hfirst.trans R' (R.heap.insert_accounted hh (R.capacity.symm ▸ h2) hidle hr)
  · rw [h1] at hr
    cases hr
    exact keepsIds_accounted (keepsIds_refl b)

/-- `create` allocates the page of the new heap, and no other one. -/
theorem HeapState.create_allocated (H : HeapState True pins pending heads b) {x : Nat}
    (hc : table_heap.create b = (.ok (some x), b')) {m : Nat}
    (hm : Allocated b'.disk_manager m) : Allocated b.disk_manager m ∨ m = x := by
  obtain ⟨y, hg, ⟨f, b1, hnew, B, _⟩ | ⟨hnew, _⟩⟩ := H.store.new_page fun h => absurd trivial h
  swap
  · unfold table_heap.create at hc
    rw [hnew] at hc
    cases hc
  have hid : (b1.frames f).page_id = some y := (B.store.inv.holds y f).mp B.table
  unfold table_heap.create at hc
  rw [hnew] at hc
  simp only at hc
  obtain ⟨hx, rfl⟩ := Prod.mk.inj hc
  have hpage : ((b1.set_data f (slotted_page.init (b1.frames f).data)).frames f).page_id = some y := by
    rw [← hid]
    simp [BufferPoolManager.set_data, BufferPoolManager.set_frame]
  rw [hpage] at hx
  cases hx
  rw [capacity_unpin_page] at hm
  exact (hg.allocated m).mp (allocated_congr ⟨B.disk.1.symm, B.disk.2.symm⟩ m hm)

/-! ## The pages that a drop gives back -/

/-- So many ids have room on the free list. -/
def room (d : DiskManager) : Nat := 1025 - d.free_list.length

/-- The loop of `drop_pages` gives back the first pages of its list, as many as the free list
has room for. -/
theorem HeapState.drop_all_allocated (H : HeapState True pins pending heads b)
    (hidle : ∀ m, pins m = 0) {l : List Nat} (hnd : l.Nodup)
    (hl : ∀ n ∈ l, n ≠ 0 ∧ Allocated b.disk_manager n ∧ ¬ OnChain (succ b) heads n) (failed m : Nat) :
    Allocated (table.drop_all b failed (l.map some)).2.disk_manager m ↔
      Allocated b.disk_manager m ∧ m ∉ l.take (room b.disk_manager) := by
  induction l generalizing b failed with
  | nil => simp [table.drop_all]
  | cons n l ih =>
    obtain ⟨hn, hnd⟩ := List.nodup_cons.mp hnd
    obtain ⟨h0, ha, hoff⟩ := hl n (by simp)
    obtain ⟨dropped, b1, hdel, H1, hc, hal, _, _, hback⟩ := H.delete_page h0 ha hoff
    obtain ⟨_, hdisk⟩ := hback (hidle n)
    have hchain : ∀ m, OnChain (succ b1) heads m ↔ OnChain (succ b) heads m := by
      obtain ⟨_, hp⟩ := H.forest.congr (f := succ b1) fun m hm => by
        unfold succ
        rw [hc m fun he => hoff (he ▸ hm)]
      exact onChain_congr hp
    have hrest : ∀ m ∈ l, m ≠ 0 ∧ Allocated b1.disk_manager m ∧ ¬ OnChain (succ b1) heads m := by
      intro m hm
      obtain ⟨k0, ka, koff⟩ := hl m (by simp [hm])
      have hne : m ≠ n := fun he => hn (he ▸ hm)
      exact ⟨k0, hal m hne ka, fun h => koff ((hchain m).mp h)⟩
    rw [List.map_cons]
    unfold table.drop_all table_heap.drop_page
    rw [hdel]
    simp only
    rw [ih H1 hnd hrest, hdisk]
    unfold returned
    by_cases hfull : b.disk_manager.free_list.length > 1024
    · rw [if_pos hfull]
      have hroom : room b.disk_manager = 0 := by
        unfold room
        omega
      rw [hroom, List.take_zero, List.take_zero]
    · rw [if_neg hfull]
      have hroom : room b.disk_manager =
          room { b.disk_manager with free_list := some n :: b.disk_manager.free_list } + 1 := by
        unfold room
        rw [List.length_cons]
        omega
      rw [hroom, List.take_succ_cons, List.mem_cons, not_or]
      unfold Allocated
      simp only [List.mem_cons, not_or, Option.some.injEq]
      tauto

/-- `drop_pages` of one of the heaps gives back the first pages of its chain. -/
theorem HeapState.drop_pages_allocated (H : HeapState True pins pending heads b)
    (hidle : ∀ m, pins m = 0) (hh : heads h) (hzero : ¬ OnPath (succ b) h 0) {l : List Nat}
    (hl : Path (succ b) (some h) l) {failed : Nat}
    (hd : table.drop_pages b (some h) = some (.ok (failed, .SUCCESS), b')) (m : Nat) :
    Allocated b'.disk_manager m ↔
      Allocated b.disk_manager m ∧ m ∉ l.take (room b.disk_manager) := by
  unfold table.drop_pages at hd
  obtain ⟨b1, L, hall | ⟨⟨found, hall⟩, _⟩⟩ := H.all_pages hh hl
  swap
  · rw [hall] at hd
    cases hd
  rw [hall] at hd
  have hpool : (table.drop_all b1 0 (l.map some)).2 = b' := congrArg Prod.snd (Option.some.inj hd)
  have hroom : room b1.disk_manager = room b.disk_manager := by
    unfold room
    rw [L.disk.2]
  have hsame : Allocated b1.disk_manager m ↔ Allocated b.disk_manager m :=
    ⟨allocated_congr ⟨L.disk.1.symm, L.disk.2.symm⟩ m, allocated_congr L.disk m⟩
  -- the pages of the heap are on no chain of another one
  have hpages : ∀ n ∈ l, n ≠ 0 ∧ Allocated b1.disk_manager n ∧
      ¬ OnChain (succ b1) (fun k => heads k ∧ k ≠ h) n := by
    intro n hn
    have hon : OnPath (succ b) h n := ⟨l, hl, hn⟩
    refine ⟨?_, allocated_congr L.disk n (H.pages n ⟨h, hh, hon⟩).2, ?_⟩
    · rintro rfl
      exact hzero hon
    · rintro ⟨k, ⟨hk, hne⟩, hp⟩
      exact hne (H.forest.unique hk hh (L.onPath.mp hp) hon)
  rw [← hpool, HeapState.drop_all_allocated (L.heap.sub fun k hk => hk.1) hidle hl.nodup hpages,
    hroom, hsame]

/-! ## Pages that nobody has -/

/-- The page is not the header, not free, and on none of the chains. -/
def Lost (heads : Nat → Prop) (b : BufferPoolManager) (n : Nat) : Prop :=
  n ≠ 0 ∧ Allocated b.disk_manager n ∧ ¬ OnChain (succ b) heads n

/-- A call that allocates only pages that it links neither loses a page nor finds one. -/
theorem Ran.lost_iff (R : Ran True heads pins pending b b') (A : Accounted heads b b') (n : Nat) :
    Lost heads b' n ↔ Lost heads b n := by
  constructor
  · rintro ⟨h0, ha, hoff⟩
    refine ⟨h0, ?_, fun hon => hoff (R.onChain hon)⟩
    rcases A n ha with ha | hon
    · exact ha
    · exact absurd hon hoff
  · rintro ⟨h0, ha, hoff⟩
    refine ⟨h0, R.allocated n ha, ?_⟩
    rintro ⟨k, hk, hn⟩
    rcases R.joined k hk n hn with hn | hno
    · exact hoff ⟨k, hk, hn⟩
    · exact hno ha

theorem lost_of_same (hc : contents b' = contents b) (hids : KeepsIds b b') (n : Nat) :
    Lost heads b' n ↔ Lost heads b n := by
  unfold Lost
  rw [succ_congr hc, keepsIds_allocated hids]

/-- Without a new page a chain keeps its pages in their order. -/
theorem Ran.path (R : Ran True heads pins pending b b') (hids : KeepsIds b b') (hh : heads h)
    {l : List Nat} (hl : Path (succ b) (some h) l) : Path (succ b') (some h) l := by
  obtain ⟨l', hl'⟩ := R.heap.forest.ends h hh
  obtain ⟨new, rfl⟩ := hl.grows (fun n hn m => R.links n m ⟨h, hh, l, hl, hn⟩) hl'
  have hnew : new = [] := by
    rw [List.eq_nil_iff_forall_not_mem]
    intro n hn
    have hon : OnPath (succ b) h n :=
      (R.onPath_iff hids hh n).mp ⟨_, hl', List.mem_append_right _ hn⟩
    obtain ⟨l2, hl2, hn2⟩ := hon
    rw [hl2.unique hl] at hn2
    exact (List.nodup_append.mp hl'.nodup).2.2 n hn2 n hn rfl
  rw [hnew, List.append_nil] at hl'
  exact hl'

/-- Of the pages of a heap that is dropped those are lost that are not given back. -/
theorem HeapState.dropped_lost (H : HeapState True pins pending heads b) (hh : heads h)
    (hzero : ¬ OnPath (succ b) h 0) {l : List Nat} (hl : Path (succ b) (some h) l) {k : Nat}
    (hal : ∀ m, Allocated b'.disk_manager m ↔ Allocated b.disk_manager m ∧ m ∉ l.take k)
    (hpath : ∀ j, heads j → j ≠ h → ∀ m, OnPath (succ b') j m ↔ OnPath (succ b) j m) (n : Nat) :
    Lost (fun j => heads j ∧ j ≠ h) b' n ↔ Lost heads b n ∨ n ∈ l.drop k := by
  have hmem : n ∈ l ↔ n ∈ l.take k ∨ n ∈ l.drop k := by
    rw [← List.mem_append, List.take_append_drop]
  constructor
  · rintro ⟨h0, ha, hoff⟩
    obtain ⟨ha, hkept⟩ := (hal n).mp ha
    by_cases hn : n ∈ l
    · exact Or.inr ((hmem.mp hn).resolve_left hkept)
    refine Or.inl ⟨h0, ha, ?_⟩
    rintro ⟨j, hj, hp⟩
    by_cases hne : j = h
    · subst hne
      obtain ⟨l', hl', hn'⟩ := hp
      exact hn (hl.unique hl' ▸ hn')
    · exact hoff ⟨j, ⟨hj, hne⟩, (hpath j hj hne n).mpr hp⟩
  · rintro (⟨h0, ha, hoff⟩ | hn)
    · refine ⟨h0, (hal n).mpr ⟨ha, fun hn => ?_⟩, ?_⟩
      · exact hoff ⟨h, hh, l, hl, List.mem_of_mem_take hn⟩
      · rintro ⟨j, ⟨hj, hne⟩, hp⟩
        exact hoff ⟨j, hj, (hpath j hj hne n).mp hp⟩
    · have hon : OnPath (succ b) h n := ⟨l, hl, List.mem_of_mem_drop hn⟩
      refine ⟨?_, (hal n).mpr ⟨(H.pages n ⟨h, hh, hon⟩).2, fun htake => ?_⟩, ?_⟩
      · rintro rfl
        exact hzero hon
      · exact List.disjoint_take_drop hl.nodup (Nat.le_refl k) htake hn
      · rintro ⟨j, ⟨hj, hne⟩, hp⟩
        exact hne (H.forest.unique hj hh ((hpath j hj hne n).mp hp) hon)

end

end duck.table_heap

/-! ## The calls of a table -/

namespace duck.table

section
variable {heads : Nat → Prop} {pins : Nat → Nat} {pending : Nat → Prop}
  {b b' : BufferPoolManager} {h : Nat} {table : Table} {schema : Schema} {tuple : Tuple schema}
  {r : Except Failure (Option RID)}

theorem insert_accounted (H : HeapState True pins pending heads b) (hh : heads h)
    (ht : table.table_heap = some h) (h2 : 2 ≤ b.pool_capacity) (hidle : ∀ m, pins m = 0)
    (hr : table.insert_tuple b tuple = some (r, b')) : Accounted heads b b' := by
  unfold Table.insert_tuple at hr
  split at hr
  · cases hr
    exact keepsIds_accounted (keepsIds_refl b)
  rcases hs : tuple.serialize with e | bytes
  · rw [hs] at hr
    cases hr
    exact keepsIds_accounted (keepsIds_refl b)
  rw [hs, ht] at hr
  obtain ⟨⟨r1, b1⟩, hi, hr⟩ := Option.map_eq_some_iff.mp hr
  cases hr
  exact H.insert_accounted hh h2 hidle hi

theorem keepsIds_delete_tuple (b : BufferPoolManager) (rid : RID) :
    KeepsIds b (Table.delete_tuple b rid).2 := by
  have hget := keepsIds_get_tuple b rid
  unfold Table.delete_tuple
  generalize table_heap.get_tuple b rid = g at hget
  obtain ⟨e | _ | bytes, b1⟩ := g
  · exact hget
  · exact hget
  · exact hget.trans (keepsIds_delete b1 rid)

theorem update_accounted (H : HeapState True pins pending heads b) (hh : heads h)
    (ht : table.table_heap = some h) (h2 : 2 ≤ b.pool_capacity) (hidle : ∀ m, pins m = 0) {n : Nat}
    (hn : OnPath (succ b) h n) {slot : Nat}
    (hr : table.update_tuple b ⟨some n, slot⟩ tuple = some (r, b')) : Accounted heads b b' := by
  have hget := keepsIds_get_tuple b ⟨some n, slot⟩
  unfold Table.update_tuple at hr
  split at hr
  · cases hr
    exact keepsIds_accounted (keepsIds_refl b)
  rcases H.get_tuple ⟨h, hh, hn⟩ slot with ⟨b1, h1, R, _⟩ | ⟨h1, _⟩
  swap
  · rw [h1] at hr
    cases hr
    exact keepsIds_accounted (keepsIds_refl b)
  rw [h1] at hr hget
  have hfirst : Accounted heads b b1 := keepsIds_accounted hget
  generalize Option.filter _ _ = old at hr
  rcases old with _ | old
  · cases hr
    exact hfirst
  rcases hs : tuple.serialize with e | bytes
  · simp only [hs] at hr
    cases hr
    exact hfirst
  simp only [hs, ht] at hr
  obtain ⟨⟨r2, b2⟩, hu, hr⟩ := Option.map_eq_some_iff.mp hr
  cases hr
  have hn' := R.onPath h hh n hn
  obtain ⟨_, _, hu', R'⟩ := R.heap.update_ran hh ⟨h, hh, hn'⟩ slot bytes
  rw [hu] at hu'
  cases hu'
  exact hfirst.trans R' (R.heap.update_accounted hh (R.capacity.symm ▸ h2) hidle hn' hu)

end

end duck.table
