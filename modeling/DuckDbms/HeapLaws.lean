-- The calls of the heap on one page: what they return, and what they do to the
-- rows of the heaps. Calls that do not mark the page dirty are sound when the
-- page is dirty already, or when they change its layout only.
import DuckDbms.InsertRuns

open duck.slotted_page duck.disk_manager duck.buffer_pool chain

namespace duck.table_heap

section
variable {evicts : Prop} {heads : Nat → Prop} {pins : Nat → Nat} {pending : Nat → Prop}
  {b : BufferPoolManager} {n : Nat}

/-! ## One page -/

/-- A page that is cached stays in its frame when it is fetched, and keeps its flag. -/
theorem fetch_page_cached {f g : FrameID} {b' : BufferPoolManager}
    (h : b.fetch_page (some n) = (.ok (some f), b')) (hc : b.page_table (some n) = some g) :
    f = g ∧ (b'.frames f).is_dirty = (b.frames g).is_dirty := by
  unfold BufferPoolManager.fetch_page BufferPoolManager.find_cached_page at h
  rw [hc] at h
  cases h
  refine ⟨rfl, ?_⟩
  show (Function.update b.frames f _ f).is_dirty = _
  rw [Function.update_self]
  rfl

/-- A call whose section did not run could not fetch its page. -/
theorem fetch_of_with_page {α : Type} {b' : BufferPoolManager} {p : PageID}
    {section_ : Page → α × PageData × Bool}
    (h : table_heap.with_page b p section_ = (.ok none, b')) : (b.fetch_page p).1 = .ok none := by
  unfold table_heap.with_page at h
  split at h
  · cases h
  · rename_i b1 hf
    rw [hf]
  · cases h

/-- A section that keeps its page good, and that marks it dirty if it changes its meaning. -/
theorem HeapState.with_page {α : Type} (H : HeapState evicts pins pending heads b)
    (hn : OnChain (succ b) heads n) (section_ : Page → α × PageData × Bool)
    (hsec : ∀ page : Page, page.page_id = some n → meaning page.data = contents b n →
      (∀ f, b.page_table (some n) = some f → page.is_dirty = (b.frames f).is_dirty) →
      Good (section_ page).2.1 ∧
        (section_ page).2.1.header.next_page_id = (contents b n).next ∧
        (evicts → (section_ page).2.2 = true ∨ page.is_dirty = true ∨
          meaning (section_ page).2.1 = contents b n)) :
    (∃ (page : Page) (b' : BufferPoolManager),
      table_heap.with_page b (some n) section_ = (.ok (some (section_ page).1), b') ∧
      page.page_id = some n ∧ Good page.data ∧ rowsOf page.data = rows heads b n ∧
      Ran evicts heads pins pending b b' ∧
      rows heads b' = Function.update (rows heads b) n (rowsOf (section_ page).2.1)) ∨
    (table_heap.with_page b (some n) section_ = (.ok none, b) ∧ AllPinned b) := by
  obtain ⟨hgood, ha⟩ := H.pages n hn
  unfold table_heap.with_page
  rcases H.store.fetch_page ha with ⟨f, b1, hf, B, hc1⟩ | ⟨hf, hall⟩
  swap
  · rw [hf]
    exact Or.inr ⟨rfl, hall⟩
  left
  rw [hf]
  simp only
  have hid : (b1.frames f).page_id = some n := (B.store.inv.holds n f).mp B.table
  have hm : meaning (b1.frames f).data = contents b n := by
    rw [← hc1]
    unfold contents
    rw [view_cached B.table]
  obtain ⟨s1, s2, s3⟩ := hsec (b1.frames f) hid hm fun g hg => by
    obtain ⟨rfl, hd⟩ := fetch_page_cached hf hg
    exact hd
  generalize hr : section_ (b1.frames f) = r at s1 s2 s3 ⊢
  obtain ⟨a, d, dirty⟩ := r
  simp only at s1 s2 s3 ⊢
  have hpos : 0 < pinMore pins n n := by
    rw [pinMore_apply, if_pos rfl]
    omega
  obtain ⟨S2, hc2⟩ := B.store.set_data (fun m => pending m ∨ (m = n ∧ dirty = true)) B.table hpos d
    (fun m => Or.inl) (fun m hm => hm.imp id And.left) fun he => by
      rcases s3 he with h | h | h
      · exact Or.inl (Or.inr ⟨rfl, h⟩)
      · exact Or.inr (Or.inl h)
      · exact Or.inr (Or.inr (by rw [h, hc1]))
  have hid2 : ((b1.set_data f d).frames f).page_id = some n := (S2.inv.holds n f).mp B.table
  rw [hid2]
  obtain ⟨S3, hc3, ht3, hd3, hk3⟩ := S2.unpin_page pending hpos dirty (fun m => Or.inl)
    (fun m hm => hm) fun hp => by
      have := H.store.held n hp
      rw [pinMore_apply, if_pos rfl]
      omega
  rw [pinLess_pinMore] at S3
  generalize (b1.set_data f d).unpin_page (some n) dirty = b3 at *
  have hcont : contents b3 = Function.update (contents b) n (meaning d) := by
    rw [hc3, hc2, hc1]
  have hdisk : b3.disk_manager.capacity = b.disk_manager.capacity ∧
      b3.disk_manager.free_list = b.disk_manager.free_list := by
    rw [hd3]
    exact B.disk
  obtain ⟨K, hp⟩ := H.keep S3
    (fun m hm => by
      by_cases hmn : m = n
      · subst hmn
        rw [hcont, Function.update_self]
        exact ⟨s2, s1⟩
      · rw [hcont, Function.update_of_ne hmn]
        exact ⟨rfl, (H.pages m hm).1⟩)
    (fun m hm => allocated_congr hdisk m (hm.elim (fun h => (H.pages m h).2) fun h => h ▸ H.metadata))
  have hon : ∀ m, OnChain (succ b3) heads m ↔ OnChain (succ b) heads m := by
    intro m
    constructor
    · rintro ⟨k, hk, h⟩
      exact ⟨k, hk, (hp k hk m).mp h⟩
    · rintro ⟨k, hk, h⟩
      exact ⟨k, hk, (hp k hk m).mpr h⟩
  refine ⟨b1.frames f, b3, by rw [hr], hid, (congrArg Meaning.good hm).mpr hgood, ?_,
    ⟨K, by rw [hk3]; exact B.capacity, by rw [hdisk.1], allocated_congr hdisk,
      fun k hk m => (hp k hk m).mpr, ?_, fun m g hg hpos => ?_,
      fun k hk m hm => Or.inl ((hp k hk m).mp hm)⟩,
    by rw [hr]; exact rows_update hon hn hcont⟩
  · rw [rows_on hn]
    exact congrArg Meaning.rows hm
  · intro k m _ hk
    unfold succ at hk ⊢
    rw [hcont]
    by_cases hkn : k = n
    · subst hkn
      rw [Function.update_self]
      exact s2.trans hk
    · rw [Function.update_of_ne hkn]
      exact hk
  · rw [ht3]
    exact B.pinned m g hg hpos

/-! ## Reads, deletes and restores -/

/-- The tuple in a slot. -/
def tupleOf (rows : List Row) (slot : Nat) : Option (List UInt8) := (rows[slot]?).join

theorem tupleOf_eq_some {rows : List Row} {slot : Nat} {t : List UInt8} :
    tupleOf rows slot = some t ↔ rows[slot]? = some (some t) := by
  unfold tupleOf
  rw [Option.join_eq_some_iff]

/-- The slot is free, and the page has room for the tuple next to its rows. -/
def CanRestore (rows : List Row) (slot : Nat) (t : List UInt8) : Prop :=
  rows[slot]? = some none ∧ usedBytes rows + t.length ≤ kPAGE_SIZE

/-- A slot without a tuple stays as it is when it is cleared. -/
theorem set_none_eq {rows : List Row} {slot : Nat} (h : ∀ old, rows[slot]? ≠ some (some old)) :
    rows.set slot none = rows := by
  apply List.ext_getElem?
  intro i
  rw [List.getElem?_set]
  split
  · rename_i hi
    subst hi
    split
    · rename_i hlt
      rcases hr : rows[slot]? with _ | _ | old
      · rw [List.getElem?_eq_none_iff] at hr
        omega
      · rfl
      · exact absurd hr (h old)
    · rw [List.getElem?_eq_none (by omega)]
  · rfl

theorem HeapState.get_tuple (H : HeapState evicts pins pending heads b)
    (hn : OnChain (succ b) heads n) (slot : Nat) :
    (∃ b', table_heap.get_tuple b ⟨some n, slot⟩ =
        (.ok ((tupleOf (rows heads b n) slot).filter (! ·.isEmpty)), b') ∧
      Ran evicts heads pins pending b b' ∧ rows heads b' = rows heads b) ∨
    (table_heap.get_tuple b ⟨some n, slot⟩ = (.ok none, b) ∧ AllPinned b) := by
  unfold table_heap.get_tuple
  rcases H.with_page hn (fun page =>
    let view := slotted_page.get_tuple page.data slot
    (if view.isEmpty then none else some view, page.data, false)) (fun page _ hm _ =>
      ⟨(congrArg Meaning.good hm).mpr (H.pages n hn).1, congrArg Meaning.next hm,
        fun _ => Or.inr (Or.inr hm)⟩) with
    ⟨page, b', h1, _, _, h4, h5, h6⟩ | ⟨h1, hall⟩
  · left
    rw [h1]
    refine ⟨b', ?_, h5, ?_⟩
    · simp only [Except.map, Prod.mk.injEq, Except.ok.injEq, Option.join_some, and_true]
      rw [get_tuple_eq, ← h4]
      unfold tupleOf
      rw [rowsOf_getElem?]
      split
      · rcases rowOf page.data slot with _ | t
        · rfl
        · rcases t with _ | ⟨x, t⟩ <;> rfl
      · rfl
    · rw [h6]
      simp only
      rw [h4, Function.update_eq_self]
  · right
    rw [h1]
    exact ⟨rfl, hall⟩

theorem HeapState.delete_tuple (H : HeapState evicts pins pending heads b)
    (hn : OnChain (succ b) heads n) (slot : Nat) :
    (∃ b', table_heap.delete_tuple b ⟨some n, slot⟩ =
        (.ok (tupleOf (rows heads b n) slot).isSome, b') ∧
      Ran evicts heads pins pending b b' ∧
      rows heads b' = Function.update (rows heads b) n ((rows heads b n).set slot none)) ∨
    (table_heap.delete_tuple b ⟨some n, slot⟩ = (.ok false, b) ∧ AllPinned b ∧
      (b.fetch_page (some n)).1 = .ok none) := by
  unfold table_heap.delete_tuple
  rcases H.with_page hn (fun page =>
    let deleted := slotted_page.delete_tuple page.data slot
    (deleted.1, deleted.2, deleted.1)) (fun page _ hm _ => by
      have g : Good page.data := (congrArg Meaning.good hm).mpr (H.pages n hn).1
      have hnext : page.data.header.next_page_id = (contents b n).next := congrArg Meaning.next hm
      simp only
      rcases delete_tuple_spec g slot with ⟨_, _, d2, d3, _, d5⟩ | ⟨d1, _⟩
      · exact ⟨d3, by rw [d5]; exact hnext, fun _ => Or.inl d2⟩
      · rw [d1]
        exact ⟨g, hnext, fun _ => Or.inr (Or.inr hm)⟩) with
    ⟨page, b', h1, _, g, h4, h5, h6⟩ | ⟨h1, hall⟩
  · left
    rw [h1]
    rw [← h4]
    simp only at h6 ⊢
    rcases delete_tuple_spec g slot with ⟨old, d1, d2, _, d4, _⟩ | ⟨d1, d2⟩
    · rw [d4] at h6
      refine ⟨b', ?_, h5, h6⟩
      rw [d2, tupleOf_eq_some.mpr d1]
      rfl
    · rw [d1] at h6 ⊢
      refine ⟨b', ?_, h5, ?_⟩
      · have : tupleOf (rowsOf page.data) slot = none := by
          rcases ht : tupleOf (rowsOf page.data) slot with _ | old
          · rfl
          · exact absurd (tupleOf_eq_some.mp ht) (d2 old)
        rw [this]
        rfl
      · rw [h6, set_none_eq d2]
  · right
    have hno := fetch_of_with_page h1
    rw [h1]
    exact ⟨rfl, hall, hno⟩

/-- A restore on a page that is dirty in its frame, or in a pool that does not evict. -/
theorem HeapState.restore_tuple (H : HeapState evicts pins pending heads b)
    (hn : OnChain (succ b) heads n) (slot : Nat) {t : List UInt8} (ht : t.length < 65536)
    (hdirty : evicts → ∃ f, b.page_table (some n) = some f ∧ (b.frames f).is_dirty = true) :
    (∃ b', table_heap.restore_tuple b ⟨some n, slot⟩ t = some (.ok (), b') ∧
      CanRestore (rows heads b n) slot t ∧ Ran evicts heads pins pending b b' ∧
      rows heads b' = Function.update (rows heads b) n ((rows heads b n).set slot (some t))) ∨
    (table_heap.restore_tuple b ⟨some n, slot⟩ t = none ∧ ¬ CanRestore (rows heads b n) slot t) ∨
    (table_heap.restore_tuple b ⟨some n, slot⟩ t = some (.ok (), b) ∧ AllPinned b ∧
      (b.fetch_page (some n)).1 = .ok none) := by
  unfold table_heap.restore_tuple
  rcases H.with_page hn (fun page =>
    let restored := slotted_page.restore_tuple page.data slot t
    (restored.isSome, restored.getD page.data, false)) (fun page _ hm hflag => by
      have g : Good page.data := (congrArg Meaning.good hm).mpr (H.pages n hn).1
      have hnext : page.data.header.next_page_id = (contents b n).next := congrArg Meaning.next hm
      have hd : evicts → page.is_dirty = true := by
        intro he
        obtain ⟨f, hf, hd⟩ := hdirty he
        rw [hflag f hf, hd]
      simp only
      rcases restore_tuple_spec g ht slot with ⟨d', d1, d2, _, d4, _⟩ | ⟨d1, _⟩
      · rw [d1]
        exact ⟨d2, by rw [← hnext, ← d4]; rfl, fun he => Or.inr (Or.inl (hd he))⟩
      · rw [d1]
        exact ⟨g, hnext, fun _ => Or.inr (Or.inr hm)⟩) with
    ⟨page, b', h1, _, g, h4, h5, h6⟩ | ⟨h1, hall⟩
  · simp only at h1 h6
    rw [h1]
    rcases restore_tuple_spec g ht slot with ⟨d', d1, _, d3, _, d5, d6⟩ | ⟨d1, d2⟩
    · left
      rw [d1] at h6 ⊢
      simp only [Option.getD_some] at h6
      rw [d3, h4] at h6
      rw [h4] at d5 d6
      exact ⟨b', rfl, ⟨d5, d6⟩, h5, h6⟩
    · right
      left
      rw [d1]
      rw [h4] at d2
      exact ⟨rfl, d2⟩
  · right
    right
    have hno := fetch_of_with_page h1
    simp only at h1
    rw [h1]
    exact ⟨rfl, hall, hno⟩

/-- What a call returns depends on what its section returns. -/
theorem with_page_result {α : Type} (b : BufferPoolManager) (p : PageID)
    {f g : Page → α × PageData × Bool} (h : ∀ page, (f page).1 = (g page).1) :
    (table_heap.with_page b p f).1 = (table_heap.with_page b p g).1 := by
  unfold table_heap.with_page
  split
  · rfl
  · rfl
  · simp only [h]

/-- A restore that finds its slot free and enough room returns, whatever the flag of its page. -/
theorem HeapState.restore_returns (H : HeapState evicts pins pending heads b)
    (hn : OnChain (succ b) heads n) {slot : Nat} {t : List UInt8} (ht : t.length < 65536)
    (hcan : CanRestore (rows heads b n) slot t) :
    ∃ b', table_heap.restore_tuple b ⟨some n, slot⟩ t = some (.ok (), b') := by
  -- a section that only looks whether the restore would succeed
  have hlook := H.with_page hn
    (fun page => ((slotted_page.restore_tuple page.data slot t).isSome, page.data, false))
    (fun page _ hm _ => ⟨(congrArg Meaning.good hm).mpr (H.pages n hn).1,
      congrArg Meaning.next hm, fun _ => Or.inr (Or.inr hm)⟩)
  have hresult := with_page_result b (some n) (f := fun page =>
      let restored := slotted_page.restore_tuple page.data slot t
      (restored.isSome, restored.getD page.data, false))
    (g := fun page => ((slotted_page.restore_tuple page.data slot t).isSome, page.data, false))
    fun _ => rfl
  unfold table_heap.restore_tuple
  rcases hlook with ⟨page, b', h1, _, g, hrows, _⟩ | ⟨h1, _⟩
  · rw [h1] at hresult
    rcases restore_tuple_spec g ht slot with ⟨d', d1, _⟩ | ⟨_, hno⟩
    · rw [d1] at hresult
      simp only [hresult]
      exact ⟨_, rfl⟩
    · rw [hrows] at hno
      exact absurd hcan hno
  · rw [h1] at hresult
    simp only [hresult]
    exact ⟨_, rfl⟩

/-! ## Updates -/

/-- The section of `update_tuple` under the page latch. -/
theorem update_section_spec {page : Page} (slot : Nat) {t : List UInt8} (g : Good page.data)
    (hid : page.page_id = some n) (ht : t.length < 65536) :
    (∃ d, update_section ⟨some n, slot⟩ t page = (.not_found, page.data, d) ∧
      tupleOf (rowsOf page.data) slot = none) ∨
    (∃ old d, update_section ⟨some n, slot⟩ t page = (.placed ⟨some n, slot⟩, d, true) ∧
      tupleOf (rowsOf page.data) slot = some old ∧ Good d ∧
      d.header.next_page_id = page.data.header.next_page_id ∧
      rowsOf d = (rowsOf page.data).set slot (some t)) ∨
    (∃ old d, update_section ⟨some n, slot⟩ t page = (.no_room, d, true) ∧
      tupleOf (rowsOf page.data) slot = some old ∧ Good d ∧
      d.header.next_page_id = page.data.header.next_page_id ∧
      rowsOf d = (rowsOf page.data).set slot none) := by
  unfold update_section
  simp only
  split
  · rename_i hno
    left
    refine ⟨false, rfl, ?_⟩
    rw [has_slot_eq] at hno
    unfold tupleOf
    rw [rowsOf_getElem?]
    split
    · rename_i hlt
      rcases hr : rowOf page.data slot with _ | old
      · rfl
      · exact absurd ⟨hlt, by rw [hr]; simp⟩ hno
    · rfl
  · rename_i hlive
    right
    rcases try_update_in_place_spec ⟨some n, slot⟩ g ht with
      ⟨old, u1, _, u3, u4, u5, u6⟩ | ⟨u1, u2⟩
    · left
      generalize try_update_in_place page.data ⟨some n, slot⟩ t = r at *
      obtain ⟨o, d⟩ := r
      simp only at u3 u4 u5 u6
      subst u3
      exact ⟨old, d, rfl, tupleOf_eq_some.mpr u1, u4, by rw [u6], u5⟩
    · rw [u1]
      simp only
      rcases delete_tuple_spec g slot with ⟨old, d1, d2, d3, d4, d5⟩ | ⟨_, d2⟩
      swap
      · -- the slot is live
        rw [not_not, has_slot_eq] at hlive
        obtain ⟨old, hold⟩ := Option.ne_none_iff_exists'.mp hlive.2
        refine absurd ?_ (d2 old)
        rw [rowsOf_getElem?, if_pos hlive.1, hold]
      generalize slotted_page.delete_tuple page.data slot = r at *
      obtain ⟨o, d⟩ := r
      simp only at d2 d3 d4 d5
      subst d2
      simp only
      obtain ⟨c1, c2, c3⟩ := compacted_spec d3
      generalize (if is_compacted d = true then d else compact d) = e at *
      have hslot : slot < (rowsOf page.data).length := (List.getElem?_eq_some_iff.mp d1).1
      have hrow : (rowsOf e)[slot]? = some none := by
        rw [c2, d4, List.getElem?_set_self hslot]
      have hcount : slot < e.header.slot_count := by
        rw [← length_rowsOf, c2, d4, List.length_set]
        exact hslot
      have hfree : rowOf e slot = none := by
        rw [rowsOf_getElem?, if_pos hcount] at hrow
        exact Option.some.inj hrow
      rcases insert_tuple_spec c1 ht (some slot) with ⟨i, k1, k2, k3, k4, _, k6⟩ | ⟨k1, _⟩
      · left
        have hi : i = slot := by
          have hroom : (t.length : Int) ≤ free_space_bytes e := by
            unfold need at k6
            push_cast at k6
            have : (0 : Int) ≤ ((if NoFreeSlot (rowsOf e) then sizeofSlot else 0 : Nat) : Int) :=
              Int.natCast_nonneg _
            omega
          rw [insert_tuple_prefered ht hcount hfree hroom] at k1
          exact (Option.some.inj k1).symm
        subst hi
        generalize slotted_page.insert_tuple e t (some i) = r at *
        obtain ⟨o, d'⟩ := r
        simp only at k1 k2 k3 k4
        subst k1
        refine ⟨old, d', by rw [hid], tupleOf_eq_some.mpr d1, k2, by rw [k4, c3, d5], ?_⟩
        rw [k3, c2, d4]
        unfold place
        rw [if_pos (by rw [List.length_set]; exact hslot), List.set_set]
      · right
        rw [k1]
        exact ⟨old, e, rfl, tupleOf_eq_some.mpr d1, c1, by rw [c3, d5], by rw [c2, d4]⟩

theorem update_section_not_found {page : Page} {rid : RID} {t : List UInt8}
    (h : (update_section rid t page).1 = .not_found) :
    (update_section rid t page).2.1 = page.data := by
  unfold update_section at h ⊢
  split
  · rfl
  rename_i hlive
  rw [if_neg hlive] at h
  rcases hu : (try_update_in_place page.data rid t).1 with _ | _
  · rw [try_update_in_place_eq hu] at h ⊢
    simp only at h ⊢
    split
    · rename_i d hd
      rw [hd] at h
      unfold slotted_page.delete_tuple at hd
      split at hd
      · cases hd
        rfl
      · split at hd <;> cases hd
        rfl
    · rename_i d hd
      rw [hd] at h
      simp only at h ⊢
      split at h <;> cases h
  · generalize try_update_in_place page.data rid t = x at hu h
    obtain ⟨o, d⟩ := x
    simp only at hu
    subst hu
    cases h

/-- Whatever the size of the tuple, the section does what it would do with its part of a size
that fits, but for the bytes over the tuples. -/
theorem update_section_cut (page : Page) (rid : RID) (t : List UInt8) (g : Good page.data) :
    (update_section rid t page).1 = (update_section rid (cutTuple t) page).1 ∧
      (update_section rid t page).2.2 = (update_section rid (cutTuple t) page).2.2 ∧
      SameBelow (update_section rid (cutTuple t) page).2.1 (update_section rid t page).2.1 := by
  unfold update_section
  split
  · exact ⟨rfl, rfl, sameBelow_refl _⟩
  obtain ⟨h1, h2⟩ := try_update_in_place_cut g rid t
  rcases hu : (try_update_in_place page.data rid t).1 with _ | _
  · rw [try_update_in_place_eq hu, try_update_in_place_eq (h1.symm.trans hu)]
    simp only
    generalize slotted_page.delete_tuple page.data rid.slot_num = r
    obtain ⟨_ | _, d⟩ := r
    · exact ⟨rfl, rfl, sameBelow_refl _⟩
    simp only
    generalize (if is_compacted d = true then d else compact d) = e
    obtain ⟨k1, k2⟩ := insert_tuple_cut e t (some rid.slot_num)
    generalize slotted_page.insert_tuple e t (some rid.slot_num) = x at k1 k2 ⊢
    generalize slotted_page.insert_tuple e (cutTuple t) (some rid.slot_num) = y at k1 k2 ⊢
    obtain ⟨o, d1⟩ := x
    obtain ⟨o', d2⟩ := y
    simp only at k1 k2
    subst k1
    rcases o with _ | slot <;> exact ⟨rfl, rfl, k2⟩
  · have hv := h1.symm.trans hu
    generalize try_update_in_place page.data rid t = x at hu h2 ⊢
    generalize try_update_in_place page.data rid (cutTuple t) = y at hv h2 ⊢
    obtain ⟨o, d1⟩ := x
    obtain ⟨o', d2⟩ := y
    simp only at hu hv h2
    subst hu hv
    exact ⟨rfl, rfl, h2⟩

/-- What `update_tuple` of slot `slot` of page `n` did between `b` and `b'`. -/
inductive HeapUpdated (heads : Nat → Prop) (pins : Nat → Nat) (h n slot : Nat) (t : List UInt8)
    (b b' : BufferPoolManager) : Except String (Option RID) → Prop
  | not_found : tupleOf (rows heads b n) slot = none → rows heads b' = rows heads b →
      HeapUpdated heads pins h n slot t b b' (.ok none)
  | no_frame : AllPinned b → rows heads b' = rows heads b →
      HeapUpdated heads pins h n slot t b b' (.ok none)
  | in_place {old : List UInt8} : tupleOf (rows heads b n) slot = some old →
      rows heads b' = Function.update (rows heads b) n ((rows heads b n).set slot (some t)) →
      HeapUpdated heads pins h n slot t b b' (.ok (some ⟨some n, slot⟩))
  | moved {old : List UInt8} {b1 : BufferPoolManager} {r : Except String (Option RID)} :
      tupleOf (rows heads b n) slot = some old →
      rows heads b1 = Function.update (rows heads b) n ((rows heads b n).set slot none) →
      b1.pool_capacity = b.pool_capacity → Inserted heads pins h t b1 b' r →
      HeapUpdated heads pins h n slot t b b' r

theorem Ran.trans {b1 b2 : BufferPoolManager} (R : Ran evicts heads pins pending b b1)
    (R' : Ran evicts heads pins pending b1 b2) : Ran evicts heads pins pending b b2 :=
  ⟨R'.heap, R'.capacity.trans R.capacity, Nat.le_trans R.disk R'.disk,
    fun m hm => R'.allocated m (R.allocated m hm),
    fun k hk m hm => R'.onPath k hk m (R.onPath k hk m hm),
    fun n m ⟨k, hk, hn⟩ h => R'.links n m ⟨k, hk, R.onPath k hk n hn⟩ (R.links n m ⟨k, hk, hn⟩ h),
    fun n f hf hp => R'.pinned n f (R.pinned n f hf hp) hp,
    fun k hk m hm => (R'.joined k hk m hm).elim (R.joined k hk m)
      fun hno => Or.inr fun ha => hno (R.allocated m ha)⟩

/-- The first part of `update_tuple`. -/
theorem HeapState.update_page (H : HeapState evicts pins pending heads b)
    (hn : OnChain (succ b) heads n) (slot : Nat) {t : List UInt8} (ht : t.length < 65536) :
    (∃ b', table_heap.with_page b (some n) (update_section ⟨some n, slot⟩ t) =
        (.ok (some .not_found), b') ∧ tupleOf (rows heads b n) slot = none ∧
      Ran evicts heads pins pending b b' ∧ rows heads b' = rows heads b) ∨
    (∃ b' old, table_heap.with_page b (some n) (update_section ⟨some n, slot⟩ t) =
        (.ok (some (.placed ⟨some n, slot⟩)), b') ∧ tupleOf (rows heads b n) slot = some old ∧
      Ran evicts heads pins pending b b' ∧
      rows heads b' = Function.update (rows heads b) n ((rows heads b n).set slot (some t))) ∨
    (∃ b' old, table_heap.with_page b (some n) (update_section ⟨some n, slot⟩ t) =
        (.ok (some .no_room), b') ∧ tupleOf (rows heads b n) slot = some old ∧
      Ran evicts heads pins pending b b' ∧
      rows heads b' = Function.update (rows heads b) n ((rows heads b n).set slot none)) ∨
    (table_heap.with_page b (some n) (update_section ⟨some n, slot⟩ t) = (.ok none, b) ∧
      AllPinned b) := by
  have hsec : ∀ page : Page, page.page_id = some n → meaning page.data = contents b n →
      Good (update_section ⟨some n, slot⟩ t page).2.1 ∧
        (update_section ⟨some n, slot⟩ t page).2.1.header.next_page_id = (contents b n).next ∧
        (evicts → (update_section ⟨some n, slot⟩ t page).2.2 = true ∨ page.is_dirty = true ∨
          meaning (update_section ⟨some n, slot⟩ t page).2.1 = contents b n) := by
    intro page hid hm
    have g : Good page.data := (congrArg Meaning.good hm).mpr (H.pages n hn).1
    have hnext : page.data.header.next_page_id = (contents b n).next := congrArg Meaning.next hm
    rcases update_section_spec slot g hid ht with
      ⟨d, u, _⟩ | ⟨_, d, u, _, u3, u4, _⟩ | ⟨_, d, u, _, u3, u4, _⟩
    · rw [u]
      exact ⟨g, hnext, fun _ => Or.inr (Or.inr hm)⟩
    · rw [u]
      exact ⟨u3, u4.trans hnext, fun _ => Or.inl rfl⟩
    · rw [u]
      exact ⟨u3, u4.trans hnext, fun _ => Or.inl rfl⟩
  rcases H.with_page hn _ (fun page hid hm _ => hsec page hid hm) with
    ⟨page, b', h1, hid, g, h4, h5, h6⟩ | ⟨h1, hall⟩
  swap
  · exact Or.inr (Or.inr (Or.inr ⟨h1, hall⟩))
  rw [h1]
  rcases update_section_spec slot g hid ht with
    ⟨d, u, u2⟩ | ⟨old, d, u, u2, _, _, u5⟩ | ⟨old, d, u, u2, _, _, u5⟩
  · left
    rw [u] at h6 ⊢
    simp only at h6
    rw [h4] at u2 h6
    exact ⟨b', rfl, u2, h5, by rw [h6, Function.update_eq_self]⟩
  · right
    left
    rw [u] at h6 ⊢
    simp only at h6
    rw [h4] at u2
    exact ⟨b', old, rfl, u2, h5, by rw [h6, u5, h4]⟩
  · right
    right
    left
    rw [u] at h6 ⊢
    simp only at h6
    rw [h4] at u2
    exact ⟨b', old, rfl, u2, h5, by rw [h6, u5, h4]⟩

/-- What `update_tuple` does, when it returns. -/
theorem HeapState.update_tuple (H : HeapState evicts pins pending heads b) {h : Nat}
    (hh : heads h) (hn : OnChain (succ b) heads n) {slot : Nat} {t : List UInt8}
    (ht : t.length < 65536) {r : Except String (Option RID)} {b' : BufferPoolManager}
    (hr : update_tuple b (some h) ⟨some n, slot⟩ t = some (r, b'))
    (hroom : ¬ evicts → b'.disk_manager.capacity ≤ b.pool_capacity) :
    Ran evicts heads pins pending b b' ∧ HeapUpdated heads pins h n slot t b b' r := by
  unfold table_heap.update_tuple at hr
  rcases H.update_page hn slot ht with
    ⟨b1, h1, h2, h3, h4⟩ | ⟨b1, old, h1, h2, h3, h4⟩ | ⟨b1, old, h1, h2, h3, h4⟩ | ⟨h1, hall⟩
  all_goals
    simp only [h1] at hr
  · cases hr
    exact ⟨h3, .not_found h2 h4⟩
  · cases hr
    exact ⟨h3, .in_place h2 h4⟩
  · obtain ⟨R, I⟩ := h3.heap.insert_tuple hh hr (by rw [h3.capacity]; exact hroom)
    exact ⟨h3.trans R, .moved h2 h4 h3.capacity I⟩
  · cases hr
    exact ⟨ran_refl H, .no_frame hall rfl⟩

/-- The section of an update leaves a good page with the same link, whatever the size of the
tuple. -/
theorem HeapState.update_section_keeps (H : HeapState evicts pins pending heads b)
    (hn : OnChain (succ b) heads n) (slot : Nat) (t : List UInt8) (page : Page)
    (hid : page.page_id = some n) (hm : meaning page.data = contents b n) :
    Good (update_section ⟨some n, slot⟩ t page).2.1 ∧
      (update_section ⟨some n, slot⟩ t page).2.1.header.next_page_id = (contents b n).next ∧
      (evicts → (update_section ⟨some n, slot⟩ t page).2.2 = true ∨ page.is_dirty = true ∨
        meaning (update_section ⟨some n, slot⟩ t page).2.1 = contents b n) := by
  have g : Good page.data := (congrArg Meaning.good hm).mpr (H.pages n hn).1
  have hnext : page.data.header.next_page_id = (contents b n).next := congrArg Meaning.next hm
  obtain ⟨hsame, hflag, hbelow⟩ := update_section_cut page ⟨some n, slot⟩ t g
  rcases update_section_spec slot g hid (length_cutTuple_lt t) with
    ⟨d, u, _⟩ | ⟨_, d, u, _, u3, u4, _⟩ | ⟨_, d, u, _, u3, u4, _⟩
  · -- nothing was found, and nothing was written
    rw [u] at hsame
    have hpage := update_section_not_found hsame
    rw [hpage]
    exact ⟨g, hnext, fun _ => Or.inr (Or.inr hm)⟩
  · rw [u] at hflag hbelow
    exact ⟨u3.sameBelow hbelow, by rw [hbelow.1, u4, hnext], fun _ => Or.inl hflag⟩
  · rw [u] at hflag hbelow
    exact ⟨u3.sameBelow hbelow, by rw [hbelow.1, u4, hnext], fun _ => Or.inl hflag⟩

/-- An update with a tuple of any size keeps the chains. -/
theorem HeapState.update_ran (H : HeapState True pins pending heads b) {h : Nat}
    (hh : heads h) (hn : OnChain (succ b) heads n) (slot : Nat) (t : List UInt8) :
    ∃ r b', table_heap.update_tuple b (some h) ⟨some n, slot⟩ t = some (r, b') ∧
      Ran True heads pins pending b b' := by
  unfold table_heap.update_tuple
  rcases H.with_page hn _ (fun page hid hm _ => H.update_section_keeps hn slot t page hid hm) with
    ⟨page, b1, h1, _, _, _, R, _⟩ | ⟨h1, _⟩
  · rw [h1]
    generalize (update_section ⟨some n, slot⟩ t page).1 = u
    cases u with
    | not_found => exact ⟨_, b1, rfl, R⟩
    | placed rid => exact ⟨_, b1, rfl, R⟩
    | no_room =>
      obtain ⟨r, b', hr⟩ := R.heap.insert_tuple_returns hh trivial t
      exact ⟨r, b', hr, R.trans (R.heap.insert_tuple hh hr fun h => absurd trivial h).1⟩
  · rw [h1]
    exact ⟨_, b, rfl, ran_refl H⟩

theorem HeapState.update_tuple_returns (H : HeapState evicts pins pending heads b) {h : Nat}
    (hh : heads h) (he : evicts) (hn : OnChain (succ b) heads n) (slot : Nat) {t : List UInt8}
    (ht : t.length < 65536) :
    ∃ r b', table_heap.update_tuple b (some h) ⟨some n, slot⟩ t = some (r, b') := by
  unfold table_heap.update_tuple
  rcases H.update_page hn slot ht with
    ⟨b1, h1, _⟩ | ⟨b1, old, h1, _⟩ | ⟨b1, old, h1, _, h3, _⟩ | ⟨h1, _⟩
  all_goals
    simp only [h1]
  · exact ⟨_, _, rfl⟩
  · exact ⟨_, _, rfl⟩
  · exact h3.heap.insert_tuple_returns hh he t
  · exact ⟨_, _, rfl⟩

end

end duck.table_heap
