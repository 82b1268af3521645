-- When a heap grows: what an insert leaves of the space of the pages that it
-- passes, and when it links a new page to the chain.
import DuckDbms.HeapMap
import DuckDbms.PageSpace

open machine duck.slotted_page duck.disk_manager duck.buffer_pool chain

namespace duck.table_heap

/-! ## The space of the pages, step by step -/

/-- What a step of a call does to the space of the pages. -/
structure Spaced (heads pends : Nat → Prop) (b : BufferPoolManager) (c : InsertCall)
    (b' : BufferPoolManager) (c' : InsertCall) : Prop where
  agrees : Agrees usable_space (fun m => pends m ∨ c'.pending m) b'
  /-- a page that does not take the tuple keeps its space -/
  keeps : c'.pc.result = none → ∀ m, OnChain (succ b) heads m →
    usable_space (view b' m) = usable_space (view b m)
  fits : ∀ rid, c'.pc.result = some (.ok (some rid)) → c.pc.result = none →
    ∃ page n, c.pc = .try_page page ∧ c.page_id = some n ∧ HasRoom (view b n) c.tuple_data.length
  full : ∀ page n, c.pc = .try_page page → c'.pc.result = none → c.page_id = some n →
    ¬ HasRoom (view b n) c.tuple_data.length

section
variable {heads : Nat → Prop} {outside : Nat → Nat} {pends : Nat → Prop}
  {b b' : BufferPoolManager} {c c' : InsertCall}

/-- A step that changes no data of a page. -/
theorem Spaced.of_same (hagrees : Agrees usable_space (fun m => pends m ∨ c'.pending m) b')
    (hview : ∀ m, OnChain (succ b) heads m → usable_space (view b' m) = usable_space (view b m))
    (hno : ∀ page, c.pc ≠ .try_page page)
    (hres : ∀ rid, c'.pc.result = some (.ok (some rid)) → c.pc.result ≠ none) :
    Spaced heads pends b c b' c' :=
  ⟨hagrees, fun _ => hview, fun rid hr hn => absurd hn (hres rid hr),
    fun page _ hpc => absurd hpc (hno page)⟩

theorem usable_space_set_next_page {d : PageData} (g : Good d) (p : PageID) :
    usable_space (set_next_page d p) = usable_space d := by
  have g' : Good (set_next_page d p) :=
    ⟨g.dir_le, g.free_le, g.inside, g.apart, g.live_le, g.unused⟩
  have hc : is_compacted (set_next_page d p) = is_compacted d := by
    rw [Bool.eq_iff_iff, is_compacted_iff g, is_compacted_iff g']
    rfl
  unfold usable_space
  rw [hc, free_space_bytes_compact g, free_space_bytes_compact g']
  rfl

variable (H : HeapState True (fun m => outside m + c.pins m) (fun m => pends m ∨ c.pending m)
  heads b) (I : CallInv heads b c)
  (A : Agrees usable_space (fun m => pends m ∨ c.pending m) b)

include H I A

theorem spaced_fetch (hpc : c.pc = .fetch) (hstep : insert_step b c = some (b', c')) :
    Spaced heads pends b c b' c' := by
  obtain ⟨h, n, h1, h2, h3, h4⟩ := I.heap (by rw [hpc]; rfl)
  have ha := (H.pages n ⟨h, h2, h4⟩).2
  have S := H.store
  rw [pins_idle (by rw [hpc]; rfl) (by rw [hpc]; rfl),
    pends_none (by rw [hpc]; rfl) (by rw [hpc]; rfl)] at S
  rw [pends_none (by rw [hpc]; rfl) (by rw [hpc]; rfl)] at A
  obtain ⟨A', hview⟩ := A.fetch_page S.inv S.faults S.held ha.1
  unfold insert_step at hstep
  rw [hpc] at hstep
  simp only [h3] at hstep
  generalize b.fetch_page (some n) = r at *
  obtain ⟨_ | _ | page, b1⟩ := r
  all_goals
    cases hstep
    refine .of_same ?_ (fun m _ => hview m) (by simp [hpc]) (by simp [Pc.result])
    rw [pends_none rfl rfl]
    exact A'

theorem spaced_try_page {page : FrameID} (hpc : c.pc = .try_page page)
    (hstep : insert_step b c = some (b', c')) : Spaced heads pends b c b' c' := by
  obtain ⟨h, n, h1, h2, h3, h4, ht, hid, hm, hgood, _⟩ := visited H I (f := page) (by rw [hpc]; rfl)
  have g : Good (b.frames page).data := (congrArg Meaning.good hm).mpr hgood
  have hsize := I.size (by rw [hpc]; rfl)
  have hv := view_cached ht
  have hpage : ∀ k, c.page_id = some k → n = k := fun k hk => Option.some.inj (h3.symm.trans hk)
  rw [pends_none (by rw [hpc]; rfl) (by rw [hpc]; rfl)] at A
  unfold insert_step at hstep
  rw [hpc] at hstep
  simp only at hstep
  rcases try_insert_spec g (t := c.tuple_data) (by omega) with ⟨i, t1, _, t3, _⟩ | ⟨t1, t2, _⟩
  · generalize try_insert (b.frames page).data c.tuple_data = r at *
    obtain ⟨o, d⟩ := r
    simp only at t1
    subst t1
    obtain ⟨rfl, hc'⟩ := Prod.mk.inj (Option.some.inj hstep)
    have A' := A.set_data H.store.inv (fun m => pends m ∨ m = n) ht d (fun m => Or.inl)
      (Or.inl (Or.inr rfl))
    have hres : c'.pc.result ≠ none := by
      rw [← hc']
      simp [Pc.result]
    refine ⟨?_, fun hr => absurd hr hres,
      fun rid _ _ => ⟨page, n, hpc, h3, by rw [hv]; exact t3⟩, fun _ k _ hr _ => absurd hr hres⟩
    rw [pends_page (c := c') (by rw [← hc']; rfl) (by rw [← hc']; rfl) (by rw [← hc']; exact h3)]
    exact A'
  · have hspace := usable_space_try_insert g (t := c.tuple_data) (by omega) t1
    generalize try_insert (b.frames page).data c.tuple_data = r at *
    obtain ⟨o, d⟩ := r
    simp only at t1 hspace
    subst t1
    simp only at hstep
    obtain ⟨hn, hother⟩ := view_set_data H.store.inv ht d
    have A' := A.set_data H.store.inv pends ht d (fun m => id) (Or.inr (Or.inr (by rw [hv, hspace])))
    have hview : ∀ m, usable_space (view (b.set_data page d) m) = usable_space (view b m) := by
      intro m
      by_cases hmn : m = n
      · rw [hmn, hn, hv, hspace]
      · rw [hother m hmn]
    have hfull : ∀ k, c.page_id = some k → ¬ HasRoom (view b k) c.tuple_data.length := by
      intro k hk
      rw [← hpage k hk, hv]
      exact t2
    split at hstep
    · split at hstep
      all_goals
        cases hstep
        refine ⟨?_, fun _ m _ => hview m, fun rid hr _ => (by cases hr), fun _ k _ _ => hfull k⟩
        rw [pends_none rfl rfl]
        exact A'
    · cases hstep
      refine ⟨?_, fun _ m _ => hview m, fun rid hr _ => (by cases hr), fun _ k _ _ => hfull k⟩
      rw [pends_none rfl rfl]
      exact A'

theorem spaced_create {page : FrameID} (hpc : c.pc = .create page)
    (hstep : insert_step b c = some (b', c')) : Spaced heads pends b c b' c' := by
  have hob := I.unused (I.creating page hpc)
  have S := H.store
  rw [pends_none (by rw [hpc]; rfl) (by rw [hpc]; rfl)] at S
  rw [pends_none (by rw [hpc]; rfl) (by rw [hpc]; rfl)] at A
  obtain ⟨hnew, hnone⟩ := A.new_page S fun he => absurd trivial he
  obtain ⟨x, hg, hcases⟩ := S.new_page fun he => absurd trivial he
  unfold insert_step at hstep
  rw [hpc] at hstep
  simp only at hstep
  rcases hcases with ⟨f, b1, hb, B, _⟩ | ⟨hb, _⟩
  · rw [hb] at hstep
    obtain ⟨rfl, hc'⟩ := Prod.mk.inj (Option.some.inj hstep)
    obtain ⟨A', hview⟩ := hnew f _ x hb B.table
    refine .of_same ?_ (fun m hm => hview m ?_) (by simp [hpc]) (by simp [← hc', Pc.result])
    · rw [pends_new (c := c') (x := x) (by rw [← hc']; rfl) (by rw [← hc']; rfl) ?_]
      · exact A'
      · rw [← hc']
        simp only [hob, (B.store.inv.holds x f).mp B.table]
    · rintro rfl
      exact hg.fresh (H.pages _ hm).2
  · rw [hb] at hstep
    cases hstep
    obtain ⟨A', hview⟩ := hnone _ hb
    refine .of_same ?_ (fun m _ => hview m) (by simp [hpc]) (by simp [Pc.result])
    rw [pends_none rfl rfl]
    exact A'

theorem spaced_init_new {page next_page : FrameID} (hpc : c.pc = .init_new page next_page)
    (hstep : insert_step b c = some (b', c')) : Spaced heads pends b c b' c' := by
  obtain ⟨x, hx, _, _, hxc, _⟩ := I.new (by rw [hpc]; rfl)
  have ht := I.new_frame next_page (by rw [hpc]; rfl) (some x) (by simp [hx])
  rw [pends_new (by rw [hpc]; rfl) (by rw [hpc]; rfl) hx] at A
  unfold insert_step at hstep
  rw [hpc] at hstep
  obtain ⟨rfl, hc'⟩ := Prod.mk.inj (Option.some.inj hstep)
  obtain ⟨_, hother⟩ := view_set_data H.store.inv ht (init (b.frames next_page).data)
  have A' := A.set_data H.store.inv _ ht (init (b.frames next_page).data) (fun m => id)
    (Or.inl (Or.inr rfl))
  refine .of_same ?_ (fun m hm => ?_) (by simp [hpc]) (by simp [← hc', Pc.result])
  · rw [pends_new (c := c') (by rw [← hc']; rfl) (by rw [← hc']; rfl) (by rw [← hc']; exact hx)]
    exact A'
  · rw [hother m fun he => hxc (he ▸ hm)]

theorem spaced_unpin_new {page next_page : FrameID} (hpc : c.pc = .unpin_new page next_page)
    (hstep : insert_step b c = some (b', c')) : Spaced heads pends b c b' c' := by
  obtain ⟨x, hx, _⟩ := I.new (by rw [hpc]; rfl)
  have ht := I.new_frame next_page (by rw [hpc]; rfl) (some x) (by simp [hx])
  have hid := (H.store.inv.holds x next_page).mp ht
  have hpos : 0 < outside x + c.pins x := by
    unfold InsertCall.pins
    rw [if_pos (c := c.pc.pins_new = true ∧ some x ∈ c.obtained) ⟨by rw [hpc]; rfl, by simp [hx]⟩]
    omega
  rw [pends_new (by rw [hpc]; rfl) (by rw [hpc]; rfl) hx] at A
  unfold insert_step at hstep
  rw [hpc] at hstep
  simp only [hid] at hstep
  cases hstep
  have hview := view_unpin_page H.store.inv hpos true
  have A' := A.unpin_page H.store.inv pends hpos true fun m hm => hm.imp id fun h => ⟨h, rfl⟩
  refine .of_same ?_ (fun m _ => by rw [hview m]) (by simp [hpc]) (by simp [Pc.result])
  rw [pends_none rfl rfl]
  exact A'

theorem spaced_relink {page next_page : FrameID} (hpc : c.pc = .relink page next_page)
    (hstep : insert_step b c = some (b', c')) : Spaced heads pends b c b' c' := by
  obtain ⟨h, n, h1, h2, h3, h4, ht, _, hm, hgood, _⟩ := visited H I (f := page) (by rw [hpc]; rfl)
  have g : Good (b.frames page).data := (congrArg Meaning.good hm).mpr hgood
  rw [pends_none (by rw [hpc]; rfl) (by rw [hpc]; rfl)] at A
  unfold insert_step at hstep
  rw [hpc] at hstep
  simp only at hstep
  split at hstep
  · obtain ⟨rfl, hc'⟩ := Prod.mk.inj (Option.some.inj hstep)
    obtain ⟨hn, hother⟩ := view_set_data H.store.inv ht
      (set_next_page (b.frames page).data (b.frames next_page).page_id)
    have A' := A.set_data H.store.inv (fun m => pends m ∨ m = n) ht
      (set_next_page (b.frames page).data (b.frames next_page).page_id) (fun m => Or.inl)
      (Or.inl (Or.inr rfl))
    refine .of_same ?_ (fun m _ => ?_) (by simp [hpc]) (by simp [← hc', Pc.result])
    · rw [pends_page (c := c') (by rw [← hc']; rfl) (by rw [← hc']; rfl) (by rw [← hc']; exact h3)]
      exact A'
    · by_cases hmn : m = n
      · rw [hmn, hn, view_cached ht, usable_space_set_next_page g]
      · rw [hother m hmn]
  · cases hstep
    refine .of_same ?_ (fun m _ => rfl) (by simp [hpc]) (by simp [Pc.result])
    rw [pends_none rfl rfl]
    exact A

theorem spaced_leave {page : FrameID} {dirty : Bool} {after : After}
    (hpc : c.pc = .leave page dirty after) (hstep : insert_step b c = some (b', c')) :
    Spaced heads pends b c b' c' := by
  obtain ⟨h, n, h1, h2, h3, h4, ht, hid, _⟩ := visited H I (f := page) (by rw [hpc]; rfl)
  have hpos : 0 < outside n + c.pins n := by
    unfold InsertCall.pins
    rw [if_pos (c := c.pc.page.isSome ∧ c.page_id = some n) ⟨by rw [hpc]; rfl, h3⟩]
    omega
  have hview := view_unpin_page H.store.inv hpos dirty
  have A' := A.unpin_page H.store.inv pends hpos dirty fun m hm => by
    refine hm.imp id ?_
    rintro (⟨hd, hp⟩ | ⟨hnew, _⟩)
    · rw [hpc] at hd
      exact ⟨Option.some.inj (hp.symm.trans h3), hd⟩
    · rw [hpc] at hnew
      cases hnew
  unfold insert_step at hstep
  rw [hpc] at hstep
  simp only [hid] at hstep
  cases after with
  | return_ result =>
    cases hstep
    refine .of_same ?_ (fun m _ => by rw [hview m]) (by simp [hpc]) (by simp [Pc.result, hpc])
    rw [pends_none rfl rfl]
    exact A'
  | continue_ page_id =>
    cases hstep
    refine .of_same ?_ (fun m _ => by rw [hview m]) (by simp [hpc]) (by simp [Pc.result])
    rw [pends_none rfl rfl]
    exact A'

/-- One step of a call that does not give its new page back. -/
theorem spaced_step (hkeep : c.pc.gives_back = false)
    (hstep : insert_step b c = some (b', c')) : Spaced heads pends b c b' c' := by
  rcases hpc : c.pc with _ | page | page | ⟨page, g⟩ | ⟨page, g⟩ | ⟨page, g⟩ | ⟨page, g, q⟩ |
    ⟨page, p, q⟩ | ⟨page, dirty, after⟩ | r
  · exact spaced_fetch H I A hpc hstep
  · exact spaced_try_page H I A hpc hstep
  · exact spaced_create H I A hpc hstep
  · exact spaced_init_new H I A hpc hstep
  · exact spaced_unpin_new H I A hpc hstep
  · exact spaced_relink H I A hpc hstep
  · rw [hpc] at hkeep
    cases hkeep
  · rw [hpc] at hkeep
    cases hkeep
  · exact spaced_leave H I A hpc hstep
  · unfold insert_step at hstep
    rw [hpc] at hstep
    cases hstep

end

/-! ## The way along the chain -/

/-- What a call knows of its heap that started at `b0` and runs alone: the pages that it has
passed had no room, and the chain grows when it links a page. -/
structure Seeks (heads pending : Nat → Prop) (h : Nat) (tuple : List UInt8)
    (b0 b : BufferPoolManager) (c : InsertCall) : Prop where
  agrees : Agrees usable_space (fun m => pending m ∨ c.pending m) b
  space : c.pc.result = none → ∀ m, OnChain (succ b0) heads m →
    usable_space (view b m) = usable_space (view b0 m)
  behind : c.linked = [] → ∀ n, c.tries = some (some n) → ∀ m, OnPath (succ b0) h m →
    OnPath (succ b) n m ∨ ¬ HasRoom (view b0 m) tuple.length
  full : c.pc.extends = true → ∀ m, OnPath (succ b0) h m → ¬ HasRoom (view b0 m) tuple.length
  same : c.linked = [] → ∀ m, OnPath (succ b) h m → OnPath (succ b0) h m
  found : c.linked = [] → ∀ rid, c.pc.result = some (.ok (some rid)) →
    ∃ m, OnPath (succ b0) h m ∧ HasRoom (view b0 m) tuple.length
  grown : c.linked ≠ [] → 2 ≤ b.pool_capacity ∧
    (∀ m, OnPath (succ b0) h m → ¬ HasRoom (view b0 m) tuple.length) ∧
    ∃ m, OnPath (succ b) h m ∧ ¬ OnPath (succ b0) h m

section
variable {heads : Nat → Prop} {pins : Nat → Nat} {pending : Nat → Prop} {h : Nat}
  {tuple : List UInt8} {b0 b b' : BufferPoolManager} {c c' : InsertCall}

/-- Two pages in frames take two frames. -/
theorem two_frames {n x f g : Nat} (I : PoolInv b pins) (hn : b.page_table (some n) = some f)
    (hx : b.page_table (some x) = some g) (hne : n ≠ x) : 2 ≤ b.pool_capacity := by
  have hf := (I.holds n f).mp hn
  have hg := (I.holds x g).mp hx
  have hfg : f ≠ g := by
    rintro rfl
    rw [hf] at hg
    exact hne (Option.some.inj hg)
  have h1 := I.used n f hf
  have h2 := I.used x g hg
  have h3 := I.size_le
  omega

/-- Until it has placed its tuple, a call leaves every page as much room as it had. -/
theorem Seeks.hasRoom (K : Seeks heads pending h tuple b0 b c)
    (A : Alone True heads pins pending h tuple b0 b c) (H0 : HeapState True pins pending heads b0)
    (hr : c.pc.result = none) {m : Nat} (hh : heads h) (hm : OnPath (succ b0) h m) :
    HasRoom (view b m) tuple.length ↔ HasRoom (view b0 m) tuple.length := by
  have hm' := A.onPath h hh m hm
  have hrows := congrFun (A.unchanged hr) m
  rw [rows_on ⟨h, hh, hm⟩, rows_on ⟨h, hh, hm'⟩] at hrows
  have hrows : rowsOf (view b m) = rowsOf (view b0 m) := hrows
  rw [hasRoom_iff_usable (A.heap.pages m ⟨h, hh, hm'⟩).1,
    hasRoom_iff_usable (H0.pages m ⟨h, hh, hm⟩).1, K.space hr m ⟨h, hh, hm⟩, hrows]

theorem Alone.first_page (A : Alone True heads pins pending h tuple b0 b c)
    (hrun : c.pc.running = true) : ∃ n, c.page_id = some n ∧ OnPath (succ b) h n := by
  obtain ⟨k, n, h1, _, h3, h4⟩ := A.call.heap hrun
  obtain rfl : h = k := Option.some.inj (A.first.symm.trans h1)
  exact ⟨n, h3, h4⟩

/-- A page that a call goes on from had no room in the beginning. -/
theorem Seeks.no_room (K : Seeks heads pending h tuple b0 b c)
    (A : Alone True heads pins pending h tuple b0 b c) (H0 : HeapState True pins pending heads b0)
    (hh : heads h) (P : Spaced heads pending b c b' c') {page : FrameID} {n : Nat}
    (hpc : c.pc = .try_page page) (hr : c'.pc.result = none) (hid : c.page_id = some n)
    (hn : OnPath (succ b0) h n) : ¬ HasRoom (view b0 n) tuple.length := by
  rw [← K.hasRoom A H0 (by rw [hpc]; rfl) hh hn, ← A.data]
  exact P.full page n hpc hr hid

theorem Seeks.behind_step (K : Seeks heads pending h tuple b0 b c)
    (A : Alone True heads pins pending h tuple b0 b c) (H0 : HeapState True pins pending heads b0)
    (hh : heads h) (P : Spaced heads pending b c b' c') (M : Move b b' c c')
    (hl : c'.linked = []) {n : Nat} (hn : c'.tries = some (some n)) {m : Nat}
    (hm : OnPath (succ b0) h m) :
    OnPath (succ b') n m ∨ ¬ HasRoom (view b0 m) tuple.length := by
  cases M with
  | found hpc hc | continued hpc hc =>
    rw [succ_congr hc]
    refine K.behind hl n ?_ m hm
    unfold InsertCall.tries at hn ⊢
    rw [hpc]
    exact hn
  | @full page k x hpc hid hnext hc =>
    obtain rfl : x = n := by
      unfold InsertCall.tries at hn
      simpa using hn
    rw [succ_congr hc]
    rcases K.behind hl k (by unfold InsertCall.tries; rw [hpc, hid]) m hm with hon | hno
    · rcases hon.cases with rfl | ⟨y, hy, hon⟩
      · exact Or.inr (K.no_room A H0 hh P hpc rfl hid hm)
      · rw [hnext] at hy
        cases hy
        exact Or.inl hon
    · exact Or.inr hno
  | linked => cases hl
  | gave_back hpc =>
    have := A.keeps
    rw [hpc] at this
    cases this
  | not_found | placed | stuck | last | created | not_created | inited | unpinned | passed | read
  | returned => cases hn

theorem Seeks.full_step (K : Seeks heads pending h tuple b0 b c)
    (A : Alone True heads pins pending h tuple b0 b c) (H0 : HeapState True pins pending heads b0)
    (hh : heads h) (P : Spaced heads pending b c b' c') (M : Move b b' c c')
    (he : c'.pc.extends = true) {m : Nat} (hm : OnPath (succ b0) h m) :
    ¬ HasRoom (view b0 m) tuple.length := by
  cases M with
  | @last page n hpc hid hend hc =>
    have hl : c.linked = [] := by
      refine List.eq_nil_iff_forall_not_mem.mpr fun p hp => ?_
      have := A.call.linked p hp
      rw [A.call.unused hc] at this
      cases this
    rcases K.behind hl n (by unfold InsertCall.tries; rw [hpc, hid]) m hm with hon | hno
    · rcases hon.cases with rfl | ⟨y, hy, _⟩
      · exact K.no_room A H0 hh P hpc rfl hid hm
      · rw [hend] at hy
        cases hy
    · exact hno
  | created hpc | inited hpc | unpinned hpc => exact K.full (by rw [hpc]; rfl) m hm
  | found | not_found | placed | stuck | full | not_created | linked | passed | read | gave_back
  | returned | continued => cases he

/-- The links of a call only get more. -/
theorem Move.linked_nil (M : Move b b' c c') (hl : c'.linked = []) : c.linked = [] := by
  cases M <;> first | exact hl | cases hl

theorem Seeks.same_step (K : Seeks heads pending h tuple b0 b c) (hh : heads h)
    (W : Stepped True heads pins pending b c b' c') (hl : c'.linked = []) {m : Nat}
    (hm : OnPath (succ b') h m) : OnPath (succ b0) h m := by
  refine K.same (W.move.linked_nil hl) m ?_
  rcases W.onPath_back h hh m hm with hon | ⟨_, page, next_page, hrelink⟩
  · exact hon
  · have M := W.move
    cases M with
    | linked => cases hl
    | passed _ _ _ hb =>
      rw [hb] at hm
      exact hm
    | found hpc | not_found hpc | placed hpc | stuck hpc | last hpc | full hpc | created hpc
    | not_created hpc | inited hpc | unpinned hpc | read hpc | gave_back hpc | returned hpc
    | continued hpc =>
      rw [hpc] at hrelink
      cases hrelink

theorem Seeks.found_step (K : Seeks heads pending h tuple b0 b c)
    (A : Alone True heads pins pending h tuple b0 b c) (H0 : HeapState True pins pending heads b0)
    (hh : heads h) (P : Spaced heads pending b c b' c') (M : Move b b' c c')
    (hl : c'.linked = []) {rid : RID} (hr : c'.pc.result = some (.ok (some rid))) :
    ∃ m, OnPath (succ b0) h m ∧ HasRoom (view b0 m) tuple.length := by
  have hl0 := M.linked_nil hl
  rcases hres : c.pc.result with _ | r
  · obtain ⟨page, n, hpc, hid, hfits⟩ := P.fits rid hr hres
    obtain ⟨k, hk, hon⟩ := A.first_page (by rw [hpc]; rfl)
    obtain rfl : n = k := Option.some.inj (hid.symm.trans hk)
    have hn := K.same hl0 n hon
    rw [A.data] at hfits
    exact ⟨n, hn, (K.hasRoom A H0 hres hh hn).mp hfits⟩
  · cases M with
    | returned hpc =>
      refine K.found hl0 rid ?_
      rw [hpc]
      exact hr
    | found hpc | not_found hpc | placed hpc | stuck hpc | last hpc | full hpc | created hpc
    | not_created hpc | inited hpc | unpinned hpc | linked hpc | passed hpc | read hpc
    | gave_back hpc | continued hpc =>
      rw [hpc] at hres
      cases hres

theorem Seeks.grown_step (K : Seeks heads pending h tuple b0 b c)
    (A : Alone True heads pins pending h tuple b0 b c) (H0 : HeapState True pins pending heads b0)
    (hh : heads h) (W : Stepped True heads pins pending b c b' c') (hl : c'.linked ≠ []) :
    2 ≤ b'.pool_capacity ∧ (∀ m, OnPath (succ b0) h m → ¬ HasRoom (view b0 m) tuple.length) ∧
      ∃ m, OnPath (succ b') h m ∧ ¬ OnPath (succ b0) h m := by
  rw [W.pool_capacity]
  by_cases hl0 : c.linked = []
  · have M := W.move
    generalize hd : c' = d at M
    cases M with
    | @linked page next_page n x hpc hid hend hx hc =>
      obtain ⟨k, hk, hon⟩ := A.first_page (by rw [hpc]; rfl)
      obtain rfl : n = k := Option.some.inj (hid.symm.trans hk)
      obtain ⟨hob, _, hxc, _⟩ := A.call.fresh_new hx
      have hne : n ≠ x := fun he => hxc (he ▸ ⟨h, hh, hon⟩)
      have hn := A.call.frame page (by rw [hpc]; rfl)
      have hxf := A.call.new_frame next_page (by rw [hpc]; rfl) (some x) (by simp [hob])
      rw [hid] at hn
      refine ⟨two_frames A.heap.store.inv hn hxf hne,
        fun m hm => K.full (by rw [hpc]; rfl) m hm, x, (W.onPath h hh n hon).follow ?_, ?_⟩
      · unfold succ
        rw [hc, Function.update_self]
      · intro hx0
        exact (A.fresh x hx).2 (H0.pages x ⟨h, hh, hx0⟩).2
    | found | not_found | placed | stuck | last | full | created | not_created | inited
    | unpinned | passed | read | gave_back | returned | continued =>
      rw [hd] at hl
      exact absurd hl0 hl
  · obtain ⟨h2, hno, m, hm, hm0⟩ := K.grown hl0
    exact ⟨h2, hno, m, W.onPath h hh m hm, hm0⟩

theorem Seeks.step (K : Seeks heads pending h tuple b0 b c)
    (A : Alone True heads pins pending h tuple b0 b c) (H0 : HeapState True pins pending heads b0)
    (hh : heads h) (hstep : insert_step b c = some (b', c'))
    (W : Stepped True heads pins pending b c b' c') : Seeks heads pending h tuple b0 b' c' := by
  have P := spaced_step A.heap A.call K.agrees A.keeps hstep
  refine ⟨P.agrees, fun hr m hm => ?_, fun hl n hn m hm => K.behind_step A H0 hh P W.move hl hn hm,
    fun he m hm => K.full_step A H0 hh P W.move he hm, fun hl m hm => K.same_step hh W hl hm,
    fun hl rid hr => K.found_step A H0 hh P W.move hl hr, fun hl => K.grown_step A H0 hh W hl⟩
  have hr0 : c.pc.result = none := by
    have M := W.move
    cases M with
    | returned => cases hr
    | found hpc | not_found hpc | placed hpc | stuck hpc | last hpc | full hpc | created hpc
    | not_created hpc | inited hpc | unpinned hpc | linked hpc | passed hpc | read hpc
    | gave_back hpc | continued hpc =>
      rw [hpc]
      rfl
  obtain ⟨k, hk, hon⟩ := hm
  rw [P.keeps hr m ⟨k, hk, A.onPath k hk m hon⟩, K.space hr0 m ⟨k, hk, hon⟩]

theorem seeks_begin (A : Agrees usable_space pending b) (tuple : List UInt8) :
    Seeks heads pending h tuple b b (begin_insert (some h) tuple) := by
  have hpends : (fun m => pending m ∨ (begin_insert (some h) tuple).pending m) = pending := by
    funext m
    simp [pending_begin]
  have hpc := begin_insert_pc (some h) tuple
  refine ⟨by rw [hpends]; exact A, fun _ _ _ => rfl, ?_, ?_, fun _ _ => id, ?_,
    fun hl => absurd rfl hl⟩
  · rintro _ n hn m hm
    rcases hpc with ⟨hpc, _⟩ | ⟨hpc, _⟩
    · unfold InsertCall.tries at hn
      rw [hpc] at hn
      cases hn
      exact Or.inl hm
    · unfold InsertCall.tries at hn
      rw [hpc] at hn
      cases hn
  · intro he
    rcases hpc with ⟨hpc, _⟩ | ⟨hpc, _⟩
    all_goals
      rw [hpc] at he
      cases he
  · intro _ rid hr
    rcases hpc with ⟨hpc, _⟩ | ⟨hpc, _⟩
    all_goals
      rw [hpc] at hr
      cases hr

/-- The steps of a call up to its end. -/
theorem Seeks.run (K : Seeks heads pending h tuple b0 b c)
    (A : Alone True heads pins pending h tuple b0 b c) (H0 : HeapState True pins pending heads b0)
    (hh : heads h) {fuel : Nat} {r : Except String (Option RID)} {bf : BufferPoolManager}
    (hr : run_insert fuel b c = some (r, bf)) :
    ∃ cf, cf.pc = .done r ∧ Alone True heads pins pending h tuple b0 bf cf ∧
      Seeks heads pending h tuple b0 bf cf := by
  induction fuel generalizing b c with
  | zero => cases hr
  | succ fuel ih =>
    unfold run_insert at hr
    split at hr
    · rename_i r' hpc
      cases hr
      exact ⟨c, hpc, A, K⟩
    · rename_i hnot
      have hrun : c.pc.running = true := by
        rcases hpc : c.pc with _ | _ | _ | _ | _ | _ | _ | _ | _ | r'
        all_goals first | rfl | exact absurd hpc (hnot r')
      obtain ⟨⟨b', c'⟩, hstep, hr⟩ := Option.bind_eq_some_iff.mp hr
      have hroom : ¬ True → ∀ page, c.pc = .create page →
          b.allocate_page.2.disk_manager.capacity ≤ b.pool_capacity := fun he => absurd trivial he
      obtain ⟨b1, c1, h1, A', _⟩ := A.step H0.store.held hrun hroom
      obtain ⟨b2, c2, h2, W⟩ := insert_step_spec A.heap A.call hrun hroom H0.store.held
        fun m hm => (A.fresh m hm).1
      rw [hstep] at h1 h2
      cases h1
      cases h2
      exact ih (K.step A H0 hh hstep W) A' hr

/-- The chain of a heap has got a page. -/
def Grows (h : Nat) (b b' : BufferPoolManager) : Prop :=
  ∃ m, OnPath (succ b') h m ∧ ¬ OnPath (succ b) h m

theorem Seeks.not_grows (K : Seeks heads pending h tuple b0 b c) (hl : c.linked = []) :
    ¬ Grows h b0 b := by
  rintro ⟨m, hm, hm0⟩
  exact hm0 (K.same hl m hm)

end

section
variable {heads : Nat → Prop} {h : Nat} {b : BufferPoolManager}

/-- An insert that runs alone links a new page exactly when no page of the chain had room, and
the pool has a frame for the new page next to the last one. -/
theorem HeapState.insert_grows
    (H : HeapState True (fun _ => 0) (fun _ => False) heads b) (hh : heads h)
    (A : Agrees usable_space (fun _ => False) b) (tuple : List UInt8) :
    ∃ r b', table_heap.insert_tuple b (some h) tuple = some (r, b') ∧
      Ran True heads (fun _ => 0) (fun _ => False) b b' ∧
      Agrees usable_space (fun _ => False) b' ∧
      (tuple.length ≤ 8180 → (Grows h b b' ↔ 2 ≤ b.pool_capacity ∧
        ∀ n, OnPath (succ b) h n → ¬ HasRoom (view b n) tuple.length)) := by
  obtain ⟨r, b', hr⟩ := H.insert_tuple_returns hh trivial tuple
  obtain ⟨R, hins⟩ := H.insert_tuple hh hr fun he => absurd trivial he
  obtain ⟨c, hpc, A', K⟩ := (seeks_begin A tuple).run (alone_begin H hh tuple) H hh hr
  have hagrees := K.agrees
  rw [pends_none (by rw [hpc]; rfl) (by rw [hpc]; rfl)] at hagrees
  refine ⟨r, b', hr, R, hagrees, fun ht => ?_⟩
  by_cases hl : c.linked = []
  · refine ⟨fun hg => absurd hg (K.not_grows hl), ?_⟩
    rintro ⟨h2, hno⟩
    cases hins with
    | placed =>
      obtain ⟨m, hm, hroom⟩ := K.found hl _ (by rw [hpc]; rfl)
      exact absurd hroom (hno m hm)
    | refused _ _ hno => exact absurd ⟨ht, h2, fun _ => rfl⟩ hno
  · obtain ⟨h2, hno, hnew⟩ := K.grown hl
    rw [R.capacity] at h2
    exact ⟨fun _ => ⟨h2, hno⟩, fun _ => hnew⟩

end

/-! ## The other calls -/

section
variable {heads : Nat → Prop} {b b' : BufferPoolManager} {n : Nat}

/-- A section that changes the space of its page marks it dirty, or finds it so. -/
theorem agrees_with_page {α : Type} (A : Agrees usable_space (fun _ => False) b)
    (S : Store True (fun _ => 0) (fun _ => False) b) (ha : Allocated b.disk_manager n)
    (section_ : Page → α × PageData × Bool)
    (hsec : ∀ page : Page,
      (∀ f, b.page_table (some n) = some f → page.is_dirty = (b.frames f).is_dirty) →
      (section_ page).2.2 = true ∨ page.is_dirty = true ∨
        usable_space (section_ page).2.1 = usable_space page.data) :
    Agrees usable_space (fun _ => False) (with_page b (some n) section_).2 := by
  obtain ⟨A1, _⟩ := A.fetch_page S.inv S.faults S.held ha.1
  unfold with_page
  rcases S.fetch_page ha with ⟨f, b1, hf, B, _⟩ | ⟨hf, _⟩
  · have hsec := hsec (b1.frames f) fun g hg => by
      obtain ⟨rfl, hd⟩ := fetch_page_cached hf hg
      exact hd
    rw [hf] at A1 ⊢
    simp only at A1 ⊢
    generalize section_ (b1.frames f) = r at hsec ⊢
    obtain ⟨a, d, dirty⟩ := r
    simp only at hsec ⊢
    have hpos : 0 < pinMore (fun _ => 0) n n := by
      rw [pinMore_apply, if_pos rfl]
      omega
    have A2 := A1.set_data B.store.inv (fun m => m = n ∧ dirty = true) B.table d
      (fun m hm => hm.elim) (by
        rcases hsec with h | h | h
        · exact Or.inl ⟨rfl, h⟩
        · exact Or.inr (Or.inl h)
        · exact Or.inr (Or.inr (by rw [h, view_cached B.table])))
    have I2 := B.store.inv.set_data B.table d
    rw [(I2.holds n f).mp B.table]
    exact A2.unpin_page I2 _ hpos dirty fun m hm => Or.inr hm
  · rw [hf]
    exact A

theorem agrees_create (A : Agrees usable_space (fun _ => False) b)
    (S : Store True (fun _ => 0) (fun _ => False) b) :
    Agrees usable_space (fun _ => False) (table_heap.create b).2 := by
  obtain ⟨hnew, hnone⟩ := A.new_page S fun he => absurd trivial he
  obtain ⟨x, _, hcases⟩ := S.new_page fun he => absurd trivial he
  unfold table_heap.create
  rcases hcases with ⟨f, b1, hb, B, _⟩ | ⟨hb, _⟩
  · obtain ⟨A1, _⟩ := hnew f b1 x hb B.table
    rw [hb]
    simp only
    have hpos : 0 < pinMore (fun _ => 0) x x := by
      rw [pinMore_apply, if_pos rfl]
      omega
    have A2 := A1.set_data B.store.inv _ B.table (init (b1.frames f).data) (fun m => id)
      (Or.inl (Or.inr rfl))
    have I2 := B.store.inv.set_data B.table (init (b1.frames f).data)
    rw [(I2.holds x f).mp B.table]
    exact A2.unpin_page I2 _ hpos true fun m hm => hm.imp id fun h => ⟨h, rfl⟩
  · rw [hb]
    exact (hnone _ hb).1

/-- The section of an update leaves its page as it found it, or marks it dirty. -/
theorem update_section_marks (rid : RID) (t : List UInt8) (page : Page) :
    (update_section rid t page).2.2 = true ∨ (update_section rid t page).2.1 = page.data := by
  have hupdate : ∀ d, try_update_in_place page.data rid t = (false, d) → d = page.data := by
    intro d h
    unfold try_update_in_place at h
    split at h
    · cases h
      rfl
    · simp only at h
      split at h
      · cases h
        rfl
      · split at h
        · cases h
          rfl
        · cases h
  have hdelete : ∀ d d', slotted_page.delete_tuple d rid.slot_num = (false, d') → d' = d := by
    intro d d' h
    unfold slotted_page.delete_tuple at h
    split at h
    · cases h
      rfl
    · split at h
      · cases h
        rfl
      · cases h
  unfold update_section
  split
  · exact Or.inr rfl
  · split
    · exact Or.inl rfl
    · rename_i d hu
      split
      · rename_i d' hd
        exact Or.inr (by rw [hdelete d d' hd, hupdate d hu])
      · simp only
        split <;> exact Or.inl rfl

end

/-! ## The heaps of one thread -/

/-- The pool, and the first pages of the heaps that were created in it. -/
structure Heaps where
  pool : BufferPoolManager
  first_pages : List Nat

inductive HeapsEvent
  | create
  | call (first_page_id : Nat) (call : HeapCall)
  | restore (rid : RID) (tuple : List UInt8)

/-- A call may throw; an assertion that fails has no next state. -/
def Heaps.next (s : Heaps) : HeapsEvent → Option Heaps
  | .create =>
    match table_heap.create s.pool with
    | (.ok (some x), b) => some ⟨b, x :: s.first_pages⟩
    | (_, b) => some { s with pool := b }
  | .call first_page_id call =>
    (call.run s.pool (some first_page_id)).map fun r => { s with pool := r.2 }
  | .restore rid tuple => (restore_tuple s.pool rid tuple).map fun r => { s with pool := r.2 }

/-- It starts with an empty pool over a file that keeps its header page to itself. -/
def heapsMachine : Machine Heaps HeapsEvent where
  start s := ∃ d frames, s = ⟨.make d frames, []⟩ ∧ NoFaults d ∧ d.free_list.Nodup ∧
    (∀ p ∈ d.free_list, ∃ n, p = some n ∧ n < d.capacity) ∧ Allocated d 0
  next := Heaps.next

/-- The RID is on a page of the heaps. -/
def Heaps.Has (s : Heaps) (rid : RID) : Prop :=
  ∃ n, rid.page_id = some n ∧ OnChain (succ s.pool) (· ∈ s.first_pages) n

/-- Calls name heaps and RIDs that there are, and tuples fit into the size of a slot; a restore
runs on a page that is dirty in its frame, as after the delete that it undoes. -/
def OwnHeaps (s : Heaps) : HeapsEvent → Prop
  | .create => True
  | .call h call => h ∈ s.first_pages ∧ match call with
    | .insert _ => True
    | .get rid | .delete rid => s.Has rid
    | .update rid tuple => s.Has rid ∧ tuple.length < 65536
  | .restore rid tuple => s.Has rid ∧ tuple.length < 65536 ∧
      ∃ f, s.pool.page_table rid.page_id = some f ∧ (s.pool.frames f).is_dirty = true

/-- The heaps are chains of good pages, and no eviction changes the space of a page. -/
structure HeapsInv (s : Heaps) : Prop where
  heap : HeapState True (fun _ => 0) (fun _ => False) (· ∈ s.first_pages) s.pool
  agrees : Agrees usable_space (fun _ => False) s.pool

section
variable {s t : Heaps}

theorem HeapsInv.create (I : HeapsInv s) (h : s.next .create = some t) : HeapsInv t := by
  have A := agrees_create I.agrees I.heap.store
  unfold Heaps.next at h
  simp only at h
  rcases I.heap.create fun he => absurd trivial he with ⟨x, b', hc, _, K, _⟩ | ⟨e, hc, _, K, _⟩
  · rw [hc] at h A
    cases h
    refine ⟨?_, A⟩
    have hheads : (· ∈ x :: s.first_pages) = fun h => h ∈ s.first_pages ∨ h = x := by
      funext h
      rw [List.mem_cons, or_comm]
    show HeapState True _ _ (· ∈ x :: s.first_pages) b'
    rw [hheads]
    exact K
  · rw [hc] at h A
    cases h
    exact ⟨K, A⟩

theorem HeapsInv.update (I : HeapsInv s) {h n slot : Nat} {tuple : List UInt8}
    {r : Except String (Option RID)} {b' : BufferPoolManager} (hh : h ∈ s.first_pages)
    (hn : OnChain (succ s.pool) (· ∈ s.first_pages) n)
    (hr : update_tuple s.pool (some h) ⟨some n, slot⟩ tuple = some (r, b')) :
    Agrees usable_space (fun _ => False) b' := by
  have ha := (I.heap.pages n hn).2
  have A := agrees_with_page I.agrees I.heap.store ha (update_section ⟨some n, slot⟩ tuple)
    fun page _ => (update_section_marks _ _ page).imp id fun h => Or.inr (by rw [h])
  unfold update_tuple at hr
  rcases I.heap.with_page hn _
      (fun page hid hm _ => I.heap.update_section_keeps hn slot tuple page hid hm) with
    ⟨page, b1, h1, _, _, _, R, _⟩ | ⟨h1, _⟩
  · rw [h1] at hr A
    generalize (update_section ⟨some n, slot⟩ tuple page).1 = u at hr
    cases u with
    | not_found | placed =>
      cases hr
      exact A
    | no_room =>
      obtain ⟨r', b2, hr', _, A', _⟩ := R.heap.insert_grows hh A tuple
      simp only at hr
      rw [hr'] at hr
      cases hr
      exact A'
  · rw [h1] at hr A
    cases hr
    exact A

theorem HeapsInv.call (I : HeapsInv s) {h : Nat} {call : HeapCall}
    (hok : OwnHeaps s (.call h call)) (hn : s.next (.call h call) = some t) : HeapsInv t := by
  obtain ⟨hh, hok⟩ := hok
  cases call with
  | insert tuple =>
    obtain ⟨r, b', hr, R, A, _⟩ := I.heap.insert_grows hh I.agrees tuple
    simp only [Heaps.next, HeapCall.run, hr, Option.map_some] at hn
    cases hn
    exact ⟨R.heap, A⟩
  | get rid =>
    obtain ⟨p, slot⟩ := rid
    obtain ⟨n, rfl, hn'⟩ := hok
    have A := agrees_with_page I.agrees I.heap.store (I.heap.pages n hn').2 (fun page =>
      let view := slotted_page.get_tuple page.data slot
      (if view.isEmpty then none else some view, page.data, false))
      fun page _ => Or.inr (Or.inr rfl)
    cases hn
    refine ⟨?_, A⟩
    rcases I.heap.get_tuple hn' slot with ⟨b', hg, R, _⟩ | ⟨hg, _⟩
    · simp only [hg]
      exact R.heap
    · simp only [hg]
      exact I.heap
  | update rid tuple =>
    obtain ⟨p, slot⟩ := rid
    obtain ⟨⟨n, rfl, hn'⟩, _⟩ := hok
    obtain ⟨r, b', hr, R⟩ := I.heap.update_ran hh hn' slot tuple
    have A := I.update hh hn' hr
    simp only [Heaps.next, HeapCall.run, hr, Option.map_some] at hn
    cases hn
    exact ⟨R.heap, A⟩
  | delete rid =>
    obtain ⟨p, slot⟩ := rid
    obtain ⟨n, rfl, hn'⟩ := hok
    have A := agrees_with_page I.agrees I.heap.store (I.heap.pages n hn').2 (fun page =>
      let deleted := slotted_page.delete_tuple page.data slot
      (deleted.1, deleted.2, deleted.1)) fun page _ => by
        simp only
        unfold slotted_page.delete_tuple
        split
        · exact Or.inr (Or.inr rfl)
        · split
          · exact Or.inr (Or.inr rfl)
          · exact Or.inl rfl
    cases hn
    refine ⟨?_, A⟩
    rcases I.heap.delete_tuple hn' slot with ⟨b', hd, R, _⟩ | ⟨hd, _⟩
    · simp only [hd]
      exact R.heap
    · simp only [hd]
      exact I.heap

theorem HeapsInv.restore (I : HeapsInv s) {rid : RID} {tuple : List UInt8}
    (hok : OwnHeaps s (.restore rid tuple)) (hn : s.next (.restore rid tuple) = some t) :
    HeapsInv t := by
  obtain ⟨p, slot⟩ := rid
  obtain ⟨⟨n, rfl, hn'⟩, ht, hdirty⟩ := hok
  have A := agrees_with_page I.agrees I.heap.store (I.heap.pages n hn').2 (fun page =>
    let restored := slotted_page.restore_tuple page.data slot tuple
    (restored.isSome, restored.getD page.data, false)) fun page hflag => by
      obtain ⟨f, hf, hd⟩ := hdirty
      exact Or.inr (Or.inl (by rw [hflag f hf, hd]))
  obtain ⟨⟨r, b'⟩, hr, rfl⟩ := Option.map_eq_some_iff.mp hn
  have hpool : b' = (with_page s.pool (some n) (fun page =>
      let restored := slotted_page.restore_tuple page.data slot tuple
      (restored.isSome, restored.getD page.data, false))).2 := by
    unfold restore_tuple at hr
    simp only at hr
    split at hr <;> cases hr <;> rfl
  refine ⟨?_, by rw [hpool]; exact A⟩
  rcases I.heap.restore_tuple hn' slot ht fun _ => hdirty with
    ⟨b1, h1, _, R, _⟩ | ⟨h1, _⟩ | ⟨h1, _⟩
  · rw [hr] at h1
    cases h1
    exact R.heap
  · rw [hr] at h1
    cases h1
  · rw [hr] at h1
    cases h1
    exact I.heap

theorem heapsInv_reach (hr : heapsMachine.Reach OwnHeaps s) : HeapsInv s := by
  refine hr.invariant ?_ fun s e t I hok hn => ?_
  · rintro _ ⟨d, frames, rfl, hf, hnd, hfree, h0⟩
    refine ⟨?_, agrees_make d frames⟩
    have hheads : (· ∈ ([] : List Nat)) = fun _ : Nat => False := by
      funext h
      simp
    show HeapState True _ _ (· ∈ []) _
    rw [hheads]
    exact heapState_make hf hnd hfree h0 fun he => absurd trivial he
  · cases e with
    | create => exact I.create hn
    | call h call => exact I.call hok hn
    | restore rid tuple => exact I.restore hok hn

/-! ## When the space of a heap is used again -/

/-- An insert links a new page only if no page of the chain could hold the tuple after
compaction. -/
def ReusesSpace (b : BufferPoolManager) (h : Nat) (tuple : List UInt8) : Prop :=
  ∃ r b', insert_tuple b (some h) tuple = some (r, b') ∧
    (Grows h b b' → ∀ n, OnPath (succ b) h n → ¬ CanHold (view b n) tuple.length)

/-- Space is reused unless every page that can hold the tuple has its dead bytes below all its
tuples, where the scan for dead bytes does not look. -/
theorem an_insert_reuses_space_iff_a_scan_finds_it (hr : heapsMachine.Reach OwnHeaps s) {h : Nat}
    (hh : h ∈ s.first_pages) {tuple : List UInt8} (ht : tuple.length ≤ 8180) :
    ReusesSpace s.pool h tuple ↔ s.pool.pool_capacity ≤ 1 ∨
      (∀ n, OnPath (succ s.pool) h n → ¬ CanHold (view s.pool n) tuple.length) ∨
      ∃ n, OnPath (succ s.pool) h n ∧ CanHold (view s.pool n) tuple.length ∧
        ((need (rowsOf (view s.pool n)) tuple.length : Int) ≤ free_space_bytes (view s.pool n) ∨
          ¬ InSlotOrder (view s.pool n)) := by
  have I := heapsInv_reach hr
  have hroom : ∀ n, OnPath (succ s.pool) h n → (HasRoom (view s.pool n) tuple.length ↔
      CanHold (view s.pool n) tuple.length ∧
        ((need (rowsOf (view s.pool n)) tuple.length : Int) ≤ free_space_bytes (view s.pool n) ∨
          ¬ InSlotOrder (view s.pool n))) :=
    fun n hn => hasRoom_iff (I.heap.pages n ⟨h, hh, hn⟩).1
  obtain ⟨r, b', hins, _, _, hgrows⟩ := I.heap.insert_grows hh I.agrees tuple
  have hgrows := hgrows ht
  constructor
  · rintro ⟨r1, b1, h1, hreuse⟩
    rw [hins] at h1
    cases h1
    by_cases hk : s.pool.pool_capacity ≤ 1
    · exact Or.inl hk
    refine Or.inr ?_
    by_cases hfull : ∃ n, OnPath (succ s.pool) h n ∧ HasRoom (view s.pool n) tuple.length
    · obtain ⟨n, hn, hfits⟩ := hfull
      exact Or.inr ⟨n, hn, (hroom n hn).mp hfits⟩
    · refine Or.inl (hreuse (hgrows.mpr ⟨by omega, fun n hn hfits => hfull ⟨n, hn, hfits⟩⟩))
  · intro hcond
    refine ⟨r, b', hins, fun hg => ?_⟩
    obtain ⟨h2, hno⟩ := hgrows.mp hg
    rcases hcond with hk | hall | ⟨n, hn, hcan⟩
    · omega
    · exact hall
    · exact absurd ((hroom n hn).mpr hcan) (hno n hn)

/-- The call names a heap, and its RID is on the first page of one. Nothing is updated. -/
def own_heaps (s : Heaps) : HeapsEvent → Bool
  | .create => true
  | .call h call => s.first_pages.contains h && match call with
    | .insert _ => true
    | .get rid | .delete rid => s.first_pages.any (rid.page_id == some ·)
    | .update _ _ => false
  | .restore _ _ => false

theorem ownHeaps_of_check (s : Heaps) (e : HeapsEvent) (I : HeapsInv s)
    (h : own_heaps s e = true) : OwnHeaps s e := by
  have hpage : ∀ rid : RID, s.first_pages.any (rid.page_id == some ·) = true → s.Has rid := by
    intro rid hp
    obtain ⟨n, hn, he⟩ := List.any_eq_true.mp hp
    exact ⟨n, by simpa using he, n, hn, I.heap.forest.onPath_head hn⟩
  cases e with
  | create => trivial
  | call h' call =>
    simp only [own_heaps, Bool.and_eq_true] at h
    refine ⟨by simpa using h.1, ?_⟩
    cases call with
    | insert => trivial
    | get rid | delete rid => exact hpage rid h.2
    | update => cases h.2
  | restore => cases h

end

/-- An empty pool of two frames. -/
def no_heaps : Heaps := ⟨empty_pool 2, []⟩

theorem no_heaps_start : heapsMachine.start no_heaps :=
  ⟨_, 2, rfl, ⟨fun _ => rfl, fun _ => rfl⟩, List.nodup_nil, by simp, Nat.zero_lt_one, by simp⟩

theorem reached_heaps {l : List HeapsEvent} {p : Heaps → Bool}
    (h : (heapsMachine.execIf own_heaps no_heaps l).map p = some true) :
    ∃ s, heapsMachine.Reach OwnHeaps s ∧ p s = true := by
  obtain ⟨s, hs, hp⟩ := Option.map_eq_some_iff.mp h
  exact ⟨s, Machine.Reach.execIf (fun _ => heapsInv_reach) ownHeaps_of_check (.start no_heaps_start) hs,
    hp⟩

instance (d : PageData) (n : Nat) : Decidable (CanHold d n) :=
  inferInstanceAs (Decidable (_ ≤ _))

/-- The tuple of slot 0 is deleted, and the space that it leaves is used again. -/
theorem an_insert_reuses_the_space_above_a_tuple : ∃ s, heapsMachine.Reach OwnHeaps s ∧
    1 ∈ s.first_pages ∧ free_space_bytes (view s.pool 1) < 8000 ∧
    ReusesSpace s.pool 1 (List.replicate 8000 0) := by
  obtain ⟨s, hr, hs⟩ := reached_heaps
    (l := [.create, .call 1 (.insert (List.replicate 8000 0)), .call 1 (.insert [7]),
      .call 1 (.delete ⟨some 1, 0⟩)])
    (p := fun s => s.first_pages.contains 1 && decide (free_space_bytes (view s.pool 1) < 8000) &&
      decide (HasRoom (view s.pool 1) 8000)) (by decide +kernel)
  simp only [Bool.and_eq_true, decide_eq_true_eq] at hs
  obtain ⟨⟨h1, h2⟩, h3⟩ := hs
  have h1 : 1 ∈ s.first_pages := by simpa using h1
  have I := heapsInv_reach hr
  have hon := I.heap.forest.onPath_head h1
  have hgood := (I.heap.pages 1 ⟨1, h1, hon⟩).1
  obtain ⟨hcan, hscan⟩ := (hasRoom_iff hgood).mp h3
  refine ⟨s, hr, h1, h2, (an_insert_reuses_space_iff_a_scan_finds_it hr h1 ?_).mpr
    (Or.inr (Or.inr ⟨1, hon, ?_⟩))⟩
  · rw [List.length_replicate]
    decide
  · rw [List.length_replicate]
    exact ⟨hcan, hscan⟩

/-- The tuple of slot 1 lies below the one of slot 0. When it is deleted its 8000 bytes are dead,
and the next tuple of that size gets a page of its own. -/
theorem the_space_below_a_tuple_is_not_used_again :
    ¬ ∀ s, heapsMachine.Reach OwnHeaps s → ∀ h ∈ s.first_pages, ∀ tuple : List UInt8,
      1 ≤ tuple.length → tuple.length ≤ 8180 → ReusesSpace s.pool h tuple := by
  intro hall
  obtain ⟨s, hr, hs⟩ := reached_heaps
    (l := [.create, .call 1 (.insert [7]), .call 1 (.insert (List.replicate 8000 0)),
      .call 1 (.delete ⟨some 1, 1⟩)])
    (p := fun s => s.first_pages.contains 1 && s.pool.pool_capacity == 2 &&
      (view s.pool 1).header.next_page_id == none && decide (CanHold (view s.pool 1) 8000) &&
      !decide (HasRoom (view s.pool 1) 8000)) (by decide +kernel)
  simp only [Bool.and_eq_true, decide_eq_true_eq, beq_iff_eq, Bool.not_eq_true',
    decide_eq_false_iff_not] at hs
  obtain ⟨⟨⟨⟨h1, h2⟩, h3⟩, h4⟩, h5⟩ := hs
  have h1 : 1 ∈ s.first_pages := by simpa using h1
  have I := heapsInv_reach hr
  -- the chain is page 1 alone
  have hone : ∀ n, OnPath (succ s.pool) 1 n → n = 1 := by
    intro n hn
    rcases hn.cases with rfl | ⟨m, hm, _⟩
    · rfl
    · have hend : succ s.pool 1 = none := h3
      rw [hend] at hm
      cases hm
  obtain ⟨r, b', hins, _, _, hgrows⟩ :=
    I.heap.insert_grows h1 I.agrees (List.replicate 8000 0)
  rw [List.length_replicate] at hgrows
  have hg : Grows 1 s.pool b' := (hgrows (by decide)).mpr
    ⟨Nat.le_of_eq h2.symm, fun n hn => by rw [hone n hn]; exact h5⟩
  obtain ⟨r1, b1, hins1, hreuse⟩ := hall s hr 1 h1 (List.replicate 8000 0)
    (by rw [List.length_replicate]; decide) (by rw [List.length_replicate]; decide)
  rw [hins] at hins1
  cases hins1
  have := hreuse hg 1 (I.heap.forest.onPath_head h1)
  rw [List.length_replicate] at this
  exact this h4

end duck.table_heap
