-- One step of `insert_tuple`, for a call among others. What the call keeps is
-- said once, and every place of the call has its lemma.
import DuckDbms.HeapState

open duck.slotted_page duck.disk_manager duck.buffer_pool chain

namespace duck.table_heap

/-! ## What a call keeps -/

namespace Pc

/-- The frame of the page that the call has pinned. -/
def page : Pc → Option FrameID
  | .fetch | .done _ => none
  | .try_page page | .create page | .init_new page _ | .unpin_new page _ | .relink page _
  | .read_new page _ _ | .delete_new page _ _ | .leave page _ _ => some page

/-- The frame through which the call reaches its new page. -/
def next_page : Pc → Option FrameID
  | .init_new _ next_page | .unpin_new _ next_page | .relink _ next_page
  | .read_new _ next_page _ => some next_page
  | _ => none

/-- The new page is pinned. -/
def pins_new : Pc → Bool
  | .init_new _ _ | .unpin_new _ _ => true
  | _ => false

/-- The new page is neither linked nor given back. -/
def unsettled : Pc → Bool
  | .init_new _ _ | .unpin_new _ _ | .relink _ _ | .read_new _ _ _ | .delete_new _ _ _ => true
  | _ => false

/-- The new page is not initialized yet. -/
def raw : Pc → Bool
  | .init_new _ _ => true
  | _ => false

/-- The page that the call will visit next. -/
def target : Pc → Option PageID
  | .read_new _ _ next_id | .delete_new _ _ next_id => some next_id
  | .leave _ _ (.continue_ page_id) => some page_id
  | _ => none

/-- `pinned` is marked dirty. -/
def dirty : Pc → Bool
  | .leave _ dirty _ => dirty
  | _ => false

def running : Pc → Bool
  | .done _ => false
  | _ => true

end Pc

namespace InsertCall

variable (c : InsertCall)

/-- The pins that the call holds on page `n`. -/
def pins (n : Nat) : Nat :=
  (if c.pc.page.isSome ∧ c.page_id = some n then 1 else 0) +
    if c.pc.pins_new = true ∧ some n ∈ c.obtained then 1 else 0

/-- The call changed page `n` and will unpin it as dirty. -/
def pending (n : Nat) : Prop :=
  (c.pc.dirty = true ∧ c.page_id = some n) ∨ (c.pc.pins_new = true ∧ some n ∈ c.obtained)

/-- Page `n` is the new page of the call, neither linked nor given back. -/
def fresh (n : Nat) : Prop := c.pc.unsettled = true ∧ some n ∈ c.obtained

end InsertCall

/-- What a call keeps. It visits pages of its own chain; its new page is its own until it is
linked or given back; it links and gives back nothing else. -/
structure CallInv (heads : Nat → Prop) (b : BufferPoolManager) (c : InsertCall) : Prop where
  size : c.pc.running = true → c.tuple_data.length ≤ 8180
  heap : c.pc.running = true → ∃ h n, c.first_page_id = some h ∧ heads h ∧ c.page_id = some n ∧
    OnPath (succ b) h n
  frame : ∀ f, c.pc.page = some f → b.page_table c.page_id = some f
  unused : c.created_new_page = false → c.obtained = []
  creating : ∀ f, c.pc = .create f → c.created_new_page = false
  new : c.pc.unsettled = true → ∃ x, c.obtained = [some x] ∧ x ≠ 0 ∧ Allocated b.disk_manager x ∧
    ¬ OnChain (succ b) heads x ∧ (c.pc.raw = false → contents b x = emptyMeaning)
  new_frame : ∀ g, c.pc.next_page = some g → ∀ p ∈ c.obtained, b.page_table p = some g
  target : ∀ p, c.pc.target = some p → ∃ h m, c.first_page_id = some h ∧ p = some m ∧
    OnPath (succ b) h m
  back : ∀ f p q, c.pc = .delete_new f p q → p ∈ c.obtained
  linked : ∀ p ∈ c.linked, p ∈ c.obtained
  given_back : ∀ p ∈ c.given_back, p ∈ c.obtained

/-- What one step of a call can do, with the meaning of the pages before and after it. -/
inductive Move (b b' : BufferPoolManager) (c : InsertCall) : InsertCall → Prop
  | found {page : FrameID} : c.pc = .fetch → contents b' = contents b →
      Move b b' c { c with pc := .try_page page }
  | not_found : c.pc = .fetch → AllPinned b → b' = b →
      Move b b' c { c with pc := .done (.ok none) }
  | placed {page : FrameID} {n slot : Nat} : c.pc = .try_page page → c.page_id = some n →
      MayTake (contents b n).rows slot →
      contents b' = Function.update (contents b) n
        ⟨True, place (contents b n).rows slot c.tuple_data, (contents b n).next⟩ →
      Move b b' c { c with pc := .leave page true (.return_ (.ok (some ⟨some n, slot⟩))) }
  | stuck {page : FrameID} {n : Nat} {e : String} : c.pc = .try_page page → c.page_id = some n →
      ¬ HasRoom (b.frames page).data c.tuple_data.length → succ b n = none →
      c.created_new_page = true → contents b' = contents b →
      Move b b' c { c with pc := .leave page false (.return_ (.error e)) }
  | last {page : FrameID} {n : Nat} : c.pc = .try_page page → c.page_id = some n →
      succ b n = none → c.created_new_page = false → contents b' = contents b →
      Move b b' c { c with pc := .create page }
  | full {page : FrameID} {n m : Nat} : c.pc = .try_page page → c.page_id = some n →
      succ b n = some m → contents b' = contents b →
      Move b b' c { c with pc := .leave page false (.continue_ (some m)) }
  | created {page next_page : FrameID} {x : Nat} : c.pc = .create page →
      ¬ Allocated b.disk_manager x →
      contents b' = Function.update (contents b) x (meaning zeroPage) →
      Move b b' c { c with
        created_new_page := true, pc := .init_new page next_page, obtained := some x :: c.obtained }
  | not_created {page : FrameID} {e : String} : c.pc = .create page →
      AllPinned b → contents b' = contents b →
      Move b b' c { c with
        created_new_page := true, pc := .leave page false (.return_ (.error e)) }
  | inited {page next_page : FrameID} {x : Nat} : c.pc = .init_new page next_page →
      c.fresh x → contents b' = Function.update (contents b) x emptyMeaning →
      Move b b' c { c with pc := .unpin_new page next_page }
  | unpinned {page next_page : FrameID} : c.pc = .unpin_new page next_page →
      contents b' = contents b → Move b b' c { c with pc := .relink page next_page }
  | linked {page next_page : FrameID} {n x : Nat} : c.pc = .relink page next_page →
      c.page_id = some n → succ b n = none → c.fresh x →
      contents b' = Function.update (contents b) n { contents b n with next := some x } →
      Move b b' c { c with
        pc := .leave page true (.continue_ (some x)), linked := some x :: c.linked }
  | passed {page next_page : FrameID} {n m : Nat} : c.pc = .relink page next_page →
      c.page_id = some n → succ b n = some m → b' = b →
      Move b b' c { c with pc := .read_new page next_page (some m) }
  | read {page next_page : FrameID} {next_id : PageID} {x : Nat} :
      c.pc = .read_new page next_page next_id → c.fresh x → b' = b →
      Move b b' c { c with pc := .delete_new page (some x) next_id }
  | gave_back {page : FrameID} {next_id : PageID} {x : Nat} :
      c.pc = .delete_new page (some x) next_id → c.fresh x →
      (∀ m, m ≠ x → contents b' m = contents b m) →
      Move b b' c { c with
        pc := .leave page false (.continue_ next_id), given_back := some x :: c.given_back }
  | returned {page : FrameID} {dirty : Bool} {r : Except String (Option RID)} :
      c.pc = .leave page dirty (.return_ r) → contents b' = contents b →
      Move b b' c { c with pc := .done r }
  | continued {page : FrameID} {dirty : Bool} {p : PageID} :
      c.pc = .leave page dirty (.continue_ p) → contents b' = contents b →
      Move b b' c { c with page_id := p, pc := .fetch }

/-- The step brings a page into the pool. -/
def InsertCall.brings_in (c : InsertCall) (b : BufferPoolManager) : Prop :=
  match c.pc with
  | .fetch => b.page_table c.page_id = none
  | .create _ => True
  | _ => False

/-- What a step of a call does to the pool and to the call, and what it leaves to the others:
`outside` and `pends` are the pins and the pending pages of everybody else. -/
structure Stepped (evicts : Prop) (heads : Nat → Prop) (outside : Nat → Nat) (pends : Nat → Prop)
    (b : BufferPoolManager) (c : InsertCall) (b' : BufferPoolManager) (c' : InsertCall) :
    Prop where
  heap : HeapState evicts (fun m => outside m + c'.pins m) (fun m => pends m ∨ c'.pending m)
    heads b'
  call : CallInv heads b' c'
  move : Move b b' c c'
  pool_capacity : b'.pool_capacity = b.pool_capacity
  disk_capacity : b.disk_manager.capacity ≤ b'.disk_manager.capacity
  pinned : ∀ m g, b.page_table (some m) = some g → 0 < outside m → b'.page_table (some m) = some g
  stays : ∀ m g, b.page_table (some m) = some g → ¬ (c.brings_in b ∧ Evicts b m) → ¬ c.fresh m →
    b'.page_table (some m) = some g
  allocated : ∀ m, Allocated b.disk_manager m → ¬ c.fresh m → Allocated b'.disk_manager m
  onPath : ∀ h, heads h → ∀ m, OnPath (succ b) h m → OnPath (succ b') h m
  onPath_back : ∀ h, heads h → ∀ m, OnPath (succ b') h m →
    OnPath (succ b) h m ∨ (c.fresh m ∧ ∃ page next_page, c.pc = .relink page next_page)
  others : ∀ m, ¬ OnChain (succ b) heads m → ¬ c.fresh m → ¬ c'.fresh m →
    contents b' m = contents b m
  uncached : ∀ m, c'.fresh m → c.fresh m ∨
    (¬ Allocated b.disk_manager m ∧ b.page_table (some m) = none)

section
variable {evicts : Prop} {heads : Nat → Prop} {outside : Nat → Nat} {pends : Nat → Prop}
  {b b' : BufferPoolManager} {c c' : InsertCall}

theorem succ_congr (h : contents b' = contents b) : succ b' = succ b := by
  unfold succ
  rw [h]

/-! ### Pins and pending pages, place by place -/

theorem pins_idle (hp : c.pc.page = none) (hn : c.pc.pins_new = false) :
    (fun m => outside m + c.pins m) = outside := by
  funext m
  simp [InsertCall.pins, hp, hn]

theorem pins_one {f n : Nat} (hp : c.pc.page = some f) (hn : c.pc.pins_new = false)
    (hid : c.page_id = some n) : (fun m => outside m + c.pins m) = pinMore outside n := by
  funext m
  rw [pinMore_apply]
  by_cases hm : m = n
  · simp [InsertCall.pins, hp, hn, hid, hm]
  · simp [InsertCall.pins, hp, hn, hid, hm, Ne.symm hm]

theorem pins_two {f n x : Nat} (hp : c.pc.page = some f) (hn : c.pc.pins_new = true)
    (hid : c.page_id = some n) (hx : c.obtained = [some x]) :
    (fun m => outside m + c.pins m) = pinMore (pinMore outside n) x := by
  funext m
  have h1 : c.pins m = (if m = n then 1 else 0) + if m = x then 1 else 0 := by
    simp [InsertCall.pins, hp, hn, hid, hx, eq_comm]
  rw [h1, pinMore_apply, pinMore_apply, pinMore_apply]
  grind

theorem pends_none (hd : c.pc.dirty = false) (hn : c.pc.pins_new = false) :
    (fun m => pends m ∨ c.pending m) = pends := by
  funext m
  simp [InsertCall.pending, hd, hn]

theorem pends_page {n : Nat} (hd : c.pc.dirty = true) (hn : c.pc.pins_new = false)
    (hid : c.page_id = some n) :
    (fun m => pends m ∨ c.pending m) = fun m => pends m ∨ m = n := by
  funext m
  simp [InsertCall.pending, hd, hn, hid, eq_comm]

theorem pends_new {x : Nat} (hd : c.pc.dirty = false) (hn : c.pc.pins_new = true)
    (hx : c.obtained = [some x]) :
    (fun m => pends m ∨ c.pending m) = fun m => pends m ∨ m = x := by
  funext m
  simp [InsertCall.pending, hd, hn, hx]

theorem allocated_congr {d d' : DiskManager}
    (h : d'.capacity = d.capacity ∧ d'.free_list = d.free_list) (m : Nat) :
    Allocated d m → Allocated d' m := by
  intro hm
  unfold Allocated
  rw [h.1, h.2]
  exact hm

/-- A step that changes the place of a call, and its records. -/
theorem CallInv.turn (I : CallInv heads b c) (hrun : c.pc.running = true)
    (htuple : c'.tuple_data = c.tuple_data) (hfirst : c'.first_page_id = c.first_page_id)
    (hid : c'.page_id = c.page_id) (hobtained : c'.obtained = c.obtained)
    (hcreated : c'.created_new_page = false → c.created_new_page = false)
    (hcreating : ∀ f, c'.pc = .create f → c'.created_new_page = false)
    (hpath : ∀ h, heads h → ∀ m, OnPath (succ b) h m → OnPath (succ b') h m)
    (hframe : ∀ f, c'.pc.page = some f → b'.page_table c.page_id = some f)
    (hnew : c'.pc.unsettled = true → c.pc.unsettled = true ∧ ∀ x, c.obtained = [some x] →
      Allocated b'.disk_manager x ∧ ¬ OnChain (succ b') heads x ∧
      (c'.pc.raw = false → contents b' x = emptyMeaning))
    (hnewframe : ∀ g, c'.pc.next_page = some g → ∀ p ∈ c.obtained, b'.page_table p = some g)
    (htarget : ∀ p, c'.pc.target = some p → c.pc.target = some p ∨
      ∃ h m, c.first_page_id = some h ∧ p = some m ∧ OnPath (succ b') h m)
    (hback : ∀ f p q, c'.pc = .delete_new f p q → p ∈ c.obtained)
    (hlinked : ∀ p ∈ c'.linked, p ∈ c.obtained)
    (hgiven : ∀ p ∈ c'.given_back, p ∈ c.obtained) : CallInv heads b' c' := by
  obtain ⟨h, n, h1, h2, h3, h4⟩ := I.heap hrun
  refine ⟨fun _ => by rw [htuple]; exact I.size hrun,
    fun _ => ⟨h, n, by rw [hfirst, h1], h2, by rw [hid, h3], hpath h h2 n h4⟩,
    by rw [hid]; exact hframe, fun hc => by rw [hobtained]; exact I.unused (hcreated hc),
    hcreating, ?_, by rw [hobtained]; exact hnewframe, ?_, by rw [hobtained]; exact hback,
    by rw [hobtained]; exact hlinked, by rw [hobtained]; exact hgiven⟩
  · intro hu
    obtain ⟨hu', hall⟩ := hnew hu
    obtain ⟨x, hx, h0, _⟩ := I.new hu'
    exact ⟨x, by rw [hobtained, hx], h0, hall x hx⟩
  · intro p hp
    rw [hfirst]
    rcases htarget p hp with ht | ht
    · obtain ⟨k, m, k1, k2, k3⟩ := I.target p ht
      have hk : heads k := by
        rw [h1] at k1
        obtain rfl := Option.some.inj k1
        exact h2
      exact ⟨k, m, k1, k2, hpath k hk m k3⟩
    · exact ht

/-- A step that changes no page but, it may be, the layout of one. -/
theorem Stepped.of_same {pins : Nat → Nat} {pending : Nat → Prop}
    (H : HeapState evicts pins pending heads b)
    (S : Store evicts (fun m => outside m + c'.pins m) (fun m => pends m ∨ c'.pending m) b')
    (hc : contents b' = contents b)
    (hal : ∀ m, Allocated b.disk_manager m → Allocated b'.disk_manager m)
    (hdisk : b.disk_manager.capacity ≤ b'.disk_manager.capacity)
    (hcap : b'.pool_capacity = b.pool_capacity)
    (hpinned : ∀ m g, b.page_table (some m) = some g → 0 < outside m →
      b'.page_table (some m) = some g)
    (hstays : ∀ m g, b.page_table (some m) = some g → ¬ (c.brings_in b ∧ Evicts b m) →
      ¬ c.fresh m → b'.page_table (some m) = some g)
    (C : CallInv heads b' c') (M : Move b b' c c') (hfresh : ∀ m, c'.fresh m → c.fresh m) :
    Stepped evicts heads outside pends b c b' c' := by
  obtain ⟨K, hp⟩ := H.keep S
    (fun n hn => by rw [hc]; exact ⟨rfl, (H.pages n hn).1⟩)
    (fun n hn => hal n (hn.elim (fun h => (H.pages n h).2) fun h => h ▸ H.metadata))
  exact ⟨K, C, M, hcap, hdisk, hpinned, hstays, fun m hm _ => hal m hm,
    fun h hh m => (hp h hh m).mpr, fun h hh m hm => Or.inl ((hp h hh m).mp hm),
    fun m _ _ _ => by rw [hc], fun m hm => Or.inl (hfresh m hm)⟩

variable (H : HeapState evicts (fun m => outside m + c.pins m)
  (fun m => pends m ∨ c.pending m) heads b) (I : CallInv heads b c)

include H I

theorem step_fetch (hpc : c.pc = .fetch) :
    ∃ b' c', insert_step b c = some (b', c') ∧ Stepped evicts heads outside pends b c b' c' := by
  obtain ⟨h, n, h1, h2, h3, h4⟩ := I.heap (by rw [hpc]; rfl)
  have hrun : c.pc.running = true := by rw [hpc]; rfl
  have ha := (H.pages n ⟨h, h2, h4⟩).2
  have S := H.store
  rw [pins_idle (by rw [hpc]; rfl) (by rw [hpc]; rfl),
    pends_none (by rw [hpc]; rfl) (by rw [hpc]; rfl)] at S
  rcases S.fetch_page ha with ⟨f, b', hf, B, hc⟩ | ⟨hf, hall⟩
  · have hstep : insert_step b c = some (b', { c with pc := .try_page f }) := by
      unfold insert_step
      rw [hpc]
      simp only [h3, hf]
    refine ⟨_, _, hstep, .of_same H ?_ hc (allocated_congr B.disk) (Nat.le_of_eq B.disk.1.symm) B.capacity
      B.pinned ?_ ?_ (.found hpc hc) ?_⟩
    · rw [pins_one (c := { c with pc := .try_page f }) rfl rfl h3,
        pends_none (c := { c with pc := .try_page f }) rfl rfl]
      exact B.store
    · intro m g hm hev _
      refine B.stays m g hm fun he => hev ⟨?_, he.2⟩
      unfold InsertCall.brings_in
      rw [hpc, h3]
      exact he.1
    · refine I.turn hrun rfl rfl rfl rfl id (by simp) (by rw [succ_congr hc]; simp) ?_ (by simp [Pc.unsettled])
        (by simp [Pc.next_page]) (by simp [Pc.target]) (by simp) I.linked I.given_back
      rintro g ⟨rfl⟩
      rw [h3]
      exact B.table
    · rintro m ⟨hm, _⟩
      cases hm
  · have hstep : insert_step b c = some (b, { c with pc := .done (.ok none) }) := by
      unfold insert_step
      rw [hpc]
      simp only [h3, hf]
    refine ⟨_, _, hstep, .of_same H ?_ rfl (fun m => id) (Nat.le_refl _) rfl (fun m g hm _ => hm)
      (fun m g hm _ _ => hm) ?_ (.not_found hpc hall rfl) ?_⟩
    · rw [pins_idle (c := { c with pc := .done (.ok none) }) rfl rfl,
        pends_none (c := { c with pc := .done (.ok none) }) rfl rfl]
      exact S
    · exact I.turn hrun rfl rfl rfl rfl id (by simp) (by simp) (by simp [Pc.page]) (by simp [Pc.unsettled])
        (by simp [Pc.next_page]) (by simp [Pc.target]) (by simp) I.linked I.given_back
    · rintro m ⟨hm, _⟩
      cases hm

/-- What the visited page is, while the call has it pinned. -/
theorem visited {f : FrameID} (hf : c.pc.page = some f) : ∃ h n, c.first_page_id = some h ∧
    heads h ∧ c.page_id = some n ∧ OnPath (succ b) h n ∧ b.page_table (some n) = some f ∧
    (b.frames f).page_id = some n ∧ meaning (b.frames f).data = contents b n ∧
    (contents b n).good ∧ Allocated b.disk_manager n := by
  have hrun : c.pc.running = true := by
    rcases hc : c.pc with _ | _ | _ | _ | _ | _ | _ | _ | _ | _
    all_goals first | rfl | (rw [hc] at hf; cases hf)
  obtain ⟨h, n, h1, h2, h3, h4⟩ := I.heap hrun
  have ht := I.frame f hf
  rw [h3] at ht
  refine ⟨h, n, h1, h2, h3, h4, ht, (H.store.inv.holds n f).mp ht, ?_, H.pages n ⟨h, h2, h4⟩⟩
  unfold contents
  rw [view_cached ht]

theorem step_try_page {page : FrameID} (hpc : c.pc = .try_page page) :
    ∃ b' c', insert_step b c = some (b', c') ∧ Stepped evicts heads outside pends b c b' c' := by
  obtain ⟨h, n, h1, h2, h3, h4, ht, hid, hm, hgood, hall⟩ := visited H I (f := page) (by rw [hpc]; rfl)
  have hrun : c.pc.running = true := by rw [hpc]; rfl
  have hon : OnChain (succ b) heads n := ⟨h, h2, h4⟩
  have S := H.store
  rw [pins_one (by rw [hpc]; rfl) (by rw [hpc]; rfl) h3,
    pends_none (by rw [hpc]; rfl) (by rw [hpc]; rfl)] at S
  have hpos : 0 < pinMore outside n n := by
    rw [pinMore_apply, if_pos rfl]
    omega
  have hrows : rowsOf (b.frames page).data = (contents b n).rows := congrArg Meaning.rows hm
  have hnext : (b.frames page).data.header.next_page_id = succ b n := congrArg Meaning.next hm
  have g : Good (b.frames page).data := (congrArg Meaning.good hm).mpr hgood
  have hsize := I.size hrun
  rcases try_insert_spec g (t := c.tuple_data) (by omega) with ⟨i, t1, t2, t3, t4⟩ | ⟨t1, t2, t3⟩
  · generalize hr : try_insert (b.frames page).data c.tuple_data = r at *
    obtain ⟨o, d⟩ := r
    simp only at t1 t4
    subst t1
    rw [hrows] at t2 t4
    rw [hnext] at t4
    have hstep : insert_step b c = some (b.set_data page d,
        { c with pc := .leave page true (.return_ (.ok (some ⟨some n, i⟩))) }) := by
      unfold insert_step
      rw [hpc]
      simp only [hr, hid]
    obtain ⟨S', hc⟩ := S.set_data (fun m => pends m ∨ m = n) ht hpos d
      (fun m => Or.inl) (fun m => id) (fun _ => Or.inl (Or.inr rfl))
    rw [t4] at hc
    have hother : ∀ m, m ≠ n → contents (b.set_data page d) m = contents b m := fun m hmn => by
      rw [hc, Function.update_of_ne hmn]
    have hself : contents (b.set_data page d) n =
        ⟨True, place (contents b n).rows i c.tuple_data, succ b n⟩ := by
      rw [hc, Function.update_self]
    have S'' : Store evicts
        (fun m => outside m + InsertCall.pins
          { c with pc := .leave page true (.return_ (.ok (some ⟨some n, i⟩))) } m)
        (fun m => pends m ∨ InsertCall.pending
          { c with pc := .leave page true (.return_ (.ok (some ⟨some n, i⟩))) } m)
        (b.set_data page d) := by
      rw [pins_one (c := { c with pc := .leave page true (.return_ (.ok (some ⟨some n, i⟩))) })
          rfl rfl h3,
        pends_page (c := { c with pc := .leave page true (.return_ (.ok (some ⟨some n, i⟩))) })
          rfl rfl h3]
      exact S'
    obtain ⟨K, hp⟩ := H.keep S''
      (fun m hmo => by
        by_cases hmn : m = n
        · rw [hmn, hself]
          exact ⟨rfl, trivial⟩
        · rw [hother m hmn]
          exact ⟨rfl, (H.pages m hmo).1⟩)
      (fun m hmo => hmo.elim (fun h => (H.pages m h).2) fun h => h ▸ H.metadata)
    refine ⟨_, _, hstep, K, ?_, .placed hpc h3 t2 hc, rfl, Nat.le_refl _, fun m g hm _ => hm,
      fun m g hm _ _ => hm, fun m hm _ => hm, fun k hk m => (hp k hk m).mpr,
      fun k hk m hm => Or.inl ((hp k hk m).mp hm), ?_, ?_⟩
    · refine I.turn hrun rfl rfl rfl rfl id (by simp) (fun k hk m => (hp k hk m).mpr) ?_
        (by simp [Pc.unsettled]) (by simp [Pc.next_page]) (by simp [Pc.target]) (by simp)
        I.linked I.given_back
      rintro f ⟨rfl⟩
      rw [h3]
      exact ht
    · intro m hmo _ _
      exact hother m fun he => hmo (he ▸ hon)
    · rintro m ⟨hm, _⟩
      cases hm
  · generalize hr : try_insert (b.frames page).data c.tuple_data = r at *
    obtain ⟨o, d⟩ := r
    simp only at t1 t3
    subst t1
    have hd : meaning d = contents b n := t3.trans hm
    have hdn : slotted_page.next_page d = succ b n := congrArg Meaning.next hd
    obtain ⟨S', hc⟩ := S.set_data pends ht hpos d (fun m => id) (fun m => Or.inl)
      (fun _ => Or.inr (Or.inr hd))
    rw [hd, Function.update_eq_self] at hc
    -- wherever the call goes on, the page stays pinned and clean
    have hquiet : ∀ pc' : Pc, pc'.page = some page → pc'.unsettled = false →
        pc'.dirty = false → pc'.pins_new = false → pc'.next_page = none →
        (∀ p, pc'.target = some p → ∃ m, p = some m ∧ OnPath (succ b) h m) →
        (∀ f p q, pc' ≠ .delete_new f p q) →
        Move b (b.set_data page d) c { c with pc := pc' } →
        (∀ f, pc' = .create f → c.created_new_page = false) →
        Stepped evicts heads outside pends b c (b.set_data page d) { c with pc := pc' } := by
      intro pc' q1 q2 q3 q4 q5 q6 q7 M q8
      refine .of_same H ?_ hc (fun m => id) (Nat.le_refl _) rfl (fun m g hm _ => hm)
        (fun m g hm _ _ => hm) ?_ M ?_
      · rw [pins_one (c := { c with pc := pc' }) q1 q4 h3,
          pends_none (c := { c with pc := pc' }) q3 q4]
        exact S'
      · refine I.turn hrun rfl rfl rfl rfl id q8 (by rw [succ_congr hc]; simp) ?_ (by simp [q2])
          (by simp [q5]) ?_ (fun f p q hq => absurd hq (q7 f p q)) I.linked I.given_back
        · intro f hf
          obtain rfl : page = f := Option.some.inj (q1.symm.trans hf)
          rw [h3]
          exact ht
        · intro p hp
          obtain ⟨m, rfl, hm⟩ := q6 p hp
          exact Or.inr ⟨h, m, h1, rfl, by rw [succ_congr hc]; exact hm⟩
      · rintro m ⟨hm, _⟩
        rw [show Pc.unsettled ({ c with pc := pc' } : InsertCall).pc = false from q2] at hm
        cases hm
    rcases hs : succ b n with _ | m
    · rcases hcr : c.created_new_page with _ | _
      · have hstep : insert_step b c =
            some (b.set_data page d, { c with pc := .create page }) := by
          unfold insert_step
          rw [hpc]
          simp only [hr, hdn, hs, INVALID_PAGE_ID, ite_true, hcr, Bool.false_eq_true, ite_false]
        exact ⟨_, _, hstep, hquiet _ rfl rfl rfl rfl rfl (by simp [Pc.target]) (by simp)
          (.last hpc h3 hs hcr hc) (fun _ _ => hcr)⟩
      · have hstep : ∃ e, insert_step b c = some (b.set_data page d,
            { c with pc := .leave page false (.return_ (.error e)) }) := by
          unfold insert_step
          rw [hpc]
          simp only [hr, hdn, hs, INVALID_PAGE_ID, ite_true, hcr]
          exact ⟨_, rfl⟩
        obtain ⟨e, hstep⟩ := hstep
        exact ⟨_, _, hstep, hquiet _ rfl rfl rfl rfl rfl (by simp [Pc.target]) (by simp)
          (.stuck hpc h3 t2 hs hcr hc) (by simp)⟩
    · have hstep : insert_step b c = some (b.set_data page d,
          { c with pc := .leave page false (.continue_ (some m)) }) := by
        unfold insert_step
        rw [hpc]
        simp only [hr, hdn, hs, INVALID_PAGE_ID, reduceCtorEq, ite_false]
      refine ⟨_, _, hstep, hquiet _ rfl rfl rfl rfl rfl ?_ (by simp) (.full hpc h3 hs hc) (by simp)⟩
      rintro p ⟨rfl⟩
      exact ⟨m, rfl, h4.follow hs⟩

/-- The new page of a call, while the call reaches it through its frame. -/
theorem reached {g : FrameID} (hg : c.pc.next_page = some g) (hu : c.pc.unsettled = true) :
    ∃ x, c.obtained = [some x] ∧ x ≠ 0 ∧ Allocated b.disk_manager x ∧
      ¬ OnChain (succ b) heads x ∧ b.page_table (some x) = some g ∧
      (b.frames g).page_id = some x ∧ c.fresh x := by
  obtain ⟨x, h1, h2, h3, h4, _⟩ := I.new hu
  have ht := I.new_frame g hg (some x) (by rw [h1]; simp)
  exact ⟨x, h1, h2, h3, h4, ht, (H.store.inv.holds x g).mp ht, hu, by rw [h1]; simp⟩

theorem step_create {page : FrameID} (hpc : c.pc = .create page)
    (hroom : ¬ evicts → b.allocate_page.2.disk_manager.capacity ≤ b.pool_capacity) :
    ∃ b' c', insert_step b c = some (b', c') ∧ Stepped evicts heads outside pends b c b' c' := by
  obtain ⟨h, n, h1, h2, h3, h4, ht, _, _, _, hall⟩ := visited H I (f := page) (by rw [hpc]; rfl)
  have hrun : c.pc.running = true := by rw [hpc]; rfl
  have hcr := I.creating page hpc
  have hob := I.unused hcr
  have S := H.store
  rw [pins_one (by rw [hpc]; rfl) (by rw [hpc]; rfl) h3,
    pends_none (by rw [hpc]; rfl) (by rw [hpc]; rfl)] at S
  obtain ⟨x, hg, hcases⟩ := S.new_page hroom
  rcases hcases with ⟨g, b', hnew, B, hc⟩ | ⟨hnew, hpinned, S1, hc⟩
  · have hgid := (B.store.inv.holds x g).mp B.table
    have hstep : insert_step b c = some (b', { c with
        created_new_page := true, pc := .init_new page g, obtained := some x :: c.obtained }) := by
      unfold insert_step
      rw [hpc]
      simp only [hnew, hgid]
    have hx0 : x ≠ 0 := fun h0 => hg.fresh (h0 ▸ H.metadata)
    have hxc : ¬ OnChain (succ b) heads x := fun hon => hg.fresh (H.pages x hon).2
    have hxn : n ≠ x := fun he => hg.fresh (he ▸ hall)
    have hother : ∀ m, m ≠ x → contents b' m = contents b m := fun m hm => by
      rw [hc, Function.update_of_ne hm]
    have hal : ∀ m, Allocated b.disk_manager m → Allocated b'.disk_manager m := fun m hm =>
      allocated_congr B.disk m ((hg.allocated m).mpr (Or.inl hm))
    have hself : (some x :: c.obtained) = [some x] := by rw [hob]
    generalize hc' : ({ c with
      created_new_page := true
      pc := .init_new page g
      obtained := some x :: c.obtained } : InsertCall) = c' at hstep
    have S' : Store evicts (fun m => outside m + c'.pins m) (fun m => pends m ∨ c'.pending m)
        b' := by
      rw [pins_two (x := x) (f := page) (by rw [← hc']; rfl) (by rw [← hc']; rfl)
          (by rw [← hc']; exact h3) (by rw [← hc']; exact hself),
        pends_new (by rw [← hc']; rfl) (by rw [← hc']; rfl) (by rw [← hc']; exact hself)]
      exact B.store
    obtain ⟨K, hp⟩ := H.keep S'
      (fun m hmo => by
        rw [hother m fun he => hxc (he ▸ hmo)]
        exact ⟨rfl, (H.pages m hmo).1⟩)
      (fun m hmo => hal m (hmo.elim (fun h => (H.pages m h).2) fun h => h ▸ H.metadata))
    have hpage : b'.page_table (some n) = some page :=
      B.pinned n page ht (by rw [pinMore_apply, if_pos rfl]; omega)
    have hxc' : ¬ OnChain (succ b') heads x := by
      rintro ⟨k, hk, hon⟩
      exact hxc ⟨k, hk, (hp k hk x).mp hon⟩
    have hxa : Allocated b'.disk_manager x :=
      allocated_congr B.disk x ((hg.allocated x).mpr (Or.inr rfl))
    subst hc'
    refine ⟨_, _, hstep, K, ?_, .created hpc hg.fresh hc, B.capacity, ?_, ?_, ?_,
      fun m hm _ => hal m hm, fun k hk m => (hp k hk m).mpr,
      fun k hk m hm => Or.inl ((hp k hk m).mp hm), ?_, ?_⟩
    · refine ⟨fun _ => I.size hrun, fun _ => ⟨h, n, h1, h2, h3, (hp h h2 n).mpr h4⟩, ?_,
        by simp, by simp, fun _ => ⟨x, hself, hx0, hxa, hxc', by simp [Pc.raw]⟩, ?_,
        by simp [Pc.target], by simp, fun p hp => ?_, fun p hp => ?_⟩
      · rintro f ⟨rfl⟩
        rw [h3]
        exact hpage
      · rintro f ⟨rfl⟩ p hp
        rw [hself, List.mem_singleton] at hp
        rw [hp]
        exact B.table
      · exact List.mem_cons_of_mem _ (I.linked p hp)
      · exact List.mem_cons_of_mem _ (I.given_back p hp)
    · rw [B.disk.1]
      exact hg.capacity
    · intro m f hm hpos
      exact B.pinned m f hm (Nat.lt_of_lt_of_le hpos (le_pinMore outside n m))
    · intro m f hm hev _
      refine B.stays m f hm fun he => hev ⟨?_, evicts_allocate_page.mp he.2⟩
      unfold InsertCall.brings_in
      rw [hpc]
      trivial
    · intro m _ _ hf
      exact hother m fun he => hf ⟨rfl, by rw [he]; simp⟩
    · rintro m ⟨_, hm⟩
      rw [hself, List.mem_singleton] at hm
      obtain rfl := Option.some.inj hm
      refine Or.inr ⟨hg.fresh, ?_⟩
      rcases hcx : b.page_table (some m) with _ | f
      · rfl
      · exact absurd (S.allocated_of_cached hcx) hg.fresh
  · have hstep : insert_step b c = some (b.allocate_page.2, { c with
        created_new_page := true
        pc := .leave page false (.return_ (.error "TableHeap: failed to create next page")) }) := by
      unfold insert_step
      rw [hpc]
      simp only [hnew]
    generalize hc' : ({ c with
      created_new_page := true
      pc := .leave page false (.return_ (.error "TableHeap: failed to create next page"))
      } : InsertCall) = c' at hstep
    have S' : Store evicts (fun m => outside m + c'.pins m) (fun m => pends m ∨ c'.pending m)
        b.allocate_page.2 := by
      rw [pins_one (f := page) (by rw [← hc']; rfl) (by rw [← hc']; rfl)
          (by rw [← hc']; exact h3), pends_none (by rw [← hc']; rfl) (by rw [← hc']; rfl)]
      exact S1
    subst hc'
    refine ⟨_, _, hstep, .of_same H S' hc (fun m hm => (hg.allocated m).mpr (Or.inl hm)) hg.capacity
      rfl (fun m g hm _ => hm) (fun m g hm _ _ => hm) ?_ (.not_created hpc hpinned hc) ?_⟩
    · refine I.turn hrun rfl rfl rfl rfl (by simp) (by simp) (by rw [succ_congr hc]; simp) ?_
        (by simp [Pc.unsettled]) (by simp [Pc.next_page]) (by simp [Pc.target]) (by simp)
        I.linked I.given_back
      rintro f ⟨rfl⟩
      rw [h3]
      exact ht
    · rintro m ⟨hm, _⟩
      cases hm

theorem step_init_new {page g : FrameID} (hpc : c.pc = .init_new page g) :
    ∃ b' c', insert_step b c = some (b', c') ∧ Stepped evicts heads outside pends b c b' c' := by
  obtain ⟨h, n, h1, h2, h3, h4, ht, _, _, _, hall⟩ := visited H I (f := page) (by rw [hpc]; rfl)
  obtain ⟨x, x1, x2, x3, x4, x5, x6, x7⟩ := reached H I (g := g) (by rw [hpc]; rfl) (by rw [hpc]; rfl)
  have hrun : c.pc.running = true := by rw [hpc]; rfl
  have S := H.store
  rw [pins_two (by rw [hpc]; rfl) (by rw [hpc]; rfl) h3 x1,
    pends_new (by rw [hpc]; rfl) (by rw [hpc]; rfl) x1] at S
  have hstep : insert_step b c = some (b.set_data g (init (b.frames g).data),
      { c with pc := .unpin_new page g }) := by
    unfold insert_step
    rw [hpc]
  obtain ⟨S', hc⟩ := S.set_data (fun m => pends m ∨ m = x) x5
    (by rw [pinMore_apply, if_pos rfl]; omega) (init (b.frames g).data) (fun m => id)
    (fun m => Or.inl) (fun _ => Or.inl (Or.inr rfl))
  rw [meaning_init] at hc
  have hother : ∀ m, m ≠ x → contents (b.set_data g (init (b.frames g).data)) m = contents b m :=
    fun m hm => by rw [hc, Function.update_of_ne hm]
  have S'' : Store evicts
      (fun m => outside m + InsertCall.pins { c with pc := .unpin_new page g } m)
      (fun m => pends m ∨ InsertCall.pending { c with pc := .unpin_new page g } m)
      (b.set_data g (init (b.frames g).data)) := by
    rw [pins_two (c := { c with pc := .unpin_new page g }) rfl rfl h3 x1,
      pends_new (c := { c with pc := .unpin_new page g }) rfl rfl x1]
    exact S'
  obtain ⟨K, hp⟩ := H.keep S''
    (fun m hmo => by
      rw [hother m fun he => x4 (he ▸ hmo)]
      exact ⟨rfl, (H.pages m hmo).1⟩)
    (fun m hmo => hmo.elim (fun h => (H.pages m h).2) fun h => h ▸ H.metadata)
  refine ⟨_, _, hstep, K, ?_, .inited hpc x7 hc, rfl, Nat.le_refl _, fun m g hm _ => hm,
    fun m g hm _ _ => hm, fun m hm _ => hm, fun k hk m => (hp k hk m).mpr,
    fun k hk m hm => Or.inl ((hp k hk m).mp hm), ?_, ?_⟩
  · refine I.turn hrun rfl rfl rfl rfl id (by simp) (fun k hk m => (hp k hk m).mpr) ?_ ?_ ?_
      (by simp [Pc.target]) (by simp) I.linked I.given_back
    · rintro f ⟨rfl⟩
      rw [h3]
      exact ht
    · refine fun _ => ⟨by rw [hpc]; rfl, fun y hy => ?_⟩
      obtain rfl : x = y := by simpa using x1.symm.trans hy
      refine ⟨x3, ?_, fun _ => by rw [hc, Function.update_self]⟩
      rintro ⟨k, hk, hon⟩
      exact x4 ⟨k, hk, (hp k hk x).mp hon⟩
    · rintro f ⟨rfl⟩ p hp
      exact I.new_frame g (by rw [hpc]; rfl) p hp
  · intro m _ hf _
    exact hother m fun he => hf (he ▸ x7)
  · rintro m ⟨_, hm⟩
    exact Or.inl ⟨by rw [hpc]; rfl, hm⟩

theorem step_unpin_new {page g : FrameID} (hpc : c.pc = .unpin_new page g)
    (hpends : ∀ m, pends m → 0 < outside m) :
    ∃ b' c', insert_step b c = some (b', c') ∧ Stepped evicts heads outside pends b c b' c' := by
  obtain ⟨h, n, h1, h2, h3, h4, ht, _, _, _, hall⟩ := visited H I (f := page) (by rw [hpc]; rfl)
  obtain ⟨x, x1, x2, x3, x4, x5, x6, x7⟩ := reached H I (g := g) (by rw [hpc]; rfl) (by rw [hpc]; rfl)
  have hrun : c.pc.running = true := by rw [hpc]; rfl
  have S := H.store
  rw [pins_two (by rw [hpc]; rfl) (by rw [hpc]; rfl) h3 x1,
    pends_new (by rw [hpc]; rfl) (by rw [hpc]; rfl) x1] at S
  have hstep : insert_step b c = some (b.unpin_page (some x) true,
      { c with pc := .relink page g }) := by
    unfold insert_step
    rw [hpc]
    simp only [x6]
  obtain ⟨S', hc, htable, hdisk, hcap⟩ := S.unpin_page pends (n := x)
    (by rw [pinMore_apply, if_pos rfl]; omega) true (fun m => Or.inl)
    (fun m hm => hm.imp id fun h => ⟨h, rfl⟩)
    (fun hp => by
      have := hpends x hp
      have := le_pinMore outside n x
      rw [pinMore_apply (pinMore outside n), if_pos rfl]
      omega)
  rw [pinLess_pinMore] at S'
  refine ⟨_, _, hstep, .of_same H ?_ hc (by rw [hdisk]; exact fun m => id) (by rw [hdisk]) hcap
    (by rw [htable]; exact fun m g hm _ => hm) (by rw [htable]; exact fun m g hm _ _ => hm) ?_
    (.unpinned hpc hc) ?_⟩
  · rw [pins_one (c := { c with pc := .relink page g }) rfl rfl h3,
      pends_none (c := { c with pc := .relink page g }) rfl rfl]
    exact S'
  · refine I.turn hrun rfl rfl rfl rfl id (by simp) (by rw [succ_congr hc]; simp) ?_ ?_ ?_
      (by simp [Pc.target]) (by simp) I.linked I.given_back
    · rintro f ⟨rfl⟩
      rw [h3, htable]
      exact ht
    · refine fun _ => ⟨by rw [hpc]; rfl, fun y hy => ?_⟩
      obtain rfl : x = y := by simpa using x1.symm.trans hy
      obtain ⟨z, z1, _, _, _, z5⟩ := I.new (by rw [hpc]; rfl)
      obtain rfl : x = z := by simpa using x1.symm.trans z1
      rw [hdisk, succ_congr hc, hc]
      exact ⟨x3, x4, fun _ => z5 (by rw [hpc]; rfl)⟩
    · rintro f ⟨rfl⟩ p hp
      rw [htable]
      exact I.new_frame g (by rw [hpc]; rfl) p hp
  · rintro m ⟨_, hm⟩
    exact ⟨by rw [hpc]; rfl, hm⟩

theorem step_relink {page g : FrameID} (hpc : c.pc = .relink page g) :
    ∃ b' c', insert_step b c = some (b', c') ∧ Stepped evicts heads outside pends b c b' c' := by
  obtain ⟨h, n, h1, h2, h3, h4, ht, hid, hm, hgood, hall⟩ := visited H I (f := page) (by rw [hpc]; rfl)
  obtain ⟨x, x1, x2, x3, x4, x5, x6, x7⟩ := reached H I (g := g) (by rw [hpc]; rfl) (by rw [hpc]; rfl)
  have hrun : c.pc.running = true := by rw [hpc]; rfl
  have hon : OnChain (succ b) heads n := ⟨h, h2, h4⟩
  have hempty : contents b x = emptyMeaning := by
    obtain ⟨z, z1, _, _, _, z5⟩ := I.new (by rw [hpc]; rfl)
    obtain rfl : x = z := by simpa using x1.symm.trans z1
    exact z5 (by rw [hpc]; rfl)
  have S := H.store
  rw [pins_one (by rw [hpc]; rfl) (by rw [hpc]; rfl) h3,
    pends_none (by rw [hpc]; rfl) (by rw [hpc]; rfl)] at S
  have hnext : slotted_page.next_page (b.frames page).data = succ b n := congrArg Meaning.next hm
  rcases hs : succ b n with _ | m
  · have hstep : insert_step b c = some (b.set_data page
        (set_next_page (b.frames page).data (some x)), { c with
          pc := .leave page true (.continue_ (some x)), linked := some x :: c.linked }) := by
      unfold insert_step
      rw [hpc]
      simp only [hnext, hs, INVALID_PAGE_ID, ite_true, x6]
    have hmean : meaning (set_next_page (b.frames page).data (some x)) =
        { contents b n with next := some x } := by
      rw [← hm]
      unfold meaning
      rw [good_set_next_page]
      rfl
    generalize hb' : b.set_data page (set_next_page (b.frames page).data (some x)) = b' at hstep
    obtain ⟨S', hc⟩ := S.set_data (fun m => pends m ∨ m = n) ht
      (by rw [pinMore_apply, if_pos rfl]; omega) (set_next_page (b.frames page).data (some x))
      (fun m => Or.inl) (fun m => id) (fun _ => Or.inl (Or.inr rfl))
    rw [hmean, hb'] at hc
    rw [hb'] at S'
    have htable : b'.page_table = b.page_table := by rw [← hb']; rfl
    have hdisk : b'.disk_manager = b.disk_manager := by rw [← hb']; rfl
    generalize hc' : ({ c with
      pc := .leave page true (.continue_ (some x))
      linked := some x :: c.linked } : InsertCall) = c' at hstep
    have S'' : Store evicts (fun m => outside m + c'.pins m) (fun m => pends m ∨ c'.pending m)
        b' := by
      rw [pins_one (f := page) (by rw [← hc']; rfl) (by rw [← hc']; rfl)
          (by rw [← hc']; exact h3), pends_page (by rw [← hc']; rfl) (by rw [← hc']; rfl)
          (by rw [← hc']; exact h3)]
      exact S'
    subst hc'
    obtain ⟨K, hp⟩ := H.link S'' h2 h4 hs x4 hempty x3 hdisk hc
    refine ⟨_, _, hstep, K, ?_, .linked hpc h3 hs x7 hc, by rw [← hb']; rfl, by rw [hdisk],
      by rw [htable]; exact fun m g hm _ => hm, by rw [htable]; exact fun m g hm _ _ => hm,
      by rw [hdisk]; exact fun m hm _ => hm, fun k hk m hm => (hp k hk m).mpr (Or.inl hm),
      fun k hk m hm => ((hp k hk m).mp hm).imp id fun he => ⟨by rw [he.2]; exact x7, page, g, hpc⟩, ?_, ?_⟩
    · refine I.turn hrun rfl rfl rfl rfl id (by simp)
        (fun k hk m hm => (hp k hk m).mpr (Or.inl hm)) ?_ (by simp [Pc.unsettled])
        (by simp [Pc.next_page]) ?_ (by simp) ?_ I.given_back
      · rintro f ⟨rfl⟩
        rw [h3, htable]
        exact ht
      · rintro p ⟨rfl⟩
        exact Or.inr ⟨h, x, h1, rfl, (hp h h2 x).mpr (Or.inr ⟨rfl, rfl⟩)⟩
      · intro p hp
        rcases List.mem_cons.mp hp with rfl | hp
        · exact x7.2
        · exact I.linked p hp
    · intro m hmo _ _
      have hmn : m ≠ n := fun he => hmo (he ▸ hon)
      rw [hc, Function.update_of_ne hmn]
    · rintro m ⟨hm, _⟩
      cases hm
  · have hstep : insert_step b c = some (b, { c with pc := .read_new page g (some m) }) := by
      unfold insert_step
      rw [hpc]
      simp only [hnext, hs, INVALID_PAGE_ID, reduceCtorEq, ite_false]
    refine ⟨_, _, hstep, .of_same H ?_ rfl (fun m => id) (Nat.le_refl _) rfl (fun m g hm _ => hm)
      (fun m g hm _ _ => hm) ?_ (.passed hpc h3 hs rfl) ?_⟩
    · rw [pins_one (c := { c with pc := .read_new page g (some m) }) rfl rfl h3,
        pends_none (c := { c with pc := .read_new page g (some m) }) rfl rfl]
      exact S
    · refine I.turn hrun rfl rfl rfl rfl id (by simp) (by simp) ?_ ?_ ?_ ?_ (by simp)
        I.linked I.given_back
      · rintro f ⟨rfl⟩
        rw [h3]
        exact ht
      · refine fun _ => ⟨by rw [hpc]; rfl, fun y hy => ?_⟩
        obtain rfl : x = y := by simpa using x1.symm.trans hy
        exact ⟨x3, x4, fun _ => hempty⟩
      · rintro f ⟨rfl⟩ p hp
        exact I.new_frame g (by rw [hpc]; rfl) p hp
      · rintro p ⟨rfl⟩
        exact Or.inr ⟨h, m, h1, rfl, h4.follow hs⟩
    · rintro k ⟨_, hk⟩
      exact ⟨by rw [hpc]; rfl, hk⟩

theorem step_read_new {page g : FrameID} {next_id : PageID}
    (hpc : c.pc = .read_new page g next_id) :
    ∃ b' c', insert_step b c = some (b', c') ∧ Stepped evicts heads outside pends b c b' c' := by
  obtain ⟨h, n, h1, h2, h3, h4, ht, _⟩ := visited H I (f := page) (by rw [hpc]; rfl)
  obtain ⟨x, x1, x2, x3, x4, x5, x6, x7⟩ := reached H I (g := g) (by rw [hpc]; rfl) (by rw [hpc]; rfl)
  have hrun : c.pc.running = true := by rw [hpc]; rfl
  have S := H.store
  rw [pins_one (by rw [hpc]; rfl) (by rw [hpc]; rfl) h3,
    pends_none (by rw [hpc]; rfl) (by rw [hpc]; rfl)] at S
  have hstep : insert_step b c = some (b, { c with pc := .delete_new page (some x) next_id }) := by
    unfold insert_step
    rw [hpc]
    simp only [x6]
  refine ⟨_, _, hstep, .of_same H ?_ rfl (fun m => id) (Nat.le_refl _) rfl (fun m g hm _ => hm)
    (fun m g hm _ _ => hm) ?_ (.read hpc x7 rfl) ?_⟩
  · rw [pins_one (c := { c with pc := .delete_new page (some x) next_id }) rfl rfl h3,
      pends_none (c := { c with pc := .delete_new page (some x) next_id }) rfl rfl]
    exact S
  · refine I.turn hrun rfl rfl rfl rfl id (by simp) (by simp) ?_ ?_ (by simp [Pc.next_page]) ?_ ?_
      I.linked I.given_back
    · rintro f ⟨rfl⟩
      rw [h3]
      exact ht
    · refine fun _ => ⟨by rw [hpc]; rfl, fun y hy => ?_⟩
      obtain ⟨z, z1, _, _, _, z5⟩ := I.new (by rw [hpc]; rfl)
      obtain rfl : x = y := by simpa using x1.symm.trans hy
      obtain rfl : x = z := by simpa using x1.symm.trans z1
      exact ⟨x3, x4, fun _ => z5 (by rw [hpc]; rfl)⟩
    · intro p hp
      left
      rw [hpc]
      exact hp
    · intro f p q hq
      simp only [Pc.delete_new.injEq] at hq
      rw [← hq.2.1]
      exact x7.2
  · rintro k ⟨_, hk⟩
    exact ⟨by rw [hpc]; rfl, hk⟩

theorem step_delete_new {page : FrameID} {page_id next_id : PageID}
    (hpc : c.pc = .delete_new page page_id next_id) (hfree : ∀ m, c.fresh m → outside m = 0) :
    ∃ b' c', insert_step b c = some (b', c') ∧ Stepped evicts heads outside pends b c b' c' := by
  obtain ⟨h, n, h1, h2, h3, h4, ht, _⟩ := visited H I (f := page) (by rw [hpc]; rfl)
  obtain ⟨x, x1, x2, x3, x4, _⟩ := I.new (by rw [hpc]; rfl)
  have hrun : c.pc.running = true := by rw [hpc]; rfl
  have hback := I.back page page_id next_id hpc
  rw [x1, List.mem_singleton] at hback
  subst hback
  have x7 : c.fresh x := ⟨by rw [hpc]; rfl, by rw [x1]; simp⟩
  have hxn : x ≠ n := fun he => x4 ⟨h, h2, he ▸ h4⟩
  have S := H.store
  rw [pins_one (by rw [hpc]; rfl) (by rw [hpc]; rfl) h3,
    pends_none (by rw [hpc]; rfl) (by rw [hpc]; rfl)] at S
  obtain ⟨b', hdel, S', hc, htable, hdisk, hcap⟩ := S.delete_page x2 x3
    (by rw [pinMore_apply, if_neg hxn, hfree x x7])
  have hret := returned_capacity b.disk_manager x
  have hstep : insert_step b c = some (b', { c with
      pc := .leave page false (.continue_ next_id), given_back := some x :: c.given_back }) := by
    unfold insert_step
    rw [hpc]
    simp only [hdel]
  have hal : ∀ m, m ≠ x → Allocated b.disk_manager m → Allocated b'.disk_manager m := by
    rintro m hm ⟨ha1, ha2⟩
    rw [hdisk]
    refine ⟨by rw [hret.1]; exact ha1, ?_⟩
    rcases hret.2.2 with h | h <;> rw [h]
    · exact ha2
    · simp [hm, ha2]
  generalize hc' : ({ c with
    pc := .leave page false (.continue_ next_id)
    given_back := some x :: c.given_back } : InsertCall) = c' at hstep
  have S'' : Store evicts (fun m => outside m + c'.pins m) (fun m => pends m ∨ c'.pending m)
      b' := by
    rw [pins_one (f := page) (by rw [← hc']; rfl) (by rw [← hc']; rfl)
      (by rw [← hc']; exact h3), pends_none (by rw [← hc']; rfl) (by rw [← hc']; rfl)]
    exact S'
  subst hc'
  obtain ⟨K, hp⟩ := H.keep S''
    (fun m hmo => by
      have hmx : m ≠ x := fun he => x4 (he ▸ hmo)
      rw [hc m hmx]
      exact ⟨rfl, (H.pages m hmo).1⟩)
    (fun m hmo => by
      rcases hmo with hmo | rfl
      · have hmx : m ≠ x := fun he => x4 (he ▸ hmo)
        exact hal m hmx (H.pages m hmo).2
      · exact hal 0 x2.symm H.metadata)
  have hne : ∀ m, ¬ c.fresh m → m ≠ x := fun m hm he => hm (he ▸ x7)
  refine ⟨_, _, hstep, K, ?_, .gave_back hpc x7 hc, hcap, by rw [hdisk, hret.1], ?_, ?_,
    fun m hm hf => hal m (hne m hf) hm, fun k hk m => (hp k hk m).mpr,
    fun k hk m hm => Or.inl ((hp k hk m).mp hm), fun m _ hf _ => hc m (hne m hf), ?_⟩
  · refine I.turn hrun rfl rfl rfl rfl id (by simp) (fun k hk m => (hp k hk m).mpr) ?_
      (by simp [Pc.unsettled]) (by simp [Pc.next_page]) ?_ (by simp) I.linked ?_
    · rintro f ⟨rfl⟩
      rw [h3, htable n hxn.symm]
      exact ht
    · intro p hp
      left
      rw [hpc]
      exact hp
    · intro p hp
      rcases List.mem_cons.mp hp with rfl | hp
      · exact x7.2
      · exact I.given_back p hp
  · intro m g hm hpos
    rw [htable m ?_]
    · exact hm
    · rintro rfl
      rw [hfree m x7] at hpos
      omega
  · intro m g hm _ hf
    rw [htable m (hne m hf)]
    exact hm
  · rintro k ⟨hk, _⟩
    cases hk

theorem step_leave {page : FrameID} {dirty : Bool} {after : After}
    (hpc : c.pc = .leave page dirty after) (hpends : ∀ m, pends m → 0 < outside m) :
    ∃ b' c', insert_step b c = some (b', c') ∧ Stepped evicts heads outside pends b c b' c' := by
  obtain ⟨h, n, h1, h2, h3, h4, ht, hid, _⟩ := visited H I (f := page) (by rw [hpc]; rfl)
  have hrun : c.pc.running = true := by rw [hpc]; rfl
  have S := H.store
  rw [pins_one (by rw [hpc]; rfl) (by rw [hpc]; rfl) h3] at S
  have hown : ∀ m, c.pending m → m = n ∧ dirty = true := by
    rintro m (⟨hd, hm⟩ | ⟨hn, _⟩)
    · rw [hpc] at hd
      rw [h3] at hm
      exact ⟨(Option.some.inj hm).symm, hd⟩
    · rw [hpc] at hn
      cases hn
  obtain ⟨S', hc, htable, hdisk, hcap⟩ := S.unpin_page pends (n := n)
    (by rw [pinMore_apply, if_pos rfl]; omega) dirty (fun m => Or.inl)
    (fun m hm => hm.imp id (hown m))
    (fun hp => by
      have := hpends n hp
      rw [pinMore_apply, if_pos rfl]
      omega)
  rw [pinLess_pinMore] at S'
  have hpath : ∀ k, heads k → ∀ m, OnPath (succ b) k m →
      OnPath (succ (b.unpin_page (some n) dirty)) k m := by
    rw [succ_congr hc]
    exact fun _ _ _ => id
  have hquiet : ∀ c' : InsertCall, c'.pc.page = none → c'.pc.dirty = false →
      c'.pc.pins_new = false → c'.pc.unsettled = false → CallInv heads (b.unpin_page (some n) dirty) c' →
      Move b (b.unpin_page (some n) dirty) c c' →
      Stepped evicts heads outside pends b c (b.unpin_page (some n) dirty) c' := by
    intro c' q1 q2 q3 q4 C M
    refine .of_same H ?_ hc (by rw [hdisk]; exact fun m => id) (by rw [hdisk]) hcap
      (by rw [htable]; exact fun m g hm _ => hm) (by rw [htable]; exact fun m g hm _ _ => hm) C M ?_
    · rw [pins_idle q1 q3, pends_none q2 q3]
      exact S'
    · rintro m ⟨hm, _⟩
      rw [q4] at hm
      cases hm
  rcases after with r | p
  · have hstep : insert_step b c = some (b.unpin_page (some n) dirty,
        { c with pc := .done r }) := by
      unfold insert_step
      rw [hpc]
      simp only [hid]
    refine ⟨_, _, hstep, hquiet _ rfl rfl rfl rfl ?_ (.returned hpc hc)⟩
    exact I.turn hrun rfl rfl rfl rfl id (by simp) hpath (by simp [Pc.page])
      (by simp [Pc.unsettled]) (by simp [Pc.next_page]) (by simp [Pc.target]) (by simp)
      I.linked I.given_back
  · have hstep : insert_step b c = some (b.unpin_page (some n) dirty,
        { c with page_id := p, pc := .fetch }) := by
      unfold insert_step
      rw [hpc]
      simp only [hid]
    refine ⟨_, _, hstep, hquiet _ rfl rfl rfl rfl ?_ (.continued hpc hc)⟩
    obtain ⟨k, m, k1, k2, k3⟩ := I.target p (by rw [hpc]; rfl)
    obtain rfl : h = k := Option.some.inj (h1.symm.trans k1)
    exact ⟨fun _ => I.size hrun, fun _ => ⟨h, m, h1, h2, k2, hpath h h2 m k3⟩, by simp [Pc.page],
      I.unused, by simp, by simp [Pc.unsettled], by simp [Pc.next_page], by simp [Pc.target],
      by simp, I.linked, I.given_back⟩

/-- What one step of a running call does. -/
theorem insert_step_spec (hrun : c.pc.running = true)
    (hroom : ¬ evicts → ∀ page, c.pc = .create page →
      b.allocate_page.2.disk_manager.capacity ≤ b.pool_capacity)
    (hpends : ∀ m, pends m → 0 < outside m) (hfree : ∀ m, c.fresh m → outside m = 0) :
    ∃ b' c', insert_step b c = some (b', c') ∧ Stepped evicts heads outside pends b c b' c' := by
  rcases hpc : c.pc with _ | page | page | ⟨page, g⟩ | ⟨page, g⟩ | ⟨page, g⟩ | ⟨page, g, q⟩ |
    ⟨page, p, q⟩ | ⟨page, dirty, after⟩ | r
  · exact step_fetch H I hpc
  · exact step_try_page H I hpc
  · exact step_create H I hpc fun he => hroom he page hpc
  · exact step_init_new H I hpc
  · exact step_unpin_new H I hpc hpends
  · exact step_relink H I hpc
  · exact step_read_new H I hpc
  · exact step_delete_new H I hpc hfree
  · exact step_leave H I hpc hpends
  · rw [hpc] at hrun
    cases hrun

end

end duck.table_heap
