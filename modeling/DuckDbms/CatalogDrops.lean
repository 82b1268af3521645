-- Drops of tables in their steps, with others that bring pages in and keep them
-- pinned in between: what a drop that fails leaves of the table and of its row.
import DuckDbms.CatalogRows

open machine duck.slotted_page duck.disk_manager duck.buffer_pool duck.table_heap duck.table
open duck.tuple chain

namespace duck.catalog

/-! ## The steps of a drop -/

/-- Where `drop_table` stands, once it has found the table. -/
inductive DropCall
  /-- `catalog_table_.delete_tuple`: the read of the row, and the delete -/
  | read
  | erase
  /-- the loop of `all_pages` -/
  | walk (page_id : PageID) (result : List PageID)
  /-- the loop over the pages, which fetches none, and the end -/
  | give (page_ids : List PageID)
  | returned (result : Except Failure Bool)

/-- A drop that is under way, or has returned, and what it found under the name. -/
structure Drop where
  name : List UInt8
  entry : TableEntry
  call : DropCall

/-- The catalog, and the last drop, if no other call came after it. -/
structure Dropping where
  system : CatalogSystem
  drop : Option Drop := none

namespace Dropping

variable (d : Dropping)

/-- No drop holds the latch of the catalog. -/
def idle : Bool :=
  match d.drop with
  | none | some ⟨_, _, .returned _⟩ => true
  | _ => false

/-- A name that is not registered is not dropped. -/
def begin_drop (name : List UInt8) : Dropping :=
  ⟨d.system, (d.system.tables name).map fun entry => ⟨name, entry, .read⟩⟩

/-- The next step of the drop. -/
def step : Option Dropping :=
  match d.drop with
  | none => none
  | some ⟨name, entry, call⟩ =>
    let go_on (b : BufferPoolManager) (call : DropCall) : Option Dropping :=
      some ⟨d.system.with_pool b, some ⟨name, entry, call⟩⟩
    match call with
    | .read =>
      match get_tuple d.system.heap.pool entry.rid with
      | (.error e, b) => go_on b (.returned (.error (.thrown e)))
      | (.ok none, b) => go_on b (.returned (.ok false))
      | (.ok (some _), b) => go_on b .erase
    | .erase =>
      match delete_tuple d.system.heap.pool entry.rid with
      | (.error e, b) => go_on b (.returned (.error (.thrown e)))
      | (.ok false, b) => go_on b (.returned (.ok false))
      | (.ok true, b) => go_on b (.walk entry.table.table_heap [])
    | .walk page_id result =>
      match with_page d.system.heap.pool page_id
        fun page => (slotted_page.next_page page.data, page.data, false) with
      | (.error e, b) => go_on b (.returned (.error (.thrown e)))
      | (.ok none, b) => go_on b (.returned (.error (.thrown
          "Catalog::drop_table: Table::drop_pages failed to fetch all pages before deletion")))
      | (.ok (some next_page), b) =>
        if next_page = INVALID_PAGE_ID then go_on b (.give (result ++ [page_id]))
        else go_on b (.walk next_page (result ++ [page_id]))
    | .give page_ids =>
      match drop_all d.system.heap.pool 0 page_ids with
      | (.error e, b) => go_on b (.returned (.error (.thrown e)))
      | (.ok _, b) =>
        some ⟨(d.system.with_pool b).set_table name none, some ⟨name, entry, .returned (.ok true)⟩⟩
    | .returned _ => none

end Dropping

inductive DropEvent
  /-- a call without a transaction; others may bring pages in, or let go of them, at any time -/
  | call (e : CatalogEvent)
  /-- the drop that is under way takes its next step -/
  | step

def Dropping.next (d : Dropping) : DropEvent → Option Dropping
  | .step => d.step
  | .call (.fetch n) => (d.system.next (.fetch n)).map fun system => ⟨system, d.drop⟩
  | .call (.unpin n) => (d.system.next (.unpin n)).map fun system => ⟨system, d.drop⟩
  | .call (.drop_table name) => if d.idle then some (d.begin_drop name) else none
  | .call e => if d.idle then (d.system.next e).map fun system => ⟨system, none⟩ else none

/-- A catalog whose tables and rows name the same tables, as they do in a new one. -/
def dropMachine : Machine Dropping DropEvent where
  start d := Sound d.system ∧ Matched d.system ∧ d.drop = none
  next := Dropping.next

/-- The page that the walk of a drop comes to is in a frame, or a frame is left for it. -/
def WalksOn (d : Dropping) : DropEvent → Prop
  | .step =>
    match d.drop with
    | some ⟨_, _, .walk page_id _⟩ => d.system.heap.pool.page_table page_id ≠ none ∨
        ¬ AllPinned d.system.heap.pool
    | _ => True
  | .call _ => True

/-- The RIDs that calls of tables get are those of their table, and their tuples fit into the size
of a slot. -/
def CallsOwn (d : Dropping) : DropEvent → Prop
  | .call e => OwnRids d.system e ∧ UpdatesFit e
  | .step => True

/-- The tables and the rows of the catalog name the same tables between the calls. A drop that
throws or returns false leaves its table registered, with its row, so that the next drop succeeds
once nobody else holds a page. -/
def DropsAgree (d : Dropping) : Prop :=
  (d.idle = true → NamesAgree d.system) ∧
  ∀ name entry r, d.drop = some ⟨name, entry, .returned r⟩ → r ≠ .ok true →
    d.system.tables name = some entry ∧
    (∃ bytes, d.system.catalog_rows entry.rid = some bytes ∧ row_name bytes = .ok name) ∧
    (1 ≤ d.system.heap.pool.pool_capacity → (∀ n, d.system.heap.outside n = 0) →
      ∃ t, d.system.drop_table name = some (.ok true, t))

/-! ## The invariant -/

/-- What holds while a drop stands at one of its steps: its row is gone from the delete on, and
its table is registered until the end. -/
def Stands (s : CatalogSystem) : Option Drop → Prop
  | none => Matched s
  | some ⟨name, entry, .read⟩ | some ⟨name, entry, .erase⟩ =>
    s.tables name = some entry ∧ Matched s
  | some ⟨name, entry, .walk page_id result⟩ =>
    s.tables name = some entry ∧ Matched (s.set_table name none) ∧
      ∃ x l n l', entry.table.table_heap = some x ∧ result = l.map some ∧ page_id = some n ∧
        Path (succ s.heap.pool) (some x) (l ++ n :: l')
  | some ⟨name, entry, .give page_ids⟩ =>
    s.tables name = some entry ∧ Matched (s.set_table name none) ∧
      ∃ x l, entry.table.table_heap = some x ∧ page_ids = l.map some ∧
        Path (succ s.heap.pool) (some x) l
  | some ⟨name, entry, .returned r⟩ => Matched s ∧ (r = .ok true ∨ s.tables name = some entry)

section
variable {s t : CatalogSystem} {name : List UInt8} {entry : TableEntry} {b : BufferPoolManager}

/-- Another user of the pool changes nothing. -/
theorem stands_same {drop : Option Drop} (h : Stands s drop) (heap : HeapPool)
    (hc : contents heap.pool = contents s.heap.pool) : Stands { s with heap } drop := by
  have hrows : ({ s with heap } : CatalogSystem).catalog_rows = s.catalog_rows := same_rows heap hc
  have hpath : ∀ {p : Option Nat} {l : List Nat}, Path (succ s.heap.pool) p l →
      Path (succ heap.pool) p l := by
    intro p l hl
    rwa [succ_congr hc]
  rcases drop with _ | ⟨name, entry, call⟩
  · exact h.congr rfl hrows
  · cases call with
    | read | erase => exact ⟨h.1, h.2.congr rfl hrows⟩
    | walk page_id result =>
      obtain ⟨he, M, x, l, n, l', hx, hl, hn, hp⟩ := h
      exact ⟨he, M.congr rfl hrows, x, l, n, l', hx, hl, hn, hpath hp⟩
    | give page_ids =>
      obtain ⟨he, M, x, l, hx, hl, hp⟩ := h
      exact ⟨he, M.congr rfl hrows, x, l, hx, hl, hpath hp⟩
    | returned r => exact ⟨h.1.congr rfl hrows, h.2⟩

/-- The tuple of a row of the catalog. -/
theorem Sound.tuple_of_row (S : Sound s) {n slot : Nat} {bytes : List UInt8}
    (hon : RidOn s.own s.heap.pool ⟨some n, slot⟩)
    (h : s.catalog_rows ⟨some n, slot⟩ = some bytes) :
    tupleOf (rows s.heads s.heap.pool n) slot = some bytes := by
  obtain ⟨h1, _⟩ := own_tuples (b := s.heap.pool) S.heap.forest s.own_heads
    (fun _ _ _ => id) ⟨some n, slot⟩
  exact (h1 hon).1.symm.trans h

theorem Sound.row_on (S : Sound s) (he : s.tables name = some entry) :
    ∃ n slot, entry.rid = ⟨some n, slot⟩ ∧ RidOn s.own s.heap.pool entry.rid ∧
      OnChain (succ s.heap.pool) s.heads n := by
  obtain ⟨c, n, hc, hp, hn⟩ := (S.table name entry he).2.2
  have hown : s.own c := hc
  exact ⟨n, entry.rid.slot_num, by rw [← hp], ⟨n, hp, c, hown, hn⟩, c, s.own_heads c hown, hn⟩

/-- A call that changes no row of any heap. -/
theorem Matched.ran (M : Matched s)
    (R : Ran True s.heads s.heap.outside (fun _ => False) s.heap.pool b)
    (hrows : rows s.heads b = rows s.heads s.heap.pool) : Matched (s.with_pool b) :=
  M.congr rfl (own_tuples_same R.heap.forest s.own_heads R.onPath hrows)

/-- The row of a table is deleted. -/
theorem row_deleted {rid : RID} (hon : RidOn s.own s.heap.pool rid)
    (R : Ran True s.heads s.heap.outside (fun _ => False) s.heap.pool b)
    (hrows : rows s.heads b = putRow (rows s.heads s.heap.pool) rid none) :
    (s.with_pool b).catalog_rows = Function.update s.catalog_rows rid none := by
  have hon' : RidOn s.own b rid := by
    obtain ⟨n, hp, c, hc, hn⟩ := hon
    exact ⟨n, hp, c, hc, R.onPath c (s.own_heads c hc) n hn⟩
  refine own_tuples_update R.heap.forest s.own_heads R.onPath hon' ?_
  rw [hrows]
  exact tuplesOf_clear _ _

/-- The rows of the catalog are on none of the pages that a table gives up. -/
theorem Sound.gives_up_rows (S : Sound s) (he : s.tables name = some entry) {x : Nat}
    (hx : entry.table.table_heap = some x) {l : List Nat}
    (hl : Path (succ s.heap.pool) (some x) l)
    (D : Dropped True (fun h => s.heads h ∧ h ≠ x) s.heap.outside (fun _ => False) l s.heap.pool
      b) : (s.with_pool b).catalog_rows = s.catalog_rows := by
  obtain ⟨hpath, _⟩ := S.gives_up he hx hl D
  have hne : ∀ k, s.own k → k ≠ x := by
    rintro k hk rfl
    exact (S.table name entry he).2.1 (hx.trans hk.symm)
  refine own_tuples_congr (fun k hk => hpath k (s.own_heads k hk) (hne k hk)) ?_
  rintro m ⟨k, hk, hm⟩
  apply D.same m
  intro hml
  have hh : s.heads x := Or.inr ⟨name, entry, he, hx⟩
  exact hne k hk (S.heap.forest.unique (s.own_heads k hk) hh hm ⟨l, hl, hml⟩)

/-! ## One step -/

/-- The invariant of the machine. -/
structure DropInv (d : Dropping) : Prop where
  sound : Sound d.system
  stands : Stands d.system d.drop

/-- The read of the row. -/
theorem DropInv.read {d d' : Dropping} (I : DropInv d) (hd : d.drop = some ⟨name, entry, .read⟩)
    (hstep : d.step = some d') : DropInv d' := by
  obtain ⟨S, hs⟩ := I
  rw [hd] at hs
  obtain ⟨he, M⟩ := hs
  obtain ⟨n, slot, hrid, _, hn⟩ := S.row_on he
  unfold Dropping.step at hstep
  rw [hd] at hstep
  simp only [hrid] at hstep
  have hgo : ∀ b, Ran True d.system.heads d.system.heap.outside (fun _ => False)
      d.system.heap.pool b → rows d.system.heads b = rows d.system.heads d.system.heap.pool →
      ∀ call, call = .erase ∨ call = .returned (.ok false) →
        DropInv ⟨d.system.with_pool b, some ⟨name, entry, call⟩⟩ := by
    intro b R hrows call hcall
    refine ⟨S.ran R, ?_⟩
    rcases hcall with rfl | rfl
    · exact ⟨he, M.ran R hrows⟩
    · exact ⟨M.ran R hrows, Or.inr he⟩
  rcases S.heap.get_tuple hn slot with ⟨b, hg, R, hrows⟩ | ⟨hg, _⟩
  · rw [hg] at hstep
    generalize Option.filter _ _ = o at hstep
    rcases o with _ | old
    · cases hstep
      exact hgo b R hrows _ (Or.inr rfl)
    · cases hstep
      exact hgo b R hrows _ (Or.inl rfl)
  · rw [hg] at hstep
    cases hstep
    exact hgo _ (ran_refl S.heap) rfl _ (Or.inr rfl)

/-- The delete of the row. -/
theorem DropInv.erase {d d' : Dropping} (I : DropInv d) (hd : d.drop = some ⟨name, entry, .erase⟩)
    (hstep : d.step = some d') : DropInv d' := by
  obtain ⟨S, hs⟩ := I
  rw [hd] at hs
  obtain ⟨he, M⟩ := hs
  obtain ⟨n, slot, hrid, hown, hn⟩ := S.row_on he
  have hon : RidOn d.system.heads d.system.heap.pool entry.rid := ⟨n, by rw [hrid], hn⟩
  obtain ⟨x, hx, hh⟩ := S.head he
  unfold Dropping.step at hstep
  rw [hd] at hstep
  simp only at hstep
  obtain ⟨b, R, ⟨hdel, hrows, _⟩ | ⟨hdel, hrows, _⟩⟩ := delete_spec S.heap hon
  · rw [hdel] at hstep
    cases hstep
    refine ⟨S.ran R, he, M.unregister he rfl (row_deleted hown R hrows), x, [], x, ?_⟩
    -- the walk starts at the first page
    obtain ⟨l, hl⟩ := R.heap.forest.ends x hh
    obtain ⟨l', rfl⟩ : ∃ l', l = x :: l' := by
      cases hl
      exact ⟨_, rfl⟩
    exact ⟨l', hx, rfl, hx, hl⟩
  · rw [hdel] at hstep
    cases hstep
    exact ⟨S.ran R, M.ran R hrows, Or.inr he⟩

/-- A turn of the walk over the pages, which finds its page. -/
theorem DropInv.walk {d d' : Dropping} (I : DropInv d) {page_id : PageID} {result : List PageID}
    (hd : d.drop = some ⟨name, entry, .walk page_id result⟩)
    (hok : d.system.heap.pool.page_table page_id ≠ none ∨ ¬ AllPinned d.system.heap.pool)
    (hstep : d.step = some d') : DropInv d' := by
  obtain ⟨S, hs⟩ := I
  rw [hd] at hs
  obtain ⟨he, M, x, l, n, l', hx, rfl, rfl, hp⟩ := hs
  have hh : d.system.heads x := Or.inr ⟨name, entry, he, hx⟩
  have hn : OnChain (succ d.system.heap.pool) d.system.heads n := ⟨x, hh, _, hp, by simp⟩
  unfold Dropping.step at hstep
  rw [hd] at hstep
  simp only at hstep
  rcases S.heap.look (S.heap.pages n hn).2 slotted_page.next_page with
    ⟨data, b, hw, hm, L⟩ | ⟨hw, hall⟩
  swap
  · rcases hok with hcached | hfree
    · -- a page that is in a frame is found
      have hno := fetch_of_with_page hw
      obtain ⟨f, hf⟩ := Option.ne_none_iff_exists'.mp hcached
      unfold BufferPoolManager.fetch_page BufferPoolManager.find_cached_page at hno
      rw [hf] at hno
      cases hno
    · exact absurd hall hfree
  rw [hw] at hstep
  have hnext : slotted_page.next_page data = succ d.system.heap.pool n := congrArg Meaning.next hm
  have hrows : (d.system.with_pool b).catalog_rows = d.system.catalog_rows :=
    same_rows ⟨b, d.system.heap.outside⟩ L.same
  have Mb : Matched ((d.system.with_pool b).set_table name none) := M.congr rfl hrows
  have hpath : Path (succ b) (some x) ((l ++ [n]) ++ l') := by
    rw [succ_congr L.same, List.append_assoc]
    exact hp
  have hresult : l.map some ++ [some n] = (l ++ [n]).map some := by simp
  simp only [hnext, hresult] at hstep
  -- the rest of the chain tells where the walk goes
  cases hp.from_node with
  | cons hrest =>
    rcases hs : succ d.system.heap.pool n with _ | m
    · rw [hs] at hrest hstep
      cases hrest
      simp only [INVALID_PAGE_ID, if_true] at hstep
      cases hstep
      rw [List.append_nil] at hpath
      exact ⟨S.looked L, he, Mb, x, l ++ [n], hx, rfl, hpath⟩
    · rw [hs] at hrest hstep
      rw [if_neg (by simp [INVALID_PAGE_ID])] at hstep
      cases hstep
      cases hrest with
      | @cons _ l' _ =>
        exact ⟨S.looked L, he, Mb, x, l ++ [n], m, l', hx, rfl, rfl, hpath⟩

/-- The end of a drop. -/
theorem DropInv.give {d d' : Dropping} (I : DropInv d) {page_ids : List PageID}
    (hd : d.drop = some ⟨name, entry, .give page_ids⟩) (hstep : d.step = some d') :
    DropInv d' := by
  obtain ⟨S, hs⟩ := I
  rw [hd] at hs
  obtain ⟨he, M, x, l, hx, rfl, hl⟩ := hs
  have hh : d.system.heads x := Or.inr ⟨name, entry, he, hx⟩
  have hzero : ¬ OnPath (succ d.system.heap.pool) x 0 := fun hp => S.metadata ⟨x, hh, hp⟩
  obtain ⟨failed, b, hdrop, D⟩ := S.heap.drop_chain hh hzero (fun k hk => hk) hl
  unfold Dropping.step at hstep
  rw [hd] at hstep
  simp only [hdrop] at hstep
  cases hstep
  exact ⟨(S.gives_up he hx hl D).2, M.congr rfl (S.gives_up_rows he hx hl D), Or.inl rfl⟩

theorem DropInv.step {d d' : Dropping} (I : DropInv d) (hok : WalksOn d .step)
    (hstep : d.step = some d') : DropInv d' := by
  rcases hd : d.drop with _ | ⟨name, entry, call⟩
  · unfold Dropping.step at hstep
    rw [hd] at hstep
    cases hstep
  · cases call with
    | read => exact I.read hd hstep
    | erase => exact I.erase hd hstep
    | walk page_id result =>
      unfold WalksOn at hok
      rw [hd] at hok
      exact I.walk hd hok hstep
    | give page_ids => exact I.give hd hstep
    | returned r =>
      unfold Dropping.step at hstep
      rw [hd] at hstep
      cases hstep

/-- Between the calls the tables and the rows name the same tables. -/
theorem DropInv.matched {d : Dropping} (I : DropInv d) (hidle : d.idle = true) :
    Matched d.system := by
  have hs := I.stands
  unfold Dropping.idle at hidle
  rcases hd : d.drop with _ | ⟨name, entry, call⟩
  · rw [hd] at hs
    exact hs
  · rw [hd] at hs hidle
    cases call with
    | returned r => exact hs.1
    | _ => cases hidle

/-- Another call than a drop, while no drop is under way. -/
theorem DropInv.call {d d' : Dropping} (I : DropInv d) {e : CatalogEvent}
    (hown : OwnRids d.system e) (hdrop : ∀ name, e ≠ .drop_table name)
    (hnext : (if d.idle then (d.system.next e).map fun system => (⟨system, none⟩ : Dropping)
      else none) = some d') : DropInv d' := by
  split at hnext
  · rename_i hidle
    obtain ⟨t, ht, rfl⟩ := Option.map_eq_some_iff.mp hnext
    exact ⟨sound_next I.sound hown ht, (I.matched hidle).next I.sound hown hdrop ht⟩
  · cases hnext

theorem DropInv.next {d d' : Dropping} (I : DropInv d) {e : DropEvent} (hok : WalksOn d e)
    (hown : CallsOwn d e) (hnext : dropMachine.next d e = some d') : DropInv d' := by
  have S := I.sound
  cases e with
  | step => exact I.step hok hnext
  | call e =>
    cases e with
    | fetch n =>
      obtain ⟨_, hn, rfl⟩ := Option.map_eq_some_iff.mp hnext
      obtain ⟨heap, hp, rfl⟩ := Option.map_eq_some_iff.mp hn
      obtain ⟨H, hc⟩ := evict_fetch S.heap hp
      exact ⟨S.same_contents H hc, stands_same I.stands heap hc⟩
    | unpin n =>
      obtain ⟨_, hn, rfl⟩ := Option.map_eq_some_iff.mp hnext
      obtain ⟨heap, hp, rfl⟩ := Option.map_eq_some_iff.mp hn
      obtain ⟨H, hc⟩ := evict_unpin S.heap hp
      exact ⟨S.same_contents H hc, stands_same I.stands heap hc⟩
    | drop_table name =>
      simp only [dropMachine, Dropping.next] at hnext
      split at hnext
      swap
      · cases hnext
      rename_i hidle
      cases hnext
      have M := I.matched hidle
      refine ⟨S, ?_⟩
      unfold Dropping.begin_drop
      rcases he : d.system.tables name with _ | entry
      · exact M
      · exact ⟨he, M⟩
    | create_table | insert_tuple | update_tuple | delete_tuple =>
      refine I.call ?_ ?_ hnext
      · exact hown.1
      · simp

/-! ## Whole drops -/

/-- A table that is registered, and has its row, is dropped with its row when nobody else holds a
page. -/
theorem Sound.drop_table_succeeds (S : Sound s) (M : Matched s) (he : s.tables name = some entry)
    (hframes : 1 ≤ s.heap.pool.pool_capacity) (hidle : ∀ n, s.heap.outside n = 0) :
    ∃ t, s.drop_table name = some (.ok true, t) ∧
      t.tables = Function.update s.tables name none ∧
      t.catalog_rows = Function.update s.catalog_rows entry.rid none := by
  obtain ⟨n, slot, hrid, hown, hn⟩ := S.row_on he
  obtain ⟨bytes, hrow, hname⟩ := M.named name entry he
  have htuple := S.tuple_of_row (hrid ▸ hown) (hrid ▸ hrow)
  -- the row of a name is not empty
  have hfilter : (some bytes).filter (! ·.isEmpty) = some bytes := by
    cases bytes with
    | nil =>
      rw [row_name_nil] at hname
      cases hname
    | cons => rfl
  have hfree : ∀ b, HeapState True s.heap.outside (fun _ => False) s.heads b →
      b.pool_capacity = s.heap.pool.pool_capacity → ¬ AllPinned b := by
    intro b H hk
    exact not_allPinned_idle H.store.inv (by rw [hk]; exact hframes) hidle
  rcases S.heap.get_tuple hn slot with ⟨b1, h1, R1, hrows1⟩ | ⟨_, hall⟩
  swap
  · exact absurd hall (hfree _ S.heap rfl)
  rw [htuple, hfilter] at h1
  rcases R1.heap.delete_tuple (R1.onChain hn) slot with ⟨b2, h2, R2, hrows2⟩ | ⟨_, hall, _⟩
  swap
  · exact absurd hall (hfree _ R1.heap R1.capacity)
  rw [hrows1, htuple] at h2
  have R := R1.trans R2
  have hrows : rows s.heads b2 = putRow (rows s.heads s.heap.pool) entry.rid none := by
    rw [hrows2, hrows1, hrid]
    rfl
  have hdelete : Table.delete_tuple s.heap.pool entry.rid = (.ok true, b2) := by
    unfold Table.delete_tuple
    simp only [hrid, h1, h2]
    rfl
  unfold CatalogSystem.drop_table
  simp only [he, hdelete]
  rcases Sound.drop_entry_cases (S.ran R) he "Catalog::drop_table" with
    ⟨x, l, b3, _, hd, hx, hh, hl, _, D, _⟩ | ⟨_, b3, _, hall, L, _⟩
  swap
  · exact absurd hall (hfree b3 L.heap (L.frames.trans R.capacity))
  simp only [hd]
  refine ⟨_, rfl, rfl, ?_⟩
  exact ((S.ran R).gives_up_rows he hx hl D).trans (row_deleted hown R hrows)

/-- When the walk of every drop finds its pages, the tables and the rows of the catalog stay
alike, and a drop that fails leaves its table as it was. -/
theorem drops_keep_tables_and_rows_alike {d : Dropping}
    (h : dropMachine.Reach (fun d e => WalksOn d e ∧ CallsOwn d e) d) : DropsAgree d := by
  have I : DropInv d := by
    refine h.invariant (fun d hd => ?_) fun d e d' I hok hnext => I.next hok.1 hok.2 hnext
    obtain ⟨S, M, hnone⟩ := hd
    refine ⟨S, ?_⟩
    rw [hnone]
    exact M
  refine ⟨fun hidle => (I.matched hidle).names_agree, fun name entry r hd hr => ?_⟩
  have hs := I.stands
  rw [hd] at hs
  obtain ⟨M, htrue | he⟩ := hs
  · exact absurd htrue hr
  · refine ⟨he, M.named name entry he, fun hframes hidle => ?_⟩
    obtain ⟨t, ht, _⟩ := I.sound.drop_table_succeeds M he hframes hidle
    exact ⟨t, ht⟩

/-- Where a drop goes from the pages that its walk has found. -/
def DropCall.walked : Except String (List PageID × TableHeapFetchStatus) → DropCall
  | .error e => .returned (.error (.thrown e))
  | .ok (_, .FAILED) => .returned (.error (.thrown
      "Catalog::drop_table: Table::drop_pages failed to fetch all pages before deletion"))
  | .ok (page_ids, .SUCCESS) => .give page_ids

/-- The turns of the walk are those of `all_pages`. -/
theorem walk_is_all_pages {d0 d : Dropping} {ok : Dropping → DropEvent → Prop}
    (hok : ∀ d, ok d .step) {es : List DropEvent} (hrun : dropMachine.Run ok d0 es d)
    {fuel : Nat} {page_id : PageID} {result : List PageID}
    (hd : d.drop = some ⟨name, entry, .walk page_id result⟩)
    {r : Except String (List PageID × TableHeapFetchStatus)}
    (h : all_pages_from fuel d.system.heap.pool page_id result = some (r, b)) :
    ∃ es', dropMachine.Run ok d0 es' ⟨d.system.with_pool b, some ⟨name, entry, .walked r⟩⟩ := by
  induction fuel generalizing d es page_id result with
  | zero => cases h
  | succ fuel ih =>
    unfold all_pages_from at h
    have hnext : dropMachine.next d .step = d.step := rfl
    unfold Dropping.step at hnext
    rw [hd] at hnext
    simp only at hnext
    generalize with_page _ _ _ = w at h hnext
    obtain ⟨_ | _ | next_page, b1⟩ := w
    · cases h
      exact ⟨_, hrun.snoc (hok d) hnext⟩
    · cases h
      exact ⟨_, hrun.snoc (hok d) hnext⟩
    · simp only at h hnext
      split at h
      · rename_i hend
        rw [if_pos hend] at hnext
        cases h
        exact ⟨_, hrun.snoc (hok d) hnext⟩
      · rename_i hend
        rw [if_neg hend] at hnext
        exact ih (d := ⟨d.system.with_pool b1, some ⟨name, entry, .walk next_page (result ++ [page_id])⟩⟩)
          (hrun.snoc (hok d) hnext) rfl h

/-- `drop_table` of a registered table without others in between is such a run. -/
theorem drop_table_is_a_run {ok : Dropping → DropEvent → Prop} (hok : ∀ d, ok d .step)
    {d : Dropping} (hidle : d.idle = true) (hcall : ok d (.call (.drop_table name)))
    (he : d.system.tables name = some entry) {r : Except Failure Bool}
    (h : d.system.drop_table name = some (r, t)) :
    ∃ es, dropMachine.Run ok d (.call (.drop_table name) :: es)
      ⟨t, some ⟨name, entry, .returned r⟩⟩ := by
  have hbegin : dropMachine.next d (.call (.drop_table name)) =
      some ⟨d.system, some ⟨name, entry, .read⟩⟩ := by
    simp only [dropMachine, Dropping.next, hidle, if_true, Dropping.begin_drop, he, Option.map_some]
  have hfrom : ∀ d', (∃ es, dropMachine.Run ok ⟨d.system, some ⟨name, entry, .read⟩⟩ es d') →
      ∃ es, dropMachine.Run ok d (.call (.drop_table name) :: es) d' := by
    rintro d' ⟨es, hr⟩
    exact ⟨es, .cons hcall hbegin hr⟩
  apply hfrom
  unfold CatalogSystem.drop_table Table.delete_tuple at h
  simp only [he] at h
  have hread : dropMachine.next ⟨d.system, some ⟨name, entry, .read⟩⟩ .step =
      Dropping.step ⟨d.system, some ⟨name, entry, .read⟩⟩ := rfl
  unfold Dropping.step at hread
  simp only at hread
  generalize get_tuple d.system.heap.pool entry.rid = g at h hread
  obtain ⟨_ | _ | old, b1⟩ := g
  · cases h
    exact ⟨_, .snoc .nil (hok _) hread⟩
  · cases h
    exact ⟨_, .snoc .nil (hok _) hread⟩
  have hrun1 : dropMachine.Run ok _ _ _ := .snoc .nil (hok _) hread
  have herase : dropMachine.next ⟨d.system.with_pool b1, some ⟨name, entry, .erase⟩⟩ .step =
      Dropping.step ⟨d.system.with_pool b1, some ⟨name, entry, .erase⟩⟩ := rfl
  unfold Dropping.step at herase
  simp only at h herase
  have hpool : (d.system.with_pool b1).heap.pool = b1 := rfl
  rw [hpool] at herase
  generalize delete_tuple b1 entry.rid = g at h herase
  obtain ⟨_ | _ | _, b2⟩ := g
  · cases h
    exact ⟨_, hrun1.snoc (hok _) herase⟩
  · cases h
    exact ⟨_, hrun1.snoc (hok _) herase⟩
  have hrun2 := hrun1.snoc (hok _) herase
  obtain ⟨⟨r1, t1⟩, hentry, hr⟩ := Option.map_eq_some_iff.mp h
  obtain ⟨⟨r2, b3⟩, hpages, hr2⟩ := Option.map_eq_some_iff.mp hentry
  obtain ⟨⟨r3, b4⟩, hall, hr3⟩ := Option.map_eq_some_iff.mp hpages
  obtain ⟨es, hrun3⟩ := walk_is_all_pages hok hrun2 rfl hall
  rcases r3 with e | ⟨page_ids, _ | _⟩
  · cases hr3
    cases hr2
    cases hr
    exact ⟨es, hrun3⟩
  · cases hr3
    cases hr2
    cases hr
    exact ⟨es, hrun3⟩
  have hgive : dropMachine.next ⟨((d.system.with_pool b1).with_pool b2).with_pool b4,
      some ⟨name, entry, .give page_ids⟩⟩ .step = Dropping.step ⟨((d.system.with_pool b1).with_pool b2).with_pool b4,
      some ⟨name, entry, .give page_ids⟩⟩ := rfl
  unfold Dropping.step at hgive
  simp only at hgive hr3
  have hpool : (((d.system.with_pool b1).with_pool b2).with_pool b4).heap.pool = b4 := rfl
  rw [hpool] at hgive
  generalize drop_all b4 0 page_ids = g at hr3 hgive
  obtain ⟨_ | failed, b5⟩ := g
  · cases hr3
    cases hr2
    cases hr
    exact ⟨_, hrun3.snoc (hok _) hgive⟩
  · cases hr3
    cases hr2
    cases hr
    exact ⟨_, hrun3.snoc (hok _) hgive⟩

end

/-! ## A drop that finds no frame -/

/-- No call names a RID. -/
def names_no_rid (_ : Dropping) : DropEvent → Bool
  | .call (.update_tuple ..) | .call (.delete_tuple ..) => false
  | _ => true

theorem callsOwn_of_check (d : Dropping) (e : DropEvent) (h : names_no_rid d e = true) :
    CallsOwn d e := by
  cases e with
  | step => trivial
  | call e =>
    cases e with
    | update_tuple | delete_tuple => cases h
    | _ => exact ⟨trivial, trivial⟩

/-- A walk finds its page in a frame, and no call names a RID. -/
def walks_in_frames (d : Dropping) (e : DropEvent) : Bool :=
  names_no_rid d e &&
    match e, d.drop with
    | .step, some ⟨_, _, .walk page_id _⟩ => (d.system.heap.pool.page_table page_id).isSome
    | _, _ => true

theorem walksOn_of_check (d : Dropping) (e : DropEvent) (h : walks_in_frames d e = true) :
    WalksOn d e ∧ CallsOwn d e := by
  unfold walks_in_frames at h
  rw [Bool.and_eq_true] at h
  refine ⟨?_, callsOwn_of_check d e h.1⟩
  have h := h.2
  cases e with
  | call e => trivial
  | step =>
    unfold WalksOn
    generalize d.drop = drop at h ⊢
    rcases drop with _ | ⟨name, entry, call⟩
    · trivial
    · cases call with
      | walk page_id result => exact Or.inl (Option.isSome_iff_ne_none.mp h)
      | _ => trivial

/-- The events from a new catalog over two frames. -/
theorem catalog_of_two_frames {check : Dropping → DropEvent → Bool}
    {ok : Dropping → DropEvent → Prop} (hc : ∀ d e, check d e = true → ok d e)
    {l : List DropEvent} {p : Dropping → Bool}
    (h : ((CatalogSystem.make (empty_pool 2)).bind fun made => made.toOption.bind fun s =>
      dropMachine.execIf check ⟨s, none⟩ l).map p = some true) :
    ∃ d, dropMachine.Reach ok d ∧ p d = true := by
  obtain ⟨s, d, hmade, hd, hp⟩ := of_new_catalog h
  have hstart : dropMachine.start ⟨s, none⟩ :=
    ⟨sound_start ⟨2, hmade⟩, matched_start ⟨2, hmade⟩, rfl⟩
  exact ⟨d, (Machine.Reach.start hstart).run (Machine.run_of_execIf hc hd), hp⟩

def has_dropped_nothing : Option Drop → Bool
  | some ⟨[97], _, .returned (.ok false)⟩ => true
  | _ => false

/-- Others hold both frames, and the row of the table `a` is not read. -/
theorem a_drop_without_a_frame_keeps_its_table : ∃ d,
    dropMachine.Reach (fun d e => WalksOn d e ∧ CallsOwn d e) d ∧
      (∃ entry, d.drop = some ⟨[97], entry, .returned (.ok false)⟩) ∧ DropsAgree d := by
  obtain ⟨d, hr, hp⟩ := catalog_of_two_frames walksOn_of_check
    (l := [.call (.create_table [97] numbers), .call (.fetch 0), .call (.fetch 2),
      .call (.drop_table [97]), .step])
    (p := fun d => has_dropped_nothing d.drop) (by decide +kernel)
  refine ⟨d, hr, ?_, drops_keep_tables_and_rows_alike hr⟩
  unfold has_dropped_nothing at hp
  split at hp
  · rename_i hd
    exact ⟨_, hd⟩
  · cases hp

/-- A drop that threw, and the first row of the catalog is gone. -/
def has_lost_a_row (d : Dropping) : Bool :=
  match d.drop with
  | some ⟨_, ⟨⟨some 1, 0⟩, _⟩, .returned (.error _)⟩ =>
    ((rowsOf (view d.system.heap.pool 1))[0]?.join).isNone
  | _ => false

/-- Others take both frames once the row is deleted. The table stays registered without it. -/
theorem a_drop_leaves_a_table_without_its_row :
    ¬ ∀ d, dropMachine.Reach CallsOwn d → DropsAgree d := by
  intro hall
  obtain ⟨d, hr, hp⟩ := catalog_of_two_frames callsOwn_of_check
    (l := [.call (.create_table [97] numbers), .call (.drop_table [97]), .step, .step,
      .call (.fetch 0), .call (.fetch 1), .step])
    (p := has_lost_a_row) (by decide +kernel)
  unfold has_lost_a_row at hp
  split at hp
  · rename_i name table e hd
    obtain ⟨_, ⟨bytes, hrow, _⟩, _⟩ := (hall d hr).2 _ _ _ hd (by simp)
    have hgone : ((rowsOf (view d.system.heap.pool 1))[0]?).join = some bytes := catalog_row hrow
    rw [hgone] at hp
    cases hp
  · cases hp

end duck.catalog
