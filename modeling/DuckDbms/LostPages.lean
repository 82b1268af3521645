-- The lost pages of a database: neither free nor on a chain, so that no call
-- finds them again. Which calls lose pages, and which ones they lose.
import DuckDbms.DatabaseRuns
import DuckDbms.PageAccounts

open machine chain
open duck.disk_manager duck.buffer_pool duck.table_heap duck.table duck.tuple duck.execution

/-! ## What every call loses -/

namespace duck.database

open duck.catalog

instance (name : List UInt8) (schema : Schema) : Decidable (Registrable name schema) :=
  inferInstanceAs (Decidable (_ ∧ _))

/-- The chain of a table, as `all_pages` finds it. -/
def pages_of (s : CatalogSystem) (table : Table) : List Nat :=
  match all_pages s.heap.pool table.table_heap with
  | some (.ok (page_ids, .SUCCESS), _) => page_ids.filterMap id
  | _ => []

/-- A create that cannot enter its table keeps the first page, and a drop keeps the pages that
have no room on the free list. -/
def losses (s : CatalogSystem) : DatabaseCall → List Nat
  | .create_table name schema =>
    if (s.tables name).isSome ∨ Registrable name schema then []
    else
      match (table_heap.create s.heap.pool).1 with
      | .ok (some page_id) => [page_id]
      | _ => []
  | .drop_table name =>
    match s.tables name with
    | none => []
    | some entry => (pages_of s entry.table).drop (room s.heap.pool.disk_manager)
  | _ => []

/-- The pages that are lost after a call: those from before, and others. -/
structure Loses (s t : CatalogSystem) (l : List Nat) : Prop where
  lost : ∀ n, Lost t.heads t.heap.pool n ↔ Lost s.heads s.heap.pool n ∨ n ∈ l
  others : ∀ n ∈ l, ¬ Lost s.heads s.heap.pool n
  nodup : l.Nodup

section
variable {s t : CatalogSystem} {name : List UInt8} {schema : Schema} {entry : TableEntry} {rid : RID}

theorem loses_nothing
    (h : ∀ n, Lost t.heads t.heap.pool n ↔ Lost s.heads s.heap.pool n) : Loses s t [] := by
  refine ⟨fun n => ?_, fun n hn => ?_, List.nodup_nil⟩
  · rw [h n]
    simp
  · cases hn

/-- A request to a table loses no page, and finds none again. -/
theorem Held.ask_loses_nothing (K : Held s) (he : s.tables name = some entry)
    {request : TableRequest} (hasked : Asked s entry.table request) {a : TableAnswer}
    {b : BufferPoolManager} (hr : request.run entry.table s.heap.pool = some (a, b)) (n : Nat) :
    Lost s.heads b n ↔ Lost s.heads s.heap.pool n := by
  have S := K.kept.sound
  obtain ⟨h, ht, hh⟩ := S.head he
  cases request with
  | insert_tuple schema tuple =>
    obtain ⟨⟨r, b1⟩, hi, hr⟩ := Option.map_eq_some_iff.mp hr
    cases hr
    obtain ⟨_, _, hi', R, _⟩ := insert_ran S.heap hh ht tuple
    rw [hi] at hi'
    cases hi'
    exact R.lost_iff (insert_accounted S.heap hh ht K.frames K.kept.alone hi) n
  | get_tuple rid =>
    obtain ⟨p, slot⟩ := rid
    obtain ⟨k, m, hk, rfl, hm⟩ := hasked
    obtain rfl := Option.some.inj (ht.symm.trans hk)
    have hids := keepsIds_get_tuple s.heap.pool ⟨some m, slot⟩
    have hpool := get_pool entry.table s.heap.pool ⟨some m, slot⟩
    have hb : (entry.table.get_tuple s.heap.pool ⟨some m, slot⟩).2 = b :=
      congrArg Prod.snd (Option.some.inj hr)
    rcases S.heap.get_tuple ⟨h, hh, hm⟩ slot with ⟨b1, h1, R, _⟩ | ⟨_, hall⟩
    swap
    · exact absurd hall (K.map_inv he ht).has_frame
    rw [h1] at hids hpool
    obtain rfl : b1 = b := hpool.symm.trans hb
    exact R.lost_iff (keepsIds_accounted hids) n
  | update_tuple rid schema tuple =>
    obtain ⟨⟨r, b1⟩, hu, hr⟩ := Option.map_eq_some_iff.mp hr
    cases hr
    obtain ⟨p, slot⟩ := rid
    obtain ⟨k, m, hk, rfl, hm⟩ := hasked.1
    obtain rfl := Option.some.inj (ht.symm.trans hk)
    have hon : RidOn s.heads s.heap.pool ⟨some m, slot⟩ := ⟨m, rfl, h, hh, hm⟩
    obtain ⟨_, _, hu', R⟩ := update_ran S.heap hh ht hon tuple
    rw [hu] at hu'
    cases hu'
    exact R.lost_iff (update_accounted S.heap hh ht K.frames K.kept.alone hm hu) n
  | delete_tuple rid =>
    obtain ⟨k, m, hk, hp, hm⟩ := hasked
    obtain rfl := Option.some.inj (ht.symm.trans hk)
    have hb : (Table.delete_tuple s.heap.pool rid).2 = b := congrArg Prod.snd (Option.some.inj hr)
    have R := delete_ran S.heap ⟨m, hp, h, hh, hm⟩
    rw [← hb]
    exact R.lost_iff (keepsIds_accounted (keepsIds_delete_tuple _ _)) n
  | select plan =>
    obtain ⟨⟨r, b1⟩, hsel, hr⟩ := Option.map_eq_some_iff.mp hr
    cases hr
    have H := S.heap
    rw [K.idle] at H
    have hreadable := K.readable name entry he
    rw [tuples_of_eq s ht] at hreadable
    have hasserts : ∀ l, (relation_of s entry.table).Lists l → plan.Asserts (records l) := hasked
    rw [relation_of_eq s ht] at hasserts
    obtain ⟨_, _, hsel', _, _, hc, hids, _⟩ :=
      select_answer H K.tidy (Nat.le_of_succ_le K.frames) hh ht hreadable hasserts
    rw [hsel] at hsel'
    cases hsel'
    exact lost_of_same hc hids n

/-! ## Creates -/

/-- The first page of a new table is on no chain yet. -/
theorem lost_created (S : Sound s) {x : Nat} {b : BufferPoolManager}
    (hcreate : table_heap.create s.heap.pool = (.ok (some x), b)) (C : Created s x b) (n : Nat) :
    (Lost s.heads b n ↔ Lost s.heads s.heap.pool n ∨ n = x) ∧ ¬ Lost s.heads s.heap.pool x := by
  have hx0 : x ≠ 0 := by
    rintro rfl
    exact C.fresh S.heap.metadata
  have hchain : OnChain (succ b) s.heads n ↔ OnChain (succ s.heap.pool) s.heads n :=
    onChain_congr C.onPath n
  have hpage : Allocated b.disk_manager x :=
    (C.heap.pages x ⟨x, Or.inr rfl, (C.onPath_new x).mpr rfl⟩).2
  refine ⟨⟨?_, ?_⟩, fun hlost => C.fresh hlost.2.1⟩
  · rintro ⟨h0, ha, hoff⟩
    rcases S.heap.create_allocated hcreate ha with ha | rfl
    · exact Or.inl ⟨h0, ha, fun hon => hoff (hchain.mpr hon)⟩
    · exact Or.inr rfl
  · rintro (⟨h0, ha, hoff⟩ | rfl)
    · exact ⟨h0, C.allocated n ha, fun hon => hoff (hchain.mp hon)⟩
    · exact ⟨hx0, hpage, fun hon => C.new S (hchain.mp hon)⟩

/-- A row that the catalog cannot have is refused before any page is brought in. -/
theorem refused_entry (S : Sound s) {x : Nat} {b : BufferPoolManager} {row : Tuple catalog_schema}
    (he : entry_tuple name (some x) schema = .ok row) (hreg : ¬ Registrable name schema)
    {r : Except Failure (Option RID)}
    (h : (s.with_pool b).insert_entry row none = some (r, t)) : t = s.with_pool b := by
  obtain ⟨c, hcat, _⟩ := S.catalog_head
  obtain ⟨⟨r1, b1⟩, hi, ht⟩ := Option.map_eq_some_iff.mp h
  cases ht
  have hi : s.catalog_table.insert_tuple b row = some (r1, b1) := hi
  unfold Table.insert_tuple at hi
  split at hi
  · cases hi
    rfl
  rcases entry_serialize he with ⟨⟨e, hs⟩, _⟩ | ⟨bytes, hs, hshort, hlen⟩
  · rw [hs] at hi
    cases hi
    rfl
  have hlong : 8180 < bytes.length := by
    by_contra hno
    exact hreg ⟨hshort, hlen ▸ Nat.le_of_not_lt hno⟩
  rw [hs] at hi
  simp only [insert_tuple_too_long b _ hlong] at hi
  cases hi
  rfl

/-- The heaps of the tables, with the first page of a new one. -/
theorem heads_with (hnone : s.tables name = none) {x : Nat} {b : BufferPoolManager}
    (k : Nat) : ((s.with_pool b).set_table name (some ⟨rid, ⟨some x, schema⟩⟩)).heads k ↔
      s.heads k ∨ k = x := by
  constructor
  · rintro (hc | ⟨name', entry', he', hk⟩)
    · exact Or.inl (Or.inl hc)
    simp only [CatalogSystem.set_table, CatalogSystem.with_pool] at he'
    by_cases hn : name' = name
    · subst hn
      rw [Function.update_self, Option.some.injEq] at he'
      subst he'
      exact Or.inr (Option.some.inj hk).symm
    · rw [Function.update_of_ne hn] at he'
      exact Or.inl (Or.inr ⟨name', entry', he', hk⟩)
  · rintro ((hc | ⟨name', entry', he', hk⟩) | rfl)
    · exact Or.inl hc
    · refine Or.inr ⟨name', entry', ?_, hk⟩
      simp only [CatalogSystem.set_table, CatalogSystem.with_pool]
      rw [Function.update_of_ne, he']
      rintro rfl
      rw [hnone] at he'
      cases he'
    · exact Or.inr ⟨name, _, Function.update_self .., rfl⟩

/-- A page that is the chain of a new heap is not lost any more. -/
theorem lost_with {heads : Nat → Prop} {b : BufferPoolManager} {x : Nat}
    (hone : ∀ m, OnPath (succ b) x m ↔ m = x) (n : Nat) :
    Lost (fun h => heads h ∨ h = x) b n ↔ Lost heads b n ∧ n ≠ x := by
  constructor
  · rintro ⟨h0, ha, hoff⟩
    refine ⟨⟨h0, ha, fun ⟨k, hk, hn⟩ => hoff ⟨k, Or.inl hk, hn⟩⟩, ?_⟩
    rintro rfl
    exact hoff ⟨n, Or.inr rfl, (hone n).mpr rfl⟩
  · rintro ⟨⟨h0, ha, hoff⟩, hne⟩
    refine ⟨h0, ha, ?_⟩
    rintro ⟨k, hk | rfl, hn⟩
    · exact hoff ⟨k, hk, hn⟩
    · exact hne ((hone n).mp hn)

/-- A table that is created has the page that was allocated for it. -/
theorem Held.created_loses_nothing (K : Held s) (hnone : s.tables name = none) {x : Nat}
    {b b' : BufferPoolManager} (hcreate : table_heap.create s.heap.pool = (.ok (some x), b))
    (C : Created s x b) {row : Tuple catalog_schema} {r : Except Failure (Option RID)}
    (hentry : (s.with_pool b).insert_entry row none = some (r, s.with_pool b'))
    (R : Ran True (fun h => s.heads h ∨ h = x) s.heap.outside (fun _ => False) b b')
    (ht : t = (s.with_pool b').set_table name (some ⟨rid, ⟨some x, schema⟩⟩)) :
    Loses s t [] := by
  have S := K.kept.sound
  obtain ⟨c, hcat, hcc⟩ := S.catalog_head
  obtain ⟨⟨r1, b1⟩, hi, hr⟩ := Option.map_eq_some_iff.mp hentry
  obtain ⟨_, hb⟩ := Prod.mk.inj hr
  obtain rfl : b1 = b' := congrArg (fun s : CatalogSystem => s.heap.pool) hb
  have A := insert_accounted C.heap (Or.inl hcc) hcat (C.capacity.symm ▸ K.frames) K.kept.alone hi
  have hheads : t.heads = fun k => s.heads k ∨ k = x := by
    funext k
    rw [ht]
    exact propext (heads_with hnone k)
  refine loses_nothing fun n => ?_
  have hpool : t.heap.pool = b1 := by
    rw [ht]
    rfl
  obtain ⟨hlost, hnot⟩ := lost_created S hcreate C n
  rw [hheads, hpool, R.lost_iff A n, lost_with C.onPath_new, hlost]
  constructor
  · rintro ⟨hn | hn, hne⟩
    · exact hn
    · exact absurd hn hne
  · intro hn
    refine ⟨Or.inl hn, ?_⟩
    rintro rfl
    exact hnot hn

/-- A create loses the page of the table that it cannot enter. -/
theorem Held.create_loses (K : Held s) {r : Except Failure Unit}
    (h : s.create_table name schema none = some (r, t)) :
    Loses s t (losses s (.create_table name schema)) := by
  have S := K.kept.sound
  by_cases hname : (s.tables name).isSome
  · have hl : losses s (.create_table name schema) = [] := if_pos (Or.inl hname)
    unfold CatalogSystem.create_table at h
    rw [if_pos hname] at h
    cases h
    rw [hl]
    exact loses_nothing fun _ => Iff.rfl
  have hnone : s.tables name = none := by simpa using hname
  rcases S.create with ⟨x, b, hcreate, C⟩ | ⟨_, _, _, hall, _⟩
  swap
  · exact absurd hall (not_allPinned_idle S.heap.store.inv (Nat.le_of_succ_le K.frames) K.kept.alone)
  obtain ⟨row, he⟩ := entry_tuple_ok name (some x) schema
  obtain ⟨r', b', hentry, N, hcases⟩ := K.insert_entry C he
  unfold CatalogSystem.create_table at h
  rw [if_neg hname, hcreate] at h
  simp only [he, hentry, Option.map_some] at h
  rcases hcases with ⟨⟨rid, rfl⟩, hreg⟩ | ⟨hno, hreg⟩
  · have hl : losses s (.create_table name schema) = [] := if_pos (Or.inr hreg)
    rw [hl]
    exact K.created_loses_nothing hnone hcreate C hentry N.ran
      (congrArg Prod.snd (Option.some.inj h)).symm
  · have hl : losses s (.create_table name schema) = [x] := by
      show (if _ then _ else _) = _
      rw [if_neg (not_or.mpr ⟨hname, hreg⟩), hcreate]
    have ht : t = s.with_pool b := by
      rw [← refused_entry S he hreg hentry]
      rcases r' with e | _ | rid
      · exact (congrArg Prod.snd (Option.some.inj h)).symm
      · exact (congrArg Prod.snd (Option.some.inj h)).symm
      · exact absurd rfl (hno rid)
    rw [hl, ht]
    refine ⟨fun n => ?_, fun n hn => ?_, List.nodup_singleton x⟩
    · rw [List.mem_singleton]
      exact (lost_created S hcreate C n).1
    · rw [List.mem_singleton.mp hn]
      exact (lost_created S hcreate C x).2

/-! ## Drops -/

theorem Held.pages_of_eq (K : Held s) {x : Nat} (hx : entry.table.table_heap = some x)
    (hh : s.heads x) {l : List Nat} (hl : Path (succ s.heap.pool) (some x) l) :
    pages_of s entry.table = l := by
  have S := K.kept.sound
  unfold pages_of
  rw [hx]
  obtain ⟨b, L, hall | ⟨_, hall⟩⟩ := S.heap.all_pages hh hl
  · rw [hall]
    simp only [List.filterMap_map, Function.comp_def, id_eq, List.filterMap_some]
  · exact absurd hall (not_allPinned_idle L.heap.store.inv
      (L.frames.symm ▸ Nat.le_of_succ_le K.frames) K.kept.alone)

/-- A drop deletes the row of the table, which leaves its chain alone, and then gives up the
chain. -/
theorem Held.drop_parts (K : Held s) (he : s.tables name = some entry) {x : Nat}
    (hx : entry.table.table_heap = some x) (hh : s.heads x) {l : List Nat}
    (hl : Path (succ s.heap.pool) (some x) l) (hr : s.drop_table name = some (.ok true, t)) :
    ∃ b b', Ran True s.heads s.heap.outside (fun _ => False) s.heap.pool b ∧
      KeepsIds s.heap.pool b ∧ Path (succ b) (some x) l ∧
      Dropped True (fun k => s.heads k ∧ k ≠ x) s.heap.outside (fun _ => False) l b b' ∧
      (∀ m, Allocated b'.disk_manager m ↔
        Allocated b.disk_manager m ∧ m ∉ l.take (room b.disk_manager)) ∧
      t = ((s.with_pool b).with_pool b').set_table name none := by
  have S := K.kept.sound
  obtain ⟨n, _, hrid, _, hn⟩ := S.row_on he
  have hon : RidOn s.heads s.heap.pool entry.rid := ⟨n, by rw [hrid], hn⟩
  have R := delete_ran S.heap hon
  have hids := keepsIds_delete_tuple s.heap.pool entry.rid
  unfold CatalogSystem.drop_table at hr
  simp only [he] at hr
  generalize Table.delete_tuple s.heap.pool entry.rid = d at R hids hr
  obtain ⟨e | _ | _, b⟩ := d
  · cases hr
  · cases hr
  simp only at R hids hr
  have hlb := R.path hids hh hl
  have hzero : ¬ OnPath (succ b) x 0 := fun hp => (S.ran R).metadata ⟨x, hh, hp⟩
  unfold CatalogSystem.drop_entry at hr
  rcases R.heap.drop_pages hh hzero (fun k (hk : s.heads k ∧ k ≠ x) => hk) hlb with
    ⟨failed, b', hd, D⟩ | ⟨b', hd, _⟩
  · have hal := R.heap.drop_pages_allocated K.kept.alone hh hzero hlb hd
    simp only [CatalogSystem.with_pool, hx, hd] at hr
    exact ⟨b, b', R, hids, hlb, D, hal, (congrArg Prod.snd (Option.some.inj hr)).symm⟩
  · simp only [CatalogSystem.with_pool, hx, hd] at hr
    cases hr

/-- A drop loses the pages that have no room on the free list. -/
theorem Held.drop_loses (K : Held s) {r : Except Failure Bool}
    (h : s.drop_table name = some (r, t)) : Loses s t (losses s (.drop_table name)) := by
  have S := K.kept.sound
  rcases he : s.tables name with _ | entry
  · have hloss : losses s (.drop_table name) = [] := by
      unfold losses
      simp only [he]
    unfold CatalogSystem.drop_table at h
    simp only [he] at h
    cases h
    rw [hloss]
    exact loses_nothing fun _ => Iff.rfl
  obtain ⟨x, hx, hh⟩ := S.head he
  obtain ⟨l, hl⟩ := S.heap.forest.ends x hh
  have hloss : losses s (.drop_table name) = l.drop (room s.heap.pool.disk_manager) := by
    unfold losses
    simp only [he]
    rw [K.pages_of_eq hx hh hl]
  obtain ⟨_, hr, _⟩ := S.drop_table_succeeds K.kept.matched he (Nat.le_of_succ_le K.frames)
    K.kept.alone
  rw [hr] at h
  cases h
  obtain ⟨b, b', R, hids, hlb, D, hal, ht⟩ := K.drop_parts he hx hh hl hr
  have hzero : ¬ OnPath (succ b) x 0 := fun hp => (S.ran R).metadata ⟨x, hh, hp⟩
  obtain ⟨hpath, _⟩ := (S.ran R).gives_up he hx hlb D
  have hroom : room b.disk_manager = room s.heap.pool.disk_manager := by
    unfold room
    rw [hids.free_list]
  have hheads : t.heads = fun k => s.heads k ∧ k ≠ x := by
    funext k
    rw [ht]
    exact propext ((S.ran R).heads_without he hx k)
  have hpool : t.heap.pool = b' := by
    rw [ht]
    rfl
  rw [hloss]
  refine ⟨fun m => ?_, fun m hm hno => ?_, hl.nodup.sublist (List.drop_sublist ..)⟩
  · rw [hheads, hpool, R.heap.dropped_lost hh hzero hlb hal hpath m,
      R.lost_iff (keepsIds_accounted hids), hroom]
  · exact hno.2.2 ⟨x, hh, l, hl, List.mem_of_mem_drop hm⟩

/-! ## The start, and the ends of processes -/

theorem keepsIds_load_tables {fuel : Nat} {b b' : BufferPoolManager} {scan : Scan}
    {tables : List UInt8 → Option TableEntry} {r : Except Failure (List UInt8 → Option TableEntry)}
    (h : load_tables fuel b scan tables = some (r, b')) : KeepsIds b b' := by
  induction fuel generalizing b scan tables with
  | zero => cases h
  | succ fuel ih =>
    unfold load_tables at h
    split at h
    · cases h
    · rename_i hs
      cases h
      exact (keepsIds_scan_next hs).trans (keepsIds_close _ _)
    · rename_i hs
      cases h
      exact (keepsIds_scan_next hs).trans (keepsIds_close _ _)
    · rename_i hs
      have hids := keepsIds_scan_next hs
      split at h
      · cases h
        exact hids.trans (keepsIds_close _ _)
      · exact hids.trans (ih h)

/-- The disk of a new database has the header and the first page of the catalog. -/
theorem capacity_start {frames : Nat} (h : CatalogSystem.make (empty_pool frames) = some (.ok s)) :
    s.heap.pool.disk_manager.capacity = 2 := by
  cases frames with
  | zero => cases h
  | succ k =>
    have hcapacity : (create (empty_pool (k + 1))).2.disk_manager.capacity = 2 := rfl
    have hnew : (empty_pool (k + 1)).disk_manager.capacity ≤ 1 := Nat.le_refl 1
    unfold CatalogSystem.make init_table at h
    rw [if_pos hnew] at h
    generalize create (empty_pool (k + 1)) = c at hcapacity h
    obtain ⟨e | first_page_id, b⟩ := c
    · cases h
    obtain ⟨⟨r, b'⟩, hload, hr⟩ := Option.map_eq_some_iff.mp h
    rcases r with e | tables
    · cases hr
    cases hr
    have ho := keepsIds_fetch_page b first_page_id
    unfold load_existing_tables Scan.open_ at hload
    generalize b.fetch_page first_page_id = f at ho hload
    obtain ⟨_ | _, b3⟩ := f
    · cases hload
    · exact ((ho.trans (keepsIds_load_tables hload)).capacity).trans hcapacity

theorem lost_start {frames : Nat} (h : CatalogSystem.make (empty_pool frames) = some (.ok s))
    (n : Nat) : ¬ Lost s.heads s.heap.pool n := by
  rintro ⟨h0, ha, hoff⟩
  have hstart : catalogMachine.start s := ⟨frames, h⟩
  have hhead : s.heads 1 := s.own_heads 1 (congrArg Table.table_heap (own_start hstart).1)
  have hlt := ha.1
  rw [capacity_start h] at hlt
  obtain rfl : n = 1 := by omega
  exact hoff ⟨1, hhead, (sound_start hstart).heap.forest.onPath_head hhead⟩

/-- The database that is opened again has lost the same pages. -/
theorem Held.reopen_loses_nothing (K : Held s) {disk : disk_file.DiskManager} {frames : Nat}
    (H : disk_file.Holds disk s.closed) (hframes : 1 ≤ frames)
    (hids : s.heap.pool.disk_manager.capacity < 2 ^ 32)
    (h : database.open_ disk.close frames = some (.ok t)) : Loses s t [] := by
  have S := K.kept.sound
  obtain ⟨_, hcap, hfree⟩ := S.closed
  obtain ⟨hmany, hfew, hdisk⟩ := K.kept.disk_reopened H hids
  obtain ⟨b, hload, _, hsame, hkeeps⟩ := K.kept.loaded H hids hfew hframes
  obtain ⟨_, hpath⟩ := S.heap_reopened H hids hfew frames
  have hclose : disk_file.DiskManager.open_ disk.close = some (.ok disk.flush_all) := hdisk
  have hinit : init_table (.make disk.flush_all.pages frames) =
      (.ok ⟨kCATALOG_FIRST_PAGE_ID, catalog_schema⟩, .make disk.flush_all.pages frames) :=
    if_neg (Nat.not_le_of_lt hmany)
  unfold database.open_ at h
  simp only [hclose] at h
  unfold CatalogSystem.make at h
  simp only [hinit, hload] at h
  have ht := Except.ok.inj (Option.some.inj h)
  have hpool : t.heap.pool = b := by rw [← ht]
  have hheads : t.heads = s.heads := by
    unfold CatalogSystem.heads
    rw [← ht, K.kept.own]
  refine loses_nothing fun n => ?_
  have hdisk : Allocated b.disk_manager n ↔ Allocated s.heap.pool.disk_manager n := by
    have hcapacity := hkeeps.capacity.trans (H.capacity.trans hcap)
    have hfree' := hkeeps.free_list.trans (H.free_list.trans hfree)
    unfold Allocated
    rw [hcapacity, hfree']
  have hchain : OnChain (succ b) s.heads n ↔ OnChain (succ s.heap.pool) s.heads n := by
    rw [succ_congr hsame]
    exact onChain_congr hpath n
  unfold Lost
  rw [hheads, hpool, hdisk, hchain]

/-! ## The law -/

/-- Every call loses the pages that it should, and no others. -/
theorem Held.loses (K : Held s) {call : DatabaseCall} (hproper : Proper s call) {r : DatabaseResult}
    (h : answer s call = some (r, t)) : Loses s t (losses s call) := by
  cases call with
  | get_table name =>
    cases h
    exact loses_nothing fun _ => Iff.rfl
  | create_table name schema =>
    obtain ⟨⟨r1, t1⟩, hr, h⟩ := Option.map_eq_some_iff.mp h
    cases h
    exact K.create_loses hr
  | drop_table name =>
    obtain ⟨⟨r1, t1⟩, hr, h⟩ := Option.map_eq_some_iff.mp h
    cases h
    exact K.drop_loses hr
  | ask name request =>
    unfold answer at h
    rcases he : s.tables name with _ | entry
    · simp only [he] at h
      cases h
      exact loses_nothing fun _ => Iff.rfl
    · simp only [he] at h
      obtain ⟨⟨a, b⟩, hr, h⟩ := Option.map_eq_some_iff.mp h
      cases h
      exact loses_nothing fun n => K.ask_loses_nothing he (hproper entry he) hr n
  | reopen disk frames =>
    obtain ⟨⟨H, hframes⟩, hids⟩ := hproper
    obtain ⟨t', hopen, _⟩ := K.reopen H hframes hids
    simp only [answer, hopen] at h
    cases h
    exact K.reopen_loses_nothing H (Nat.le_of_succ_le hframes) hids hopen

end

/-- A database with the pages that its calls have lost. -/
structure Ledger where
  system : CatalogSystem
  lost : List Nat

def Ledger.next (l : Ledger) (call : DatabaseCall) : Option Ledger :=
  (answer l.system call).map fun r => ⟨r.2, l.lost ++ losses l.system call⟩

/-- A database over a new file, as in `sessionMachine`. -/
def ledgerMachine : Machine Ledger DatabaseCall where
  start l := l.lost = [] ∧ ∃ frames, 2 ≤ frames ∧
    CatalogSystem.make (empty_pool frames) = some (.ok l.system)
  next := Ledger.next

/-- The ledger has the lost pages, each of them once. -/
def Balanced (l : Ledger) : Prop :=
  l.lost.Nodup ∧ ∀ n, n ∈ l.lost ↔ Lost l.system.heads l.system.heap.pool n

theorem Balanced.next {l : Ledger} (B : Balanced l) {t : CatalogSystem} {lost : List Nat}
    (L : Loses l.system t lost) : Balanced ⟨t, l.lost ++ lost⟩ := by
  obtain ⟨hnd, hmem⟩ := B
  constructor
  · rw [List.nodup_append]
    refine ⟨hnd, L.nodup, ?_⟩
    rintro n hn _ hn' rfl
    exact L.others n hn' ((hmem n).mp hn)
  · intro n
    rw [List.mem_append, hmem n]
    exact (L.lost n).symm

theorem balanced_reach {l : Ledger}
    (h : ledgerMachine.Reach (fun l call => Proper l.system call) l) :
    Held l.system ∧ Balanced l := by
  refine h.invariant (I := fun l => Held l.system ∧ Balanced l) (fun l hl => ?_)
    fun l call t hinv hproper hnext => ?_
  · obtain ⟨hlost, frames, hframes, hmake⟩ := hl
    refine ⟨(Held.start hframes hmake).1, ?_, fun n => ?_⟩
    · rw [hlost]
      exact List.nodup_nil
    · rw [hlost]
      exact ⟨fun hn => absurd hn List.not_mem_nil, fun hn => absurd hn (lost_start hmake n)⟩
  · obtain ⟨K, B⟩ := hinv
    obtain ⟨r, t', hr, K', _⟩ := K.answers hproper
    have hnext : l.next call = some t := hnext
    unfold Ledger.next at hnext
    rw [hr] at hnext
    cases hnext
    exact ⟨K', B.next (K.loses hproper hr)⟩

/-- The pages of a database that are not the header, not free and on no chain are the first pages
of tables that could not be entered, and the pages that a drop had no room for on the free list.
No call finds one of them again. -/
theorem the_lost_pages_are_those_of_creates_and_drops {l : Ledger}
    (h : ledgerMachine.Reach (fun l call => Proper l.system call) l) :
    Balanced l ∧ ∀ call t, Proper l.system call → ledgerMachine.next l call = some t →
      ∀ n ∈ l.lost, Lost t.system.heads t.system.heap.pool n := by
  refine ⟨(balanced_reach h).2, fun call t hproper hnext n hn => ?_⟩
  obtain ⟨_, hmem⟩ := (balanced_reach (h.step hproper hnext)).2
  have hnext : l.next call = some t := hnext
  obtain ⟨r, _, rfl⟩ := Option.map_eq_some_iff.mp hnext
  exact (hmem n).mp (List.mem_append_left _ hn)

/-- A table is created, another one has too long a name, and the first one is dropped. -/
def a_long_name : List DatabaseCall :=
  [.create_table [97] numbers, .create_table (List.replicate 129 97) numbers,
    .ask [97] (.insert_tuple numbers (number_tuple 7)), .drop_table [97]]

/-- The page of the long name is lost, and that of the table that was dropped is not. -/
theorem the_page_of_a_long_name_is_lost : ∃ l t : Ledger, l.lost = [3] ∧
    ledgerMachine.next l (.create_table [98] numbers) = some t ∧
      Lost t.system.heads t.system.heap.pool 3 ∧ ¬ Lost t.system.heads t.system.heap.pool 2 := by
  obtain ⟨s0, l, hmade, hl, hp⟩ := of_new_catalog (b := empty_pool 2)
    (f := fun s => ledgerMachine.execIf (fun l => is_proper ⟨l.system, []⟩) ⟨s, []⟩ a_long_name)
    (p := fun l => l.lost == [3] && losses l.system (.create_table [98] numbers) == [])
    (by decide +kernel)
  rw [Bool.and_eq_true, beq_iff_eq, beq_iff_eq] at hp
  have hr : ledgerMachine.Reach (fun l call => Proper l.system call) l :=
    Machine.Reach.execIf (fun _ h => (balanced_reach h).1.kept.sound)
      (fun l call => proper_of_check (s := ⟨l.system, []⟩) call)
      (.start ⟨rfl, 2, Nat.le_refl 2, hmade⟩) hl
  have hproper : Proper l.system (.create_table [98] numbers) :=
    proper_of_check (s := ⟨l.system, []⟩) _ (balanced_reach hr).1.kept.sound rfl
  obtain ⟨r, t, ht, _⟩ := (balanced_reach hr).1.answers hproper
  have hnext : ledgerMachine.next l (.create_table [98] numbers) = some ⟨t, l.lost⟩ := by
    show Option.map _ (answer l.system _) = _
    rw [ht, Option.map_some, hp.2, List.append_nil]
  obtain ⟨_, hstays⟩ := the_lost_pages_are_those_of_creates_and_drops hr
  obtain ⟨⟨_, hmem⟩, _⟩ := the_lost_pages_are_those_of_creates_and_drops (hr.step hproper hnext)
  refine ⟨l, _, hp.1, hnext, hstays _ _ hproper hnext 3 (by rw [hp.1]; simp), fun h2 => ?_⟩
  have h2 := (hmem 2).mpr h2
  rw [hp.1] at h2
  simp at h2

end duck.database
