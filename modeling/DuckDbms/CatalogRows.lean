-- The rows of the catalog: which calls of the catalog and of its tables change
-- them, and how they name the tables that are registered.
import DuckDbms.CatalogChains
import DuckDbms.RefusedLocks
import DuckDbms.TupleLaws

open machine duck.slotted_page duck.disk_manager duck.buffer_pool duck.table_heap duck.table
open duck.tuple chain

namespace duck.catalog

/-! ## Rows and the tables they name -/

/-- The first page of the catalog's own table. -/
def CatalogSystem.own (s : CatalogSystem) (h : Nat) : Prop := s.catalog_table.table_heap = some h

/-- The live rows of the catalog, by their RIDs. -/
noncomputable def CatalogSystem.catalog_rows (s : CatalogSystem) : RID → Option (List UInt8) :=
  tuplesOf (rows s.own s.heap.pool)

/-- The name in a row of the catalog, as `load_existing_tables` reads it. -/
def row_name (bytes : List UInt8) : Except Failure (List UInt8) := do
  let tuple ← Tuple.of_raw bytes catalog_schema
  let name ← get tuple 0
  as_string name

/-- Every registered table has its row, which has its name, and every row has its table. -/
structure Matched (s : CatalogSystem) : Prop where
  named : ∀ name entry, s.tables name = some entry →
    ∃ bytes, s.catalog_rows entry.rid = some bytes ∧ row_name bytes = .ok name
  listed : ∀ rid bytes, s.catalog_rows rid = some bytes →
    ∃ name entry, s.tables name = some entry ∧ entry.rid = rid

/-- The names that are registered are the names in the live rows of the catalog. -/
def NamesAgree (s : CatalogSystem) : Prop :=
  ∀ name, (∃ entry, s.tables name = some entry) ↔
    ∃ rid bytes, s.catalog_rows rid = some bytes ∧ row_name bytes = .ok name

section
variable {s t : CatalogSystem} {name : List UInt8} {entry : TableEntry}

theorem Matched.names_agree (M : Matched s) : NamesAgree s := by
  intro name
  constructor
  · rintro ⟨entry, he⟩
    obtain ⟨bytes, hrow, hname⟩ := M.named name entry he
    exact ⟨entry.rid, bytes, hrow, hname⟩
  · rintro ⟨rid, bytes, hrow, hname⟩
    obtain ⟨name', entry, he, rfl⟩ := M.listed rid bytes hrow
    obtain ⟨bytes', hrow', hname'⟩ := M.named name' entry he
    rw [hrow] at hrow'
    cases hrow'
    rw [hname] at hname'
    cases hname'
    exact ⟨entry, he⟩

/-- Two tables have two rows. -/
theorem Matched.rid_inj (M : Matched s) {name' : List UInt8} {entry' : TableEntry}
    (he : s.tables name = some entry) (he' : s.tables name' = some entry')
    (hrid : entry.rid = entry'.rid) : name = name' := by
  obtain ⟨bytes, hrow, hname⟩ := M.named name entry he
  obtain ⟨bytes', hrow', hname'⟩ := M.named name' entry' he'
  rw [hrid, hrow'] at hrow
  cases hrow
  rw [hname'] at hname
  cases hname
  rfl

theorem Matched.congr (M : Matched s) (htables : t.tables = s.tables)
    (hrows : t.catalog_rows = s.catalog_rows) : Matched t := by
  refine ⟨fun name entry he => ?_, fun rid bytes hrow => ?_⟩
  · rw [htables] at he
    rw [hrows]
    exact M.named name entry he
  · rw [hrows] at hrow
    rw [htables]
    exact M.listed rid bytes hrow

/-- A new table, with a row in a place that was free. -/
theorem Matched.register (M : Matched s) (hnew : s.tables name = none) {bytes : List UInt8}
    (hfree : s.catalog_rows entry.rid = none) (hname : row_name bytes = .ok name)
    (htables : t.tables = Function.update s.tables name (some entry))
    (hrows : t.catalog_rows = Function.update s.catalog_rows entry.rid (some bytes)) :
    Matched t := by
  constructor
  · intro name' entry' he
    rw [htables] at he
    rw [hrows]
    by_cases hn : name' = name
    · subst hn
      rw [Function.update_self, Option.some.injEq] at he
      subst he
      exact ⟨bytes, Function.update_self .., hname⟩
    · rw [Function.update_of_ne hn] at he
      obtain ⟨bytes', hrow, hname'⟩ := M.named name' entry' he
      refine ⟨bytes', ?_, hname'⟩
      rw [Function.update_of_ne, hrow]
      intro hrid
      rw [hrid, hfree] at hrow
      cases hrow
  · intro rid bytes' hrow
    rw [hrows] at hrow
    rw [htables]
    by_cases hr : rid = entry.rid
    · exact ⟨name, entry, Function.update_self .., hr.symm⟩
    · rw [Function.update_of_ne hr] at hrow
      obtain ⟨name', entry', he, hrid⟩ := M.listed rid bytes' hrow
      refine ⟨name', entry', ?_, hrid⟩
      rw [Function.update_of_ne, he]
      rintro rfl
      rw [hnew] at he
      cases he

/-- A table that is gone, with its row. -/
theorem Matched.unregister (M : Matched s) (he : s.tables name = some entry)
    (htables : t.tables = Function.update s.tables name none)
    (hrows : t.catalog_rows = Function.update s.catalog_rows entry.rid none) : Matched t := by
  constructor
  · intro name' entry' he'
    rw [htables] at he'
    rw [hrows]
    by_cases hn : name' = name
    · subst hn
      rw [Function.update_self] at he'
      cases he'
    · rw [Function.update_of_ne hn] at he'
      rw [Function.update_of_ne fun hrid => hn (M.rid_inj he' he hrid)]
      exact M.named name' entry' he'
  · intro rid bytes hrow
    rw [hrows] at hrow
    rw [htables]
    by_cases hr : rid = entry.rid
    · subst hr
      rw [Function.update_self] at hrow
      cases hrow
    · rw [Function.update_of_ne hr] at hrow
      obtain ⟨name', entry', he', rfl⟩ := M.listed rid bytes hrow
      refine ⟨name', entry', ?_, rfl⟩
      rw [Function.update_of_ne, he']
      rintro rfl
      rw [he] at he'
      cases he'
      exact hr rfl

end

/-! ## The rows of some of the heaps -/

section
variable {own heads : Nat → Prop} {pins : Nat → Nat} {pending : Nat → Prop}
  {b b' : BufferPoolManager} {rid : RID}

/-- The rows of the pages that are on the chains of `own` in the end. -/
theorem own_tuples (F : Forest (succ b') heads) (hown : ∀ k, own k → heads k)
    (hpath : ∀ k, heads k → ∀ m, OnPath (succ b) k m → OnPath (succ b') k m) (rid : RID) :
    (RidOn own b' rid → tuplesOf (rows own b') rid = tuplesOf (rows heads b') rid ∧
      tuplesOf (rows own b) rid = tuplesOf (rows heads b) rid) ∧
    (¬ RidOn own b' rid → tuplesOf (rows own b') rid = none ∧ tuplesOf (rows own b) rid = none) := by
  obtain ⟨p, slot⟩ := rid
  have hgrows : ∀ m, OnChain (succ b) own m → OnChain (succ b') own m :=
    fun m ⟨k, hk, hm⟩ => ⟨k, hk, hpath k (hown k hk) m hm⟩
  have hoff : ∀ {c : BufferPoolManager} {m : Nat}, ¬ OnChain (succ c) own m →
      tuplesOf (rows own c) ⟨some m, slot⟩ = none := by
    intro c m hm
    unfold tuplesOf
    rw [rowAt_rows, rows_off hm]
    rfl
  constructor
  · rintro ⟨m, rfl, hm⟩
    obtain ⟨k, hk, hkm⟩ := hm
    have hon : OnChain (succ b') heads m := ⟨k, hown k hk, hkm⟩
    have hon' : OnChain (succ b') own m := ⟨k, hk, hkm⟩
    unfold tuplesOf
    rw [rowAt_rows, rowAt_rows, rowAt_rows, rowAt_rows, rows_on hon, rows_on hon']
    refine ⟨rfl, ?_⟩
    by_cases hb : OnChain (succ b) own m
    · obtain ⟨k', hk', hkm'⟩ := hb
      rw [rows_on ⟨k', hk', hkm'⟩, rows_on ⟨k', hown k' hk', hkm'⟩]
    · rw [rows_off hb, rows_off]
      -- a page of another chain stays on that chain
      rintro ⟨k', hk', hkm'⟩
      obtain rfl := F.unique hk' (hown k hk) (hpath k' hk' m hkm') hkm
      exact hb ⟨k', hk, hkm'⟩
  · intro hno
    rcases p with _ | m
    · exact ⟨rfl, rfl⟩
    have hm : ¬ OnChain (succ b') own m := fun h => hno ⟨m, rfl, h⟩
    exact ⟨hoff hm, hoff (mt (hgrows m) hm)⟩

/-- A change of the rows of the chains is one of the rows of `own`, if it is on its chains. -/
theorem own_tuples_update (F : Forest (succ b') heads) (hown : ∀ k, own k → heads k)
    (hpath : ∀ k, heads k → ∀ m, OnPath (succ b) k m → OnPath (succ b') k m)
    {r : Option (List UInt8)} (hon : RidOn own b' rid)
    (hrows : tuplesOf (rows heads b') = Function.update (tuplesOf (rows heads b)) rid r) :
    tuplesOf (rows own b') = Function.update (tuplesOf (rows own b)) rid r := by
  funext rid'
  obtain ⟨h1, h2⟩ := own_tuples F hown hpath rid'
  by_cases hr : rid' = rid
  · subst hr
    rw [(h1 hon).1, hrows, Function.update_self, Function.update_self]
  · rw [Function.update_of_ne hr]
    by_cases hon' : RidOn own b' rid'
    · rw [(h1 hon').1, (h1 hon').2, hrows, Function.update_of_ne hr]
    · rw [(h2 hon').1, (h2 hon').2]

/-- The rows of the pages beside the chain of `h` are what they were. -/
def Elsewhere (heads : Nat → Prop) (h : Nat) (b b' : BufferPoolManager) : Prop :=
  ∀ n, ¬ OnPath (succ b') h n → rows heads b' n = rows heads b n

/-- Changes on another chain. -/
theorem own_tuples_elsewhere {h : Nat} (F : Forest (succ b') heads) (hown : ∀ k, own k → heads k)
    (hpath : ∀ k, heads k → ∀ m, OnPath (succ b) k m → OnPath (succ b') k m)
    (hh : heads h) (hno : ¬ own h) (E : Elsewhere heads h b b') :
    tuplesOf (rows own b') = tuplesOf (rows own b) := by
  funext rid
  obtain ⟨h1, h2⟩ := own_tuples F hown hpath rid
  by_cases hon : RidOn own b' rid
  · rw [(h1 hon).1, (h1 hon).2]
    obtain ⟨_, slot⟩ := rid
    obtain ⟨m, rfl, k, hk, hkm⟩ := hon
    unfold tuplesOf
    rw [rowAt_rows, rowAt_rows, E]
    intro hm
    obtain rfl := F.unique hh (hown k hk) hm hkm
    exact hno hk
  · rw [(h2 hon).1, (h2 hon).2]

/-- No change at all. -/
theorem own_tuples_same (F : Forest (succ b') heads) (hown : ∀ k, own k → heads k)
    (hpath : ∀ k, heads k → ∀ m, OnPath (succ b) k m → OnPath (succ b') k m)
    (hrows : rows heads b' = rows heads b) : tuplesOf (rows own b') = tuplesOf (rows own b) := by
  funext rid
  obtain ⟨h1, h2⟩ := own_tuples F hown hpath rid
  by_cases hon : RidOn own b' rid
  · rw [(h1 hon).1, (h1 hon).2, hrows]
  · rw [(h2 hon).1, (h2 hon).2]

/-- The same pages, on the same chains. -/
theorem own_tuples_congr (hpath : ∀ k, own k → ∀ m, OnPath (succ b') k m ↔ OnPath (succ b) k m)
    (hc : ∀ m, OnChain (succ b) own m → contents b' m = contents b m) :
    tuplesOf (rows own b') = tuplesOf (rows own b) := by
  have hrows : rows own b' = rows own b :=
    rows_congr (fun n => exists_congr fun k => and_congr_right fun hk => hpath k hk n)
      fun n hn => by rw [hc n hn]
  rw [hrows]

/-! ## The calls of a table beside its chain -/

theorem elsewhere_insert (H : HeapState True pins pending heads b) {h : Nat} (hh : heads h)
    {t : List UInt8} {r : Except String (Option RID)}
    (hr : table_heap.insert_tuple b (some h) t = some (r, b')) : Elsewhere heads h b b' := by
  obtain ⟨_, I⟩ := H.insert_tuple hh hr fun he => absurd trivial he
  intro n hn
  cases I with
  | placed hp _ hrows =>
    rw [hrows, Function.update_of_ne]
    rintro rfl
    exact hn hp
  | refused _ hrows => rw [hrows]

theorem elsewhere_put {h : Nat} (hpath : ∀ m, OnPath (succ b) h m → OnPath (succ b') h m)
    {n : Nat} (hn : OnPath (succ b) h n) {l : List Row}
    (hrows : rows heads b' = Function.update (rows heads b) n l) : Elsewhere heads h b b' := by
  intro m hm
  rw [hrows, Function.update_of_ne]
  rintro rfl
  exact hm (hpath m hn)

theorem Elsewhere.trans {h : Nat} {b1 : BufferPoolManager} (E : Elsewhere heads h b b1)
    (E' : Elsewhere heads h b1 b') (hpath : ∀ m, OnPath (succ b1) h m → OnPath (succ b') h m) :
    Elsewhere heads h b b' :=
  fun n hn => (E' n hn).trans (E n (mt (hpath n) hn))

theorem elsewhere_same {h : Nat} (hrows : rows heads b' = rows heads b) : Elsewhere heads h b b' :=
  fun n _ => by rw [hrows]

/-- An update with a tuple of any length. -/
theorem elsewhere_update (H : HeapState True pins pending heads b) {h : Nat} (hh : heads h)
    {n : Nat} (hn : OnPath (succ b) h n) {slot : Nat} {t : List UInt8}
    {r : Except String (Option RID)}
    (hr : table_heap.update_tuple b (some h) ⟨some n, slot⟩ t = some (r, b')) :
    Elsewhere heads h b b' := by
  have hon : OnChain (succ b) heads n := ⟨h, hh, hn⟩
  unfold table_heap.update_tuple at hr
  rcases H.with_page hon _ (fun page hid hm _ => H.update_section_keeps hon slot t page hid hm) with
    ⟨page, b1, h1, _, _, _, R, hrows⟩ | ⟨h1, _⟩
  · have E := elsewhere_put (R.onPath h hh) hn hrows
    rw [h1] at hr
    generalize (update_section ⟨some n, slot⟩ t page).1 = u at hr
    cases u with
    | not_found =>
      cases hr
      exact E
    | placed rid =>
      cases hr
      exact E
    | no_room =>
      obtain ⟨R', _⟩ := R.heap.insert_tuple hh hr fun he => absurd trivial he
      exact E.trans (elsewhere_insert R.heap hh hr) (R'.onPath h hh)
  · rw [h1] at hr
    cases hr
    exact elsewhere_same rfl

/-- A delete of `Table`, which reads the tuple first. -/
theorem delete_elsewhere (H : HeapState True pins pending heads b) {h : Nat} (hh : heads h)
    {n : Nat} (hn : OnPath (succ b) h n) (slot : Nat) :
    Elsewhere heads h b (Table.delete_tuple b ⟨some n, slot⟩).2 := by
  have hon : OnChain (succ b) heads n := ⟨h, hh, hn⟩
  unfold Table.delete_tuple
  rcases H.get_tuple hon slot with ⟨b1, h1, R, hrows⟩ | ⟨h1, _⟩
  swap
  · rw [h1]
    exact elsewhere_same rfl
  rw [h1]
  generalize Option.filter _ _ = o
  rcases o with _ | bytes
  · exact elsewhere_same hrows
  rcases R.heap.delete_tuple (R.onChain hon) slot with ⟨b2, h2, R', hrows'⟩ | ⟨h2, _⟩
  · simp only [h2]
    exact (elsewhere_same hrows).trans (elsewhere_put (R'.onPath h hh) (R.onPath h hh n hn) hrows')
      (R'.onPath h hh)
  · simp only [h2]
    exact elsewhere_same hrows

end

/-! ## The calls and the rows of the catalog -/

theorem row_name_nil : row_name [] = .error .outside := rfl

/-- The bytes are those of the row that `create_table` writes for the table. -/
def IsRow (name : List UInt8) (table : Table) (bytes : List UInt8) : Prop :=
  ∃ entry, entry_tuple name table.table_heap table.schema = .ok entry ∧
    entry.serialize = .ok bytes ∧ bytes.length ≤ 8180

/-- A row that fits on a page has the values that were written. -/
theorem IsRow.read {name bytes : List UInt8} {table : Table} (h : IsRow name table bytes) :
    ∃ restored, Tuple.of_raw bytes catalog_schema = .ok restored ∧
      restored.values = entryValues name table.table_heap table.schema := by
  obtain ⟨entry, hmake, hs, hlen⟩ := h
  have hchar : CharsHaveLength catalog_schema := by
    unfold CharsHaveLength
    decide
  have hnul : List.Forall₂ NoTrailingNul catalog_schema.columns entry.values := by
    rw [values_of_make hmake]
    refine .cons ?_ (.cons ?_ (.cons ?_ .nil)) <;> rintro ⟨⟩
  obtain ⟨restored, hread, hvalues⟩ := of_raw_of_serialize hchar hnul hs hlen
  refine ⟨restored, hread, ?_⟩
  rw [hvalues, values_of_make hmake]
  rfl

theorem IsRow.name {name bytes : List UInt8} {table : Table} (h : IsRow name table bytes) :
    row_name bytes = .ok name := by
  obtain ⟨restored, hread, hvalues⟩ := h.read
  have hget : get restored 0 = .ok (.of (.string name)) := by
    unfold get
    rw [hvalues]
    rfl
  unfold row_name
  rw [hread]
  show (get restored 0 >>= as_string) = _
  rw [hget]
  rfl

section
variable {s t : CatalogSystem} {name : List UInt8} {entry : TableEntry} {b : BufferPoolManager}

theorem CatalogSystem.own_heads (s : CatalogSystem) (k : Nat) (h : s.own k) : s.heads k := Or.inl h

/-- A call of a registered table leaves the rows of the catalog alone. -/
theorem Sound.beside (S : Sound s) (he : s.tables name = some entry) {h : Nat}
    (htable : entry.table.table_heap = some h)
    (R : Ran True s.heads s.heap.outside (fun _ => False) s.heap.pool b)
    (E : Elsewhere s.heads h s.heap.pool b) : (s.with_pool b).catalog_rows = s.catalog_rows := by
  have hh : s.heads h := Or.inr ⟨name, entry, he, htable⟩
  refine own_tuples_elsewhere R.heap.forest s.own_heads R.onPath hh ?_ E
  intro hown
  exact (S.table name entry he).2.1 (htable.trans hown.symm)

/-- Another user of the pool changes no row. -/
theorem same_rows (heap : HeapPool) (hc : contents heap.pool = contents s.heap.pool) :
    ({ s with heap } : CatalogSystem).catalog_rows = s.catalog_rows :=
  own_tuples_congr (fun k _ m => by rw [succ_congr hc]) fun m _ => by rw [hc]

/-- An insert into the table of the catalog, with the pages of other heaps beside it. -/
theorem insert_entry_rows {heads : Nat → Prop} {pins : Nat → Nat}
    (H : HeapState True pins (fun _ => False) heads b) (hown : ∀ k, s.own k → heads k)
    {entry : Tuple catalog_schema} (hcat : s.catalog_table.table_heap ≠ none)
    {r : Except Failure (Option RID)} {b' : BufferPoolManager}
    (hr : s.catalog_table.insert_tuple b entry = some (r, b')) :
    Ran True heads pins (fun _ => False) b b' ∧
      ((∀ rid, r ≠ .ok (some rid)) ∧ tuplesOf (rows s.own b') = tuplesOf (rows s.own b) ∨
        ∃ rid bytes, r = .ok (some rid) ∧ entry.serialize = .ok bytes ∧ bytes.length ≤ 8180 ∧
          tuplesOf (rows s.own b) rid = none ∧
          tuplesOf (rows s.own b') = Function.update (tuplesOf (rows s.own b)) rid (some bytes)) := by
  obtain ⟨c, hc⟩ := Option.ne_none_iff_exists'.mp hcat
  have hkeep : ∀ e, (.error e, b) = (r, b') → Ran True heads pins (fun _ => False) b b' ∧
      (∀ rid, r ≠ .ok (some rid)) ∧ tuplesOf (rows s.own b') = tuplesOf (rows s.own b) := by
    intro e he
    cases he
    exact ⟨ran_refl H, (by intro rid h; cases h), rfl⟩
  unfold Table.insert_tuple at hr
  split at hr
  · obtain ⟨R, h1, h2⟩ := hkeep _ (Option.some.inj hr)
    exact ⟨R, Or.inl ⟨h1, h2⟩⟩
  rcases hs : entry.serialize with e | bytes
  · rw [hs] at hr
    obtain ⟨R, h1, h2⟩ := hkeep _ (Option.some.inj hr)
    exact ⟨R, Or.inl ⟨h1, h2⟩⟩
  rw [hs, hc] at hr
  obtain ⟨⟨r1, b1⟩, h1, he⟩ := Option.map_eq_some_iff.mp hr
  cases he
  have hown_c : s.own c := hc
  obtain ⟨R, I⟩ := H.insert_tuple (hown c hown_c) h1 fun he => absurd trivial he
  refine ⟨R, ?_⟩
  cases I with
  | @placed n slot hn htake hrows =>
    right
    have hon : RidOn s.own b1 ⟨some n, slot⟩ := ⟨n, rfl, c, hown_c, hn⟩
    have hmay : MayPlace (rows heads b) ⟨some n, slot⟩ := ⟨n, rfl, htake⟩
    have hall : tuplesOf (rows heads b1) =
        Function.update (tuplesOf (rows heads b)) ⟨some n, slot⟩ (some bytes) := by
      rw [← tuplesOf_placeRow hmay, hrows]
      rfl
    refine ⟨⟨some n, slot⟩, bytes, rfl, rfl, ?_, ?_,
      own_tuples_update R.heap.forest hown R.onPath hon hall⟩
    · by_contra hlen
      rw [insert_tuple_too_long b _ (by omega)] at h1
      cases h1
    · rw [((own_tuples R.heap.forest hown R.onPath _).1 hon).2, tuplesOf_mayPlace hmay]
  | refused hno hrows =>
    left
    refine ⟨?_, own_tuples_same R.heap.forest hown R.onPath hrows⟩
    rintro rid h
    rcases r1 with e | o
    · cases h
    · cases h
      exact hno rid rfl

/-- A table that is created has its row. One that is not leaves the rows as they were. -/
theorem Sound.create_table_rows (S : Sound s) {schema : Schema} {r : Except Failure Unit}
    (hr : s.create_table name schema none = some (r, t)) :
    t.tables = s.tables ∧ t.catalog_rows = s.catalog_rows ∨
      ∃ entry bytes, s.tables name = none ∧ s.catalog_rows entry.rid = none ∧
        IsRow name entry.table bytes ∧ entry.table.schema = schema ∧
        t.tables = Function.update s.tables name (some entry) ∧
        t.catalog_rows = Function.update s.catalog_rows entry.rid (some bytes) := by
  unfold CatalogSystem.create_table at hr
  split at hr
  · cases hr
    exact Or.inl ⟨rfl, rfl⟩
  rename_i hnew
  have hnone : s.tables name = none := by simpa using hnew
  rcases S.create with ⟨x, b1, hc, C⟩ | ⟨e, b1, hc, _, H, hb⟩
  swap
  · rw [hc] at hr
    cases hr
    exact Or.inl ⟨rfl, same_rows ⟨_, s.heap.outside⟩ hb⟩
  rw [hc] at hr
  -- the rows of the catalog are not on the new page
  have hrows : (s.with_pool b1).catalog_rows = s.catalog_rows := by
    refine own_tuples_congr (fun k hown => C.onPath k (s.own_heads k hown)) ?_
    intro m ⟨k, hown, hm⟩
    show contents b1 m = contents s.heap.pool m
    rw [C.contents_eq, Function.update_of_ne]
    rintro rfl
    exact C.new S ⟨k, s.own_heads k hown, hm⟩
  simp only at hr
  rcases he : entry_tuple name (some x) schema with e | entry
  · rw [he] at hr
    cases hr
    exact Or.inl ⟨rfl, hrows⟩
  rw [he] at hr
  obtain ⟨⟨r1, t1⟩, hi, hr⟩ := Option.map_eq_some_iff.mp hr
  obtain ⟨⟨r2, b2⟩, hinsert, he2⟩ := Option.map_eq_some_iff.mp hi
  cases he2
  obtain ⟨_, hcases⟩ := insert_entry_rows (s := s.with_pool b1) C.heap
    (fun k hown => Or.inl (s.own_heads k hown)) S.own hinsert
  rcases hcases with ⟨hno, hsame⟩ | ⟨rid, bytes, rfl, hs, hlen, hfree, hrow⟩
  · have htables : t.tables = s.tables ∧ t.heap.pool = b2 ∧ t.own = s.own := by
      rcases r2 with e | _ | rid
      · cases hr
        exact ⟨rfl, rfl, rfl⟩
      · cases hr
        exact ⟨rfl, rfl, rfl⟩
      · exact absurd rfl (hno rid)
    obtain ⟨h1, h2, h3⟩ := htables
    refine Or.inl ⟨h1, ?_⟩
    unfold CatalogSystem.catalog_rows
    rw [h2, h3]
    exact hsame.trans hrows
  · cases hr
    refine Or.inr ⟨⟨rid, ⟨some x, schema⟩⟩, bytes, hnone, ?_, ⟨entry, he, hs, hlen⟩, rfl, rfl, ?_⟩
    · rw [← hrows]
      exact hfree
    · rw [← hrows]
      exact hrow

theorem Matched.create_table (M : Matched s) (S : Sound s) {schema : Schema}
    {r : Except Failure Unit} (hr : s.create_table name schema none = some (r, t)) : Matched t := by
  rcases S.create_table_rows hr with ⟨h1, h2⟩ | ⟨entry, bytes, hnew, hfree, hrow, _, h1, h2⟩
  · exact M.congr h1 h2
  · exact M.register hnew hfree hrow.name h1 h2

/-- What a call of a registered table leaves of the catalog. -/
structure TableKept (s t : CatalogSystem) : Prop where
  tables : t.tables = s.tables
  rows : t.catalog_rows = s.catalog_rows

theorem Sound.insert_kept (S : Sound s) (he : s.tables name = some entry) {schema : Schema}
    {tuple : Tuple schema} {r : Except Failure (Option RID)}
    (hr : entry.table.insert_tuple s.heap.pool tuple = some (r, b)) : TableKept s (s.with_pool b) := by
  obtain ⟨h, htable, hh⟩ := S.head he
  obtain ⟨r', b', hr', R, _⟩ := insert_ran S.heap hh htable tuple
  rw [hr] at hr'
  cases hr'
  refine ⟨rfl, S.beside he htable R ?_⟩
  unfold Table.insert_tuple at hr
  split at hr
  · cases hr
    exact elsewhere_same rfl
  rcases hs : tuple.serialize with e | bytes
  · rw [hs] at hr
    cases hr
    exact elsewhere_same rfl
  rw [hs, htable] at hr
  obtain ⟨⟨r1, b1⟩, h1, he⟩ := Option.map_eq_some_iff.mp hr
  cases he
  exact elsewhere_insert S.heap hh h1

theorem Sound.delete_kept (S : Sound s) (he : s.tables name = some entry) {rid : RID}
    (hrid : RidOf s.heap.pool entry.table rid) :
    TableKept s (s.with_pool (Table.delete_tuple s.heap.pool rid).2) := by
  obtain ⟨p, slot⟩ := rid
  obtain ⟨h, n, htable, rfl, hn⟩ := hrid
  have hh : s.heads h := Or.inr ⟨name, entry, he, htable⟩
  have hon : RidOn s.heads s.heap.pool ⟨some n, slot⟩ := ⟨n, rfl, h, hh, hn⟩
  have R := delete_ran S.heap hon
  exact ⟨rfl, S.beside he htable R (delete_elsewhere S.heap hh hn slot)⟩

theorem Sound.update_kept (S : Sound s) (he : s.tables name = some entry) {rid : RID}
    (hrid : RidOf s.heap.pool entry.table rid) {schema : Schema} {tuple : Tuple schema}
    {r : Except Failure (Option RID)}
    (hr : entry.table.update_tuple s.heap.pool rid tuple = some (r, b)) :
    TableKept s (s.with_pool b) := by
  obtain ⟨p, slot⟩ := rid
  obtain ⟨h, n, htable, rfl, hn⟩ := hrid
  have hh : s.heads h := Or.inr ⟨name, entry, he, htable⟩
  have hon : RidOn s.heads s.heap.pool ⟨some n, slot⟩ := ⟨n, rfl, h, hh, hn⟩
  obtain ⟨r', b', hr', R⟩ := update_ran S.heap hh htable hon tuple
  rw [hr] at hr'
  cases hr'
  refine ⟨rfl, S.beside he htable R ?_⟩
  unfold Table.update_tuple at hr
  split at hr
  · cases hr
    exact elsewhere_same rfl
  rcases S.heap.get_tuple ⟨h, hh, hn⟩ slot with ⟨b1, h1, R1, hrows⟩ | ⟨h1, _⟩
  swap
  · rw [h1] at hr
    cases hr
    exact elsewhere_same rfl
  rw [h1] at hr
  generalize Option.filter _ _ = o at hr
  rcases o with _ | old
  · cases hr
    exact elsewhere_same hrows
  rcases hs : tuple.serialize with e | bytes
  · rw [hs] at hr
    cases hr
    exact elsewhere_same hrows
  rw [hs, htable] at hr
  obtain ⟨⟨r2, b2⟩, h2, he2⟩ := Option.map_eq_some_iff.mp hr
  cases he2
  have E := elsewhere_update R1.heap hh (R1.onPath h hh n hn) h2
  exact fun m hm => (E m hm).trans (by rw [hrows])

theorem on_own_page {n slot : Nat} {bytes : List UInt8}
    (h : s.catalog_rows ⟨some n, slot⟩ = some bytes) : OnChain (succ s.heap.pool) s.own n := by
  by_contra hn
  unfold CatalogSystem.catalog_rows tuplesOf at h
  rw [rowAt_rows, rows_off hn] at h
  cases h

/-- A row of the catalog is a row of its page. -/
theorem catalog_row {n slot : Nat} {bytes : List UInt8}
    (h : s.catalog_rows ⟨some n, slot⟩ = some bytes) :
    ((contents s.heap.pool n).rows[slot]?).join = some bytes := by
  rw [← rows_on (on_own_page h)]
  exact h

/-- A new catalog has no tables and no rows. -/
theorem matched_start (h : catalogMachine.start s) : Matched s := by
  obtain ⟨_, htables, hrows⟩ := start_spec h
  constructor
  · intro name entry he
    rw [htables] at he
    cases he
  · rintro ⟨p, slot⟩ bytes hrow
    rcases p with _ | n
    · cases hrow
    have hon : OnChain (succ s.heap.pool) s.heads n := by
      obtain ⟨k, hk, hp⟩ := on_own_page hrow
      exact ⟨k, s.own_heads k hk, hp⟩
    have hbytes := catalog_row hrow
    rw [hrows n hon] at hbytes
    cases hbytes

/-- Every call but a drop keeps the tables and the rows alike. -/
theorem Matched.next (M : Matched s) (S : Sound s) {e : CatalogEvent} (hown : OwnRids s e)
    (hdrop : ∀ name, e ≠ .drop_table name) (hnext : s.next e = some t) : Matched t := by
  cases e with
  | create_table name schema =>
    obtain ⟨⟨r, t'⟩, hr, rfl⟩ := Option.map_eq_some_iff.mp hnext
    exact M.create_table S hr
  | drop_table name => exact absurd rfl (hdrop name)
  | insert_tuple name schema tuple =>
    obtain ⟨entry, he, hnext⟩ := Option.bind_eq_some_iff.mp hnext
    obtain ⟨⟨r, b⟩, hr, rfl⟩ := Option.map_eq_some_iff.mp hnext
    have K := S.insert_kept he hr
    exact M.congr K.tables K.rows
  | update_tuple name rid schema tuple =>
    obtain ⟨entry, he, hnext⟩ := Option.bind_eq_some_iff.mp hnext
    obtain ⟨⟨r, b⟩, hr, rfl⟩ := Option.map_eq_some_iff.mp hnext
    have K := S.update_kept he (hown entry he) hr
    exact M.congr K.tables K.rows
  | delete_tuple name rid =>
    obtain ⟨entry, he, rfl⟩ := Option.map_eq_some_iff.mp hnext
    have K := S.delete_kept he (hown entry he)
    exact M.congr K.tables K.rows
  | fetch n =>
    obtain ⟨heap, hp, rfl⟩ := Option.map_eq_some_iff.mp hnext
    exact M.congr rfl (same_rows heap (evict_fetch S.heap hp).2)
  | unpin n =>
    obtain ⟨heap, hp, rfl⟩ := Option.map_eq_some_iff.mp hnext
    exact M.congr rfl (same_rows heap (evict_unpin S.heap hp).2)

end

end duck.catalog
