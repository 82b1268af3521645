-- Whole runs of a database: tables are created and dropped, the database is
-- opened again, and what every call returns follows from the calls before it.
import DuckDbms.DatabaseMaps
import DuckDbms.TupleLayouts

open machine chain
open duck.disk_manager duck.buffer_pool duck.table_heap duck.table duck.tuple duck.execution

/-! ## The row of a new table -/

namespace duck.catalog

section
variable {name : List UInt8} {p : PageID} {schema : Schema} {entry : Tuple catalog_schema}

theorem entry_tuple_ok (name : List UInt8) (p : PageID) (schema : Schema) :
    ∃ entry, entry_tuple name p schema = .ok entry := by
  have hcount : (entryValues name p schema).length = catalog_schema.column_count := rfl
  have htypes : check_types (entryValues name p schema) catalog_schema.columns = .ok () := rfl
  unfold entry_tuple Tuple.make
  rw [dif_pos hcount]
  split
  · exact ⟨_, rfl⟩
  · rename_i e he
    rw [htypes] at he
    cases he

/-- Of the values of a row only the name can be refused: the column of the schemas is binary. -/
theorem entry_refused (h : entry_tuple name p schema = .ok entry) :
    SomeValue Refused entry ↔ 128 < name.length := by
  unfold SomeValue
  rw [values_of_make h]
  constructor
  · rintro ⟨⟨column, v⟩, hmem, hr⟩
    simp only [catalog_schema, entryValues, List.zip_cons_cons, List.zip_nil_right,
      List.mem_cons, List.not_mem_nil, or_false, Prod.mk.injEq] at hmem
    rcases hmem with ⟨rfl, rfl⟩ | ⟨rfl, rfl⟩ | ⟨rfl, rfl⟩
    · rcases hr with ⟨_, hr⟩ | ⟨_, _, q, hq, hover⟩
      · exact absurd (.string name) (hr name)
      · cases hq
        rcases hover with ⟨_, hover⟩ | hover
        · exact hover
        · exact Nat.lt_trans (by decide) hover
    · rcases hr with ⟨_, hr⟩ | ⟨_, _, _, _, hover⟩
      · exact absurd (.uint32 _) (hr _)
      · exact hover.elim
    · rcases hr with ⟨_, hr⟩ | ⟨hbinary, _⟩
      · exact absurd (.bytes _) (hr _)
      · exact absurd rfl hbinary
  · intro hlong
    have hcolumn : over_limit ⟨"table_name".toUTF8.toList, .VARCHAR, 128⟩ name.length :=
      Or.inl ⟨by decide, hlong⟩
    refine ⟨(⟨"table_name".toUTF8.toList, .VARCHAR, 128⟩, .of (.string name)), ?_,
      Or.inr ⟨by simp, rfl, name, .string name, hcolumn⟩⟩
    exact List.mem_cons_self

/-- A byte of NULLs, a page id of four bytes, and two lengths are beside the name and the
columns. -/
theorem entry_length (h : entry_tuple name p schema = .ok entry) {bytes : List UInt8}
    (hs : entry.serialize = .ok bytes) :
    bytes.length = name.length + schema.serialize.length + 9 := by
  obtain ⟨ps, rfl, hps⟩ := serialize_pieces hs
  rw [values_of_make h] at hps ⊢
  rw [List.length_append, length_set_nulls, List.length_replicate]
  cases hps with
  | cons hname _ hps =>
  cases hps with
  | cons hpage _ hps =>
  cases hps with
  | cons hschema _ hps =>
  cases hps
  cases hname with
  | fixed hfixed => cases hfixed
  | varlen _ hname =>
  cases hpage with
  | varlen hvar => cases hvar
  | fixed _ hfour hpage =>
  cases hschema with
  | fixed hfixed => cases hfixed
  | varlen _ hschema =>
  cases hname
  cases hpage
  cases hfour
  cases hschema
  simp [NullBitmap.size, entryValues]
  omega

/-- The row of a table is written unless its name is longer than its column. -/
theorem entry_serialize (h : entry_tuple name p schema = .ok entry) :
    (∃ e, entry.serialize = .error e) ∧ 128 < name.length ∨
      ∃ bytes, entry.serialize = .ok bytes ∧ name.length ≤ 128 ∧
        bytes.length = name.length + schema.serialize.length + 9 := by
  rcases serialize_cases entry with ⟨hr, what, hthrow⟩ | ⟨hr, bytes, hs⟩
  · exact Or.inl ⟨⟨_, hthrow⟩, (entry_refused h).mp hr⟩
  · exact Or.inr ⟨bytes, hs, Nat.le_of_not_lt (mt (entry_refused h).mpr hr), entry_length h hs⟩

end

end duck.catalog

namespace duck.database

open duck.catalog

section
variable {s t : CatalogSystem} {name : List UInt8} {schema : Schema} {entry : TableEntry}

/-- A call of a table or of the catalog keeps the pool as large as it was. -/
theorem Held.next (K : Held s) {e : CatalogEvent} (hown : OwnRids s e) (hone : OneUser e)
    (hcount : Countable e) (hnext : s.next e = some t) :
    Kept t ∧ t.heap.pool.pool_capacity = s.heap.pool.pool_capacity :=
  ⟨K.kept.next hown hone hcount hnext, (keeps_next K.tidy hone hnext).tidy.frames⟩

/-- The same tables with the same rows are the same database. -/
theorem Held.same (K : Held s) (Kt : Kept t) (hframes : 2 ≤ t.heap.pool.pool_capacity)
    (htables : ∀ name, (t.tables name).map TableEntry.table = (s.tables name).map TableEntry.table)
    (htuples : ∀ name entry, s.tables name = some entry →
      t.tuples_of entry.table = s.tuples_of entry.table) :
    Held t ∧ database_of t = database_of s := by
  have hback : ∀ name entry, t.tables name = some entry → ∃ entry',
      s.tables name = some entry' ∧ entry'.table = entry.table := by
    intro name entry he
    have hmap := htables name
    rw [he, Option.map_some] at hmap
    exact Option.map_eq_some_iff.mp hmap.symm
  refine ⟨⟨Kt, hframes, fun name entry he => ?_, fun name entry he => ?_⟩, ?_⟩
  · obtain ⟨entry', he', h⟩ := hback name entry he
    rw [← h]
    exact K.schemas name entry' he'
  · obtain ⟨entry', he', h⟩ := hback name entry he
    rw [← h, htuples name entry' he']
    exact K.readable name entry' he'
  · funext name
    unfold database_of
    rcases he : t.tables name with _ | entry
    · have hmap := htables name
      rw [he, Option.map_none, eq_comm, Option.map_eq_none_iff] at hmap
      rw [hmap]
      rfl
    · obtain ⟨entry', he', h⟩ := hback name entry he
      rw [he', Option.map_some, Option.map_some, ← h]
      unfold relation_of
      rw [htuples name entry' he']

/-! ## Tables that are created -/

/-- The pool after the first page of a new table, and after the insert of its row. -/
structure Entered (s : CatalogSystem) (x : Nat) (b b' : BufferPoolManager) : Prop where
  created : Created s x b
  ran : Ran True (fun h => s.heads h ∨ h = x) s.heap.outside (fun _ => False) b b'
  elsewhere : ∀ c, s.own c → Elsewhere (fun h => s.heads h ∨ h = x) c b b'

section
variable {x : Nat} {b b' : BufferPoolManager}

/-- The other tables are on chains that were there. -/
theorem Entered.others (N : Entered s x b b') (S : Sound s) {name' : List UInt8}
    {entry' : TableEntry} (he' : s.tables name' = some entry') :
    (s.with_pool b').tuples_of entry'.table = s.tuples_of entry'.table := by
  have C := N.created
  obtain ⟨c, hcat, hcc⟩ := S.catalog_head
  have hown : ∀ k, entry'.table.table_heap = some k → s.heads k :=
    fun k hk => Or.inr ⟨name', entry', he', hk⟩
  have hrow := own_tuples_elsewhere N.ran.heap.forest (fun k hk => Or.inl (hown k hk)) N.ran.onPath
    (Or.inl hcc) (fun hc => (S.table name' entry' he').2.1 (hc.trans hcat.symm)) (N.elsewhere c hcat)
  refine hrow.trans (own_tuples_congr (fun k hk => C.onPath k (hown k hk)) ?_)
  rintro m ⟨k, hk, hm⟩
  rw [C.contents_eq, Function.update_of_ne]
  rintro rfl
  exact C.new S ⟨k, hown k hk, hm⟩

/-- The first page of the new table has no rows. -/
theorem Entered.empty (N : Entered s x b b') (S : Sound s) : tuples x b' = fun _ => none := by
  have C := N.created
  obtain ⟨c, hcat, hcc⟩ := S.catalog_head
  have hne : c ≠ x := by
    rintro rfl
    exact C.new S ⟨c, hcc, S.heap.forest.onPath_head hcc⟩
  have hrow : tuplesOf (rows (· = x) b') = tuplesOf (rows (· = x) b) :=
    own_tuples_elsewhere N.ran.heap.forest (fun k hk => Or.inr hk) N.ran.onPath (Or.inl hcc) hne
      (N.elsewhere c hcat)
  rw [← tuplesOf_eq, hrow]
  funext ⟨p, slot⟩
  rcases p with _ | m
  · rfl
  unfold tuplesOf
  rw [rowAt_rows]
  by_cases hm : OnChain (succ b) (· = x) m
  · rw [rows_on hm]
    obtain ⟨_, rfl, hm⟩ := hm
    obtain rfl := (C.onPath_new m).mp hm
    rw [C.contents_eq, Function.update_self]
    rfl
  · rw [rows_off hm]
    rfl

/-- The row of a new table is placed if it can be written, and fits on a page. -/
theorem Held.insert_entry (K : Held s) (C : Created s x b) {row : Tuple catalog_schema}
    (he : entry_tuple name (some x) schema = .ok row) :
    ∃ r b', (s.with_pool b).insert_entry row none = some (r, s.with_pool b') ∧ Entered s x b b' ∧
      ((∃ rid, r = .ok (some rid)) ∧ Registrable name schema ∨
        (∀ rid, r ≠ .ok (some rid)) ∧ ¬ Registrable name schema) := by
  obtain ⟨c, hcat, hcc⟩ := K.kept.sound.catalog_head
  have hhead : s.heads c ∨ c = x := Or.inl hcc
  obtain ⟨r, b', hr, R, _⟩ := insert_ran C.heap hhead hcat row
  have hentry : (s.with_pool b).insert_entry row none = some (r, s.with_pool b') := by
    show Option.map _ (s.catalog_table.insert_tuple b row) = _
    rw [hr]
    rfl
  refine ⟨r, b', hentry, ⟨C, R, fun c' hc' => ?_⟩, ?_⟩
  · obtain rfl := Option.some.inj (hcat.symm.trans hc')
    exact insert_elsewhere C.heap hhead hcat hr
  unfold Table.insert_tuple at hr
  have hschema : s.catalog_table.schema = catalog_schema := congrArg Table.schema K.kept.own
  rw [if_neg (not_not_intro ((compatible_iff _ _).mpr hschema.symm))] at hr
  rcases entry_serialize he with ⟨⟨e, hs⟩, hlong⟩ | ⟨bytes, hs, hshort, hlen⟩
  · rw [hs] at hr
    cases hr
    exact Or.inr ⟨(by intro rid h; cases h), fun h => Nat.not_le_of_lt hlong h.1⟩
  rw [hs, hcat] at hr
  obtain ⟨⟨r1, b1⟩, hi, h1⟩ := Option.map_eq_some_iff.mp hr
  cases h1
  obtain ⟨_, I⟩ := C.heap.insert_tuple hhead hi fun h => absurd trivial h
  cases I with
  | placed =>
    refine Or.inl ⟨⟨_, rfl⟩, hshort, ?_⟩
    by_contra hlong
    rw [insert_tuple_too_long b _ (by omega)] at hi
    cases hi
  | refused hno _ hmay =>
    refine Or.inr ⟨?_, fun hreg => hmay ⟨hlen.trans_le hreg.2, C.capacity.symm ▸ K.frames,
      K.kept.alone⟩⟩
    rintro rid h
    rcases r1 with e | o
    · cases h
    · cases h
      exact hno rid rfl

/-- A new table has no rows, and the others have those that they had. -/
theorem Held.created (K : Held s) (N : Entered s x b b') (hnone : s.tables name = none)
    (hreg : Registrable name schema) (hcount : 0 < schema.column_count)
    (hchar : CharsHaveLength schema) {rid : RID}
    (ht : t = (s.with_pool b').set_table name (some ⟨rid, ⟨some x, schema⟩⟩)) (Kt : Kept t)
    (hframes : t.heap.pool.pool_capacity = s.heap.pool.pool_capacity) :
    Held t ∧ (database_of s).Does (.create_table name schema) (.created (.ok ()))
      (database_of t) := by
  have hnew : t.tables name = some ⟨rid, ⟨some x, schema⟩⟩ := by
    rw [ht]
    exact Function.update_self ..
  have hrows : t.tuples_of ⟨some x, schema⟩ = fun _ => none := by
    rw [tuples_of_eq t rfl, ht]
    exact N.empty K.kept.sound
  have B : Beside name s t := by
    rw [ht]
    exact ⟨fun name' hn => Function.update_of_ne hn .., fun _ _ _ => N.others K.kept.sound⟩
  constructor
  · refine K.beside B Kt hframes fun entry he => ?_
    obtain rfl := Option.some.inj (hnew.symm.trans he)
    refine ⟨hcount, hchar, ?_⟩
    rw [hrows]
    intro rid' bytes h
    cases h
  · have hempty : database_of t name = some (.empty schema) := by
      unfold database_of
      rw [hnew, Option.map_some]
      unfold relation_of
      rw [hrows]
      rfl
    rw [B.changes, hempty]
    refine .created ?_ hreg
    unfold database_of
    rw [hnone]
    rfl

end

theorem Held.create (K : Held s) (name : List UInt8) (hcount : 0 < schema.column_count)
    (hcounted : schema.column_count < 65536) (hchar : CharsHaveLength schema) :
    ∃ r t, s.create_table name schema none = some (r, t) ∧ Held t ∧
      (database_of s).Does (.create_table name schema) (.created r) (database_of t) := by
  have S := K.kept.sound
  by_cases hname : (s.tables name).isSome
  · refine ⟨_, s, if_pos hname, K, .not_created (Or.inl ?_)⟩
    obtain ⟨entry, he⟩ := Option.isSome_iff_exists.mp hname
    unfold database_of
    rw [he]
    exact Option.some_ne_none _
  have hnone : s.tables name = none := by simpa using hname
  rcases S.create with ⟨x, b, hcreate, C⟩ | ⟨_, _, _, hall, _⟩
  swap
  · exact absurd hall (not_allPinned_idle S.heap.store.inv (Nat.le_of_succ_le K.frames) K.kept.alone)
  obtain ⟨row, he⟩ := entry_tuple_ok name (some x) schema
  obtain ⟨r, b', hentry, N, hcases⟩ := K.insert_entry C he
  have hnext : ∀ {r t}, s.create_table name schema none = some (r, t) →
      Kept t ∧ t.heap.pool.pool_capacity = s.heap.pool.pool_capacity := by
    intro r t hr
    refine K.next (e := .create_table name schema) trivial trivial hcounted ?_
    show Option.map _ (s.create_table name schema none) = _
    rw [hr]
    rfl
  rcases hcases with ⟨⟨rid, rfl⟩, hreg⟩ | ⟨hno, hreg⟩
  · have hr : s.create_table name schema none = some (.ok (),
        (s.with_pool b').set_table name (some ⟨rid, ⟨some x, schema⟩⟩)) := by
      unfold CatalogSystem.create_table
      rw [if_neg hname, hcreate]
      simp only [he, hentry, Option.map_some]
      rfl
    obtain ⟨Kt, hframes⟩ := hnext hr
    exact ⟨_, _, hr, K.created N hnone hreg hcount hchar rfl Kt hframes⟩
  · obtain ⟨e, hr⟩ : ∃ e, s.create_table name schema none = some (.error e, s.with_pool b') := by
      unfold CatalogSystem.create_table
      rw [if_neg hname, hcreate]
      simp only [he, hentry, Option.map_some]
      rcases r with e | _ | rid
      · exact ⟨e, rfl⟩
      · exact ⟨_, rfl⟩
      · exact absurd rfl (hno rid)
    obtain ⟨Kt, hframes⟩ := hnext hr
    obtain ⟨hheld, hsame⟩ :=
      K.same Kt (hframes.symm ▸ K.frames) (fun _ => rfl) fun _ _ he' => N.others S he'
    refine ⟨_, _, hr, hheld, ?_⟩
    rw [hsame]
    exact .not_created (Or.inr hreg)

/-! ## Tables that are dropped -/

/-- What a table gives up is on no other chain. -/
theorem others_when_given_up (S : Sound s) (he : s.tables name = some entry) {x : Nat}
    (hx : entry.table.table_heap = some x) {l : List Nat} (hl : Path (succ s.heap.pool) (some x) l)
    {b : BufferPoolManager} (D : Dropped True (fun h => s.heads h ∧ h ≠ x) s.heap.outside
      (fun _ => False) l s.heap.pool b) {name' : List UInt8} {entry' : TableEntry}
    (hne : name' ≠ name) (he' : s.tables name' = some entry') :
    (s.with_pool b).tuples_of entry'.table = s.tuples_of entry'.table := by
  obtain ⟨hpath, _⟩ := S.gives_up he hx hl D
  have hown : ∀ k, entry'.table.table_heap = some k → s.heads k ∧ k ≠ x := by
    intro k hk
    refine ⟨Or.inr ⟨name', entry', he', hk⟩, ?_⟩
    rintro rfl
    exact hne (S.apart name' name entry' entry he' he (hk.trans hx.symm))
  refine own_tuples_congr (fun k hk => hpath k (hown k hk).1 (hown k hk).2) ?_
  rintro m ⟨k, hk, hm⟩
  apply D.same m
  intro hml
  have hh : s.heads x := Or.inr ⟨name, entry, he, hx⟩
  exact (hown k hk).2 (S.heap.forest.unique (hown k hk).1 hh hm ⟨l, hl, hml⟩)

/-- A drop deletes the row of the table and gives its pages up. -/
theorem beside_dropped (S : Sound s) (he : s.tables name = some entry)
    (hd : s.drop_table name = some (.ok true, t)) : Beside name s t := by
  obtain ⟨n, slot, hrid, _, hn⟩ := S.row_on he
  obtain ⟨c, n', hcat, hn', hcn⟩ := (S.table name entry he).2.2
  rw [hrid] at hn'
  obtain rfl := Option.some.inj hn'
  have hon : ∃ n, entry.rid.page_id = some n ∧ OnChain (succ s.heap.pool) s.heads n :=
    ⟨n, by rw [hrid], hn⟩
  have R := delete_ran S.heap hon
  have E := delete_elsewhere S.heap (Or.inl hcat) hcn slot
  rw [← hrid] at E
  unfold CatalogSystem.drop_table at hd
  simp only [he] at hd
  generalize Table.delete_tuple s.heap.pool entry.rid = d at R E hd
  obtain ⟨e | _ | _, b⟩ := d
  · cases hd
  · cases hd
  simp only at hd
  -- the row is on the chain of the catalog
  have hrow : ∀ name' entry', s.tables name' = some entry' →
      (s.with_pool b).tuples_of entry'.table = s.tuples_of entry'.table := by
    intro name' entry' he'
    refine own_tuples_elsewhere R.heap.forest (fun k hk => Or.inr ⟨name', entry', he', hk⟩) R.onPath
      (Or.inl hcat) (fun hown => ?_) E
    exact (S.table name' entry' he').2.1 (hown.trans hcat.symm)
  rcases Sound.drop_entry_cases (S.ran R) he "Catalog::drop_table" with
    ⟨x, l, b', _, hentry, hx, _, hl, _, D, _⟩ | ⟨e, b', hentry, _⟩
  · rw [hentry] at hd
    cases hd
    refine ⟨fun name' hn => Function.update_of_ne hn .., fun name' entry' hn he' => ?_⟩
    exact (others_when_given_up (S.ran R) he hx hl D hn he').trans (hrow name' entry' he')
  · rw [hentry] at hd
    cases hd

theorem Held.drop (K : Held s) (name : List UInt8) :
    ∃ r t, s.drop_table name = some (r, t) ∧ Held t ∧
      (database_of s).Does (.drop_table name) (.dropped r) (database_of t) := by
  rcases he : s.tables name with _ | entry
  · have hr : s.drop_table name = some (.ok false, s) := by
      unfold CatalogSystem.drop_table
      rw [he]
    refine ⟨_, s, hr, K, .nothing_dropped ?_⟩
    unfold database_of
    rw [he]
    rfl
  have S := K.kept.sound
  obtain ⟨t, hr, htables, _⟩ := S.drop_table_succeeds K.kept.matched he
    (Nat.le_of_succ_le K.frames) K.kept.alone
  obtain ⟨Kt, hframes⟩ := K.next (t := t) (e := .drop_table name) trivial trivial trivial (by
    show Option.map _ (s.drop_table name) = _
    rw [hr]
    rfl)
  have B := beside_dropped S he hr
  have hgone : t.tables name = none := by
    rw [htables]
    exact Function.update_self ..
  refine ⟨_, t, hr, K.beside B Kt hframes fun entry' he' => ?_, ?_⟩
  · rw [hgone] at he'
    cases he'
  · have hnone : database_of t name = none := by
      unfold database_of
      rw [hgone]
      rfl
    rw [B.changes, hnone]
    refine .dropped ?_
    unfold database_of
    rw [he]
    exact Option.some_ne_none _

/-! ## Every call -/

theorem Held.start {frames : Nat} (hframes : 2 ≤ frames)
    (h : CatalogSystem.make (empty_pool frames) = some (.ok s)) :
    Held s ∧ database_of s = fun _ => none := by
  have hstart : catalogMachine.start s := ⟨frames, h⟩
  have htables := (start_spec hstart).2.1
  have hno : ∀ name entry, s.tables name ≠ some entry := by
    intro name entry he
    rw [htables] at he
    cases he
  refine ⟨⟨kept_start hstart, ?_, fun _ _ he => absurd he (hno _ _),
    fun _ _ he => absurd he (hno _ _)⟩, ?_⟩
  · rw [((tidy_empty_pool frames).make h).1.frames]
    exact hframes
  · funext name
    unfold database_of
    rw [htables]
    rfl

theorem Held.reopen (K : Held s) {disk : disk_file.DiskManager} {frames : Nat}
    (H : disk_file.Holds disk s.closed) (hframes : 2 ≤ frames)
    (hids : s.heap.pool.disk_manager.capacity < 2 ^ 32) :
    ∃ t, database.open_ disk.close frames = some (.ok t) ∧ Held t ∧
      database_of t = database_of s := by
  obtain ⟨t, hopen, D, Kt⟩ := K.kept.reopened H hids (Nat.le_of_succ_le hframes)
  obtain ⟨_, hfew, hdisk⟩ := K.kept.disk_reopened H hids
  have hclose : disk_file.DiskManager.open_ disk.close = some (.ok disk.flush_all) := hdisk
  have hmake : CatalogSystem.make (.make disk.flush_all.pages frames) = some (.ok t) := by
    unfold database.open_ at hopen
    rw [hclose] at hopen
    exact hopen
  obtain ⟨T, _⟩ := (K.kept.sound.tidy_reopened K.tidy H hfew frames).make hmake
  exact ⟨t, hopen, K.same Kt (T.frames.symm ▸ hframes) D.tables D.tuples⟩

/-- A call returns what it would on the map, and leaves what it would. -/
theorem Held.answers (K : Held s) {call : DatabaseCall} (hproper : Proper s call) :
    ∃ r t, answer s call = some (r, t) ∧ Held t ∧
      (database_of s).Does call r (database_of t) := by
  cases call with
  | get_table name =>
    refine ⟨_, s, rfl, K, ?_⟩
    have hschema : (s.tables name).map (fun entry => entry.table.schema) =
        (database_of s name).map Relation.schema := by
      unfold database_of
      rw [Option.map_map]
      rfl
    rw [hschema]
    exact .get_table
  | create_table name schema =>
    obtain ⟨r, t, hr, Kt, hdoes⟩ := K.create name hproper.1 hproper.2.1 hproper.2.2
    refine ⟨_, t, ?_, Kt, hdoes⟩
    simp only [answer, hr, Option.map_some]
  | drop_table name =>
    obtain ⟨r, t, hr, Kt, hdoes⟩ := K.drop name
    refine ⟨_, t, ?_, Kt, hdoes⟩
    simp only [answer, hr, Option.map_some]
  | ask name request =>
    rcases he : s.tables name with _ | entry
    · refine ⟨.no_table, s, ?_, K, .no_table ?_⟩
      · simp only [answer, he]
      · unfold database_of
        rw [he]
        rfl
    · obtain ⟨a, b, hr, Kb, hdoes⟩ := K.serves he (hproper entry he)
      refine ⟨_, _, ?_, Kb, hdoes⟩
      simp only [answer, he, hr, Option.map_some]
  | reopen disk frames =>
    obtain ⟨⟨H, hframes⟩, hids⟩ := hproper
    obtain ⟨t, hopen, Kt, hsame⟩ := K.reopen H hframes hids
    refine ⟨.opened, t, ?_, Kt, ?_⟩
    · simp only [answer, hopen]
    · rw [hsame]
      exact .opened

end

/-! ## The law -/

theorem held_reach {s : Session}
    (h : sessionMachine.Reach (fun s call => Proper s.system call) s) :
    Held s.system ∧ Database.Ran s.history (database_of s.system) := by
  refine h.invariant (I := fun s => Held s.system ∧ Database.Ran s.history (database_of s.system))
    (fun s hs => ?_) fun s call t hinv hproper hnext => ?_
  · obtain ⟨hhistory, frames, hframes, hmake⟩ := hs
    obtain ⟨K, hempty⟩ := Held.start hframes hmake
    rw [hhistory, hempty]
    exact ⟨K, .new⟩
  · obtain ⟨K, hran⟩ := hinv
    obtain ⟨r, t', hr, K', hdoes⟩ := K.answers hproper
    have hnext : s.next call = some t := hnext
    unfold Session.next at hnext
    rw [hr] at hnext
    cases hnext
    exact ⟨K', hran.call hdoes⟩

/-- Every call of a database returns, and what has been returned since the file was new is what a
map from names to tables returns, when its RIDs, its sizes and its files are as they should be. -/
theorem a_database_is_a_map_of_its_tables {s : Session}
    (h : sessionMachine.Reach (fun s call => Proper s.system call) s) :
    Database.Ran s.history (database_of s.system) ∧
      ∀ call, Proper s.system call → ∃ t, sessionMachine.next s call = some t := by
  obtain ⟨K, hran⟩ := held_reach h
  refine ⟨hran, fun call hproper => ?_⟩
  obtain ⟨r, t, hr, _⟩ := K.answers hproper
  refine ⟨⟨t, s.history ++ [(call, r)]⟩, ?_⟩
  show s.next call = _
  unfold Session.next
  rw [hr]
  rfl

/-! ## A database that is opened again -/

/-- The RID is on the first page of its table. -/
def on_first_page (s : CatalogSystem) (name : List UInt8) (rid : RID) : Bool :=
  on_own_first_page s (.delete_tuple name rid)

def unpadded {schema : Schema} (tuple : Tuple schema) : Bool :=
  (schema.columns.zip tuple.values).all fun cv => cv.1.type != .CHAR

/-- A check of the calls that keep the database open, with RIDs on the first pages of tables
without CHAR columns. -/
def is_proper (s : Session) : DatabaseCall → Bool
  | .get_table _ | .drop_table _ => true
  | .create_table _ schema => decide (0 < schema.column_count ∧ schema.column_count < 65536) &&
      schema.columns.all fun column => column.type != .CHAR
  | .ask _ (.insert_tuple _ tuple) => unpadded tuple
  | .ask name (.get_tuple rid) | .ask name (.delete_tuple rid) => on_first_page s.system name rid
  | .ask name (.update_tuple rid _ tuple) => on_first_page s.system name rid && unpadded tuple &&
      tuple.serialize.toOption.all (·.length ≤ 8180)
  | .ask _ (.select plan) => plan.is_boolean
  | .reopen _ _ => false

theorem unpadded_of_check {schema : Schema} {tuple : Tuple schema} (h : unpadded tuple = true) :
    Unpadded tuple := by
  unfold Unpadded
  rw [List.forall₂_iff_zip]
  refine ⟨tuple.typed.length_eq.symm, fun {column v} hmem hchar => ?_⟩
  have hcolumn := List.all_eq_true.mp h (column, v) hmem
  simp [hchar] at hcolumn

theorem ridOf_of_check {s : CatalogSystem} (S : Sound s) {name : List UInt8} {rid : RID}
    (h : on_first_page s name rid = true) {entry : TableEntry} (he : s.tables name = some entry) :
    RidOf s.heap.pool entry.table rid :=
  ownRids_of_check (.delete_tuple name rid) S h entry he

theorem proper_of_check {s : Session} (call : DatabaseCall) (S : Sound s.system)
    (h : is_proper s call = true) : Proper s.system call := by
  cases call with
  | get_table | drop_table => trivial
  | reopen => cases h
  | create_table name schema =>
    obtain ⟨hcount, hchar⟩ := Bool.and_eq_true_iff.mp h
    obtain ⟨hpos, hmax⟩ := of_decide_eq_true hcount
    refine ⟨hpos, hmax, fun column hmem hc => ?_⟩
    have hcolumn := List.all_eq_true.mp hchar column hmem
    simp [hc] at hcolumn
  | ask name request =>
    intro entry he
    cases request with
    | insert_tuple schema tuple => exact unpadded_of_check h
    | get_tuple rid | delete_tuple rid => exact ridOf_of_check S h he
    | update_tuple rid schema tuple =>
      obtain ⟨h, hfits⟩ := Bool.and_eq_true_iff.mp h
      obtain ⟨hrid, hnul⟩ := Bool.and_eq_true_iff.mp h
      refine ⟨ridOf_of_check S hrid he, unpadded_of_check hnul, fun bytes hs => ?_⟩
      rw [hs] at hfits
      exact of_decide_eq_true hfits
    | select plan => exact fun l _ => plan.asserts_boolean h _

/-- The numbers of a table that are nine. -/
def nines : Plan :=
  .filter .scan (.comparison (.column 0) .EQUAL (.constant (.of (.uint32 9))))

/-- A row of one table is updated and another one is deleted, and a second table is dropped. -/
def two_rows : List DatabaseCall :=
  [.create_table [97] numbers, .create_table [98] numbers,
    .ask [97] (.insert_tuple numbers (number_tuple 7)),
    .ask [97] (.insert_tuple numbers (number_tuple 8)),
    .ask [97] (.update_tuple ⟨some 2, 0⟩ numbers (number_tuple 9)),
    .ask [97] (.delete_tuple ⟨some 2, 1⟩), .drop_table [98], .ask [97] (.select nines)]

/-- The last call has found one row, with a nine. -/
def has_found_nine (s : Session) : Bool :=
  match s.history.getLast? with
  | some (_, .answered (.selected (.ok [⟨[v]⟩]))) => v == .of (.uint32 9)
  | _ => false

theorem a_table_of_rows_is_opened_again : ∃ s t u : Session,
    has_found_nine s = true ∧
      sessionMachine.next s (.reopen (disk_file.stored s.system.closed) 3) = some t ∧
      sessionMachine.next t (.ask [97] (.select nines)) = some u ∧
      Database.Ran u.history (database_of u.system) := by
  obtain ⟨s0, s, hmade, hs, hp⟩ := of_new_catalog (b := empty_pool 2)
    (f := fun s => sessionMachine.execIf is_proper ⟨s, []⟩ two_rows)
    (p := fun s => has_found_nine s &&
      decide (s.system.heap.pool.disk_manager.capacity < 2 ^ 32)) (by decide +kernel)
  rw [Bool.and_eq_true, decide_eq_true_eq] at hp
  have hr : sessionMachine.Reach (fun s call => Proper s.system call) s :=
    Machine.Reach.execIf (fun _ h => (held_reach h).1.kept.sound) (fun _ => proper_of_check)
      (.start ⟨rfl, 2, Nat.le_refl 2, hmade⟩) hs
  have K := (held_reach hr).1
  have hopen : Proper s.system (.reopen (disk_file.stored s.system.closed) 3) :=
    ⟨⟨K.kept.sound.stored K.tidy, Nat.le_succ 2⟩, hp.2⟩
  obtain ⟨t, ht⟩ := (a_database_is_a_map_of_its_tables hr).2 _ hopen
  have hselect : Proper t.system (.ask [97] (.select nines)) :=
    fun _ _ _ _ => nines.asserts_boolean rfl _
  obtain ⟨u, hu⟩ := (a_database_is_a_map_of_its_tables (hr.step hopen ht)).2 _ hselect
  exact ⟨s, t, u, hp.1, ht, hu,
    (a_database_is_a_map_of_its_tables ((hr.step hopen ht).step hselect hu)).1⟩

end duck.database
