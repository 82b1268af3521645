-- A database is a map of tables: what its calls return, and what they leave, is
-- what they would on such a map, through drops and reopenings.
import DuckDbms.DatabaseCalls
import DuckDbms.HeapMap

open machine chain
open duck.disk_manager duck.buffer_pool duck.table_heap duck.table duck.tuple duck.execution

/-! ## The calls of one heap -/

namespace duck.table_heap

section
variable {h n : Nat} {b : BufferPoolManager} {t : List UInt8}

theorem MapInv.insert_run (I : MapInv h b) (h1 : 1 ≤ t.length) (h8 : t.length ≤ 8180) :
    ∃ rid b', insert_tuple b (some h) t = some (.ok (some rid), b') ∧ tuples h b rid = none ∧
      tuples h b' = Function.update (tuples h b) rid (some t) := by
  obtain ⟨_, b', hrun, _, hdoes⟩ := I.insert h1 h8
  obtain ⟨_, hm, hmap⟩ := hdoes ⟨tuples h b, tuples_finite I.heap⟩ rfl
  cases hm with
  | @insert _ rid hnone =>
    obtain ⟨⟨r, b1⟩, hr, he⟩ := Option.map_eq_some_iff.mp hrun
    rcases r with e | o
    · cases he
    · cases he
      exact ⟨rid, b1, hr, hnone, hmap.symm⟩

/-- A read keeps the map, and the pages of the heap. -/
theorem MapInv.get_run (I : MapInv h b) (hn : OnPath (succ b) h n) (slot : Nat) :
    ∃ b', get_tuple b ⟨some n, slot⟩ = (.ok (tuples h b ⟨some n, slot⟩), b') ∧ MapInv h b' ∧
      tuples h b' = tuples h b ∧ OnPath (succ b') h n := by
  obtain ⟨_, b', hrun, I', hdoes⟩ := I.get hn slot
  obtain ⟨_, hm, hmap⟩ := hdoes ⟨tuples h b, tuples_finite I.heap⟩ rfl
  rcases I.heap.get_tuple ⟨h, rfl, hn⟩ slot with ⟨b1, hg, R, _⟩ | ⟨_, hall⟩
  swap
  · exact absurd hall I.has_frame
  have hpath := R.onPath h rfl n hn
  cases hm with
  | get =>
    simp only [HeapCall.run, hg, Except.map, Option.some.injEq, Prod.mk.injEq, Except.ok.injEq,
      HeapResult.tuple.injEq] at hrun
    obtain ⟨hfound, rfl⟩ := hrun
    rw [hfound] at hg
    exact ⟨b1, hg, I', hmap.symm, hpath⟩

theorem MapInv.update_run (I : MapInv h b) (hn : OnPath (succ b) h n) (slot : Nat)
    (h1 : 1 ≤ t.length) (h8 : t.length ≤ 8180) (hlive : tuples h b ⟨some n, slot⟩ ≠ none) :
    ∃ rid b', update_tuple b (some h) ⟨some n, slot⟩ t = some (.ok (some rid), b') ∧
      (rid = ⟨some n, slot⟩ ∨ tuples h b rid = none) ∧ tuples h b' =
        Function.update (Function.update (tuples h b) ⟨some n, slot⟩ none) rid (some t) := by
  obtain ⟨_, b', hrun, _, hdoes⟩ := I.update hn slot h1 h8
  obtain ⟨_, hm, hmap⟩ := hdoes ⟨tuples h b, tuples_finite I.heap⟩ rfl
  cases hm with
  | update_dead hdead => exact absurd hdead hlive
  | @update _ rid _ _ hfree =>
    obtain ⟨⟨r, b1⟩, hr, he⟩ := Option.map_eq_some_iff.mp hrun
    rcases r with e | o
    · cases he
    · cases he
      exact ⟨rid, b1, hr, hfree, hmap.symm⟩

theorem MapInv.delete_run (I : MapInv h b) (hn : OnPath (succ b) h n) (slot : Nat) :
    ∃ b', delete_tuple b ⟨some n, slot⟩ = (.ok (tuples h b ⟨some n, slot⟩).isSome, b') ∧
      tuples h b' = Function.update (tuples h b) ⟨some n, slot⟩ none := by
  obtain ⟨_, b', hrun, _, hdoes⟩ := I.delete hn slot
  obtain ⟨_, hm, hmap⟩ := hdoes ⟨tuples h b, tuples_finite I.heap⟩ rfl
  cases hm with
  | delete =>
    have hr : ((delete_tuple b ⟨some n, slot⟩).1.map HeapResult.deleted,
        (delete_tuple b ⟨some n, slot⟩).2) = (.ok (.deleted (tuples h b ⟨some n, slot⟩).isSome), b') :=
      Option.some.inj hrun
    generalize delete_tuple b ⟨some n, slot⟩ = d at hr ⊢
    obtain ⟨e | o, b1⟩ := d
    · cases hr
    · cases hr
      exact ⟨b1, rfl, hmap.symm⟩

end

end duck.table_heap

namespace duck.database

open duck.catalog

/-! ## Rows that can be read -/

/-- Every row has bytes, and they are read as a tuple. -/
def Readable (schema : Schema) (rows : RID → Option (List UInt8)) : Prop :=
  ∀ rid bytes, rows rid = some bytes → bytes ≠ [] ∧ ∃ tuple, Tuple.of_raw bytes schema = .ok tuple

section
variable {schema : Schema} {rows : RID → Option (List UInt8)} {rid : RID} {bytes : List UInt8}
  {tuple : Tuple schema}

theorem Readable.put (R : Readable schema rows) (hne : bytes ≠ [])
    (hread : Tuple.of_raw bytes schema = .ok tuple) :
    Readable schema (Function.update rows rid (some bytes)) := by
  intro rid' bytes' h
  by_cases hr : rid' = rid
  · subst hr
    rw [Function.update_self] at h
    cases h
    exact ⟨hne, tuple, hread⟩
  · rw [Function.update_of_ne hr] at h
    exact R rid' bytes' h

theorem Readable.erase (R : Readable schema rows) : Readable schema (Function.update rows rid none) := by
  intro rid' bytes' h
  by_cases hr : rid' = rid
  · subst hr
    rw [Function.update_self] at h
    cases h
  · rw [Function.update_of_ne hr] at h
    exact R rid' bytes' h

theorem Readable.nonempty (R : Readable schema rows) (rid : RID) : rows rid ≠ some [] :=
  fun h => (R rid [] h).1 rfl

theorem Readable.decode (R : Readable schema rows) (h : rows rid = some bytes) :
    ∃ tuple, Tuple.of_raw bytes schema = .ok tuple ∧ decode_rows schema rows rid = some tuple := by
  obtain ⟨_, tuple, hread⟩ := R rid bytes h
  refine ⟨tuple, hread, ?_⟩
  unfold decode_rows
  rw [h, Option.bind_some, hread]
  rfl

theorem Readable.decode_isSome (R : Readable schema rows) :
    (decode_rows schema rows rid).isSome = (rows rid).isSome := by
  rcases h : rows rid with _ | bytes
  · unfold decode_rows
    rw [h]
    rfl
  · obtain ⟨tuple, _, hd⟩ := R.decode h
    rw [hd]
    rfl

theorem Readable.decode_eq_none (R : Readable schema rows) :
    decode_rows schema rows rid = none ↔ rows rid = none := by
  rw [← Option.isNone_iff_eq_none, ← Option.isNone_iff_eq_none, ← Option.not_isSome,
    ← Option.not_isSome, R.decode_isSome]

theorem decode_put (hread : Tuple.of_raw bytes schema = .ok tuple) :
    decode_rows schema (Function.update rows rid (some bytes)) =
      Function.update (decode_rows schema rows) rid (some tuple) := by
  funext rid'
  unfold decode_rows
  by_cases hr : rid' = rid
  · subst hr
    rw [Function.update_self, Function.update_self, Option.bind_some, hread]
    rfl
  · rw [Function.update_of_ne hr, Function.update_of_ne hr]

theorem decode_erase : decode_rows schema (Function.update rows rid none) =
    Function.update (decode_rows schema rows) rid none := by
  funext rid'
  unfold decode_rows
  by_cases hr : rid' = rid
  · subst hr
    rw [Function.update_self, Function.update_self, Option.bind_none]
  · rw [Function.update_of_ne hr, Function.update_of_ne hr]

/-- The bytes of a tuple are read as the tuple. -/
theorem read_serialized (hcount : 0 < schema.column_count) (hchar : CharsHaveLength schema)
    (hnul : Unpadded tuple) (hs : tuple.serialize = .ok bytes) (hlen : bytes.length ≤ 8180) :
    1 ≤ bytes.length ∧ Tuple.of_raw bytes schema = .ok (decoded tuple) := by
  constructor
  · obtain ⟨ps, rfl, _⟩ := serialize_pieces hs
    have hvalues : tuple.values.length = schema.column_count := tuple.typed.length_eq
    rw [List.length_append, length_set_nulls, List.length_replicate]
    unfold NullBitmap.size
    omega
  · obtain ⟨⟨values, typed⟩, hread, hvalues⟩ := of_raw_of_serialize hchar hnul hs hlen
    obtain rfl : values = tuple.values.map Value.decoded := hvalues
    exact hread

theorem compatible_iff (table : Table) (other : Schema) :
    table.schema.compatible_with other = true ↔ other = table.schema := by
  obtain ⟨columns⟩ := other
  obtain ⟨first_page_id, columns'⟩ := table
  unfold Schema.compatible_with
  rw [beq_iff_eq]
  constructor
  · rintro rfl
    rfl
  · rintro rfl
    rfl

end

/-! ## What a table answers -/

/-- The table with these columns and rows. -/
def decoded_relation (schema : Schema) (rows : RID → Option (List UInt8)) : Relation :=
  ⟨schema, decode_rows schema rows⟩

section
variable {schema : Schema} {rows : RID → Option (List UInt8)} {rid : RID}

theorem relation_put {bytes : List UInt8} {tuple : Tuple schema}
    (hread : Tuple.of_raw bytes schema = .ok tuple) :
    decoded_relation schema (Function.update rows rid (some bytes)) =
      (decoded_relation schema rows).put rid tuple := by
  unfold decoded_relation Relation.put
  rw [decode_put hread]

theorem relation_move {rid' : RID} {bytes : List UInt8} {tuple : Tuple schema}
    (hread : Tuple.of_raw bytes schema = .ok tuple) :
    decoded_relation schema (Function.update (Function.update rows rid none) rid' (some bytes)) =
      ((decoded_relation schema rows).erase rid).put rid' tuple := by
  unfold decoded_relation Relation.put Relation.erase
  rw [decode_put hread, decode_erase]

theorem relation_erase : decoded_relation schema (Function.update rows rid none) =
    (decoded_relation schema rows).erase rid := by
  unfold decoded_relation Relation.erase
  rw [decode_erase]

end

section
variable {table : Table} {h : Nat} {b : BufferPoolManager} {rid : RID} {schema : Schema}
  {tuple : Tuple schema}

/-- What a call leaves of its table, and that it answers as the table does. -/
def Answers (table : Table) (h : Nat) (b : BufferPoolManager) (request : TableRequest)
    (a : TableAnswer) (b' : BufferPoolManager) : Prop :=
  (decoded_relation table.schema (tuples h b)).Does request a
    (decoded_relation table.schema (tuples h b')) ∧ Readable table.schema (tuples h b')

theorem insert_answer (I : MapInv h b) (ht : table.table_heap = some h)
    (hcount : 0 < table.schema.column_count) (hchar : CharsHaveLength table.schema)
    (R : Readable table.schema (tuples h b)) (hnul : Unpadded tuple) :
    ∃ r b', table.insert_tuple b tuple = some (r, b') ∧
      Answers table h b (.insert_tuple schema tuple) (.placed r) b' := by
  unfold Table.insert_tuple
  by_cases hc : schema = table.schema
  swap
  · rw [if_pos (mt (compatible_iff table schema).mp hc)]
    exact ⟨_, b, rfl, .insert_refused fun htakes => hc htakes.1, R⟩
  subst hc
  rw [if_neg (not_not_intro ((compatible_iff table _).mpr rfl)), ht]
  rcases hs : tuple.serialize with e | bytes
  · refine ⟨_, b, rfl, .insert_refused ?_, R⟩
    rintro ⟨_, bytes, hbytes, _⟩
    rw [hs] at hbytes
    cases hbytes
  by_cases hlen : bytes.length ≤ 8180
  swap
  · simp only [insert_tuple_too_long b (some h) (Nat.lt_of_not_le hlen)]
    refine ⟨_, b, rfl, .insert_refused ?_, R⟩
    rintro ⟨_, bytes', hbytes, hle⟩
    rw [hs] at hbytes
    cases hbytes
    exact hlen hle
  obtain ⟨hpos, hread⟩ := read_serialized hcount hchar hnul hs hlen
  obtain ⟨rid, b', hr, hfree, hmap⟩ := I.insert_run hpos hlen
  simp only [hr]
  refine ⟨_, b', rfl, ?_, ?_⟩
  · rw [hmap, relation_put hread]
    exact .inserted ⟨bytes, hs, hlen⟩ (R.decode_eq_none.mpr hfree)
  · rw [hmap]
    exact R.put (List.ne_nil_of_length_pos hpos) hread

theorem get_answer (I : MapInv h b) (R : Readable table.schema (tuples h b)) {n : Nat} (slot : Nat)
    (hn : OnPath (succ b) h n) : ∃ r b', table.get_tuple b ⟨some n, slot⟩ = (r, b') ∧
      Answers table h b (.get_tuple ⟨some n, slot⟩)
        (.found (r.map fun tuple => tuple.map Tuple.values)) b' := by
  obtain ⟨b', hg, _, hsame, _⟩ := I.get_run hn slot
  have hdoes : (decoded_relation table.schema (tuples h b)).Does (.get_tuple ⟨some n, slot⟩)
      (.found (.ok ((decode_rows table.schema (tuples h b) ⟨some n, slot⟩).map Tuple.values)))
      (decoded_relation table.schema (tuples h b)) := .found
  rw [← hsame] at R
  unfold Table.get_tuple
  rw [hg]
  rcases ht : tuples h b ⟨some n, slot⟩ with _ | bytes
  · have hnone := R.decode_eq_none.mpr (hsame ▸ ht)
    rw [← hsame, hnone] at hdoes
    refine ⟨_, b', rfl, ?_, R⟩
    rw [← hsame]
    exact hdoes
  · obtain ⟨tuple, hread, hsome⟩ := R.decode (hsame ▸ ht)
    rw [← hsame, hsome] at hdoes
    simp only [hread]
    refine ⟨_, b', rfl, ?_, R⟩
    rw [← hsame]
    exact hdoes

theorem delete_answer (I : MapInv h b) (R : Readable table.schema (tuples h b)) {n : Nat} (slot : Nat)
    (hn : OnPath (succ b) h n) : ∃ r b', Table.delete_tuple b ⟨some n, slot⟩ = (r, b') ∧
      Answers table h b (.delete_tuple ⟨some n, slot⟩) (.deleted r) b' := by
  obtain ⟨b1, hg, I1, hsame, hn1⟩ := I.get_run hn slot
  have hdoes : (decoded_relation table.schema (tuples h b)).Does (.delete_tuple ⟨some n, slot⟩)
      (.deleted (.ok (decode_rows table.schema (tuples h b) ⟨some n, slot⟩).isSome))
      ((decoded_relation table.schema (tuples h b)).erase ⟨some n, slot⟩) := .deleted
  rw [R.decode_isSome, ← relation_erase] at hdoes
  unfold Table.delete_tuple Answers
  rw [hg]
  rcases ht : tuples h b ⟨some n, slot⟩ with _ | bytes
  · have herase : Function.update (tuples h b) ⟨some n, slot⟩ none = tuples h b := by
      rw [← ht, Function.update_eq_self]
    rw [herase, ht] at hdoes
    refine ⟨_, b1, rfl, ?_, ?_⟩
    · rw [hsame]
      exact hdoes
    · rw [hsame]
      exact R
  · obtain ⟨b2, hd, hmap⟩ := I1.delete_run hn1 slot
    rw [hsame] at hd hmap
    simp only [hd]
    refine ⟨_, b2, rfl, ?_, ?_⟩
    · rw [hmap]
      exact hdoes
    · rw [hmap]
      exact R.erase

theorem update_answer (I : MapInv h b) (ht : table.table_heap = some h)
    (hcount : 0 < table.schema.column_count) (hchar : CharsHaveLength table.schema)
    (R : Readable table.schema (tuples h b)) {n : Nat} (slot : Nat) (hn : OnPath (succ b) h n)
    (hnul : Unpadded tuple) (hfits : ∀ bytes, tuple.serialize = .ok bytes → bytes.length ≤ 8180) :
    ∃ r b', table.update_tuple b ⟨some n, slot⟩ tuple = some (r, b') ∧
      Answers table h b (.update_tuple ⟨some n, slot⟩ schema tuple) (.placed r) b' := by
  unfold Table.update_tuple
  by_cases hc : schema = table.schema
  swap
  · rw [if_pos (mt (compatible_iff table schema).mp hc)]
    exact ⟨_, b, rfl, .update_refused fun htakes => hc htakes.1, R⟩
  subst hc
  rw [if_neg (not_not_intro ((compatible_iff table _).mpr rfl)), ht]
  obtain ⟨b1, hg, I1, hsame, hn1⟩ := I.get_run hn slot
  rw [hg]
  rcases hlive : tuples h b ⟨some n, slot⟩ with _ | old
  · refine ⟨_, b1, rfl, ?_, ?_⟩
    · rw [hsame]
      exact .nothing_updated (R.decode_eq_none.mpr hlive)
    · rw [hsame]
      exact R
  rcases hs : tuple.serialize with e | bytes
  · refine ⟨_, b1, rfl, ?_, ?_⟩
    · rw [hsame]
      refine .update_refused ?_
      rintro ⟨_, bytes, hbytes, _⟩
      rw [hs] at hbytes
      cases hbytes
    · rw [hsame]
      exact R
  have hlen := hfits bytes hs
  obtain ⟨hpos, hread⟩ := read_serialized hcount hchar hnul hs hlen
  obtain ⟨rid, b2, hr, hfree, hmap⟩ := I1.update_run hn1 slot hpos hlen (by
    rw [hsame, hlive]
    exact Option.some_ne_none old)
  rw [hsame] at hfree hmap
  simp only [hr]
  refine ⟨_, b2, rfl, ?_, ?_⟩
  · rw [hmap, relation_move hread]
    refine .updated ⟨bytes, hs, hlen⟩ (fun hnone => ?_) (hfree.imp_right R.decode_eq_none.mpr)
    rw [R.decode_eq_none.mp hnone] at hlive
    cases hlive
  · rw [hmap]
    exact R.erase.put (List.ne_nil_of_length_pos hpos) hread

end

/-! ## What a query answers -/

/-- A row with its tuple. -/
def decode_row (schema : Schema) (row : RID × List UInt8) : Option (RID × Tuple schema) :=
  (Tuple.of_raw row.2 schema).toOption.map (row.1, ·)

section
variable {table : Table} {l : List (RID × List UInt8)}

/-- Rows that can be read keep their RIDs, and their tuples are the records of a scan. -/
theorem decoded_list (hread : ∀ row ∈ l, ∃ tuple, Tuple.of_raw row.2 table.schema = .ok tuple) :
    (l.filterMap (decode_row table.schema)).map (·.1) = l.map (·.1) ∧
      records (l.filterMap (decode_row table.schema)) = l.map (record_of table) := by
  induction l with
  | nil => exact ⟨rfl, rfl⟩
  | cons row l ih =>
    obtain ⟨tuple, htuple⟩ := hread row List.mem_cons_self
    obtain ⟨hrids, hrecords⟩ := ih fun r hr => hread r (List.mem_cons_of_mem _ hr)
    have hrow : decode_row table.schema row = some (row.1, tuple) := by
      unfold decode_row
      rw [htuple]
      rfl
    have hrecord : record_of table row = .ok ⟨tuple.values⟩ := by
      unfold record_of
      rw [htuple]
      rfl
    rw [List.filterMap_cons_some hrow, List.map_cons, List.map_cons, List.map_cons, hrids, hrecord,
      ← hrecords]
    exact ⟨rfl, rfl⟩

theorem mem_decoded_list {rows : RID → Option (List UInt8)}
    (hl : ∀ rid t, (rid, t) ∈ l ↔ rows rid = some t) (rid : RID) (tuple : Tuple table.schema) :
    (rid, tuple) ∈ l.filterMap (decode_row table.schema) ↔
      decode_rows table.schema rows rid = some tuple := by
  unfold decode_rows
  rw [List.mem_filterMap, Option.bind_eq_some_iff]
  constructor
  · rintro ⟨⟨rid', bytes⟩, hmem, hrow⟩
    obtain ⟨tuple', htuple, he⟩ := Option.map_eq_some_iff.mp hrow
    cases he
    exact ⟨bytes, (hl _ bytes).mp hmem, htuple⟩
  · rintro ⟨bytes, hrow, htuple⟩
    refine ⟨(rid, bytes), (hl rid bytes).mpr hrow, ?_⟩
    unfold decode_row
    rw [htuple]
    rfl

end

/-- No RID is on two of the rows that a scan has before it. -/
theorem nodup_liveRows (n i : Nat) (rows : List slotted_page.Row) :
    ((liveRows n i rows).map (·.1)).Nodup := by
  induction rows generalizing i with
  | nil => exact .nil
  | cons r rows ih =>
    cases r with
    | none => exact ih (i + 1)
    | some t =>
      unfold liveRows
      rw [List.map_cons, List.nodup_cons]
      refine ⟨fun hmem => ?_, ih (i + 1)⟩
      obtain ⟨⟨rid, t'⟩, hrow, hrid⟩ := List.mem_map.mp hmem
      obtain ⟨j, rfl, _⟩ := mem_liveRows.mp hrow
      simp only [RID.mk.injEq, true_and] at hrid
      omega

theorem nodup_leftOver {b : BufferPoolManager} {n k : Nat} {post : List Nat}
    (hpages : (n :: post).Nodup) : ((leftOver b n k post).map (·.1)).Nodup := by
  obtain ⟨hn, hpost⟩ := List.nodup_cons.mp hpages
  have hpage : ∀ {rid : RID} {m j : Nat}, rid ∈ (liveFrom b m j).map (·.1) → rid.page_id = some m := by
    intro rid m j hmem
    obtain ⟨⟨rid', t⟩, hrow, rfl⟩ := List.mem_map.mp hmem
    exact (mem_liveFrom.mp hrow).1
  unfold leftOver
  rw [List.map_append, List.map_flatMap, List.nodup_append]
  refine ⟨nodup_liveRows _ _ _, List.nodup_flatMap.mpr ⟨fun m _ => nodup_liveRows _ _ _, ?_⟩, ?_⟩
  · refine hpost.imp fun {m m'} hne => ?_
    intro rid hm hm'
    exact hne (Option.some.inj ((hpage hm).symm.trans (hpage hm')))
  · rintro rid hmem _ hmem' rfl
    obtain ⟨m, hm, hmem'⟩ := List.mem_flatMap.mp hmem'
    obtain rfl := Option.some.inj ((hpage hmem).symm.trans (hpage hmem'))
    exact hn hm

section
variable {heads : Nat → Prop} {b : BufferPoolManager} {h k : Nat} {table : Table} {plan : Plan}

theorem tuplesOf_eq (h : Nat) (b : BufferPoolManager) : tuplesOf (rows (· = h) b) = tuples h b := by
  funext rid
  obtain ⟨p, slot⟩ := rid
  cases p with
  | none => rfl
  | some n => rfl

theorem select_answer (H : HeapState True (fun _ => 0) (fun _ => False) heads b) (T : Tidy k b)
    (hframes : 1 ≤ b.pool_capacity) (hh : heads h) (ht : table.table_heap = some h)
    (R : Readable table.schema (tuples h b))
    (hasserts : ∀ l, (decoded_relation table.schema (tuples h b)).Lists l →
      plan.Asserts (records l)) :
    ∃ r b', select b table plan = some (r, b') ∧
      (decoded_relation table.schema (tuples h b)).Does (.select plan) (.selected r)
        (decoded_relation table.schema (tuples h b)) ∧
      HeapState True (fun _ => 0) (fun _ => False) heads b' ∧ contents b' = contents b ∧
      KeepsIds b b' ∧ Tidy k b' := by
  obtain ⟨l, hl⟩ := H.forest.ends h hh
  obtain ⟨post, rfl⟩ : ∃ post, l = h :: post := by
    cases hl
    exact ⟨_, rfl⟩
  have hmem : ∀ rid t, (rid, t) ∈ leftOver b h 0 post ↔ tuples h b rid = some t := by
    intro rid t
    rw [← tuplesOf_eq]
    exact mem_leftOver_first hl fun _ => Iff.rfl
  -- the rows with their tuples, in the order of the scan
  obtain ⟨l, hlists, hrecords⟩ : ∃ l : List (RID × Tuple table.schema),
      (decoded_relation table.schema (tuples h b)).Lists l ∧
        records l = (leftOver b h 0 post).map (record_of table) := by
    obtain ⟨hrids, hrecords⟩ := decoded_list fun row hrow => (R row.1 row.2 ((hmem _ _).mp hrow)).2
    refine ⟨_, ⟨?_, mem_decoded_list hmem⟩, hrecords⟩
    show ((List.filterMap (decode_row table.schema) _).map (·.1)).Nodup
    rw [hrids]
    exact nodup_leftOver hl.nodup
  have hdoes : (decoded_relation table.schema (tuples h b)).Does (.select plan)
      (.selected (plan.result table.schema (records l)))
      (decoded_relation table.schema (tuples h b)) := .selected hlists
  have hall : plan.Asserts (records l) := hasserts l hlists
  rw [hrecords] at hdoes hall
  obtain ⟨b', hrun, hrest⟩ := select_spec H T hframes hh ht hl hall
  exact ⟨_, b', hrun, hdoes, hrest⟩

end

/-! ## A database between its calls -/

/-- What holds between the calls of a session. -/
structure Held (s : CatalogSystem) : Prop where
  kept : Kept s
  frames : 2 ≤ s.heap.pool.pool_capacity
  schemas : ∀ name entry, s.tables name = some entry →
    0 < entry.table.schema.column_count ∧ CharsHaveLength entry.table.schema
  readable : ∀ name entry, s.tables name = some entry →
    Readable entry.table.schema (s.tuples_of entry.table)

section
variable {s t : CatalogSystem} {name : List UInt8} {entry : TableEntry} {b : BufferPoolManager}
  {h : Nat}

theorem tuples_of_eq (s : CatalogSystem) {table : Table} (ht : table.table_heap = some h) :
    s.tuples_of table = tuples h s.heap.pool := by
  have hown : (fun k => table.table_heap = some k) = (· = h) := by
    funext k
    rw [ht, Option.some.injEq]
    exact propext eq_comm
  unfold CatalogSystem.tuples_of
  rw [hown, tuplesOf_eq]

theorem relation_of_eq (s : CatalogSystem) {table : Table} (ht : table.table_heap = some h) :
    relation_of s table = decoded_relation table.schema (tuples h s.heap.pool) := by
  unfold relation_of decoded_relation
  rw [tuples_of_eq s ht]

theorem Held.idle (K : Held s) : s.heap.outside = fun _ => 0 := funext K.kept.alone

theorem Held.map_inv (K : Held s) (he : s.tables name = some entry)
    (ht : entry.table.table_heap = some h) : MapInv h s.heap.pool where
  heap := by
    have H := K.kept.sound.heap
    rw [K.idle] at H
    exact H.sub fun k hk => hk ▸ Or.inr ⟨name, entry, he, ht⟩
  frames := K.frames
  nonempty := by
    rw [← tuples_of_eq s ht]
    exact (K.readable name entry he).nonempty

theorem Held.tidy (K : Held s) : Tidy s.heap.pool.pool_capacity s.heap.pool := by
  obtain ⟨frames, _, T⟩ := K.kept.tidy
  rw [T.frames]
  exact T

/-- The pages of the catalog are as they were. -/
theorem Held.looked (K : Held s) (S : Sound (s.with_pool b))
    (hrows : (s.with_pool b).catalog_rows = s.catalog_rows)
    (T : Tidy s.heap.pool.pool_capacity b) : Kept (s.with_pool b) where
  sound := S
  matched := K.kept.matched.congr rfl hrows
  recorded := K.kept.recorded.congr rfl hrows
  own := K.kept.own
  alone := K.kept.alone
  tidy := ⟨_, Nat.le_of_succ_le K.frames, T⟩

/-- The other tables are registered as they were, with the rows that they had. -/
structure Beside (name : List UInt8) (s t : CatalogSystem) : Prop where
  tables : ∀ name', name' ≠ name → t.tables name' = s.tables name'
  tuples : ∀ name' entry', name' ≠ name → s.tables name' = some entry' →
    t.tuples_of entry'.table = s.tuples_of entry'.table

theorem Beside.changes (B : Beside name s t) :
    database_of t = Function.update (database_of s) name (database_of t name) := by
  funext name'
  by_cases hn : name' = name
  · subst hn
    rw [Function.update_self]
  rw [Function.update_of_ne hn]
  unfold database_of
  rw [B.tables name' hn]
  rcases he : s.tables name' with _ | entry'
  · rfl
  · rw [Option.map_some, Option.map_some]
    unfold relation_of
    rw [B.tuples name' entry' hn he]

theorem Held.beside (K : Held s) (B : Beside name s t) (Kt : Kept t)
    (hframes : t.heap.pool.pool_capacity = s.heap.pool.pool_capacity)
    (hnew : ∀ entry, t.tables name = some entry → 0 < entry.table.schema.column_count ∧
      CharsHaveLength entry.table.schema ∧
      Readable entry.table.schema (t.tuples_of entry.table)) : Held t := by
  refine ⟨Kt, hframes.symm ▸ K.frames, fun name' entry' he' => ?_, fun name' entry' he' => ?_⟩
  · by_cases hn : name' = name
    · obtain ⟨hcount, hchar, _⟩ := hnew entry' (hn ▸ he')
      exact ⟨hcount, hchar⟩
    · rw [B.tables name' hn] at he'
      exact K.schemas name' entry' he'
  · by_cases hn : name' = name
    · exact (hnew entry' (hn ▸ he')).2.2
    · rw [B.tables name' hn] at he'
      rw [B.tuples name' entry' hn he']
      exact K.readable name' entry' he'

/-- The rows of the other tables are on other chains. -/
theorem beside_chain (S : Sound s) (he : s.tables name = some entry)
    (ht : entry.table.table_heap = some h)
    (R : Ran True s.heads s.heap.outside (fun _ => False) s.heap.pool b)
    (E : Elsewhere s.heads h s.heap.pool b) : Beside name s (s.with_pool b) := by
  have hh : s.heads h := Or.inr ⟨name, entry, he, ht⟩
  refine ⟨fun _ _ => rfl, fun name' entry' hne he' => ?_⟩
  refine own_tuples_elsewhere R.heap.forest (fun k hk => Or.inr ⟨name', entry', he', hk⟩) R.onPath
    hh (fun hown => ?_) E
  exact hne (S.apart name' name entry' entry he' he (hown.trans ht.symm))

/-- One table answers, and the others are as they were. -/
theorem Held.answered (K : Held s) (he : s.tables name = some entry)
    (ht : entry.table.table_heap = some h) (Kb : Kept (s.with_pool b))
    (hframes : b.pool_capacity = s.heap.pool.pool_capacity) (B : Beside name s (s.with_pool b))
    {request : TableRequest} {a : TableAnswer}
    (hanswers : Answers entry.table h s.heap.pool request a b) :
    Held (s.with_pool b) ∧
      (database_of s).Does (.ask name request) (.answered a) (database_of (s.with_pool b)) := by
  obtain ⟨hdoes, R⟩ := hanswers
  have hrelation : ∀ t : CatalogSystem, t.tables = s.tables → database_of t name =
      some (decoded_relation entry.table.schema (tuples h t.heap.pool)) := by
    intro t htables
    unfold database_of
    rw [htables, he, Option.map_some, relation_of_eq t ht]
  constructor
  · refine K.beside B Kb hframes fun entry' he' => ?_
    obtain rfl := Option.some.inj (he.symm.trans he')
    obtain ⟨hcount, hchar⟩ := K.schemas name entry he
    refine ⟨hcount, hchar, ?_⟩
    rw [tuples_of_eq _ ht]
    exact R
  · rw [B.changes, hrelation (s.with_pool b) rfl]
    exact .answered (hrelation s rfl) hdoes

/-! ## The calls of a table beside its chain -/

theorem insert_elsewhere {heads : Nat → Prop} {pins : Nat → Nat} {pending : Nat → Prop}
    {b b' : BufferPoolManager} (H : HeapState True pins pending heads b) (hh : heads h)
    {table : Table} (ht : table.table_heap = some h) {schema : Schema} {tuple : Tuple schema}
    {r : Except Failure (Option RID)} (hr : table.insert_tuple b tuple = some (r, b')) :
    Elsewhere heads h b b' := by
  unfold Table.insert_tuple at hr
  split at hr
  · cases hr
    exact elsewhere_same rfl
  rcases hs : tuple.serialize with e | bytes
  · rw [hs] at hr
    cases hr
    exact elsewhere_same rfl
  rw [hs, ht] at hr
  obtain ⟨⟨r1, b1⟩, h1, he⟩ := Option.map_eq_some_iff.mp hr
  cases he
  exact elsewhere_insert H hh h1

theorem update_elsewhere (S : Sound s) (hh : s.heads h) (ht : entry.table.table_heap = some h)
    {n slot : Nat} (hn : OnPath (succ s.heap.pool) h n) {schema : Schema} {tuple : Tuple schema}
    {r : Except Failure (Option RID)}
    (hr : entry.table.update_tuple s.heap.pool ⟨some n, slot⟩ tuple = some (r, b)) :
    Elsewhere s.heads h s.heap.pool b := by
  unfold Table.update_tuple at hr
  split at hr
  · cases hr
    exact elsewhere_same rfl
  rcases S.heap.get_tuple ⟨h, hh, hn⟩ slot with ⟨b1, h1, R1, hrows⟩ | ⟨h1, _⟩
  swap
  · rw [h1] at hr
    cases hr
    exact elsewhere_same rfl
  rw [h1] at hr
  generalize Option.filter _ _ = o at hr
  rcases o with _ | old
  · cases hr
    exact elsewhere_same hrows
  rcases hs : tuple.serialize with e | bytes
  · rw [hs] at hr
    cases hr
    exact elsewhere_same hrows
  rw [hs, ht] at hr
  obtain ⟨⟨r2, b2⟩, h2, he2⟩ := Option.map_eq_some_iff.mp hr
  cases he2
  have E := elsewhere_update R1.heap hh (R1.onPath h hh n hn) h2
  exact fun m hm => (E m hm).trans (by rw [hrows])

/-! ## The calls of a table in its database -/

/-- A call that is answered by a table of the catalog. -/
def Held.Serves (s : CatalogSystem) (name : List UInt8) (entry : TableEntry)
    (request : TableRequest) : Prop :=
  ∃ a b, request.run entry.table s.heap.pool = some (a, b) ∧ Held (s.with_pool b) ∧
    (database_of s).Does (.ask name request) (.answered a) (database_of (s.with_pool b))

theorem Held.insert (K : Held s) (he : s.tables name = some entry) {schema : Schema}
    {tuple : Tuple schema} (hnul : Unpadded tuple) :
    Serves s name entry (.insert_tuple schema tuple) := by
  have S := K.kept.sound
  obtain ⟨h, ht, hh⟩ := S.head he
  obtain ⟨hcount, hchar⟩ := K.schemas name entry he
  have R := K.readable name entry he
  rw [tuples_of_eq s ht] at R
  obtain ⟨r, b, hr, hanswers⟩ := insert_answer (K.map_inv he ht) ht hcount hchar R hnul
  obtain ⟨_, _, hr', Rn, _⟩ := insert_ran S.heap hh ht tuple
  rw [hr] at hr'
  cases hr'
  have hown : OwnRids s (.insert_tuple name schema tuple) := trivial
  have hnext : s.next (.insert_tuple name schema tuple) = some (s.with_pool b) := by
    simp only [CatalogSystem.next, he, Option.bind_some, hr, Option.map_some]
  have Kb : Kept (s.with_pool b) := K.kept.next hown trivial trivial hnext
  obtain ⟨hheld, hdoes⟩ := K.answered he ht Kb Rn.capacity
    (beside_chain S he ht Rn (insert_elsewhere S.heap hh ht hr)) hanswers
  refine ⟨_, b, ?_, hheld, hdoes⟩
  simp only [TableRequest.run, hr, Option.map_some]

theorem Held.update (K : Held s) (he : s.tables name = some entry) {rid : RID} {schema : Schema}
    {tuple : Tuple schema} (hrid : RidOf s.heap.pool entry.table rid) (hnul : Unpadded tuple)
    (hfits : ∀ bytes, tuple.serialize = .ok bytes → bytes.length ≤ 8180) :
    Serves s name entry (.update_tuple rid schema tuple) := by
  have S := K.kept.sound
  have hown : OwnRids s (.update_tuple name rid schema tuple) := by
    intro entry' he'
    obtain rfl := Option.some.inj (he.symm.trans he')
    exact hrid
  obtain ⟨hcount, hchar⟩ := K.schemas name entry he
  have R := K.readable name entry he
  obtain ⟨p, slot⟩ := rid
  obtain ⟨h, n, ht, rfl, hn⟩ := hrid
  have hh : s.heads h := Or.inr ⟨name, entry, he, ht⟩
  rw [tuples_of_eq s ht] at R
  obtain ⟨r, b, hr, hanswers⟩ :=
    update_answer (K.map_inv he ht) ht hcount hchar R slot hn hnul hfits
  have hon : RidOn s.heads s.heap.pool ⟨some n, slot⟩ := ⟨n, rfl, h, hh, hn⟩
  obtain ⟨_, _, hr', Rn⟩ := update_ran S.heap hh ht hon tuple
  rw [hr] at hr'
  cases hr'
  have hnext : s.next (.update_tuple name ⟨some n, slot⟩ schema tuple) = some (s.with_pool b) := by
    simp only [CatalogSystem.next, he, Option.bind_some, hr, Option.map_some]
  have Kb : Kept (s.with_pool b) := K.kept.next hown trivial trivial hnext
  obtain ⟨hheld, hdoes⟩ := K.answered he ht Kb Rn.capacity
    (beside_chain S he ht Rn (update_elsewhere S hh ht hn hr)) hanswers
  refine ⟨_, b, ?_, hheld, hdoes⟩
  simp only [TableRequest.run, hr, Option.map_some]

theorem Held.delete (K : Held s) (he : s.tables name = some entry) {rid : RID}
    (hrid : RidOf s.heap.pool entry.table rid) : Serves s name entry (.delete_tuple rid) := by
  have S := K.kept.sound
  have hown : OwnRids s (.delete_tuple name rid) := by
    intro entry' he'
    obtain rfl := Option.some.inj (he.symm.trans he')
    exact hrid
  have R := K.readable name entry he
  obtain ⟨p, slot⟩ := rid
  obtain ⟨h, n, ht, rfl, hn⟩ := hrid
  have hh : s.heads h := Or.inr ⟨name, entry, he, ht⟩
  rw [tuples_of_eq s ht] at R
  obtain ⟨r, b, hr, hanswers⟩ := delete_answer (K.map_inv he ht) R slot hn
  have hon : RidOn s.heads s.heap.pool ⟨some n, slot⟩ := ⟨n, rfl, h, hh, hn⟩
  have Rn := delete_ran S.heap hon
  have E := delete_elsewhere S.heap hh hn slot
  have hnext : s.next (.delete_tuple name ⟨some n, slot⟩) =
      some (s.with_pool (Table.delete_tuple s.heap.pool ⟨some n, slot⟩).2) := by
    simp only [CatalogSystem.next, he, Option.map_some]
  rw [hr] at Rn E hnext
  have Kb : Kept (s.with_pool b) := K.kept.next hown trivial trivial hnext
  obtain ⟨hheld, hdoes⟩ := K.answered he ht Kb Rn.capacity
    (beside_chain S he ht Rn E) hanswers
  refine ⟨_, b, ?_, hheld, hdoes⟩
  simp only [TableRequest.run, hr]

theorem get_pool (table : Table) (b : BufferPoolManager) (rid : RID) :
    (table.get_tuple b rid).2 = (table_heap.get_tuple b rid).2 := by
  unfold Table.get_tuple
  rcases table_heap.get_tuple b rid with ⟨e | _ | bytes, b'⟩ <;> rfl

theorem Held.get (K : Held s) (he : s.tables name = some entry) {rid : RID}
    (hrid : RidOf s.heap.pool entry.table rid) : Serves s name entry (.get_tuple rid) := by
  have S := K.kept.sound
  have R := K.readable name entry he
  obtain ⟨p, slot⟩ := rid
  obtain ⟨h, n, ht, rfl, hn⟩ := hrid
  have hh : s.heads h := Or.inr ⟨name, entry, he, ht⟩
  rw [tuples_of_eq s ht] at R
  have I := K.map_inv he ht
  obtain ⟨r, b, hr, hanswers⟩ := get_answer I R slot hn
  have hpool := get_pool entry.table s.heap.pool ⟨some n, slot⟩
  have T := K.tidy.get_tuple ⟨some n, slot⟩
  rcases S.heap.get_tuple ⟨h, hh, hn⟩ slot with ⟨b1, h1, Rn, hrows⟩ | ⟨_, hall⟩
  swap
  · exact absurd hall I.has_frame
  rw [hr, h1] at hpool
  rw [h1] at T
  obtain rfl : b = b1 := hpool
  have Kb : Kept (s.with_pool b) :=
    K.looked (S.ran Rn) (own_tuples_same Rn.heap.forest s.own_heads Rn.onPath hrows) T
  obtain ⟨hheld, hdoes⟩ := K.answered he ht Kb Rn.capacity
    (beside_chain S he ht Rn (elsewhere_same hrows)) hanswers
  refine ⟨_, b, ?_, hheld, hdoes⟩
  simp only [TableRequest.run, hr]

theorem Held.select (K : Held s) (he : s.tables name = some entry) {plan : Plan}
    (hasserts : ∀ l, (relation_of s entry.table).Lists l → plan.Asserts (records l)) :
    Serves s name entry (.select plan) := by
  have S := K.kept.sound
  obtain ⟨h, ht, hh⟩ := S.head he
  have R := K.readable name entry he
  rw [tuples_of_eq s ht] at R
  rw [relation_of_eq s ht] at hasserts
  have H := S.heap
  rw [K.idle] at H
  obtain ⟨r, b, hr, hdoes, Hb, hc, hids, T⟩ :=
    select_answer H K.tidy (Nat.le_of_succ_le K.frames) hh ht R hasserts
  rw [← K.idle] at Hb
  have hsame : ∀ own : Nat → Prop, tuplesOf (rows own b) = tuplesOf (rows own s.heap.pool) :=
    fun own => own_tuples_congr (fun k _ m => by rw [succ_congr hc]) fun m _ => by rw [hc]
  have Kb : Kept (s.with_pool b) :=
    K.looked (S.same_contents (p := ⟨b, s.heap.outside⟩) Hb hc) (hsame s.own) T
  have hanswers : Answers entry.table h s.heap.pool (.select plan) (.selected r) b := by
    unfold Answers
    rw [← tuplesOf_eq h b, hsame, tuplesOf_eq]
    exact ⟨hdoes, R⟩
  obtain ⟨hheld, hdoes'⟩ := K.answered he ht Kb hids.frames ⟨fun _ _ => rfl, fun _ _ _ _ => hsame _⟩ hanswers
  refine ⟨_, b, ?_, hheld, hdoes'⟩
  simp only [TableRequest.run, hr, Option.map_some]

theorem Held.serves (K : Held s) (he : s.tables name = some entry) {request : TableRequest}
    (hasked : Asked s entry.table request) : Serves s name entry request := by
  cases request with
  | insert_tuple schema tuple => exact K.insert he hasked
  | get_tuple rid => exact K.get he hasked
  | update_tuple rid schema tuple => exact K.update he hasked.1 hasked.2.1 hasked.2.2
  | delete_tuple rid => exact K.delete he hasked
  | select plan => exact K.select he hasked

end

end duck.database
