-- The chains of a catalog whose frames lie one behind the other in memory. They
-- stay apart as long as no tuple of an update is written past its page.
import DuckDbms.CatalogChains
import DuckDbms.FrameOverruns

open machine duck.slotted_page duck.disk_manager duck.buffer_pool duck.table_heap duck.table
open duck.tuple chain

namespace duck.catalog

/-! ## The machine -/

/-- `Table::update_tuple`, where the copy of the tuple goes past the end of its page. -/
def Table.update_tuple_in_memory (L : FrameLayout) (table : Table) (b : BufferPoolManager)
    (rid : RID) {schema : Schema} (tuple : Tuple schema) :
    Option (Except Failure (Option RID) × BufferPoolManager) :=
  if ¬ table.schema.compatible_with schema then
    some (.error (.thrown "Table::update_tuple: schemas not compatible"), b)
  else
    match table_heap.get_tuple b rid with
    | (.error e, b) => some (.error (.thrown e), b)
    | (.ok none, b) => some (.ok none, b)
    | (.ok (some _), b) =>
      match tuple.serialize with
      | .error e => some (.error e, b)
      | .ok bytes =>
        (table_heap.update_tuple_in_memory L b table.table_heap rid bytes).map fun r => (raised r.1, r.2)

def CatalogSystem.next_in_memory (L : FrameLayout) (s : CatalogSystem) :
    CatalogEvent → Option CatalogSystem
  | .update_tuple name rid _ tuple => (s.tables name).bind fun entry =>
      (Table.update_tuple_in_memory L entry.table s.heap.pool rid tuple).map fun r => s.with_pool r.2
  | e => s.next e

/-- A catalog over a new file, with a pool whose frames lie one behind the other. -/
def catalogMemory (L : FrameLayout) : Machine CatalogSystem CatalogEvent where
  start := catalogMachine.start
  next := CatalogSystem.next_in_memory L

/-- Page ids and pin counts are `std::uint32_t`. A call brings two new pages at most, and pins a
page once more than the other users. -/
def CallsFitWords (s : CatalogSystem) : CatalogEvent → Prop
  | .create_table _ _ | .insert_tuple _ _ _ | .update_tuple _ _ _ _ =>
    s.heap.pool.disk_manager.capacity + 2 < 2 ^ 32
  | .fetch n => s.heap.outside n + 2 < 2 ^ 32
  | .drop_table _ | .delete_tuple _ _ | .unpin _ => True

/-- The RIDs of calls are on pages of their table, and sizes, ids and pins fit into the code's
types. -/
def OwnAndFits (s : CatalogSystem) (e : CatalogEvent) : Prop :=
  OwnRids s e ∧ UpdatesFit e ∧ CallsFitWords s e

/-! ## Tuples that stay on their pages -/

section
variable {L : FrameLayout} {s : CatalogSystem}

theorem update_in_memory_eq {outside : Nat → Nat} {pending heads : Nat → Prop}
    {b : BufferPoolManager} (H : HeapState True outside pending heads b) {table : Table} {rid : RID}
    (hrid : ∃ n, rid.page_id = some n ∧ OnChain (succ b) heads n) {schema : Schema}
    {tuple : Tuple schema} (hfits : ∀ bytes, tuple.serialize = .ok bytes → bytes.length < 65536) :
    Table.update_tuple_in_memory L table b rid tuple = table.update_tuple b rid tuple := by
  obtain ⟨p, slot⟩ := rid
  obtain ⟨n, rfl, hn⟩ := hrid
  unfold Table.update_tuple_in_memory Table.update_tuple
  split
  · rfl
  rcases H.get_tuple hn slot with ⟨b1, h1, R, _⟩ | ⟨h1, _⟩
  swap
  · simp only [h1]
  simp only [h1]
  rcases Option.filter _ _ with _ | old
  · rfl
  rcases hbytes : tuple.serialize with e | bytes
  · rfl
  simp only [R.heap.update_in_memory (R.onChain hn) table.table_heap slot (hfits bytes hbytes)]

theorem next_in_memory_eq (S : Sound s) {e : CatalogEvent} (hok : OwnRids s e) (hfits : UpdatesFit e) :
    s.next_in_memory L e = s.next e := by
  cases e with
  | update_tuple name rid schema tuple =>
    show (s.tables name).bind _ = (s.tables name).bind _
    rcases he : s.tables name with _ | entry
    · rfl
    have hrid : ∃ n, rid.page_id = some n ∧ OnChain (succ s.heap.pool) s.heads n :=
      (hok entry he).onChain fun k hk => Or.inr ⟨name, entry, he, hk⟩
    simp only [Option.bind_some, update_in_memory_eq S.heap hrid hfits]
  | create_table | drop_table | insert_tuple | delete_tuple | fetch | unpin => rfl

theorem catalogMemory_reach (h : (catalogMemory L).Reach OwnAndFits s) :
    catalogMachine.Reach OwnRids s := by
  induction h with
  | start h0 => exact .start h0
  | step _ hok hn ih =>
    refine ih.step hok.1 ?_
    rw [← hn]
    exact (next_in_memory_eq (sound_reach ih) hok.1 hok.2.1).symm

/-- Nobody's tuples go past their pages, and the chains of the catalog and of its tables stay
apart. -/
theorem the_chains_of_a_catalog_stay_apart (h : (catalogMemory L).Reach OwnAndFits s) :
    ChainsApart s :=
  (sound_reach (catalogMemory_reach h)).chains_apart

end

/-! ## A drop that leaves a pinned page behind -/

/-- RIDs are on the first pages of their tables, nothing is updated, and ids and pins are few. -/
def calls_fit (s : CatalogSystem) (e : CatalogEvent) : Bool :=
  on_own_first_page s e && match e with
    | .create_table _ _ | .insert_tuple _ _ _ =>
      decide (s.heap.pool.disk_manager.capacity + 2 < 2 ^ 32)
    | .fetch n => decide (s.heap.outside n + 2 < 2 ^ 32)
    | .update_tuple _ _ _ _ => false
    | .drop_table _ | .delete_tuple _ _ | .unpin _ => true

theorem ownAndFits_of_check {s : CatalogSystem} (e : CatalogEvent) (S : Sound s)
    (h : calls_fit s e = true) : OwnAndFits s e := by
  unfold calls_fit at h
  rw [Bool.and_eq_true] at h
  refine ⟨ownRids_of_check e S h.1, ?_⟩
  have h2 := h.2
  cases e with
  | create_table | insert_tuple | fetch => exact ⟨trivial, by simpa [CallsFitWords] using h2⟩
  | update_tuple => cases h2
  | drop_table | delete_tuple | unpin => exact ⟨trivial, trivial⟩

/-- What a run of such calls from a new catalog reaches. -/
theorem reached_in_memory {frames : Nat} {s s' : CatalogSystem} {l : List CatalogEvent}
    (hmade : CatalogSystem.make (empty_pool frames) = some (.ok s))
    (hs : (catalogMemory padded_latch).execIf calls_fit s l = some s') :
    (catalogMemory padded_latch).Reach OwnAndFits s' :=
  Machine.Reach.execIf (fun _ h => sound_reach (catalogMemory_reach h))
    (fun _ e => ownAndFits_of_check e) (.start ⟨frames, hmade⟩) hs

/-- The page of a table is pinned when the table is dropped, and its name is used again. -/
def dropped_and_created : List CatalogEvent :=
  [.create_table [97] numbers, .insert_tuple [97] numbers (number_tuple 1),
    .delete_tuple [97] ⟨some 2, 0⟩, .fetch 2, .drop_table [97], .create_table [97] numbers]

theorem the_chains_after_a_drop : ∃ s, (catalogMemory padded_latch).Reach OwnAndFits s ∧
    (s.tables [97]).map (·.table.table_heap) = some (some 3) ∧ ChainsApart s := by
  obtain ⟨s0, s, hmade, hs, hp⟩ := of_new_catalog (b := empty_pool 4)
    (f := ((catalogMemory padded_latch).execIf calls_fit · dropped_and_created))
    (p := fun s => (s.tables [97]).map (·.table.table_heap) == some (some 3)) (by decide +kernel)
  have hr := reached_in_memory hmade hs
  exact ⟨s, hr, eq_of_beq hp, the_chains_of_a_catalog_stay_apart hr⟩

/-! ## A tuple that is written over the page of another table -/

/-- Two texts of any length up to 65535 bytes. -/
def two_texts : Schema :=
  ⟨[⟨"a".toUTF8.toList, .VARCHAR, 0⟩, ⟨"b".toUTF8.toList, .VARCHAR, 0⟩]⟩

def text_tuple (a b : List UInt8) : Tuple two_texts :=
  ⟨[.of (.string a), .of (.string b)], .cons rfl (.cons rfl .nil)⟩

/-- The first text leaves page 2 with its one pin, and page 3 with page 2 as the next one. -/
def long_text : List UInt8 :=
  List.replicate 17 9 ++ (rest_of_frame 1 ++ [3, 0, 0, 0, 2, 0, 0, 0, 0, 0, 0, 0])

/-- The bytes of the tuple with that text and 65444 zeros. -/
def long_row : LongTuple :=
  ⟨[0, 97, 0] ++ List.replicate 17 9, rest_of_frame 1,
    [3, 0, 0, 0, 2, 0, 0, 0, 0, 0, 0, 0, 164, 255], 65444⟩

/-- A text is written behind its length. -/
theorem serialize_text (out name text : List UInt8) (h : text.length < 65536) :
    serialize_column out ⟨name, .VARCHAR, 0⟩ (.of (.string text)) =
      .ok (out ++ layout.leBytes 2 text.length ++ text) := by
  have hsize : check_size ⟨name, .VARCHAR, 0⟩ (.of (.string text)) = .ok () := by
    have hle : ¬ text.length > 0xFFFF := by omega
    unfold check_size
    simp [Value.of, Value.serialized_size]
    exact if_neg hle
  unfold serialize_column
  rw [hsize]
  show Except.ok (out ++ layout.leBytes 2 (UInt16.ofNat text.length).toNat ++ text) = _
  rw [UInt16.toNat_ofNat', Nat.mod_eq_of_lt (by simpa using h)]

theorem serialize_text_tuple {a b : List UInt8} (ha : a.length < 65536) (hb : b.length < 65536) :
    (text_tuple a b).serialize = .ok ([0] ++ layout.leBytes 2 a.length ++ a ++
      layout.leBytes 2 b.length ++ b) := by
  show (serialize_column [0] _ (.of (.string a)) >>= fun out =>
    serialize_column out _ (.of (.string b)) >>= Except.ok) = _
  rw [serialize_text _ _ _ ha]
  show (serialize_column _ _ (.of (.string b)) >>= Except.ok) = _
  rw [serialize_text _ _ _ hb]
  rfl

theorem serialize_long_row :
    (text_tuple long_text (List.replicate 65444 0)).serialize = .ok long_row.bytes := by
  have hlong : long_text.length = 97 := by decide
  rw [serialize_text_tuple (by rw [hlong]; decide) (by rw [List.length_replicate]; decide), hlong,
    List.length_replicate]
  unfold long_row LongTuple.bytes LongTuple.past LongTuple.behind long_text
  simp only [List.append_assoc, List.cons_append, List.nil_append]
  rfl

/-- The update of the row of table `a` on page 2, in frame 1, by that tuple. -/
def long_row_update : CatalogEvent :=
  .update_tuple [97] ⟨some 2, 0⟩ two_texts (text_tuple long_text (List.replicate 65444 0))

def with_long_row (s : CatalogSystem) : CatalogSystem :=
  let b := (table_heap.get_tuple s.heap.pool ⟨some 2, 0⟩).2
  s.with_pool (updated_past padded_latch (b.fetch_page (some 2)).2 1 9 0 10 long_row)

/-- Table `a` has the columns and the row that the update needs. -/
def takes_long_row (s : CatalogSystem) : Bool :=
  (s.tables [97]).any (fun entry =>
    entry.table.table_heap == some 2 && entry.table.schema.compatible_with two_texts) &&
  match table_heap.get_tuple s.heap.pool ⟨some 2, 0⟩ with
  | (.ok (some _), b) =>
    match b.fetch_page (some 2) with
    | (.ok (some 1), b1) =>
      takes_in_place (b1.frames 1).data 0 10 long_row && b1.pool_capacity == 12
    | _ => false
  | _ => false

theorem next_with_long_row {s : CatalogSystem} (h : takes_long_row s = true) :
    (catalogMemory padded_latch).next s long_row_update = some (with_long_row s) := by
  have hlen : long_row.bytes.length % 65536 = 10 := by
    rw [LongTuple.length_bytes]
    decide
  have hends : long_row.Ends padded_latch 10 := by
    refine ⟨by decide, by decide +kernel, by decide, by decide⟩
  unfold takes_long_row at h
  rw [Bool.and_eq_true] at h
  obtain ⟨htable, h⟩ := h
  obtain ⟨entry, he, hentry⟩ := (Option.any_eq_true _ _).mp htable
  rw [Bool.and_eq_true, beq_iff_eq] at hentry
  split at h
  swap
  · cases h
  rename_i old b hget
  split at h
  swap
  · cases h
  rename_i b1 hfetch
  rw [Bool.and_eq_true, beq_iff_eq] at h
  have hupdate := update_past_page (k := 63) rfl hfetch (takesInPlace_of_check hlen h.1) hends h.2
    (some 2)
  have htable_update : Table.update_tuple_in_memory padded_latch entry.table s.heap.pool ⟨some 2, 0⟩
      (text_tuple long_text (List.replicate 65444 0)) =
        some (.ok (some ⟨some 2, 0⟩), updated_past padded_latch b1 1 9 0 10 long_row) := by
    unfold Table.update_tuple_in_memory
    simp only [hentry.2, not_true_eq_false, if_false, hget, serialize_long_row, hentry.1, hupdate,
      Option.map_some]
    rfl
  show (s.tables [97]).bind _ = _
  simp only [he, Option.bind_some, htable_update, Option.map_some]
  unfold with_long_row
  simp only [hget, hfetch]

/-- The row of table `a` on page 2 is replaced by a tuple of 65546 bytes, which is written over the
frame of page 3, the page of table `b`, and makes page 2 its next page. -/
theorem a_long_tuple_links_a_page_of_another_table :
    ¬ ∀ (L : FrameLayout) (s : CatalogSystem), (catalogMemory L).Reach OwnRids s →
      ChainsApart s := by
  intro hall
  obtain ⟨s0, u, hmade, hu, hp⟩ := of_new_catalog (b := empty_pool 12)
    (f := fun s => ((catalogMemory padded_latch).execIf calls_fit s [.create_table [97] two_texts,
      .create_table [98] numbers,
      .insert_tuple [97] two_texts (text_tuple (List.replicate 15 7) [])]).bind fun s1 =>
        if takes_long_row s1 && on_own_first_page s1 long_row_update then some (with_long_row s1)
        else none)
    (p := fun u => u.first_page (some [97]) == some (some 2) &&
      u.first_page (some [98]) == some (some 3) && succ u.heap.pool 2 == none &&
      succ u.heap.pool 3 == some 2) (by decide +kernel)
  obtain ⟨s1, hs1, hu⟩ := Option.bind_eq_some_iff.mp hu
  split at hu
  swap
  · cases hu
  rename_i htakes
  cases hu
  rw [Bool.and_eq_true] at htakes
  have hreach := reached_in_memory hmade hs1
  have hown : OwnRids s1 long_row_update :=
    ownRids_of_check _ (sound_reach (catalogMemory_reach hreach)) htakes.2
  have hlast : (catalogMemory padded_latch).Reach OwnRids (with_long_row s1) :=
    (hreach.mono fun _ _ hok => hok.1).step hown (next_with_long_row htakes.1)
  simp only [Bool.and_eq_true, beq_iff_eq] at hp
  obtain ⟨⟨⟨hfirst, hfirst'⟩, hend⟩, hlink⟩ := hp
  have hpath : Path (succ (with_long_row s1).heap.pool) (some 2) [2] := .cons (hend ▸ .nil)
  have hpath' : Path (succ (with_long_row s1).heap.pool) (some 3) [3, 2] := .cons (hlink ▸ hpath)
  have hdisjoint := (hall padded_latch _ hlast).2.1 (some [97]) (some [98]) (some 2) (some 3) [2]
    [3, 2] (by decide) hfirst hfirst' hpath hpath'
  exact hdisjoint (List.mem_singleton_self 2) (by decide)

end duck.catalog
