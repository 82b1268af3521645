-- What a catalog loads when it starts: the tables of its rows, in the order of
-- a scan that nobody disturbs.
import DuckDbms.HeapDrops
import DuckDbms.ScanRuns

open duck.slotted_page duck.disk_manager duck.buffer_pool duck.table_heap duck.table duck.tuple
open chain

/-! ## A scan that nobody disturbs -/

namespace duck.table_heap

theorem keepsIds_next_page (b : BufferPoolManager) (scan : Scan) :
    KeepsIds b (Scan.next_page b scan).2.1 := by
  unfold Scan.next_page
  split
  · exact keepsIds_refl b
  split
  · exact keepsIds_refl b
  rename_i page _ _
  have h := (keepsIds_unpin_page b (b.frames page).page_id false).trans
    (keepsIds_fetch_page _ (slotted_page.next_page (b.frames page).data))
  simp only
  split <;> rename_i hf <;> rw [hf] at h <;> exact h

theorem keepsIds_scan_next {fuel : Nat} {b b' : BufferPoolManager} {scan scan' : Scan}
    {r : Except String (Option (RID × List UInt8))}
    (h : Scan.next fuel b scan = some (r, b', scan')) : KeepsIds b b' := by
  induction fuel generalizing b scan with
  | zero => cases h
  | succ fuel ih =>
    unfold Scan.next at h
    rcases hp : scan.current_page with _ | page
    · rw [hp] at h
      cases h
      exact keepsIds_refl _
    simp only [hp] at h
    generalize (if has_slot (b.frames page).data scan.current_rid.slot_num = true
      then scan.current_rid.slot_num
      else (next_occupied_slot (b.frames page).data scan.current_rid.slot_num).getD
        scan.current_rid.slot_num) = k at h
    by_cases hk : has_slot (b.frames page).data k = true
    · rw [if_pos hk] at h
      cases h
      exact keepsIds_refl _
    rw [if_neg hk] at h
    have hids := keepsIds_next_page b ⟨⟨scan.current_rid.page_id, k⟩, some page⟩
    generalize Scan.next_page b ⟨⟨scan.current_rid.page_id, k⟩, some page⟩ = x at h hids
    obtain ⟨_ | _ | _, b1, scan1⟩ := x
    · cases h
      exact hids
    · cases h
      exact hids
    · exact hids.trans (ih h)

theorem keepsIds_close (b : BufferPoolManager) (scan : Scan) : KeepsIds b (scan.close b) := by
  unfold Scan.close
  split
  · exact keepsIds_unpin_page _ _ _
  · exact keepsIds_refl b

section
variable {heads : Nat → Prop} {b : BufferPoolManager} {scan : Scan} {n f : Nat}

/-- In a pool that nobody else uses, the scan finds a frame for every page. -/
theorem ScanOn.fetches_succeed (S : ScanOn heads (fun _ => 0) (fun _ => False) b scan n f)
    (h1 : 1 ≤ b.pool_capacity) (fuel : Nat) : Scan.fetches_succeed fuel b scan = true := by
  induction fuel generalizing b scan n f with
  | zero => rfl
  | succ fuel ih =>
    unfold Scan.fetches_succeed
    simp only [S.page]
    split
    · rfl
    have hk := keepsIds_next_page b scan
    rcases S.next_page with ⟨hp, hend⟩ | ⟨m, _, ⟨b', scan', g, hp, _, S', _⟩ |
      ⟨b', hp, _, I, hcap, hall⟩⟩
    · rw [hp]
      have hnone : (b.frames f).data.header.next_page_id = none := by
        rw [← hend]
        unfold succ contents
        rw [view_cached S.table]
        rfl
      simp [has_next_page, hnone, INVALID_PAGE_ID]
    · rw [hp] at hk ⊢
      exact ih S' (by rw [hk.frames]; exact h1)
    · exact absurd hall (not_allPinned_idle I (by rw [hcap]; exact h1) fun _ => rfl)

/-- The scan lets go of its page. -/
theorem ScanOn.close (S : ScanOn heads (fun _ => 0) (fun _ => False) b scan n f) :
    HeapState True (fun _ => 0) (fun _ => False) heads (scan.close b) ∧
      contents (scan.close b) = contents b := by
  have hid : (b.frames f).page_id = some n := (S.heap.store.inv.holds n f).mp S.table
  have hpos : 0 < pinMore (fun _ => 0) n n := by
    rw [pinMore_apply, if_pos rfl]
    omega
  obtain ⟨S1, hc, _, hd, hk⟩ := S.heap.store.unpin_page (fun _ => False) hpos false (fun m => id)
    (fun m hm => hm.elim) fun hm => hm.elim
  rw [pinLess_pinMore] at S1
  unfold Scan.close
  simp only [S.page, hid]
  refine ⟨S.heap.same_contents S1 hc fun m => ?_, hc⟩
  rw [hd]
  exact id

/-- The rows that a scan of a page or of a chain has before it are at most its slots. -/
theorem length_liveRows_le (n i : Nat) (rows : List Row) :
    (liveRows n i rows).length ≤ rows.length := by
  induction rows generalizing i with
  | nil => exact Nat.le_refl 0
  | cons r rows ih =>
    have := ih (i + 1)
    cases r with
    | none =>
      unfold liveRows
      rw [List.length_cons]
      omega
    | some t =>
      unfold liveRows
      rw [List.length_cons, List.length_cons]
      omega

theorem length_liveFrom_le (hgood : (contents b n).good) (k : Nat) :
    (liveFrom b n k).length ≤ 2047 := by
  have h1 := length_liveRows_le n k ((contents b n).rows.drop k)
  have h2 : (contents b n).rows.length < 2047 := by
    have hg : Good (view b n) := hgood
    exact Nat.lt_of_le_of_lt (Nat.le_of_eq (length_rowsOf _)) hg.count_lt
  rw [List.length_drop] at h1
  unfold liveFrom
  omega

theorem length_leftOver_le {post : List Nat} (hgood : ∀ m ∈ n :: post, (contents b m).good)
    (k : Nat) : (leftOver b n k post).length ≤ 2047 * (post.length + 1) := by
  have hpost : ∀ l : List Nat, (∀ m ∈ l, (contents b m).good) →
      (l.flatMap fun m => liveFrom b m 0).length ≤ 2047 * l.length := by
    intro l hl
    induction l with
    | nil => exact Nat.le_refl 0
    | cons m l ih =>
      have h1 := length_liveFrom_le (hl m (by simp)) 0
      have h2 := ih fun x hx => hl x (by simp [hx])
      rw [List.flatMap_cons, List.length_append, List.length_cons]
      omega
  have h1 := length_liveFrom_le (hgood n (by simp)) k
  have h2 := hpost post fun m hm => hgood m (by simp [hm])
  unfold leftOver
  rw [List.length_append]
  omega

end

end duck.table_heap

/-! ## The tables of the rows -/

namespace duck.catalog

/-- The entry of a row goes into the map, over one with the same name. -/
def enter (tables : List UInt8 → Option TableEntry) (row : RID × List UInt8) :
    List UInt8 → Option TableEntry :=
  match read_entry row.2 with
  | .ok (table_name, table) => Function.update tables table_name (some ⟨row.1, table⟩)
  | .error _ => tables

section
variable {heads : Nat → Prop} {b : BufferPoolManager}

/-- The loop enters every row that is left, if each of them can be read. -/
theorem load_tables_spec (fuel : Nat) {scan : Scan} {n f : Nat} {post : List Nat}
    (tables : List UInt8 → Option TableEntry)
    (S : ScanOn heads (fun _ => 0) (fun _ => False) b scan n f) (h1 : 1 ≤ b.pool_capacity)
    (hpath : Path (succ b) (some n) (n :: post))
    (hread : ∀ row ∈ leftOver b n scan.current_rid.slot_num post, ∃ r, read_entry row.2 = .ok r)
    (hfuel : (leftOver b n scan.current_rid.slot_num post).length < fuel) :
    ∃ b', load_tables fuel b scan tables =
        some (.ok ((leftOver b n scan.current_rid.slot_num post).foldl enter tables), b') ∧
      HeapState True (fun _ => 0) (fun _ => False) heads b' ∧ contents b' = contents b ∧
      KeepsIds b b' := by
  induction fuel generalizing b scan n f post tables with
  | zero => omega
  | succ fuel ih =>
    have hlen := S.heap.length_le S.on hpath
    rw [List.length_cons] at hlen
    obtain ⟨r, b1, scan1, mid, m, post1, hnext, St⟩ := S.next_left hpath
      (Nat.lt_succ_of_lt (Nat.lt_of_succ_le hlen)) (S.fetches_succeed h1 _)
    have hids := keepsIds_scan_next hnext
    obtain ⟨g, S1⟩ := St.standing
    have hleft := St.left
    unfold load_tables
    rw [hnext]
    rcases r with _ | ⟨rid, bytes⟩
    · obtain ⟨H, hc⟩ := S1.close
      rw [St.ended rfl, Option.toList_none, List.nil_append] at hleft
      rw [hleft]
      exact ⟨_, rfl, H, hc.trans St.same, hids.trans (keepsIds_close b1 scan1)⟩
    · rw [Option.toList_some, List.singleton_append] at hleft
      rw [hleft] at hread hfuel ⊢
      have hsame := leftOver_congr (n := m) (k := scan1.current_rid.slot_num) St.same post1
      obtain ⟨⟨table_name, table⟩, hentry⟩ := hread _ List.mem_cons_self
      have hpath1 : Path (succ b1) (some m) (m :: post1) := by
        rw [succ_congr St.same]
        rw [St.pages] at hpath
        exact hpath.from_node
      rw [← hsame] at hread hfuel ⊢
      obtain ⟨b2, hload, H, hc, hids'⟩ := ih
        (Function.update tables table_name (some ⟨rid, table⟩)) S1
        (by rw [hids.frames]; exact h1) hpath1 (fun row hrow => hread row (by simp [hrow]))
        (by rw [List.length_cons] at hfuel; omega)
      have henter : enter tables (rid, bytes) =
          Function.update tables table_name (some ⟨rid, table⟩) := by
        unfold enter
        rw [hentry]
      simp only [hentry]
      rw [List.foldl_cons, henter]
      exact ⟨b2, hload, H, hc.trans St.same, hids.trans hids'⟩

/-- A catalog whose rows can all be read enters them, and changes no page. -/
theorem load_existing_tables_spec (H : HeapState True (fun _ => 0) (fun _ => False) heads b)
    (h1 : 1 ≤ b.pool_capacity) {c : Nat} (hc : heads c) {post : List Nat}
    (hpath : Path (succ b) (some c) (c :: post)) (catalog_table : Table)
    (htable : catalog_table.table_heap = some c)
    (hread : ∀ row ∈ leftOver b c 0 post, ∃ r, read_entry row.2 = .ok r) :
    ∃ b', load_existing_tables b catalog_table =
        some (.ok ((leftOver b c 0 post).foldl enter fun _ => none), b') ∧
      HeapState True (fun _ => 0) (fun _ => False) heads b' ∧ contents b' = contents b ∧
      KeepsIds b b' := by
  unfold load_existing_tables
  rw [htable]
  rcases H.opens hc fun m hm => hm.elim with ⟨f, b1, ho, hcont, S⟩ | ⟨_, hall⟩
  swap
  · exact absurd hall (not_allPinned_idle H.store.inv h1 fun _ => rfl)
  have hids : KeepsIds b b1 := by
    have hfetch := keepsIds_fetch_page b (some c)
    rwa [show (b.fetch_page (some c)).2 = b1 from congrArg Prod.snd ho] at hfetch
  simp only [ho]
  have hsame := leftOver_congr (n := c) (k := 0) hcont post
  rw [← succ_congr hcont] at hpath
  have hlen := S.heap.length_le S.on hpath
  have hgood : ∀ m ∈ c :: post, (contents b1 m).good := fun m hm =>
    (S.heap.pages m ⟨c, hc, _, hpath, hm⟩).1
  have hrows := length_leftOver_le hgood 0
  rw [List.length_cons] at hlen
  rw [← hsame] at hread ⊢
  obtain ⟨b2, hload, H2, hc2, hids2⟩ := load_tables_spec
    (2048 * b1.disk_manager.capacity + 1) (fun _ => none) S (by rw [hids.frames]; exact h1) hpath hread
    (Nat.lt_succ_of_le (Nat.le_trans hrows (Nat.mul_le_mul (by omega) hlen)))
  exact ⟨b2, hload, H2, hc2.trans hcont, hids.trans hids2⟩

end

end duck.catalog
