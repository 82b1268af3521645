-- A scan of a heap with other calls between its steps. What is left of a scan
-- is a list of rows; a step takes the first of them, and the calls of others
-- change the rest of the list only.
import DuckDbms.HeapScan
import DuckDbms.HeapMap

open machine duck.slotted_page duck.disk_manager duck.buffer_pool chain

namespace duck.table_heap

/-! ## What is left of a scan -/

/-- The tuples of a list of rows, from slot `i` of page `n` on. -/
def liveRows (n : Nat) : Nat → List Row → List (RID × List UInt8)
  | _, [] => []
  | i, none :: rest => liveRows n (i + 1) rest
  | i, some t :: rest => (⟨some n, i⟩, t) :: liveRows n (i + 1) rest

/-- The tuples of page `n` from slot `k` on. -/
def liveFrom (b : BufferPoolManager) (n k : Nat) : List (RID × List UInt8) :=
  liveRows n k ((contents b n).rows.drop k)

/-- The tuples from slot `k` of page `n` on, and those of the pages after it. -/
def leftOver (b : BufferPoolManager) (n k : Nat) (post : List Nat) : List (RID × List UInt8) :=
  liveFrom b n k ++ post.flatMap fun m => liveFrom b m 0

section
variable {b b' : BufferPoolManager} {n k : Nat}

theorem mem_liveRows {rows : List Row} {i : Nat} {rid : RID} {t : List UInt8} :
    (rid, t) ∈ liveRows n i rows ↔ ∃ j, rid = ⟨some n, i + j⟩ ∧ rows[j]? = some (some t) := by
  induction rows generalizing i with
  | nil => simp [liveRows]
  | cons r rows ih =>
    have htail : (∃ j, rid = ⟨some n, i + 1 + j⟩ ∧ rows[j]? = some (some t)) ↔
        ∃ j, rid = ⟨some n, i + (j + 1)⟩ ∧ (r :: rows)[j + 1]? = some (some t) := by
      simp only [List.getElem?_cons_succ, Nat.add_assoc, Nat.add_comm 1]
    cases r with
    | none =>
      rw [liveRows, ih, htail]
      constructor
      · rintro ⟨j, h⟩
        exact ⟨j + 1, h⟩
      · rintro ⟨_ | j, h1, h2⟩
        · cases h2
        · exact ⟨j, h1, h2⟩
    | some u =>
      rw [liveRows, List.mem_cons, ih, htail]
      constructor
      · rintro (h | ⟨j, h⟩)
        · cases h
          exact ⟨0, rfl, rfl⟩
        · exact ⟨j + 1, h⟩
      · rintro ⟨_ | j, h1, h2⟩
        · cases h2
          rw [h1]
          exact Or.inl rfl
        · exact Or.inr ⟨j, h1, h2⟩

theorem mem_liveFrom {rid : RID} {t : List UInt8} : (rid, t) ∈ liveFrom b n k ↔
    rid.page_id = some n ∧ k ≤ rid.slot_num ∧ tupleOf (contents b n).rows rid.slot_num = some t := by
  unfold liveFrom
  rw [mem_liveRows]
  constructor
  · rintro ⟨j, rfl, h⟩
    rw [List.getElem?_drop] at h
    exact ⟨rfl, Nat.le_add_right k j, tupleOf_eq_some.mpr h⟩
  · rintro ⟨h1, h2, h3⟩
    obtain ⟨p, i⟩ := rid
    simp only at h1 h2 h3
    refine ⟨i - k, ?_, ?_⟩
    · rw [h1, Nat.add_sub_cancel' h2]
    · rw [List.getElem?_drop, Nat.add_sub_cancel' h2]
      exact tupleOf_eq_some.mp h3

theorem liveFrom_dead (h : tupleOf (contents b n).rows k = none) :
    liveFrom b n k = liveFrom b n (k + 1) := by
  unfold liveFrom
  by_cases hk : k < (contents b n).rows.length
  · rw [List.drop_eq_getElem_cons hk]
    unfold tupleOf at h
    rw [List.getElem?_eq_getElem hk, Option.join_some] at h
    rw [h]
    rfl
  · rw [List.drop_of_length_le (by omega), List.drop_of_length_le (by omega)]
    rfl

theorem liveFrom_live {t : List UInt8} (h : tupleOf (contents b n).rows k = some t) :
    liveFrom b n k = (⟨some n, k⟩, t) :: liveFrom b n (k + 1) := by
  unfold liveFrom
  obtain ⟨hk, hrow⟩ := List.getElem?_eq_some_iff.mp (tupleOf_eq_some.mp h)
  rw [List.drop_eq_getElem_cons hk, hrow]
  rfl

/-- Slots without a tuple do not count. -/
theorem liveFrom_skip {j : Nat} (hj : k ≤ j)
    (hd : ∀ i, k ≤ i → i < j → tupleOf (contents b n).rows i = none) :
    liveFrom b n k = liveFrom b n j := by
  induction j, hj using Nat.le_induction with
  | base => rfl
  | succ j hj ih =>
    rw [ih fun i h1 h2 => hd i h1 (Nat.lt_succ_of_lt h2)]
    exact liveFrom_dead (hd j hj (Nat.lt_succ_self j))

theorem liveFrom_nil (hd : ∀ i, k ≤ i → tupleOf (contents b n).rows i = none) :
    liveFrom b n k = [] := by
  rw [List.eq_nil_iff_forall_not_mem]
  rintro ⟨rid, t⟩ hm
  obtain ⟨_, h2, h3⟩ := mem_liveFrom.mp hm
  rw [hd _ h2] at h3
  cases h3

theorem leftOver_congr (h : contents b' = contents b) (post : List Nat) :
    leftOver b' n k post = leftOver b n k post := by
  unfold leftOver liveFrom
  rw [h]

/-- The RID is one that a scan at slot `k` of page `n`, with the pages `post` to come, has
before it. -/
def AheadOf (n k : Nat) (post : List Nat) (rid : RID) : Prop :=
  (rid.page_id = some n ∧ k ≤ rid.slot_num) ∨ ∃ m ∈ post, rid.page_id = some m

/-- The RID is one that the scan has behind it. -/
def Behind (pre : List Nat) (n k : Nat) (rid : RID) : Prop :=
  (∃ m ∈ pre, rid.page_id = some m) ∨ (rid.page_id = some n ∧ rid.slot_num < k)

theorem mem_leftOver {post : List Nat} {rid : RID} {t : List UInt8} :
    (rid, t) ∈ leftOver b n k post ↔ AheadOf n k post rid ∧
      ∃ m, rid.page_id = some m ∧ tupleOf (contents b m).rows rid.slot_num = some t := by
  unfold leftOver AheadOf
  rw [List.mem_append, mem_liveFrom, List.mem_flatMap]
  constructor
  · rintro (⟨h1, h2, h3⟩ | ⟨m, hm, h⟩)
    · exact ⟨Or.inl ⟨h1, h2⟩, n, h1, h3⟩
    · obtain ⟨h1, _, h3⟩ := mem_liveFrom.mp h
      exact ⟨Or.inr ⟨m, hm, h1⟩, m, h1, h3⟩
  · rintro ⟨⟨h1, h2⟩ | ⟨m, hm, h1⟩, m', h3, h4⟩
    · obtain rfl : n = m' := Option.some.inj (h1.symm.trans h3)
      exact Or.inl ⟨h1, h2, h4⟩
    · obtain rfl : m = m' := Option.some.inj (h1.symm.trans h3)
      exact Or.inr ⟨m, hm, mem_liveFrom.mpr ⟨h1, Nat.zero_le _, h4⟩⟩

end

/-! ## One step of a scan -/

/-- No page that `Scan::next` fetches is refused for want of a frame. -/
def Scan.fetches_succeed : Nat → BufferPoolManager → Scan → Bool
  | 0, _, _ => true
  | fuel + 1, b, scan =>
    match scan.current_page with
    | none => true
    | some page =>
      let slotted := (b.frames page).data
      let slot_num := scan.current_rid.slot_num
      if has_slot slotted slot_num || (next_occupied_slot slotted slot_num).isSome then true
      else
        match Scan.next_page b scan with
        | (.ok true, b, scan) => Scan.fetches_succeed fuel b scan
        | _ => !has_next_page slotted

/-- What a step leaves: the cursor on page `m`, with `post` after it, and the pages of `mid`
behind it since. -/
structure ScanStepped (heads : Nat → Prop) (outside : Nat → Nat) (pending : Nat → Prop)
    (b b' : BufferPoolManager) (scan scan' : Scan) (n : Nat) (post mid : List Nat) (m : Nat)
    (post' : List Nat) (r : Option (RID × List UInt8)) : Prop where
  same : contents b' = contents b
  standing : ∃ g, ScanOn heads outside pending b' scan' m g
  pages : n :: post = mid ++ m :: post'
  left : leftOver b n scan.current_rid.slot_num post =
    r.toList ++ leftOver b m scan'.current_rid.slot_num post'
  ended : r = none → leftOver b m scan'.current_rid.slot_num post' = []
  forward : mid = [] → scan.current_rid.slot_num ≤ scan'.current_rid.slot_num
  passed : ∀ e, r = some e → e.1.page_id = some m ∧ e.1.slot_num < scan'.current_rid.slot_num

section
variable {heads : Nat → Prop} {outside : Nat → Nat} {pending : Nat → Prop}
  {b : BufferPoolManager} {scan : Scan} {n f : Nat}

theorem ScanOn.rowsOf_frame (S : ScanOn heads outside pending b scan n f) :
    rowsOf (b.frames f).data = (contents b n).rows := by
  unfold contents
  rw [view_cached S.table]
  rfl

theorem ScanOn.good_frame (S : ScanOn heads outside pending b scan n f) :
    Good (b.frames f).data := by
  have h := (S.heap.pages n S.on).1
  unfold contents at h
  rw [view_cached S.table] at h
  exact h

theorem ScanOn.next_frame (S : ScanOn heads outside pending b scan n f) :
    succ b n = (b.frames f).data.header.next_page_id := by
  unfold succ contents
  rw [view_cached S.table]
  rfl

/-- Slot `j` is live, and nothing is live between the cursor and it. -/
theorem ScanOn.stops (S : ScanOn heads outside pending b scan n f) {post : List Nat} {j : Nat}
    (hj : scan.current_rid.slot_num ≤ j) (hlive : has_slot (b.frames f).data j = true)
    (hdead : ∀ i, scan.current_rid.slot_num ≤ i → i < j → tupleOf (contents b n).rows i = none) :
    ScanStepped heads outside pending b b scan
      ⟨⟨scan.current_rid.page_id, (j + 1) % 65536⟩, some f⟩ n post [] n post
      (some (⟨scan.current_rid.page_id, j⟩, slotted_page.get_tuple (b.frames f).data j)) := by
  obtain ⟨h1, h2⟩ := (has_slot_eq _ _).mp hlive
  have hcount := S.good_frame.count_lt
  have hmod : (j + 1) % 65536 = j + 1 := Nat.mod_eq_of_lt (by omega)
  have htuple : tupleOf (contents b n).rows j =
      some (slotted_page.get_tuple (b.frames f).data j) := by
    obtain ⟨t, ht⟩ := Option.ne_none_iff_exists'.mp h2
    rw [get_tuple_eq, if_pos h1, ht, ← S.rowsOf_frame, tupleOf_eq_some, rowsOf_getElem?, if_pos h1,
      ht]
    rfl
  refine ⟨rfl, ⟨f, S.heap, S.held, S.on, rfl, S.table, S.rid, ?_⟩, rfl, ?_, by simp, ?_, ?_⟩
  · simp only [hmod]
    omega
  · simp only [hmod, S.rid, Option.toList_some, List.singleton_append]
    unfold leftOver
    rw [liveFrom_skip hj hdead, liveFrom_live htuple, List.cons_append]
  · intro _
    simp only [hmod]
    omega
  · rintro e ⟨⟩
    simp only [hmod]
    exact ⟨S.rid, Nat.lt_succ_self j⟩

/-- Nothing is live from the cursor on, and the page is the last one. -/
theorem ScanOn.ends (S : ScanOn heads outside pending b scan n f)
    (hnone : liveFrom b n scan.current_rid.slot_num = []) :
    ScanStepped heads outside pending b b scan scan n [] [] n [] none := by
  have hnil : leftOver b n scan.current_rid.slot_num [] = [] := by
    unfold leftOver
    rw [hnone]
    rfl
  refine ⟨rfl, ⟨f, S⟩, rfl, ?_, fun _ => hnil, fun _ => Nat.le_refl _, ?_⟩
  · rw [Option.toList_none, List.nil_append]
  · rintro e ⟨⟩

/-- Nothing is live from the cursor on, and the scan has gone on from the start of the next page. -/
theorem ScanStepped.skip {b' b2 : BufferPoolManager} {scan' scan2 : Scan} {x m : Nat}
    {post mid post' : List Nat} {r : Option (RID × List UInt8)} (hc : contents b' = contents b)
    (hzero : scan'.current_rid.slot_num = 0)
    (hnone : liveFrom b n scan.current_rid.slot_num = [])
    (W : ScanStepped heads outside pending b' b2 scan' scan2 x post mid m post' r) :
    ScanStepped heads outside pending b b2 scan scan2 n (x :: post) (n :: mid) m post' r := by
  refine ⟨W.same.trans hc, W.standing, ?_, ?_, fun hr => ?_, by simp, W.passed⟩
  · rw [List.cons_append, ← W.pages]
  · have hleft := W.left
    rw [leftOver_congr hc, leftOver_congr hc, hzero] at hleft
    rw [← hleft]
    unfold leftOver
    rw [hnone]
    rfl
  · rw [← leftOver_congr hc]
    exact W.ended hr

/-- `Scan::next` returns the first row that is left, or none when none is left. -/
theorem ScanOn.next_left {fuel : Nat} {post : List Nat} (S : ScanOn heads outside pending b scan n f)
    (hpath : Path (succ b) (some n) (n :: post)) (hfuel : post.length < fuel)
    (hfetch : Scan.fetches_succeed fuel b scan = true) : ∃ r b' scan' mid m post',
      Scan.next fuel b scan = some (.ok r, b', scan') ∧
      ScanStepped heads outside pending b b' scan scan' n post mid m post' r := by
  induction fuel generalizing b scan n f post with
  | zero => omega
  | succ fuel ih =>
    have hrows := S.rowsOf_frame
    have hslot := S.slot
    generalize hk : scan.current_rid.slot_num = k at hslot
    unfold Scan.fetches_succeed at hfetch
    unfold Scan.next
    simp only [S.page, hk] at hfetch ⊢
    by_cases hcur : has_slot (b.frames f).data k = true
    · rw [if_pos hcur, if_pos hcur]
      exact ⟨_, _, _, _, _, _, rfl, S.stops (Nat.le_of_eq hk) hcur fun i h1 h2 => by omega⟩
    rw [if_neg hcur]
    have hdead : tupleOf (contents b n).rows k = none := by
      by_contra h
      rw [← hrows] at h
      exact hcur ((has_slot_iff _ k).mpr h)
    rcases next_occupied_slot_spec (b.frames f).data (k := k) (by omega) with
      ⟨j, h1, h2, h3, h4⟩ | ⟨h1, h2⟩
    · have hj : has_slot (b.frames f).data j = true := (has_slot_iff _ _).mpr h3
      rw [h1]
      simp only [Option.getD_some]
      rw [if_pos hj]
      refine ⟨_, _, _, _, _, _, rfl, S.stops (hk ▸ Nat.le_of_lt h2) hj fun i hi hij => ?_⟩
      rw [hk] at hi
      rcases Nat.eq_or_lt_of_le hi with rfl | hi
      · exact hdead
      · rw [← hrows]
        exact h4 i hi hij
    rw [h1] at hfetch ⊢
    simp only [Option.getD_none, Option.isSome_none, Bool.or_false] at hfetch ⊢
    rw [if_neg hcur] at hfetch ⊢
    have hsame : (⟨⟨scan.current_rid.page_id, k⟩, some f⟩ : Scan) = scan := by
      rw [← hk, ← S.page]
    have hnone : liveFrom b n scan.current_rid.slot_num = [] := by
      rw [hk]
      apply liveFrom_nil
      intro i hi
      rcases Nat.eq_or_lt_of_le hi with rfl | hi
      · exact hdead
      · rw [← hrows]
        exact h2 i hi
    rw [hsame]
    rcases S.next_page with ⟨hp, hend⟩ | ⟨x, hx, ⟨b', scan', g, hp, hc, S', hzero⟩ | ⟨b', hp, hc, _⟩⟩
    · -- the end of the chain
      rw [hp]
      obtain rfl : post = [] := by
        cases hpath with
        | cons hpath =>
          rw [hend] at hpath
          cases hpath
          rfl
      exact ⟨_, _, _, _, _, _, rfl, S.ends hnone⟩
    · -- the scan goes on with the next page
      rw [hp] at hfetch ⊢
      simp only at hfetch ⊢
      obtain ⟨post1, rfl⟩ : ∃ post1, post = x :: post1 := by
        cases hpath with
        | cons hpath =>
          rw [hx] at hpath
          cases hpath
          exact ⟨_, rfl⟩
      have hpath1 : Path (succ b') (some x) (x :: post1) := by
        rw [succ_congr hc]
        cases hpath with
        | cons hpath =>
          rw [hx] at hpath
          exact hpath
      obtain ⟨r, b2, scan2, mid, m, post', hn, W⟩ := ih S' hpath1
        (by simp only [List.length_cons] at hfuel; omega) hfetch
      exact ⟨r, b2, scan2, n :: mid, m, post', hn, W.skip hc hzero hnone⟩
    · -- a fetch that found no frame
      rw [hp] at hfetch
      simp only [Bool.not_eq_true'] at hfetch
      unfold has_next_page at hfetch
      rw [← S.next_frame, hx] at hfetch
      cases hfetch

end

/-! ## Scans and calls in any order -/

/-- A scan, what it returned so far, and the RIDs that were live when it was made and at every
step since. -/
structure ScanRun where
  pool : BufferPoolManager
  scan : Scan
  returned : List (RID × List UInt8)
  stayed : RID → Prop

inductive ScanCall
  | next
  | heap (call : HeapCall)

namespace ScanRun

variable (s : ScanRun)

/-- `Scan::next`. The loop visits each page of the chain once. -/
def scan_next : Option (Except String (Option (RID × List UInt8)) × BufferPoolManager × Scan) :=
  Scan.next (s.pool.disk_manager.capacity + 1) s.pool s.scan

/-- The RIDs that have stayed live until the heap `h` is in `pool`. -/
def stay (h : Nat) (pool : BufferPoolManager) (rid : RID) : Prop :=
  s.stayed rid ∧ tuples h pool rid ≠ none

def next (h : Nat) : ScanCall → Option ScanRun
  | .next => s.scan_next.map fun (r, pool, scan) =>
      ⟨pool, scan, s.returned ++ (match r with | .ok r => r.toList | .error _ => []), s.stay h pool⟩
  | .heap call => (call.run s.pool (some h)).map fun r =>
      ⟨r.2, s.scan, s.returned, s.stay h r.2⟩

end ScanRun

/-- A scan that was made on a heap, whatever the other pages of the pool hold, and whoever has
pages pinned. -/
def scanRunMachine (h : Nat) : Machine ScanRun ScanCall where
  start s := s.returned = [] ∧ (s.stayed = fun rid => tuples h s.pool rid ≠ none) ∧
    s.scan.current_page ≠ none ∧ ∃ b outside pending,
      HeapState True outside pending (· = h) b ∧ (∀ m, pending m → 0 < outside m) ∧
      Scan.open_ b (some h) = (.ok s.scan, s.pool)
  next s call := s.next h call

/-- RIDs are on pages of the heap, and the sizes of tuples fit into a slot. -/
def HeapCall.OnPages (h : Nat) (b : BufferPoolManager) : HeapCall → Prop
  | .insert _ => True
  | .get rid | .delete rid => ∃ n, rid.page_id = some n ∧ OnPath (succ b) h n
  | .update rid tuple =>
    (∃ n, rid.page_id = some n ∧ OnPath (succ b) h n) ∧ tuple.length < 65536

/-- The scan gets a frame for every page that it fetches. -/
def OnScannedHeap (h : Nat) (s : ScanRun) : ScanCall → Prop
  | .next => Scan.fetches_succeed (s.pool.disk_manager.capacity + 1) s.pool s.scan = true
  | .heap call => call.OnPages h s.pool

/-- The scan stands on page `n` of the chain, with the pages `pre` behind it and `post` before
it. -/
structure ScanAt (h : Nat) (outside : Nat → Nat) (pending : Nat → Prop) (s : ScanRun)
    (pre : List Nat) (n : Nat) (post : List Nat) : Prop where
  standing : ∃ f, ScanOn (· = h) outside pending s.pool s.scan n f
  path : Path (succ s.pool) (some h) (pre ++ n :: post)
  returned : ∀ e ∈ s.returned, Behind pre n s.scan.current_rid.slot_num e.1
  once : (s.returned.map (·.1)).Nodup
  stayed : ∀ rid, s.stayed rid → tuples h s.pool rid ≠ none ∧
    (rid ∈ s.returned.map (·.1) ∨ AheadOf n s.scan.current_rid.slot_num post rid)

section
variable {h : Nat} {s t : ScanRun} {outside : Nat → Nat} {pending : Nat → Prop}
  {pre post : List Nat} {n : Nat}

/-- The tuples of a heap are those in the slots of its pages. -/
theorem tuples_eq_some {b : BufferPoolManager} {l : List Nat} (hl : Path (succ b) (some h) l)
    {rid : RID} {t : List UInt8} : tuples h b rid = some t ↔
      ∃ m ∈ l, rid.page_id = some m ∧ tupleOf (contents b m).rows rid.slot_num = some t := by
  have hon : ∀ m, OnChain (succ b) (· = h) m ↔ m ∈ l := by
    intro m
    constructor
    · rintro ⟨_, rfl, l', hl', hm⟩
      rw [hl.unique hl']
      exact hm
    · intro hm
      exact ⟨h, rfl, l, hl, hm⟩
  obtain ⟨_ | m, slot⟩ := rid
  · simp [tuples]
  · simp only [tuples, Option.some.injEq]
    by_cases hm : m ∈ l
    · rw [rows_on ((hon m).mpr hm)]
      constructor
      · exact fun ht => ⟨m, hm, rfl, ht⟩
      · rintro ⟨_, _, rfl, ht⟩
        exact ht
    · rw [rows_off fun hno => hm ((hon m).mp hno)]
      constructor
      · intro ht
        cases ht
      · rintro ⟨_, hm', rfl, _⟩
        exact absurd hm' hm

theorem ScanAt.mem_leftOver (A : ScanAt h outside pending s pre n post) {rid : RID}
    {t : List UInt8} : (rid, t) ∈ leftOver s.pool n s.scan.current_rid.slot_num post ↔
      AheadOf n s.scan.current_rid.slot_num post rid ∧ tuples h s.pool rid = some t := by
  rw [table_heap.mem_leftOver, tuples_eq_some A.path]
  refine and_congr_right fun ha => ⟨?_, ?_⟩
  · rintro ⟨m, hm, ht⟩
    refine ⟨m, List.mem_append_right pre ?_, hm, ht⟩
    rcases ha with ⟨h1, _⟩ | ⟨k, hk, h1⟩
    · obtain rfl : n = m := Option.some.inj (h1.symm.trans hm)
      exact List.mem_cons_self
    · obtain rfl : k = m := Option.some.inj (h1.symm.trans hm)
      exact List.mem_cons_of_mem n hk
  · rintro ⟨m, _, hm, ht⟩
    exact ⟨m, hm, ht⟩

/-- What is behind a scan is not before it. -/
theorem ScanAt.not_ahead (A : ScanAt h outside pending s pre n post) {rid : RID}
    (hb : Behind pre n s.scan.current_rid.slot_num rid) :
    ¬ AheadOf n s.scan.current_rid.slot_num post rid := by
  have hnd := A.path.nodup
  rw [List.nodup_append] at hnd
  obtain ⟨_, hnd2, hdis⟩ := hnd
  have hn := (List.nodup_cons.mp hnd2).1
  rintro (⟨h1, h2⟩ | ⟨m, hm, h1⟩) <;> rcases hb with ⟨k, hk, h3⟩ | ⟨h3, h4⟩
  · obtain rfl : n = k := Option.some.inj (h1.symm.trans h3)
    exact hdis n hk n List.mem_cons_self rfl
  · omega
  · obtain rfl : m = k := Option.some.inj (h1.symm.trans h3)
    exact hdis m hk m (List.mem_cons_of_mem n hm) rfl
  · obtain rfl : m = n := Option.some.inj (h1.symm.trans h3)
    exact hn hm

theorem ScanAt.next (A : ScanAt h outside pending s pre n post)
    (hok : OnScannedHeap h s .next) : ∃ r pool scan mid m post',
      s.scan_next = some (.ok r, pool, scan) ∧
      ScanStepped (· = h) outside pending s.pool pool s.scan scan n post mid m post' r := by
  obtain ⟨f, S⟩ := A.standing
  have hpath := A.path.from_node
  have hlen : post.length < s.pool.disk_manager.capacity + 1 := by
    have := S.heap.length_le S.on hpath
    simp only [List.length_cons] at this
    omega
  exact S.next_left hpath hlen hok

/-- The calls of the heap leave the pages that are linked where they are. -/
theorem heapCall_ran {pins : Nat → Nat} {b b' : BufferPoolManager}
    (H : HeapState True pins pending (· = h) b) {call : HeapCall} {r : Except String HeapResult}
    (hok : call.OnPages h b) (hr : call.run b (some h) = some (r, b')) :
    Ran True (· = h) pins pending b b' := by
  cases call with
  | insert t =>
    obtain ⟨⟨r', b1⟩, h1, h2⟩ := Option.map_eq_some_iff.mp hr
    cases h2
    exact (H.insert_tuple rfl h1 fun he => absurd trivial he).1
  | get rid =>
    obtain ⟨_, slot⟩ := rid
    obtain ⟨n, rfl, hn⟩ := hok
    cases hr
    rcases H.get_tuple ⟨h, rfl, hn⟩ slot with ⟨b1, h1, R, _⟩ | ⟨h1, _⟩ <;> rw [h1]
    · exact R
    · exact ran_refl H
  | update rid t =>
    obtain ⟨_, slot⟩ := rid
    obtain ⟨⟨n, rfl, hn⟩, ht⟩ := hok
    obtain ⟨⟨r', b1⟩, h1, h2⟩ := Option.map_eq_some_iff.mp hr
    cases h2
    exact (H.update_tuple rfl ⟨h, rfl, hn⟩ ht h1 fun he => absurd trivial he).1
  | delete rid =>
    obtain ⟨_, slot⟩ := rid
    obtain ⟨n, rfl, hn⟩ := hok
    cases hr
    rcases H.delete_tuple ⟨h, rfl, hn⟩ slot with ⟨b1, h1, R, _⟩ | ⟨h1, _⟩ <;> rw [h1]
    · exact R
    · exact ran_refl H

/-- A call of the heap may add pages to the end of the chain, and nothing else of it moves. -/
theorem ScanAt.heap_call (A : ScanAt h outside pending s pre n post) {call : HeapCall}
    (hok : OnScannedHeap h s (.heap call)) (hn : s.next h (.heap call) = some t) :
    ∃ post', ScanAt h outside pending t pre n post' := by
  obtain ⟨f, S⟩ := A.standing
  obtain ⟨⟨r, b'⟩, hr, rfl⟩ := Option.map_eq_some_iff.mp hn
  have R := heapCall_ran S.heap hok hr
  obtain ⟨l, hl⟩ := R.heap.forest.ends h rfl
  obtain ⟨new, rfl⟩ := A.path.grows (fun m hm k hk => R.links m k ⟨h, rfl, _, A.path, hm⟩ hk) hl
  rw [List.append_assoc, List.cons_append] at hl
  refine ⟨post ++ new, ⟨f, R.heap, S.held, ?_, S.page, ?_, S.rid, S.slot⟩, hl, A.returned, A.once, ?_⟩
  · exact ⟨h, rfl, _, hl, List.mem_append_right pre List.mem_cons_self⟩
  · refine R.pinned n f S.table ?_
    rw [pinMore_apply, if_pos rfl]
    exact Nat.succ_pos _
  · rintro rid ⟨hs, hlive⟩
    refine ⟨hlive, (A.stayed rid hs).2.imp id ?_⟩
    rintro (ha | ⟨m, hm, hp⟩)
    · exact Or.inl ha
    · exact Or.inr ⟨m, List.mem_append_left new hm, hp⟩

/-- A step of the scan. -/
theorem ScanAt.scan_next (A : ScanAt h outside pending s pre n post)
    (hok : OnScannedHeap h s .next) (hn : s.next h .next = some t) :
    ∃ pre' m post', ScanAt h outside pending t pre' m post' := by
  obtain ⟨r, pool, scan, mid, m, post', hr, W⟩ := A.next hok
  unfold ScanRun.next at hn
  simp only [hr, Option.map_some, Option.some.injEq] at hn
  subst hn
  have hpages : pre ++ n :: post = (pre ++ mid) ++ m :: post' := by
    rw [W.pages, List.append_assoc]
  have hbehind : ∀ rid, Behind pre n s.scan.current_rid.slot_num rid →
      Behind (pre ++ mid) m scan.current_rid.slot_num rid := by
    rintro rid (⟨k, hk, hp⟩ | ⟨hp, hlt⟩)
    · exact Or.inl ⟨k, List.mem_append_left mid hk, hp⟩
    · rcases mid with _ | ⟨x, mid⟩
      · obtain ⟨rfl, _⟩ := List.cons.inj W.pages
        have := W.forward rfl
        exact Or.inr ⟨hp, by omega⟩
      · obtain ⟨rfl, _⟩ := List.cons.inj W.pages
        exact Or.inl ⟨n, by simp, hp⟩
  have hleft := W.left
  rw [← leftOver_congr W.same] at hleft
  have htuples : tuples h pool = tuples h s.pool := by
    apply tuples_congr
    refine rows_congr (fun k => ?_) fun k _ => congrArg Meaning.rows (congrFun W.same k)
    rw [succ_congr W.same]
  refine ⟨pre ++ mid, m, post', W.standing, ?_, ?_, ?_, ?_⟩
  · show Path (succ pool) (some h) _
    rw [← hpages, succ_congr W.same]
    exact A.path
  · intro e he
    rcases List.mem_append.mp he with he | he
    · exact hbehind e.1 (A.returned e he)
    · obtain ⟨h1, h2⟩ := W.passed e (Option.mem_toList.mp he)
      exact Or.inr ⟨h1, h2⟩
  · show ((s.returned ++ r.toList).map (·.1)).Nodup
    rcases r with _ | e
    · rw [Option.toList_none, List.append_nil]
      exact A.once
    · -- the row was before the scan, and those that it returned were behind it
      rw [Option.toList_some, List.map_append, List.map_singleton]
      refine List.Nodup.append A.once (List.nodup_singleton _) ?_
      rw [List.disjoint_singleton]
      intro hm
      obtain ⟨e', he', heq⟩ := List.mem_map.mp hm
      have hb := A.returned e' he'
      rw [heq] at hb
      refine A.not_ahead hb (A.mem_leftOver (t := e.2) |>.mp ?_).1
      rw [← leftOver_congr W.same, hleft]
      exact List.mem_cons_self
  · rintro rid ⟨hs, hlive⟩
    refine ⟨hlive, ?_⟩
    show rid ∈ (s.returned ++ r.toList).map (·.1) ∨ _
    rw [List.map_append, List.mem_append]
    rcases (A.stayed rid hs).2 with hret | ha
    · exact Or.inl (Or.inl hret)
    · obtain ⟨u, hu⟩ := Option.ne_none_iff_exists'.mp hlive
      rw [htuples] at hu
      have hmem := A.mem_leftOver.mpr ⟨ha, hu⟩
      rw [← leftOver_congr W.same, hleft, List.mem_append] at hmem
      rcases hmem with hmem | hmem
      · exact Or.inl (Or.inr (List.mem_map.mpr ⟨_, hmem, rfl⟩))
      · exact Or.inr (table_heap.mem_leftOver.mp hmem).1

theorem scanAt_start (hs : (scanRunMachine h).start s) :
    ∃ outside pending post, ScanAt h outside pending s [] h post ∧
      s.scan.current_rid.slot_num = 0 := by
  obtain ⟨hret, hstay, hpage, b, outside, pending, H, hheld, ho⟩ := hs
  rcases H.opens rfl hheld with ⟨f, b', ho', hc, S⟩ | ⟨ho', _⟩ <;> rw [ho'] at ho <;>
    simp only [Prod.mk.injEq, Except.ok.injEq] at ho
  · obtain ⟨hscan, rfl⟩ := ho
    rw [hscan] at S
    obtain ⟨l, hl⟩ := S.heap.forest.ends h rfl
    obtain ⟨post, rfl⟩ : ∃ post, l = h :: post := by
      cases hl
      exact ⟨_, rfl⟩
    have hslot : s.scan.current_rid.slot_num = 0 := by rw [← hscan]
    refine ⟨outside, pending, post, ⟨⟨f, S⟩, hl, ?_, ?_, ?_⟩, hslot⟩
    · rw [hret]
      simp
    · rw [hret]
      exact List.nodup_nil
    · intro rid hlive
      rw [hstay] at hlive
      refine ⟨hlive, Or.inr ?_⟩
      obtain ⟨u, hu⟩ := Option.ne_none_iff_exists'.mp hlive
      obtain ⟨m, hm, hp, _⟩ := (tuples_eq_some hl).mp hu
      rcases List.mem_cons.mp hm with rfl | hm
      · exact Or.inl ⟨hp, by rw [hslot]; exact Nat.zero_le _⟩
      · exact Or.inr ⟨m, hm, hp⟩
  · rw [← ho.1] at hpage
    exact absurd rfl hpage

/-- Somewhere on the chain. -/
def Scanning (h : Nat) (s : ScanRun) : Prop :=
  ∃ outside pending pre n post, ScanAt h outside pending s pre n post

theorem scanning_reach (hr : (scanRunMachine h).Reach (OnScannedHeap h) s) : Scanning h s := by
  apply hr.invariant
  · intro s hs
    obtain ⟨outside, pending, post, A, _⟩ := scanAt_start hs
    exact ⟨outside, pending, [], h, post, A⟩
  · rintro s call t ⟨outside, pending, pre, n, post, A⟩ hok hn
    cases call with
    | next =>
      obtain ⟨pre', m, post', A'⟩ := A.scan_next hok hn
      exact ⟨outside, pending, pre', m, post', A'⟩
    | heap call =>
      obtain ⟨post', A'⟩ := A.heap_call hok hn
      exact ⟨outside, pending, pre, n, post', A'⟩

/-! ## A scan that nobody disturbs -/

/-- Only the scan takes steps. -/
def Undisturbed (h : Nat) (s : ScanRun) (call : ScanCall) : Prop :=
  OnScannedHeap h s call ∧ call = .next

/-- The rows of a heap, page after page along its chain, and slot after slot. -/
def RowsInOrder (h : Nat) (b : BufferPoolManager) (rows : List (RID × List UInt8)) : Prop :=
  ∃ l, Path (succ b) (some h) l ∧ rows = l.flatMap fun n => liveFrom b n 0

/-- What was returned and what is left are together the rows of the heap. -/
theorem undisturbed_run {s0 : ScanRun} {calls : List ScanCall} (h0 : (scanRunMachine h).start s0)
    (hr : (scanRunMachine h).Run (Undisturbed h) s0 calls s) :
    ∃ outside pending pre n post, ScanAt h outside pending s pre n post ∧
      RowsInOrder h s0.pool
        (s.returned ++ leftOver s.pool n s.scan.current_rid.slot_num post) ∧
      contents s.pool = contents s0.pool := by
  induction hr with
  | nil =>
    obtain ⟨outside, pending, post, A, hslot⟩ := scanAt_start h0
    refine ⟨outside, pending, [], h, post, A, ⟨h :: post, A.path, ?_⟩, rfl⟩
    rw [h0.1, hslot, List.nil_append, List.flatMap_cons]
    rfl
  | snoc _ hok hn ih =>
    rename_i t u call _
    obtain ⟨outside, pending, pre, n, post, A, hrows, hc⟩ := ih
    obtain ⟨hok, rfl⟩ := hok
    obtain ⟨r, pool, scan, mid, m, post', hstep, W⟩ := A.next hok
    obtain ⟨pre2, m2, post2, A2⟩ := A.scan_next hok hn
    change t.next h .next = some u at hn
    unfold ScanRun.next at hn
    simp only [hstep, Option.map_some, Option.some.injEq] at hn
    subst hn
    -- both descriptions of the cursor name the same page
    obtain ⟨g, S⟩ := W.standing
    obtain ⟨g2, S2⟩ := A2.standing
    obtain rfl : m = m2 := Option.some.inj (S.rid.symm.trans S2.rid)
    have hpath : Path (succ pool) (some m) (m :: post') := by
      rw [succ_congr W.same]
      have := A.path
      rw [W.pages, ← List.append_assoc] at this
      exact this.from_node
    obtain rfl : post' = post2 := (List.cons.inj (hpath.unique A2.path.from_node)).2
    refine ⟨outside, pending, pre2, m, post', A2, ?_, W.same.trans hc⟩
    show RowsInOrder h _ ((t.returned ++ r.toList) ++ leftOver pool m scan.current_rid.slot_num post')
    rw [List.append_assoc, leftOver_congr W.same, ← W.left]
    exact hrows

/-! ## The law -/

/-- What a step of the scan has to return: the bytes of a RID that was not returned before, or
no row when every RID that stayed live has been returned. -/
def ReturnsRows (h : Nat) (s : ScanRun) (r : Option (RID × List UInt8)) : Prop :=
  (∀ rid t, r = some (rid, t) → tuples h s.pool rid = some t ∧ rid ∉ s.returned.map (·.1)) ∧
  (r = none → ∀ rid, s.stayed rid → rid ∈ s.returned.map (·.1))

/-- Whatever other calls do to the heap between its steps, a scan returns no RID twice, returns
the bytes that a RID has at that step, and ends when every RID that stayed live is returned. A
scan that nobody disturbs returns the rows of the heap in their order. -/
theorem scan_returns_rows (h : Nat) (s : ScanRun)
    (hr : (scanRunMachine h).Reach (OnScannedHeap h) s) :
    (s.returned.map (·.1)).Nodup ∧
    (OnScannedHeap h s .next → ∃ r pool scan, s.scan_next = some (.ok r, pool, scan) ∧
      ReturnsRows h s r ∧
      ∀ s0 calls, (scanRunMachine h).start s0 →
        (scanRunMachine h).Run (Undisturbed h) s0 calls s → r = none →
        RowsInOrder h s0.pool s.returned) := by
  obtain ⟨outside, pending, pre, n, post, A⟩ := scanning_reach hr
  refine ⟨A.once, fun hok => ?_⟩
  obtain ⟨r, pool, scan, mid, m, post', hstep, W⟩ := A.next hok
  refine ⟨r, pool, scan, hstep, ⟨?_, ?_⟩, ?_⟩
  · rintro rid t rfl
    have hmem : (rid, t) ∈ leftOver s.pool n s.scan.current_rid.slot_num post := by
      rw [W.left]
      exact List.mem_cons_self
    obtain ⟨ha, ht⟩ := A.mem_leftOver.mp hmem
    refine ⟨ht, fun hm => ?_⟩
    obtain ⟨e, he, heq⟩ := List.mem_map.mp hm
    have hb := A.returned e he
    rw [heq] at hb
    exact A.not_ahead hb ha
  · rintro rfl rid hs
    obtain ⟨hlive, hin⟩ := A.stayed rid hs
    refine hin.resolve_right fun ha => ?_
    obtain ⟨u, hu⟩ := Option.ne_none_iff_exists'.mp hlive
    have hmem := A.mem_leftOver.mpr ⟨ha, hu⟩
    rw [W.left, W.ended rfl] at hmem
    cases hmem
  · rintro s0 calls h0 hrun rfl
    obtain ⟨outside', pending', pre', n', post2, A', hrows, _⟩ := undisturbed_run h0 hrun
    obtain ⟨f, S⟩ := A.standing
    obtain ⟨f', S'⟩ := A'.standing
    obtain rfl : n = n' := Option.some.inj (S.rid.symm.trans S'.rid)
    obtain rfl : post = post2 := (List.cons.inj (A.path.from_node.unique A'.path.from_node)).2
    rw [W.left, W.ended rfl] at hrows
    simpa using hrows

end

end duck.table_heap
