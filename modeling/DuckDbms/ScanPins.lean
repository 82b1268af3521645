-- Scans that are made, advanced, moved and destroyed, over a pool that other
-- callers use. Each scan that stands on a page owns one pin of it, until an
-- advance finds no frame: that scan gave its pin up, and keeps its page.
import DuckDbms.Catalog
import DuckDbms.PinOwners

open machine owners duck.slotted_page duck.disk_manager duck.buffer_pool

namespace duck.table_heap

/-! ## The scans -/

/-- What a scan is after its page was moved out of it. -/
def Scan.moved_from (scan : Scan) : Scan := { scan with current_page := none }

/-- The pool with its other callers, of less than 2^32 pins a page and 2^32 pages, and the scans in
the order they were made. A scan that was destroyed is `none`. -/
structure ScanPins where
  store : FlatStore
  scans : List (Option Scan)

inductive ScanOp
  | create (first_page_id : Nat)
  /-- the loop of `next` has `fuel` turns at most -/
  | next (i fuel : Nat)
  | move_construct (i : Nat)
  /-- scan `j` is moved into scan `i` -/
  | move_assign (i j : Nat)
  | destroy (i : Nat)
  | other (call : PoolCall)

namespace ScanPins

variable (s : ScanPins)

def scan_at (i : Nat) : Option Scan := s.scans[i]?.join

def with_pool (pool : BufferPoolManager) : ScanPins := { s with store := { s.store with pool } }

def next : ScanOp → Option ScanPins
  | .create first_page_id =>
    match Scan.open_ s.store.pool (some first_page_id) with
    | (.ok scan, pool) => some { s.with_pool pool with scans := s.scans ++ [some scan] }
    | (.error _, pool) => some (s.with_pool pool)
  | .next i fuel => (s.scan_at i).bind fun scan => (Scan.next fuel s.store.pool scan).map fun r =>
      { s.with_pool r.2.1 with scans := s.scans.set i (some r.2.2) }
  | .move_construct i => (s.scan_at i).map fun other =>
      { s with scans := s.scans.set i (some other.moved_from) ++ [some other] }
  | .move_assign i j => (s.scan_at i).bind fun scan => (s.scan_at j).map fun other =>
      if i = j then s
      else { s.with_pool (scan.close s.store.pool) with
        scans := (s.scans.set i (some other)).set j (some other.moved_from) }
  | .destroy i => (s.scan_at i).map fun scan =>
      { s.with_pool (scan.close s.store.pool) with scans := s.scans.set i none }
  | .other call => (s.store.next call).map fun store => { s with store }

/-- The frame of the page that each scan stands on. -/
def current_pages : List (Option FrameID) := s.scans.map (·.bind Scan.current_page)

end ScanPins

def scanPinsMachine : Machine ScanPins ScanOp where
  start s := ∃ store, flatMachine.start store ∧ s = ⟨store, []⟩
  next := ScanPins.next

/-! ## The advances of a scan -/

/-- The frame that the loop of `Scan::next` leaves and the page that it goes to, when its page has
no tuple for it. -/
def Scan.advances (b : BufferPoolManager) (scan : Scan) : Option (FrameID × Nat) :=
  scan.current_page.bind fun page =>
    let slotted := (b.frames page).data
    let slot_num := scan.current_rid.slot_num
    let slot_num := if has_slot slotted slot_num then slot_num
      else (next_occupied_slot slotted slot_num).getD slot_num
    if has_slot slotted slot_num then none else (slotted_page.next_page slotted).map fun n => (page, n)

/-- Each advance of the loop starts in a pool that meets `ok`. -/
def Scan.EachAdvance (ok : BufferPoolManager → FrameID → Nat → Prop) :
    Nat → BufferPoolManager → Scan → Prop
  | 0, _, _ => True
  | fuel + 1, b, scan => ∀ page n, scan.advances b = some (page, n) → ok b page n ∧
      ∀ b' scan', Scan.next_page b scan = (.ok true, b', scan') → scan'.EachAdvance ok fuel b'

/-- The next page was not deleted. -/
def GoesToAllocated (b : BufferPoolManager) (_ : FrameID) (n : Nat) : Prop :=
  Allocated b.disk_manager n

/-- The next page is cached, or a frame is free for it once the scan gives up its page. -/
def NextPageFits (b : BufferPoolManager) (page : FrameID) (n : Nat) : Prop :=
  ¬ (b.page_table (some n) = none ∧ AllPinned (b.unpin_page (b.frames page).page_id false))

/-- The page that is left has more pins than the other callers hold. -/
def LeavesOwnPin (outside : Nat → Nat) (b : BufferPoolManager) (page : FrameID) (_ : Nat) : Prop :=
  ∃ m, (b.frames page).page_id = some m ∧ outside m < (b.frames page).pin_count

/-- Scans are of chains of allocated pages, and the other callers match their pins. -/
def ScansInOrder (s : ScanPins) : ScanOp → Prop
  | .create first_page_id => Allocated s.store.pool.disk_manager first_page_id
  | .next i fuel => ∀ scan, s.scan_at i = some scan →
      scan.EachAdvance GoesToAllocated fuel s.store.pool
  | .other call => CallersMatchPins s.store call ∧ DeletesAllocated s.store call
  | .move_construct _ | .move_assign _ _ | .destroy _ => True

/-- No advance of the step finds every frame pinned. -/
def AdvancesFit (s : ScanPins) : ScanOp → Prop
  | .next i fuel => ∀ scan, s.scan_at i = some scan → scan.EachAdvance NextPageFits fuel s.store.pool
  | .create _ | .move_construct _ | .move_assign _ _ | .destroy _ | .other _ => True

/-! ## What the operations do to the pins -/

section
variable {b : BufferPoolManager} {outside : Nat → Nat} {owned : List (Option FrameID)}
  {scan : Scan} {i : Nat}

/-- A scan opens on a page that it owns a pin of, or on none. -/
theorem open_owned (W : Owned b outside owned) {n : Nat} (ha : Allocated b.disk_manager n) :
    ∃ scan b', Scan.open_ b (some n) = (.ok scan, b') ∧
      Owned b' outside (owned ++ [scan.current_page]) := by
  unfold Scan.open_
  rcases W.fetch_page ha with ⟨f, b', hfetch, hgain⟩ | ⟨hfetch, _⟩
  · rw [hfetch]
    exact ⟨_, b', rfl, hgain _ (owners_of_append owned (some f))⟩
  · rw [hfetch]
    exact ⟨_, b, rfl, W.pass (owners_of_append owned none)⟩

/-- A scan is closed: the destructor, and the move assignment for the old page. -/
theorem close_owned (W : Owned b outside owned) (hi : owned[i]? = some scan.current_page) :
    Owned (scan.close b) outside (owned.set i none) := by
  have hset := owners_of_set hi none
  unfold Scan.close
  rcases hp : scan.current_page with _ | page
  · refine W.pass fun f => ?_
    have := hset f
    rw [hp] at this
    omega
  · rw [hp] at hi hset
    refine W.unpin_page (List.mem_of_getElem? hi) false fun f => ?_
    have := hset f
    rwa [one_for_none, Nat.add_zero] at this

/-- On the last page of a chain a scan stays where it is. -/
theorem next_page_last {page : FrameID} (hnext : slotted_page.next_page (b.frames page).data = none)
    (rid : RID) : Scan.next_page b ⟨rid, some page⟩ = (.ok false, b, ⟨rid, some page⟩) := by
  have hhas : has_next_page (b.frames page).data = false := by
    unfold slotted_page.next_page at hnext
    unfold has_next_page
    rw [hnext]
    rfl
  unfold Scan.next_page
  simp only [hhas, Bool.false_eq_true, not_false_eq_true, if_true]

/-- An advance that finds a frame passes the pin on to the next page. One that finds none has given
the pin up, and leaves the scan on its page. -/
theorem next_page_owned (W : Owned b outside owned) {page : FrameID} {n : Nat}
    (hi : owned[i]? = some (some page)) (hnext : slotted_page.next_page (b.frames page).data = some n)
    (ha : GoesToAllocated b page n) :
    (∃ f b' rid', (∀ rid, Scan.next_page b ⟨rid, some page⟩ = (.ok true, b', ⟨rid', some f⟩)) ∧
      Owned b' outside (owned.set i (some f))) ∨
    (∃ b', ∀ rid, Scan.next_page b ⟨rid, some page⟩ = (.ok false, b', ⟨rid, some page⟩)) ∧
      ¬ NextPageFits b page n := by
  have hhas : has_next_page (b.frames page).data = true := by
    unfold slotted_page.next_page at hnext
    unfold has_next_page
    rw [hnext]
    rfl
  have W1 : Owned (b.unpin_page (b.frames page).page_id false) outside (owned.set i none) :=
    close_owned W (show owned[i]? = some (Scan.current_page ⟨⟨none, 0⟩, some page⟩) from hi)
  unfold Scan.next_page
  simp only [hhas, not_true_eq_false, if_false, hnext]
  rcases W1.fetch_page (n := n) (by rw [capacity_unpin_page]; exact ha) with
    ⟨f, b', hfetch, hgain⟩ | ⟨hfetch, hu, hall⟩
  · left
    rw [hfetch]
    refine ⟨f, b', _, fun rid => rfl, hgain _ fun g => ?_⟩
    have h1 := owners_of_set hi none g
    have h2 := owners_of_set hi (some f) g
    rw [one_for_none] at h1
    omega
  · right
    rw [hfetch]
    rw [page_table_unpin_page] at hu
    exact ⟨⟨_, fun rid => rfl⟩, fun hfit => hfit ⟨hu, hall⟩⟩

theorem page_of_advances {page : FrameID} {n : Nat} (h : scan.advances b = some (page, n)) :
    scan.current_page = some page ∧ slotted_page.next_page (b.frames page).data = some n := by
  obtain ⟨g, hp, h⟩ := Option.bind_eq_some_iff.mp h
  obtain ⟨_, h⟩ := Option.ite_none_left_eq_some.mp h
  obtain ⟨m, hm, he⟩ := Option.map_eq_some_iff.mp h
  cases he
  exact ⟨hp, hm⟩

/-- Where the loop goes on to the next page. -/
theorem advances_eq {page : FrameID} {slot_num : Nat} (hp : scan.current_page = some page)
    (hs : slot_num = if has_slot (b.frames page).data scan.current_rid.slot_num then
      scan.current_rid.slot_num
      else (next_occupied_slot (b.frames page).data scan.current_rid.slot_num).getD
        scan.current_rid.slot_num)
    (h : has_slot (b.frames page).data slot_num = false) :
    scan.advances b = (slotted_page.next_page (b.frames page).data).map fun n => (page, n) := by
  unfold Scan.advances
  rw [hp]
  simp only [Option.bind_some]
  rw [← hs, h]
  rfl

/-- The loop of `Scan::next` ends with the pin of the page that the scan stands on. -/
theorem next_owned {fuel : Nat} (W : Owned b outside owned) (hi : owned[i]? = some scan.current_page)
    (h1 : scan.EachAdvance GoesToAllocated fuel b) (h2 : scan.EachAdvance NextPageFits fuel b)
    {r : Except String (Option (RID × List UInt8)) × BufferPoolManager × Scan}
    (h : Scan.next fuel b scan = some r) : Owned r.2.1 outside (owned.set i r.2.2.current_page) := by
  induction fuel generalizing b owned scan with
  | zero => cases h
  | succ fuel ih =>
    have hsame : owned.set i scan.current_page = owned := by
      obtain ⟨hlt, he⟩ := List.getElem?_eq_some_iff.mp hi
      rw [← he]
      exact List.set_getElem_self hlt
    unfold Scan.next at h
    rcases hp : scan.current_page with _ | page
    · rw [hp] at h hsame
      cases h
      rw [hp, hsame]
      exact W
    rw [hp] at h hi hsame
    simp only at h
    generalize hs : (if has_slot (b.frames page).data scan.current_rid.slot_num then
      scan.current_rid.slot_num
      else (next_occupied_slot (b.frames page).data scan.current_rid.slot_num).getD
        scan.current_rid.slot_num) = slot_num at h
    split at h
    · cases h
      show Owned b outside (owned.set i (some page))
      rw [hsame]
      exact W
    · rename_i hslot
      have hadv := advances_eq hp hs.symm (Bool.eq_false_iff.mpr hslot)
      rcases hn : slotted_page.next_page (b.frames page).data with _ | n
      · rw [next_page_last hn] at h
        cases h
        show Owned b outside (owned.set i (some page))
        rw [hsame]
        exact W
      · rw [hn] at hadv
        obtain ⟨h1a, h1b⟩ := h1 page n hadv
        obtain ⟨h2a, h2b⟩ := h2 page n hadv
        obtain ⟨f, b', rid', hstep, W'⟩ := (next_page_owned W hi hn h1a).resolve_right fun hno =>
          hno.2 h2a
        have hscan : Scan.next_page b scan = (.ok true, b', ⟨rid', some f⟩) := by
          rw [← hstep scan.current_rid, ← hp]
        rw [hstep] at h
        have hi' : (owned.set i (some f))[i]? = some (some f) :=
          List.getElem?_set_self (List.getElem?_eq_some_iff.mp hi).1
        have := ih W' hi' (h1b _ _ hscan) (h2b _ _ hscan) h
        rwa [List.set_set] at this

/-- The loop leaves each page by the pin of the scan, also in the advance that finds no frame. -/
theorem leaves_own_pins {fuel : Nat} (W : Owned b outside owned)
    (hi : owned[i]? = some scan.current_page) (h1 : scan.EachAdvance GoesToAllocated fuel b) :
    scan.EachAdvance (LeavesOwnPin outside) fuel b := by
  induction fuel generalizing b owned scan with
  | zero => trivial
  | succ fuel ih =>
    intro page n hadv
    obtain ⟨h1a, h1b⟩ := h1 page n hadv
    obtain ⟨hp, hn⟩ := page_of_advances hadv
    rw [hp] at hi
    refine ⟨?_, fun b2 scan2 hscan => ?_⟩
    · obtain ⟨m, hid, _, hlt⟩ := W.accounts.1 page (List.mem_of_getElem? hi)
      exact ⟨m, hid, hlt⟩
    · have h1' := h1b b2 scan2 hscan
      obtain ⟨rid, current_page⟩ := scan
      subst hp
      rcases next_page_owned W hi hn h1a with ⟨f, b', rid', hstep, W'⟩ | ⟨⟨b', hstep⟩, _⟩
      · rw [hstep] at hscan
        cases hscan
        exact ih W' (List.getElem?_set_self (List.getElem?_eq_some_iff.mp hi).1) h1'
      · rw [hstep] at hscan
        cases hscan

end

/-! ## Every scan owns its pin -/

/-- The pins are those of the scans and of the other callers. -/
def PinsOwned (s : ScanPins) : Prop := Owned s.store.pool s.store.pins s.current_pages

section
variable {s t : ScanPins}

theorem current_pages_at {i : Nat} {scan : Scan} (h : s.scan_at i = some scan) :
    s.scans[i]? = some (some scan) ∧ s.current_pages[i]? = some scan.current_page := by
  have hat := Option.join_eq_some_iff.mp h
  refine ⟨hat, ?_⟩
  unfold ScanPins.current_pages
  rw [List.getElem?_map, hat]
  rfl

/-- Every step in order whose advances fit keeps the pins owned. -/
theorem pinsOwned_next (W : PinsOwned s) {op : ScanOp} (h1 : ScansInOrder s op)
    (h2 : AdvancesFit s op) (h : s.next op = some t) : PinsOwned t := by
  unfold PinsOwned at *
  cases op with
  | create n =>
    obtain ⟨scan, b', hopen, W'⟩ := open_owned W h1
    unfold ScanPins.next at h
    simp only [hopen, Option.some.injEq] at h
    subst h
    unfold ScanPins.current_pages
    rw [List.map_append]
    exact W'
  | next i fuel =>
    obtain ⟨scan, hat, h⟩ := Option.bind_eq_some_iff.mp h
    obtain ⟨r, hr, rfl⟩ := Option.map_eq_some_iff.mp h
    have hpages := (current_pages_at hat).2
    unfold ScanPins.current_pages
    rw [List.map_set]
    exact next_owned W hpages (h1 scan hat) (h2 scan hat) hr
  | move_construct i =>
    obtain ⟨scan, hat, rfl⟩ := Option.map_eq_some_iff.mp h
    have hpages := (current_pages_at hat).2
    refine W.pass fun f => ?_
    unfold ScanPins.current_pages
    rw [List.map_append, List.map_set]
    exact owners_of_move_new hpages f
  | move_assign i j =>
    obtain ⟨scan, hi, h⟩ := Option.bind_eq_some_iff.mp h
    obtain ⟨other, hj, rfl⟩ := Option.map_eq_some_iff.mp h
    obtain ⟨_, hpi⟩ := current_pages_at hi
    obtain ⟨_, hpj⟩ := current_pages_at hj
    split
    · exact W
    · rename_i hne
      -- the target gives its page up, and gets that of the source
      refine (close_owned W hpi).pass fun f => ?_
      unfold ScanPins.current_pages
      rw [List.map_set, List.map_set]
      exact owners_of_move hne hpi hpj f
  | destroy i =>
    obtain ⟨scan, hat, rfl⟩ := Option.map_eq_some_iff.mp h
    unfold ScanPins.current_pages
    rw [List.map_set]
    exact close_owned W (current_pages_at hat).2
  | other call =>
    obtain ⟨store, hstore, rfl⟩ := Option.map_eq_some_iff.mp h
    exact (W.other h1.1 h1.2 hstore).1

theorem pinsOwned_reach
    (h : scanPinsMachine.Reach (fun s op => ScansInOrder s op ∧ AdvancesFit s op) s) :
    PinsOwned s := by
  apply h.invariant
  · rintro _ ⟨store, hstart, rfl⟩
    exact Owned.no_object (inOrder_start hstart)
  · exact fun s op t W hok hn => pinsOwned_next W hok.1 hok.2 hn

/-! ## The law -/

/-- Scans are destroyed, in any order, and nothing else happens. -/
def OnlyDestroys (_ : ScanPins) (op : ScanOp) : Prop := ∃ i, op = .destroy i

/-- Each scan that stands on a page accounts for one pin of it, and the loop leaves each page by that
pin. Once all scans are destroyed the pins are those of the other callers. -/
def ScansOwnTheirPins (s : ScanPins) : Prop :=
  AccountsForPins s.store.pool s.store.pins s.current_pages ∧
  (∀ i fuel scan, s.scan_at i = some scan → scan.EachAdvance GoesToAllocated fuel s.store.pool →
    scan.EachAdvance (LeavesOwnPin s.store.pins) fuel s.store.pool) ∧
  ∀ ops t, scanPinsMachine.Run OnlyDestroys s ops t → (∀ i, t.scan_at i = none) →
    t.store.pins = s.store.pins ∧ ∀ n f, t.store.pool.page_table (some n) = some f →
      (t.store.pool.frames f).pin_count = s.store.pins n

theorem no_owner_left (hnone : ∀ i, s.scan_at i = none) (f : FrameID) :
    owners_of s.current_pages f = 0 := by
  refine Nat.eq_zero_of_not_pos fun hpos => ?_
  obtain ⟨x, hx, hf⟩ := List.mem_map.mp (owners_of_pos.mp hpos)
  obtain ⟨scan, rfl, _⟩ := Option.bind_eq_some_iff.mp hf
  obtain ⟨i, hi⟩ := List.mem_iff_getElem?.mp hx
  have hat : s.scan_at i = some scan := by
    unfold ScanPins.scan_at
    rw [hi]
    rfl
  rw [hnone i] at hat
  cases hat

/-- As long as no advance of a scan finds every frame pinned by others, each scan that stands on a
page owns one pin of it, whatever is created, advanced, moved and destroyed. -/
theorem scans_own_their_pins (s : ScanPins)
    (h : scanPinsMachine.Reach (fun s op => ScansInOrder s op ∧ AdvancesFit s op) s) :
    ScansOwnTheirPins s := by
  have W := pinsOwned_reach h
  refine ⟨W.accounts, fun i fuel scan hat h1 => leaves_own_pins W (current_pages_at hat).2 h1,
    fun ops t hrun hnone => ?_⟩
  have hend : t.store.pins = s.store.pins ∧ PinsOwned t := by
    apply hrun.invariant
    · exact ⟨rfl, W⟩
    · rintro u op v _ ⟨hpins, Wu⟩ ⟨i, rfl⟩ hn
      have hok : ScansInOrder u (.destroy i) ∧ AdvancesFit u (.destroy i) := ⟨trivial, trivial⟩
      refine ⟨?_, pinsOwned_next Wu hok.1 hok.2 hn⟩
      obtain ⟨scan, _, rfl⟩ := Option.map_eq_some_iff.mp hn
      exact hpins
  refine ⟨hend.1, fun n f hc => ?_⟩
  rw [hend.2.accounts.2.1 n f hc, no_owner_left hnone, hend.1, Nat.add_zero]

end

/-! ## A scan that finds no frame -/

/-- `EachAdvance`, decided. -/
def Scan.each_advance (check : BufferPoolManager → FrameID → Nat → Bool) :
    Nat → BufferPoolManager → Scan → Bool
  | 0, _, _ => true
  | fuel + 1, b, scan => (scan.advances b).all fun a => check b a.1 a.2 &&
      match Scan.next_page b scan with
      | (.ok true, b, scan) => scan.each_advance check fuel b
      | _ => true

theorem eachAdvance_of_check {check : BufferPoolManager → FrameID → Nat → Bool}
    {ok : BufferPoolManager → FrameID → Nat → Prop}
    (h : ∀ b page n, check b page n = true → ok b page n) {fuel : Nat} {b : BufferPoolManager}
    {scan : Scan} (hc : scan.each_advance check fuel b = true) : scan.EachAdvance ok fuel b := by
  induction fuel generalizing b scan with
  | zero => trivial
  | succ fuel ih =>
    intro page n hadv
    unfold Scan.each_advance at hc
    rw [hadv, Option.all_some, Bool.and_eq_true] at hc
    refine ⟨h b page n hc.1, fun b' scan' hscan => ?_⟩
    rw [hscan] at hc
    exact ih hc.2

/-- The next page is cached, or `find_next_frame` finds a frame. -/
def next_page_fits (b : BufferPoolManager) (page : FrameID) (n : Nat) : Bool :=
  (b.page_table (some n)).isSome ||
    (b.unpin_page (b.frames page).page_id false).find_next_frame.1.isSome

theorem find_next_frame_allPinned {b : BufferPoolManager} (h : AllPinned b) :
    b.find_next_frame.1 = none := by
  obtain ⟨hfree, hsize, hpinned⟩ := h
  have hlru : b.find_lru = none := by
    rcases hv : b.find_lru with _ | v
    · rfl
    · obtain ⟨f, hc, hpin⟩ := find_lru_some hv
      exact absurd hpin (hpinned v f hc)
  unfold BufferPoolManager.find_next_frame
  rw [hfree]
  simp only
  rw [if_neg (by omega), if_neg (by rw [hlru]; exact fun he => he rfl)]

theorem fits_of_check {b : BufferPoolManager} {page : FrameID} {n : Nat}
    (h : next_page_fits b page n = true) : NextPageFits b page n := by
  rintro ⟨hu, hall⟩
  unfold next_page_fits at h
  rw [hu, find_next_frame_allPinned hall] at h
  cases h

/-- A step in order, whose advances pass a check. -/
def step_checks (fits : BufferPoolManager → FrameID → Nat → Bool) (s : ScanPins) : ScanOp → Bool
  | .create n => decide (Allocated s.store.pool.disk_manager n)
  | .next i fuel => (s.scan_at i).all fun scan => scan.each_advance
      (fun b page n => decide (Allocated b.disk_manager n) && fits b page n) fuel s.store.pool
  | .other call => decide (CallersMatchPins s.store call) && decide (DeletesAllocated s.store call)
  | .move_construct _ | .move_assign _ _ | .destroy _ => true

theorem inOrder_of_checks {fits : BufferPoolManager → FrameID → Nat → Bool} {s : ScanPins}
    {op : ScanOp} (h : step_checks fits s op = true) : ScansInOrder s op := by
  unfold step_checks at h
  cases op with
  | create n =>
    rw [decide_eq_true_eq] at h
    exact h
  | next i fuel =>
    intro scan hat
    simp only [hat, Option.all_some] at h
    refine eachAdvance_of_check (fun b page n hc => ?_) h
    rw [Bool.and_eq_true, decide_eq_true_eq] at hc
    exact hc.1
  | other call =>
    simp only [Bool.and_eq_true, decide_eq_true_eq] at h
    exact h
  | move_construct i => trivial
  | move_assign i j => trivial
  | destroy i => trivial

theorem advancesFit_of_checks {s : ScanPins} {op : ScanOp}
    (h : step_checks next_page_fits s op = true) : AdvancesFit s op := by
  unfold step_checks at h
  cases op with
  | next i fuel =>
    intro scan hat
    simp only [hat, Option.all_some] at h
    refine eachAdvance_of_check (fun b page n hc => ?_) h
    rw [Bool.and_eq_true] at hc
    exact fits_of_check hc.2
  | create n => trivial
  | other call => trivial
  | move_construct i => trivial
  | move_assign i j => trivial
  | destroy i => trivial

/-- A pool of `k` empty frames over a new disk, and no scans. -/
def no_scans (k : Nat) : ScanPins := ⟨new_pool k, []⟩

theorem no_scans_starts (k : Nat) : scanPinsMachine.start (no_scans k) :=
  ⟨new_pool k, new_pool_starts k, rfl⟩

/-- A page without tuples, before page `next_page_id`. -/
def page_before (next_page_id : PageID) : PageData := set_next_page (init zeroPage) next_page_id

/-- A scan goes from page 1 to page 2, where another caller has a pin too, and is moved twice. -/
theorem a_scan_that_is_moved_owns_its_pin : ∃ s,
    s.current_pages = [none, none, some 1] ∧ (s.store.pool.frames 1).pin_count = 2 ∧
    ScansOwnTheirPins s := by
  obtain ⟨s, hs, hp⟩ : ∃ s, scanPinsMachine.execIf (step_checks next_page_fits) (no_scans 2)
      [.other .new_page, .other (.write 1 (page_before (some 2))), .other (.unpin_page 1 true),
        .other .new_page, .other (.write 2 (page_before none)), .create 1, .next 0 2,
        .move_construct 0, .create 1, .move_assign 2 1] = some s ∧
      (s.current_pages == [none, none, some 1] && (s.store.pool.frames 1).pin_count == 2) = true := by
    apply Option.map_eq_some_iff.mp
    decide +kernel
  simp only [Bool.and_eq_true, beq_iff_eq] at hp
  have hcheck : ∀ s op, step_checks next_page_fits s op = true →
      ScansInOrder s op ∧ AdvancesFit s op :=
    fun s op hc => ⟨inOrder_of_checks hc, advancesFit_of_checks hc⟩
  have hrun := Machine.run_of_execIf hcheck hs
  exact ⟨s, hp.1, hp.2, scans_own_their_pins s ((Machine.Reach.start (no_scans_starts 2)).run hrun)⟩

/-- A scan of page 1 finds no frame for page 2. It gave up its pin of page 1, and gives it up again
when it is destroyed: that was the pin of another caller. -/
theorem a_scan_that_finds_no_frame_gives_up_a_pin_of_another_caller :
    ¬ ∀ s, scanPinsMachine.Reach ScansInOrder s → ScansOwnTheirPins s := by
  intro h
  obtain ⟨s, hs, hp⟩ : ∃ s, scanPinsMachine.execIf (step_checks fun _ _ _ => true) (no_scans 2)
      [.other .new_page, .other (.write 1 (page_before (some 2))), .other .new_page,
        .other (.unpin_page 2 true), .create 1, .other .new_page, .next 0 1, .destroy 0] = some s ∧
      (s.store.pool.page_table (some 1) == some 0 && (s.store.pool.frames 0).pin_count == 0 &&
        s.store.pins 1 == 1) = true := by
    apply Option.map_eq_some_iff.mp
    decide +kernel
  simp only [Bool.and_eq_true, beq_iff_eq] at hp
  obtain ⟨⟨hc, hzero⟩, hone⟩ := hp
  have hrun := Machine.run_of_execIf (fun s op hc => inOrder_of_checks hc) hs
  have hcount := (h s ((Machine.Reach.start (no_scans_starts 2)).run hrun)).1.2.1 1 0 hc
  rw [hzero, hone] at hcount
  omega

end duck.table_heap
