-- A heap is a finite map from RIDs to tuples: what the calls of one thread
-- return, and what they leave, is what they would on such a map.
import DuckDbms.HeapLaws
import Mathlib.Data.Set.Finite.Lattice
import Mathlib.Order.Interval.Set.Infinite

open machine duck.slotted_page duck.disk_manager duck.buffer_pool chain

namespace duck.table_heap

/-! ## The map -/

/-- A map from RIDs to tuples, with finitely many of them. -/
structure TupleMap where
  find : RID → Option (List UInt8)
  finite : {rid | find rid ≠ none}.Finite

namespace TupleMap

variable (m : TupleMap)

def put (rid : RID) (t : List UInt8) : TupleMap where
  find := Function.update m.find rid (some t)
  finite := by
    refine (m.finite.insert rid).subset fun r hr => ?_
    by_cases h : r = rid
    · exact Or.inl h
    · refine Or.inr ?_
      simpa [Function.update_of_ne h] using hr

def erase (rid : RID) : TupleMap where
  find := Function.update m.find rid none
  finite := by
    refine m.finite.subset fun r hr => ?_
    by_cases h : r = rid
    · subst h
      simp at hr
    · simpa [Function.update_of_ne h] using hr

end TupleMap

inductive HeapCall
  | insert (tuple : List UInt8)
  | get (rid : RID)
  | update (rid : RID) (tuple : List UInt8)
  | delete (rid : RID)

inductive HeapResult
  | placed (rid : Option RID)
  | tuple (tuple : Option (List UInt8))
  | deleted (was_live : Bool)

/-- What a call does to the map, and what it returns. -/
inductive TupleMap.Does (m : TupleMap) : HeapCall → HeapResult → TupleMap → Prop
  | insert {t : List UInt8} {rid : RID} : m.find rid = none →
      Does m (.insert t) (.placed (some rid)) (m.put rid t)
  | get {rid : RID} : Does m (.get rid) (.tuple (m.find rid)) m
  | update {rid rid' : RID} {t : List UInt8} : m.find rid ≠ none →
      (rid' = rid ∨ m.find rid' = none) →
      Does m (.update rid t) (.placed (some rid')) ((m.erase rid).put rid' t)
  | update_dead {rid : RID} {t : List UInt8} : m.find rid = none →
      Does m (.update rid t) (.placed none) m
  | delete {rid : RID} : Does m (.delete rid) (.deleted (m.find rid).isSome) (m.erase rid)

/-! ## The heap -/

/-- A call on the heap with this first page. -/
def HeapCall.run (b : BufferPoolManager) (first_page_id : PageID) :
    HeapCall → Option (Except String HeapResult × BufferPoolManager)
  | .insert tuple =>
    (insert_tuple b first_page_id tuple).map fun r => (r.1.map .placed, r.2)
  | .get rid =>
    let r := get_tuple b rid
    some (r.1.map .tuple, r.2)
  | .update rid tuple =>
    (update_tuple b first_page_id rid tuple).map fun r => (r.1.map .placed, r.2)
  | .delete rid =>
    let r := delete_tuple b rid
    some (r.1.map .deleted, r.2)

/-- The tuples of the heap whose first page is `h`. -/
noncomputable def tuples (h : Nat) (b : BufferPoolManager) (rid : RID) : Option (List UInt8) :=
  match rid.page_id with
  | some n => tupleOf (rows (· = h) b n) rid.slot_num
  | none => none

/-- One thread calls the heap; nobody else has a page pinned. A call that throws has no next
state. -/
def heapMachine (h : Nat) : Machine BufferPoolManager HeapCall where
  start b := HeapState True (fun _ => 0) (fun _ => False) (· = h) b ∧ 2 ≤ b.pool_capacity ∧
    ∀ rid, tuples h b rid ≠ some []
  next b call :=
    match call.run b (some h) with
    | some (.ok _, b) => some b
    | _ => none

/-- Tuples have 1 to 8180 bytes, and RIDs are on pages of the heap. -/
def OnHeap (h : Nat) (b : BufferPoolManager) : HeapCall → Prop
  | .insert tuple => 1 ≤ tuple.length ∧ tuple.length ≤ 8180
  | .get rid | .delete rid => ∃ n, rid.page_id = some n ∧ OnPath (succ b) h n
  | .update rid tuple => (∃ n, rid.page_id = some n ∧ OnPath (succ b) h n) ∧
      1 ≤ tuple.length ∧ tuple.length ≤ 8180

/-! ## Rows and the map -/

theorem tupleOf_place {rows : List Row} {i : Nat} (hi : MayTake rows i) (t : List UInt8) (j : Nat) :
    tupleOf (place rows i t) j = if j = i then some t else tupleOf rows j := by
  unfold tupleOf place
  rcases hi with hi | ⟨hi, _⟩
  · have hlt := (List.getElem?_eq_some_iff.mp hi).1
    rw [if_pos hlt, List.getElem?_set]
    by_cases hj : j = i
    · rw [if_pos hj.symm, if_pos hj, if_pos hlt]
      rfl
    · rw [if_neg (Ne.symm hj), if_neg hj]
  · rw [if_neg (by omega), List.getElem?_append]
    split
    · rename_i hlt
      rw [if_neg (by omega)]
    · rename_i hge
      by_cases hj : j = i
      · subst hj
        simp [hi]
      · rw [if_neg hj, List.getElem?_eq_none (by simp; omega), List.getElem?_eq_none (by omega)]

theorem tupleOf_mayTake {rows : List Row} {i : Nat} (hi : MayTake rows i) :
    tupleOf rows i = none := by
  unfold tupleOf
  rcases hi with hi | ⟨hi, _⟩
  · rw [hi]
    rfl
  · rw [List.getElem?_eq_none (by omega)]
    rfl

theorem tupleOf_set {rows : List Row} {i : Nat} {old : List UInt8}
    (h : tupleOf rows i = some old) (r : Row) (j : Nat) :
    tupleOf (rows.set i r) j = if j = i then r else tupleOf rows j := by
  have hlt := (List.getElem?_eq_some_iff.mp (tupleOf_eq_some.mp h)).1
  unfold tupleOf
  rw [List.getElem?_set]
  by_cases hj : j = i
  · rw [if_pos hj.symm, if_pos hj, if_pos hlt]
    rfl
  · rw [if_neg (Ne.symm hj), if_neg hj]

theorem tupleOf_set_none (rows : List Row) (i j : Nat) :
    tupleOf (rows.set i none) j = if j = i then none else tupleOf rows j := by
  rcases h : tupleOf rows i with _ | old
  · rw [set_none_eq fun old ho => by rw [tupleOf_eq_some.mpr ho] at h; cases h]
    split
    · rename_i hj
      rw [hj, h]
    · rfl
  · exact tupleOf_set h none j

section
variable {h n slot : Nat} {b b' b0 : BufferPoolManager}

/-- Other rows on one page, in one slot. -/
theorem tuples_update {l : List Row} {r : Option (List UInt8)}
    (hrows : rows (· = h) b' = Function.update (rows (· = h) b) n l)
    (hl : ∀ j, tupleOf l j = if j = slot then r else tupleOf (rows (· = h) b n) j) :
    tuples h b' = Function.update (tuples h b) ⟨some n, slot⟩ r := by
  funext rid
  obtain ⟨p, j⟩ := rid
  by_cases hr : (⟨p, j⟩ : RID) = ⟨some n, slot⟩
  · rw [hr, Function.update_self]
    unfold tuples
    simp only
    rw [hrows, Function.update_self, hl, if_pos rfl]
  · rw [Function.update_of_ne hr]
    unfold tuples
    rcases p with _ | k
    · rfl
    · simp only
      rw [hrows]
      by_cases hk : k = n
      · subst hk
        rw [Function.update_self, hl, if_neg]
        rintro rfl
        exact hr rfl
      · rw [Function.update_of_ne hk]

theorem tuples_congr (hrows : rows (· = h) b' = rows (· = h) b) : tuples h b' = tuples h b := by
  funext rid
  unfold tuples
  rw [hrows]

/-- A heap has finitely many tuples. -/
theorem tuples_finite {evicts : Prop} {pins : Nat → Nat} {pending : Nat → Prop}
    (H : HeapState evicts pins pending (· = h) b) : {rid | tuples h b rid ≠ none}.Finite := by
  obtain ⟨l, hl⟩ := H.forest.ends h rfl
  refine ((List.finite_toSet l).biUnion fun n _ =>
    (Set.finite_lt_nat (rows (· = h) b n).length).image fun slot => (⟨some n, slot⟩ : RID)).subset ?_
  rintro ⟨p, slot⟩ hr
  rcases p with _ | n
  · exact absurd rfl hr
  · have hne : tupleOf (rows (· = h) b n) slot ≠ none := hr
    have hlt : slot < (rows (· = h) b n).length := by
      by_contra hge
      apply hne
      unfold tupleOf
      rw [List.getElem?_eq_none (by omega)]
      rfl
    have hn : n ∈ l := by
      by_contra hno
      rw [rows_off] at hlt
      · simp at hlt
      · rintro ⟨k, rfl, l', hl', hn⟩
        rw [hl'.unique hl] at hn
        exact hno hn
    simp only [Set.mem_iUnion, Set.mem_image, Set.mem_ofPred_eq]
    exact ⟨n, hn, slot, hlt, rfl⟩

/-! ## The calls -/

/-- A pool of two frames or more, with one heap, and nobody has a page pinned. -/
structure MapInv (h : Nat) (b : BufferPoolManager) : Prop where
  heap : HeapState True (fun _ => 0) (fun _ => False) (· = h) b
  frames : 2 ≤ b.pool_capacity
  nonempty : ∀ rid, tuples h b rid ≠ some []

/-- What a call has to do: return, keep the invariant, and do what it does on the map. -/
def Refines (h : Nat) (b : BufferPoolManager) (call : HeapCall) : Prop :=
  ∃ res b', call.run b (some h) = some (.ok res, b') ∧ MapInv h b' ∧
    ∀ m : TupleMap, m.find = tuples h b → ∃ m', m.Does call res m' ∧ m'.find = tuples h b'

theorem MapInv.has_frame (I : MapInv h b) : ¬ AllPinned b :=
  not_allPinned I.heap.store.inv (p := 0) I.frames fun _ hn => absurd rfl hn

theorem MapInv.ran (I : MapInv h b)
    (R : Ran True (· = h) (fun _ => 0) (fun _ => False) b b') (hne : ∀ rid, tuples h b' rid ≠ some []) :
    MapInv h b' :=
  ⟨R.heap, by rw [R.capacity]; exact I.frames, hne⟩

/-- A tuple put into the map is not empty. -/
theorem nonempty_update {f : RID → Option (List UInt8)} (hf : ∀ rid, f rid ≠ some []) {rid : RID}
    {r : Option (List UInt8)} (hr : r ≠ some []) :
    ∀ rid', Function.update f rid r rid' ≠ some [] := by
  intro rid'
  by_cases hrid : rid' = rid
  · subst hrid
    rw [Function.update_self]
    exact hr
  · rw [Function.update_of_ne hrid]
    exact hf rid'

theorem some_ne_nil {t : List UInt8} (ht : 1 ≤ t.length) : some t ≠ some [] := by
  intro he
  rw [Option.some.inj he] at ht
  cases ht

/-- A tuple that found its place is in the map under its RID. -/
theorem tuples_inserted {t : List UInt8}
    (htake : MayTake (rows (· = h) b n) slot)
    (hrows : rows (· = h) b' =
      Function.update (rows (· = h) b) n (place (rows (· = h) b n) slot t)) :
    tuples h b ⟨some n, slot⟩ = none ∧
      tuples h b' = Function.update (tuples h b) ⟨some n, slot⟩ (some t) :=
  ⟨tupleOf_mayTake htake, tuples_update hrows (tupleOf_place htake t)⟩

theorem MapInv.insert (I : MapInv h b) {t : List UInt8} (h1 : 1 ≤ t.length)
    (h8 : t.length ≤ 8180) : Refines h b (.insert t) := by
  obtain ⟨r, b', hr⟩ := I.heap.insert_tuple_returns rfl trivial t
  obtain ⟨R, hins⟩ := I.heap.insert_tuple rfl hr fun he => absurd trivial he
  cases hins with
  | @placed n slot hon htake hrows =>
    obtain ⟨hnone, hmap⟩ := tuples_inserted htake hrows
    refine ⟨.placed (some ⟨some n, slot⟩), b', ?_, I.ran R ?_, ?_⟩
    · simp only [HeapCall.run, hr, Option.map_some, Except.map]
    · rw [hmap]
      exact nonempty_update I.nonempty (some_ne_nil h1)
    · intro m hm
      refine ⟨m.put ⟨some n, slot⟩ t, .insert (by rw [hm, hnone]), ?_⟩
      rw [hmap, ← hm]
      rfl
  | refused _ _ hno => exact absurd ⟨h8, I.frames, fun _ => rfl⟩ hno

theorem MapInv.get (I : MapInv h b) (hn : OnPath (succ b) h n) (slot : Nat) :
    Refines h b (.get ⟨some n, slot⟩) := by
  rcases I.heap.get_tuple ⟨h, rfl, hn⟩ slot with ⟨b', hg, R, hrows⟩ | ⟨_, hall⟩
  swap
  · exact absurd hall I.has_frame
  have hmap := tuples_congr hrows
  refine ⟨.tuple (tuples h b ⟨some n, slot⟩), b', ?_, I.ran R (by rw [hmap]; exact I.nonempty), ?_⟩
  · have hne := I.nonempty ⟨some n, slot⟩
    unfold tuples at hne ⊢
    simp only at hne ⊢
    simp only [HeapCall.run, hg, Except.map]
    rcases ht : tupleOf (rows (· = h) b n) slot with _ | t
    · rfl
    · rw [ht] at hne
      rcases t with _ | ⟨x, t⟩
      · exact absurd rfl hne
      · rfl
  · intro m hm
    refine ⟨m, ?_, by rw [hm, hmap]⟩
    rw [← hm]
    exact .get

theorem MapInv.delete (I : MapInv h b) (hn : OnPath (succ b) h n) (slot : Nat) :
    Refines h b (.delete ⟨some n, slot⟩) := by
  rcases I.heap.delete_tuple ⟨h, rfl, hn⟩ slot with ⟨b', hg, R, hrows⟩ | ⟨_, hall⟩
  swap
  · exact absurd hall.1 I.has_frame
  have hmap : tuples h b' = Function.update (tuples h b) ⟨some n, slot⟩ none :=
    tuples_update hrows (tupleOf_set_none _ _)
  refine ⟨.deleted (tuples h b ⟨some n, slot⟩).isSome, b', ?_, I.ran R ?_, ?_⟩
  · simp only [HeapCall.run, hg, Except.map]
    rfl
  · rw [hmap]
    exact nonempty_update I.nonempty (by simp)
  · intro m hm
    refine ⟨m.erase ⟨some n, slot⟩, ?_, by rw [hmap, ← hm]; rfl⟩
    rw [← hm]
    exact .delete

theorem MapInv.update (I : MapInv h b) (hn : OnPath (succ b) h n) (slot : Nat) {t : List UInt8}
    (h1 : 1 ≤ t.length) (h8 : t.length ≤ 8180) : Refines h b (.update ⟨some n, slot⟩ t) := by
  have hon : OnChain (succ b) (· = h) n := ⟨h, rfl, hn⟩
  obtain ⟨r, b', hr⟩ :=
    I.heap.update_tuple_returns rfl trivial hon slot (show t.length < 65536 by omega)
  obtain ⟨R, hup⟩ := I.heap.update_tuple rfl hon (by omega) hr fun he => absurd trivial he
  have hrun : ∀ o, r = .ok o →
      (HeapCall.update ⟨some n, slot⟩ t).run b (some h) = some (.ok (.placed o), b') := by
    rintro o rfl
    simp only [HeapCall.run, hr, Option.map_some, Except.map]
  cases hup with
  | no_frame hall => exact absurd hall I.has_frame
  | not_found hdead hrows =>
    have hmap := tuples_congr hrows
    refine ⟨_, b', hrun _ rfl, I.ran R (by rw [hmap]; exact I.nonempty), fun m hm => ?_⟩
    refine ⟨m, .update_dead ?_, by rw [hm, hmap]⟩
    rw [hm]
    exact hdead
  | @in_place old hlive hrows =>
    have hmap : tuples h b' = Function.update (tuples h b) ⟨some n, slot⟩ (some t) :=
      tuples_update hrows (tupleOf_set hlive _)
    refine ⟨_, b', hrun _ rfl, I.ran R ?_, fun m hm => ?_⟩
    · rw [hmap]
      exact nonempty_update I.nonempty (some_ne_nil h1)
    · refine ⟨(m.erase ⟨some n, slot⟩).put ⟨some n, slot⟩ t, .update ?_ (Or.inl rfl), ?_⟩
      · rw [hm]
        show tupleOf _ _ ≠ none
        rw [hlive]
        simp
      · rw [hmap, ← hm]
        exact Function.update_idem _ _ _
  | @moved old b1 r hlive hrows hcap hins =>
    have hmid : tuples h b1 = Function.update (tuples h b) ⟨some n, slot⟩ none :=
      tuples_update hrows (tupleOf_set_none _ _)
    cases hins with
    | @placed n' slot' hon' htake hrows' =>
      obtain ⟨hnone, hmap⟩ := tuples_inserted htake hrows'
      rw [hmid] at hnone hmap
      refine ⟨_, b', hrun _ rfl, I.ran R ?_, fun m hm => ?_⟩
      · rw [hmap]
        exact nonempty_update (nonempty_update I.nonempty (by simp)) (some_ne_nil h1)
      · refine ⟨(m.erase ⟨some n, slot⟩).put ⟨some n', slot'⟩ t, .update ?_ ?_, ?_⟩
        · rw [hm]
          show tupleOf _ _ ≠ none
          rw [hlive]
          simp
        · rw [hm]
          by_cases he : (⟨some n', slot'⟩ : RID) = ⟨some n, slot⟩
          · exact Or.inl he
          · rw [Function.update_of_ne he] at hnone
            exact Or.inr hnone
        · rw [hmap, ← hm]
          rfl
    | refused _ _ hno =>
      refine absurd ⟨h8, ?_, fun _ => rfl⟩ hno
      rw [hcap]
      exact I.frames

theorem MapInv.call (I : MapInv h b) {call : HeapCall} (hok : OnHeap h b call) :
    Refines h b call := by
  rcases call with t | ⟨p, slot⟩ | ⟨⟨p, slot⟩, t⟩ | ⟨p, slot⟩
  · exact I.insert hok.1 hok.2
  · obtain ⟨n, rfl, hn⟩ := hok
    exact I.get hn slot
  · obtain ⟨⟨n, rfl, hn⟩, h1, h8⟩ := hok
    exact I.update hn slot h1 h8
  · obtain ⟨n, rfl, hn⟩ := hok
    exact I.delete hn slot

theorem mapInv_reach (hr : (heapMachine h).Reach (OnHeap h) b) : MapInv h b := by
  refine hr.invariant (fun b hs => ⟨hs.1, hs.2.1, hs.2.2⟩) fun b call b' I hok hn => ?_
  obtain ⟨res, b1, hrun, I', _⟩ := I.call hok
  have : (heapMachine h).next b call = some b1 := by
    simp only [heapMachine, hrun]
  rw [this] at hn
  exact Option.some.inj hn ▸ I'

/-- A heap that one thread calls is a map: after any sequence of calls the next call returns,
and what it returns and leaves is what it does to a finite map. -/
theorem a_heap_is_a_finite_map {h : Nat} {b : BufferPoolManager}
    (hr : (heapMachine h).Reach (OnHeap h) b) :
    ∃ m : TupleMap, m.find = tuples h b ∧ ∀ call, OnHeap h b call →
      ∃ res b' m', call.run b (some h) = some (.ok res, b') ∧
        (heapMachine h).Reach (OnHeap h) b' ∧ m.Does call res m' ∧ m'.find = tuples h b' := by
  have I := mapInv_reach hr
  refine ⟨⟨tuples h b, tuples_finite I.heap⟩, rfl, fun call hok => ?_⟩
  obtain ⟨res, b', hrun, _, hdoes⟩ := I.call hok
  obtain ⟨m', h1, h2⟩ := hdoes ⟨tuples h b, tuples_finite I.heap⟩ rfl
  refine ⟨res, b', m', hrun, hr.step hok ?_, h1, h2⟩
  simp only [heapMachine, hrun]

end

/-- A new heap in a pool that has a frame. -/
theorem new_heap_state {k : Nat} (h1 : (create (empty_pool k)).1 = .ok (some 1)) :
    HeapState True (fun _ => 0) (fun _ => False) (· = 1) (create (empty_pool k)).2 ∧
      ∀ n, rows (· = 1) (create (empty_pool k)).2 n = [] := by
  obtain ⟨H, hc⟩ := (heapState_empty_pool k).created (fun h => absurd trivial h) h1
  have hheads : (fun h : Nat => False ∨ h = 1) = (· = 1) := by
    funext h
    simp
  rw [hheads] at H
  refine ⟨H, ?_⟩
  have hempty : contents (create (empty_pool k)).2 1 = emptyMeaning := by
    rw [hc, Function.update_self]
  have hpath : Path (succ (create (empty_pool k)).2) (some 1) [1] := by
    refine .cons ?_
    unfold succ
    rw [hempty]
    exact .nil
  intro n
  by_cases hn : OnChain (succ (create (empty_pool k)).2) (· = 1) n
  · rw [rows_on hn]
    obtain ⟨_, rfl, l, hl, hm⟩ := hn
    rw [hl.unique hpath, List.mem_singleton] at hm
    rw [hm, hempty]
    rfl
  · exact rows_off hn

theorem new_heap_start : (heapMachine 1).start (create (empty_pool 2)).2 := by
  obtain ⟨H, hrows⟩ := new_heap_state (k := 2) rfl
  refine ⟨H, Nat.le_refl 2, ?_⟩
  rintro ⟨_ | n, slot⟩ <;> unfold tuples
  · simp
  · simp [hrows, tupleOf]

/-- A tuple is put in, and the map has it. -/
theorem a_heap_with_one_tuple_is_a_finite_map :
    ∃ b, (heapMachine 1).next (create (empty_pool 2)).2 (.insert [7]) = some b ∧
      ∃ m : TupleMap, m.find = tuples 1 b ∧ ∀ call, OnHeap 1 b call →
        ∃ res b' m', call.run b (some 1) = some (.ok res, b') ∧
          (heapMachine 1).Reach (OnHeap 1) b' ∧ m.Does call res m' ∧ m'.find = tuples 1 b' := by
  obtain ⟨b, hb⟩ : ∃ b, (heapMachine 1).next (create (empty_pool 2)).2 (.insert [7]) = some b := by
    apply Option.isSome_iff_exists.mp
    decide +kernel
  have hok : OnHeap 1 (create (empty_pool 2)).2 (.insert [7]) := ⟨by decide, by decide⟩
  exact ⟨b, hb, a_heap_is_a_finite_map (.step (.start new_heap_start) hok hb)⟩

end duck.table_heap
