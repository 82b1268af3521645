-- Calls of the heaps that run side by side look atomic: each takes effect at one
-- moment, the section that reads or writes its tuple. An update that has to move
-- its tuple takes effect twice.
import DuckDbms.HeapThreads

open machine duck.slotted_page duck.disk_manager duck.buffer_pool chain atomic_object

namespace duck.table_heap

/-! ## The calls on the tuples -/

/-- What a call may do to the tuples at one moment, and what it has come to then. An update that
finds no room on the page of its RID takes its tuple out, and has to insert it elsewhere. -/
inductive HeapCall.Does (m : RID → Option (List UInt8)) : HeapCall →
    Outcome HeapCall (Except String HeapResult) → (RID → Option (List UInt8)) → Prop
  | insert {tuple : List UInt8} {rid : RID} : m rid = none →
      Does m (.insert tuple) (.result (.ok (.placed (some rid))))
        (Function.update m rid (some tuple))
  | insert_throws {tuple : List UInt8} {e : String} : Does m (.insert tuple) (.result (.error e)) m
  | get {rid : RID} : Does m (.get rid) (.result (.ok (.tuple (m rid)))) m
  | delete {rid : RID} :
      Does m (.delete rid) (.result (.ok (.deleted (m rid).isSome))) (Function.update m rid none)
  | update_dead {rid : RID} {tuple : List UInt8} : m rid = none →
      Does m (.update rid tuple) (.result (.ok (.placed none))) m
  | update_in_place {rid : RID} {tuple : List UInt8} : m rid ≠ none →
      Does m (.update rid tuple) (.result (.ok (.placed (some rid))))
        (Function.update m rid (some tuple))
  | update_moves {rid : RID} {tuple : List UInt8} : m rid ≠ none →
      Does m (.update rid tuple) (.rest (.insert tuple)) (Function.update m rid none)

def ThreadAfter.outcome : ThreadAfter → Outcome HeapCall (Except String HeapResult)
  | .return_ result => .result (.ok result)
  | .insert tuple => .rest (.insert tuple)

def InsertCall.standing (c : InsertCall) : Stage HeapCall (Except String HeapResult) :=
  match c.pc with
  | .leave _ _ (.return_ result) => .decided (result.map .placed)
  | .done result => .returned (result.map .placed)
  | _ => .pending (.insert c.tuple_data)

/-- Where a call stands for the others: a read, a write or a delete takes effect in its section,
and an insert when it places its tuple, or gives up. -/
def HeapThread.stage (t : HeapThread) : Stage HeapCall (Except String HeapResult) :=
  match t.pc with
  | .fetch _ | .visit _ _ => .pending t.call
  | .leave _ _ _ after => after.outcome.stage
  | .insert c => c.standing
  | .done result => .returned result

/-! ## The tuple in one slot -/

/-- The RID that a call goes to. -/
def HeapCall.rid : HeapCall → Option RID
  | .insert _ => none
  | .get rid | .delete rid | .update rid _ => some rid

/-- A tuple that fits on a page. -/
def FitsPage (tuple : List UInt8) : Prop := 1 ≤ tuple.length ∧ tuple.length ≤ 8180

def HeapCall.Fits : HeapCall → Prop
  | .insert tuple | .update _ tuple => FitsPage tuple
  | .get _ | .delete _ => True

/-- What the section of a call does on a page: it is all about slot `slot`, which holds `v`
afterwards. -/
structure VisitsSlot (call : HeapCall) (page : Page) (n slot : Nat) (after : ThreadAfter)
    (d : PageData) (dirty : Bool) (v : Option (List UInt8)) : Prop where
  section_eq : call.section_ page = some (after, d, dirty)
  good : Good d
  next : d.header.next_page_id = page.data.header.next_page_id
  marked : dirty = true ∨ meaning d = meaning page.data
  slots : ∀ j, tupleOf (rowsOf d) j = if j = slot then v else tupleOf (rowsOf page.data) j
  nonempty : v ≠ some []
  does : ∀ m : RID → Option (List UInt8), m ⟨some n, slot⟩ = tupleOf (rowsOf page.data) slot →
    call.Does m after.outcome (Function.update m ⟨some n, slot⟩ v)
  placed : ∀ rid, after = .return_ (.placed (some rid)) → rid = ⟨some n, slot⟩
  moves : ∀ tuple, after = .insert tuple → FitsPage tuple

section
variable {page : Page} {n slot : Nat}

theorem tupleOf_self (rows : List Row) (slot j : Nat) :
    tupleOf rows j = if j = slot then tupleOf rows slot else tupleOf rows j := by
  split
  · rename_i h
    rw [h]
  · rfl

theorem visits_get (g : Good page.data) (hne : tupleOf (rowsOf page.data) slot ≠ some []) :
    VisitsSlot (.get ⟨some n, slot⟩) page n slot
      (.return_ (.tuple (tupleOf (rowsOf page.data) slot))) page.data false
      (tupleOf (rowsOf page.data) slot) := by
  refine ⟨?_, g, rfl, Or.inr rfl, tupleOf_self _ _, hne, fun m hm => ?_, by simp, by simp⟩
  · have hview : (if (slotted_page.get_tuple page.data slot).isEmpty then none
        else some (slotted_page.get_tuple page.data slot)) = tupleOf (rowsOf page.data) slot := by
      unfold tupleOf at hne ⊢
      rw [get_tuple_eq]
      rw [rowsOf_getElem?] at hne ⊢
      by_cases hlt : slot < page.data.header.slot_count
      · rw [if_pos hlt] at hne
        rw [if_pos hlt, if_pos hlt]
        rcases hr : rowOf page.data slot with _ | _ | ⟨x, t⟩
        · rfl
        · rw [hr] at hne
          exact absurd rfl hne
        · rfl
      · rw [if_neg hlt, if_neg hlt]
        rfl
    unfold HeapCall.section_
    simp only
    rw [hview]
  · rw [← hm, Function.update_eq_self]
    exact .get

theorem visits_delete (g : Good page.data) :
    ∃ d dirty, VisitsSlot (.delete ⟨some n, slot⟩) page n slot
      (.return_ (.deleted (tupleOf (rowsOf page.data) slot).isSome)) d dirty none := by
  rcases delete_tuple_spec g slot with ⟨old, d1, d2, d3, d4, d5⟩ | ⟨d1, d2⟩
  · refine ⟨_, true, ?_, d3, by rw [d5], Or.inl rfl, fun j => ?_, by simp, fun m hm => ?_,
      by simp, by simp⟩
    · unfold HeapCall.section_
      simp only
      rw [d2, tupleOf_eq_some.mpr d1]
      rfl
    · rw [d4]
      exact tupleOf_set_none _ _ _
    · rw [← hm]
      exact .delete
  · have hnone : tupleOf (rowsOf page.data) slot = none := by
      rcases ht : tupleOf (rowsOf page.data) slot with _ | old
      · rfl
      · exact absurd (tupleOf_eq_some.mp ht) (d2 old)
    refine ⟨_, false, ?_, g, rfl, Or.inr rfl, fun j => ?_, by simp, fun m hm => ?_,
      by simp, by simp⟩
    · unfold HeapCall.section_
      simp only
      rw [d1, hnone]
      rfl
    · rw [← hnone]
      exact tupleOf_self _ _ _
    · rw [← hm]
      exact .delete

theorem visits_update (g : Good page.data) (hid : page.page_id = some n) {tuple : List UInt8}
    (hfits : FitsPage tuple) (hne : tupleOf (rowsOf page.data) slot ≠ some []) :
    ∃ after d dirty v,
      VisitsSlot (.update ⟨some n, slot⟩ tuple) page n slot after d dirty v := by
  have hlen : tuple.length < 65536 := by
    have := hfits.2
    omega
  rcases update_section_spec slot g hid hlen with
    ⟨dirty, u1, u2⟩ | ⟨old, d, u1, u2, u3, u4, u5⟩ | ⟨old, d, u1, u2, u3, u4, u5⟩
  · refine ⟨.return_ (.placed none), page.data, dirty, tupleOf (rowsOf page.data) slot, ?_, g, rfl,
      Or.inr rfl, tupleOf_self _ _, hne, fun m hm => ?_, by simp, by simp⟩
    · unfold HeapCall.section_
      simp only
      rw [u1]
    · rw [← hm, Function.update_eq_self]
      exact .update_dead (hm.trans u2)
  · refine ⟨.return_ (.placed (some ⟨some n, slot⟩)), d, true, some tuple, ?_, u3, u4, Or.inl rfl,
      fun j => ?_, some_ne_nil hfits.1, fun m hm => ?_, ?_, by simp⟩
    · unfold HeapCall.section_
      simp only
      rw [u1]
    · rw [u5]
      exact tupleOf_set u2 _ _
    · exact .update_in_place (by rw [hm, u2]; simp)
    · rintro rid ⟨⟩
      rfl
  · refine ⟨.insert tuple, d, true, none, ?_, u3, u4, Or.inl rfl, fun j => ?_, by simp,
      fun m hm => ?_, by simp, ?_⟩
    · unfold HeapCall.section_
      simp only
      rw [u1]
    · rw [u5]
      exact tupleOf_set_none _ _ _
    · exact .update_moves (by rw [hm, u2]; simp)
    · rintro t ⟨⟩
      exact hfits

/-- The section of any call that goes to a RID. -/
theorem visits_slot {call : HeapCall} (hrid : call.rid = some ⟨some n, slot⟩) (hfits : call.Fits)
    (g : Good page.data) (hid : page.page_id = some n)
    (hne : tupleOf (rowsOf page.data) slot ≠ some []) :
    ∃ after d dirty v, VisitsSlot call page n slot after d dirty v := by
  cases call with
  | insert tuple => cases hrid
  | get rid =>
    cases hrid
    exact ⟨_, _, _, _, visits_get g hne⟩
  | delete rid =>
    cases hrid
    obtain ⟨d, dirty, V⟩ : ∃ d dirty, VisitsSlot (.delete ⟨some n, slot⟩) page n slot
        (.return_ (.deleted (tupleOf (rowsOf page.data) slot).isSome)) d dirty none :=
      visits_delete g
    exact ⟨_, d, dirty, _, V⟩
  | update rid tuple =>
    cases hrid
    exact visits_update g hid hfits hne

end

/-! ## The pins of the threads -/

section
variable {s : InsertSystem} {i : Nat} {c c' : InsertCall}

/-- The call has nothing pinned, and no page of its own. -/
def Pc.idle : Pc → Bool
  | .fetch | .done _ => true
  | _ => false

theorem idle_page {pc : Pc} (h : pc.idle = true) : pc.page = none ∧ pc.pins_new = false ∧
    pc.dirty = false ∧ pc.unsettled = false := by
  cases pc with
  | fetch | done => exact ⟨rfl, rfl, rfl, rfl⟩
  | try_page | create | init_new | unpin_new | relink | read_new | delete_new | leave => cases h

theorem not_fresh_idle (h : c.pc.idle = true) (m : Nat) : ¬ c.fresh m := by
  rintro ⟨hu, _⟩
  rw [(idle_page h).2.2.2] at hu
  cases hu

theorem InsertInv.forget (I : InsertInv s) : InsertInv { s with deallocated := [] } :=
  ⟨I.heap, I.calls, I.apart, fun _ hm => by cases hm⟩

/-- A call that has nothing gives its place to another one. -/
theorem InsertInv.swap (I : InsertInv s) (hc : s.calls[i]? = some c) (hidle : c.pc.idle = true)
    (hidle' : c'.pc.idle = true) (C : CallInv (· ∈ s.heaps) s.pool c') :
    InsertInv { s with calls := s.calls.set i c' } := by
  obtain ⟨p1, p2, p3, _⟩ := idle_page hidle
  obtain ⟨q1, q2, q3, _⟩ := idle_page hidle'
  refine ⟨?_, fun d hd => ?_, fun j k d e hd he hjk m hdm hem => ?_, fun m hm => ?_⟩
  · have H := I.heap
    rw [pinsOf_split hc, pendingOf_split hc, pins_idle p1 p2, pends_none p3 p2] at H
    show HeapState True (pinsOf (s.calls.set i c')) (pendingOf (s.calls.set i c')) _ _
    rw [pinsOf_set hc, pendingOf_set hc, pins_idle q1 q2, pends_none q3 q2]
    exact H
  · rcases (threads.mem_set_iff_others hc c').mp hd with rfl | hd
    · exact C
    · exact I.calls d ((threads.mem_iff_others hc).mpr (Or.inr hd))
  · rcases threads.getElem?_set_cases hd with ⟨_, rfl⟩ | ⟨_, hd'⟩
    · exact not_fresh_idle hidle' m hdm
    · rcases threads.getElem?_set_cases he with ⟨_, rfl⟩ | ⟨_, he'⟩
      · exact not_fresh_idle hidle' m hem
      · exact I.apart j k d e hd' he' hjk m hdm hem
  · obtain ⟨h1, h2⟩ := I.gone m hm
    refine ⟨h1, fun d hd => ?_⟩
    rcases (threads.mem_set_iff_others hc c').mp hd with rfl | hd
    · exact not_fresh_idle hidle' m
    · exact h2 d ((threads.mem_iff_others hc).mpr (Or.inr hd))

/-- A call that starts with nothing joins the others. -/
theorem InsertInv.join (I : InsertInv s) (hidle : c.pc.idle = true)
    (C : CallInv (· ∈ s.heaps) s.pool c) : InsertInv { s with calls := s.calls ++ [c] } := by
  obtain ⟨p1, p2, p3, _⟩ := idle_page hidle
  have hold : ∀ (j : Nat) (d : InsertCall) (m : Nat), (s.calls ++ [c])[j]? = some d →
      d.fresh m → s.calls[j]? = some d := by
    intro j d m hd hm
    rcases Nat.lt_or_ge j s.calls.length with hj | hj
    · rwa [List.getElem?_append_left hj] at hd
    · rw [List.getElem?_append_right hj] at hd
      have hmem := List.mem_of_getElem? hd
      rw [List.mem_singleton] at hmem
      subst hmem
      exact absurd hm (not_fresh_idle hidle m)
  refine ⟨?_, fun d hd => ?_, fun j k d e hd he hjk m hdm hem =>
    I.apart j k d e (hold j d m hd hdm) (hold k e m he hem) hjk m hdm hem, fun m hm => ?_⟩
  · have hpins : pinsOf (s.calls ++ [c]) = pinsOf s.calls := by
      have hidle : (fun m => pinsOf s.calls m + c.pins m) = pinsOf s.calls := pins_idle p1 p2
      refine Eq.trans (funext fun n => ?_) hidle
      simp [pinsOf]
    have hpend : pendingOf (s.calls ++ [c]) = pendingOf s.calls := by
      have hidle : (fun m => pendingOf s.calls m ∨ c.pending m) = pendingOf s.calls :=
        pends_none p3 p2
      refine Eq.trans (funext fun n => ?_) hidle
      simp [pendingOf, or_and_right, exists_or]
    show HeapState True (pinsOf (s.calls ++ [c])) (pendingOf (s.calls ++ [c])) _ _
    rw [hpins, hpend]
    exact I.heap
  · rcases List.mem_append.mp hd with hd | hd
    · exact I.calls d hd
    · rw [List.mem_singleton] at hd
      exact hd ▸ C
  · obtain ⟨h1, h2⟩ := I.gone m hm
    refine ⟨h1, fun d hd => ?_⟩
    rcases List.mem_append.mp hd with hd | hd
    · exact h2 d hd
    · rw [List.mem_singleton] at hd
      exact hd ▸ not_fresh_idle hidle m

/-- The sections on other pages leave a call what it keeps. -/
theorem CallInv.same_links {heads : Nat → Prop} {b b' : BufferPoolManager}
    (D : CallInv heads b c) (hpath : ∀ h, heads h → ∀ m, OnPath (succ b') h m ↔ OnPath (succ b) h m)
    (htable : b'.page_table = b.page_table) (hdisk : b'.disk_manager = b.disk_manager)
    (hsame : ∀ m, ¬ OnChain (succ b) heads m → contents b' m = contents b m) :
    CallInv heads b' c := by
  refine ⟨D.size, fun hr => ?_, by rw [htable]; exact D.frame, D.unused, D.creating,
    fun hu => ?_, by rw [htable]; exact D.new_frame, fun p hp => ?_, D.back, D.linked,
    D.given_back⟩
  · obtain ⟨h, n, h1, h2, h3, h4⟩ := D.heap hr
    exact ⟨h, n, h1, h2, h3, (hpath h h2 n).mpr h4⟩
  · obtain ⟨x, x1, x2, x3, x4, x5⟩ := D.new hu
    refine ⟨x, x1, x2, by rw [hdisk]; exact x3, ?_, by rw [hsame x x4]; exact x5⟩
    rintro ⟨k, hk, hon⟩
    exact x4 ⟨k, hk, (hpath k hk x).mp hon⟩
  · obtain ⟨h, m, h1, h2, h3⟩ := D.target p hp
    obtain ⟨k, _, k1, k2, _⟩ := D.heap (running_of_target hp)
    obtain rfl : h = k := Option.some.inj (h1.symm.trans k1)
    exact ⟨h, m, h1, h2, (hpath h k2 m).mpr h3⟩

/-- The section of a visit, which leaves the page with other rows. -/
theorem InsertInv.visit (I : InsertInv s) (hc : s.calls[i]? = some c) {page : FrameID}
    (hpc : c.pc = .try_page page) {n : Nat} (hid : c.page_id = some n) {d : PageData}
    {dirty : Bool} {r : Except String (Option RID)} (hgood : Good d)
    (hnext : d.header.next_page_id = succ s.pool n)
    (hmarked : dirty = true ∨ meaning d = contents s.pool n) :
    InsertInv { s with
        pool := s.pool.set_data page d
        calls := s.calls.set i { c with pc := .leave page dirty (.return_ r) } } ∧
      (∀ h, h ∈ s.heaps → ∀ m, OnPath (succ (s.pool.set_data page d)) h m ↔
        OnPath (succ s.pool) h m) ∧
      rows (· ∈ s.heaps) (s.pool.set_data page d) =
        Function.update (rows (· ∈ s.heaps) s.pool) n (rowsOf d) := by
  have hmem : c ∈ s.calls := List.mem_of_getElem? hc
  have C := I.calls c hmem
  have hrun : c.pc.running = true := by rw [hpc]; rfl
  have H := I.heap
  rw [pinsOf_split hc, pendingOf_split hc] at H
  obtain ⟨h, n', h1, h2, h3, h4, ht, _, _, hg, _⟩ := visited H C (f := page) (by rw [hpc]; rfl)
  obtain rfl : n = n' := Option.some.inj (hid.symm.trans h3)
  have hon : OnChain (succ s.pool) (· ∈ s.heaps) n := ⟨h, h2, h4⟩
  generalize hc' : ({ c with pc := .leave page dirty (.return_ r) } : InsertCall) = c'
  have hpc' : c'.pc = .leave page dirty (.return_ r) := by rw [← hc']
  have hid' : c'.page_id = some n := by rw [← hc']; exact hid
  have S := H.store
  rw [pins_one (by rw [hpc]; rfl) (by rw [hpc]; rfl) hid,
    pends_none (by rw [hpc]; rfl) (by rw [hpc]; rfl)] at S
  obtain ⟨S', hcont⟩ := S.set_data
    (fun m => pendingOf (s.calls.eraseIdx i) m ∨ c'.pending m) ht
    (by rw [pinMore_apply, if_pos rfl]; omega) d (fun m => Or.inl)
    (fun m hm => hm.imp id fun hp => by
      rcases hp with ⟨_, hp⟩ | ⟨hp, _⟩
      · exact (Option.some.inj (hid'.symm.trans hp)).symm
      · rw [hpc'] at hp
        cases hp)
    (fun _ => by
      rcases hmarked with hd | hd
      · exact Or.inl (Or.inr (Or.inl ⟨by rw [hpc']; exact hd, hid'⟩))
      · exact Or.inr (Or.inr hd))
  rw [← pins_one (c := c') (f := page) (by rw [hpc']; rfl) (by rw [hpc']; rfl) hid'] at S'
  have hkeep : ∀ m, OnChain (succ s.pool) (· ∈ s.heaps) m →
      (contents (s.pool.set_data page d) m).next = (contents s.pool m).next ∧
        (contents (s.pool.set_data page d) m).good := by
    intro m hm
    rw [hcont]
    by_cases hmn : m = n
    · subst hmn
      rw [Function.update_self]
      exact ⟨hnext, hgood⟩
    · rw [Function.update_of_ne hmn]
      exact ⟨rfl, (H.pages m hm).1⟩
  obtain ⟨K, hp⟩ := H.keep S' hkeep fun m hm => hm.elim (fun h => (H.pages m h).2)
    fun h => h ▸ H.metadata
  have hsame : ∀ m, ¬ OnChain (succ s.pool) (· ∈ s.heaps) m →
      contents (s.pool.set_data page d) m = contents s.pool m := by
    intro m hm
    have hmn : m ≠ n := fun he => hm (he ▸ hon)
    rw [hcont, Function.update_of_ne hmn]
  have hnew : ∀ m, ¬ c'.fresh m := by
    rintro m ⟨hu, _⟩
    rw [hpc'] at hu
    cases hu
  refine ⟨⟨?_, fun e he => ?_, fun j k e f he hf hjk m hem hfm => ?_, fun m hm => ?_⟩, hp, ?_⟩
  · show HeapState True (pinsOf (s.calls.set i c')) (pendingOf (s.calls.set i c')) _ _
    rw [pinsOf_set hc, pendingOf_set hc]
    exact K
  · rcases (threads.mem_set_iff_others hc c').mp he with rfl | he
    · subst hc'
      refine C.turn hrun rfl rfl rfl rfl id (by simp) (fun k hk m => (hp k hk m).mpr) ?_
        (by simp [Pc.unsettled]) (by simp [Pc.next_page]) (by simp [Pc.target]) (by simp)
        C.linked C.given_back
      rintro f ⟨rfl⟩
      rw [hid]
      exact ht
    · exact (I.calls e ((threads.mem_iff_others hc).mpr (Or.inr he))).same_links hp rfl rfl hsame
  · rcases threads.getElem?_set_cases he with ⟨_, rfl⟩ | ⟨_, he'⟩
    · exact hnew m hem
    · rcases threads.getElem?_set_cases hf with ⟨_, rfl⟩ | ⟨_, hf'⟩
      · exact hnew m hfm
      · exact I.apart j k e f he' hf' hjk m hem hfm
  · obtain ⟨g1, g2⟩ := I.gone m hm
    refine ⟨?_, fun e he => ?_⟩
    · rintro ⟨k, hk, hon⟩
      exact g1 ⟨k, hk, (hp k hk m).mp hon⟩
    · rcases (threads.mem_set_iff_others hc c').mp he with rfl | he
      · exact hnew m
      · exact g2 e ((threads.mem_iff_others hc).mpr (Or.inr he))
  · refine rows_update (fun m => ?_) hon hcont
    constructor
    · rintro ⟨k, hk, h⟩
      exact ⟨k, hk, (hp k hk m).mp h⟩
    · rintro ⟨k, hk, h⟩
      exact ⟨k, hk, (hp k hk m).mpr h⟩

end

/-! ## What a step does to the tuples -/

section
variable {heads : Nat → Prop} {b b' : BufferPoolManager}

theorem tuplesIn_congr (hrows : rows heads b' = rows heads b) : tuplesIn heads b' = tuplesIn heads b := by
  unfold tuplesIn
  rw [hrows]

/-- Other rows on one page, in one slot. -/
theorem tuplesIn_update {n slot : Nat} {l : List Row} {v : Option (List UInt8)}
    (hrows : rows heads b' = Function.update (rows heads b) n l)
    (hl : ∀ j, tupleOf l j = if j = slot then v else tupleOf (rows heads b n) j) :
    tuplesIn heads b' = Function.update (tuplesIn heads b) ⟨some n, slot⟩ v := by
  funext rid
  obtain ⟨p, j⟩ := rid
  rcases p with _ | k
  · rw [Function.update_of_ne (by simp)]
    rfl
  unfold tuplesIn
  simp only [Option.bind_some, hrows]
  by_cases hk : k = n
  · subst hk
    rw [Function.update_self, hl]
    by_cases hj : j = slot
    · subst hj
      rw [if_pos rfl, Function.update_self]
    · rw [if_neg hj, Function.update_of_ne (by simp [hj])]
      rfl
  · rw [Function.update_of_ne hk, Function.update_of_ne (by simp [hk])]
    rfl

/-- A fetch finds no frame only for a page that has none. -/
theorem fetch_page_none {p : PageID} (h : b.fetch_page p = (.ok none, b')) :
    b.page_table p = none := by
  unfold BufferPoolManager.fetch_page BufferPoolManager.find_cached_page at h
  rcases ht : b.page_table p with _ | f
  · rfl
  · rw [ht] at h
    cases h

theorem brings_in_of_not_found {c : InsertCall} (hpc : c.pc = .fetch)
    (h : insert_step b c = some (b', { c with pc := .done (.ok none) })) : c.brings_in b := by
  unfold insert_step at h
  unfold InsertCall.brings_in
  rw [hpc] at h ⊢
  simp only at h ⊢
  rcases hf : b.fetch_page c.page_id with ⟨e | _ | f, b1⟩
  · rw [hf] at h
    simp at h
  · exact fetch_page_none hf
  · rw [hf] at h
    simp at h

variable {outside : Nat → Nat} {pends : Nat → Prop} {c c' : InsertCall}

/-- A step of an insert that finds frames. -/
theorem insert_moves (H : HeapState True (fun m => outside m + c.pins m)
      (fun m => pends m ∨ c.pending m) heads b) (C : CallInv heads b c)
    (hstep : insert_step b c = some (b', c')) (W : Stepped True heads outside pends b c b' c')
    (hframe : c.brings_in b → ¬ AllPinned b) :
    Moves HeapCall.Does (tuplesIn heads b) (tuplesIn heads b') c.standing c'.standing
      (ThreadPc.insert c').result ∧
    (∀ rid, c'.pc.result = some (.ok (some rid)) → c.pc.result = some (.ok (some rid)) ∨
      tuplesIn heads b' = Function.update (tuplesIn heads b) rid (some c.tuple_data) ∧
        rid.page_id = c.page_id) ∧
    (tuplesIn heads b' = tuplesIn heads b ∨
      ∃ rid, tuplesIn heads b' = Function.update (tuplesIn heads b) rid (some c.tuple_data)) := by
  rcases W.rows H C with ⟨hrows, hres⟩ | ⟨page, n, slot, hpc, hid, hpc', htake, hrows⟩
  · have hsame := tuplesIn_congr hrows
    refine ⟨?_, fun rid hr => Or.inl (hres rid hr), Or.inl hsame⟩
    have M := W.move
    unfold InsertCall.standing ThreadPc.result
    cases M with
    | found hpc | last hpc | full hpc | created hpc | inited hpc | unpinned hpc | linked hpc
    | passed hpc | read hpc | gave_back hpc | continued hpc =>
      simp only [hpc]
      exact .quiet hsame
    | returned hpc =>
      simp only [hpc]
      exact .returned hsame
    | not_found hpc hall => exact absurd hall (hframe (brings_in_of_not_found hpc hstep))
    | not_created hpc hall =>
      refine absurd hall (hframe ?_)
      unfold InsertCall.brings_in
      rw [hpc]
      trivial
    | placed hpc =>
      have := hres _ rfl
      rw [hpc] at this
      cases this
    | stuck hpc =>
      simp only [hpc]
      rw [hsame]
      exact .effect (o := .result _) HeapCall.Does.insert_throws
  · have hput := tuplesIn_update (v := some c.tuple_data) hrows (tupleOf_place htake c.tuple_data)
    refine ⟨?_, fun rid hr => ?_, Or.inr ⟨_, hput⟩⟩
    · unfold InsertCall.standing ThreadPc.result
      simp only [hpc, hpc']
      rw [hput]
      exact .effect (o := .result _) (HeapCall.Does.insert (tupleOf_mayTake htake))
    · rw [hpc'] at hr
      cases hr
      exact Or.inr ⟨hput, hid.symm⟩

end

/-! ## What every step keeps -/

/-- The RID of a call that has yet to visit its page. -/
def ThreadPc.rid : ThreadPc → Option RID
  | .fetch rid | .visit rid _ => some rid
  | _ => none

/-- What a call keeps beside its pins. It places its tuple on a page of its heap. -/
structure HeapThread.On (heads : Nat → Prop) (b : BufferPoolManager) (t : HeapThread) : Prop where
  heap : heads t.first_page_id
  visits : ∀ rid, t.pc.rid = some rid → t.call.rid = some rid ∧ t.call.Fits
  moves : ∀ rid page dirty tuple, t.pc = .leave rid page dirty (.insert tuple) → FitsPage tuple
  inserts : ∀ c, t.pc = .insert c → c.first_page_id = some t.first_page_id ∧ FitsPage c.tuple_data
  placed : ∀ rid, t.stage.result = some (.ok (.placed (some rid))) →
    ∃ n, rid.page_id = some n ∧ OnPath (succ b) t.first_page_id n

structure ThreadsInv (s : HeapThreads) : Prop where
  inserts : InsertInv s.inserts
  threads : ∀ t ∈ s.threads, t.On (· ∈ s.heaps) s.pool
  nonempty : ∀ rid, s.tuples rid ≠ some []
  atomic : LooksAtomic (· = s.initial) HeapCall.Does s.history s.tuples
    (s.threads.map HeapThread.stage)

section
variable {s : HeapThreads} {i : Nat} {t t' : HeapThread} {b' : BufferPoolManager}

theorem inserts_get (ht : s.threads[i]? = some t) : s.inserts.calls[i]? = some t.as_insert := by
  show (s.threads.map HeapThread.as_insert)[i]? = _
  rw [List.getElem?_map, ht]
  rfl

/-- A step of a call that is a step of an insert. -/
theorem ThreadsInv.stepped (I : ThreadsInv s) (ht : s.threads[i]? = some t) {c' : InsertCall}
    (hok : ThreadsFit s (.step i)) (hins : insert_step s.pool t.as_insert = some (b', c')) :
    InsertInv ⟨b', s.heaps, s.inserts.calls.set i c', []⟩ ∧
      Stepped True (· ∈ s.heaps) (pinsOf (s.inserts.calls.eraseIdx i))
        (pendingOf (s.inserts.calls.eraseIdx i)) s.pool t.as_insert b' c' := by
  have hc := inserts_get ht
  have hn : s.inserts.next (.step i) = some ⟨b', s.heaps, s.inserts.calls.set i c',
      recordDeallocated t.as_insert c' []⟩ := by
    unfold InsertSystem.next
    simp only [hc, Option.bind_some]
    show (insert_step s.pool t.as_insert).map _ = _
    rw [hins]
    rfl
  obtain ⟨c, b1, c1, hc1, _, hstep, W, _⟩ := I.inserts.next_step hn
  obtain rfl : t.as_insert = c := Option.some.inj (hc.symm.trans hc1)
  obtain ⟨rfl, rfl⟩ : b' = b1 ∧ c' = c1 := by
    have := hins.symm.trans hstep
    simpa using this
  exact ⟨(insertInv_next I.inserts hok.1 hn).forget, W⟩

theorem ThreadsInv.heap (I : ThreadsInv s) (ht : s.threads[i]? = some t) :
    HeapState True (fun m => pinsOf (s.inserts.calls.eraseIdx i) m + t.as_insert.pins m)
      (fun m => pendingOf (s.inserts.calls.eraseIdx i) m ∨ t.as_insert.pending m) (· ∈ s.heaps)
      s.pool := by
  have H := I.inserts.heap
  rw [pinsOf_split (inserts_get ht), pendingOf_split (inserts_get ht)] at H
  exact H

theorem ThreadsInv.call (I : ThreadsInv s) (ht : s.threads[i]? = some t) :
    CallInv (· ∈ s.heaps) s.pool t.as_insert :=
  I.inserts.calls _ (List.mem_of_getElem? (inserts_get ht))

theorem HeapThread.On.mono {heads : Nat → Prop} {b : BufferPoolManager} (O : t.On heads b)
    (hpath : ∀ h, heads h → ∀ m, OnPath (succ b) h m → OnPath (succ b') h m) : t.On heads b' := by
  refine ⟨O.heap, O.visits, O.moves, O.inserts, fun rid hr => ?_⟩
  obtain ⟨n, hn, hon⟩ := O.placed rid hr
  exact ⟨n, hn, hpath _ O.heap n hon⟩

/-- What a step of a call owes to the others. -/
theorem ThreadsInv.go_on (I : ThreadsInv s) (ht : s.threads[i]? = some t)
    (J : InsertInv ⟨b', s.heaps, s.inserts.calls.set i t'.as_insert, []⟩)
    (hpath : ∀ h, h ∈ s.heaps → ∀ m, OnPath (succ s.pool) h m → OnPath (succ b') h m)
    (O : t'.On (· ∈ s.heaps) b')
    (M : Moves HeapCall.Does s.tuples (tuplesIn (· ∈ s.heaps) b') t.stage t'.stage t'.pc.result)
    (hne : ∀ rid, tuplesIn (· ∈ s.heaps) b' rid ≠ some []) :
    ThreadsInv { s with
      pool := b'
      threads := s.threads.set i t'
      history := s.history ++ (t'.pc.result.map (Moment.returned i)).toList } := by
  refine ⟨?_, fun u hu => ?_, hne, ?_⟩
  · have hset : (s.threads.set i t').map HeapThread.as_insert =
        s.inserts.calls.set i t'.as_insert := List.map_set
    unfold HeapThreads.inserts
    simp only
    rw [hset]
    exact J
  · rcases List.mem_or_eq_of_mem_set hu with hu | rfl
    · exact (I.threads u hu).mono hpath
    · exact O
  · have hset : (s.threads.set i t').map HeapThread.stage =
        (s.threads.map HeapThread.stage).set i t'.stage := List.map_set
    show LooksAtomic _ _ _ (tuplesIn (· ∈ s.heaps) b') _
    rw [hset]
    refine I.atomic.move ?_ M
    rw [List.getElem?_map, ht]
    rfl

/-! ### Place by place -/

theorem callInv_visits {heads : Nat → Prop} {b : BufferPoolManager} {rid : RID} {n : Nat}
    (hheap : heads t.first_page_id) (hrid : rid.page_id = some n)
    (hon : OnPath (succ b) t.first_page_id n) : CallInv heads b (t.visits rid .fetch) :=
  ⟨fun _ => Nat.zero_le _, fun _ => ⟨_, n, rfl, hheap, hrid, hon⟩, by simp [HeapThread.visits, Pc.page],
    fun _ => rfl, by simp [HeapThread.visits], by simp [HeapThread.visits, Pc.unsettled],
    by simp [HeapThread.visits, Pc.next_page], by simp [HeapThread.visits, Pc.target],
    by simp [HeapThread.visits], by simp [HeapThread.visits], by simp [HeapThread.visits]⟩

theorem callInv_over {heads : Nat → Prop} {b : BufferPoolManager} (t : HeapThread) (rid : RID)
    (r : Except String (Option RID)) : CallInv heads b (t.visits rid (.done r)) :=
  ⟨by simp [HeapThread.visits, Pc.running], by simp [HeapThread.visits, Pc.running],
    by simp [HeapThread.visits, Pc.page],
    fun _ => rfl, by simp [HeapThread.visits], by simp [HeapThread.visits, Pc.unsettled],
    by simp [HeapThread.visits, Pc.next_page], by simp [HeapThread.visits, Pc.target],
    by simp [HeapThread.visits], by simp [HeapThread.visits], by simp [HeapThread.visits]⟩

/-- A step of a visit, but for its section, leaves the tuples as they are. -/
theorem ThreadsInv.same_tuples (I : ThreadsInv s) (ht : s.threads[i]? = some t) {c' : InsertCall}
    (W : Stepped True (· ∈ s.heaps) (pinsOf (s.inserts.calls.eraseIdx i))
      (pendingOf (s.inserts.calls.eraseIdx i)) s.pool t.as_insert b' c')
    (hpc : ∀ page, t.as_insert.pc ≠ .try_page page) :
    tuplesIn (· ∈ s.heaps) b' = s.tuples := by
  rcases W.rows (I.heap ht) (I.call ht) with ⟨hrows, _⟩ | ⟨page, _, _, h, _⟩
  · exact tuplesIn_congr hrows
  · exact absurd h (hpc page)

theorem ThreadsInv.fetch (I : ThreadsInv s) (ht : s.threads[i]? = some t)
    (hok : ThreadsFit s (.step i)) {rid : RID} (hpc : t.pc = .fetch rid)
    (hstep : thread_step s.pool t = some (b', t')) :
    ThreadsInv { s with
      pool := b'
      threads := s.threads.set i t'
      history := s.history ++ (t'.pc.result.map (Moment.returned i)).toList } := by
  have hins : t.as_insert = t.visits rid .fetch := by
    unfold HeapThread.as_insert
    rw [hpc]
  have C := I.call ht
  have H := I.heap ht
  rw [hins] at C
  obtain ⟨h, n, h1, h2, h3, h4⟩ := C.heap rfl
  rcases H.store.fetch_page (H.pages n ⟨h, h2, h4⟩).2 with ⟨f, b1, hf, _⟩ | ⟨hf, hall⟩
  swap
  · -- the page would have no frame
    have hnone := fetch_page_none hf
    refine absurd hall (hok.2 _ (inserts_get ht) ?_)
    rw [hins]
    exact (congrArg s.pool.page_table h3).trans hnone
  unfold thread_step at hstep
  rw [hpc] at hstep
  have h3' : rid.page_id = some n := h3
  simp only [h3', hf] at hstep
  cases hstep
  have hins' : insert_step s.pool t.as_insert = some (b', t.visits rid (.try_page f)) := by
    rw [hins]
    unfold insert_step HeapThread.visits
    simp only [h3', hf]
  obtain ⟨J, W⟩ := I.stepped ht hok hins'
  have hsame := I.same_tuples ht W (by rw [hins]; simp [HeapThread.visits])
  have O := I.threads t (List.mem_of_getElem? ht)
  refine I.go_on ht J W.onPath ⟨O.heap, ?_, by simp, by simp, by simp [HeapThread.stage, Stage.result]⟩
    ?_ (by rw [hsame]; exact I.nonempty)
  · intro rid' hr
    exact O.visits rid' (by rw [hpc]; exact hr)
  · unfold HeapThread.stage ThreadPc.result
    rw [hpc]
    exact .quiet hsame

theorem ThreadsInv.visit (I : ThreadsInv s) (ht : s.threads[i]? = some t) {rid : RID}
    {page : FrameID} (hpc : t.pc = .visit rid page)
    (hstep : thread_step s.pool t = some (b', t')) :
    ThreadsInv { s with
      pool := b'
      threads := s.threads.set i t'
      history := s.history ++ (t'.pc.result.map (Moment.returned i)).toList } := by
  have hins : t.as_insert = t.visits rid (.try_page page) := by
    unfold HeapThread.as_insert
    rw [hpc]
  have O := I.threads t (List.mem_of_getElem? ht)
  have hpage : t.as_insert.pc.page = some page := by
    rw [hins]
    rfl
  obtain ⟨h, n, h1, h2, h3, h4, _, hid, hm, hgood, _⟩ := visited (I.heap ht) (I.call ht) hpage
  rw [hins] at h1 h3
  obtain rfl : t.first_page_id = h := Option.some.inj h1
  obtain ⟨p, slot⟩ := rid
  obtain rfl : p = some n := h3
  obtain ⟨hrid, hfits⟩ := O.visits ⟨some n, slot⟩ (by rw [hpc]; rfl)
  have hon : OnChain (succ s.pool) (· ∈ s.heaps) n := ⟨_, h2, h4⟩
  have g : Good (s.pool.frames page).data := (congrArg Meaning.good hm).mpr hgood
  have hrows : rowsOf (s.pool.frames page).data = rows (· ∈ s.heaps) s.pool n := by
    rw [rows_on hon]
    exact congrArg Meaning.rows hm
  have hslot : s.tuples ⟨some n, slot⟩ = tupleOf (rowsOf (s.pool.frames page).data) slot := by
    rw [hrows]
    rfl
  obtain ⟨after, d, dirty, v, V⟩ := visits_slot hrid hfits g hid (by
    rw [← hslot]
    exact I.nonempty _)
  unfold thread_step at hstep
  rw [hpc] at hstep
  simp only [V.section_eq, Option.map_some] at hstep
  cases hstep
  obtain ⟨J, hpath, hrows'⟩ := I.inserts.visit (r := .ok none) (inserts_get ht)
    (by rw [hins]; rfl : t.as_insert.pc = .try_page page) (by rw [hins]; rfl) V.good
    (V.next.trans (congrArg Meaning.next hm)) (V.marked.imp_right fun he => he.trans hm)
  have htuples : tuplesIn (· ∈ s.heaps) (s.pool.set_data page d) =
      Function.update s.tuples ⟨some n, slot⟩ v := by
    refine tuplesIn_update hrows' fun j => ?_
    rw [← hrows]
    exact V.slots j
  refine I.go_on ht ?_ (fun k hk m => (hpath k hk m).mpr) ⟨O.heap, by simp [ThreadPc.rid], ?_, by simp, ?_⟩
    ?_ ?_
  · rw [hins] at J
    exact J
  · rintro _ _ _ tuple ⟨⟩
    exact V.moves tuple rfl
  · -- an update that stays on its page
    intro rid hr
    unfold HeapThread.stage at hr
    cases after with
    | return_ result =>
      obtain rfl : result = .placed (some rid) := by
        simpa [ThreadAfter.outcome, Outcome.stage, Stage.result] using hr
      rw [V.placed rid rfl]
      exact ⟨n, rfl, (hpath _ O.heap n).mpr h4⟩
    | insert tuple => cases hr
  · unfold HeapThread.stage
    rw [hpc, htuples]
    exact .effect (V.does _ hslot)
  · rw [htuples]
    exact nonempty_update I.nonempty V.nonempty

theorem standing_begin {h : PageID} {tuple : List UInt8} (hfits : FitsPage tuple) :
    (begin_insert h tuple).pc = .fetch := by
  rcases begin_insert_pc h tuple with ⟨hpc, _⟩ | ⟨_, hlt⟩
  · exact hpc
  · have := hfits.2
    omega

theorem ThreadsInv.leave (I : ThreadsInv s) (ht : s.threads[i]? = some t)
    (hok : ThreadsFit s (.step i)) {rid : RID} {page : FrameID} {dirty : Bool} {after : ThreadAfter}
    (hpc : t.pc = .leave rid page dirty after) (hstep : thread_step s.pool t = some (b', t')) :
    ThreadsInv { s with
      pool := b'
      threads := s.threads.set i t'
      history := s.history ++ (t'.pc.result.map (Moment.returned i)).toList } := by
  have hins : t.as_insert = t.visits rid (.leave page dirty (.return_ (.ok none))) := by
    unfold HeapThread.as_insert
    rw [hpc]
  have O := I.threads t (List.mem_of_getElem? ht)
  have hins' : insert_step s.pool t.as_insert =
      some (s.pool.unpin_page (s.pool.frames page).page_id dirty,
        t.visits rid (.done (.ok none))) := by
    rw [hins]
    rfl
  obtain ⟨J, W⟩ := I.stepped ht hok hins'
  have hsame := I.same_tuples ht W (by rw [hins]; simp [HeapThread.visits])
  have hget : (s.inserts.calls.set i (t.visits rid (.done (.ok none))))[i]? =
      some (t.visits rid (.done (.ok none))) := by
    rw [List.getElem?_set_self (List.getElem?_eq_some_iff.mp (inserts_get ht)).1]
  -- the call that is over gives its place to what comes next
  have hswap : ∀ c : InsertCall, c.pc.idle = true →
      CallInv (· ∈ s.heaps) (s.pool.unpin_page (s.pool.frames page).page_id dirty) c →
      InsertInv ⟨s.pool.unpin_page (s.pool.frames page).page_id dirty, s.heaps,
        s.inserts.calls.set i c, []⟩ := by
    intro c hc C
    have K := J.swap hget rfl hc C
    simp only [List.set_set] at K
    exact K
  unfold thread_step at hstep
  rw [hpc] at hstep
  cases after with
  | return_ result =>
    cases hstep
    refine I.go_on ht (hswap _ rfl (callInv_over t _ _)) W.onPath
      ⟨O.heap, by simp [ThreadPc.rid], by simp, by simp, fun rid' hr => ?_⟩ ?_ (by rw [hsame]; exact I.nonempty)
    · obtain ⟨n, hn, hon⟩ := O.placed rid' (by
        unfold HeapThread.stage
        rw [hpc]
        exact hr)
      exact ⟨n, hn, W.onPath _ O.heap n hon⟩
    · unfold HeapThread.stage ThreadPc.result
      rw [hpc]
      exact .returned hsame
  | insert tuple =>
    cases hstep
    have hfits := O.moves rid page dirty tuple hpc
    have hbegin := standing_begin (h := some t.first_page_id) hfits
    refine I.go_on ht (hswap (begin_insert (some t.first_page_id) tuple) (by rw [hbegin]; rfl)
      (callInv_begin J.heap.forest O.heap tuple)) W.onPath
      ⟨O.heap, by simp [ThreadPc.rid], by simp, ?_, fun rid' hr => ?_⟩ ?_
      (by rw [hsame]; exact I.nonempty)
    · rintro _ ⟨⟩
      exact ⟨rfl, hfits⟩
    · unfold HeapThread.stage InsertCall.standing at hr
      simp only [hbegin] at hr
      cases hr
    · unfold HeapThread.stage ThreadPc.result InsertCall.standing
      simp only [hpc, hbegin]
      exact .quiet hsame

/-- A call that places its tuple has the RID from then on. -/
theorem result_standing (c : InsertCall) :
    c.standing.result = c.pc.result.map fun r => r.map .placed := by
  unfold InsertCall.standing
  cases hpc : c.pc with
  | leave page dirty after => cases after <;> rfl
  | fetch | try_page | create | init_new | unpin_new | relink | read_new | delete_new | done => rfl

theorem result_of_placed {r : Option (Except String (Option RID))} {rid : RID}
    (h : (r.map fun r => r.map HeapResult.placed) = some (.ok (.placed (some rid)))) :
    r = some (.ok (some rid)) := by
  rcases r with _ | e | o
  · cases h
  · cases h
  · cases h
    rfl

theorem running_of_step {b : BufferPoolManager} {c : InsertCall}
    {r : BufferPoolManager × InsertCall} (h : insert_step b c = some r) : c.pc.running = true := by
  cases hpc : c.pc with
  | done r =>
    unfold insert_step at h
    rw [hpc] at h
    cases h
  | fetch | try_page | create | init_new | unpin_new | relink | read_new | delete_new | leave => rfl

theorem ThreadsInv.insert (I : ThreadsInv s) (ht : s.threads[i]? = some t)
    (hok : ThreadsFit s (.step i)) {c : InsertCall} (hpc : t.pc = .insert c)
    (hstep : thread_step s.pool t = some (b', t')) :
    ThreadsInv { s with
      pool := b'
      threads := s.threads.set i t'
      history := s.history ++ (t'.pc.result.map (Moment.returned i)).toList } := by
  have hins : t.as_insert = c := by
    unfold HeapThread.as_insert
    rw [hpc]
  have O := I.threads t (List.mem_of_getElem? ht)
  unfold thread_step at hstep
  rw [hpc] at hstep
  obtain ⟨⟨b1, c'⟩, hins', hr⟩ := Option.map_eq_some_iff.mp hstep
  cases hr
  rw [← hins] at hins'
  obtain ⟨J, W⟩ := I.stepped ht hok hins'
  obtain ⟨M, hplaced, htuples⟩ := insert_moves (I.heap ht) (I.call ht) hins' W
    (hok.2 _ (inserts_get ht))
  rw [hins] at M hplaced htuples
  obtain ⟨hfirst, hfits⟩ := O.inserts c hpc
  have hkept : c'.first_page_id = c.first_page_id ∧ c'.tuple_data = c.tuple_data := by
    have V := W.move
    rw [hins] at V
    cases V <;> exact ⟨rfl, rfl⟩
  refine I.go_on ht J W.onPath ⟨O.heap, by simp [ThreadPc.rid], by simp, ?_, fun rid hr => ?_⟩ ?_ ?_
  · rintro _ ⟨⟩
    rw [hkept.1, hkept.2]
    exact ⟨hfirst, hfits⟩
  · have hres : c'.pc.result = some (.ok (some rid)) :=
      result_of_placed ((result_standing c').symm.trans hr)
    rcases hplaced rid hres with hold | ⟨_, hpage⟩
    · have hres0 : t.stage.result = some (.ok (.placed (some rid))) := by
        unfold HeapThread.stage
        rw [hpc]
        simp only
        rw [result_standing, hold]
        rfl
      obtain ⟨n, hn, hon⟩ := O.placed rid hres0
      exact ⟨n, hn, W.onPath _ O.heap n hon⟩
    · have C := I.call ht
      have hrun := running_of_step hins'
      rw [hins] at C hrun
      obtain ⟨h, n, h1, h2, h3, h4⟩ := C.heap hrun
      obtain rfl : t.first_page_id = h := Option.some.inj (hfirst.symm.trans h1)
      exact ⟨n, hpage.trans h3, W.onPath _ h2 n h4⟩
  · unfold HeapThread.stage
    rw [hpc]
    exact M
  · rcases htuples with h | ⟨rid, h⟩
    · rw [h]
      exact I.nonempty
    · rw [h]
      exact nonempty_update I.nonempty (some_ne_nil hfits.1)

theorem ThreadsInv.step (I : ThreadsInv s) (ht : s.threads[i]? = some t)
    (hok : ThreadsFit s (.step i)) (hstep : thread_step s.pool t = some (b', t')) :
    ThreadsInv { s with
      pool := b'
      threads := s.threads.set i t'
      history := s.history ++ (t'.pc.result.map (Moment.returned i)).toList } := by
  cases hpc : t.pc with
  | fetch rid => exact I.fetch ht hok hpc hstep
  | visit rid page => exact I.visit ht hpc hstep
  | leave rid page dirty after => exact I.leave ht hok hpc hstep
  | insert c => exact I.insert ht hok hpc hstep
  | done r =>
    unfold thread_step at hstep
    rw [hpc] at hstep
    cases hstep

/-- The first place of a call. -/
theorem begin_spec {h : Nat} {call : HeapCall} {heads : Nat → Prop} {b : BufferPoolManager}
    (F : Forest (succ b) heads) (hh : heads h) (hon : OnHeap h b call) :
    (HeapThread.as_insert ⟨h, call, call.begin_ h⟩).pc.idle = true ∧
      CallInv heads b (HeapThread.as_insert ⟨h, call, call.begin_ h⟩) ∧
      HeapThread.On heads b ⟨h, call, call.begin_ h⟩ ∧
      HeapThread.stage ⟨h, call, call.begin_ h⟩ = .pending call := by
  have hvisit : ∀ (call : HeapCall) (rid : RID), call.rid = some rid → call.Fits →
      call.begin_ h = .fetch rid → (∃ n, rid.page_id = some n ∧ OnPath (succ b) h n) →
      (HeapThread.as_insert ⟨h, call, call.begin_ h⟩).pc.idle = true ∧
      CallInv heads b (HeapThread.as_insert ⟨h, call, call.begin_ h⟩) ∧
      HeapThread.On heads b ⟨h, call, call.begin_ h⟩ ∧
      HeapThread.stage ⟨h, call, call.begin_ h⟩ = .pending call := by
    rintro call rid hrid hfits hbegin ⟨n, hn, hpath⟩
    rw [hbegin]
    refine ⟨rfl, callInv_visits (t := ⟨h, call, .fetch rid⟩) hh hn hpath,
      ⟨hh, ?_, by simp, by simp, by simp [HeapThread.stage, Stage.result]⟩, rfl⟩
    rintro _ ⟨⟩
    exact ⟨hrid, hfits⟩
  cases call with
  | insert tuple =>
    have hbegin : (begin_insert (some h) tuple).pc = .fetch := standing_begin hon
    refine ⟨?_, callInv_begin F hh tuple,
      ⟨hh, by simp [HeapCall.begin_, ThreadPc.rid], by simp [HeapCall.begin_], ?_, ?_⟩, ?_⟩
    · show (begin_insert (some h) tuple).pc.idle = true
      rw [hbegin]
      rfl
    · rintro _ ⟨⟩
      exact ⟨rfl, hon⟩
    · intro rid hr
      unfold HeapThread.stage HeapCall.begin_ InsertCall.standing at hr
      simp only [hbegin] at hr
      cases hr
    · unfold HeapThread.stage HeapCall.begin_ InsertCall.standing
      simp only [hbegin]
      rfl
  | get rid => exact hvisit (.get rid) rid rfl trivial rfl hon
  | delete rid => exact hvisit (.delete rid) rid rfl trivial rfl hon
  | update rid tuple => exact hvisit (.update rid tuple) rid rfl hon.2 rfl hon.1

theorem threadsInv_next {u : HeapThreads} {e : ThreadEvent} (I : ThreadsInv s)
    (hok : ThreadsFit s e) (h : s.next e = some u) : ThreadsInv u := by
  cases e with
  | start h call =>
    unfold HeapThreads.next at h
    simp only at h
    split at h
    swap
    · cases h
    rename_i hh
    cases h
    obtain ⟨hidle, C, O, hstage⟩ := begin_spec I.inserts.heap.forest hh hok
    refine ⟨?_, fun t ht => ?_, I.nonempty, ?_⟩
    · have J := I.inserts.join hidle C
      unfold HeapThreads.inserts at J ⊢
      simp only [List.map_append, List.map_cons, List.map_nil]
      exact J
    · rcases List.mem_append.mp ht with ht | ht
      · exact I.threads t ht
      · rw [List.mem_singleton] at ht
        exact ht ▸ O
    · simp only [List.map_append, List.map_cons, List.map_nil, hstage]
      exact I.atomic.called call
  | step i =>
    unfold HeapThreads.next at h
    simp only at h
    obtain ⟨t, ht, h⟩ := Option.bind_eq_some_iff.mp h
    obtain ⟨⟨b', t'⟩, hstep, rfl⟩ := Option.map_eq_some_iff.mp h
    exact I.step ht hok hstep

theorem threadsInv_start (h : threadsMachine.start s) : ThreadsInv s := by
  obtain ⟨H, hinit, hne, hthreads, hhist⟩ := h
  refine ⟨?_, by simp [hthreads], hne, ?_⟩
  · refine (insertInv_start ⟨?_, ?_, rfl⟩ : InsertInv { s.inserts with
      deallocated := s.pool.disk_manager.free_list }).forget
    · exact H
    · simp [HeapThreads.inserts, hthreads]
  · rw [hhist, hthreads]
    exact .start hinit.symm

theorem threadsInv_reach (h : threadsMachine.Reach ThreadsFit s) : ThreadsInv s :=
  h.invariant (fun _ => threadsInv_start) fun _ _ _ I hok hn => threadsInv_next I hok hn

end

/-! ## The law -/

/-- The history of the calls is one of a map whose calls take effect one at a time. A tuple is
placed on the heap that it was given to, and no call gets stuck. -/
def CallsLookAtomic (s : HeapThreads) : Prop :=
  LooksAtomic (· = s.initial) HeapCall.Does s.history s.tuples (s.threads.map HeapThread.stage) ∧
  (∀ t ∈ s.threads, ∀ rid, t.pc.result = some (.ok (.placed (some rid))) →
    ∃ n, rid.page_id = some n ∧ OnPath (succ s.pool) t.first_page_id n) ∧
  ∀ t ∈ s.threads, t.pc.result = none → (thread_step s.pool t).isSome

/-- A call that is not over can take its next step. -/
theorem ThreadsInv.can_step {s : HeapThreads} (I : ThreadsInv s) {t : HeapThread}
    (hmem : t ∈ s.threads) (hres : t.pc.result = none) : (thread_step s.pool t).isSome := by
  obtain ⟨i, ht⟩ := List.mem_iff_getElem?.mp hmem
  unfold thread_step
  cases hpc : t.pc with
  | fetch rid =>
    simp only
    rcases s.pool.fetch_page rid.page_id with ⟨e | _ | page, b⟩ <;> rfl
  | visit rid page =>
    obtain ⟨hrid, _⟩ := (I.threads t hmem).visits rid (by rw [hpc]; rfl)
    simp only [Option.isSome_map]
    cases hc : t.call with
    | insert tuple =>
      rw [hc] at hrid
      cases hrid
    | get | delete => rfl
    | update rid tuple =>
      unfold HeapCall.section_
      simp only
      rcases update_section rid tuple (s.pool.frames page) with ⟨_ | _ | _, d, dirty⟩ <;> rfl
  | leave rid page dirty after => cases after <;> rfl
  | insert c =>
    have hins : t.as_insert = c := by
      unfold HeapThread.as_insert
      rw [hpc]
    have hrun : t.as_insert.pc.running = true := by
      rw [hins]
      cases hc : c.pc with
      | done r =>
        rw [hpc, result_done hc] at hres
        cases hres
      | fetch | try_page | create | init_new | unpin_new | relink | read_new | delete_new
      | leave => rfl
    obtain ⟨b', c', hstep, _⟩ := I.inserts.stepped (inserts_get ht) hrun
    rw [hins] at hstep
    simp only [Option.isSome_map]
    exact Option.isSome_iff_exists.mpr ⟨_, hstep⟩
  | done r =>
    rw [hpc] at hres
    cases hres

/-- Whatever the threads do in between, the calls of the heaps look atomic. -/
theorem calls_of_the_heaps_look_atomic {s : HeapThreads} (h : threadsMachine.Reach ThreadsFit s) :
    CallsLookAtomic s := by
  have I := threadsInv_reach h
  refine ⟨I.atomic, fun t ht rid hr => (I.threads t ht).placed rid ?_,
    fun t ht => I.can_step ht⟩
  unfold HeapThread.stage
  cases hpc : t.pc with
  | done r =>
    rw [hpc] at hr
    exact hr
  | insert c =>
    rw [hpc] at hr
    simp only
    rw [result_standing]
    unfold ThreadPc.result at hr
    simp only at hr
    split at hr
    · rename_i r hc
      unfold Pc.result
      rw [hc]
      exact hr
    · cases hr
  | fetch | visit | leave =>
    rw [hpc] at hr
    cases hr

/-! ## A read in the middle of an update -/

/-- A check of the rules, for calls on the first page of a heap while the pool has frames that
were never used. -/
def threads_fit (s : HeapThreads) : ThreadEvent → Bool
  | .start h call =>
    match call with
    | .insert tuple => decide (1 ≤ tuple.length ∧ tuple.length ≤ 8180)
    | .get rid | .delete rid => rid.page_id == some h && h ∈ s.heaps
    | .update rid tuple => rid.page_id == some h && h ∈ s.heaps &&
        decide (1 ≤ tuple.length ∧ tuple.length ≤ 8180)
  | .step i => keeps_new_pages s.inserts (.step i) && decide (s.pool.pool_size < s.pool.pool_capacity)

theorem threadsFit_of_check (s : HeapThreads) (e : ThreadEvent) (I : ThreadsInv s)
    (h : threads_fit s e = true) : ThreadsFit s e := by
  have hfirst : ∀ {rid : RID} {h : Nat}, (rid.page_id == some h && h ∈ s.heaps) = true →
      ∃ n, rid.page_id = some n ∧ OnPath (succ s.pool) h n := by
    intro rid h hrid
    simp only [Bool.and_eq_true, beq_iff_eq, decide_eq_true_eq] at hrid
    exact ⟨h, hrid.1, I.inserts.heap.forest.onPath_head hrid.2⟩
  cases e with
  | start h' call =>
    cases call with
    | insert tuple => exact (of_decide_eq_true h : 1 ≤ tuple.length ∧ tuple.length ≤ 8180)
    | get rid => exact hfirst h
    | delete rid => exact hfirst h
    | update rid tuple =>
      unfold threads_fit at h
      obtain ⟨h1, h2⟩ := (Bool.and_eq_true _ _).mp h
      exact ⟨hfirst h1, of_decide_eq_true h2⟩
  | step i =>
    obtain ⟨h1, h2⟩ := (Bool.and_eq_true _ _).mp h
    refine ⟨keepsNewPages_of_check _ _ h1, fun _ _ _ hall => ?_⟩
    have hlt := of_decide_eq_true h2
    rw [hall.2.1] at hlt
    exact Nat.lt_irrefl _ hlt

/-- Threads over a heap of one page. -/
noncomputable def threads_open : HeapThreads :=
  ⟨one_heap.pool, [1], tuplesIn (· ∈ [1]) one_heap.pool, [], []⟩

theorem threads_open_start : threadsMachine.start threads_open := by
  have h1 : (create (empty_pool 4)).1 = .ok (some 1) := by rfl
  obtain ⟨_, hc⟩ := (heapState_empty_pool 4).created (fun h => absurd trivial h) h1
  refine ⟨one_heap_start.1, rfl, fun rid => ?_, rfl, rfl⟩
  have hempty : ∀ n, rows (· ∈ [1]) one_heap.pool n = [] := by
    intro n
    by_cases hn : OnChain (succ one_heap.pool) (· ∈ [1]) n
    · have hself : contents one_heap.pool 1 = emptyMeaning := by
        show contents (create (empty_pool 4)).2 1 = _
        rw [hc, Function.update_self]
      obtain ⟨h, hh, l, hl, hmem⟩ := hn
      obtain rfl : h = 1 := by simpa using hh
      have hpath : Path (succ one_heap.pool) (some 1) [1] := by
        refine .cons ?_
        unfold succ
        rw [hself]
        exact .nil
      rw [hl.unique hpath, List.mem_singleton] at hmem
      subst hmem
      rw [rows_on ⟨1, hh, _, hpath, List.mem_singleton_self 1⟩, hself]
      rfl
    · exact rows_off hn
  show tuplesIn (· ∈ [1]) one_heap.pool rid ≠ some []
  obtain ⟨_ | n, slot⟩ := rid
  · simp [tuplesIn]
  · unfold tuplesIn tupleOf
    rw [Option.bind_some, hempty]
    simp

/-- The update has not returned, and a read that started after it has. -/
def read_before_update (s : HeapThreads) : Bool :=
  (s.threads[2]?).any (fun t => t.pc.result.isNone) && (s.threads[3]?).any fun t =>
    match t.pc.result with
    | some (.ok (.tuple none)) => true
    | _ => false

/-- An update has to move its tuple, and a read that comes between its two parts finds none. -/
theorem a_read_finds_no_tuple_while_it_moves :
    ∃ s, read_before_update s = true ∧ CallsLookAtomic s := by
  obtain ⟨s, hs, hread⟩ := Option.map_eq_some_iff.mp
    (by decide +kernel : (threadsMachine.execIf threads_fit threads_open
      [.start 1 (.insert (List.replicate 8000 0)), .step 0, .step 0, .step 0,
        .start 1 (.insert [1]), .step 1, .step 1, .step 1,
        .start 1 (.update ⟨some 1, 1⟩ (List.replicate 200 2)), .step 2, .step 2,
        .start 1 (.get ⟨some 1, 1⟩), .step 3, .step 3, .step 3]).map read_before_update =
      some true)
  exact ⟨s, hread, calls_of_the_heaps_look_atomic (Machine.Reach.execIf
    (fun _ h => threadsInv_reach h) threadsFit_of_check (.start threads_open_start) hs)⟩

end duck.table_heap
