-- Threads that call the heaps of one buffer pool: inserts, reads, deletes and
-- updates. Each call of the pool and each section under a page latch is one
-- step, and the threads take steps in any order.
import DuckDbms.HeapMap
import DuckDbms.ConcurrentInserts
import DuckDbms.Lib.AtomicObject

open machine duck.slotted_page duck.disk_manager duck.buffer_pool chain atomic_object

namespace duck.table_heap

/-! ## Calls, section by section -/

/-- What a call does once it has let go of the page of its RID. -/
inductive ThreadAfter
  | return_ (result : HeapResult)
  /-- the last part of `update_tuple` -/
  | insert (tuple : List UInt8)

/-- Where a call stands. Each place is left by one call of the buffer pool or by one section
under a page latch. -/
inductive ThreadPc
  /-- `bpm_.fetch_page(rid.page_id)` -/
  | fetch (rid : RID)
  /-- the section under the latch of that page -/
  | visit (rid : RID) (page : FrameID)
  /-- the unpin of `pinned` -/
  | leave (rid : RID) (page : FrameID) (dirty : Bool) (after : ThreadAfter)
  | insert (call : InsertCall)
  | done (result : Except String HeapResult)

structure HeapThread where
  first_page_id : Nat
  call : HeapCall
  pc : ThreadPc

namespace HeapCall

def begin_ (first_page_id : Nat) : HeapCall → ThreadPc
  | .insert tuple => .insert (begin_insert (some first_page_id) tuple)
  | .get rid | .delete rid | .update rid _ => .fetch rid

/-- The result of a call that finds no frame for its page. -/
def no_page : HeapCall → HeapResult
  | .insert _ | .update _ _ => .placed none
  | .get _ => .tuple none
  | .delete _ => .deleted false

/-- The section of a call on the page of its RID, with the data that it leaves and whether it
marks the page dirty. An insert has sections of its own. -/
def section_ (page : Page) : HeapCall → Option (ThreadAfter × PageData × Bool)
  | .insert _ => none
  | .get rid =>
    let view := slotted_page.get_tuple page.data rid.slot_num
    some (.return_ (.tuple (if view.isEmpty then none else some view)), page.data, false)
  | .delete rid =>
    let deleted := slotted_page.delete_tuple page.data rid.slot_num
    some (.return_ (.deleted deleted.1), deleted.2, deleted.1)
  | .update rid tuple =>
    match update_section rid tuple page with
    | (.not_found, d, dirty) => some (.return_ (.placed none), d, dirty)
    | (.placed rid, d, dirty) => some (.return_ (.placed (some rid)), d, dirty)
    | (.no_room, d, dirty) => some (.insert tuple, d, dirty)

end HeapCall

/-- One step of a call that is not done. -/
def thread_step (b : BufferPoolManager) (t : HeapThread) :
    Option (BufferPoolManager × HeapThread) :=
  match t.pc with
  | .fetch rid =>
    match b.fetch_page rid.page_id with
    | (.error e, b) => some (b, { t with pc := .done (.error e) })
    | (.ok none, b) => some (b, { t with pc := .done (.ok t.call.no_page) })
    | (.ok (some page), b) => some (b, { t with pc := .visit rid page })
  | .visit rid page =>
    (t.call.section_ (b.frames page)).map fun r =>
      (b.set_data page r.2.1, { t with pc := .leave rid page r.2.2 r.1 })
  | .leave _ page dirty after =>
    let b' := b.unpin_page (b.frames page).page_id dirty
    match after with
    | .return_ result => some (b', { t with pc := .done (.ok result) })
    | .insert tuple =>
      some (b', { t with pc := .insert (begin_insert (some t.first_page_id) tuple) })
  | .insert c => (insert_step b c).map fun r => (r.1, { t with pc := .insert r.2 })
  | .done _ => none

def ThreadPc.result : ThreadPc → Option (Except String HeapResult)
  | .done result => some result
  | .insert c =>
    match c.pc with
    | .done result => some (result.map .placed)
    | _ => none
  | _ => none

/-- The steps of a call that runs alone, to its end or for as long as the fuel lasts. -/
def run_thread : Nat → BufferPoolManager → HeapThread →
    Option (Except String HeapResult × BufferPoolManager)
  | 0, _, _ => none
  | fuel + 1, b, t =>
    match t.pc.result with
    | some result => some (result, b)
    | none => (thread_step b t).bind fun s => run_thread fuel s.1 s.2

/-! ## A call that runs alone -/

section
variable {b : BufferPoolManager} {t : HeapThread} {r : Except String HeapResult × BufferPoolManager}

theorem result_running {c : InsertCall} (h : c.pc.running = true) :
    (ThreadPc.insert c).result = none := by
  unfold ThreadPc.result
  simp only
  split
  · rename_i hpc
    rw [hpc] at h
    cases h
  · rfl

theorem result_done {c : InsertCall} {r : Except String (Option RID)} (h : c.pc = .done r) :
    (ThreadPc.insert c).result = some (r.map .placed) := by
  unfold ThreadPc.result
  simp only [h]

theorem run_thread_done {fuel : Nat} {result : Except String HeapResult}
    (h : t.pc.result = some result) : run_thread (fuel + 1) b t = some (result, b) := by
  unfold run_thread
  rw [h]

theorem run_thread_step {fuel : Nat} (hr : t.pc.result = none) :
    run_thread (fuel + 1) b t = (thread_step b t).bind fun s => run_thread fuel s.1 s.2 := by
  rw [run_thread, hr]

theorem run_thread_insert {fuel : Nat} {c : InsertCall} {r : Except String (Option RID) × BufferPoolManager}
    (h : run_insert fuel b c = some r) :
    run_thread fuel b { t with pc := .insert c } = some (r.1.map .placed, r.2) := by
  induction fuel generalizing b c with
  | zero => cases h
  | succ fuel ih =>
    unfold run_insert at h
    split at h
    · rename_i result hpc
      cases h
      exact run_thread_done (result_done hpc)
    · rename_i hpc
      have hrun : c.pc.running = true := by
        cases hc : c.pc with
        | done r => exact absurd hc (hpc r)
        | fetch | try_page | create | init_new | unpin_new | relink | read_new | delete_new
        | leave => rfl
      obtain ⟨s, hs, h⟩ := Option.bind_eq_some_iff.mp h
      rw [run_thread_step (result_running hrun)]
      simp only [thread_step, hs, Option.map_some, Option.bind_some]
      exact ih h

/-- A call that visits the page of its RID takes four steps. -/
theorem run_thread_get (h : Nat) (rid : RID) :
    run_thread 4 b ⟨h, .get rid, .fetch rid⟩ =
      some ((get_tuple b rid).1.map .tuple, (get_tuple b rid).2) := by
  unfold get_tuple with_page
  rw [run_thread_step rfl]
  unfold thread_step
  simp only
  rcases b.fetch_page rid.page_id with ⟨e | _ | page, b1⟩ <;> rfl

theorem run_thread_delete (h : Nat) (rid : RID) :
    run_thread 4 b ⟨h, .delete rid, .fetch rid⟩ =
      some ((delete_tuple b rid).1.map .deleted, (delete_tuple b rid).2) := by
  unfold delete_tuple with_page
  rw [run_thread_step rfl]
  unfold thread_step
  simp only
  rcases b.fetch_page rid.page_id with ⟨e | _ | page, b1⟩ <;> rfl

theorem run_thread_update {h : Nat} {rid : RID} {tuple : List UInt8}
    {r : Except String (Option RID) × BufferPoolManager}
    (hr : update_tuple b (some h) rid tuple = some r) :
    ∃ fuel, run_thread fuel b ⟨h, .update rid tuple, .fetch rid⟩ =
      some (r.1.map .placed, r.2) := by
  unfold update_tuple with_page at hr
  rcases hf : b.fetch_page rid.page_id with ⟨e | _ | page, b1⟩
  · rw [hf] at hr
    cases hr
    refine ⟨4, ?_⟩
    rw [run_thread_step rfl]
    simp only [thread_step, hf]
    rfl
  · rw [hf] at hr
    cases hr
    refine ⟨4, ?_⟩
    rw [run_thread_step rfl]
    simp only [thread_step, hf]
    rfl
  · rw [hf] at hr
    simp only at hr
    have hstep : ∀ fuel, run_thread (fuel + 3) b ⟨h, .update rid tuple, .fetch rid⟩ =
        run_thread (fuel + 2) b1 ⟨h, .update rid tuple, .visit rid page⟩ := by
      intro fuel
      rw [run_thread_step rfl]
      simp only [thread_step, hf]
      rfl
    rcases hs : update_section rid tuple (b1.frames page) with ⟨_ | rid' | _, d, dirty⟩
    · rw [hs] at hr
      cases hr
      refine ⟨4, (hstep 1).trans ?_⟩
      rw [run_thread_step rfl]
      simp only [thread_step, HeapCall.section_, hs]
      rfl
    · rw [hs] at hr
      cases hr
      refine ⟨4, (hstep 1).trans ?_⟩
      rw [run_thread_step rfl]
      simp only [thread_step, HeapCall.section_, hs]
      rfl
    · rw [hs] at hr
      obtain ⟨fuel, hfuel⟩ : ∃ fuel, run_insert fuel
          ((b1.set_data page d).unpin_page ((b1.set_data page d).frames page).page_id dirty)
          (begin_insert (some h) tuple) = some r := ⟨_, hr⟩
      refine ⟨fuel + 3, (hstep fuel).trans ?_⟩
      rw [run_thread_step rfl]
      simp only [thread_step, HeapCall.section_, hs, Option.map_some, Option.bind_some]
      rw [run_thread_step rfl]
      exact run_thread_insert hfuel

/-- A call of a thread that runs alone is the call of the heap. -/
theorem run_thread_alone {h : Nat} {call : HeapCall} {r : Except String HeapResult × BufferPoolManager}
    (hr : call.run b (some h) = some r) : ∃ fuel, run_thread fuel b ⟨h, call, call.begin_ h⟩ = some r := by
  cases call with
  | insert tuple =>
    obtain ⟨x, hx, rfl⟩ := Option.map_eq_some_iff.mp hr
    exact ⟨_, run_thread_insert (t := ⟨h, .insert tuple, .done (.ok (.placed none))⟩) hx⟩
  | get rid => exact ⟨4, (run_thread_get h rid).trans hr⟩
  | delete rid => exact ⟨4, (run_thread_delete h rid).trans hr⟩
  | update rid tuple =>
    obtain ⟨x, hx, rfl⟩ := Option.map_eq_some_iff.mp hr
    exact run_thread_update hx

end

/-! ## Threads side by side -/

/-- The tuples of all the heaps. -/
noncomputable def tuplesIn (heads : Nat → Prop) (b : BufferPoolManager) (rid : RID) :
    Option (List UInt8) :=
  rid.page_id.bind fun n => tupleOf (rows heads b n) rid.slot_num

/-- The pool, of less than 2^32 pages, the first pages of its heaps, the calls by any number of
threads, less than 2^32 on one page, and what their callers saw so far, over the tuples that were
there before. -/
structure HeapThreads where
  pool : BufferPoolManager
  heaps : List Nat
  initial : RID → Option (List UInt8)
  threads : List HeapThread
  history : List (Moment HeapCall (Except String HeapResult))

inductive ThreadEvent
  /-- a thread calls the heap with this first page -/
  | start (first_page_id : Nat) (call : HeapCall)
  /-- the call at this place of the list takes its next step -/
  | step (thread : Nat)

namespace HeapThread

variable (t : HeapThread)

/-- A visit of the page of a RID, as an insert that tries it. -/
def visits (rid : RID) (pc : Pc) : InsertCall where
  first_page_id := some t.first_page_id
  tuple_data := []
  page_id := rid.page_id
  created_new_page := false
  pc
  obtained := []
  linked := []
  given_back := []

/-- What the call has pinned and may have changed is what an insert at this place would have. -/
def as_insert : InsertCall :=
  match t.pc with
  | .fetch rid => t.visits rid .fetch
  | .visit rid page => t.visits rid (.try_page page)
  | .leave rid page dirty _ => t.visits rid (.leave page dirty (.return_ (.ok none)))
  | .insert c => c
  | .done _ => t.visits ⟨none, 0⟩ (.done (.ok none))

end HeapThread

namespace HeapThreads

variable (s : HeapThreads)

def next : ThreadEvent → Option HeapThreads
  | .start first_page_id call =>
    if first_page_id ∈ s.heaps then
      some { s with
        threads := s.threads ++ [⟨first_page_id, call, call.begin_ first_page_id⟩]
        history := s.history ++ [.called call] }
    else none
  | .step i =>
    (s.threads[i]?).bind fun t =>
      (thread_step s.pool t).map fun r =>
        { s with
          pool := r.1
          threads := s.threads.set i r.2
          history := s.history ++ (r.2.pc.result.map (Moment.returned i)).toList }

/-- The threads as inserts. -/
def inserts : InsertSystem := ⟨s.pool, s.heaps, s.threads.map HeapThread.as_insert, []⟩

noncomputable def tuples : RID → Option (List UInt8) := tuplesIn (· ∈ s.heaps) s.pool

end HeapThreads

/-- Heaps whose tuples are not empty. -/
def threadsMachine : Machine HeapThreads ThreadEvent where
  start s := Idle True (· ∈ s.heaps) s.pool ∧ s.initial = s.tuples ∧
    (∀ rid, s.tuples rid ≠ some []) ∧ s.threads = [] ∧ s.history = []
  next := HeapThreads.next

/-- The calls work on their heaps. A page that is brought in finds a frame, and evicts no page
that an insert created and has yet to link. -/
def ThreadsFit (s : HeapThreads) : ThreadEvent → Prop
  | .start first_page_id call => OnHeap first_page_id s.pool call
  | .step i => KeepsNewPages s.inserts (.step i) ∧
      ∀ c, s.inserts.calls[i]? = some c → c.brings_in s.pool → ¬ AllPinned s.pool

end duck.table_heap
