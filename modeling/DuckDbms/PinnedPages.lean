-- Pinned pages: objects that unpin their page when they are destroyed. A pin
-- passes from object to object, and the mark of a written page has to go with
-- it; the move assignment copies the mark, the move constructor does not.
import DuckDbms.PinOwners

open machine owners duck.slotted_page duck.disk_manager

namespace duck.buffer_pool

/-! ## The objects -/

structure PinnedPage where
  page_ : Option FrameID
  dirty_ : Bool

namespace PinnedPage

variable (p : PinnedPage)

def make_pinned (page : Option FrameID) : PinnedPage := ⟨page, false⟩

def valid : Bool := p.page_.isSome

def mark_dirty : PinnedPage := { p with dirty_ := true }

def page_id (b : BufferPoolManager) : PageID :=
  match p.page_ with
  | some page => (b.frames page).page_id
  | none => INVALID_PAGE_ID

/-- The destructor, and the move assignment for the page that its target has. -/
def unpin (b : BufferPoolManager) : BufferPoolManager :=
  if p.valid then b.unpin_page (p.page_id b) p.dirty_ else b

/-- The object that the move constructor makes. -/
def move_construct (other : PinnedPage) : PinnedPage := { page_ := other.page_, dirty_ := false }

/-- The target of a move assignment, once it has let its own page go. -/
def move_assign (other : PinnedPage) : PinnedPage :=
  { page_ := other.page_, dirty_ := other.dirty_ }

/-- What both moves leave of the object that they move from. -/
def moved_from : PinnedPage := { p with page_ := none }

end PinnedPage

/-! ## Pins and their owners -/

/-- An object, and the pin that it owns. -/
structure PinOwner where
  page : PinnedPage
  pin : Option Nat

/-- A call of `unpin_page`, and the pin of the object that called. -/
structure UnpinCall where
  pin : Option Nat
  page_id : PageID
  dirty : Bool
  deriving DecidableEq

/-- The pool with its other callers, of less than 2^32 pins a page and 2^32 pages, and the objects in
the order they were made; one that was destroyed is `none`. The pins that objects took are
numbered: `taken` has their pages, and `marked` tells whether `mark_dirty` was called on an object
that owned the pin. -/
structure PinnedPages where
  store : FlatStore
  objects : List (Option PinOwner)
  taken : List Nat
  marked : Nat → Bool
  calls : List UnpinCall

inductive PinnedPageOp
  /-- a caller that has the page pinned hands its pin over; the page may be null -/
  | construct (page : Option FrameID)
  | move_construct (i : Nat)
  /-- object `j` is moved into object `i` -/
  | move_assign (i j : Nat)
  | mark_dirty (i : Nat)
  | destroy (i : Nat)
  | other (call : PoolCall)

namespace PinnedPages

variable (s : PinnedPages)

def object_at (i : Nat) : Option PinOwner := s.objects[i]?.join

/-- An object lets its page go. -/
def unpin (o : PinOwner) : PinnedPages :=
  { s with
    store := { s.store with pool := o.page.unpin s.store.pool }
    calls := if o.page.valid then
      s.calls ++ [⟨o.pin, o.page.page_id s.store.pool, o.page.dirty_⟩] else s.calls }

def next : PinnedPageOp → Option PinnedPages
  | .construct none => some { s with objects := s.objects ++ [some ⟨.make_pinned none, none⟩] }
  | .construct (some page) => (s.store.pool.frames page).page_id.map fun n =>
      { s with
        store := { s.store with pins := pinLess s.store.pins n }
        objects := s.objects ++ [some ⟨.make_pinned (some page), some s.taken.length⟩]
        taken := s.taken ++ [n] }
  | .move_construct i => (s.object_at i).map fun other =>
      { s with objects := s.objects.set i (some ⟨other.page.moved_from, none⟩) ++
          [some ⟨other.page.move_construct, other.pin⟩] }
  | .move_assign i j => (s.object_at i).bind fun target => (s.object_at j).map fun other =>
      if i = j then s
      else { s.unpin target with
        objects := (s.objects.set i (some ⟨other.page.move_assign, other.pin⟩)).set j
          (some ⟨other.page.moved_from, none⟩) }
  | .mark_dirty i => (s.object_at i).map fun o =>
      { s with
        objects := s.objects.set i (some { o with page := o.page.mark_dirty })
        marked := fun pin => s.marked pin || o.pin == some pin }
  | .destroy i => (s.object_at i).map fun o => { s.unpin o with objects := s.objects.set i none }
  | .other call => (s.store.next call).map fun store => { s with store }

/-- The frame of the page that each object has. -/
def current_pages : List (Option FrameID) := s.objects.map (·.bind fun o => o.page.page_)

/-- The pin that each object owns. -/
def owned_pins : List (Option Nat) := s.objects.map (·.bind PinOwner.pin)

/-- The pin that each call of `unpin_page` released. -/
def released_pins : List (Option Nat) := s.calls.map UnpinCall.pin

end PinnedPages

def pinnedPagesMachine : Machine PinnedPages PinnedPageOp where
  start s := ∃ store, flatMachine.start store ∧ s = ⟨store, [], [], fun _ => false, []⟩
  next := PinnedPages.next

/-- A page that is handed over is pinned by a caller, and the other callers match their pins. -/
def PinsHandedOver (s : PinnedPages) : PinnedPageOp → Prop
  | .construct page => ∀ f, page = some f →
      ∃ n, s.store.pool.page_table (some n) = some f ∧ 0 < s.store.pins n
  | .other call => CallersMatchPins s.store call ∧ DeletesAllocated s.store call
  | .move_construct _ | .move_assign _ _ | .mark_dirty _ | .destroy _ => True

/-- No object is made from one that has a page and is marked. -/
def ConstructsFromUnmarked (s : PinnedPages) : PinnedPageOp → Prop
  | .move_construct i => ∀ o, s.object_at i = some o → o.page.valid = true → o.page.dirty_ = false
  | .construct _ | .move_assign _ _ | .mark_dirty _ | .destroy _ | .other _ => True

/-! ## What the operations keep -/

/-- An object has no page and no pin, or the page of its pin. -/
def OwnsPin (s : PinnedPages) (o : PinOwner) : Prop :=
  (o.page.page_ = none ∧ o.pin = none) ∨
  ∃ f pin n, o.page.page_ = some f ∧ o.pin = some pin ∧ s.taken[pin]? = some n ∧
    s.store.pool.page_table (some n) = some f

/-- The call released a pin of its page. -/
def Releases (s : PinnedPages) (call : UnpinCall) : Prop :=
  ∃ pin n, call.pin = some pin ∧ s.taken[pin]? = some n ∧ call.page_id = some n

/-- The pins are where the objects and the calls say. -/
structure PinnedInv (s : PinnedPages) : Prop where
  owned : Owned s.store.pool s.store.pins s.current_pages
  once : ∀ pin, owners_of s.owned_pins pin + owners_of s.released_pins pin =
    if pin < s.taken.length then 1 else 0
  objects : ∀ o, some o ∈ s.objects → OwnsPin s o
  calls : ∀ call ∈ s.calls, Releases s call

section
variable {s t : PinnedPages} {i : Nat} {o : PinOwner}

theorem at_object (h : s.object_at i = some o) : s.objects[i]? = some (some o) ∧
    s.current_pages[i]? = some o.page.page_ ∧ s.owned_pins[i]? = some o.pin := by
  have hat := Option.join_eq_some_iff.mp h
  refine ⟨hat, ?_, ?_⟩
  · unfold PinnedPages.current_pages
    rw [List.getElem?_map, hat]
    rfl
  · unfold PinnedPages.owned_pins
    rw [List.getElem?_map, hat]
    rfl

theorem PinnedInv.owns (I : PinnedInv s) (h : s.object_at i = some o) : OwnsPin s o :=
  I.objects o (List.mem_of_getElem? (at_object h).1)

/-- The pins pass from object to object. -/
theorem PinnedInv.pass (I : PinnedInv s) {objects : List (Option PinOwner)}
    (hpages : ∀ f, owners_of (objects.map (·.bind fun o => o.page.page_)) f =
      owners_of s.current_pages f)
    (hpins : ∀ pin, owners_of (objects.map (·.bind PinOwner.pin)) pin = owners_of s.owned_pins pin)
    (howns : ∀ o, some o ∈ objects → OwnsPin s o) : PinnedInv { s with objects } := by
  refine ⟨I.owned.pass hpages, fun pin => ?_, howns, I.calls⟩
  rw [← I.once pin, ← hpins pin]
  rfl

/-- An object lets its page go, and is gone. -/
theorem PinnedInv.unpin (I : PinnedInv s) (hat : s.object_at i = some o) :
    PinnedInv { s.unpin o with objects := s.objects.set i none } := by
  obtain ⟨hmem, hpages, hpins⟩ := at_object hat
  have hset := owners_of_set hpins none
  rcases I.owns hat with ⟨hp, hpin⟩ | ⟨f, pin, n, hp, hpin, htaken, htable⟩
  · have hsame : s.unpin o = s := by
      unfold PinnedPages.unpin PinnedPage.unpin PinnedPage.valid
      rw [hp]
      rfl
    rw [hsame]
    refine I.pass (fun f => ?_) (fun pin => ?_) fun o' h => I.objects o' (mem_of_mem_set_none h)
    · have := owners_of_set hpages none f
      rw [hp] at this
      rw [List.map_set]
      exact Nat.add_right_cancel this
    · have := hset pin
      rw [hpin] at this
      rw [List.map_set]
      exact Nat.add_right_cancel this
  · have hid : (s.store.pool.frames f).page_id = some n :=
      (I.owned.order.inv.holds n f).mp htable
    have hpool : (s.unpin o).store.pool =
        s.store.pool.unpin_page (s.store.pool.frames f).page_id o.page.dirty_ := by
      unfold PinnedPages.unpin PinnedPage.unpin PinnedPage.valid PinnedPage.page_id
      simp only [hp, Option.isSome_some, if_true]
    have hcalls : (s.unpin o).calls = s.calls ++ [⟨some pin, some n, o.page.dirty_⟩] := by
      unfold PinnedPages.unpin PinnedPage.valid PinnedPage.page_id
      simp only [hp, hpin, hid, Option.isSome_some, if_true]
    refine ⟨?_, fun k => ?_, fun o' h => ?_, fun call h => ?_⟩
    · show Owned (s.unpin o).store.pool s.store.pins _
      rw [hpool]
      refine I.owned.unpin_page (hp ▸ List.mem_of_getElem? hpages) o.page.dirty_ fun g => ?_
      have := owners_of_set hpages none g
      rw [hp] at this
      unfold PinnedPages.current_pages
      rw [List.map_set]
      exact this
    · have h1 := hset k
      have h2 := I.once k
      rw [hpin, one_for_none, Nat.add_zero] at h1
      unfold PinnedPages.owned_pins PinnedPages.released_pins at *
      simp only [hcalls]
      rw [List.map_set, List.map_append, List.map_singleton, owners_of_append]
      simp only [Option.bind_none]
      show _ = if k < s.taken.length then 1 else 0
      omega
    · rcases I.objects o' (mem_of_mem_set_none h) with hnone | ⟨f', pin', n', h1, h2, h3, h4⟩
      · exact Or.inl hnone
      · refine Or.inr ⟨f', pin', n', h1, h2, h3, ?_⟩
        show (s.unpin o).store.pool.page_table (some n') = some f'
        rw [hpool, page_table_unpin_page]
        exact h4
    · simp only [hcalls] at h
      rcases List.mem_append.mp h with h | h
      · exact I.calls call h
      · obtain rfl := List.mem_singleton.mp h
        exact ⟨pin, n, rfl, htaken, rfl⟩

/-- The move constructor passes the pin on. -/
theorem PinnedInv.move_construct (I : PinnedInv s) (h : s.next (.move_construct i) = some t) :
    PinnedInv t := by
  obtain ⟨other, hat, rfl⟩ := Option.map_eq_some_iff.mp h
  obtain ⟨_, hpages, hpins⟩ := at_object hat
  refine I.pass (fun f => ?_) (fun pin => ?_) fun o ho => ?_
  · rw [List.map_append, List.map_set]
    exact owners_of_move_new hpages f
  · rw [List.map_append, List.map_set]
    exact owners_of_move_new hpins pin
  · rcases List.mem_append.mp ho with ho | ho
    · rcases List.mem_or_eq_of_mem_set ho with ho | ho
      · exact I.objects o ho
      · cases ho
        exact Or.inl ⟨rfl, rfl⟩
    · cases List.mem_singleton.mp ho
      have howns := I.owns hat
      exact howns

/-- The move assignment lets the old page of the target go, and passes the pin on. -/
theorem PinnedInv.move_assign (I : PinnedInv s) {j : Nat}
    (h : s.next (.move_assign i j) = some t) : PinnedInv t := by
  obtain ⟨target, hi, h⟩ := Option.bind_eq_some_iff.mp h
  obtain ⟨other, hj, rfl⟩ := Option.map_eq_some_iff.mp h
  split
  · exact I
  rename_i hne
  obtain ⟨_, hpages, hpins⟩ := at_object hi
  obtain ⟨hother, hpages', hpins'⟩ := at_object hj
  have I1 := I.unpin hi
  refine I1.pass (fun f => ?_) (fun pin => ?_) fun o ho => ?_
  · unfold PinnedPages.current_pages
    rw [List.map_set, List.map_set, List.map_set]
    exact owners_of_move hne hpages hpages' f
  · unfold PinnedPages.owned_pins
    rw [List.map_set, List.map_set, List.map_set]
    exact owners_of_move hne hpins hpins' pin
  · rcases List.mem_or_eq_of_mem_set ho with ho | ho
    · rcases mem_set_other ho with ho | ho
      · cases ho
        refine I1.objects other (List.mem_iff_getElem?.mpr ⟨j, ?_⟩)
        show (s.objects.set i none)[j]? = _
        rw [List.getElem?_set_ne hne, hother]
      · exact I1.objects o ho
    · cases ho
      exact Or.inl ⟨rfl, rfl⟩

/-- A new object, on a page that a caller hands over, or on none. -/
theorem PinnedInv.construct (I : PinnedInv s) {page : Option FrameID}
    (hok : PinsHandedOver s (.construct page)) (h : s.next (.construct page) = some t) :
    PinnedInv t := by
  rcases page with _ | f
  · cases h
    refine I.pass (fun f => ?_) (fun pin => ?_) fun o ho => ?_
    · rw [List.map_append]
      exact owners_of_append s.current_pages none f
    · rw [List.map_append]
      exact owners_of_append s.owned_pins none pin
    · rcases List.mem_append.mp ho with ho | ho
      · exact I.objects o ho
      · cases List.mem_singleton.mp ho
        exact Or.inl ⟨rfl, rfl⟩
  · obtain ⟨n, hc, hpos⟩ := hok f rfl
    obtain ⟨m, hid, rfl⟩ := Option.map_eq_some_iff.mp h
    obtain rfl : n = m := Option.some.inj (((I.owned.order.inv.holds n f).mp hc).symm.trans hid)
    have htaken : ∀ {pin k : Nat}, s.taken[pin]? = some k → (s.taken ++ [n])[pin]? = some k :=
      fun {pin k} hk => by rw [List.getElem?_append_left (List.getElem?_eq_some_iff.mp hk).1, hk]
    refine ⟨?_, fun pin => ?_, fun o ho => ?_, fun call hcall => ?_⟩
    · unfold PinnedPages.current_pages
      rw [List.map_append]
      exact I.owned.hand_over hc hpos (owners_of_append s.current_pages (some f))
    · have hold := I.once pin
      have hnew := owners_of_append s.owned_pins (some s.taken.length) pin
      unfold PinnedPages.owned_pins PinnedPages.released_pins at *
      simp only [List.map_append, List.length_append, List.length_singleton]
      show owners_of (_ ++ [some s.taken.length]) pin + _ = _
      rw [hnew]
      by_cases he : s.taken.length = pin
      · subst he
        rw [if_neg (Nat.lt_irrefl _)] at hold
        rw [one_for_self, if_pos (Nat.lt_succ_self _)]
        omega
      · rw [one_for_other he, Nat.add_zero, hold]
        congr 1
        simp only [Nat.lt_succ_iff, eq_iff_iff]
        omega
    · rcases List.mem_append.mp ho with ho | ho
      · rcases I.objects o ho with hnone | ⟨g, pin, k, h1, h2, h3, h4⟩
        · exact Or.inl hnone
        · exact Or.inr ⟨g, pin, k, h1, h2, htaken h3, h4⟩
      · cases List.mem_singleton.mp ho
        exact Or.inr ⟨f, s.taken.length, n, rfl, rfl, List.getElem?_concat_length, hc⟩
    · obtain ⟨pin, k, h1, h2, h3⟩ := I.calls call hcall
      exact ⟨pin, k, h1, htaken h2, h3⟩

/-- The pin of one object is owned by no other, and no call released it. -/
theorem PinnedInv.sole (I : PinnedInv s) (hat : s.object_at i = some o) {pin : Nat}
    (hpin : o.pin = some pin) :
    (∀ o', some o' ∈ s.objects.set i none → o'.pin ≠ some pin) ∧
      ∀ call ∈ s.calls, call.pin ≠ some pin := by
  obtain ⟨_, _, hpins⟩ := at_object hat
  have hset := owners_of_set hpins none pin
  have honce := I.once pin
  rw [hpin, one_for_self, one_for_none] at hset
  have hle : owners_of s.owned_pins pin + owners_of s.released_pins pin ≤ 1 := by
    rw [honce]
    split <;> omega
  constructor
  · intro o' ho hp
    have hpos : 0 < owners_of (s.owned_pins.set i none) pin := by
      refine owners_of_pos.mpr ?_
      have := List.mem_map_of_mem (f := fun o => o.bind PinOwner.pin) ho
      rw [List.map_set] at this
      rwa [← hp]
    omega
  · intro call hcall hp
    have hpos : 0 < owners_of s.released_pins pin := by
      refine owners_of_pos.mpr ?_
      rw [← hp]
      exact List.mem_map_of_mem hcall
    omega

theorem PinnedInv.mark_dirty (I : PinnedInv s) (h : s.next (.mark_dirty i) = some t) :
    PinnedInv t := by
  obtain ⟨o, hat, rfl⟩ := Option.map_eq_some_iff.mp h
  obtain ⟨_, hpages, hpins⟩ := at_object hat
  refine ⟨I.owned.pass fun f => ?_, fun pin => ?_, fun o' ho => ?_, I.calls⟩
  · unfold PinnedPages.current_pages
    rw [List.map_set]
    exact Nat.add_right_cancel (owners_of_set hpages o.page.page_ f)
  · rw [← I.once pin]
    unfold PinnedPages.owned_pins
    rw [List.map_set]
    exact congrArg (· + _) (Nat.add_right_cancel (owners_of_set hpins o.pin pin))
  · rcases List.mem_or_eq_of_mem_set ho with ho | ho
    · exact I.objects o' ho
    · cases ho
      have howns := I.owns hat
      exact howns

/-- The other callers go on, and leave every object its page. -/
theorem PinnedInv.other (I : PinnedInv s) {call : PoolCall} (hok : PinsHandedOver s (.other call))
    (h : s.next (.other call) = some t) : PinnedInv t := by
  obtain ⟨store, hstore, rfl⟩ := Option.map_eq_some_iff.mp h
  obtain ⟨W, hstays⟩ := I.owned.other hok.1 hok.2 hstore
  refine ⟨W, I.once, fun o ho => ?_, I.calls⟩
  rcases I.objects o ho with hnone | ⟨f, pin, n, h1, h2, h3, h4⟩
  · exact Or.inl hnone
  · refine Or.inr ⟨f, pin, n, h1, h2, h3, hstays n f ?_ h4⟩
    rw [← h1]
    exact List.mem_map_of_mem (f := fun o => o.bind fun o => o.page.page_) ho

/-- Every step keeps the pins with their owners. -/
theorem PinnedInv.next (I : PinnedInv s) {op : PinnedPageOp} (hok : PinsHandedOver s op)
    (h : s.next op = some t) : PinnedInv t := by
  cases op with
  | construct page => exact I.construct hok h
  | move_construct i => exact I.move_construct h
  | move_assign i j => exact I.move_assign h
  | mark_dirty i => exact I.mark_dirty h
  | destroy i =>
    obtain ⟨o, hat, rfl⟩ := Option.map_eq_some_iff.mp h
    exact I.unpin hat
  | other call => exact I.other hok h

/-! ## What the operations keep of the marks -/

/-- A pin that was marked is released as dirty. -/
def MarksReleased (s : PinnedPages) : Prop :=
  ∀ call ∈ s.calls, ∀ pin, call.pin = some pin → s.marked pin = true → call.dirty = true

/-- The owner of a marked pin is marked. -/
structure MarkInv (s : PinnedPages) : Prop where
  objects : ∀ o, some o ∈ s.objects → ∀ pin, o.pin = some pin → s.marked pin = true →
    o.page.dirty_ = true
  calls : MarksReleased s
  fresh : ∀ pin, s.marked pin = true → pin < s.taken.length

theorem MarkInv.owner (M : MarkInv s) (h : s.object_at i = some o) {pin : Nat}
    (hpin : o.pin = some pin) (hmark : s.marked pin = true) : o.page.dirty_ = true :=
  M.objects o (List.mem_of_getElem? (at_object h).1) pin hpin hmark

theorem MarkInv.unpin (M : MarkInv s) (hat : s.object_at i = some o) :
    MarkInv { s.unpin o with objects := s.objects.set i none } := by
  refine ⟨fun o' ho => ?_, fun call hcall => ?_, M.fresh⟩
  · exact M.objects o' (mem_of_mem_set_none ho)
  · change call ∈ (s.unpin o).calls at hcall
    unfold PinnedPages.unpin at hcall
    simp only at hcall
    split at hcall
    · rcases List.mem_append.mp hcall with hcall | hcall
      · exact M.calls call hcall
      · obtain rfl := List.mem_singleton.mp hcall
        exact fun pin hpin hmark => M.owner hat hpin hmark
    · exact M.calls call hcall

/-- The object that the move constructor makes is not marked, and so the old one must not be. -/
theorem MarkInv.move_construct (M : MarkInv s) (I : PinnedInv s)
    (hok : ConstructsFromUnmarked s (.move_construct i))
    (h : s.next (.move_construct i) = some t) : MarkInv t := by
  obtain ⟨other, hat, rfl⟩ := Option.map_eq_some_iff.mp h
  refine ⟨fun o ho pin hpin hmark => ?_, M.calls, M.fresh⟩
  rcases List.mem_append.mp ho with ho | ho
  · rcases List.mem_or_eq_of_mem_set ho with ho | ho
    · exact M.objects o ho pin hpin hmark
    · cases ho
      cases hpin
  · cases List.mem_singleton.mp ho
    have hvalid : other.page.valid = true := by
      unfold PinnedPage.valid
      rcases I.owns hat with ⟨_, hnone⟩ | ⟨f, _, _, h1, _⟩
      · rw [hnone] at hpin
        cases hpin
      · rw [h1]
        rfl
    have hclean := hok other hat hvalid
    rw [M.owner hat hpin hmark] at hclean
    cases hclean

/-- The move assignment passes the mark on. -/
theorem MarkInv.move_assign (M : MarkInv s) {j : Nat} (h : s.next (.move_assign i j) = some t) :
    MarkInv t := by
  obtain ⟨target, hi, h⟩ := Option.bind_eq_some_iff.mp h
  obtain ⟨other, hj, rfl⟩ := Option.map_eq_some_iff.mp h
  split
  · exact M
  have M1 := M.unpin hi
  refine ⟨fun o ho pin hpin hmark => ?_, M1.calls, M.fresh⟩
  rcases List.mem_or_eq_of_mem_set ho with ho | ho
  · rcases List.mem_or_eq_of_mem_set ho with ho | ho
    · exact M.objects o ho pin hpin hmark
    · cases ho
      exact M.owner hj hpin hmark
  · cases ho
    cases hpin

theorem MarkInv.construct (M : MarkInv s) {page : Option FrameID}
    (h : s.next (.construct page) = some t) : MarkInv t := by
  rcases page with _ | f
  · cases h
    refine ⟨fun o ho => ?_, M.calls, M.fresh⟩
    rcases List.mem_append.mp ho with ho | ho
    · exact M.objects o ho
    · cases List.mem_singleton.mp ho
      intro pin hpin
      cases hpin
  · obtain ⟨n, _, rfl⟩ := Option.map_eq_some_iff.mp h
    refine ⟨fun o ho => ?_, M.calls, fun pin hmark => ?_⟩
    · rcases List.mem_append.mp ho with ho | ho
      · exact M.objects o ho
      · cases List.mem_singleton.mp ho
        intro pin hpin hmark
        obtain rfl : s.taken.length = pin := Option.some.inj hpin
        exact absurd (M.fresh _ hmark) (Nat.lt_irrefl _)
    · have := M.fresh pin hmark
      simp only [List.length_append, List.length_singleton]
      omega

/-- A mark is on the pin of one object, and it is not released yet. -/
theorem MarkInv.mark_dirty (M : MarkInv s) (I : PinnedInv s) (h : s.next (.mark_dirty i) = some t) :
    MarkInv t := by
  obtain ⟨o, hat, rfl⟩ := Option.map_eq_some_iff.mp h
  have hmarked : ∀ {pin : Nat}, (s.marked pin || o.pin == some pin) = true → o.pin ≠ some pin →
      s.marked pin = true := by
    intro pin hm hne
    rw [Bool.or_eq_true, beq_iff_eq] at hm
    exact hm.resolve_right hne
  refine ⟨fun o' ho pin hpin hm => ?_, fun call hcall pin hpin hm => ?_, fun pin hm => ?_⟩
  · rcases mem_set_other ho with ho | ho
    · cases ho
      rfl
    · refine M.objects o' (mem_of_mem_set_none ho) pin hpin (hmarked hm fun he => ?_)
      exact (I.sole hat he).1 o' ho hpin
  · exact M.calls call hcall pin hpin (hmarked hm fun he => (I.sole hat he).2 call hcall hpin)
  · by_cases he : o.pin = some pin
    · rcases I.owns hat with ⟨_, hnone⟩ | ⟨f, k, n, _, h2, h3, _⟩
      · rw [hnone] at he
        cases he
      · obtain rfl : k = pin := Option.some.inj (h2.symm.trans he)
        exact (List.getElem?_eq_some_iff.mp h3).1
    · exact M.fresh pin (hmarked hm he)

/-- Every step that makes no object from a marked one keeps the marks. -/
theorem MarkInv.next (M : MarkInv s) (I : PinnedInv s) {op : PinnedPageOp}
    (hok : ConstructsFromUnmarked s op) (h : s.next op = some t) : MarkInv t := by
  cases op with
  | construct page => exact M.construct h
  | move_construct i => exact M.move_construct I hok h
  | move_assign i j => exact M.move_assign h
  | mark_dirty i => exact M.mark_dirty I h
  | destroy i =>
    obtain ⟨o, hat, rfl⟩ := Option.map_eq_some_iff.mp h
    exact M.unpin hat
  | other call =>
    obtain ⟨store, _, rfl⟩ := Option.map_eq_some_iff.mp h
    exact ⟨M.objects, M.calls, M.fresh⟩

/-! ## The law -/

/-- Each pin that was taken is owned by one object, or was released by one call of `unpin_page`, and
every call released a pin of its page. The counts of the pool agree. -/
def PinsReleasedOnce (s : PinnedPages) : Prop :=
  (∀ pin, pin < s.taken.length →
    owners_of s.owned_pins pin + owners_of s.released_pins pin = 1) ∧
  (∀ call ∈ s.calls, Releases s call) ∧
  AccountsForPins s.store.pool s.store.pins s.current_pages

theorem pinnedInv_start (h : pinnedPagesMachine.start s) : PinnedInv s ∧ MarkInv s := by
  obtain ⟨store, hstart, rfl⟩ := h
  refine ⟨⟨Owned.no_object (inOrder_start hstart), fun pin => rfl, fun o ho => ?_, fun call hc => ?_⟩,
    ⟨fun o ho => ?_, fun call hc => ?_, fun pin hm => ?_⟩⟩
  · cases ho
  · cases hc
  · cases ho
  · cases hc
  · cases hm

/-- Whatever is constructed, moved, marked and destroyed, each pin is released once. -/
theorem pins_are_released_once (h : pinnedPagesMachine.Reach PinsHandedOver s) :
    PinsReleasedOnce s := by
  have I : PinnedInv s := by
    apply h.invariant
    · exact fun s h0 => (pinnedInv_start h0).1
    · exact fun s op t I hok hn => I.next hok hn
  exact ⟨fun pin hpin => (I.once pin).trans (if_pos hpin), I.calls, I.owned.accounts⟩

/-- As long as no object is move-constructed from a marked one that has a page, each pin is
released once, and as dirty if `mark_dirty` was called on any of its owners. -/
theorem pins_are_released_once_and_dirty (s : PinnedPages)
    (h : pinnedPagesMachine.Reach (fun s op => PinsHandedOver s op ∧ ConstructsFromUnmarked s op) s) :
    PinsReleasedOnce s ∧ MarksReleased s := by
  refine ⟨pins_are_released_once (h.mono fun _ _ hok => hok.1), ?_⟩
  have IM : PinnedInv s ∧ MarkInv s := by
    apply h.invariant
    · exact fun s h0 => pinnedInv_start h0
    · exact fun s op t IM hok hn => ⟨IM.1.next hok.1 hn, IM.2.next IM.1 hok.2 hn⟩
  exact IM.2.calls

end

/-! ## A mark that is lost -/

/-- `PinsHandedOver`, decided. -/
def hands_over (s : PinnedPages) : PinnedPageOp → Bool
  | .construct page => page.all fun f => (s.store.pool.frames f).page_id.any fun n =>
      s.store.pool.page_table (some n) == some f && decide (0 < s.store.pins n)
  | .other call => decide (CallersMatchPins s.store call) && decide (DeletesAllocated s.store call)
  | .move_construct _ | .move_assign _ _ | .mark_dirty _ | .destroy _ => true

theorem pinsHandedOver_of_check {s : PinnedPages} {op : PinnedPageOp} (h : hands_over s op = true) :
    PinsHandedOver s op := by
  unfold hands_over at h
  cases op with
  | construct page =>
    rintro f rfl
    simp only [Option.all_some, Option.any_eq_true, Bool.and_eq_true, beq_iff_eq,
      decide_eq_true_eq] at h
    obtain ⟨n, _, hc, hpos⟩ := h
    exact ⟨n, hc, hpos⟩
  | other call =>
    simp only [Bool.and_eq_true, decide_eq_true_eq] at h
    exact h
  | move_construct i => trivial
  | move_assign i j => trivial
  | mark_dirty i => trivial
  | destroy i => trivial

/-- `ConstructsFromUnmarked`, decided. -/
def constructs_from_unmarked (s : PinnedPages) : PinnedPageOp → Bool
  | .move_construct i => (s.object_at i).all fun o => !o.page.valid || !o.page.dirty_
  | .construct _ | .move_assign _ _ | .mark_dirty _ | .destroy _ | .other _ => true

theorem constructsFromUnmarked_of_check {s : PinnedPages} {op : PinnedPageOp}
    (h : constructs_from_unmarked s op = true) : ConstructsFromUnmarked s op := by
  unfold constructs_from_unmarked at h
  cases op with
  | move_construct i =>
    intro o hat hvalid
    simpa [hat, hvalid] using h
  | construct page => trivial
  | move_assign i j => trivial
  | mark_dirty i => trivial
  | destroy i => trivial
  | other call => trivial

/-- A pool of `k` empty frames over a new disk, and no objects. -/
def no_pinned_pages (k : Nat) : PinnedPages := ⟨new_pool k, [], [], fun _ => false, []⟩

theorem no_pinned_pages_starts (k : Nat) : pinnedPagesMachine.start (no_pinned_pages k) :=
  ⟨new_pool k, new_pool_starts k, rfl⟩

/-- The pin of page 1 passes through three objects. The second one is marked, and the third unpins
the page as dirty. -/
theorem a_mark_goes_with_a_move_assignment : ∃ s,
    s.calls = [⟨some 0, some 1, true⟩] ∧ s.marked 0 = true ∧ PinsReleasedOnce s ∧ MarksReleased s := by
  obtain ⟨s, hs, hp⟩ : ∃ s, pinnedPagesMachine.execIf
      (fun s op => hands_over s op && constructs_from_unmarked s op) (no_pinned_pages 1)
      [.other .new_page, .construct (some 0), .move_construct 0, .mark_dirty 1, .construct none,
        .move_assign 2 1, .destroy 2, .destroy 1, .destroy 0] = some s ∧
      (s.calls == [⟨some 0, some 1, true⟩] && s.marked 0) = true := by
    apply Option.map_eq_some_iff.mp
    decide +kernel
  rw [Bool.and_eq_true, beq_iff_eq] at hp
  have hcheck : ∀ s op, (hands_over s op && constructs_from_unmarked s op) = true →
      PinsHandedOver s op ∧ ConstructsFromUnmarked s op := by
    intro s op hc
    rw [Bool.and_eq_true] at hc
    exact ⟨pinsHandedOver_of_check hc.1, constructsFromUnmarked_of_check hc.2⟩
  have hrun := Machine.run_of_execIf hcheck hs
  exact ⟨s, hp.1, hp.2,
    pins_are_released_once_and_dirty s ((Machine.Reach.start (no_pinned_pages_starts 1)).run hrun)⟩

/-- An object is made from a marked one, and unpins the page that was written as clean. -/
theorem the_move_constructor_loses_the_mark :
    ¬ ∀ s, pinnedPagesMachine.Reach PinsHandedOver s → PinsReleasedOnce s ∧ MarksReleased s := by
  intro h
  obtain ⟨s, hs, hp⟩ : ∃ s, pinnedPagesMachine.execIf hands_over (no_pinned_pages 1)
      [.other .new_page, .construct (some 0), .mark_dirty 0, .move_construct 0, .destroy 1,
        .destroy 0] = some s ∧
      (s.calls == [⟨some 0, some 1, false⟩] && s.marked 0) = true := by
    apply Option.map_eq_some_iff.mp
    decide +kernel
  rw [Bool.and_eq_true, beq_iff_eq] at hp
  obtain ⟨hcalls, hmark⟩ := hp
  have hrun := Machine.run_of_execIf (fun s op hc => pinsHandedOver_of_check hc) hs
  have hall := (h s ((Machine.Reach.start (no_pinned_pages_starts 1)).run hrun)).2
  unfold MarksReleased at hall
  rw [hcalls] at hall
  cases hall _ List.mem_cons_self 0 rfl hmark

end duck.buffer_pool
