-- The chains of a catalog: every page of the disk belongs to one table, to the
-- catalog, to the free list or to nobody, whatever the calls of the catalog and
-- of its tables return, and whoever else has pages pinned.
import DuckDbms.CatalogLoad
import DuckDbms.ConcurrentInserts

open machine duck.slotted_page duck.disk_manager duck.buffer_pool duck.table_heap duck.table
open duck.tuple chain

namespace duck.catalog

/-! ## The invariant -/

/-- The first pages of the catalog and of the registered tables. -/
def CatalogSystem.heads (s : CatalogSystem) (h : Nat) : Prop :=
  s.catalog_table.table_heap = some h ∨
    ∃ name entry, s.tables name = some entry ∧ entry.table.table_heap = some h

/-- The RID is on a page of the table. -/
def RidOf (b : BufferPoolManager) (table : Table) (rid : RID) : Prop :=
  ∃ h n, table.table_heap = some h ∧ rid.page_id = some n ∧ OnPath (succ b) h n

/-- The heaps of the catalog and of the tables are apart from each other and from the header
page of the disk, and the row of each table is in the catalog. -/
structure Sound (s : CatalogSystem) : Prop where
  heap : HeapState True s.heap.outside (fun _ => False) s.heads s.heap.pool
  metadata : ¬ OnChain (succ s.heap.pool) s.heads 0
  own : s.catalog_table.table_heap ≠ none
  table : ∀ name entry, s.tables name = some entry →
    entry.table.table_heap ≠ none ∧ entry.table.table_heap ≠ s.catalog_table.table_heap ∧
      RidOf s.heap.pool s.catalog_table entry.rid
  apart : ∀ name name' entry entry', s.tables name = some entry →
    s.tables name' = some entry' → entry.table.table_heap = entry'.table.table_heap →
    name = name'

section
variable {s : CatalogSystem} {b b' : BufferPoolManager} {heads : Nat → Prop} {table : Table}

theorem Sound.head (S : Sound s) {name : List UInt8} {entry : TableEntry}
    (h : s.tables name = some entry) : ∃ h, entry.table.table_heap = some h ∧ s.heads h := by
  obtain ⟨h1, _⟩ := S.table name entry h
  obtain ⟨x, hx⟩ := Option.ne_none_iff_exists'.mp h1
  exact ⟨x, hx, Or.inr ⟨name, entry, h, hx⟩⟩

theorem Sound.catalog_head (S : Sound s) : ∃ c, s.catalog_table.table_heap = some c ∧ s.heads c := by
  obtain ⟨c, hc⟩ := Option.ne_none_iff_exists'.mp S.own
  exact ⟨c, hc, Or.inl hc⟩

theorem RidOf.onChain {rid : RID} (h : RidOf b table rid)
    (hh : ∀ h, table.table_heap = some h → heads h) :
    ∃ n, rid.page_id = some n ∧ OnChain (succ b) heads n := by
  obtain ⟨k, n, hk, hn, hp⟩ := h
  exact ⟨n, hn, k, hh k hk, hp⟩

theorem RidOf.grows {rid : RID} (h : RidOf b table rid)
    (hpath : ∀ h, table.table_heap = some h → ∀ m, OnPath (succ b) h m → OnPath (succ b') h m) :
    RidOf b' table rid := by
  obtain ⟨k, n, hk, hn, hp⟩ := h
  exact ⟨k, n, hk, hn, hpath k hk n hp⟩

/-- The chains may get longer, but not by the header page. -/
theorem Sound.with_heap (S : Sound s) {p : HeapPool}
    (H : HeapState True p.outside (fun _ => False) s.heads p.pool)
    (hpath : ∀ h, s.heads h → ∀ m, OnPath (succ s.heap.pool) h m → OnPath (succ p.pool) h m)
    (hzero : ∀ h, s.heads h → OnPath (succ p.pool) h 0 → OnPath (succ s.heap.pool) h 0) :
    Sound { s with heap := p } where
  heap := H
  metadata := by
    rintro ⟨h, hh, hp⟩
    exact S.metadata ⟨h, hh, hzero h hh hp⟩
  own := S.own
  table name entry he := by
    obtain ⟨h1, h2, h3⟩ := S.table name entry he
    exact ⟨h1, h2, h3.grows fun h hh => hpath h (Or.inl hh)⟩
  apart := S.apart

theorem Sound.same_contents (S : Sound s) {p : HeapPool}
    (H : HeapState True p.outside (fun _ => False) s.heads p.pool)
    (hc : contents p.pool = contents s.heap.pool) : Sound { s with heap := p } :=
  S.with_heap H (fun h _ m hp => by rwa [succ_congr hc]) fun h _ hp => by rwa [succ_congr hc] at hp

theorem Sound.ran (S : Sound s)
    (R : Ran True s.heads s.heap.outside (fun _ => False) s.heap.pool b') : Sound (s.with_pool b') := by
  refine S.with_heap (p := ⟨b', s.heap.outside⟩) R.heap R.onPath fun h hh hp => ?_
  rcases R.joined h hh 0 hp with hp | hno
  · exact hp
  · exact absurd S.heap.metadata hno

theorem Sound.looked (S : Sound s)
    (L : Looked True s.heads s.heap.outside (fun _ => False) s.heap.pool b') :
    Sound (s.with_pool b') :=
  S.same_contents (p := ⟨b', s.heap.outside⟩) L.heap L.same

/-! ## The calls of a table -/

/-- An insert into one of the heaps returns, with a RID of its table if it placed the tuple. -/
theorem insert_ran {outside : Nat → Nat} {pending : Nat → Prop}
    (H : HeapState True outside pending heads b) {h : Nat} (hh : heads h)
    (htable : table.table_heap = some h) {schema : Schema} (tuple : Tuple schema) :
    ∃ r b', table.insert_tuple b tuple = some (r, b') ∧
      Ran True heads outside pending b b' ∧ ∀ rid, r = .ok (some rid) → RidOf b' table rid := by
  unfold Table.insert_tuple
  split
  · exact ⟨_, b, rfl, ran_refl H, fun rid h => by cases h⟩
  rcases tuple.serialize with e | bytes
  · exact ⟨_, b, rfl, ran_refl H, fun rid h => by cases h⟩
  obtain ⟨r, b', hr⟩ := H.insert_tuple_returns hh trivial bytes
  obtain ⟨R, I⟩ := H.insert_tuple hh hr fun h => absurd trivial h
  simp only [htable, hr]
  refine ⟨_, b', rfl, R, fun rid he => ?_⟩
  cases I with
  | @placed n slot hp =>
    cases he
    exact ⟨h, n, htable, rfl, hp⟩
  | refused hno =>
    rcases r with e | o
    · cases he
    · cases he
      exact absurd rfl (hno rid)

theorem delete_ran {outside : Nat → Nat} {pending : Nat → Prop}
    (H : HeapState True outside pending heads b) {rid : RID}
    (hrid : ∃ n, rid.page_id = some n ∧ OnChain (succ b) heads n) :
    Ran True heads outside pending b (Table.delete_tuple b rid).2 := by
  obtain ⟨p, slot⟩ := rid
  obtain ⟨n, rfl, hn⟩ := hrid
  unfold Table.delete_tuple
  rcases H.get_tuple hn slot with ⟨b1, h1, R, _⟩ | ⟨h1, _⟩
  · rw [h1]
    generalize Option.filter _ _ = o
    rcases o with _ | bytes
    · exact R
    · rcases R.heap.delete_tuple (R.onChain hn) slot with ⟨b2, h2, R', _⟩ | ⟨h2, _⟩
      · simp only [h2]
        exact R.trans R'
      · simp only [h2]
        exact R
  · rw [h1]
    exact ran_refl H

theorem update_ran {outside : Nat → Nat} {pending : Nat → Prop}
    (H : HeapState True outside pending heads b) {h : Nat} (hh : heads h)
    (htable : table.table_heap = some h) {rid : RID}
    (hrid : ∃ n, rid.page_id = some n ∧ OnChain (succ b) heads n) {schema : Schema}
    (tuple : Tuple schema) :
    ∃ r b', table.update_tuple b rid tuple = some (r, b') ∧ Ran True heads outside pending b b' := by
  obtain ⟨p, slot⟩ := rid
  obtain ⟨n, rfl, hn⟩ := hrid
  unfold Table.update_tuple
  split
  · exact ⟨_, b, rfl, ran_refl H⟩
  rcases H.get_tuple hn slot with ⟨b1, h1, R, _⟩ | ⟨h1, _⟩
  · rw [h1]
    generalize Option.filter _ _ = o
    rcases o with _ | old
    · exact ⟨_, b1, rfl, R⟩
    · rcases tuple.serialize with e | bytes
      · exact ⟨_, b1, rfl, R⟩
      · obtain ⟨r, b2, hr, R'⟩ := R.heap.update_ran hh (R.onChain hn) slot bytes
        simp only [htable, hr]
        exact ⟨_, b2, rfl, R.trans R'⟩
  · rw [h1]
    exact ⟨_, b, rfl, ran_refl H⟩

/-! ## Tables that come and go -/

/-- The heaps with that of a table that is registered. -/
theorem heads_with {t : CatalogSystem} {name : List UInt8} {entry : TableEntry} {x : Nat}
    (hown : t.catalog_table = s.catalog_table)
    (htables : t.tables = Function.update s.tables name (some entry)) (hnew : s.tables name = none)
    (hx : entry.table.table_heap = some x) (k : Nat) : t.heads k ↔ s.heads k ∨ k = x := by
  unfold CatalogSystem.heads
  rw [hown, htables]
  constructor
  · rintro (hk | ⟨name', entry', he, hk⟩)
    · exact Or.inl (Or.inl hk)
    · by_cases hn : name' = name
      · subst hn
        rw [Function.update_self] at he
        cases he
        exact Or.inr (Option.some.inj (hx.symm.trans hk)).symm
      · rw [Function.update_of_ne hn] at he
        exact Or.inl (Or.inr ⟨name', entry', he, hk⟩)
  · rintro ((hk | ⟨name', entry', he, hk⟩) | rfl)
    · exact Or.inl hk
    · refine Or.inr ⟨name', entry', ?_, hk⟩
      rw [Function.update_of_ne, he]
      rintro rfl
      rw [hnew] at he
      cases he
    · exact Or.inr ⟨name, entry, Function.update_self .., hx⟩

/-- A table that is registered on the first page of a new heap. -/
theorem Sound.register (S : Sound s) {name : List UInt8} {entry : TableEntry} {x : Nat}
    (hnew : s.tables name = none) (hx : entry.table.table_heap = some x)
    (hfresh : ¬ Allocated s.heap.pool.disk_manager x)
    (H : HeapState True s.heap.outside (fun _ => False) (fun h => s.heads h ∨ h = x) b')
    (hpath : ∀ h, s.heads h → ∀ m, OnPath (succ s.heap.pool) h m → OnPath (succ b') h m)
    (hzero : ∀ h, s.heads h ∨ h = x → ¬ OnPath (succ b') h 0)
    (hrid : RidOf b' s.catalog_table entry.rid) :
    Sound ((s.with_pool b').set_table name (some entry)) := by
  have hother : ∀ h, s.heads h → h ≠ x := by
    rintro h hh rfl
    exact hfresh (S.heap.pages h ⟨h, hh, S.heap.forest.onPath_head hh⟩).2
  -- the entries are those from before, and the new one
  have hcases : ∀ name' e, ((s.with_pool b').set_table name (some entry)).tables name' = some e →
      (name' = name ∧ e = entry) ∨ (name' ≠ name ∧ s.tables name' = some e) := by
    intro name' e he
    simp only [CatalogSystem.set_table, CatalogSystem.with_pool] at he
    by_cases hn : name' = name
    · subst hn
      rw [Function.update_self] at he
      exact Or.inl ⟨rfl, (Option.some.inj he).symm⟩
    · rw [Function.update_of_ne hn] at he
      exact Or.inr ⟨hn, he⟩
  have hsub : ∀ h, ((s.with_pool b').set_table name (some entry)).heads h → s.heads h ∨ h = x := by
    intro h
    apply (heads_with ?_ ?_ hnew hx h).mp
    · rfl
    · rfl
  refine ⟨H.sub hsub, ?_, S.own, ?_, ?_⟩
  · rintro ⟨h, hh, hp⟩
    exact hzero h (hsub h hh) hp
  · intro name' e he
    rcases hcases name' e he with ⟨_, rfl⟩ | ⟨_, he⟩
    · refine ⟨by rw [hx]; simp, fun heq => ?_, hrid⟩
      rw [hx] at heq
      exact hother x (Or.inl heq.symm) rfl
    · obtain ⟨h1, h2, h3⟩ := S.table name' e he
      exact ⟨h1, h2, h3.grows fun h hh => hpath h (Or.inl hh)⟩
  · intro n1 n2 e1 e2 h1 h2 heq
    have hmixed : ∀ name' e, s.tables name' = some e → e.table.table_heap ≠ some x := by
      intro name' e he hp
      exact hother x (Or.inr ⟨name', e, he, hp⟩) rfl
    rcases hcases n1 e1 h1 with ⟨rfl, rfl⟩ | ⟨_, k1⟩ <;>
      rcases hcases n2 e2 h2 with ⟨rfl, rfl⟩ | ⟨_, k2⟩
    · rfl
    · exact absurd (heq.symm.trans hx) (hmixed n2 e2 k2)
    · exact absurd (heq.trans hx) (hmixed n1 e1 k1)
    · exact S.apart n1 n2 e1 e2 k1 k2 heq

/-- The heaps of the tables that are left. -/
theorem Sound.heads_without (S : Sound s) {name : List UInt8} {entry : TableEntry} {x : Nat}
    (he : s.tables name = some entry) (hx : entry.table.table_heap = some x) (k : Nat) :
    ((s.with_pool b').set_table name none).heads k ↔ s.heads k ∧ k ≠ x := by
  constructor
  · rintro (hc | ⟨name', entry', he', hk⟩)
    · refine ⟨Or.inl hc, ?_⟩
      rintro rfl
      exact (S.table name entry he).2.1 (hx.trans hc.symm)
    · simp only [CatalogSystem.set_table, CatalogSystem.with_pool] at he'
      have hne : name' ≠ name := by
        rintro rfl
        rw [Function.update_self] at he'
        cases he'
      rw [Function.update_of_ne hne] at he'
      refine ⟨Or.inr ⟨name', entry', he', hk⟩, ?_⟩
      rintro rfl
      exact hne (S.apart name' name entry' entry he' he (hk.trans hx.symm))
  · rintro ⟨hc | ⟨name', entry', he', hk⟩, hne⟩
    · exact Or.inl hc
    · refine Or.inr ⟨name', entry', ?_, hk⟩
      simp only [CatalogSystem.set_table, CatalogSystem.with_pool]
      rw [Function.update_of_ne, he']
      rintro rfl
      rw [he] at he'
      cases he'
      rw [hx] at hk
      exact hne (Option.some.inj hk).symm

/-- A table that is not registered any more. -/
theorem Sound.unregister (S : Sound s) {name : List UInt8} {entry : TableEntry} {x : Nat}
    (he : s.tables name = some entry) (hx : entry.table.table_heap = some x)
    (H : HeapState True s.heap.outside (fun _ => False) (fun h => s.heads h ∧ h ≠ x) b')
    (hsame : ∀ h, s.heads h ∧ h ≠ x → ∀ m, OnPath (succ b') h m ↔ OnPath (succ s.heap.pool) h m) :
    Sound ((s.with_pool b').set_table name none) := by
  have hcases : ∀ name' e, ((s.with_pool b').set_table name none).tables name' = some e →
      name' ≠ name ∧ s.tables name' = some e := by
    intro name' e h
    simp only [CatalogSystem.set_table, CatalogSystem.with_pool] at h
    by_cases hn : name' = name
    · subst hn
      rw [Function.update_self] at h
      cases h
    · rw [Function.update_of_ne hn] at h
      exact ⟨hn, h⟩
  have hsub : ∀ h, ((s.with_pool b').set_table name none).heads h → s.heads h ∧ h ≠ x := fun h =>
    (S.heads_without he hx h).mp
  refine ⟨H.sub hsub, ?_, S.own, ?_, ?_⟩
  · rintro ⟨h, hh, hp⟩
    have hh := hsub h hh
    exact S.metadata ⟨h, hh.1, (hsame h hh 0).mp hp⟩
  · intro name' e h'
    obtain ⟨h1, h2, h3⟩ := S.table name' e (hcases name' e h').2
    refine ⟨h1, h2, h3.grows fun c hc m hp => ?_⟩
    exact (hsame c (hsub c (Or.inl hc)) m).mpr hp
  · intro n1 n2 e1 e2 h1 h2
    exact S.apart n1 n2 e1 e2 (hcases n1 e1 h1).2 (hcases n2 e2 h2).2

/-- The pool with the first page of a new heap, which is not registered yet. -/
structure Created (s : CatalogSystem) (x : Nat) (b : BufferPoolManager) : Prop where
  fresh : ¬ Allocated s.heap.pool.disk_manager x
  heap : HeapState True s.heap.outside (fun _ => False) (fun h => s.heads h ∨ h = x) b
  contents_eq : contents b = Function.update (contents s.heap.pool) x emptyMeaning
  capacity : b.pool_capacity = s.heap.pool.pool_capacity
  allocated : ∀ m, Allocated s.heap.pool.disk_manager m → Allocated b.disk_manager m
  /-- the old chains stay as they are, and the new one is a page of its own -/
  onPath : ∀ h, s.heads h → ∀ m, OnPath (succ b) h m ↔ OnPath (succ s.heap.pool) h m
  onPath_new : ∀ m, OnPath (succ b) x m ↔ m = x

theorem Sound.create (S : Sound s) :
    (∃ x b, table_heap.create s.heap.pool = (.ok (some x), b) ∧ Created s x b) ∨
    ∃ e b, table_heap.create s.heap.pool = (.error e, b) ∧ AllPinned s.heap.pool ∧
      HeapState True s.heap.outside (fun _ => False) s.heads b ∧
      contents b = contents s.heap.pool := by
  rcases S.heap.create fun h => absurd trivial h with
    ⟨x, b, hc, hx, H, hb, hk, hal⟩ | ⟨e, hc, hall, H, hb⟩
  swap
  · exact Or.inr ⟨e, _, hc, hall, H, hb⟩
  have hxc : ¬ OnChain (succ s.heap.pool) s.heads x := fun h => hx (S.heap.pages x h).2
  obtain ⟨F, hold⟩ := S.heap.forest.congr (f := succ b) fun m hm => by
    have hne : m ≠ x := fun he => hxc (he ▸ hm)
    unfold succ
    rw [hb, Function.update_of_ne hne]
  obtain ⟨_, hone⟩ := F.add (x := x)
    (fun ⟨h, hh, hp⟩ => hxc ⟨h, hh, (hold h hh x).mp hp⟩) (by
      unfold succ
      rw [hb, Function.update_self]
      rfl)
  exact Or.inl ⟨x, b, hc, hx, H, hb, hk, hal, hold, hone⟩

section
variable {x : Nat} {b1 : BufferPoolManager}

/-- The new page is on no chain that there was. -/
theorem Created.new (C : Created s x b1) (S : Sound s) : ¬ OnChain (succ s.heap.pool) s.heads x :=
  fun h => C.fresh (S.heap.pages x h).2

theorem Created.not_zero (C : Created s x b1) (S : Sound s) {h : Nat} (hh : s.heads h ∨ h = x) :
    ¬ OnPath (succ b1) h 0 := by
  intro hp
  rcases hh with hh | rfl
  · exact S.metadata ⟨h, hh, (C.onPath h hh 0).mp hp⟩
  · exact C.fresh ((C.onPath_new 0).mp hp ▸ S.heap.metadata)

/-- What came after the new page leaves the old chains sound. -/
theorem Created.sound (C : Created s x b1) (S : Sound s)
    (R : Ran True (fun h => s.heads h ∨ h = x) s.heap.outside (fun _ => False) b1 b') :
    Sound (s.with_pool b') := by
  refine S.with_heap (p := ⟨b', s.heap.outside⟩) (R.heap.sub fun h hh => Or.inl hh)
    (fun h hh m hp => R.onPath h (Or.inl hh) m ((C.onPath h hh m).mpr hp)) fun h hh hp => ?_
  rcases R.joined h (Or.inl hh) 0 hp with hp | hno
  · exact (C.onPath h hh 0).mp hp
  · exact absurd C.heap.metadata hno

/-- The table of the new page is registered with its row. -/
theorem Created.register (C : Created s x b1) (S : Sound s)
    (R : Ran True (fun h => s.heads h ∨ h = x) s.heap.outside (fun _ => False) b1 b')
    {name : List UInt8} (hnew : s.tables name = none) {rid : RID}
    (hrid : RidOf b' s.catalog_table rid) (schema : Schema) :
    Sound ((s.with_pool b').set_table name (some ⟨rid, ⟨some x, schema⟩⟩)) := by
  refine S.register hnew rfl C.fresh R.heap ?_ ?_ hrid
  · exact fun h hh m hp => R.onPath h (Or.inl hh) m ((C.onPath h hh m).mpr hp)
  · intro h hh hp
    rcases R.joined h hh 0 hp with hp | hno
    · exact C.not_zero S hh hp
    · exact hno C.heap.metadata

end

/-- `create_table` returns, or throws; a page that it took for a table that it could not
register is lost. -/
theorem Sound.create_table (S : Sound s) (name : List UInt8) (schema : Schema) :
    ∃ r t, s.create_table name schema none = some (r, t) ∧ Sound t := by
  unfold CatalogSystem.create_table
  split
  · exact ⟨_, s, rfl, S⟩
  rename_i hnew
  have hnone : s.tables name = none := by simpa using hnew
  rcases S.create with ⟨x, b1, hc, C⟩ | ⟨e, b1, hc, _, H, hb⟩
  swap
  · rw [hc]
    exact ⟨_, _, rfl, S.same_contents (p := ⟨b1, s.heap.outside⟩) H hb⟩
  rw [hc]
  simp only
  rcases entry_tuple name (some x) schema with e | entry
  · exact ⟨_, _, rfl, C.sound S (ran_refl C.heap)⟩
  obtain ⟨c, hcat, hcc⟩ := S.catalog_head
  obtain ⟨r, b2, hr, R, hrid⟩ := insert_ran C.heap (Or.inl hcc) hcat entry
  have hinsert : (s.with_pool b1).insert_entry entry none = some (r, s.with_pool b2) := by
    show Option.map _ (s.catalog_table.insert_tuple b1 entry) = _
    rw [hr]
    rfl
  simp only [hinsert, Option.map_some]
  rcases r with e | _ | rid
  · exact ⟨_, _, rfl, C.sound S R⟩
  · exact ⟨_, _, rfl, C.sound S R⟩
  · exact ⟨_, _, rfl, C.register S R hnone (hrid rid rfl) schema⟩

/-- A table that is not registered any more, once its pages are given up. -/
theorem Sound.gives_up (S : Sound s) {name : List UInt8} {entry : TableEntry} {x : Nat}
    (he : s.tables name = some entry) (hx : entry.table.table_heap = some x) {l : List Nat}
    (hl : Path (succ s.heap.pool) (some x) l)
    (D : Dropped True (fun h => s.heads h ∧ h ≠ x) s.heap.outside (fun _ => False) l s.heap.pool
      b') :
    (∀ h, s.heads h → h ≠ x → ∀ m, OnPath (succ b') h m ↔ OnPath (succ s.heap.pool) h m) ∧
      Sound ((s.with_pool b').set_table name none) := by
  have hh : s.heads x := Or.inr ⟨name, entry, he, hx⟩
  -- the pages that were given back are on no other chain
  obtain ⟨_, hpath⟩ := (S.heap.forest.sub fun k (hk : s.heads k ∧ k ≠ x) => hk.1).congr
    (f := succ b') fun m hm => by
      obtain ⟨k, hk, hp⟩ := hm
      unfold succ
      rw [D.same m fun hml => hk.2 (S.heap.forest.unique hk.1 hh hp ⟨l, hl, hml⟩)]
  exact ⟨fun h hk hne => hpath h ⟨hk, hne⟩, S.unregister he hx D.heap hpath⟩

/-- The end of `drop_table` and of `delete_table`: the pages of the table are given up and its name
is free, or they cannot all be read and nothing happens. -/
theorem Sound.drop_entry_cases (S : Sound s) {name : List UInt8} {entry : TableEntry}
    (he : s.tables name = some entry) (who : String) :
    (∃ x l b' b1, s.drop_entry name entry.table who = some (.ok (), (s.with_pool b').set_table name none) ∧
      entry.table.table_heap = some x ∧ s.heads x ∧ Path (succ s.heap.pool) (some x) l ∧
      table_heap.all_pages s.heap.pool entry.table.table_heap =
        some (.ok (l.map some, .SUCCESS), b1) ∧
      Dropped True (fun h => s.heads h ∧ h ≠ x) s.heap.outside (fun _ => False) l s.heap.pool b' ∧
      (∀ h, s.heads h → h ≠ x → ∀ m, OnPath (succ b') h m ↔ OnPath (succ s.heap.pool) h m) ∧
      Sound ((s.with_pool b').set_table name none)) ∨
    (∃ e b', s.drop_entry name entry.table who = some (.error e, s.with_pool b') ∧ AllPinned b' ∧
      Looked True s.heads s.heap.outside (fun _ => False) s.heap.pool b' ∧ Sound (s.with_pool b')) := by
  obtain ⟨x, hx, hh⟩ := S.head he
  obtain ⟨l, hl⟩ := S.heap.forest.ends x hh
  have hzero : ¬ OnPath (succ s.heap.pool) x 0 := fun hp => S.metadata ⟨x, hh, hp⟩
  unfold CatalogSystem.drop_entry
  rcases S.heap.drop_pages hh hzero (fun k hk => hk) hl with ⟨failed, b', hd, D⟩ | ⟨b', hd, L, hall⟩
  · left
    obtain ⟨hpath, St⟩ := S.gives_up he hx hl D
    obtain ⟨b1, _, hpages | ⟨⟨found, hpages⟩, _⟩⟩ := S.heap.all_pages hh hl
    swap
    · unfold drop_pages at hd
      rw [hpages] at hd
      cases hd
    rw [hx, hd]
    exact ⟨x, l, b', b1, rfl, rfl, hh, hl, hpages, D, hpath, St⟩
  · right
    rw [hx, hd]
    exact ⟨_, b', rfl, hall, L, S.looked L⟩

theorem Sound.drop_entry (S : Sound s) {name : List UInt8} {entry : TableEntry}
    (he : s.tables name = some entry) (who : String) :
    ∃ r t, s.drop_entry name entry.table who = some (r, t) ∧ Sound t := by
  rcases S.drop_entry_cases he who with ⟨_, _, b', _, hd, _, _, _, _, _, _, St⟩ | ⟨_, b', hd, _, _, St⟩
  · exact ⟨_, _, hd, St⟩
  · exact ⟨_, _, hd, St⟩

theorem Sound.drop_table (S : Sound s) (name : List UInt8) :
    ∃ r t, s.drop_table name = some (r, t) ∧ Sound t := by
  unfold CatalogSystem.drop_table
  rcases he : s.tables name with _ | entry
  · exact ⟨_, s, rfl, S⟩
  simp only
  have hrid := (S.table name entry he).2.2.onChain fun h hh => (Or.inl hh : s.heads h)
  have R := delete_ran S.heap hrid
  generalize Table.delete_tuple s.heap.pool entry.rid = d at R ⊢
  obtain ⟨_ | _ | _, b1⟩ := d
  · exact ⟨_, _, rfl, S.ran R⟩
  · exact ⟨_, _, rfl, S.ran R⟩
  · obtain ⟨r, t, ht, St⟩ := Sound.drop_entry (S.ran R) he "Catalog::drop_table"
    simp only [ht]
    exact ⟨_, t, rfl, St⟩

end

/-! ## Runs -/

/-- A catalog over a new file, with a pool that nobody else uses yet. -/
def catalogMachine : Machine CatalogSystem CatalogEvent where
  start s := ∃ frames, CatalogSystem.make (empty_pool frames) = some (.ok s)
  next := CatalogSystem.next

/-- The RIDs of updates and deletes are on pages of their table, as all those are that its
inserts and updates returned. -/
def OwnRids (s : CatalogSystem) : CatalogEvent → Prop
  | .update_tuple name rid _ _ | .delete_tuple name rid =>
    ∀ entry, s.tables name = some entry → RidOf s.heap.pool entry.table rid
  | _ => True

/-- The tuples of updates are shorter than 65536 bytes. A longer one has its size cut to 16 bits,
and is written past the end of its page. -/
def UpdatesFit : CatalogEvent → Prop
  | .update_tuple _ _ _ tuple => ∀ bytes, tuple.serialize = .ok bytes → bytes.length < 65536
  | _ => True

/-- The first page of the catalog, or of a table. -/
def CatalogSystem.first_page (s : CatalogSystem) : Option (List UInt8) → Option PageID
  | none => some s.catalog_table.table_heap
  | some name => (s.tables name).map fun entry => entry.table.table_heap

/-- The chains of the catalog and of the tables end, without a page twice. They share no page
with each other, and each of their pages has an id below the capacity of the disk that is not
free. The free list has no id twice. -/
def ChainsApart (s : CatalogSystem) : Prop :=
  (∀ owner page, s.first_page owner = some page →
    ∃ h l, page = some h ∧ Path (succ s.heap.pool) page l ∧ l.Nodup ∧
      ∀ n ∈ l, n ≠ 0 ∧ n < s.heap.pool.disk_manager.capacity ∧
        some n ∉ s.heap.pool.disk_manager.free_list) ∧
  (∀ owner owner' page page' l l', owner ≠ owner' → s.first_page owner = some page →
    s.first_page owner' = some page' → Path (succ s.heap.pool) page l →
    Path (succ s.heap.pool) page' l' → l.Disjoint l') ∧
  s.heap.pool.disk_manager.free_list.Nodup

section
variable {s t : CatalogSystem}

/-- A new catalog has no tables and no rows. -/
theorem start_spec (h : catalogMachine.start s) : Sound s ∧ s.tables = (fun _ => none) ∧
    ∀ n, OnChain (succ s.heap.pool) s.heads n → (contents s.heap.pool n).rows = [] := by
  obtain ⟨frames, hmake⟩ := h
  have H0 := heapState_empty_pool frames
  have hnew : (empty_pool frames).disk_manager.capacity ≤ 1 := Nat.le_refl 1
  unfold CatalogSystem.make init_table at hmake
  rw [if_pos hnew] at hmake
  rcases H0.create fun h => absurd trivial h with ⟨x, b, hc, hx, H, hb, hk, _⟩ | ⟨e, hc, _⟩
  swap
  · rw [hc] at hmake
    cases hmake
  rw [hc] at hmake
  simp only [Except.map] at hmake
  have hone : ∀ m, OnPath (succ b) x m → m = x := by
    rintro m ⟨l, hl, hm⟩
    have hpath : Path (succ b) (some x) [x] := by
      refine .cons ?_
      unfold succ
      rw [hb, Function.update_self]
      exact .nil
    rw [hl.unique hpath] at hm
    simpa using hm
  obtain ⟨l, hl⟩ := H.forest.ends x (Or.inr rfl)
  obtain ⟨post, rfl⟩ : ∃ post, l = x :: post := by
    cases hl
    exact ⟨_, rfl⟩
  -- the only page has no rows
  have hrows : leftOver b x 0 post = [] := by
    rw [List.eq_nil_iff_forall_not_mem]
    rintro ⟨rid, t⟩ hm
    obtain ⟨hahead, m, hp, ht⟩ := mem_leftOver.mp hm
    have hmx : m = x := by
      apply hone
      refine ⟨_, hl, ?_⟩
      rcases hahead with ⟨h1, _⟩ | ⟨k, hk, h1⟩
      · rw [hp] at h1
        obtain rfl := Option.some.inj h1
        simp
      · rw [hp] at h1
        obtain rfl := Option.some.inj h1
        simp [hk]
    subst hmx
    rw [hb, Function.update_self] at ht
    cases ht
  -- without a frame there is no page to create
  have hframes : 1 ≤ b.pool_capacity := by
    cases frames with
    | zero =>
      have hno : (create (empty_pool 0)).1 ≠ .ok (some x) := by
        intro h
        cases h
      exact absurd (by rw [hc]) hno
    | succ frames =>
      rw [hk]
      exact Nat.le_add_left 1 frames
  obtain ⟨b', hload, H', hsame, _⟩ := load_existing_tables_spec H hframes (Or.inr rfl) hl
    ⟨some x, catalog_schema⟩ rfl (by simp only [hrows, List.not_mem_nil, false_imp_iff, implies_true])
  simp only [hload, hrows, List.foldl_nil, Option.map_some, Option.some.injEq, Except.ok.injEq] at hmake
  subst hmake
  -- the chain of the catalog is the new page
  have hchain : ∀ m, OnChain (succ b') (CatalogSystem.heads ⟨⟨b', fun _ => 0⟩,
      ⟨fun _ => [], fun _ => {}, fun _ => none⟩, fun _ => [], ⟨some x, catalog_schema⟩,
      fun _ => none⟩) m → m = x := by
    rintro m ⟨h, hh | ⟨_, _, he, _⟩, hp⟩
    · rw [← Option.some.inj hh, succ_congr hsame] at hp
      exact hone m hp
    · cases he
  refine ⟨⟨H'.sub ?_, ?_, ?_, ?_, ?_⟩, rfl, ?_⟩
  · rintro h (hh | ⟨_, _, he, _⟩)
    · exact Or.inr (Option.some.inj hh).symm
    · cases he
  · intro h0
    exact hx (hchain 0 h0 ▸ H0.metadata)
  · exact Option.some_ne_none x
  · intro _ _ he
    cases he
  · intro _ _ _ _ he
    cases he
  · intro n hn
    show (contents b' n).rows = []
    rw [hchain n hn, hsame, hb, Function.update_self]
    rfl

theorem sound_start (h : catalogMachine.start s) : Sound s := (start_spec h).1

/-- Every call of the catalog or of a table, and every other user of the pool. -/
theorem sound_next (S : Sound s) {e : CatalogEvent} (hok : OwnRids s e)
    (hnext : catalogMachine.next s e = some t) : Sound t := by
  cases e with
  | create_table name schema =>
    obtain ⟨⟨r, t'⟩, hr, rfl⟩ := Option.map_eq_some_iff.mp hnext
    obtain ⟨_, _, hc, St⟩ := S.create_table name schema
    rw [hr] at hc
    cases hc
    exact St
  | drop_table name =>
    obtain ⟨⟨r, t'⟩, hr, rfl⟩ := Option.map_eq_some_iff.mp hnext
    obtain ⟨_, _, hc, St⟩ := S.drop_table name
    rw [hr] at hc
    cases hc
    exact St
  | insert_tuple name schema tuple =>
    obtain ⟨entry, he, hnext⟩ := Option.bind_eq_some_iff.mp hnext
    obtain ⟨⟨r, b⟩, hr, rfl⟩ := Option.map_eq_some_iff.mp hnext
    obtain ⟨h, htable, hh⟩ := S.head he
    obtain ⟨_, _, hc, R, _⟩ := insert_ran S.heap hh htable tuple
    rw [hr] at hc
    cases hc
    exact S.ran R
  | update_tuple name rid schema tuple =>
    obtain ⟨entry, he, hnext⟩ := Option.bind_eq_some_iff.mp hnext
    obtain ⟨⟨r, b⟩, hr, rfl⟩ := Option.map_eq_some_iff.mp hnext
    obtain ⟨h, htable, hh⟩ := S.head he
    have hrid := (hok entry he).onChain fun k hk => (by
      rw [htable] at hk
      exact Option.some.inj hk ▸ hh : s.heads k)
    obtain ⟨_, _, hc, R⟩ := update_ran S.heap hh htable hrid tuple
    rw [hr] at hc
    cases hc
    exact S.ran R
  | delete_tuple name rid =>
    obtain ⟨entry, he, rfl⟩ := Option.map_eq_some_iff.mp hnext
    obtain ⟨h, htable, hh⟩ := S.head he
    have hrid := (hok entry he).onChain fun k hk => (by
      rw [htable] at hk
      exact Option.some.inj hk ▸ hh : s.heads k)
    exact S.ran (delete_ran S.heap hrid)
  | fetch n =>
    obtain ⟨p, hp, rfl⟩ := Option.map_eq_some_iff.mp hnext
    obtain ⟨H, hc⟩ := evict_fetch S.heap hp
    exact S.same_contents H hc
  | unpin n =>
    obtain ⟨p, hp, rfl⟩ := Option.map_eq_some_iff.mp hnext
    obtain ⟨H, hc⟩ := evict_unpin S.heap hp
    exact S.same_contents H hc

theorem sound_reach (h : catalogMachine.Reach OwnRids s) : Sound s :=
  h.invariant (fun _ => sound_start) fun _ _ _ S hok hn => sound_next S hok hn

/-- Two owners have two first pages. -/
theorem Sound.first_page_inj (S : Sound s) {owner owner' : Option (List UInt8)} {page : PageID}
    (h : s.first_page owner = some page) (h' : s.first_page owner' = some page) :
    owner = owner' := by
  cases owner with
  | none =>
    obtain rfl := Option.some.inj h
    cases owner' with
    | none => rfl
    | some name =>
      obtain ⟨entry, he, hp⟩ := Option.map_eq_some_iff.mp h'
      exact absurd hp (S.table name entry he).2.1
  | some name =>
    obtain ⟨entry, he, hp⟩ := Option.map_eq_some_iff.mp h
    cases owner' with
    | none =>
      obtain rfl := Option.some.inj h'
      exact absurd hp (S.table name entry he).2.1
    | some name' =>
      obtain ⟨entry', he', hp'⟩ := Option.map_eq_some_iff.mp h'
      rw [S.apart name name' entry entry' he he' (hp.trans hp'.symm)]

theorem Sound.first_page_head (S : Sound s) {owner : Option (List UInt8)} {page : PageID}
    (h : s.first_page owner = some page) : ∃ k, page = some k ∧ s.heads k := by
  cases owner with
  | none =>
    obtain ⟨c, hc, hh⟩ := S.catalog_head
    exact ⟨c, (Option.some.inj h).symm.trans hc, hh⟩
  | some name =>
    obtain ⟨entry, he, hp⟩ := Option.map_eq_some_iff.mp h
    obtain ⟨k, hk, hh⟩ := S.head he
    exact ⟨k, hp.symm.trans hk, hh⟩

theorem Sound.chains_apart (S : Sound s) : ChainsApart s := by
  refine ⟨fun owner page ho => ?_, fun owner owner' page page' l l' hne ho ho' hl hl' => ?_,
    S.heap.store.free_nodup⟩
  · obtain ⟨k, rfl, hh⟩ := S.first_page_head ho
    obtain ⟨l, hl⟩ := S.heap.forest.ends k hh
    refine ⟨k, l, rfl, hl, hl.nodup, fun n hn => ?_⟩
    have hon : OnChain (succ s.heap.pool) s.heads n := ⟨k, hh, l, hl, hn⟩
    refine ⟨?_, (S.heap.pages n hon).2⟩
    rintro rfl
    exact S.metadata hon
  · obtain ⟨k, rfl, hh⟩ := S.first_page_head ho
    obtain ⟨k', rfl, hh'⟩ := S.first_page_head ho'
    intro n hn hn'
    have hk := S.heap.forest.unique hh hh' ⟨l, hl, hn⟩ ⟨l', hl', hn'⟩
    subst hk
    exact hne (S.first_page_inj ho ho')

end

/-! ## Calls with RIDs that need no walk -/

/-- A RID on the first page of the table, which needs no walk to be checked. -/
def on_own_first_page (s : CatalogSystem) : CatalogEvent → Bool
  | .update_tuple name rid _ _ | .delete_tuple name rid =>
    match s.tables name with
    | some entry => rid.page_id == entry.table.table_heap
    | none => true
  | _ => true

theorem ownRids_of_check {s : CatalogSystem} (e : CatalogEvent) (S : Sound s)
    (h : on_own_first_page s e = true) : OwnRids s e := by
  have hrid : ∀ (name : List UInt8) (rid : RID), (match s.tables name with
      | some entry => rid.page_id == entry.table.table_heap
      | none => true) = true → ∀ entry, s.tables name = some entry →
        RidOf s.heap.pool entry.table rid := by
    intro name rid hr entry he
    obtain ⟨k, hk, hh⟩ := S.head he
    rw [he] at hr
    exact ⟨k, k, hk, (eq_of_beq hr).trans hk, S.heap.forest.onPath_head hh⟩
  cases e with
  | update_tuple name rid _ _ => exact hrid name rid h
  | delete_tuple name rid => exact hrid name rid h
  | _ => trivial

/-- A table with one column of numbers. -/
def numbers : Schema := ⟨[⟨"n".toUTF8.toList, .UINT32, 0⟩]⟩

def number_tuple (n : UInt32) : Tuple numbers := ⟨[.of (.uint32 n)], .cons rfl .nil⟩

/-- What runs from a new catalog has that catalog before it. -/
theorem of_new_catalog {α : Type} {b : BufferPoolManager} {f : CatalogSystem → Option α}
    {p : α → Bool} (h : ((CatalogSystem.make b).bind fun made => made.toOption.bind f).map p =
      some true) :
    ∃ s x, CatalogSystem.make b = some (.ok s) ∧ f s = some x ∧ p x = true := by
  obtain ⟨x, hx, hp⟩ := Option.map_eq_some_iff.mp h
  obtain ⟨made, hmade, hx⟩ := Option.bind_eq_some_iff.mp hx
  obtain ⟨s, hs, hx⟩ := Option.bind_eq_some_iff.mp hx
  rcases made with _ | made
  · cases hs
  cases hs
  exact ⟨s, x, hmade, hx, hp⟩

/-- The calls from a new catalog. -/
theorem reached_catalog (frames : Nat) {l : List CatalogEvent} {p : CatalogSystem → Bool}
    (h : ((CatalogSystem.make (empty_pool frames)).bind fun made => made.toOption.bind
      (catalogMachine.execIf on_own_first_page · l)).map p = some true) :
    ∃ s, catalogMachine.Reach OwnRids s ∧ p s = true := by
  obtain ⟨s0, s, hmade, hs, hp⟩ := of_new_catalog h
  exact ⟨s, Machine.Reach.execIf (fun _ => sound_reach) (fun _ e => ownRids_of_check e)
    (.start ⟨frames, hmade⟩) hs, hp⟩

end duck.catalog
