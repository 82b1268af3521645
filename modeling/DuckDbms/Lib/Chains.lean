-- Chains of linked nodes: the path that the pointers of a node lead along, and
-- families of heads whose paths are finite and have no node in common.
import Mathlib.Data.List.Nodup
import Mathlib.Logic.Function.Basic

namespace chain

variable {α : Type}

/-- The nodes from a pointer to the end of its chain. -/
inductive Path (next : α → Option α) : Option α → List α → Prop
  | nil : Path next none []
  | cons {a : α} {l : List α} : Path next (next a) l → Path next (some a) (a :: l)

/-- Every head has a path that ends, and no node is on the paths of two heads. -/
structure Forest (next : α → Option α) (heads : α → Prop) : Prop where
  ends : ∀ h, heads h → ∃ l, Path next (some h) l
  apart : ∀ h k l m, heads h → heads k → Path next (some h) l → Path next (some k) m →
    ∀ a, a ∈ l → a ∈ m → h = k

/-- The node is on the path of head `h`. -/
def OnPath (next : α → Option α) (h a : α) : Prop := ∃ l, Path next (some h) l ∧ a ∈ l

/-- The node is on the path of some head. -/
def OnChain (next : α → Option α) (heads : α → Prop) (a : α) : Prop :=
  ∃ h, heads h ∧ OnPath next h a

variable {next : α → Option α} {heads : α → Prop}

/-! ## One path -/

theorem Path.unique {p : Option α} {l m : List α} (h : Path next p l) (h' : Path next p m) :
    l = m := by
  induction h generalizing m with
  | nil =>
    cases h'
    rfl
  | cons _ ih =>
    cases h' with
    | cons h' => rw [ih h']

theorem Path.head_mem {a : α} {l : List α} (h : Path next (some a) l) : a ∈ l := by
  cases h
  simp

/-- The path from a node of a path is the rest of it. -/
theorem Path.suffix {p : Option α} {l : List α} (h : Path next p l) {a : α} (ha : a ∈ l) :
    ∃ pre suf, l = pre ++ a :: suf ∧ Path next (some a) (a :: suf) := by
  induction h with
  | nil => cases ha
  | @cons b l h ih =>
    rcases List.mem_cons.mp ha with rfl | ha
    · exact ⟨[], l, rfl, h.cons⟩
    · obtain ⟨pre, suf, rfl, hs⟩ := ih ha
      exact ⟨b :: pre, suf, rfl, hs⟩

theorem Path.from_node {p : Option α} {pre suf : List α} {a : α}
    (h : Path next p (pre ++ a :: suf)) : Path next (some a) (a :: suf) := by
  induction pre generalizing p with
  | nil =>
    cases h with
    | cons h => exact .cons h
  | cons b pre ih =>
    cases h with
    | cons h => exact ih h

/-- A path that ends does not come back to a node. -/
theorem Path.nodup {p : Option α} {l : List α} (h : Path next p l) : l.Nodup := by
  induction h with
  | nil => exact List.nodup_nil
  | @cons a l h ih =>
    refine List.nodup_cons.mpr ⟨fun ha => ?_, ih⟩
    obtain ⟨pre, suf, hl, hs⟩ := h.suffix ha
    have := congrArg List.length (h.cons.unique hs)
    rw [hl] at this
    simp only [List.length_cons, List.length_append] at this
    omega

theorem Path.congr {f : α → Option α} {p : Option α} {l : List α} (h : Path next p l)
    (hn : ∀ a ∈ l, f a = next a) : Path f p l := by
  induction h with
  | nil => exact .nil
  | @cons a l h ih =>
    refine .cons ?_
    rw [hn a (by simp)]
    exact ih fun b hb => hn b (by simp [hb])

/-- A path that keeps its links can only get longer at its end. -/
theorem Path.grows {f : α → Option α} {p : Option α} {l l' : List α} (h : Path next p l)
    (hl : ∀ a ∈ l, ∀ b, next a = some b → f a = some b) (h' : Path f p l') :
    ∃ new, l' = l ++ new := by
  induction h generalizing l' with
  | nil => exact ⟨l', rfl⟩
  | @cons a l h ih =>
    cases h' with
    | @cons _ m h' =>
      rcases hn : next a with _ | b
      · rw [hn] at h
        cases h
        exact ⟨m, rfl⟩
      · rw [hl a (by simp) b hn, ← hn] at h'
        obtain ⟨new, rfl⟩ := ih (fun c hc => hl c (by simp [hc])) h'
        exact ⟨new, rfl⟩

theorem Path.next_mem {p : Option α} {l : List α} (h : Path next p l) {a b : α} (ha : a ∈ l)
    (hb : next a = some b) : b ∈ l := by
  obtain ⟨pre, suf, rfl, hs⟩ := h.suffix ha
  cases hs with
  | cons hs =>
    rw [hb] at hs
    have := hs.head_mem
    simp [this]

/-- A node without a successor is the last one of its path, and can be linked to a new one. -/
theorem Path.link [DecidableEq α] {p : Option α} {l : List α} (h : Path next p l) {a x : α}
    (ha : a ∈ l) (hend : next a = none) (hx : x ∉ l) (hxe : next x = none) :
    Path (Function.update next a (some x)) p (l ++ [x]) := by
  have hax : x ≠ a := fun he => hx (he ▸ ha)
  induction h with
  | nil => cases ha
  | @cons b l h ih =>
    by_cases hba : b = a
    · subst hba
      rw [hend] at h
      cases h
      refine .cons ?_
      rw [Function.update_self]
      refine .cons ?_
      rw [Function.update_of_ne hax, hxe]
      exact .nil
    · refine .cons ?_
      rw [Function.update_of_ne hba]
      have ha' : a ∈ l := (List.mem_cons.mp ha).resolve_left fun he => hba he.symm
      exact ih ha' fun hm => hx (by simp [hm])

open Classical in
/-- The number of nodes that a pointer leads to. -/
noncomputable def pathLength (next : α → Option α) (p : Option α) : Nat :=
  if h : ∃ l, Path next p l then h.choose.length else 0

theorem Path.pathLength_eq {p : Option α} {l : List α} (h : Path next p l) :
    pathLength next p = l.length := by
  have he : ∃ l, Path next p l := ⟨l, h⟩
  unfold pathLength
  rw [dif_pos he, he.choose_spec.unique h]

/-! ## Families of paths -/

theorem OnPath.head {h : α} {l : List α} (hp : Path next (some h) l) : OnPath next h h :=
  ⟨l, hp, hp.head_mem⟩

theorem OnPath.follow {h a b : α} (ho : OnPath next h a) (hb : next a = some b) :
    OnPath next h b := by
  obtain ⟨l, hp, ha⟩ := ho
  exact ⟨l, hp, hp.next_mem ha hb⟩

/-- The path from a node is the node, and the path from its successor. -/
theorem OnPath.cases {h a : α} (ho : OnPath next h a) :
    a = h ∨ ∃ b, next h = some b ∧ OnPath next b a := by
  obtain ⟨l, hp, ha⟩ := ho
  cases hp with
  | cons hp =>
    rename_i l
    rcases List.mem_cons.mp ha with rfl | ha
    · exact Or.inl rfl
    · right
      rcases hb : next h with _ | b
      · rw [hb] at hp
        cases hp
        cases ha
      · rw [hb] at hp
        exact ⟨b, rfl, l, hp, ha⟩

/-- From a node of a chain the path goes on to the end. -/
theorem OnPath.path {h a : α} (ho : OnPath next h a) : ∃ l, Path next (some a) l := by
  obtain ⟨l, hp, ha⟩ := ho
  obtain ⟨_, suf, _, hs⟩ := hp.suffix ha
  exact ⟨_, hs⟩

theorem Forest.onPath_head (F : Forest next heads) {h : α} (hh : heads h) : OnPath next h h := by
  obtain ⟨l, hl⟩ := F.ends h hh
  exact .head hl

theorem Forest.unique (F : Forest next heads) {h k a : α} (hh : heads h) (hk : heads k)
    (h1 : OnPath next h a) (h2 : OnPath next k a) : h = k := by
  obtain ⟨l, hl, ha⟩ := h1
  obtain ⟨m, hm, ha'⟩ := h2
  exact F.apart h k l m hh hk hl hm a ha ha'

theorem OnPath.congr {f : α → Option α} {h : α} (hn : ∀ a, OnPath next h a → f a = next a)
    {a : α} (ho : OnPath next h a) : OnPath f h a := by
  obtain ⟨l, hl, ha⟩ := ho
  exact ⟨l, hl.congr fun b hb => hn b ⟨l, hl, hb⟩, ha⟩

/-- Pointers off the chains do not matter. -/
theorem Forest.congr (F : Forest next heads) {f : α → Option α}
    (hn : ∀ a, OnChain next heads a → f a = next a) :
    Forest f heads ∧ ∀ h, heads h → ∀ a, OnPath f h a ↔ OnPath next h a := by
  have hpath : ∀ h l, heads h → Path next (some h) l → Path f (some h) l := by
    intro h l hh hl
    exact hl.congr fun a ha => hn a ⟨h, hh, l, hl, ha⟩
  have hback : ∀ h l, heads h → Path f (some h) l → Path next (some h) l := by
    intro h l hh hl
    obtain ⟨m, hm⟩ := F.ends h hh
    rwa [hl.unique (hpath h m hh hm)]
  refine ⟨⟨?_, ?_⟩, ?_⟩
  · intro h hh
    obtain ⟨l, hl⟩ := F.ends h hh
    exact ⟨l, hpath h l hh hl⟩
  · intro h k l m hh hk hl hm
    exact F.apart h k l m hh hk (hback h l hh hl) (hback k m hk hm)
  · intro h hh a
    constructor
    · rintro ⟨l, hl, ha⟩
      exact ⟨l, hback h l hh hl, ha⟩
    · rintro ⟨l, hl, ha⟩
      exact ⟨l, hpath h l hh hl, ha⟩

/-- Paths that have the same nodes make the same chains. -/
theorem onChain_congr {f : α → Option α}
    (hn : ∀ h, heads h → ∀ a, OnPath f h a ↔ OnPath next h a) (a : α) :
    OnChain f heads a ↔ OnChain next heads a := by
  constructor
  · rintro ⟨h, hh, ho⟩
    exact ⟨h, hh, (hn h hh a).mp ho⟩
  · rintro ⟨h, hh, ho⟩
    exact ⟨h, hh, (hn h hh a).mpr ho⟩

/-- Some of the chains. -/
theorem Forest.sub (F : Forest next heads) {heads' : α → Prop} (h : ∀ k, heads' k → heads k) :
    Forest next heads' where
  ends k hk := F.ends k (h k hk)
  apart k k' l m hk hk' := F.apart k k' l m (h k hk) (h k' hk')

/-- A node that is on no chain and has no successor is the head of a chain of its own. -/
theorem Forest.add (F : Forest next heads) {x : α} (hx : ¬ OnChain next heads x)
    (hxe : next x = none) :
    Forest next (fun h => heads h ∨ h = x) ∧ ∀ a, OnPath next x a ↔ a = x := by
  have hpath : Path next (some x) [x] := .cons (by rw [hxe]; exact .nil)
  have hone : ∀ a, OnPath next x a ↔ a = x := by
    intro a
    constructor
    · rintro ⟨l, hl, ha⟩
      rw [hl.unique hpath] at ha
      simpa using ha
    · rintro rfl
      exact ⟨_, hpath, by simp⟩
  refine ⟨⟨?_, ?_⟩, hone⟩
  · rintro h (hh | rfl)
    · exact F.ends h hh
    · exact ⟨_, hpath⟩
  · rintro h k l m (hh | rfl) (hk | rfl) hl hm a ha ha'
    · exact F.apart h k l m hh hk hl hm a ha ha'
    · obtain rfl := (hone a).mp ⟨m, hm, ha'⟩
      exact absurd ⟨h, hh, l, hl, ha⟩ hx
    · obtain rfl := (hone a).mp ⟨l, hl, ha⟩
      exact absurd ⟨k, hk, m, hm, ha'⟩ hx
    · rfl

/-- A node that is on no chain is linked to the end of one: that chain gets it as its last
node, and the other chains stay as they are. -/
theorem Forest.link [DecidableEq α] (F : Forest next heads) {h a x : α} (hh : heads h)
    (ha : OnPath next h a) (hend : next a = none) (hx : ¬ OnChain next heads x)
    (hxe : next x = none) :
    Forest (Function.update next a (some x)) heads ∧
      ∀ k, heads k → ∀ b, OnPath (Function.update next a (some x)) k b ↔
        OnPath next k b ∨ (k = h ∧ b = x) := by
  obtain ⟨l0, hl0, ha0⟩ := ha
  have hx0 : x ∉ l0 := fun hm => hx ⟨h, hh, l0, hl0, hm⟩
  have hnew := hl0.link ha0 hend hx0 hxe
  have hsame : ∀ k l, heads k → k ≠ h → Path next (some k) l →
      Path (Function.update next a (some x)) (some k) l := by
    intro k l hk hne hl
    refine hl.congr fun b hb => ?_
    rw [Function.update_of_ne]
    rintro rfl
    exact hne (F.apart k h l l0 hk hh hl hl0 b hb ha0)
  have hback : ∀ k l, heads k → k ≠ h → Path (Function.update next a (some x)) (some k) l →
      Path next (some k) l := by
    intro k l hk hne hl
    obtain ⟨m, hm⟩ := F.ends k hk
    rwa [hl.unique (hsame k m hk hne hm)]
  refine ⟨⟨?_, ?_⟩, ?_⟩
  · intro k hk
    by_cases hkh : k = h
    · subst hkh
      exact ⟨_, hnew⟩
    · obtain ⟨l, hl⟩ := F.ends k hk
      exact ⟨l, hsame k l hk hkh hl⟩
  · intro k k' l m hk hk' hl hm b hb hb'
    by_cases hkh : k = h
    · subst hkh
      by_cases hkh' : k' = k
      · exact hkh'.symm
      · have hm' := hback k' m hk' hkh' hm
        rw [hl.unique hnew, List.mem_append, List.mem_singleton] at hb
        rcases hb with hb | rfl
        · exact F.apart k k' l0 m hk hk' hl0 hm' b hb hb'
        · exact absurd ⟨k', hk', m, hm', hb'⟩ hx
    · have hl' := hback k l hk hkh hl
      by_cases hkh' : k' = h
      · subst hkh'
        rw [hm.unique hnew, List.mem_append, List.mem_singleton] at hb'
        rcases hb' with hb' | rfl
        · exact F.apart k k' l l0 hk hk' hl' hl0 b hb hb'
        · exact absurd ⟨k, hk, l, hl', hb⟩ hx
      · exact F.apart k k' l m hk hk' hl' (hback k' m hk' hkh' hm) b hb hb'
  · intro k hk b
    by_cases hkh : k = h
    · subst hkh
      constructor
      · rintro ⟨l, hl, hb⟩
        rw [hl.unique hnew, List.mem_append, List.mem_singleton] at hb
        rcases hb with hb | rfl
        · exact Or.inl ⟨l0, hl0, hb⟩
        · exact Or.inr ⟨rfl, rfl⟩
      · rintro (⟨l, hl, hb⟩ | ⟨_, rfl⟩)
        · refine ⟨_, hnew, ?_⟩
          rw [hl.unique hl0] at hb
          simp [hb]
        · exact ⟨_, hnew, by simp⟩
    · constructor
      · rintro ⟨l, hl, hb⟩
        exact Or.inl ⟨l, hback k l hk hkh hl, hb⟩
      · rintro (⟨l, hl, hb⟩ | ⟨h1, _⟩)
        · exact ⟨l, hsame k l hk hkh hl, hb⟩
        · exact absurd h1 hkh

end chain
