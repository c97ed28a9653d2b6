import Mathlib.Data.List.Nodup
import Mathlib.Data.List.Perm.Basic
import Mathlib.Data.List.ReduceOption

/-!
# Lists of chunks

A list of entries kept in chunks of a fixed number of slots. An entry goes into the first
free slot and keeps its place: a locator, the chunk and the index in it. A chunk is made
when all are full and dropped when it becomes empty.

* `ChunkList.add_spec`, `ChunkList.remove_spec`: the entries as a multiset, and the places
  of the others.
-/

/-- A chunk: its name, and its slots. -/
structure Chunk (α : Type) where
  id : ℕ
  data : List (Option α)

/-- Where an entry is. -/
structure Locator where
  chunk : ℕ
  index : ℕ
  deriving DecidableEq

namespace Chunk

variable {α : Type} (c : Chunk α)

def new (n id : ℕ) : Chunk α := ⟨id, List.replicate n none⟩

def full : Bool := c.data.all Option.isSome
def empty : Bool := c.data.all Option.isNone

/-- The first free slot. -/
def firstFree : ℕ := c.data.findIdx Option.isNone

def add (x : α) : Chunk α := { c with data := c.data.set c.firstFree (some x) }

def remove (index : ℕ) : Chunk α := { c with data := c.data.set index none }

/-- The entries, in the order of the slots. -/
def entries : List α := c.data.reduceOption

end Chunk

/-- A list of chunks, the newest first. `nextId` names the next chunk. -/
structure ChunkList (α : Type) where
  chunks : List (Chunk α)
  elemcount : ℕ
  nextId : ℕ

namespace Chunk

variable {α : Type} {c : Chunk α} {i : ℕ} {x y : α}

/-- Setting a slot changes one option in the middle. -/
theorem data_split {o : Option α} (h : c.data[i]? = some o) (v : Option α) :
    ∃ before after, c.data = before ++ o :: after ∧ before.length = i ∧ c.data.set i v = before ++ v :: after := by
  obtain ⟨hlt, ho⟩ := List.getElem?_eq_some_iff.1 h
  refine ⟨c.data.take i, c.data.drop (i + 1), ?_, ?_, ?_⟩
  · rw [← ho, ← List.drop_eq_getElem_cons hlt, List.take_append_drop]
  · rw [List.length_take]
    omega
  · rw [List.set_eq_take_append_cons_drop, if_pos hlt]

theorem firstFree_eq (h : c.full = false) : c.data[c.firstFree]? = some none := by
  have hex : ∃ o ∈ c.data, o.isNone = true := by
    by_contra hall
    push Not at hall
    have hfull : c.full = true := by
      rw [full, List.all_eq_true]
      intro o ho
      cases o with
      | none => exact absurd rfl (hall none ho)
      | some v => rfl
    rw [hfull] at h
    cases h
  have hlt : c.firstFree < c.data.length := List.findIdx_lt_length_of_exists hex
  have hnone : (c.data[c.firstFree]).isNone = true := List.findIdx_getElem
  rw [List.getElem?_eq_getElem hlt, Option.isNone_iff_eq_none.1 hnone]

theorem entries_add (x : α) (h : c.full = false) : (c.add x).entries.Perm (x :: c.entries) := by
  obtain ⟨before, after, hdata, -, hset⟩ := data_split (firstFree_eq h) (some x)
  rw [entries, entries, add, hset, hdata, List.reduceOption_append, List.reduceOption_append,
    List.reduceOption_cons_of_some, List.reduceOption_cons_of_none]
  exact List.perm_middle

theorem entries_remove (h : c.data[i]? = some (some x)) : c.entries.Perm (x :: (c.remove i).entries) := by
  obtain ⟨before, after, hdata, -, hset⟩ := data_split h none
  rw [entries, entries, remove, hset, hdata, List.reduceOption_append, List.reduceOption_append,
    List.reduceOption_cons_of_some, List.reduceOption_cons_of_none]
  exact List.perm_middle

theorem entries_of_empty (h : c.empty = true) : c.entries = [] := by
  rw [entries, List.reduceOption, List.filterMap_eq_nil_iff]
  intro o ho
  have hnone := List.all_eq_true.1 h o ho
  exact Option.isNone_iff_eq_none.1 hnone

theorem not_empty_of_slot (h : c.data[i]? = some (some x)) : c.empty = false := by
  by_contra hempty
  have hmem : some x ∈ c.data := List.mem_of_getElem? h
  have htrue : c.empty = true := by simpa using hempty
  have hnone := List.all_eq_true.1 htrue (some x) hmem
  cases hnone

/-- The slots that are taken stay as they are. -/
theorem slot_add (x : α) (hfree : c.full = false) (h : c.data[i]? = some (some y)) :
    (c.add x).data[i]? = some (some y) := by
  have hne : c.firstFree ≠ i := by
    rintro rfl
    rw [firstFree_eq hfree] at h
    cases h
  rw [add, List.getElem?_set_ne hne]
  exact h

theorem slot_add_self (x : α) (hfree : c.full = false) : (c.add x).data[c.firstFree]? = some (some x) := by
  obtain ⟨hlt, -⟩ := List.getElem?_eq_some_iff.1 (firstFree_eq hfree)
  rw [add, List.getElem?_set_self hlt]

theorem slot_remove {j : ℕ} (hne : j ≠ i) (h : c.data[i]? = some (some y)) :
    (c.remove j).data[i]? = some (some y) := by
  rw [remove, List.getElem?_set_ne hne]
  exact h

theorem new_full (n id : ℕ) (hn : n ≠ 0) : (new n id : Chunk α).full = false := by
  rw [full, new, List.all_replicate]
  simp [hn]

theorem entries_new (n id : ℕ) : (new n id : Chunk α).entries = [] := by
  apply entries_of_empty
  rw [empty, new, List.all_replicate]
  simp

end Chunk

namespace ChunkList

variable {α : Type}

def nil : ChunkList α := ⟨[], 0, 0⟩

/-- The first chunk with a free slot takes the entry; none when all are full. -/
def addLoop (x : α) : List (Chunk α) → Option (List (Chunk α) × Locator)
  | [] => none
  | c :: cs => if c.full then (addLoop x cs).map fun r => (c :: r.1, r.2) else some (c.add x :: cs, ⟨c.id, c.firstFree⟩)

/-- The entry in a chunk of `n` slots, and where. -/
def add (n : ℕ) (l : ChunkList α) (x : α) : ChunkList α × Locator :=
  match addLoop x l.chunks with
  | some (chunks, loc) => ({ l with chunks, elemcount := l.elemcount + 1 }, loc)
  | none =>
    let c : Chunk α := .new n l.nextId
    (⟨c.add x :: l.chunks, l.elemcount + 1, l.nextId + 1⟩, ⟨c.id, c.firstFree⟩)

/-- The slot is freed, and an empty chunk dropped. -/
def removeLoop (loc : Locator) : List (Chunk α) → List (Chunk α)
  | [] => []
  | c :: cs =>
    if c.id = loc.chunk then
      let c := c.remove loc.index
      if c.empty then cs else c :: cs
    else c :: removeLoop loc cs

def remove (l : ChunkList α) (loc : Locator) : ChunkList α :=
  { l with chunks := removeLoop loc l.chunks, elemcount := l.elemcount - 1 }

def entriesOf (cs : List (Chunk α)) : List α := cs.flatMap Chunk.entries

/-- The entries, in the order an iterator goes through them. -/
def entries (l : ChunkList α) : List α := entriesOf l.chunks

/-- The entry at a place. -/
def At (cs : List (Chunk α)) (loc : Locator) (x : α) : Prop :=
  ∃ c ∈ cs, c.id = loc.chunk ∧ c.data[loc.index]? = some (some x)

section Chunks

variable {cs cs' : List (Chunk α)} {loc loc' : Locator} {x y : α}

/-- Distinct names, and no chunk without an entry. -/
structure ChunksWF (cs : List (Chunk α)) : Prop where
  ids : (cs.map Chunk.id).Nodup
  nonempty : ∀ c ∈ cs, c.empty = false

theorem ChunksWF.of_cons {c : Chunk α} (h : ChunksWF (c :: cs)) : ChunksWF cs :=
  ⟨(List.nodup_cons.1 h.ids).2, fun d hd => h.nonempty d (List.mem_cons_of_mem c hd)⟩

theorem entriesOf_cons (c : Chunk α) (cs : List (Chunk α)) : entriesOf (c :: cs) = c.entries ++ entriesOf cs := rfl

theorem addLoop_spec (hwf : ChunksWF cs) (h : addLoop x cs = some (cs', loc)) :
    ChunksWF cs' ∧ cs'.map Chunk.id = cs.map Chunk.id ∧ (entriesOf cs').Perm (x :: entriesOf cs) ∧ At cs' loc x ∧
      ∀ {loc' y}, At cs loc' y → At cs' loc' y := by
  induction cs generalizing cs' with
  | nil => cases h
  | cons c cs ih =>
    rw [addLoop] at h
    split at h
    · -- a full chunk is passed over
      obtain ⟨⟨ds, loc₁⟩, hrest, heq⟩ := Option.map_eq_some_iff.1 h
      obtain ⟨rfl, rfl⟩ := Prod.mk.inj heq
      obtain ⟨hds, hids, hperm, ⟨d, hd, hat⟩, hothers⟩ := ih hwf.of_cons hrest
      have hids' : (c :: ds).map Chunk.id = (c :: cs).map Chunk.id := by
        rw [List.map_cons, List.map_cons, hids]
      refine ⟨⟨hids' ▸ hwf.ids, ?_⟩, hids', ?_, ⟨d, List.mem_cons_of_mem c hd, hat⟩, ?_⟩
      · intro e he
        rcases List.mem_cons.1 he with rfl | he
        · exact hwf.nonempty e List.mem_cons_self
        · exact hds.nonempty e he
      · rw [entriesOf_cons, entriesOf_cons]
        exact (hperm.append_left c.entries).trans List.perm_middle
      · rintro loc' y ⟨e, he, hid, hslot⟩
        rcases List.mem_cons.1 he with rfl | he
        · exact ⟨e, List.mem_cons_self, hid, hslot⟩
        · obtain ⟨f, hf, hat'⟩ := hothers ⟨e, he, hid, hslot⟩
          exact ⟨f, List.mem_cons_of_mem c hf, hat'⟩
    · rename_i hfree
      have hfree' : c.full = false := by simpa using hfree
      obtain ⟨rfl, rfl⟩ := Prod.mk.inj (Option.some.inj h)
      have hself := Chunk.slot_add_self x hfree'
      refine ⟨⟨hwf.ids, ?_⟩, rfl, ?_, ⟨c.add x, List.mem_cons_self, rfl, hself⟩, ?_⟩
      · intro e he
        rcases List.mem_cons.1 he with rfl | he
        · exact Chunk.not_empty_of_slot hself
        · exact hwf.nonempty e (List.mem_cons_of_mem c he)
      · rw [entriesOf_cons, entriesOf_cons]
        exact (Chunk.entries_add x hfree').append_right (entriesOf cs)
      · rintro loc' y ⟨e, he, hid, hslot⟩
        rcases List.mem_cons.1 he with rfl | he
        · exact ⟨e.add x, List.mem_cons_self, hid, Chunk.slot_add x hfree' hslot⟩
        · exact ⟨e, List.mem_cons_of_mem _ he, hid, hslot⟩

theorem removeLoop_ids (loc : Locator) (cs : List (Chunk α)) :
    ((removeLoop loc cs).map Chunk.id).Sublist (cs.map Chunk.id) := by
  induction cs with
  | nil => exact List.Sublist.refl _
  | cons c cs ih =>
    rw [removeLoop]
    split
    · dsimp only
      split
      · exact List.sublist_cons_self _ _
      · exact List.Sublist.refl _
    · exact ih.cons_cons _

/-- Chunks of one name are one chunk. -/
theorem ChunksWF.at_head {c : Chunk α} (h : ChunksWF (c :: cs)) (hid : c.id = loc.chunk) (hat : At (c :: cs) loc x) :
    c.data[loc.index]? = some (some x) := by
  obtain ⟨d, hd, hdid, hslot⟩ := hat
  rcases List.mem_cons.1 hd with rfl | hd
  · exact hslot
  · have hin : c.id ∈ cs.map Chunk.id := by
      rw [hid, ← hdid]
      exact List.mem_map_of_mem hd
    exact absurd hin (List.nodup_cons.1 h.ids).1

theorem removeLoop_spec (hwf : ChunksWF cs) (hat : At cs loc x) :
    ChunksWF (removeLoop loc cs) ∧ (entriesOf cs).Perm (x :: entriesOf (removeLoop loc cs)) ∧
      ∀ {loc' y}, y ≠ x → At cs loc' y → At (removeLoop loc cs) loc' y := by
  induction cs with
  | nil =>
    obtain ⟨c, hc, -⟩ := hat
    exact absurd hc List.not_mem_nil
  | cons c cs ih =>
    rw [removeLoop]
    split
    · rename_i hid
      have hslot := hwf.at_head hid hat
      have hperm := (Chunk.entries_remove hslot).append_right (entriesOf cs)
      -- the other entries of the chunk stay in their slots, and keep it
      have hkeep : ∀ {i : ℕ} {y : α}, y ≠ x → c.data[i]? = some (some y) → (c.remove loc.index).data[i]? = some (some y) := by
        intro i y hne hy
        apply Chunk.slot_remove _ hy
        rintro rfl
        rw [hslot] at hy
        exact hne (Option.some.inj (Option.some.inj hy)).symm
      dsimp only
      split
      · rename_i hempty
        rw [Chunk.entries_of_empty hempty] at hperm
        refine ⟨hwf.of_cons, hperm, ?_⟩
        rintro loc' y hne ⟨d, hd, hdid, hy⟩
        rcases List.mem_cons.1 hd with rfl | hd
        · have hfull := Chunk.not_empty_of_slot (hkeep hne hy)
          rw [hempty] at hfull
          cases hfull
        · exact ⟨d, hd, hdid, hy⟩
      · rename_i hnonempty
        refine ⟨⟨hwf.ids, ?_⟩, hperm, ?_⟩
        · intro d hd
          rcases List.mem_cons.1 hd with rfl | hd
          · simpa using hnonempty
          · exact hwf.nonempty d (List.mem_cons_of_mem c hd)
        · rintro loc' y hne ⟨d, hd, hdid, hy⟩
          rcases List.mem_cons.1 hd with rfl | hd
          · exact ⟨_, List.mem_cons_self, hdid, hkeep hne hy⟩
          · exact ⟨d, List.mem_cons_of_mem _ hd, hdid, hy⟩
    · rename_i hid
      have hat' : At cs loc x := by
        obtain ⟨d, hd, hdid, hslot⟩ := hat
        rcases List.mem_cons.1 hd with rfl | hd
        · exact absurd hdid hid
        · exact ⟨d, hd, hdid, hslot⟩
      obtain ⟨hrest, hperm, hothers⟩ := ih hwf.of_cons hat'
      refine ⟨⟨?_, ?_⟩, ?_, ?_⟩
      · have hsub := (removeLoop_ids loc cs).cons_cons c.id
        exact List.Nodup.sublist hsub hwf.ids
      · intro d hd
        rcases List.mem_cons.1 hd with rfl | hd
        · exact hwf.nonempty d List.mem_cons_self
        · exact hrest.nonempty d hd
      · rw [entriesOf_cons, entriesOf_cons]
        exact (hperm.append_left c.entries).trans List.perm_middle
      · rintro loc' y hne ⟨d, hd, hdid, hy⟩
        rcases List.mem_cons.1 hd with rfl | hd
        · exact ⟨d, List.mem_cons_self, hdid, hy⟩
        · obtain ⟨e, he, hat'⟩ := hothers hne ⟨d, hd, hdid, hy⟩
          exact ⟨e, List.mem_cons_of_mem c he, hat'⟩

end Chunks

section Lists

variable {l : ChunkList α} {loc : Locator} {x : α}

/-- Chunks have distinct names older than the next one, and entries, which are counted. -/
structure WF (l : ChunkList α) : Prop where
  chunks : ChunksWF l.chunks
  fresh : ∀ c ∈ l.chunks, c.id < l.nextId
  elemcount : l.elemcount = l.entries.length

theorem wf_nil : (nil : ChunkList α).WF := by
  refine ⟨⟨List.nodup_nil, ?_⟩, ?_, rfl⟩
  · intro c hc
    exact absurd hc List.not_mem_nil
  · intro c hc
    exact absurd hc List.not_mem_nil

theorem mem_entries_of_at (h : At l.chunks loc x) : x ∈ l.entries := by
  obtain ⟨c, hc, -, hslot⟩ := h
  refine List.mem_flatMap.2 ⟨c, hc, ?_⟩
  rw [Chunk.entries, List.reduceOption_mem_iff]
  exact List.mem_of_getElem? hslot

/-- **Adding an entry** adds it once, and moves no other. -/
theorem add_spec {n : ℕ} (hn : n ≠ 0) (h : l.WF) (x : α) :
    (l.add n x).1.WF ∧ (l.add n x).1.entries.Perm (x :: l.entries) ∧ At (l.add n x).1.chunks (l.add n x).2 x ∧
      ∀ {loc y}, At l.chunks loc y → At (l.add n x).1.chunks loc y := by
  rw [add]
  split
  · rename_i cs loc hadd
    obtain ⟨hwf, hids, hperm, hat, hothers⟩ := addLoop_spec h.chunks hadd
    refine ⟨⟨hwf, ?_, ?_⟩, hperm, hat, hothers⟩
    · intro c hc
      have hid : c.id ∈ l.chunks.map Chunk.id := by
        rw [← hids]
        exact List.mem_map_of_mem hc
      obtain ⟨d, hd, hdid⟩ := List.mem_map.1 hid
      rw [← hdid]
      exact h.fresh d hd
    · have hlen := hperm.length_eq
      rw [List.length_cons] at hlen
      exact (congrArg (· + 1) h.elemcount).trans hlen.symm
  · have hfree := Chunk.new_full n l.nextId hn (α := α)
    have hself := Chunk.slot_add_self x hfree
    have hperm : (entriesOf ((Chunk.new n l.nextId).add x :: l.chunks)).Perm (x :: l.entries) := by
      have hone := (Chunk.entries_add x hfree).append_right (entriesOf l.chunks)
      rw [Chunk.entries_new] at hone
      exact hone
    refine ⟨⟨⟨?_, ?_⟩, ?_, ?_⟩, hperm, ⟨_, List.mem_cons_self, rfl, hself⟩, ?_⟩
    · refine List.nodup_cons.2 ⟨?_, h.chunks.ids⟩
      -- a new chunk takes a number no chunk has had
      intro hid
      obtain ⟨d, hd, hdid⟩ := List.mem_map.1 hid
      have hlt := h.fresh d hd
      rw [hdid] at hlt
      exact Nat.lt_irrefl _ hlt
    · intro c hc
      rcases List.mem_cons.1 hc with rfl | hc
      · exact Chunk.not_empty_of_slot hself
      · exact h.chunks.nonempty c hc
    · intro c hc
      rcases List.mem_cons.1 hc with rfl | hc
      · exact Nat.lt_succ_self _
      · exact Nat.lt_succ_of_lt (h.fresh c hc)
    · have hlen := hperm.length_eq
      rw [List.length_cons] at hlen
      exact (congrArg (· + 1) h.elemcount).trans hlen.symm
    · rintro loc y ⟨c, hc, hid, hslot⟩
      exact ⟨c, List.mem_cons_of_mem _ hc, hid, hslot⟩

/-- **Removing an entry** by its place removes it once, and moves no other. -/
theorem remove_spec (h : l.WF) (hat : At l.chunks loc x) :
    (l.remove loc).WF ∧ l.entries.Perm (x :: (l.remove loc).entries) ∧
      ∀ {loc' y}, y ≠ x → At l.chunks loc' y → At (l.remove loc).chunks loc' y := by
  obtain ⟨hwf, hperm, hothers⟩ := removeLoop_spec h.chunks hat
  refine ⟨⟨hwf, ?_, ?_⟩, hperm, hothers⟩
  · intro c hc
    have hid : c.id ∈ l.chunks.map Chunk.id := (removeLoop_ids loc l.chunks).subset (List.mem_map_of_mem hc)
    obtain ⟨d, hd, hdid⟩ := List.mem_map.1 hid
    rw [← hdid]
    exact h.fresh d hd
  · have hlen := hperm.length_eq
    rw [← entries, List.length_cons, ← h.elemcount] at hlen
    have hcount : (l.remove loc).elemcount = l.elemcount - 1 := rfl
    rw [hcount, hlen, Nat.add_sub_cancel]
    rfl

/-- A list with no entries has no chunks. -/
theorem WF.chunks_nil (h : l.WF) (hcount : l.elemcount = 0) : l.chunks = [] := by
  cases hchunks : l.chunks with
  | nil => rfl
  | cons c cs =>
    have hmem : c ∈ l.chunks := by
      rw [hchunks]
      exact List.mem_cons_self
    have hnonempty := h.chunks.nonempty c hmem
    have hentries : l.entries = [] := List.length_eq_zero_iff.1 (h.elemcount.symm.trans hcount)
    have hnone : ∀ o ∈ c.data, o = none := by
      intro o ho
      cases o with
      | none => rfl
      | some x =>
        have hx : x ∈ l.entries := List.mem_flatMap.2 ⟨c, hmem, List.reduceOption_mem_iff.2 ho⟩
        rw [hentries] at hx
        cases hx
    have hempty : c.empty = true := List.all_eq_true.2 fun o ho => Option.isNone_iff_eq_none.2 (hnone o ho)
    rw [hempty] at hnonempty
    cases hnonempty

end Lists

end ChunkList
