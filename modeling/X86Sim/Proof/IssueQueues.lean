import X86Sim.Ooo.Scheduler
import Mathlib.Algebra.BigOperators.Fin

/-!
# What the issue queues hold

Which tags the queues hold is all the bookkeeping needs of them: `uopids` is the
list of tags of one queue, and `QueuesWF queue inq` says that the queues hold the
tags `inq` names, each once and in the queue it names.

* `QueuesWF.remove`, `QueuesWF.insert`: a tag leaves, a tag enters.
* `QueuesWF.congr`: everything else (`clock`, `broadcast`, `issue`, `replay`) keeps the tags.
* `occupied_remove`, `occupied_insert`: the slots in use over all queues.
-/

namespace X86Sim.Ooo

namespace IssueQueue

/-- The tags in the queue, lowest slot first. -/
def uopids (q : IssueQueue) : List ℕ := q.map (·.uopid)

variable {q : IssueQueue} {i slot : ℕ}

@[simp] theorem length_uopids (q : IssueQueue) : (uopids q).length = q.length := by simp [uopids]

/-- An update of one slot that keeps its tag keeps the tags. -/
theorem uopids_modify {f : IssueSlot → IssueSlot} (hf : ∀ s, (f s).uopid = s.uopid) (slot : ℕ)
    (q : IssueQueue) : uopids (q.modify slot f) = uopids q := by
  apply List.ext_getElem?
  intro k
  simp only [uopids, List.getElem?_map, List.getElem?_modify]
  cases q[k]? with
  | none => rfl
  | some s => simp only [Option.map_some]; split <;> simp [hf]

@[simp] theorem uopids_clock (q : IssueQueue) : uopids (clock q) = uopids q := by
  simp [uopids, clock]

@[simp] theorem uopids_broadcast (q : IssueQueue) (i : ℕ) : uopids (broadcast q i) = uopids q := by
  simp [uopids, broadcast]

@[simp] theorem uopids_replay (q : IssueQueue) (slot : ℕ) : uopids (replay q slot) = uopids q := by
  unfold replay; exact uopids_modify (by simp) slot q

@[simp] theorem uopids_replayWith (q : IssueQueue) (slot : ℕ) (tags : Operand → Option ℕ) :
    uopids (replayWith q slot tags) = uopids q := by
  unfold replayWith; exact uopids_modify (by simp) slot q

theorem uopids_insert (hq : q.length < ISSUE_QUEUE_SIZE) (i : ℕ) (tags : Operand → Option ℕ) :
    uopids (insert q i tags) = uopids q ++ [i] := by
  unfold insert
  rw [if_neg (Nat.ne_of_lt hq)]
  simp [uopids]

theorem uopids_issue {q' : IssueQueue} (h : issue q = some (slot, q')) : uopids q' = uopids q := by
  unfold issue at h
  cases hf : q.findIdx? (·.allready) with
  | none => rw [hf] at h; cases h
  | some k =>
    rw [hf] at h
    cases h
    exact uopids_modify (by simp) slot q

/-- The tag of the slot that issues. -/
theorem getElem?_uopof {q' : IssueQueue} (h : issue q = some (slot, q')) :
    (uopids q')[slot]? = some (uopof q' slot) := by
  have hlt : slot < q.length := by
    unfold issue at h
    cases hf : q.findIdx? (·.allready) with
    | none => rw [hf] at h; cases h
    | some k =>
      rw [hf] at h
      cases h
      exact (List.findIdx?_eq_some_iff_findIdx_eq.1 hf).1
  have hlt' : slot < q'.length := by
    rw [← length_uopids, uopids_issue h, length_uopids]; exact hlt
  simp [uopids, uopof, List.getElem?_eq_getElem hlt']

theorem slotof_eq_none : slotof q i = none ↔ i ∉ uopids q := by
  simp [slotof, uopids, List.findIdx?_eq_none_iff]

theorem getElem?_slotof (h : slotof q i = some slot) : (uopids q)[slot]? = some i := by
  obtain ⟨hlt, hp, -⟩ := List.findIdx?_eq_some_iff_getElem.1 h
  rw [uopids, List.getElem?_map, List.getElem?_eq_getElem hlt]
  simpa using hp

/-- Removing the slot of a tag removes the tag. -/
theorem uopids_remove (hq : (uopids q).Nodup) (hs : (uopids q)[slot]? = some i) :
    uopids (remove q slot) = (uopids q).erase i := by
  obtain ⟨hlt, hi⟩ := List.getElem?_eq_some_iff.1 hs
  rw [← hi, hq.erase_getElem slot hlt]
  unfold uopids remove
  rw [List.eraseIdx_map]

end IssueQueue

open IssueQueue

/-- The queues hold the tags `inq` names, each in one slot of the queue it names. -/
structure QueuesWF (queue : Cluster → IssueQueue) (inq : ℕ → Option Cluster) : Prop where
  nodup : ∀ cl, (uopids (queue cl)).Nodup
  mem_iff : ∀ cl i, i ∈ uopids (queue cl) ↔ inq i = some cl

/-- The slots in use over all queues. -/
def occupied (queue : Cluster → IssueQueue) : ℕ := ∑ cl, (queue cl).length

section

variable {queue queue' : Cluster → IssueQueue} {inq : ℕ → Option Cluster} {cl : Cluster}
  {i slot : ℕ}

theorem queuesWF_empty : QueuesWF (fun _ => []) fun _ => none :=
  ⟨fun _ => List.nodup_nil, fun _ _ => by simp [uopids]⟩

@[simp] theorem occupied_empty : occupied (fun _ => []) = 0 := by simp [occupied]

theorem QueuesWF.congr (h : QueuesWF queue inq) (hq : ∀ cl, uopids (queue' cl) = uopids (queue cl)) :
    QueuesWF queue' inq :=
  ⟨fun cl => by rw [hq]; exact h.nodup cl, fun cl i => by rw [hq]; exact h.mem_iff cl i⟩

theorem occupied_congr (hq : ∀ cl, uopids (queue' cl) = uopids (queue cl)) :
    occupied queue' = occupied queue := by
  unfold occupied
  refine Finset.sum_congr rfl fun cl _ => ?_
  rw [← length_uopids, hq, length_uopids]

/-- A tag occupies as many slots of a queue as `inq` says: one or none. -/
theorem QueuesWF.count_eq (h : QueuesWF queue inq) (cl : Cluster) (i : ℕ) :
    (uopids (queue cl)).count i = if inq i = some cl then 1 else 0 := by
  split
  · rename_i hi
    exact List.count_eq_one_of_mem (h.nodup cl) ((h.mem_iff cl i).2 hi)
  · rename_i hi
    exact List.count_eq_zero_of_not_mem fun hm => hi ((h.mem_iff cl i).1 hm)

theorem QueuesWF.remove (h : QueuesWF queue inq) (hs : (uopids (queue cl))[slot]? = some i) :
    QueuesWF (Function.update queue cl (IssueQueue.remove (queue cl) slot))
      (Function.update inq i none) := by
  have hrem := uopids_remove (h.nodup cl) hs
  have hin : inq i = some cl := (h.mem_iff cl i).1 (List.mem_of_getElem? hs)
  constructor
  · intro k
    by_cases hk : k = cl
    · subst hk; rw [Function.update_self, hrem]; exact (h.nodup k).erase _
    · rw [Function.update_of_ne hk]; exact h.nodup k
  · intro k j
    by_cases hk : k = cl
    · subst hk
      rw [Function.update_self, hrem, (h.nodup k).mem_erase_iff, h.mem_iff]
      by_cases hj : j = i
      · subst hj; simp
      · simp [hj]
    · rw [Function.update_of_ne hk, h.mem_iff]
      by_cases hj : j = i
      · subst hj; simp [hin, Ne.symm hk]
      · simp [hj]

/-- One queue changes. -/
theorem occupied_update (queue : Cluster → IssueQueue) (cl : Cluster) (q : IssueQueue) :
    occupied (Function.update queue cl q) + (queue cl).length = occupied queue + q.length := by
  have hnew := Finset.add_sum_erase Finset.univ (fun k => (Function.update queue cl q k).length)
    (Finset.mem_univ cl)
  have hold := Finset.add_sum_erase Finset.univ (fun k => (queue k).length) (Finset.mem_univ cl)
  have hrest : ∑ k ∈ Finset.univ.erase cl, (Function.update queue cl q k).length =
      ∑ k ∈ Finset.univ.erase cl, (queue k).length := by
    refine Finset.sum_congr rfl fun k hk => ?_
    rw [Function.update_of_ne (Finset.ne_of_mem_erase hk)]
  simp only [Function.update_self] at hnew
  unfold occupied
  omega

theorem occupied_remove (hs : (uopids (queue cl))[slot]? = some i) :
    occupied (Function.update queue cl (IssueQueue.remove (queue cl) slot)) + 1 = occupied queue := by
  have hlt : slot < (queue cl).length := by
    obtain ⟨hlt, -⟩ := List.getElem?_eq_some_iff.1 hs
    rwa [length_uopids] at hlt
  have hlen : (IssueQueue.remove (queue cl) slot).length + 1 = (queue cl).length := by
    unfold IssueQueue.remove
    rw [List.length_eraseIdx_of_lt hlt]
    omega
  have := occupied_update queue cl (IssueQueue.remove (queue cl) slot)
  omega

theorem QueuesWF.insert (h : QueuesWF queue inq) (hlen : (queue cl).length < ISSUE_QUEUE_SIZE)
    (hi : inq i = none) (tags : Operand → Option ℕ) :
    QueuesWF (Function.update queue cl (IssueQueue.insert (queue cl) i tags))
      (Function.update inq i (some cl)) := by
  have hins := uopids_insert hlen i tags
  have hnot : ∀ k, i ∉ uopids (queue k) := by
    intro k hk
    rw [h.mem_iff, hi] at hk
    cases hk
  constructor
  · intro k
    by_cases hk : k = cl
    · subst hk
      rw [Function.update_self, hins]
      exact List.Nodup.append (h.nodup k) (List.nodup_singleton i) (by simpa using hnot k)
    · rw [Function.update_of_ne hk]; exact h.nodup k
  · intro k j
    by_cases hk : k = cl
    · subst hk
      rw [Function.update_self, hins, List.mem_append, List.mem_singleton, h.mem_iff]
      by_cases hj : j = i
      · simp [hj]
      · simp [hj]
    · rw [Function.update_of_ne hk, h.mem_iff]
      by_cases hj : j = i
      · subst hj; simp [hi, Ne.symm hk]
      · simp [hj]

theorem occupied_insert (hlen : (queue cl).length < ISSUE_QUEUE_SIZE) (tags : Operand → Option ℕ) :
    occupied (Function.update queue cl (IssueQueue.insert (queue cl) i tags)) = occupied queue + 1 := by
  have hadd : (IssueQueue.insert (queue cl) i tags).length = (queue cl).length + 1 := by
    rw [← length_uopids, uopids_insert hlen, List.length_append, length_uopids]; rfl
  have := occupied_update queue cl (IssueQueue.insert (queue cl) i tags)
  omega

end
end X86Sim.Ooo
