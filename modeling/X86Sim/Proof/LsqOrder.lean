import X86Sim.Proof.Bookkeeping
import X86Sim.Proof.Moves

/-!
# The load/store queue follows the reorder buffer

In every run, at the end of every stage, the slots of the load/store queue are those of
the loads and stores in the reorder buffer, in program order, each of the kind of its
uop (`LsqInOrder`). The two queues allocate, commit and annul at the same ends, so it is
enough that each move does to the one what it does to the other.

* `Core.LsqInOrder.move`: what one move keeps.
* `lsq_in_order`: every run.
* `forwards_from_older`: what the searches of the queue find is on the right side of
  the searching entry, in program order.
-/

namespace X86Sim.Ooo

namespace Core

variable (c : Core)

/-- Entry `i` is a load, a store or a fence. -/
def isMem (i : ℕ) : Bool := isload (c.uop i).op.opcode || isstore (c.uop i).op.opcode

/-- The loads, stores and fences in program order. -/
def memOps : List ℕ := c.order.filter c.isMem

/-- The stores and fences, and the loads, in flight. -/
def numStores : ℕ := c.memOps.countP fun i => isstore (c.uop i).op.opcode
def numLoads : ℕ := c.memOps.countP fun i => !isstore (c.uop i).op.opcode

/-- The load/store queue holds the loads and stores of the buffer in their order. -/
structure LsqInOrder : Prop where
  ring_wf : c.ls.ring.WF LSQ_SIZE
  order : c.memOps.map c.ls.lsq = (c.ls.ring.order LSQ_SIZE).map some
  unnamed : ∀ i, i ∉ c.memOps → c.ls.lsq i = none
  owner : ∀ i j, c.ls.lsq i = some j →
    (c.ls.entry j).rob = i ∧ (c.ls.entry j).store = isstore (c.uop i).op.opcode
  loads : c.ls.loadsInFlight = c.numLoads
  stores : c.ls.storesInFlight = c.numStores
  loads_le : c.numLoads ≤ LDQ_SIZE
  stores_le : c.numStores ≤ STQ_SIZE

end Core

section

variable {c c' : Core} {i j : ℕ}

/-! ### Names -/

theorem Core.LsqInOrder.mem (h : c.LsqInOrder) (hj : c.ls.lsq i = some j) :
    i ∈ c.memOps ∧ j ∈ c.ls.ring.order LSQ_SIZE := by
  have hi : i ∈ c.memOps := by
    by_contra hn
    rw [h.unnamed i hn] at hj
    cases hj
  refine ⟨hi, ?_⟩
  have : some j ∈ (c.ls.ring.order LSQ_SIZE).map some := by
    rw [← h.order, ← hj]
    exact List.mem_map_of_mem hi
  simpa using this

/-- The entries that name slots of the queue are the loads and stores in the buffer. -/
theorem Core.LsqInOrder.isSome_iff (h : c.LsqInOrder) : (c.ls.lsq i).isSome ↔ i ∈ c.memOps := by
  constructor
  · intro hs
    obtain ⟨j, hj⟩ := Option.isSome_iff_exists.1 hs
    exact (h.mem hj).1
  · intro hi
    have : c.ls.lsq i ∈ (c.ls.ring.order LSQ_SIZE).map some := by
      rw [← h.order]; exact List.mem_map_of_mem hi
    obtain ⟨j, -, hj⟩ := List.mem_map.1 this
    rw [← hj]; rfl

/-! ### Moves that keep the buffer -/

theorem memOps_congr (hord : c'.order = c.order) (huop : ∀ k, SameRole (c.uop k) (c'.uop k)) :
    c'.memOps = c.memOps := by
  unfold Core.memOps
  rw [hord]
  refine List.filter_congr fun k _ => ?_
  unfold Core.isMem
  rw [(huop k).opcode]

theorem Core.LsqInOrder.frame (h : c.LsqInOrder) (hord : c'.order = c.order)
    (huop : ∀ k, SameRole (c.uop k) (c'.uop k)) (hls : SameSlots c.ls c'.ls) : c'.LsqInOrder := by
  have hmem := memOps_congr hord huop
  have hst : ∀ k, isstore (c'.uop k).op.opcode = isstore (c.uop k).op.opcode := fun k => by
    rw [(huop k).opcode]
  have hloads : c'.numLoads = c.numLoads := by simp only [Core.numLoads, hmem, hst]
  have hstores : c'.numStores = c.numStores := by simp only [Core.numStores, hmem, hst]
  refine ⟨by rw [hls.ring]; exact h.ring_wf, by rw [hmem, hls.lsq, hls.ring]; exact h.order,
    by rw [hmem, hls.lsq]; exact h.unnamed, fun i j hj => ?_, by rw [hls.loads, hloads]; exact h.loads,
    by rw [hls.stores, hstores]; exact h.stores, by rw [hloads]; exact h.loads_le,
    by rw [hstores]; exact h.stores_le⟩
  rw [hls.lsq] at hj
  rw [hls.rob, hls.store, hst]
  exact h.owner i j hj

/-! ### An entry leaves -/

theorem Core.memOps_nodup (hring : c.ring.WF ROB_SIZE) : c.memOps.Nodup := hring.nodup_order.filter _

theorem mem_memOps : i ∈ c.memOps ↔ i ∈ c.order ∧ c.isMem i = true := List.mem_filter

/-- An entry without a slot leaves. -/
theorem Core.LsqInOrder.leave_other (h : c.LsqInOrder) (huop : c'.uop = c.uop) {ring : CircQueue}
    (hls : c'.ls = (c.ls.giveBack i (c.uop i).op ring).resetEntry i)
    (hmem : c'.memOps = c.memOps) (hi : c.isMem i = false) : c'.LsqInOrder := by
  have hnone : c.ls.lsq i = none := h.unnamed i fun hm => by
    rw [(mem_memOps.1 hm).2] at hi
    cases hi
  have hls' : c'.ls = c.ls.resetEntry i := by
    rw [hls]
    unfold LoadStore.giveBack
    rw [hnone]
  have hlsq : c'.ls.lsq = c.ls.lsq := by
    rw [hls']
    show Function.update c.ls.lsq i none = _
    rw [← hnone, Function.update_eq_self]
  have hstores : c'.numStores = c.numStores := by unfold Core.numStores; rw [hmem, huop]
  have hloads : c'.numLoads = c.numLoads := by unfold Core.numLoads; rw [hmem, huop]
  refine ⟨by rw [hls']; exact h.ring_wf, ?_, by rw [hmem, hlsq]; exact h.unnamed, fun k j hj => ?_, ?_, ?_,
    hloads ▸ h.loads_le, hstores ▸ h.stores_le⟩
  · rw [hmem, hlsq, hls']; exact h.order
  · rw [hlsq] at hj
    rw [huop, hls']
    exact h.owner k j hj
  · rw [hloads, hls']; exact h.loads
  · rw [hstores, hls']; exact h.stores

/-- The slot of a load or store is given back. -/
theorem giveBack_slot (ls : LoadStore) (op : TransOp) (ring : CircQueue) (hj : ls.lsq i = some j)
    (hmem : (isload op.opcode || isstore op.opcode) = true) :
    ((ls.giveBack i op ring).resetEntry i).ring = ring ∧
      ((ls.giveBack i op ring).resetEntry i).lsq = Function.update ls.lsq i none ∧
      ((ls.giveBack i op ring).resetEntry i).entry = Function.update ls.entry j LsqEntry.zero ∧
      ((ls.giveBack i op ring).resetEntry i).loadsInFlight =
        (if (ls.entry j).store then ls.loadsInFlight else ls.loadsInFlight - 1) ∧
      ((ls.giveBack i op ring).resetEntry i).storesInFlight =
        (if (ls.entry j).store then ls.storesInFlight - 1 else ls.storesInFlight) := by
  unfold LoadStore.giveBack
  simp only [hj, hmem, if_true]
  cases (ls.entry j).store <;> exact ⟨rfl, rfl, rfl, rfl, rfl⟩

/-- An entry leaves with its slot, at the end of both queues that `ring` says. -/
theorem Core.LsqInOrder.leave (h : c.LsqInOrder) (hnd : c.memOps.Nodup) (huop : c'.uop = c.uop)
    {ring : CircQueue} (hls : c'.ls = (c.ls.giveBack i (c.uop i).op ring).resetEntry i)
    (hi : c.isMem i = true) (hperm : c.memOps.Perm (i :: c'.memOps)) (hwf : ring.WF LSQ_SIZE)
    (hord : c'.memOps.map c.ls.lsq = (ring.order LSQ_SIZE).map some) : c'.LsqInOrder := by
  have him : i ∈ c.memOps := hperm.mem_iff.2 List.mem_cons_self
  obtain ⟨j, hj⟩ := Option.isSome_iff_exists.1 (h.isSome_iff.2 him)
  have hnot : i ∉ c'.memOps := (List.nodup_cons.1 (hperm.nodup_iff.1 hnd)).1
  obtain ⟨hrob, hstore⟩ := h.owner i j hj
  obtain ⟨hr, hlsq, hentry, hload, hstores⟩ := giveBack_slot c.ls (c.uop i).op ring hj hi
  rw [← hls] at hr hlsq hentry hload hstores
  rw [hstore] at hload hstores
  have hst : c.numStores = c'.numStores + if isstore (c.uop i).op.opcode then 1 else 0 := by
    unfold Core.numStores
    rw [hperm.countP_eq, List.countP_cons, huop]
  have hld : c.numLoads = c'.numLoads + if isstore (c.uop i).op.opcode then 0 else 1 := by
    unfold Core.numLoads
    rw [hperm.countP_eq, List.countP_cons, huop]
    cases isstore (c.uop i).op.opcode <;> rfl
  constructor
  case ring_wf =>
    rw [hr]
    exact hwf
  case order =>
    rw [hr, hlsq, ← hord]
    refine List.map_congr_left fun k hk => Function.update_of_ne ?_ _ _
    rintro rfl
    exact hnot hk
  case unnamed =>
    intro k hk
    rw [hlsq]
    by_cases hki : k = i
    · subst hki; exact Function.update_self _ _ _
    · rw [Function.update_of_ne hki]
      refine h.unnamed k fun hm => ?_
      rcases List.mem_cons.1 (hperm.mem_iff.1 hm) with hki' | hk'
      · exact hki hki'
      · exact hk hk'
  case owner =>
    intro k j' hj'
    rw [hlsq] at hj'
    have hki : k ≠ i := by
      rintro rfl
      rw [Function.update_self] at hj'
      cases hj'
    rw [Function.update_of_ne hki] at hj'
    obtain ⟨hrob', hstore'⟩ := h.owner k j' hj'
    -- the slots belong to one entry each, so no other entry had the one that left
    have hjj : j' ≠ j := by
      rintro rfl
      exact hki (hrob'.symm.trans hrob)
    rw [hentry, huop, Function.update_of_ne hjj]
    exact ⟨hrob', hstore'⟩
  case loads =>
    have := h.loads
    rw [hload]
    split at hld <;> rename_i hs
    · rw [if_pos hs]; omega
    · rw [if_neg hs]; omega
  case stores =>
    have := h.stores
    rw [hstores]
    split at hst <;> rename_i hs
    · rw [if_pos hs]; omega
    · rw [if_neg hs]; omega
  case loads_le =>
    have := h.loads_le
    omega
  case stores_le =>
    have := h.stores_le
    omega

/-- The head commits. -/
theorem Core.LsqInOrder.retire (h : c.LsqInOrder) (hring : c.ring.WF ROB_SIZE) {rest : List ℕ}
    (hord : c.order = i :: rest) : (c.retire i).LsqInOrder := by
  obtain ⟨-, huop, -, -, -, hls, -⟩ := retire_frame c i
  have hord' := retire_order hring hord
  have hmem' : (c.retire i).memOps = rest.filter c.isMem := by
    unfold Core.memOps Core.isMem
    rw [hord', huop]
  have hmem : c.memOps = (if c.isMem i then [i] else []) ++ (c.retire i).memOps := by
    rw [hmem']
    unfold Core.memOps
    rw [hord, List.filter_cons]
    split <;> rfl
  cases hi : c.isMem i with
  | false => exact h.leave_other huop hls (by rw [hmem, hi]; rfl) hi
  | true =>
    rw [hi] at hmem
    have hlsq := h.order
    rw [hmem] at hlsq
    have hne' : c.ls.ring.order LSQ_SIZE ≠ [] := by
      intro hnil
      rw [hnil] at hlsq
      cases hlsq
    refine h.leave (Core.memOps_nodup hring) huop hls hi (by rw [hmem]; exact .refl _)
      (h.ring_wf.commit hne') ?_
    rw [h.ring_wf.order_cons hne'] at hlsq
    exact (List.cons.inj hlsq).2

/-- The tail is annulled. -/
theorem Core.LsqInOrder.annulEntry (h : c.LsqInOrder) (hring : c.ring.WF ROB_SIZE) {X : List ℕ}
    (hord : c.order = X ++ [i]) : (c.annulEntry i).LsqInOrder := by
  have hord' := annulEntry_order hring hord
  have hmem' : (c.annulEntry i).memOps = X.filter c.isMem := by
    unfold Core.memOps
    rw [hord']
    rfl
  have hmem : c.memOps = (c.annulEntry i).memOps ++ if c.isMem i then [i] else [] := by
    rw [hmem']
    unfold Core.memOps
    rw [hord, List.filter_append, List.filter_singleton]
    cases c.isMem i <;> rfl
  cases hi : c.isMem i with
  | false => exact h.leave_other rfl rfl (by rw [hmem, hi]; exact (List.append_nil _).symm) hi
  | true =>
    rw [hi] at hmem
    have hlsq := h.order
    rw [hmem] at hlsq
    have hne' : c.ls.ring.order LSQ_SIZE ≠ [] := by
      intro hnil
      rw [hnil] at hlsq
      simp at hlsq
    refine h.leave (Core.memOps_nodup hring) rfl rfl hi ?_ (h.ring_wf.annul hne') ?_
    · rw [hmem]; exact List.perm_append_singleton i _
    · rw [h.ring_wf.order_snoc hne', List.map_append, List.map_append] at hlsq
      exact (List.append_inj' hlsq rfl).1

/-! ### An entry enters -/

theorem renameUop_order (hring : c.ring.WF ROB_SIZE) (hroom : 0 < c.ring.remaining ROB_SIZE)
    (uop : FetchBufferEntry) (rest : List FetchBufferEntry) (p : PhysReg) :
    (c.renameUop uop rest p).order = c.order ++ [c.ring.tail] := hring.order_alloc hroom

/-- The uops of the older entries stay, and the new one is in place. -/
theorem renameUop_uop (uop : FetchBufferEntry) (rest : List FetchBufferEntry) (p : PhysReg) :
    ((c.renameUop uop rest p).uop c.ring.tail = uop) ∧
      ∀ k, k ≠ c.ring.tail → (c.renameUop uop rest p).uop k = c.uop k :=
  ⟨Function.update_self _ _ _, fun _ hk => Function.update_of_ne hk _ _⟩

theorem renameLsq_other (c : Core) (i : ℕ) {op : TransOp}
    (hm : (isload op.opcode || isstore op.opcode) = false) :
    (c.renameLsq i op).ring = c.ls.ring ∧ (c.renameLsq i op).lsq = Function.update c.ls.lsq i none ∧
      (c.renameLsq i op).entry = c.ls.entry ∧ (c.renameLsq i op).loadsInFlight = c.ls.loadsInFlight ∧
      (c.renameLsq i op).storesInFlight = c.ls.storesInFlight := by
  simp only [Core.renameLsq, hm, Bool.false_eq_true, if_false, and_self]

/-- A load or store takes the slot at the tail. -/
theorem renameLsq_slot (c : Core) (i : ℕ) {op : TransOp}
    (hm : (isload op.opcode || isstore op.opcode) = true) :
    (c.renameLsq i op).ring = c.ls.ring.alloc LSQ_SIZE ∧
      (c.renameLsq i op).lsq = Function.update c.ls.lsq i (some c.ls.ring.tail) ∧
      (∀ k, k ≠ c.ls.ring.tail → (c.renameLsq i op).entry k = c.ls.entry k) ∧
      ((c.renameLsq i op).entry c.ls.ring.tail).rob = i ∧
      ((c.renameLsq i op).entry c.ls.ring.tail).store = isstore op.opcode ∧
      (c.renameLsq i op).loadsInFlight =
        (if isstore op.opcode then c.ls.loadsInFlight else c.ls.loadsInFlight + 1) ∧
      (c.renameLsq i op).storesInFlight =
        (if isstore op.opcode then c.ls.storesInFlight + 1 else c.ls.storesInFlight) := by
  simp only [Core.renameLsq, hm, if_true, Function.update_idem, Function.update_self, and_self, and_true,
    true_and]
  exact fun k hk => Function.update_of_ne hk _ _

/-- The new entry stands last among the loads and stores, if it is one. -/
theorem memOps_renameUop (hring : c.ring.WF ROB_SIZE) (hroom : 0 < c.ring.remaining ROB_SIZE)
    (uop : FetchBufferEntry) (rest : List FetchBufferEntry) (p : PhysReg) :
    (c.renameUop uop rest p).memOps =
      c.memOps ++ if isload uop.op.opcode || isstore uop.op.opcode then [c.ring.tail] else [] := by
  obtain ⟨hnew, hold⟩ := renameUop_uop (c := c) uop rest p
  unfold Core.memOps
  rw [renameUop_order hring hroom uop rest p, List.filter_append, List.filter_singleton]
  have : c.order.filter (c.renameUop uop rest p).isMem = c.order.filter c.isMem := by
    refine List.filter_congr fun k hk => ?_
    unfold Core.isMem
    rw [hold k fun hkt => hring.tail_not_mem (hkt ▸ hk)]
  rw [this]
  unfold Core.isMem
  rw [hnew]
  cases (isload uop.op.opcode || isstore uop.op.opcode) <;> rfl

/-- Both counters are counts of one kind over the same list. -/
theorem countP_renameUop (hring : c.ring.WF ROB_SIZE) (hroom : 0 < c.ring.remaining ROB_SIZE)
    (uop : FetchBufferEntry) (rest : List FetchBufferEntry) (p : PhysReg) (q : Opcode → Bool) :
    (c.renameUop uop rest p).memOps.countP (fun i => q ((c.renameUop uop rest p).uop i).op.opcode) =
      c.memOps.countP (fun i => q (c.uop i).op.opcode) +
        if (isload uop.op.opcode || isstore uop.op.opcode) && q uop.op.opcode then 1 else 0 := by
  obtain ⟨hnew, hold⟩ := renameUop_uop (c := c) uop rest p
  have hsame : c.memOps.countP (fun i => q ((c.renameUop uop rest p).uop i).op.opcode) =
      c.memOps.countP fun i => q (c.uop i).op.opcode :=
    List.countP_congr fun k hk => by
      rw [hold k fun hkt => hring.tail_not_mem (hkt ▸ (mem_memOps.1 hk).1)]
  rw [memOps_renameUop hring hroom, List.countP_append, hsame]
  cases isload uop.op.opcode || isstore uop.op.opcode with
  | false => simp
  | true => simp [List.countP_singleton, hnew]

theorem Core.LsqInOrder.rename (h : c.LsqInOrder) (hring : c.ring.WF ROB_SIZE)
    (hroom : 0 < c.ring.remaining ROB_SIZE) {uop : FetchBufferEntry} {rest : List FetchBufferEntry}
    {p : PhysReg} (hlsq : c.lsqRoom uop.op = true) : (c.renameUop uop rest p).LsqInOrder := by
  obtain ⟨hnew, hold⟩ := renameUop_uop (c := c) uop rest p
  have hls : (c.renameUop uop rest p).ls = c.renameLsq c.ring.tail uop.op := rfl
  have hmem := memOps_renameUop hring hroom uop rest p
  have hcount := countP_renameUop hring hroom uop rest p
  generalize c.renameUop uop rest p = c' at hnew hold hls hmem hcount
  have hnot : c.ring.tail ∉ c.order := hring.tail_not_mem
  generalize ht : c.ring.tail = t at *
  have hne : ∀ k ∈ c.order, k ≠ t := fun k hk hkt => hnot (hkt ▸ hk)
  have hnamed : c.ls.lsq t = none := h.unnamed t fun hm => hnot (mem_memOps.1 hm).1
  have hst : c'.numStores = _ := hcount isstore
  have hld : c'.numLoads = _ := hcount fun o => !isstore o
  change _ = c.numStores + _ at hst
  change _ = c.numLoads + _ at hld
  cases hm : (isload uop.op.opcode || isstore uop.op.opcode) with
  | false =>
    rw [hm] at hmem hst hld
    simp only [Bool.false_and, Bool.false_eq_true, if_false, Nat.add_zero, List.append_nil] at hst hld hmem
    obtain ⟨hr, hq, he, hl, hs⟩ := renameLsq_other c t hm
    rw [← hnamed, Function.update_eq_self] at hq
    rw [← hls] at hr hq he hl hs
    refine ⟨by rw [hr]; exact h.ring_wf, by rw [hmem, hq, hr]; exact h.order,
      by rw [hmem, hq]; exact h.unnamed, fun i j hj => ?_, by rw [hl, hld]; exact h.loads,
      by rw [hs, hst]; exact h.stores, hld ▸ h.loads_le, hst ▸ h.stores_le⟩
    rw [hq] at hj
    rw [he, hold i (hne i (mem_memOps.1 (h.mem hj).1).1)]
    exact h.owner i j hj
  | true =>
    rw [hm] at hmem hst hld
    simp only [Bool.true_and, if_true] at hst hld hmem
    simp only [Core.lsqRoom, hm, Bool.true_and, Bool.and_eq_true, Bool.not_eq_true'] at hlsq
    obtain ⟨⟨hlroom, hsroom⟩, hqroom⟩ := hlsq
    have hroom' : 0 < c.ls.ring.remaining LSQ_SIZE := by
      simp only [beq_eq_false_iff_ne] at hqroom
      omega
    obtain ⟨hr, hq, he, hrob, hstore, hl, hs⟩ := renameLsq_slot c t hm
    rw [← hls] at hr hq hrob hstore hl hs
    generalize hj₀ : c.ls.ring.tail = j₀ at *
    have hj₀n : j₀ ∉ c.ls.ring.order LSQ_SIZE := by rw [← hj₀]; exact h.ring_wf.tail_not_mem
    constructor
    case ring_wf =>
      rw [hr]
      exact h.ring_wf.alloc hroom'
    case order =>
      rw [hmem, hr, h.ring_wf.order_alloc hroom', List.map_append, List.map_append, hj₀, ← h.order, hq]
      congr 1
      · refine List.map_congr_left fun k hk => Function.update_of_ne (hne k (mem_memOps.1 hk).1) _ _
      · simp
    case unnamed =>
      intro k hk
      rw [hmem, List.mem_append, not_or, List.mem_singleton] at hk
      rw [hq, Function.update_of_ne hk.2]
      exact h.unnamed k hk.1
    case owner =>
      intro k j hj
      rw [hq] at hj
      by_cases hkt : k = t
      · subst hkt
        rw [Function.update_self, Option.some.injEq] at hj
        subst hj
        rw [hnew]
        exact ⟨hrob, hstore⟩
      · rw [Function.update_of_ne hkt] at hj
        obtain ⟨hkm, hjm⟩ := h.mem hj
        have hjj : j ≠ j₀ := by rintro rfl; exact hj₀n hjm
        rw [hls, he j hjj, hold k hkt]
        exact h.owner k j hj
    case loads =>
      have := h.loads
      rw [hl, hld]
      cases isstore uop.op.opcode <;> simp [this]
    case stores =>
      have := h.stores
      rw [hs, hst]
      cases isstore uop.op.opcode <;> simp [this]
    case loads_le =>
      have h1 := h.loads
      have h2 := h.loads_le
      rw [hld]
      cases hso : isstore uop.op.opcode with
      | true => simpa using h2
      | false =>
        rw [hso, Bool.or_false] at hm
        rw [hm] at hlroom
        simp only [Bool.true_and, ge_iff_le, decide_eq_false_iff_not, not_le] at hlroom
        simp only [Bool.not_false, if_true]
        omega
    case stores_le =>
      have h1 := h.stores
      have h2 := h.stores_le
      rw [hst]
      cases hso : isstore uop.op.opcode with
      | false => simpa using h2
      | true =>
        rw [hso] at hsroom
        simp only [Bool.true_and, ge_iff_le, decide_eq_false_iff_not, not_le] at hsroom
        simp only [if_true]
        omega

/-! ### Every move -/

theorem Core.LsqInOrder.empty (hord : c.order = []) (hls : c.ls = c'.ls.reset) : c.LsqInOrder := by
  have hmem : c.memOps = [] := by unfold Core.memOps; rw [hord]; rfl
  constructor
  case ring_wf =>
    rw [hls]
    exact CircQueue.wf_empty (by decide)
  case order =>
    rw [hmem, hls]
    rfl
  case unnamed =>
    intro _ _
    rw [hls]
    rfl
  case owner =>
    intro i j hj
    rw [hls] at hj; cases hj
  case loads =>
    rw [hls]
    unfold Core.numLoads; rw [hmem]; rfl
  case stores =>
    rw [hls]
    unfold Core.numStores; rw [hmem]; rfl
  case loads_le => unfold Core.numLoads; rw [hmem]; exact Nat.zero_le _
  case stores_le => unfold Core.numStores; rw [hmem]; exact Nat.zero_le _

theorem flushPipeline_order (c : Core) : c.flushPipeline.order = [] := CircQueue.order_empty ROB_SIZE

theorem flushPipeline_regs (c : Core) :
    c.flushPipeline.regs = (c.regs.flush c.order).externalToCoreState := by
  have hr := fetchReset { c with regs := c.regs.flush c.order } (c.ctx.commitarf Reg.rip)
  unfold Core.flushPipeline
  dsimp only
  rw [hr.regs]

theorem flushPipeline_ls (c : Core) : c.flushPipeline.ls = c.ls.reset := by
  unfold Core.flushPipeline
  dsimp only
  rw [(fetchReset { c with regs := c.regs.flush c.order } (c.ctx.commitarf Reg.rip)).ls]

/-- One move does to both queues what it does to one. -/
theorem Core.LsqInOrder.move (h : c.LsqInOrder) (hring : c.ring.WF ROB_SIZE) (hm : Move c c') :
    c'.LsqInOrder := by
  cases hm with
  | kept hf => exact h.frame hf.order hf.uop hf.slots
  | settle i st hf => exact h.frame hf.order hf.uop hf.slots
  | forward i j sfra hf => exact h.frame hf.order hf.uop hf.slots
  | fence i j k hf => exact h.frame hf.order hf.uop hf.slots
  | recycle => exact h.frame rfl (fun _ => .refl _) (.refl _)
  | aliased i j k =>
    obtain ⟨hr, huop, -, hls⟩ := aliasRedispatch_frame c i j k
    exact h.frame (by unfold Core.order; rw [hr]) (fun k => by rw [huop]; exact .refl _) hls
  | rename hq hroom hp hlsq => exact h.rename hring hroom hlsq
  | retire i hord => exact h.retire hring hord
  | @annul rc X Y e hord =>
    exact (annulFrom_ind (P := Core.LsqInOrder) rc hring hord
      (fun s _ => h.frame rfl (fun _ => .refl _) (.refl _)) fun _ _ _ hr ho hc => hc.annulEntry hr ho).2.2
  | resetFetch rip =>
    have hr := fetchReset c rip
    exact h.frame (by unfold Core.order; rw [hr.ring]) (fun k => by rw [hr.uop]; exact .refl _)
      (by rw [hr.ls]; exact .refl _)
  | fetch u hr huop _ _ hls =>
    exact h.frame (by unfold Core.order; rw [hr]) (fun k => by rw [huop]; exact .refl _)
      (by rw [hls]; exact .refl _)
  | flush => exact .empty (flushPipeline_order c) (flushPipeline_ls c)

/-! ### Runs -/

theorem rule_lsqInOrder (env : Env) (ok : RunState → CycleInput → Prop) :
    Rule env ok (fun _ => True) Core.LsqInOrder :=
  rule_of_moves env ok (fun _ _ hr h hm => h.move hr hm) (fun _ _ => trivial)
    (fun _ _ _ _ _ _ => .empty (flushPipeline_order _) (flushPipeline_ls _)) fun _ _ => trivial

theorem Reachable.atStage {env : Env} {s : RunState} (hs : Reachable env anyInput s) (hdone : s.done = false)
    (hexit : s.exiting = false) : AtStage env anyInput s.core :=
  ⟨s, .hit true, 0, hs, hdone, hexit, trivial, rfl⟩

/-- The loop after two cycles. -/
theorem reachable_loadLoop : Reachable Env.loadLoop anyInput (loadLoopRun 2) :=
  reachable_after (reachable_first _ _ _) _ 2 (fun k hk => RunState.goes_of_after loadLoop_counts.1 (by omega))
    fun _ _ => trivial

theorem atStage_loadLoop : AtStage Env.loadLoop anyInput (loadLoopRun 2).core :=
  have hgo := RunState.goes_of_after loadLoop_counts.1 (show 2 ≤ 9 by omega)
  reachable_loadLoop.atStage hgo.1 hgo.2

/-- The first load and the first branch are in flight. -/
theorem loadLoop_flight : (loadLoopRun 2).core.order = [0, 1] ∧
    (loadLoopRun 2).core.ls.lsq 0 = some 0 ∧
    (loadLoopRun 2).core.regs.peekFree fileInt = some ⟨fileInt, 24⟩ ∧
    (loadLoopRun 2).core.regs.state ⟨fileInt, 23⟩ = some .waiting := by
  decide +kernel

/-- A fence, `mov [rbx], ecx`, `mov eax, [rbx]` and a jump to another line. -/
def fenceCode : List TransOp :=
  [{ TransOp.init .opMf Reg.temp0 Reg.zero Reg.zero Reg.zero 0 0 0 .none with
      extshift := 3, bytes := 3, som := true, eom := true },
    { TransOp.init .opSt Reg.mem Reg.rbx Reg.imm Reg.rcx 2 0 0 .none with
      bytes := 2, som := true, eom := true },
    { TransOp.init .opLd Reg.rax Reg.rbx Reg.imm Reg.zero 2 0 0 .none with
      bytes := 2, som := true, eom := true },
    { TransOp.init .opBru Reg.rip Reg.zero Reg.zero Reg.zero 3 0 0 .none with
      riptaken := 0x40, bytes := 2, som := true, eom := true }]

def Env.fenceCode : Env :=
  Env.ofBlock Ooo.fenceCode 9 (fun _ _ => ⟨0, 0⟩) (by decide) (List.cons_ne_nil _ _) ⟨rfl, rfl, rfl, rfl, rfl⟩
    fun op hop => by
      have h : op = Ooo.fenceCode[0] ∨ op = Ooo.fenceCode[1] ∨ op = Ooo.fenceCode[2] ∨
          op = Ooo.fenceCode[3] := by simpa [Ooo.fenceCode] using hop
      rcases h with rfl | rfl | rfl | rfl <;> exact ⟨by decide, by decide, by decide, by decide⟩

/-- The code is not in the cache past its first line. -/
def coldInput : CycleInput := { CycleInput.hit false with icacheHit := fun _ => false }

/-- It is run on a page at 0x1000. -/
def fenceCodeRun : ℕ → RunState :=
  (RunState.first (Function.update (fun _ => 0) Reg.rbx 0x1000)
    ((AddressSpace.init true).map 0x1000 0x1000 ⟨true, true, false⟩ 8).space 100).after
    Env.fenceCode fun _ => coldInput

/-- The eleventh cycle up to its rename stage. -/
def fenceCodeRename : Core :=
  ((CycleState.init (fenceCodeRun 10).core).run Env.fenceCode coldInput (cycleStages.take 21)).core

/-- Some turns of that stage. -/
def fenceCodeTurn (n : ℕ) : Core := loopWhile Core.renameTurn n fenceCodeRename

/-- After 16 cycles the first fence and the first store have committed, and the code is in
flight for the second time. -/
theorem fenceCode_flight :
    ((fenceCodeRun 17).done = false ∧ (fenceCodeRun 17).exiting = false) ∧
    ((fenceCodeRun 16).core.order = [2, 3, 4, 5, 6, 7] ∧ (fenceCodeRun 16).core.ls.lsq 6 = some 5 ∧
      (fenceCodeRun 16).core.findNearestMemoryFence 6 = some 3 ∧
      (fenceCodeRun 16).core.findStoreForLoad 5 (.guest 512) true = some 4 ∧
      ((fenceCodeRun 16).core.ls.entry 3).rob = 4 ∧ ((fenceCodeRun 16).core.ls.entry 4).rob = 5) ∧
    (fenceCodeRun 0).retired Env.fenceCode (fun _ => coldInput) 17 = [0, 1, 2, 3] ∧
    (fenceCodeRename.order = [0, 1, 2, 3] ∧
      fenceCodeRename.regs.state (fenceCodeRename.regs.operands 2 RS) = some .bypass) ∧
    (fenceCodeTurn 2).order = [0, 1, 2, 3, 4, 5] ∧
    (fenceCodeTurn 2).regs.peekFree fileInt = some ⟨fileInt, 24⟩ := by
  decide +kernel

theorem goes_fenceCode {k : ℕ} (hk : k < 18) : (fenceCodeRun k).done = false ∧ (fenceCodeRun k).exiting = false :=
  RunState.goes_of_after fenceCode_flight.1 (Nat.le_of_lt_succ hk)

theorem reachable_fenceCode {n : ℕ} (hn : n < 18) : Reachable Env.fenceCode anyInput (fenceCodeRun n) :=
  reachable_after (reachable_first _ _ _) _ n (fun k hk => goes_fenceCode (by omega))
    fun _ _ => trivial

theorem atStage_fenceCode : AtStage Env.fenceCode anyInput (fenceCodeRun 16).core :=
  (reachable_fenceCode (by omega)).atStage (goes_fenceCode (by omega)).1 (goes_fenceCode (by omega)).2

theorem atStage_fenceCodeRename : AtStage Env.fenceCode anyInput fenceCodeRename :=
  have hgo := goes_fenceCode (show 10 < 18 by omega)
  ⟨_, coldInput, 21, reachable_fenceCode (by omega), hgo.1, hgo.2, trivial, rfl⟩

/-- The load/store queue is the loads and stores of the reorder buffer, in every run. -/
theorem lsq_in_order (env : Env) (hc : AtStage env anyInput c) : c.LsqInOrder :=
  ((rule_lsqInOrder env anyInput).atStage hc).2

theorem lsq_in_order_fenceCode : (fenceCodeRun 16).core.LsqInOrder :=
  lsq_in_order Env.fenceCode atStage_fenceCode

/-! ### Older and younger -/

/-- The slots before and after that of an entry are those of the loads and stores before
and after it in program order. -/
theorem Core.LsqInOrder.split (h : c.LsqInOrder) (hring : c.ring.WF ROB_SIZE)
    (hj : c.ls.lsq i = some j) : ∃ X Y, c.order = X ++ i :: Y ∧
      (∀ k ∈ c.ls.ring.backwardBefore LSQ_SIZE j, (c.ls.entry k).rob ∈ X ∧
        c.ls.lsq (c.ls.entry k).rob = some k) ∧
      ∀ k ∈ c.ls.ring.forwardAfter LSQ_SIZE j, (c.ls.entry k).rob ∈ Y ∧
        c.ls.lsq (c.ls.entry k).rob = some k := by
  obtain ⟨hi, hjm⟩ := h.mem hj
  obtain ⟨hio, him⟩ := mem_memOps.1 hi
  obtain ⟨X, Y, hord⟩ := List.append_of_mem hio
  refine ⟨X, Y, hord, ?_⟩
  have hmem : c.memOps = X.filter c.isMem ++ i :: Y.filter c.isMem := by
    unfold Core.memOps
    rw [hord, List.filter_append, List.filter_cons, if_pos him]
  have hlsq := h.order
  rw [hmem, List.map_append, List.map_cons, hj, h.ring_wf.order_eq hjm, List.map_append,
    List.map_cons] at hlsq
  have hnd := h.ring_wf.nodup_order
  rw [h.ring_wf.order_eq hjm] at hnd
  have hX : some j ∉ (X.filter c.isMem).map c.ls.lsq := by
    intro hm
    obtain ⟨k, hk, hkj⟩ := List.mem_map.1 hm
    have hki : k = i := (h.owner k j hkj).1.symm.trans (h.owner i j hj).1
    subst hki
    have := Core.memOps_nodup (c := c) hring
    rw [hmem] at this
    exact (List.disjoint_of_nodup_append this) hk List.mem_cons_self
  have hY : some j ∉ (Y.filter c.isMem).map c.ls.lsq := by
    intro hm
    obtain ⟨k, hk, hkj⟩ := List.mem_map.1 hm
    have hki : k = i := (h.owner k j hkj).1.symm.trans (h.owner i j hj).1
    subst hki
    have := Core.memOps_nodup (c := c) hring
    rw [hmem] at this
    exact (List.nodup_cons.1 (List.nodup_append.1 this).2.1).1 hk
  -- both lists name `j` once, so they split there into the same two parts
  obtain ⟨hbefore, -, hafter⟩ := (List.append_cons_inj_of_notMem hX hY).1 hlsq
  have hname : ∀ Z : List ℕ, ∀ k, some k ∈ (Z.filter c.isMem).map c.ls.lsq →
      (c.ls.entry k).rob ∈ Z ∧ c.ls.lsq (c.ls.entry k).rob = some k := by
    intro Z k hm
    obtain ⟨a, ha, hak⟩ := List.mem_map.1 hm
    rw [(h.owner a k hak).1]
    exact ⟨(List.mem_filter.1 ha).1, hak⟩
  refine ⟨fun k hk => hname X k ?_, fun k hk => hname Y k ?_⟩
  · rw [hbefore]
    exact List.mem_map_of_mem (List.mem_reverse.2 hk)
  · rw [hafter]
    exact List.mem_map_of_mem hk

/-- What the searches for entry `i` find is on the right side of it in program order: the
stores to wait for and to forward from and the fence are older, an overtaking load is
younger. -/
theorem searches_in_order (env : Env) (hc : AtStage env anyInput c) (hf : Frame c c')
    (hj : c'.ls.lsq i = some j) : ∃ X Y, c'.order = X ++ i :: Y ∧
      (∀ k chunk, c'.findStoreForStore j chunk = some k →
        (c'.ls.entry k).rob ∈ X ∧ isstore (c'.uop (c'.ls.entry k).rob).op.opcode = true) ∧
      (∀ k chunk lsap, c'.findStoreForLoad j chunk lsap = some k →
        (c'.ls.entry k).rob ∈ X ∧ isstore (c'.uop (c'.ls.entry k).rob).op.opcode = true) ∧
      (∀ k, c'.findNearestMemoryFence i = some k → (c'.ls.entry k).rob ∈ X) ∧
      ∀ k chunk, c'.findAliasedLoad j chunk = some k →
        (c'.ls.entry k).rob ∈ Y ∧ isstore (c'.uop (c'.ls.entry k).rob).op.opcode = false := by
  obtain ⟨hb, h⟩ := (rule_lsqInOrder env anyInput).atStage hc
  have h' : c'.LsqInOrder := h.frame hf.order hf.uop hf.slots
  obtain ⟨X, Y, hord, hX, hY⟩ := h'.split (by rw [hf.ring]; exact hb.sched.ring_wf) hj
  have hstore : ∀ k, c'.ls.lsq (c'.ls.entry k).rob = some k →
      (c'.ls.entry k).store = isstore (c'.uop (c'.ls.entry k).rob).op.opcode :=
    fun k hk => (h'.owner _ k hk).2
  refine ⟨X, Y, hord, fun k chunk hk => ?_, fun k chunk lsap hk => ?_, fun k hk => ?_,
    fun k chunk hk => ?_⟩
  · obtain ⟨hmem, hlsq⟩ := hX k (List.mem_of_find?_eq_some hk)
    have := List.find?_some hk
    simp only [Core.storeMatch, Bool.and_eq_true] at this
    exact ⟨hmem, by rw [← hstore k hlsq]; exact this.1⟩
  · obtain ⟨hmem, hlsq⟩ := hX k (List.mem_of_find?_eq_some hk)
    have := List.find?_some hk
    simp only [Core.loadMatch, Bool.and_eq_true] at this
    exact ⟨hmem, by rw [← hstore k hlsq]; exact this.1⟩
  · unfold Core.findNearestMemoryFence at hk
    rw [hj] at hk
    exact (hX k (List.mem_of_find?_eq_some hk)).1
  · obtain ⟨hmem, hlsq⟩ := hY k (List.mem_of_find?_eq_some hk)
    have := List.find?_some hk
    simp only [Bool.and_eq_true, Bool.not_eq_true'] at this
    exact ⟨hmem, by rw [← hstore k hlsq]; exact this.1.1.1⟩

/-- The second load finds the fence before it, and the store it is taken to alias with. -/
theorem searches_in_order_fenceCode :
    ∃ X Y, (fenceCodeRun 16).core.order = X ++ 6 :: Y ∧ 4 ∈ X ∧ 5 ∈ X := by
  obtain ⟨-, hlsq, hfence, hstore, hrob, hrob'⟩ := fenceCode_flight.2.1
  obtain ⟨X, Y, hord, -, hload, hfences, -⟩ :=
    searches_in_order Env.fenceCode atStage_fenceCode (Frame.refl _) hlsq
  have h4 := hfences 3 hfence
  have h5 := (hload 4 (.guest 512) true hstore).1
  rw [hrob] at h4
  rw [hrob'] at h5
  exact ⟨X, Y, hord, h4, h5⟩

end
end X86Sim.Ooo
