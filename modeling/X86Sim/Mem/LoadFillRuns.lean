import Mathlib.Algebra.BigOperators.Fin
import Mathlib.Algebra.Order.BigOperators.Group.Finset
import Mathlib.Algebra.Order.Group.Multiset
import Mathlib.Tactic.Abel
import X86Sim.Mem.LoadFills

/-!
# Runs of the load fill request queue and the miss buffers

* `Maps`, `Ledger`, `Inv`: the bits of the miss buffers, the requests of the slots, and the two together.
* `inv_exec`: what every operation preserves, unless it annuls a slot that waits.
* `drains`: `toDo` falls with every cycle, until all that is pending is delivered.
* `fills_right_iff`: the runs in which nothing goes wrong.
-/

namespace X86Sim.LoadFills

variable {n m : ℕ}

/-! ### Bit maps against miss buffers -/

/-- A free slot is in no other phase. -/
theorem OnePhase.of_free {free waiting ready : Bool} (h : OnePhase free waiting ready) (hfree : free = true) :
    waiting = false ∧ ready = false := by
  unfold OnePhase at h
  grind

/-- A waiting slot is neither free nor ready. -/
theorem OnePhase.of_waiting {free waiting ready : Bool} (h : OnePhase free waiting ready) (hwait : waiting = true) :
    free = false ∧ ready = false := by
  unfold OnePhase at h
  grind

/-- A ready slot is neither free nor waiting. -/
theorem OnePhase.of_ready {free waiting ready : Bool} (h : OnePhase free waiting ready) (hready : ready = true) :
    free = false ∧ waiting = false := by
  unfold OnePhase at h
  grind

theorem lsb_some {k : ℕ} {bits : Fin k → Bool} {i : Fin k} (h : lsb bits = some i) : bits i = true :=
  List.find?_some h

theorem lsb_none {k : ℕ} {bits : Fin k → Bool} (h : lsb bits = none) (i : Fin k) : bits i = false := by
  simpa using List.find?_eq_none.1 h i (List.mem_finRange i)

/-- A miss buffer that is free has no bit set; one that is busy counts down. -/
structure EntryOk (free : Bool) (mb : MissEntry n) : Prop where
  idle : free = true → mb.state = .idle ∧ ∀ i, mb.lfrqmap i = false
  busy : free = false → mb.state ≠ .idle ∧ 0 < mb.cycles
  dcache : ∀ i, mb.lfrqmap i = true → mb.dcache = true

theorem EntryOk.reset : EntryOk true (MissEntry.reset : MissEntry n) :=
  ⟨fun _ => ⟨rfl, fun _ => rfl⟩, nofun, nofun⟩

structure Maps (mbuf : MissBuffer n m) : Prop where
  entry : ∀ j, EntryOk (mbuf.freemap j) (mbuf.missbufs j)
  one : ∀ i j j', (mbuf.missbufs j).lfrqmap i = true → (mbuf.missbufs j').lfrqmap i = true → j = j'

/-- A buffer that is not idle is not free. -/
theorem Maps.busy_of_state {mbuf : MissBuffer n m} (h : Maps mbuf) {j : Fin m} (hstate : (mbuf.missbufs j).state ≠ .idle) :
    mbuf.freemap j = false := by
  by_contra hfree
  exact hstate ((h.entry j).idle (by simpa using hfree)).1

/-- A buffer that a slot waits for is not free. -/
theorem Maps.busy_of_bit {mbuf : MissBuffer n m} (h : Maps mbuf) {j : Fin m} {i : Fin n}
    (hbit : (mbuf.missbufs j).lfrqmap i = true) : mbuf.freemap j = false := by
  by_contra hfree
  rw [((h.entry j).idle (by simpa using hfree)).2 i] at hbit
  cases hbit

/-- An entry may lose bits. -/
theorem Maps.set {mbuf mbuf' : MissBuffer n m} (h : Maps mbuf) (j : Fin m)
    (hok : EntryOk (mbuf'.freemap j) (mbuf'.missbufs j))
    (hsub : ∀ i, (mbuf'.missbufs j).lfrqmap i = true → (mbuf.missbufs j).lfrqmap i = true)
    (hother : ∀ k, k ≠ j → mbuf'.missbufs k = mbuf.missbufs k ∧ mbuf'.freemap k = mbuf.freemap k) : Maps mbuf' := by
  have hbit : ∀ k i, (mbuf'.missbufs k).lfrqmap i = true → (mbuf.missbufs k).lfrqmap i = true := by
    intro k i hk
    by_cases hkj : k = j
    · subst hkj
      exact hsub i hk
    · rwa [(hother k hkj).1] at hk
  constructor
  · intro k
    by_cases hkj : k = j
    · subst hkj
      exact hok
    · rw [(hother k hkj).1, (hother k hkj).2]
      exact h.entry k
  · intro i k k' hk hk'
    exact h.one i k k' (hbit k i hk) (hbit k' i hk')

namespace CacheHierarchy

/-- `initiate_miss` for a line changes no bit. -/
theorem initiateMissLine_cases (s : CacheHierarchy n m) (hmaps : Maps s.missbuf) (addr : W64) (hitInL2 L3hit icache : Bool)
    (rob : BitVec 16) (threadid : BitVec 8) :
    s.initiateMissLine addr hitInL2 L3hit icache rob threadid = (none, s) ∨
    ∃ j mbuf, s.initiateMissLine addr hitInL2 L3hit icache rob threadid = (some j, { s with missbuf := mbuf }) ∧
      Maps mbuf ∧ (∀ k i, (mbuf.missbufs k).lfrqmap i = (s.missbuf.missbufs k).lfrqmap i) ∧ mbuf.freemap j = false ∧
      (icache = false → (mbuf.missbufs j).dcache = true) := by
  cases hfind : s.find (lineOf addr) with
  | some idx =>
    -- the line is on its way already
    simp only [initiateMissLine, hfind]
    have hbusy : s.missbuf.freemap idx = false := by
      have hmatch := lsb_some hfind
      simpa using (Bool.and_eq_true_iff.1 hmatch).2
    have hidx := hmaps.entry idx
    refine .inr ⟨idx, _, rfl, ?_, ?_, hbusy, ?_⟩
    · refine hmaps.set idx ?_ ?_ fun k hk => ⟨Function.update_of_ne hk _ _, rfl⟩
      · simp only [setEntry, Function.update_self]
        refine ⟨hidx.idle, hidx.busy, fun i hi => ?_⟩
        have hset := hidx.dcache i hi
        simp [hset]
      · simp only [setEntry, Function.update_self]
        exact fun i hi => hi
    · intro k i
      by_cases hk : k = idx
      · subst hk
        simp [setEntry]
      · simp [setEntry, hk]
    · rintro rfl
      simp [setEntry]
  | none =>
    cases hfree : lsb s.missbuf.freemap with
    | none => exact .inl (by simp only [initiateMissLine, hfind, hfree])
    | some idx =>
      simp only [initiateMissLine, hfind, hfree]
      have hidx := hmaps.entry idx
      obtain ⟨hidle, hnone⟩ := hidx.idle (lsb_some hfree)
      have hstart : (entered hitInL2 L3hit).1 ≠ .idle ∧ 0 < (entered hitInL2 L3hit).2 := by
        cases hitInL2 <;> cases L3hit <;> decide
      refine .inr ⟨idx, _, rfl, ?_, ?_, Function.update_self .., ?_⟩
      · refine hmaps.set idx ?_ ?_ fun k hk => ⟨Function.update_of_ne hk _ _, Function.update_of_ne hk _ _⟩
        · simp only [setEntry, Function.update_self]
          exact ⟨nofun, fun _ => hstart, nofun⟩
        · simp only [setEntry, Function.update_self]
          exact nofun
      · intro k i
        by_cases hk : k = idx
        · subst hk
          simp [setEntry, hnone]
        · simp [setEntry, hk]
      · rintro rfl
        simp [setEntry]

end CacheHierarchy

/-! ### Slots against requests -/

/-- The count, and what became of each request. -/
structure Ledger (s : CacheHierarchy n m) : Prop where
  count : s.lfrq.count = s.occupied.card
  accounts : s.pending + ((s.delivered.map LoadFillReq.id : List ℕ) : Multiset ℕ) + (s.annulled : Multiset ℕ) =
    Multiset.range s.loads.length
  known : ∀ i, s.lfrq.freemap i = false →
    s.loads[(s.lfrq.reqs i).id]? = some ((s.lfrq.reqs i).lsi, (s.lfrq.reqs i).addr)
  origin : ∀ req ∈ s.delivered, s.loads[req.id]? = some (req.lsi, req.addr)

theorem mem_occupied (s : CacheHierarchy n m) (i : Fin n) : i ∈ s.occupied ↔ s.lfrq.freemap i = false := by
  simp [CacheHierarchy.occupied]

/-- A slot that is freed leaves the occupied ones. -/
theorem occupied_leave {s s' : CacheHierarchy n m} {i : Fin n}
    (hmap : s'.lfrq.freemap = Function.update s.lfrq.freemap i true) : s'.occupied = s.occupied.erase i := by
  ext k
  rw [Finset.mem_erase, mem_occupied, mem_occupied, hmap]
  by_cases hk : k = i
  · subst hk
    simp
  · simp [hk]

/-- And its loads leave the pending ones. -/
theorem pending_leave {s s' : CacheHierarchy n m} {i : Fin n} (hfree : s.lfrq.freemap i = false)
    (hmap : s'.lfrq.freemap = Function.update s.lfrq.freemap i true)
    (hreqs : ∀ k, k ≠ i → s'.lfrq.reqs k = s.lfrq.reqs k) : s.pending = (s.lfrq.reqs i).id ::ₘ s'.pending := by
  have hmem : i ∈ s.occupied.val := (mem_occupied s i).2 hfree
  unfold CacheHierarchy.pending
  rw [occupied_leave hmap, Finset.erase_val]
  conv_lhs => rw [← Multiset.cons_erase hmem, Multiset.map_cons]
  congr 1
  refine Multiset.map_congr rfl fun k hk => ?_
  rw [← Finset.erase_val, Finset.mem_val, Finset.mem_erase] at hk
  rw [hreqs k hk.1]

theorem card_leave {s s' : CacheHierarchy n m} {i : Fin n} (hfree : s.lfrq.freemap i = false)
    (hmap : s'.lfrq.freemap = Function.update s.lfrq.freemap i true) : s'.occupied.card + 1 = s.occupied.card := by
  rw [occupied_leave hmap]
  exact Finset.card_erase_add_one ((mem_occupied s i).2 hfree)

namespace Ledger

variable {s s' : CacheHierarchy n m}

/-- No slot comes or goes. -/
theorem same (h : Ledger s) (hmap : s'.lfrq.freemap = s.lfrq.freemap) (hcount : s'.lfrq.count = s.lfrq.count)
    (hreqs : ∀ i, s.lfrq.freemap i = false → s'.lfrq.reqs i = s.lfrq.reqs i) (hloads : s'.loads = s.loads)
    (hdelivered : s'.delivered = s.delivered) (hannulled : s'.annulled = s.annulled) : Ledger s' := by
  have hocc : s'.occupied = s.occupied := by
    unfold CacheHierarchy.occupied
    rw [hmap]
  have hpend : s'.pending = s.pending := by
    unfold CacheHierarchy.pending
    rw [hocc]
    refine Multiset.map_congr rfl fun i hi => ?_
    rw [hreqs i ((mem_occupied s i).1 hi)]
  refine ⟨by rw [hcount, hocc, h.count], by rw [hpend, hdelivered, hannulled, hloads, h.accounts], fun i hi => ?_, ?_⟩
  · rw [hmap] at hi
    rw [hreqs i hi, hloads, h.known i hi]
  · rw [hdelivered, hloads]
    exact h.origin

/-- A request leaves its slot: it is delivered or annulled. -/
theorem leave (h : Ledger s) {i : Fin n} (hfree : s.lfrq.freemap i = false)
    (hmap : s'.lfrq.freemap = Function.update s.lfrq.freemap i true) (hcount : s'.lfrq.count = s.lfrq.count - 1)
    (hreqs : ∀ k, k ≠ i → s'.lfrq.reqs k = s.lfrq.reqs k) (hloads : s'.loads = s.loads)
    (hout : (s'.delivered = s.delivered ++ [s.lfrq.reqs i] ∧ s'.annulled = s.annulled) ∨
      (s'.delivered = s.delivered ∧ s'.annulled = s.annulled ++ [(s.lfrq.reqs i).id])) : Ledger s' := by
  have hcard := card_leave hfree hmap
  have haccounts := h.accounts
  rw [pending_leave hfree hmap hreqs, ← Multiset.singleton_add] at haccounts
  have hmove : ∀ x p d a : Multiset ℕ, p + (d + x) + a = x + p + d + a ∧ p + d + (a + x) = x + p + d + a :=
    fun x p d a => ⟨by abel, by abel⟩
  refine ⟨?_, ?_, fun k hk => ?_, ?_⟩
  · rw [hcount, h.count]
    omega
  · rw [hloads, ← haccounts]
    obtain ⟨hd, ha⟩ | ⟨hd, ha⟩ := hout
    · rw [hd, ha, List.map_append, ← Multiset.coe_add, List.map_singleton, Multiset.coe_singleton]
      exact (hmove _ _ _ _).1
    · rw [hd, ha, ← Multiset.coe_add, Multiset.coe_singleton]
      exact (hmove _ _ _ _).2
  · have hki : k ≠ i := by
      rintro rfl
      simp [hmap] at hk
    rw [hmap, Function.update_of_ne hki] at hk
    rw [hreqs k hki, hloads, h.known k hk]
  · intro req hreq
    rw [hloads]
    obtain ⟨hd, -⟩ | ⟨hd, -⟩ := hout
    · rw [hd, List.mem_append, List.mem_singleton] at hreq
      obtain hold | rfl := hreq
      · exact h.origin req hold
      · exact h.known i hfree
    · rw [hd] at hreq
      exact h.origin req hreq

/-- A request takes a slot. -/
theorem enter (h : Ledger s) {i : Fin n} (hfree : s.lfrq.freemap i = true)
    (hmap : s'.lfrq.freemap = Function.update s.lfrq.freemap i false) (hcount : s'.lfrq.count = s.lfrq.count + 1)
    (hreqs : ∀ k, k ≠ i → s'.lfrq.reqs k = s.lfrq.reqs k) (hid : (s'.lfrq.reqs i).id = s.loads.length)
    (hloads : s'.loads = s.loads ++ [((s'.lfrq.reqs i).lsi, (s'.lfrq.reqs i).addr)]) (hdelivered : s'.delivered = s.delivered)
    (hannulled : s'.annulled = s.annulled) : Ledger s' := by
  -- seen from the new state, the slot is one that leaves
  have hback : s.lfrq.freemap = Function.update s'.lfrq.freemap i true := by
    rw [hmap, Function.update_idem, ← hfree, Function.update_eq_self]
  have htaken : s'.lfrq.freemap i = false := by rw [hmap, Function.update_self]
  have hcard := card_leave htaken hback
  have hgrow : ∀ (k : ℕ) (v : LoadStoreInfo × W64), s.loads[k]? = some v → s'.loads[k]? = some v := by
    intro k v hk
    rw [hloads]
    exact List.getElem?_append_left (List.getElem?_eq_some_iff.1 hk).1 ▸ hk
  refine ⟨?_, ?_, fun k hk => ?_, ?_⟩
  · rw [hcount, h.count]
    omega
  · rw [pending_leave htaken hback fun k hk => (hreqs k hk).symm, hdelivered, hannulled, hid, hloads, List.length_append,
      List.length_singleton, Multiset.range_succ, ← h.accounts, Multiset.cons_add, Multiset.cons_add]
  · by_cases hki : k = i
    · subst hki
      rw [hid, hloads]
      simp
    · rw [hmap, Function.update_of_ne hki] at hk
      rw [hreqs k hki]
      exact hgrow _ _ (h.known k hk)
  · rw [hdelivered]
    exact fun req hreq => hgrow _ _ (h.origin req hreq)

end Ledger

/-! ### What every operation preserves -/

structure Inv (s : CacheHierarchy n m) : Prop where
  maps : Maps s.missbuf
  phase : ∀ i, OnePhase (s.lfrq.freemap i) (s.lfrq.waiting i) (s.lfrq.ready i)
  bits : ∀ i, s.lfrq.waiting i = true ↔ ∃ j, (s.missbuf.missbufs j).lfrqmap i = true
  ledger : Ledger s

/-- A slot that does not wait has no bit in any buffer. -/
theorem Inv.no_bit {s : CacheHierarchy n m} (h : Inv s) {i : Fin n} (hwait : s.lfrq.waiting i = false) (j : Fin m) :
    (s.missbuf.missbufs j).lfrqmap i = false := by
  by_contra hset
  rw [(h.bits i).2 ⟨j, by simpa using hset⟩] at hwait
  cases hwait

namespace CacheHierarchy

variable {s : CacheHierarchy n m}

/-- A reset hierarchy: every slot and every buffer free. -/
theorem inv_reset : Inv (reset : CacheHierarchy n m) := by
  have hempty : (reset : CacheHierarchy n m).occupied = ∅ := by
    ext i
    simp [mem_occupied, reset]
  refine ⟨⟨fun _ => EntryOk.reset, nofun⟩, fun _ => .inl ⟨rfl, rfl, rfl⟩, fun i => ?_, ⟨?_, ?_, nofun, nofun⟩⟩
  · simp [reset, MissEntry.reset]
  · rw [hempty]
    rfl
  · unfold pending
    rw [hempty]
    rfl

/-- A miss takes a free buffer, or joins the one of its line. -/
theorem inv_initiateMissLine (h : Inv s) (addr : W64) (hitInL2 L3hit icache : Bool) (rob : BitVec 16) (threadid : BitVec 8) :
    Inv (s.initiateMissLine addr hitInL2 L3hit icache rob threadid).2 := by
  obtain hfull | ⟨j, mbuf, hline, hmaps, hbits, -, -⟩ :=
    s.initiateMissLine_cases h.maps addr hitInL2 L3hit icache rob threadid
  · rw [hfull]
    exact h
  · rw [hline]
    refine ⟨hmaps, h.phase, fun i => ?_, h.ledger.same rfl rfl (fun _ _ => rfl) rfl rfl rfl⟩
    simp only [hbits]
    exact h.bits i

/-- A slot is taken and one bit set, or nothing changes but a request in a free slot. -/
theorem inv_issueloadSlowpath (h : Inv s) (physaddr : W64) (lsi : LoadStoreInfo) (L2hit L3hit : Bool) :
    Inv (s.issueloadSlowpath physaddr lsi L2hit L3hit).2 := by
  unfold issueloadSlowpath initiateMiss add
  cases hslot : lsb s.lfrq.freemap with
  | none => exact h
  | some slot =>
    have hfree := lsb_some hslot
    have hclean := (h.phase slot).of_free hfree
    have hnone := h.no_bit hclean.1
    simp only [Option.map_some]
    obtain hfull | ⟨j, mbuf, hline, hmaps, hbits, hbusy, hdcache⟩ := initiateMissLine_cases
      { s with
        lfrq := ⟨Function.update s.lfrq.freemap slot false, Function.update s.lfrq.waiting slot true, s.lfrq.ready,
          Function.update s.lfrq.reqs slot ⟨physaddr, lsi, -1, s.loads.length⟩, s.lfrq.count + 1⟩ }
      h.maps physaddr L2hit L3hit false lsi.rob lsi.threadid
    · -- no miss buffer is free
      rw [hfull]
      simp only [free, Function.update_idem]
      refine ⟨h.maps, fun i => ?_, fun i => ?_, h.ledger.same ?_ ?_ (fun i hi => ?_) rfl rfl rfl⟩
      · simp only [← hfree, ← hclean.1, Function.update_eq_self]
        exact h.phase i
      · simp only [← hclean.1, Function.update_eq_self]
        exact h.bits i
      · simp only [← hfree, Function.update_eq_self]
      · exact add_sub_cancel_right _ _
      · refine Function.update_of_ne ?_ _ _
        rintro rfl
        rw [hfree] at hi
        cases hi
    · rw [hline]
      -- the one bit that is new
      have hbit : ∀ k i, (Function.update mbuf.missbufs j { mbuf.missbufs j with
          lfrqmap := Function.update (mbuf.missbufs j).lfrqmap slot true } k).lfrqmap i = true ↔
          (s.missbuf.missbufs k).lfrqmap i = true ∨ (k = j ∧ i = slot) := by
        intro k i
        by_cases hk : k = j
        · subst hk
          by_cases hi : i = slot
          · subst hi
            simp
          · simp [hi, hbits]
        · simp [hk, hbits]
      refine ⟨⟨fun k => ?_, fun i k k' hk hk' => ?_⟩, fun i => ?_, fun i => ?_, ?_⟩
      · by_cases hk : k = j
        · subst hk
          simp only [setEntry, Function.update_self]
          refine ⟨fun hidle => ?_, (hmaps.entry k).busy, fun _ _ => hdcache rfl⟩
          rw [hbusy] at hidle
          cases hidle
        · simp only [setEntry, Function.update_of_ne hk]
          exact hmaps.entry k
      · obtain hold | ⟨rfl, rfl⟩ := (hbit k i).1 hk <;> obtain hold' | ⟨hkj, hi⟩ := (hbit k' i).1 hk'
        · exact h.maps.one i k k' hold hold'
        · rw [hi, hnone] at hold
          cases hold
        · rw [hnone] at hold'
          cases hold'
        · exact hkj.symm
      · by_cases hi : i = slot
        · subst hi
          simpa using .inr (.inl ⟨rfl, rfl, hclean.2⟩)
        · simp only [Function.update_of_ne hi]
          exact h.phase i
      · by_cases hi : i = slot
        · subst hi
          simp only [Function.update_self, true_iff]
          exact ⟨j, (hbit j i).2 (.inr ⟨rfl, rfl⟩)⟩
        · simp only [Function.update_of_ne hi]
          rw [h.bits i]
          refine exists_congr fun k => ?_
          rw [setEntry, hbit k i]
          simp [hi]
      · refine h.ledger.enter hfree rfl rfl (fun k hk => ?_) ?_ ?_ rfl rfl
        · simp only [Function.update_of_ne hk]
        · simp only [Function.update_self]
        · simp only [Function.update_self]

/-- The delivery of a ready slot frees it. -/
theorem inv_deliver (h : Inv s) : Inv s.deliver := by
  unfold deliver
  cases hready : lsb s.lfrq.ready with
  | none => exact h
  | some idx =>
    obtain ⟨hfree, hwait⟩ := (h.phase idx).of_ready (lsb_some hready)
    refine ⟨h.maps, fun i => ?_, h.bits, h.ledger.leave hfree rfl rfl (fun _ _ => rfl) rfl (.inl ⟨rfl, rfl⟩)⟩
    by_cases hi : i = idx
    · subst hi
      simpa [leaveReady] using .inl ⟨rfl, hwait, rfl⟩
    · simp only [leaveReady, Function.update_of_ne hi]
      exact h.phase i

/-- An annulment in the queue leaves the buffers their bits. -/
theorem maps_annulLfrq (h : Maps s.missbuf) (slot : Fin n) : Maps (s.annulLfrq slot) := by
  have hsub : ∀ j i, Function.update (s.missbuf.missbufs j).lfrqmap slot false i = true →
      (s.missbuf.missbufs j).lfrqmap i = true := by
    intro j i hi
    by_cases his : i = slot
    · subst his
      simp at hi
    · rwa [Function.update_of_ne his] at hi
  refine ⟨fun j => ⟨fun hfree => ⟨((h.entry j).idle hfree).1, fun i => ?_⟩, (h.entry j).busy, fun i hi => ?_⟩,
    fun i j j' hj hj' => h.one i j j' (hsub j i hj) (hsub j' i hj')⟩
  · by_contra hset
    have hold := hsub j i (by simpa [annulLfrq] using hset)
    rw [((h.entry j).idle hfree).2 i] at hold
    cases hold
  · exact (h.entry j).dcache i (hsub j i hi)

/-- Also in a state in which the slot waits. -/
theorem ledger_annulSlot (h : Ledger s) {slot : Fin n} (hfree : s.lfrq.freemap slot = false) : Ledger (s.annulSlot slot) :=
  h.leave hfree rfl rfl (fun _ hk => Function.update_of_ne hk _ _) rfl (.inr ⟨rfl, rfl⟩)

/-- The annulment of a slot that does not wait. -/
theorem inv_annulSlot (h : Inv s) {slot : Fin n} (hfree : s.lfrq.freemap slot = false)
    (hwait : s.lfrq.waiting slot = false) : Inv (s.annulSlot slot) := by
  refine ⟨maps_annulLfrq h.maps slot, fun i => ?_, fun i => ?_, ledger_annulSlot h.ledger hfree⟩
  · by_cases hi : i = slot
    · subst hi
      simpa [annulSlot, leaveReady] using .inl ⟨rfl, hwait, rfl⟩
    · simp only [annulSlot, leaveReady, Function.update_of_ne hi]
      exact h.phase i
  · refine (h.bits i).trans (exists_congr fun j => ?_)
    by_cases hi : i = slot
    · subst hi
      simp [annulSlot, annulLfrq, h.no_bit hwait j]
    · simp [annulSlot, annulLfrq, hi]

/-! ### The clock of the miss buffers -/

/-- A miss buffer changes but for its bits. -/
theorem inv_setEntry (h : Inv s) (j : Fin m) {mb : MissEntry n} (hok : EntryOk (s.missbuf.freemap j) mb)
    (hmap : mb.lfrqmap = (s.missbuf.missbufs j).lfrqmap) :
    Inv { s with missbuf := { s.missbuf with missbufs := s.setEntry j mb } } := by
  refine ⟨h.maps.set j ?_ ?_ fun k hk => ⟨Function.update_of_ne hk _ _, rfl⟩, h.phase, fun i => ?_,
    h.ledger.same rfl rfl (fun _ _ => rfl) rfl rfl rfl⟩
  · simpa only [setEntry, Function.update_self] using hok
  · simp only [setEntry, Function.update_self, hmap]
    exact fun _ hi => hi
  · refine (h.bits i).trans (exists_congr fun k => ?_)
    by_cases hk : k = j
    · subst hk
      simp [setEntry, hmap]
    · simp [setEntry, hk]

/-- The line arrives: the slots with a bit become ready, and the miss buffer is free. -/
theorem inv_arrive (h : Inv s) (j : Fin m) :
    Inv { s.wakeup (s.missbuf.missbufs j).lfrqmap with
      missbuf := ⟨s.setEntry j .reset, Function.update s.missbuf.freemap j true, s.missbuf.count - 1⟩ } := by
  refine ⟨h.maps.set j ?_ ?_ fun k hk => ⟨Function.update_of_ne hk _ _, Function.update_of_ne hk _ _⟩, fun i => ?_,
    fun i => ?_, h.ledger.same rfl rfl (fun _ _ => rfl) rfl rfl rfl⟩
  · simpa only [setEntry, Function.update_self] using EntryOk.reset
  · simp only [setEntry, Function.update_self, MissEntry.reset]
    exact nofun
  · have hphase := h.phase i
    have hbits := (h.bits i).2
    cases hbit : (s.missbuf.missbufs j).lfrqmap i with
    | false => simpa [wakeup, hbit] using hphase
    | true =>
      have hfree := (hphase.of_waiting (hbits ⟨j, hbit⟩)).1
      exact .inr (.inr ⟨hfree, by simp [wakeup, hbit], by simp [wakeup, hbit]⟩)
  · have hstep : (s.lfrq.waiting i && !(s.missbuf.missbufs j).lfrqmap i) = true ↔
        ∃ k, k ≠ j ∧ (s.missbuf.missbufs k).lfrqmap i = true := by
      rw [Bool.and_eq_true, h.bits i, Bool.not_eq_true']
      constructor
      · rintro ⟨⟨k, hk⟩, hj⟩
        refine ⟨k, ?_, hk⟩
        rintro rfl
        rw [hk] at hj
        cases hj
      · rintro ⟨k, hkj, hk⟩
        refine ⟨⟨k, hk⟩, ?_⟩
        -- no other miss buffer has the bit
        by_contra hj
        exact hkj (h.maps.one i k j hk (by simpa using hj))
    refine hstep.trans (exists_congr fun k => ?_)
    by_cases hk : k = j
    · subst hk
      simp [setEntry, MissEntry.reset]
    · simp [setEntry, hk]

/-- The clock of one miss buffer: it counts down, moves on, or wakes its slots. -/
theorem inv_entryClock (h : Inv s) (j : Fin m) : Inv (s.entryClock j) := by
  have hentry := h.maps.entry j
  cases hstate : (s.missbuf.missbufs j).state with
  | idle =>
    simp only [entryClock, hstate]
    exact h
  | deliverToL3 =>
    have hfree := h.maps.busy_of_state (by rw [hstate]; nofun)
    simp only [entryClock, hstate]
    split
    · exact inv_setEntry h j ⟨by rw [hfree]; nofun, fun _ => ⟨nofun, (by decide : 0 < L3_LATENCY)⟩, hentry.dcache⟩ rfl
    · exact inv_setEntry h j ⟨by rw [hfree]; nofun, fun _ => ⟨nofun, by simp only; omega⟩, hentry.dcache⟩ rfl
  | deliverToL2 =>
    have hfree := h.maps.busy_of_state (by rw [hstate]; nofun)
    simp only [entryClock, hstate]
    split
    · exact inv_setEntry h j ⟨by rw [hfree]; nofun, fun _ => ⟨nofun, (by decide : 0 < L2_LATENCY)⟩, hentry.dcache⟩ rfl
    · exact inv_setEntry h j ⟨by rw [hfree]; nofun, fun _ => ⟨nofun, by simp only; omega⟩, hentry.dcache⟩ rfl
  | deliverToL1 =>
    have hfree := h.maps.busy_of_state (by rw [hstate]; nofun)
    simp only [entryClock, hstate]
    split
    · cases hdcache : (s.missbuf.missbufs j).dcache with
      | true => exact inv_arrive h j
      | false =>
        -- a line for the icache alone: no slot waits for it
        have hnone : (s.missbuf.missbufs j).lfrqmap = fun _ => false := by
          funext i
          by_contra hset
          have hd := hentry.dcache i (by simpa using hset)
          rw [hdcache] at hd
          cases hd
        have harrive := inv_arrive h j
        rw [hnone] at harrive
        simpa [wakeup, setEntry] using harrive
    · exact inv_setEntry h j ⟨by rw [hfree]; nofun, fun _ => ⟨nofun, by simp only; omega⟩, hentry.dcache⟩ rfl

theorem inv_entries (js : List (Fin m)) (h : Inv s) : Inv (js.foldl entryClock s) := by
  induction js generalizing s with
  | nil => exact h
  | cons j js ih => exact ih (inv_entryClock h j)

theorem inv_missbufClock (h : Inv s) : Inv s.missbufClock := by
  unfold missbufClock
  split
  · exact h
  · exact inv_entries _ h

/-- A cycle: two deliveries, then the miss buffers. -/
theorem inv_clock (h : Inv s) : Inv s.clock := inv_missbufClock (inv_deliver (inv_deliver h))

/-! ### Pipeline flushes -/

/-- The loop of a restart frees every slot, with a turn for each that is occupied. -/
theorem restartLoop_spec (turns : ℕ) : ∀ {s : CacheHierarchy n m}, Maps s.missbuf → Ledger s →
    s.occupied.card ≤ turns →
    Maps (restartLoop turns s).missbuf ∧ Ledger (restartLoop turns s) ∧
      ∀ i, (restartLoop turns s).lfrq.freemap i = true := by
  induction turns with
  | zero =>
    intro s hmaps hledger hcard
    refine ⟨hmaps, hledger, fun i => ?_⟩
    by_contra hi
    have hmem := (mem_occupied s i).2 (by simpa [restartLoop] using hi)
    have hpos := Finset.card_pos.2 ⟨i, hmem⟩
    omega
  | succ turns ih =>
    intro s hmaps hledger hcard
    unfold restartLoop
    cases hslot : lsb fun i => !s.lfrq.freemap i with
    | none => exact ⟨hmaps, hledger, fun i => by simpa using lsb_none hslot i⟩
    | some slot =>
      -- a waiting bit may stay behind; the reset after the loop clears it
      have hfree : s.lfrq.freemap slot = false := by simpa using lsb_some hslot
      have hleft : (s.annulSlot slot).occupied.card + 1 = s.occupied.card := card_leave hfree rfl
      exact ih (maps_annulLfrq hmaps slot) (ledger_annulSlot hledger hfree) (by omega)

theorem inv_complete (h : Inv s) : Inv s.complete := by
  have hcard : s.occupied.card ≤ n := by simpa using Finset.card_le_univ s.occupied
  obtain ⟨hmaps, hledger, hall⟩ := restartLoop_spec n h.maps h.ledger hcard
  have hzero : (restartLoop n s).lfrq.count = 0 := by
    rw [hledger.count, Nat.cast_eq_zero, Finset.card_eq_zero]
    ext i
    rw [mem_occupied, hall i]
    simp
  have hmap : (fun _ => true) = (restartLoop n s).lfrq.freemap := funext fun i => (hall i).symm
  have hfree : ∀ {i : Fin n}, ¬ (restartLoop n s).lfrq.freemap i = false := by
    intro i hi
    rw [hall i] at hi
    cases hi
  unfold complete missbufRestart lfrqRestart
  split
  · -- no miss buffer is busy, so no bit is left to clear
    rename_i hidle
    refine ⟨hmaps, fun _ => .inl ⟨rfl, rfl, rfl⟩, fun i => ?_,
      hledger.same hmap hzero.symm (fun _ hi => absurd hi hfree) rfl rfl rfl⟩
    have hnone : ∀ j, ((restartLoop n s).missbuf.missbufs j).lfrqmap i = false :=
      fun j => ((hmaps.entry j).idle (hidle j)).2 i
    simp [hnone]
  · refine ⟨⟨fun j => ?_, nofun⟩, fun _ => .inl ⟨rfl, rfl, rfl⟩, fun i => ?_,
      hledger.same hmap hzero.symm (fun _ hi => absurd hi hfree) rfl rfl rfl⟩
    · exact ⟨fun hidle => ⟨((hmaps.entry j).idle hidle).1, fun _ => rfl⟩, (hmaps.entry j).busy, nofun⟩
    · simp

/-- While the slots of a thread are cleared, their bits stay. -/
structure Clearing (threadid : BitVec 8) (s : CacheHierarchy n m) : Prop where
  maps : Maps s.missbuf
  phase : ∀ i, OnePhase (s.lfrq.freemap i) (s.lfrq.waiting i) (s.lfrq.ready i)
  has : ∀ i, s.lfrq.waiting i = true → ∃ j, (s.missbuf.missbufs j).lfrqmap i = true
  waits : ∀ i j, (s.missbuf.missbufs j).lfrqmap i = true →
    s.lfrq.waiting i = true ∨ (s.lfrq.reqs i).lsi.threadid = threadid
  ledger : Ledger s

/-- Clearing a slot of the thread leaves the slots of the others. -/
theorem clearing_resetSlot {threadid : BitVec 8} (h : Clearing threadid s) (i : Fin n) :
    Clearing threadid (resetSlot threadid s i) ∧
      (∀ k, (resetSlot threadid s i).lfrq.freemap k = false → s.lfrq.freemap k = false) ∧
      ((resetSlot threadid s i).lfrq.freemap i = false → (s.lfrq.reqs i).lsi.threadid ≠ threadid) ∧
      (resetSlot threadid s i).lfrq.reqs = s.lfrq.reqs := by
  unfold resetSlot
  split
  · rename_i hmatch
    obtain ⟨hfree, hthread⟩ : s.lfrq.freemap i = false ∧ (s.lfrq.reqs i).lsi.threadid = threadid := by simpa using hmatch
    refine ⟨⟨h.maps, fun k => ?_, fun k hk => ?_, fun k j hbit => ?_,
      h.ledger.leave hfree rfl rfl (fun _ _ => rfl) rfl (.inr ⟨rfl, rfl⟩)⟩, fun k hk => ?_, fun hi => ?_, rfl⟩
    · by_cases hki : k = i
      · subst hki
        simpa [leaveReady] using .inl ⟨rfl, rfl, rfl⟩
      · simp only [leaveReady, Function.update_of_ne hki]
        exact h.phase k
    · by_cases hki : k = i
      · subst hki
        simp at hk
      · simp only [Function.update_of_ne hki] at hk
        exact h.has k hk
    · by_cases hki : k = i
      · subst hki
        exact .inr hthread
      · simp only [Function.update_of_ne hki]
        exact h.waits k j hbit
    · by_cases hki : k = i
      · subst hki
        exact hfree
      · simpa [leaveReady, hki] using hk
    · simp [leaveReady] at hi
  · rename_i hmatch
    exact ⟨h, fun _ hk => hk, fun hi hthread => hmatch (by simp [hi, hthread]), rfl⟩

theorem clearing_slots {threadid : BitVec 8} (slots : List (Fin n)) : ∀ {s : CacheHierarchy n m}, Clearing threadid s →
    Clearing threadid (slots.foldl (resetSlot threadid) s) ∧
      (∀ k, (slots.foldl (resetSlot threadid) s).lfrq.freemap k = false → s.lfrq.freemap k = false) ∧
      (∀ i ∈ slots, (slots.foldl (resetSlot threadid) s).lfrq.freemap i = false →
        (s.lfrq.reqs i).lsi.threadid ≠ threadid) ∧
      (slots.foldl (resetSlot threadid) s).lfrq.reqs = s.lfrq.reqs := by
  induction slots with
  | nil => exact fun h => ⟨h, fun _ hk => hk, nofun, rfl⟩
  | cons i slots ih =>
    intro s h
    obtain ⟨h₁, hkeep₁, hdone₁, hreqs₁⟩ := clearing_resetSlot h i
    obtain ⟨h₂, hkeep₂, hdone₂, hreqs₂⟩ := ih h₁
    refine ⟨h₂, fun k hk => hkeep₁ k (hkeep₂ k hk), fun k hk hfree => ?_, hreqs₂.trans hreqs₁⟩
    obtain rfl | hk := List.mem_cons.1 hk
    · exact hdone₁ (hkeep₂ k hfree)
    · have hthread := hdone₂ k hk hfree
      rwa [hreqs₁] at hthread

/-- A miss buffer loses the bits of the slots of the thread, and is freed when they were all it had. -/
theorem resetEntry_spec (threadid : BitVec 8) (s : CacheHierarchy n m) (hmaps : Maps s.missbuf) (j : Fin m) :
    ∃ mbuf, resetEntry threadid s j = { s with missbuf := mbuf } ∧ Maps mbuf ∧
      (∀ k i, (mbuf.missbufs k).lfrqmap i = true → (s.missbuf.missbufs k).lfrqmap i = true) ∧
      (∀ k i, (s.lfrq.reqs i).lsi.threadid ≠ threadid →
        (s.missbuf.missbufs k).lfrqmap i = true → (mbuf.missbufs k).lfrqmap i = true) ∧
      ∀ i, (mbuf.missbufs j).lfrqmap i = true → (s.lfrq.reqs i).lsi.threadid ≠ threadid := by
  have hentry := hmaps.entry j
  unfold resetEntry
  cases hfree : s.missbuf.freemap j with
  | true =>
    refine ⟨s.missbuf, rfl, hmaps, fun _ _ hi => hi, fun _ _ _ hi => hi, fun i hi => ?_⟩
    rw [(hentry.idle hfree).2 i] at hi
    cases hi
  | false =>
    simp only [Bool.false_eq_true, if_false]
    split
    · -- the entry was of this thread alone
      rename_i hempty
      refine ⟨_, rfl, hmaps.set j ?_ ?_ fun k hk => ⟨Function.update_of_ne hk _ _, Function.update_of_ne hk _ _⟩,
        fun k i hi => ?_, fun k i hthread hi => ?_, fun i hi => ?_⟩
      · simpa only [setEntry, Function.update_self] using EntryOk.reset
      · simp only [setEntry, Function.update_self, MissEntry.reset]
        exact nofun
      · by_cases hk : k = j
        · subst hk
          simp [setEntry, MissEntry.reset] at hi
        · simpa [setEntry, hk] using hi
      · by_cases hk : k = j
        · subst hk
          have hlost := hempty.1 i
          simp [hi, hthread] at hlost
        · simpa [setEntry, hk] using hi
      · simp [setEntry, MissEntry.reset] at hi
    · refine ⟨_, rfl, hmaps.set j ?_ ?_ fun k hk => ⟨Function.update_of_ne hk _ _, rfl⟩, fun k i hi => ?_,
        fun k i hthread hi => ?_, fun i hi => ?_⟩
      · simp only [setEntry, Function.update_self, hfree]
        exact ⟨nofun, fun _ => hentry.busy hfree, fun i hi => hentry.dcache i (Bool.and_eq_true_iff.1 hi).1⟩
      · simp only [setEntry, Function.update_self]
        exact fun i hi => (Bool.and_eq_true_iff.1 hi).1
      · by_cases hk : k = j
        · subst hk
          simp only [setEntry, Function.update_self] at hi
          exact (Bool.and_eq_true_iff.1 hi).1
        · simpa [setEntry, hk] using hi
      · by_cases hk : k = j
        · subst hk
          simp [setEntry, hi, hthread]
        · simpa [setEntry, hk] using hi
      · simp only [setEntry, Function.update_self] at hi
        simpa using (Bool.and_eq_true_iff.1 hi).2

theorem resetEntries_spec (threadid : BitVec 8) (js : List (Fin m)) : ∀ s : CacheHierarchy n m, Maps s.missbuf →
    ∃ mbuf, js.foldl (resetEntry threadid) s = { s with missbuf := mbuf } ∧ Maps mbuf ∧
      (∀ k i, (mbuf.missbufs k).lfrqmap i = true → (s.missbuf.missbufs k).lfrqmap i = true) ∧
      (∀ k i, (s.lfrq.reqs i).lsi.threadid ≠ threadid →
        (s.missbuf.missbufs k).lfrqmap i = true → (mbuf.missbufs k).lfrqmap i = true) ∧
      ∀ j ∈ js, ∀ i, (mbuf.missbufs j).lfrqmap i = true → (s.lfrq.reqs i).lsi.threadid ≠ threadid := by
  induction js with
  | nil => exact fun s hmaps => ⟨s.missbuf, rfl, hmaps, fun _ _ hi => hi, fun _ _ _ hi => hi, nofun⟩
  | cons j js ih =>
    intro s hmaps
    obtain ⟨mbuf₁, hstep, hmaps₁, hsub₁, hkeep₁, hdone₁⟩ := resetEntry_spec threadid s hmaps j
    obtain ⟨mbuf₂, hrest, hmaps₂, hsub₂, hkeep₂, hdone₂⟩ := ih { s with missbuf := mbuf₁ } hmaps₁
    refine ⟨mbuf₂, by rw [List.foldl_cons, hstep, hrest], hmaps₂, fun k i hi => hsub₁ k i (hsub₂ k i hi),
      fun k i hthread hi => hkeep₂ k i hthread (hkeep₁ k i hthread hi), fun k hk i hi => ?_⟩
    obtain rfl | hk := List.mem_cons.1 hk
    · exact hdone₁ i (hsub₂ k i hi)
    · exact hdone₂ k hk i hi

/-- A restart of one thread drops its slots and their bits, and leaves those of the others. -/
theorem inv_completeThread (h : Inv s) (threadid : BitVec 8) : Inv (s.completeThread threadid) := by
  have hclearing : Clearing threadid s :=
    ⟨h.maps, h.phase, fun i => (h.bits i).1, fun i j hbit => .inl ((h.bits i).2 ⟨j, hbit⟩), h.ledger⟩
  obtain ⟨hclear, -, hdone, hreqs⟩ := clearing_slots (List.finRange n) hclearing
  unfold completeThread
  generalize (List.finRange n).foldl (resetSlot threadid) s = s₁ at hclear hdone hreqs
  obtain ⟨mbuf, hentries, hmaps, hsub, hkeep, hgone⟩ := resetEntries_spec threadid (List.finRange m) s₁ hclear.maps
  rw [hentries]
  refine ⟨hmaps, hclear.phase, fun i => ⟨fun hwait => ?_, ?_⟩, hclear.ledger.same rfl rfl (fun _ _ => rfl) rfl rfl rfl⟩
  · -- what waits is not of the thread
    have hfree := ((hclear.phase i).of_waiting hwait).1
    have hthread := hdone i (List.mem_finRange i) hfree
    rw [← hreqs] at hthread
    obtain ⟨j, hbit⟩ := hclear.has i hwait
    exact ⟨j, hkeep j i hthread hbit⟩
  · -- a bit that is left is not of the thread either
    rintro ⟨j, hbit⟩
    exact (hclear.waits i j (hsub j i hbit)).resolve_right (hgone j (List.mem_finRange j) i hbit)

/-- Every operation but the annulment of a waiting slot keeps the invariant. -/
theorem inv_exec (h : Inv s) {op : FillOp n}
    (hfine : ∀ slot, op = .annul slot → s.lfrq.freemap slot = false → s.lfrq.waiting slot = false)
    {s' : CacheHierarchy n m} (hs : s.exec op = some s') : Inv s' := by
  cases op with
  | issueload physaddr lsi L2hit L3hit =>
    obtain rfl := Option.some.inj hs
    exact inv_issueloadSlowpath h physaddr lsi L2hit L3hit
  | icacheMiss addr inL2 inL3 rob threadid =>
    obtain rfl := Option.some.inj hs
    exact inv_initiateMissLine h _ inL2 inL3 true rob threadid
  | prefetch addr inL1 inL2 inL3 =>
    obtain rfl := Option.some.inj hs
    unfold initiatePrefetch
    split
    · exact h
    · exact inv_initiateMissLine h _ inL2 inL3 false _ _
  | commitstore addr dropped fullL1 fullL2 inL3 threadid =>
    obtain rfl := Option.some.inj hs
    unfold commitstore
    split
    · exact h
    · split
      · exact h
      · exact inv_initiateMissLine h _ fullL2 inL3 false _ _
  | annul slot =>
    cases hfree : s.lfrq.freemap slot with
    | true =>
      simp only [exec, hfree] at hs
      cases hs
    | false =>
      simp only [exec, hfree] at hs
      obtain rfl := Option.some.inj hs
      exact inv_annulSlot h hfree (hfine slot rfl hfree)
  | clock =>
    obtain rfl := Option.some.inj hs
    exact inv_clock h
  | complete =>
    obtain rfl := Option.some.inj hs
    exact inv_complete h
  | completeThread threadid =>
    obtain rfl := Option.some.inj hs
    exact inv_completeThread h threadid

/-! ### The clock delivers -/

/-- The cycles until a line arrives. -/
def remaining (mb : MissEntry n) : ℕ :=
  match mb.state with
  | .idle => 0
  | .deliverToL1 => mb.cycles
  | .deliverToL2 => mb.cycles + L2_LATENCY
  | .deliverToL3 => mb.cycles + L3_LATENCY + L2_LATENCY

/-- It falls with every cycle in which a slot is not free. -/
def toDo (s : CacheHierarchy n m) : ℕ := (∑ j, remaining (s.missbuf.missbufs j)) + s.occupied.card

/-- The clock of a buffer leaves the others. -/
theorem entryClock_other (s : CacheHierarchy n m) {j k : Fin m} (hk : k ≠ j) :
    (s.entryClock j).missbuf.missbufs k = s.missbuf.missbufs k := by
  cases hstate : (s.missbuf.missbufs j).state with
  | idle => simp only [entryClock, hstate]
  | deliverToL3 | deliverToL2 =>
    simp only [entryClock, hstate]
    split
    · exact Function.update_of_ne hk _ _
    · exact Function.update_of_ne hk _ _
  | deliverToL1 =>
    simp only [entryClock, hstate]
    split
    · cases (s.missbuf.missbufs j).dcache
      · exact Function.update_of_ne hk _ _
      · exact Function.update_of_ne hk _ _
    · exact Function.update_of_ne hk _ _

theorem entryClock_freemap (s : CacheHierarchy n m) (j : Fin m) : (s.entryClock j).lfrq.freemap = s.lfrq.freemap := by
  cases hstate : (s.missbuf.missbufs j).state with
  | idle => simp only [entryClock, hstate]
  | deliverToL3 | deliverToL2 =>
    simp only [entryClock, hstate]
    split <;> rfl
  | deliverToL1 =>
    simp only [entryClock, hstate]
    split
    · cases (s.missbuf.missbufs j).dcache <;> rfl
    · rfl

/-- A busy buffer comes closer to its end. -/
theorem remaining_entryClock (h : Maps s.missbuf) {j : Fin m} (hbusy : (s.missbuf.missbufs j).state ≠ .idle) :
    remaining ((s.entryClock j).missbuf.missbufs j) < remaining (s.missbuf.missbufs j) := by
  have hcycles := ((h.entry j).busy (h.busy_of_state hbusy)).2
  cases hstate : (s.missbuf.missbufs j).state with
  | idle => exact absurd hstate hbusy
  | deliverToL3 =>
    simp only [entryClock, hstate]
    split
    · simp only [setEntry, Function.update_self, remaining, hstate]
      omega
    · simp only [setEntry, Function.update_self, remaining, hstate]
      omega
  | deliverToL2 =>
    simp only [entryClock, hstate]
    split
    · simp only [setEntry, Function.update_self, remaining, hstate]
      omega
    · simp only [setEntry, Function.update_self, remaining, hstate]
      omega
  | deliverToL1 =>
    simp only [entryClock, hstate]
    split
    · simp only [setEntry, Function.update_self, remaining, hstate, MissEntry.reset]
      exact hcycles
    · simp only [setEntry, Function.update_self, remaining, hstate]
      omega

theorem remaining_entryClock_le (h : Maps s.missbuf) (j k : Fin m) :
    remaining ((s.entryClock j).missbuf.missbufs k) ≤ remaining (s.missbuf.missbufs k) := by
  by_cases hk : k = j
  · subst hk
    by_cases hidle : (s.missbuf.missbufs k).state = .idle
    · simp only [entryClock, hidle]
      exact le_refl _
    · exact (remaining_entryClock h hidle).le
  · rw [entryClock_other s hk]

theorem remaining_entries (js : List (Fin m)) : ∀ {s : CacheHierarchy n m}, Inv s →
    (js.foldl entryClock s).lfrq.freemap = s.lfrq.freemap ∧
    (∀ k, remaining ((js.foldl entryClock s).missbuf.missbufs k) ≤ remaining (s.missbuf.missbufs k)) ∧
    ∀ k ∈ js, (s.missbuf.missbufs k).state ≠ .idle →
      remaining ((js.foldl entryClock s).missbuf.missbufs k) < remaining (s.missbuf.missbufs k) := by
  induction js with
  | nil => exact fun _ => ⟨rfl, fun _ => le_refl _, nofun⟩
  | cons j js ih =>
    intro s h
    obtain ⟨hfree, hle, hlt⟩ := ih (inv_entryClock h j)
    refine ⟨hfree.trans (entryClock_freemap s j), fun k => (hle k).trans (remaining_entryClock_le h.maps j k),
      fun k hk hbusy => ?_⟩
    by_cases hkj : k = j
    · subst hkj
      exact (hle k).trans_lt (remaining_entryClock h.maps hbusy)
    · have hrest := hlt k ((List.mem_cons.1 hk).resolve_left hkj)
      rw [entryClock_other s hkj] at hrest
      exact hrest hbusy

theorem occupied_congr {s s' : CacheHierarchy n m} (hmap : s'.lfrq.freemap = s.lfrq.freemap) : s'.occupied = s.occupied := by
  unfold occupied
  rw [hmap]

/-- The clock of the buffers adds nothing to do. -/
theorem toDo_missbufClock_le (h : Inv s) : s.missbufClock.toDo ≤ s.toDo := by
  unfold missbufClock
  split
  · exact le_refl _
  · obtain ⟨hfree, hle, -⟩ := remaining_entries (List.finRange m) h
    unfold toDo
    rw [occupied_congr hfree]
    exact Nat.add_le_add_right (Finset.sum_le_sum fun k _ => hle k) _

theorem toDo_missbufClock_lt (h : Inv s) {j : Fin m} (hbusy : s.missbuf.freemap j = false) :
    s.missbufClock.toDo < s.toDo := by
  unfold missbufClock
  split
  · rename_i hall
    rw [hall j] at hbusy
    cases hbusy
  · obtain ⟨hfree, hle, hlt⟩ := remaining_entries (List.finRange m) h
    unfold toDo
    rw [occupied_congr hfree]
    refine Nat.add_lt_add_right (Finset.sum_lt_sum (fun k _ => hle k) ⟨j, Finset.mem_univ j, ?_⟩) _
    exact hlt j (List.mem_finRange j) ((h.maps.entry j).busy hbusy).1

theorem deliver_missbuf (s : CacheHierarchy n m) : s.deliver.missbuf = s.missbuf := by
  unfold deliver
  split <;> rfl

/-- A delivery takes one thing off. -/
theorem toDo_deliver_lt (h : Inv s) {i : Fin n} (hready : s.lfrq.ready i = true) : s.deliver.toDo < s.toDo := by
  unfold deliver
  cases hslot : lsb s.lfrq.ready with
  | none =>
    rw [lsb_none hslot i] at hready
    cases hready
  | some idx =>
    have hfree := ((h.phase idx).of_ready (lsb_some hslot)).1
    have hleft : ({ s with lfrq := s.leaveReady idx, delivered := s.delivered ++ [s.lfrq.reqs idx] } :
        CacheHierarchy n m).occupied.card + 1 = s.occupied.card := card_leave hfree rfl
    simp only [toDo]
    omega

theorem toDo_deliver_le (h : Inv s) : s.deliver.toDo ≤ s.toDo := by
  cases hslot : lsb s.lfrq.ready with
  | none =>
    unfold deliver
    rw [hslot]
  | some idx => exact (toDo_deliver_lt h (lsb_some hslot)).le

/-- While a slot is occupied, a cycle leaves less to do. -/
theorem toDo_clock (h : Inv s) (hocc : s.occupied.Nonempty) : s.clock.toDo < s.toDo := by
  obtain ⟨i, hi⟩ := hocc
  have hfree := (mem_occupied s i).1 hi
  have hfirst := toDo_deliver_le h
  have hsecond := toDo_deliver_le (inv_deliver h)
  have hlast := toDo_missbufClock_le (inv_deliver (inv_deliver h))
  have hclock : s.clock = s.deliver.deliver.missbufClock := rfl
  rw [hclock]
  obtain ⟨hf, -, -⟩ | ⟨-, hwait, -⟩ | ⟨-, -, hready⟩ := h.phase i
  · rw [hfree] at hf
    cases hf
  · -- the miss buffer of the slot is a cycle nearer
    obtain ⟨j, hbit⟩ := (h.bits i).1 hwait
    have hbusy : s.deliver.deliver.missbuf.freemap j = false := by
      rw [deliver_missbuf, deliver_missbuf]
      exact h.maps.busy_of_bit hbit
    exact (toDo_missbufClock_lt (inv_deliver (inv_deliver h)) hbusy).trans_le (hsecond.trans hfirst)
  · exact hlast.trans_lt (hsecond.trans_lt (toDo_deliver_lt h hready))

/-- So enough cycles leave nothing; the measure bounds them. -/
theorem drains (bound : ℕ) : ∀ {s : CacheHierarchy n m}, Inv s → s.toDo ≤ bound →
    ∃ cycles, (clock^[cycles] s).occupied = ∅ := by
  induction bound with
  | zero =>
    intro s h hbound
    refine ⟨0, Finset.not_nonempty_iff_eq_empty.1 fun hocc => ?_⟩
    have hfall := toDo_clock h hocc
    omega
  | succ bound ih =>
    intro s h hbound
    by_cases hocc : s.occupied.Nonempty
    · have hfall := toDo_clock h hocc
      obtain ⟨cycles, hdone⟩ := ih (inv_clock h) (by omega)
      exact ⟨cycles + 1, hdone⟩
    · exact ⟨0, Finset.not_nonempty_iff_eq_empty.1 hocc⟩

theorem stateRight_of_inv (h : Inv s) : StateRight s := by
  refine ⟨h.phase, h.ledger.count, fun i => ?_, h.ledger.accounts, h.ledger.origin, drains s.toDo h (le_refl _)⟩
  rw [h.bits i]
  constructor
  · rintro ⟨j, hbit⟩
    exact ⟨j, ⟨h.maps.busy_of_bit hbit, hbit⟩, fun k hk => h.maps.one i k j hk.2 hbit⟩
  · rintro ⟨j, ⟨-, hbit⟩, -⟩
    exact ⟨j, hbit⟩

/-- `annul` takes the slot from the ready map, whichever it is in. -/
theorem not_right_of_annul {slot : Fin n} (hwait : s.lfrq.waiting slot = true) : ¬ StateRight (s.annulSlot slot) := by
  intro hright
  have hfree : (s.annulSlot slot).lfrq.freemap slot = true := by simp [annulSlot, leaveReady]
  have hstill : (s.annulSlot slot).lfrq.waiting slot = true := hwait
  rw [((hright.phase slot).of_free hfree).1] at hstill
  cases hstill

end CacheHierarchy

open CacheHierarchy

theorem RunRight.head {s : CacheHierarchy n m} {ops : List (FillOp n)} (h : RunRight s ops) : StateRight s := by
  cases ops with
  | nil => exact h
  | cons op ops => exact h.1

/-- Over a run: the invariant holds until the first annulment of a waiting slot, which breaks it. -/
theorem runRight_iff {s : CacheHierarchy n m} (h : Inv s) (ops : List (FillOp n)) : RunRight s ops ↔ RunFine s ops := by
  induction ops generalizing s with
  | nil => exact iff_of_true (stateRight_of_inv h) trivial
  | cons op ops ih =>
    constructor
    · rintro ⟨-, hrest⟩
      -- the state after such an annul is not right
      have hfine : ∀ slot, op = .annul slot → s.lfrq.freemap slot = false → s.lfrq.waiting slot = false := by
        rintro slot rfl hfree
        by_contra hwait
        refine not_right_of_annul (by simpa using hwait) (RunRight.head (hrest (s.annulSlot slot) ?_))
        simp [exec, hfree]
      exact ⟨hfine, fun s' hs => (ih (inv_exec h hfine hs)).1 (hrest s' hs)⟩
    · rintro ⟨hfine, hrest⟩
      exact ⟨stateRight_of_inv h, fun s' hs => (ih (inv_exec h hfine hs)).2 (hrest s' hs)⟩

/-- No wakeup is lost or made twice, and no slot is in two states, just if no slot is
annulled while it waits. -/
theorem fills_right_iff (ops : List (FillOp n)) :
    RunRight (reset : CacheHierarchy n m) ops ↔ RunFine (reset : CacheHierarchy n m) ops :=
  runRight_iff inv_reset ops

/-- A load of address 0, annulled in the next step. -/
theorem not_fills_right :
    ¬ ∀ ops : List (FillOp LFRQ_SIZE), RunRight (reset : CacheHierarchy LFRQ_SIZE MISSBUF_COUNT) ops := by
  intro h
  obtain ⟨-, hrest⟩ := h [.issueload 0 ⟨0, 0⟩ false false, .annul 0]
  obtain ⟨-, hlast⟩ := hrest _ rfl
  have hwait : ((reset : CacheHierarchy LFRQ_SIZE MISSBUF_COUNT).issueloadSlowpath
    0 ⟨0, 0⟩ false false).2.lfrq.waiting 0 = true := rfl
  exact not_right_of_annul hwait (hlast _ rfl)

end X86Sim.LoadFills
