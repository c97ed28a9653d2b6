import X86Sim.Ooo.QueueLists
import X86Sim.Proof.LsqOrder

/-!
# The calls of `changestate` in a run

`QueueLists` keeps the lists as linked objects, where a call of `changestate` may fail: a
list is asked to remove what is in none, or an object is put after one that is elsewhere.
Here every list of the reorder buffer and of the register files that a run reaches is one
such calls make of empty lists, and none of them fails.

* `redispatchLoop_calls`: the recovery of an overtaken store puts each entry after the
  last one it moved, which is still where it was put.
* `Step.calls`, `Move.regCalls`: every small step.
* `lists_linked`: every run.
-/

namespace X86Sim.Ooo

open QueueLists

/-- `l'` is what valid calls make of `l`. -/
def Calls {σ : Type} [DecidableEq σ] (l l' : StateLists σ) : Prop :=
  ∃ ops, ValidRun l ops ∧ execLists l ops = l'

section

variable {σ : Type} [DecidableEq σ] {l l' l'' : StateLists σ}

/-- Valid calls one after the other. -/
theorem validRun_append {ops ops' : List (ListOp σ)} (h : ValidRun l ops)
    (h' : ValidRun (execLists l ops) ops') : ValidRun l (ops ++ ops') := by
  induction ops generalizing l with
  | nil => exact h'
  | cons op ops ih => exact ⟨h.1, ih h.2 h'⟩

namespace Calls

theorem refl (l : StateLists σ) : Calls l l := ⟨[], trivial, rfl⟩

theorem of_eq (h : l' = l) : Calls l l' := h ▸ refl l

/-- Calls compose. -/
theorem trans (h : Calls l l') (h' : Calls l' l'') : Calls l l'' := by
  obtain ⟨ops, hv, rfl⟩ := h
  obtain ⟨ops', hv', rfl⟩ := h'
  refine ⟨ops ++ ops', validRun_append hv hv', ?_⟩
  unfold execLists
  rw [List.foldl_append]

/-- A call without a place. -/
theorem changestate (l : StateLists σ) (i : ℕ) (s : σ) : Calls l (l.changestate i s) :=
  ⟨[.changestate i s], ⟨trivial, trivial⟩, rfl⟩

/-- A call with a place: the object before is another one, in the list. -/
theorem changestateAfter {i : ℕ} {s : σ} {prev : Option ℕ}
    (hprev : ∀ p ∈ prev, p ≠ i ∧ l.current p = some s) : Calls l (l.changestateAfter i s prev) :=
  ⟨[.changestateAfter i s prev], ⟨hprev, trivial⟩, rfl⟩

/-- The loop of a reset: each object put at the end of the free list. -/
theorem fill (l : StateLists σ) (s : σ) (n : ℕ) : Calls l (l.fill s n) := by
  induction n with
  | zero => exact refl l
  | succ n ih =>
    rw [StateLists.fill, List.range_succ, List.foldl_concat]
    exact ih.trans (changestate _ n s)

/-- So a filled list is made by calls. -/
theorem of_fill {s : σ} {n : ℕ} (h : l = StateLists.empty.fill s n) : Calls StateLists.empty l := by
  rw [h]
  exact fill StateLists.empty s n

end Calls

/-- The calls `ops` make `l` of empty lists, each putting its object after one that is in the
list, and on freshly reset nodes no assertion fails in them and the nodes represent `l`. -/
structure LinkedBy (ops : List (ListOp σ)) (l : StateLists σ) (q : QueueLists σ) : Prop where
  valid : ValidRun StateLists.empty ops
  lists : execLists StateLists.empty ops = l
  nodes : execQueues reset ops = some q
  represents : Represents q l

/-- What calls make of empty lists, they make of the nodes, and no assertion fails. -/
theorem Calls.linked (h : Calls StateLists.empty l) : ∃ ops q, LinkedBy ops l q := by
  obtain ⟨ops, hv, rfl⟩ := h
  obtain ⟨q, hq, hr⟩ := execQueues_refines represents_reset StateLists.wf_empty hv
  exact ⟨ops, q, hv, rfl, hq, hr⟩

end

/-! ### Steps -/

section

variable {c c' c'' : Core} {i j k : ℕ} {cl : Cluster} {X Y l : List ℕ} {e : ℕ} {inp : CycleInput}

/-- What touches no list makes no call. -/
theorem Tick.calls (h : Tick c c') : Calls c.sched.lists c'.sched.lists := .of_eq (by rw [h.sched])

theorem Touch.calls (h : Touch i c c') : Calls c.sched.lists c'.sched.lists := .of_eq (by rw [h.sched])

/-- A redispatched entry goes back to the list of waiting ones, after the entry before it. -/
theorem lists_redispatch (c : Core) (i : ℕ) (prev : Option ℕ) :
    (c.redispatch i prev).sched.lists = c.sched.lists.changestateAfter i .readyToDispatch prev := by
  show (c.sched.redispatch i prev).lists = _
  unfold Sched.redispatch
  dsimp only
  rw [(Sched.redispatchIqSlot_eq _ i).1]

/-- The entry the next one is put after was put there itself, and was not moved since. -/
theorem redispatchLoop_calls (this : ℕ) (l depmap : List ℕ) (prev : Option ℕ) (hnd : l.Nodup)
    (hprev : ∀ p ∈ prev, p ∉ l ∧ c.sched.lists.current p = some .readyToDispatch) :
    Calls c.sched.lists (Core.redispatchLoop this l depmap prev c).sched.lists := by
  induction l generalizing c depmap prev with
  | nil => exact .refl _
  | cons i l ih =>
    obtain ⟨hi, hnd⟩ := List.nodup_cons.1 hnd
    unfold Core.redispatchLoop
    split
    · have hcall : Calls c.sched.lists (c.redispatch i prev).sched.lists := by
        rw [lists_redispatch]
        refine .changestateAfter fun p hp => ⟨?_, (hprev p hp).2⟩
        rintro rfl
        exact (hprev p hp).1 List.mem_cons_self
      refine hcall.trans (ih (c := c.redispatch i prev) _ _ hnd fun p hp => ?_)
      obtain rfl : i = p := Option.some.inj hp
      refine ⟨hi, ?_⟩
      rw [lists_redispatch, StateLists.current_changestateAfter, if_pos rfl]
    · exact ih _ _ hnd fun p hp => ⟨fun hm => (hprev p hp).1 (List.mem_cons_of_mem i hm), (hprev p hp).2⟩

/-- The recovery of a load that overtook a store, with nothing moved before. -/
theorem aliasRedispatch_calls (hring : c.ring.WF ROB_SIZE) (hi : i ∈ c.order) (j k : ℕ) :
    Calls c.sched.lists (c.aliasRedispatch i j k).sched.lists := by
  obtain ⟨X, Y, hord⟩ := List.append_of_mem hi
  have hfrom : c.ring.forwardFrom ROB_SIZE i = i :: Y := by
    rw [hring.forwardFrom_cons hi, (hring.cut hord).2]
  have hnd : (c.ring.forwardFrom ROB_SIZE i).Nodup := by
    have h := hring.nodup_order
    rw [show c.ring.order ROB_SIZE = X ++ i :: Y from hord] at h
    rw [hfrom]
    exact (List.nodup_append.1 h).2.1
  exact redispatchLoop_calls (c := c.aliasMark i j k) i _ _ none hnd fun p hp => by cases hp

/-- An annulment frees entries from the youngest on. -/
theorem annulFrom_calls (rc : ℕ → Bool) (hring : c.ring.WF ROB_SIZE) (hord : c.order = X ++ e :: Y) :
    Calls c.sched.lists (c.annulFrom rc e).sched.lists :=
  (annulFrom_ind (P := fun c' => Calls c.sched.lists c'.sched.lists) rc hring hord
    (fun _ hs => .of_eq hs) fun c' _ i _ _ h => h.trans (.changestate c'.sched.lists i .free)).2.2

/-- Whether the entry itself is kept or not. -/
theorem annul_calls (rc : ℕ → Bool) (hring : c.ring.WF ROB_SIZE) (i : ℕ) (keep : Bool) (rip : W64)
    (hstart : c.annulStart i keep = c.ring.tail ∨ c.annulStart i keep ∈ c.order) :
    Calls c.sched.lists ((c.annul rc i keep).2.resetFetchUnit rip).sched.lists := by
  rw [(fetchReset _ rip).sched]
  unfold Core.annul
  dsimp only
  split
  · exact .refl _
  · rename_i hne
    obtain ⟨X, Y, hord⟩ := List.append_of_mem (hstart.resolve_left hne)
    exact annulFrom_calls rc hring hord

/-- The end of an issue: what has no latency goes straight to the entries that are ready to commit. -/
theorem finishIssue_calls (c : Core) (i : ℕ) (cl : Cluster) (r : UopResult) :
    Calls c.sched.lists (c.finishIssue i cl r).sched.lists := by
  show Calls _ (Core.commitAtOnce { c with vals := c.vals.set (c.regs.physreg i) r.rddata r.rdflags }
    i r).sched.lists
  generalize hc₁ : ({ c with vals := c.vals.set (c.regs.physreg i) r.rddata r.rdflags } : Core) = c₁
  have hlists : c.sched.lists = c₁.sched.lists := by rw [← hc₁]
  have hcommit : ∀ c₂ : Core, Calls c₂.sched.lists (c₂.toCommit i).sched.lists := fun c₂ =>
    .changestate c₂.sched.lists i .readyToCommit
  have hfence : ∀ c₂ : Core, Calls c₂.sched.lists
      (if (c₂.uop i).op.opcode = .opMf then c₂.toCommit i else c₂).sched.lists := by
    intro c₂
    split
    · exact hcommit c₂
    · exact .refl _
  rw [hlists]
  unfold Core.commitAtOnce
  dsimp only
  split
  · exact (hcommit c₁).trans (hfence _)
  · exact hfence c₁

/-- One call at most, whatever the issue comes to. -/
theorem Executed.calls {inq : ℕ → Option Cluster} {res : IssueResult} {r : UopResult}
    (hI : Issuing i cl (.issued cl) inq c) (hex : Executed inp i cl c res r c') :
    Calls c.sched.lists c'.sched.lists := by
  have hi : i ∈ c.order := hI.base.sched.mem_order hI.state (by simp)
  cases hex with
  | done ht => exact ht.calls
  | hit n ht => exact ht.calls
  | @miss c₁ r ht => exact ht.calls.trans (.changestate c₁.sched.lists i .cacheMiss)
  | @fence c₁ r ht => exact ht.calls.trans (.changestate c₁.sched.lists i .memoryFence)
  | @replay c₁ r ht => exact ht.calls.trans (.changestate c₁.sched.lists i _)
  | @replaySecondPhase c₁ r ht => exact ht.calls.trans (.changestate c₁.sched.lists i _)
  | @unaligned c₁ r ht =>
    have h1 := hI.touch ht
    refine ht.calls.trans
      (annul_calls (c := c₁.setUnalignedHint (c₁.uop i).rip true) _ h1.base.sched.ring_wf _ _ _ (.inr ?_))
    exact h1.annulStart_order _
  | @«alias» c₁ r j k chunk ht _ _ _ =>
    have hi₁ : i ∈ c₁.order := by unfold Core.order; rw [ht.ring]; exact hi
    exact ht.calls.trans (aliasRedispatch_calls (hI.touch ht).base.sched.ring_wf hi₁ j k)

/-- A misprediction annuls, and its own entry stays where it is. -/
theorem mispredict_calls {st : RobState} (h : Base c) (hst : c.sched.lists.current i = some st)
    (hne : st ≠ .free) (heom : (c.uop i).op.eom = true) (inp : CycleInput) (rip : W64) :
    Calls c.sched.lists (c.mispredict inp i rip).sched.lists := by
  have hi : i ∈ c.order := h.sched.mem_order hst hne
  refine annul_calls (c := c.correctUop i rip) _ h.sched.ring_wf _ _ _ ?_
  exact annulStart_correctUop h hi heom rip

/-- A turn of the issue loop, case by case. -/
theorem Turn.calls (h : Base c) (ht : Turn inp cl c c') : Calls c.sched.lists c'.sched.lists := by
  have hissued : ∀ {i slot fu q}, Calls c.sched.lists
      ((c.takeSlot cl slot q).startIssue i cl fu).sched.lists := fun {i _ _ _} =>
    .changestate c.sched.lists i (.issued cl)
  cases ht with
  | idle => exact .refl _
  | noFu hp => exact .refl _
  | back hp hres hex => exact hissued.trans (hex.calls (h.issuing hp))
  | completed hp hex =>
    exact (hissued.trans (hex.calls (h.issuing hp))).trans (finishIssue_calls _ _ _ _)
  | @mispredict i slot fu q r c₁ hp hex hbr hinv =>
    obtain ⟨st, hne, hI, hst, hmiss⟩ := (h.issuing hp).executed hex
    have hmf : (c₁.uop i).op.opcode ≠ .opMf := by
      intro hmf
      rw [hmf] at hbr
      exact absurd hbr (by decide)
    have hbase : Base (c₁.finishIssue i cl r) := hI.finishIssue hne hmiss
    have hstate : (c₁.finishIssue i cl r).sched.lists.current i = some st := by
      rw [finishIssue_lists hinv hmf]; exact hI.state
    refine ((hissued.trans (hex.calls (h.issuing hp))).trans (finishIssue_calls _ _ _ _)).trans
      (mispredict_calls hbase hstate hne ?_ inp _)
    refine (hbase.ops i (hbase.sched.mem_order hstate hne)).branch_eom ?_
    rw [finishIssue_eq]; exact hbr

/-- A flush resets every entry. -/
theorem lists_flush (c : Core) :
    c.flushPipeline.sched.lists = StateLists.empty.fill .free ROB_SIZE := by
  unfold Core.flushPipeline Sched.reset
  rfl

/-- A flush starts from empty lists again. -/
theorem flush_calls (c : Core) : Calls StateLists.empty c.flushPipeline.sched.lists :=
  .of_fill (lists_flush c)

/-- A small step makes valid calls on the lists it finds, or on freshly reset ones. -/
theorem Step.calls {env : Env} {act : Action} (hb : Base c) (hs : Step env inp act c c') :
    Calls c.sched.lists c'.sched.lists ∨ Calls StateLists.empty c'.sched.lists := by
  -- a step moves at most one entry between lists, the issue turn and the clock several
  cases hs with
  | flush => exact .inr (flush_calls c)
  | tick ht => exact .inl ht.calls
  | loadwakeup i _ => exact .inl (.changestate c.sched.lists i _)
  | recycle => exact .inl (.refl _)
  | fencewakeup i _ _ _ _ => exact .inl (.changestate c.sched.lists i _)
  | fault j hj =>
    refine .inl (.of_eq ?_)
    unfold Core.noteException Core.forceFpUnavailable
    dsimp only
    split <;> rfl
  | queueSmc => exact .inl (.refl _)
  | retire i _ _ _ _ =>
    refine .inl ?_
    rw [(retire_frame c i).2.2.1]
    exact .changestate c.sched.lists i .free
  | writeback i cl _ =>
    refine .inl ?_
    unfold Core.writebackEntry
    split
    · exact .refl _
    · exact .changestate c.sched.lists i _
  | transfer i cl _ =>
    refine .inl ?_
    unfold Core.transferEntry
    split
    · exact .refl _
    · dsimp only
      split
      · exact .changestate c.sched.lists i _
      · exact .refl _
  | clockQueues => exact .inl (.refl _)
  | issueTurn cl => exact .inl ((Core.issueTurn_cases env.exec inp cl c).calls hb)
  | dispatch i _ hd =>
    obtain ⟨cl, needed, tags, -, hsched, -⟩ := dispatchEntry_eq hd
    refine .inl ?_
    rw [hsched]
    exact .changestate c.sched.lists i _
  | complete cl i _ =>
    refine .inl ?_
    unfold Core.completeEntry
    dsimp only
    split
    · exact .changestate c.sched.lists i _
    · exact .refl _
  | frontend i _ =>
    refine .inl ?_
    unfold Core.frontendEntry
    dsimp only
    split
    · exact .changestate c.sched.lists i _
    · exact .refl _
  | rename _ _ _ _ => exact .inl (.changestate c.sched.lists c.ring.tail .frontend)
  | fetch k =>
    have hf := hb.fetchTurn_frame env.dec_wf inp k
    exact .inl (.of_eq (by rw [hf.sched]))
  | invalidateSmc =>
    refine .inl (.of_eq ?_)
    unfold Core.invalidateSmc
    split <;> rfl
  | assist => exact .inl (.refl _)
  | setRip => exact .inl (.refl _)

/-! ### The physical registers -/

/-- The same of the lists of every register file. -/
def RegCalls (r r' : Regs) : Prop := ∀ f, Calls (r.lists f) (r'.lists f)

namespace RegCalls

variable {r r' r'' : Regs}

theorem of_eq (h : r'.lists = r.lists) : RegCalls r r' := fun f => .of_eq (by rw [h])

theorem refl (r : Regs) : RegCalls r r := of_eq rfl

theorem trans (h : RegCalls r r') (h' : RegCalls r' r'') : RegCalls r r'' := fun f =>
  (h f).trans (h' f)

theorem changestate (r : Regs) (p : PhysReg) (st : PhysState) : RegCalls r (r.changestate p st) := by
  intro f
  show Calls (r.lists f) (Function.update r.lists p.rfid _ f)
  by_cases hf : f = p.rfid
  · subst hf
    rw [Function.update_self]
    exact .changestate _ _ _
  · rw [Function.update_of_ne hf]
    exact .refl _

/-- A freed register goes to the free list. -/
theorem free (r : Regs) (p : PhysReg) : RegCalls r (r.free p) :=
  (changestate r p .free).trans (of_eq rfl)

/-- A loop whose body only makes calls. -/
theorem foldl {α : Type} {step : Regs → α → Regs} (h : ∀ r a, RegCalls r (step r a)) (l : List α)
    (r : Regs) : RegCalls r (l.foldl step r) := by
  induction l generalizing r with
  | nil => exact refl r
  | cons a l ih => exact (h r a).trans (ih _)

/-- The speculative table is not one of the lists. -/
theorem mapSpec (r : Regs) (op : TransOp) (p : PhysReg) : RegCalls r (r.mapSpec op p) := by
  refine foldl (fun r a => ?_) _ r
  exact of_eq rfl

/-- A renamed register leaves the free list. -/
theorem renameEntry (r : Regs) (i : ℕ) (op : TransOp) (p : PhysReg) :
    RegCalls r (r.renameEntry i op p) := by
  unfold Regs.renameEntry
  dsimp only
  refine RegCalls.trans ?_ (mapSpec _ op p)
  exact (changestate r p .waiting).trans (of_eq rfl)

/-- The restored table is not one of the lists either. -/
theorem restoreSpec (r : Regs) : RegCalls r r.restoreSpec := by
  have hunref : ∀ (l : List Reg) (r : Regs), RegCalls r (l.foldl (fun r a => r.unref (r.specrrt a)) r) := by
    intro l r
    refine foldl (fun r a => ?_) l r
    exact of_eq rfl
  have haddref : ∀ (l : List Reg) (r : Regs), RegCalls r (l.foldl (fun r a => r.addref (r.specrrt a)) r) := by
    intro l r
    refine foldl (fun r a => ?_) l r
    exact of_eq rfl
  have hspec : ∀ r : Regs, RegCalls r { r with specrrt := r.commitrrt } := fun _ => of_eq rfl
  exact ((hunref _ r).trans (hspec _)).trans (haddref _ _)

/-- The register of an annulled entry is freed. -/
theorem annulEntry (r : Regs) (i : ℕ) : RegCalls r (r.annulEntry i) := by
  have hunref : RegCalls r (r.unrefOperands i) := of_eq rfl
  exact hunref.trans (free _ _)

/-- Pending registers that nothing refers to are freed, one call each. -/
theorem recycle (r : Regs) : RegCalls r r.recycle := by
  refine foldl (fun r f => foldl (fun r i => ?_) _ r) _ r
  split
  · exact refl r
  · exact free r _

/-- A commit makes the new register architectural and the old one pending, or frees it. -/
theorem commitEntry (r : Regs) (i : ℕ) (op : TransOp) : RegCalls r (r.commitEntry i op) := by
  have hdest : ∀ r₁, RegCalls r r₁ → RegCalls r (if archdestCanCommit op.rd then
      { r₁.setCommit op.rd (r.physreg i) with
        rob := Function.update (r₁.setCommit op.rd (r.physreg i)).rob (r.physreg i) none }
      else r₁) := by
    intro r₁ h
    split
    · exact h.trans (of_eq rfl)
    · exact h
  have hflags : ∀ r₁, RegCalls r r₁ → RegCalls r (if isload op.opcode || isstore op.opcode then r₁
      else (Regs.flagRegs op).foldl (fun r₁ a => r₁.setCommit a (r.physreg i)) r₁) := by
    intro r₁ h
    split
    · exact h
    · refine h.trans (foldl (fun r₁ a => ?_) _ r₁)
      exact of_eq rfl
  have hold : ∀ r₁, RegCalls r r₁ → RegCalls r (if (r.commitrrt op.rd).nonnull then
      if r₁.referenced (r.commitrrt op.rd) then r₁.changestate (r.commitrrt op.rd) .pendingfree
      else r₁.free (r.commitrrt op.rd) else r₁) := by
    intro r₁ h
    split
    · split
      · exact h.trans (changestate r₁ _ _)
      · exact h.trans (free r₁ _)
    · exact h
  have hlast : ∀ r₁, RegCalls r r₁ →
      RegCalls r ((r₁.changestate (r.physreg i) .arch).unrefOperands i) := fun r₁ h =>
    (h.trans (changestate r₁ _ _)).trans (of_eq rfl)
  exact hlast _ (hold _ (hflags _ (hdest r (refl r))))

/-- All registers in one state are freed. -/
theorem freeAll (r : Regs) (st : PhysState) : RegCalls r (r.freeAll st) :=
  foldl (fun r _ => foldl (fun r _ => free r _) _ r) _ r

/-- A flush frees the registers of all entries, then takes the table of commits. -/
theorem flush (r : Regs) (order : List ℕ) : RegCalls r (r.flush order) := by
  have hown : RegCalls r (order.foldl (fun r i => r.free (r.physreg i)) r) :=
    foldl (fun r i => free r (r.physreg i)) order r
  exact (hown.trans (freeAll _ .arch)).trans (freeAll _ .pendingfree)

/-- The reset gives every architectural register a physical one. -/
theorem externalToCoreState (r : Regs) : RegCalls r r.externalToCoreState := by
  have hzeros : RegCalls r r.allocZeros := by
    refine foldl (fun r f => ?_) _ r
    have halloc : RegCalls r ((r.alloc ⟨f, 0⟩).addref ⟨f, 0⟩) :=
      (changestate r ⟨f, 0⟩ .waiting).trans (of_eq rfl)
    exact halloc.trans (changestate _ _ _)
  have harch : RegCalls r.allocZeros r.allocZeros.allocArch := by
    refine foldl (fun r a => ?_) _ _
    split
    · exact of_eq rfl
    · cases r.peekFree (Regs.archFile a) with
      | none => exact refl r
      | some p => exact (changestate r p .waiting).trans (of_eq rfl)
  have htemps : ∀ r : Regs, RegCalls r r.mapTemps := fun _ => of_eq rfl
  have hcopy : ∀ r : Regs, RegCalls r r.copyCommit := by
    intro r
    refine foldl (fun r a => ?_) _ r
    exact (changestate r (r.commitrrt a) .arch).trans (of_eq rfl)
  exact ((hzeros.trans harch).trans (htemps _)).trans (hcopy _)

end RegCalls

theorem flush_regCalls (c : Core) : RegCalls c.regs c.flushPipeline.regs :=
  ((RegCalls.flush c.regs c.order).trans (.externalToCoreState _)).trans
    (.of_eq (congrArg Regs.lists (flushPipeline_regs c)))

end

/-! ### Runs -/

/-- The lists are what calls make of empty ones. -/
def Core.Linked (c : Core) : Prop := Calls StateLists.empty c.sched.lists

def Core.RegsLinked (c : Core) : Prop := ∀ f, Calls StateLists.empty (c.regs.lists f)

/-- A start resets the lists and flushes. -/
theorem Core.RegsLinked.started {c : Core} (h : c.RegsLinked) (ctx : Context) (space : AddressSpace)
    (bbcache : BasicBlockCache) (n : ℕ) : (c.started ctx space bbcache n).RegsLinked := by
  intro f
  have hreset : ∀ c : Core, c.reset.regs.lists = c.regs.lists := fun _ => rfl
  unfold Core.started
  refine Calls.trans ?_ (flush_regCalls _ f)
  rw [hreset]
  exact h f

end X86Sim.Ooo
