import X86Sim.Proof.Renaming

/-!
# The register file holds the architectural values

The context keeps the committed value of every architectural register in `commitarf`; the
renamed core reads its operands from the physical registers. `Core.Held`: the register the
committed table names for an architectural register holds its value there, whatever is
issued, replayed, redispatched or annulled in the meantime. The instruction pointer and
the flags word are left out: `commit` counts the one up and merges the other without a
register of its own.

* `Quiet`: a step writes to destinations in flight only.
* `Held.quiet`, `Held.retire`, `RegsIdle.held`: what keeps the values, and what loads them.
* `committed_values`: every run.
-/

namespace X86Sim.Ooo

open Names Regs

/-- No value changes but those of destinations in flight. -/
structure Quiet (c c' : Core) : Prop where
  arf : c'.ctx.commitarf = c.ctx.commitarf
  commit : c'.regs.commitrrt = c.regs.commitrrt
  physreg : c'.regs.physreg = c.regs.physreg
  order : ∀ i ∈ c'.order, i ∈ c.order
  data : ∀ p, c'.vals.data p = c.vals.data p ∨ ∃ i ∈ c.order, c.regs.physreg i = p

/-- The registers the committed table names hold the values of the context. -/
structure Core.Held (c : Core) : Prop where
  mapped : ∀ a : Reg, a.isArch = true → a ≠ Reg.zero → (c.regs.commitrrt a).nonnull = true
  data : ∀ a : Reg, a.isArch = true → a ≠ Reg.zero → a ≠ Reg.rip → a ≠ Reg.flags →
    c.vals.data (c.regs.commitrrt a) = c.ctx.commitarf a

section

variable {c c' c'' : Core} {i j k : ℕ} {cl : Cluster} {X Y l kept : List ℕ} {e : ℕ} {a : Reg}
  {inp : CycleInput}

theorem not_flagReg (ha : a.isArch = true) : ¬FlagReg a := by
  rintro (rfl | rfl | rfl) <;> cases ha

/-! ### Steps that write to destinations only -/

namespace Quiet

theorem refl (c : Core) : Quiet c c := ⟨rfl, rfl, rfl, fun _ h => h, fun _ => .inl rfl⟩

theorem trans (h : Quiet c c') (h' : Quiet c' c'') : Quiet c c'' := by
  refine ⟨h'.arf.trans h.arf, h'.commit.trans h.commit, h'.physreg.trans h.physreg,
    fun i hi => h.order i (h'.order i hi), fun p => ?_⟩
  rcases h'.data p with heq | ⟨i, hi, hip⟩
  · rw [heq]; exact h.data p
  · exact .inr ⟨i, h.order i hi, by rw [← h.physreg]; exact hip⟩

/-- No value changes at all. -/
theorem of_vals (harf : c'.ctx.commitarf = c.ctx.commitarf) (hring : c'.ring = c.ring)
    (hcommit : c'.regs.commitrrt = c.regs.commitrrt) (hphys : c'.regs.physreg = c.regs.physreg)
    (hvals : c'.vals.data = c.vals.data) : Quiet c c' :=
  ⟨harf, hcommit, hphys, fun i hi => by unfold Core.order at hi ⊢; rwa [hring] at hi,
    fun p => .inl (by rw [hvals])⟩

/-- The destination of one entry is written. -/
theorem of_set (hi : i ∈ c.order) (harf : c'.ctx.commitarf = c.ctx.commitarf)
    (hring : c'.ring = c.ring) (hcommit : c'.regs.commitrrt = c.regs.commitrrt)
    (hphys : c'.regs.physreg = c.regs.physreg)
    (hvals : ∀ p, p ≠ c.regs.physreg i → c'.vals.data p = c.vals.data p) : Quiet c c' := by
  refine ⟨harf, hcommit, hphys, fun k hk => by unfold Core.order at hk ⊢; rwa [hring] at hk,
    fun p => ?_⟩
  by_cases hp : p = c.regs.physreg i
  · exact .inr ⟨i, hi, hp.symm⟩
  · exact .inl (hvals p hp)

end Quiet

theorem data_set (v : Values) {p q : PhysReg} (d : W64) (f : W16) (h : q ≠ p) :
    (v.set p d f).data q = v.data q := Function.update_of_ne h _ _

theorem Tick.quiet (h : Tick c c') : Quiet c c' :=
  .of_vals (by rw [h.ctx]) h.ring (by rw [h.regs]) (by rw [h.regs]) (by rw [h.vals])

theorem Touch.quiet (h : Touch i c c') : Quiet c c' := by
  have hregs : c'.regs.commitrrt = c.regs.commitrrt ∧ c'.regs.physreg = c.regs.physreg := by
    rcases h.regs with hr | ⟨j, sfra, -, -, hr⟩
    · rw [hr]; exact ⟨rfl, rfl⟩
    · rw [hr]; exact ⟨rfl, rfl⟩
  exact .of_vals (by rw [h.ctx]) h.ring hregs.1 hregs.2 (by rw [h.vals])

theorem quiet_redispatch (hi : i ∈ c.order) (prev : Option ℕ) : Quiet c (c.redispatch i prev) := by
  refine .of_set hi rfl rfl ?_ ?_ fun p hp => data_set _ _ _ hp
  · unfold Core.redispatch
    dsimp only
    split <;> rfl
  · unfold Core.redispatch
    dsimp only
    split <;> rfl

theorem quiet_redispatchLoop (this : ℕ) (l depmap : List ℕ) (prev : Option ℕ)
    (hl : ∀ i ∈ l, i ∈ c.order) : Quiet c (Core.redispatchLoop this l depmap prev c) := by
  induction l generalizing c depmap prev with
  | nil => exact .refl c
  | cons i l ih =>
    have hi := hl i List.mem_cons_self
    have hrest := fun k hk => hl k (List.mem_cons_of_mem i hk)
    unfold Core.redispatchLoop
    split
    · exact (quiet_redispatch hi prev).trans (ih (c := c.redispatch i prev) _ _ hrest)
    · exact ih _ _ hrest

theorem quiet_aliasRedispatch (hring : c.ring.WF ROB_SIZE) (hi : i ∈ c.order) (j k : ℕ) :
    Quiet c (c.aliasRedispatch i j k) := by
  have hmark : Quiet c (c.aliasMark i j k) := .of_vals rfl rfl rfl rfl rfl
  refine hmark.trans (quiet_redispatchLoop (c := c.aliasMark i j k) i _ _ _ fun m hm => ?_)
  obtain ⟨X, Y, hord⟩ := List.append_of_mem hi
  have hfrom : c.ring.forwardFrom ROB_SIZE i = i :: Y := by
    rw [hring.forwardFrom_cons hi, (hring.cut hord).2]
  have hm' : m ∈ c.ring.forwardFrom ROB_SIZE i := hm
  rw [hfrom] at hm'
  show m ∈ c.order
  rw [hord]
  exact List.mem_append_right X hm'

/-- An annulment takes entries away and rebuilds the speculative table only. -/
theorem quiet_annulFrom (rc : ℕ → Bool) (hring : c.ring.WF ROB_SIZE) (hord : c.order = X ++ e :: Y) :
    Quiet c (c.annulFrom rc e) := by
  have hfold : ∀ (l : List ℕ) (r : Regs),
      (l.foldl (fun r i => r.mapSpec (c.uop i).op (r.physreg i)) r).commitrrt = r.commitrrt ∧
      SameRegs r (l.foldl (fun r i => r.mapSpec (c.uop i).op (r.physreg i)) r) := by
    intro l
    induction l with
    | nil => exact fun r => ⟨rfl, .refl r⟩
    | cons i l ih =>
      intro r
      exact ⟨(ih _).1.trans (specrrt_mapSpec _ _).2, (sameRegs_mapSpec _ _).trans (ih _).2⟩
  obtain ⟨-, hX, h1, h2, h3, h4⟩ := annulFrom_ind (P := fun c' =>
      c'.ctx.commitarf = c.ctx.commitarf ∧ c'.regs.commitrrt = c.regs.commitrrt ∧
        c'.regs.physreg = c.regs.physreg ∧ c'.vals.data = c.vals.data) rc hring hord
    (fun s _ => ⟨rfl, (hfold X _).1.trans (restoreSpec_tables c.regs).2.1,
      ((restoreSpec_tables c.regs).2.2.trans (hfold X _).2).physreg, rfl⟩)
    fun c M i _ _ h => h
  refine ⟨h1, h2, h3, fun k hk => ?_, fun p => .inl (by rw [h4])⟩
  rw [hX] at hk
  rw [hord]
  exact List.mem_append_left _ hk

theorem quiet_resetFetch (c : Core) (rip : W64) : Quiet c (c.resetFetchUnit rip) := by
  have hr := fetchReset c rip
  exact .of_vals (by rw [hr.ctx]) hr.ring (by rw [hr.regs]) (by rw [hr.regs]) (by rw [hr.vals])

theorem quiet_annul (rc : ℕ → Bool) (hring : c.ring.WF ROB_SIZE) (i : ℕ) (keep : Bool) (rip : W64)
    (hstart : c.annulStart i keep = c.ring.tail ∨ c.annulStart i keep ∈ c.order) :
    Quiet c ((c.annul rc i keep).2.resetFetchUnit rip) := by
  unfold Core.annul
  dsimp only
  split
  · exact quiet_resetFetch c rip
  · rename_i hne
    obtain ⟨X, Y, hord⟩ := List.append_of_mem (hstart.resolve_left hne)
    exact (quiet_annulFrom rc hring hord).trans (quiet_resetFetch _ rip)

theorem quiet_finishIssue (hi : i ∈ c.order) (cl : Cluster) (r : UopResult) :
    Quiet c (c.finishIssue i cl r) := by
  rw [finishIssue_eq]
  exact .of_set hi rfl rfl rfl rfl fun p hp => data_set _ _ _ hp

theorem quiet_wakeup (h : Quiet c c') (i : ℕ) : Quiet c (c'.wakeup i) :=
  h.trans (.of_vals rfl rfl rfl rfl rfl)

/-- The end of an execution, with what it redispatches or annuls. -/
theorem Executed.quiet {inq : ℕ → Option Cluster} {res : IssueResult} {r : UopResult}
    (hI : Issuing i cl (.issued cl) inq c) (hex : Executed inp i cl c res r c') : Quiet c c' := by
  have hi : i ∈ c.order := hI.base.sched.mem_order hI.state (by simp)
  cases hex with
  | done ht => exact ht.quiet
  | hit n ht => exact ht.quiet.trans (.of_vals rfl rfl rfl rfl rfl)
  | miss ht => exact ht.quiet.trans (.of_vals rfl rfl rfl rfl rfl)
  | fence ht => exact ht.quiet.trans (.of_vals rfl rfl rfl rfl rfl)
  | replay ht => exact ht.quiet.trans (.of_vals rfl rfl rfl rfl rfl)
  | replaySecondPhase ht => exact ht.quiet.trans (.of_vals rfl rfl rfl rfl rfl)
  | @unaligned c₁ r ht =>
    have h1 := hI.touch ht
    have hhint : Quiet c₁ (c₁.setUnalignedHint (c₁.uop i).rip true) := .of_vals rfl rfl rfl rfl rfl
    refine (ht.quiet.trans hhint).trans
      (quiet_annul (c := c₁.setUnalignedHint (c₁.uop i).rip true) _ h1.base.sched.ring_wf _ _ _ ?_)
    exact .inr (h1.annulStart_order _)
  | @«alias» c₁ r j k chunk ht _ _ _ =>
    have hi₁ : i ∈ c₁.order := by unfold Core.order; rw [ht.ring]; exact hi
    exact ht.quiet.trans (quiet_aliasRedispatch (hI.touch ht).base.sched.ring_wf hi₁ j k)

theorem quiet_mispredict {st : RobState} (h : Base c) (hst : c.sched.lists.current i = some st)
    (hne : st ≠ .free) (heom : (c.uop i).op.eom = true) (inp : CycleInput) (rip : W64) :
    Quiet c (c.mispredict inp i rip) := by
  have hi : i ∈ c.order := h.sched.mem_order hst hne
  have hcorrect : Quiet c (c.correctUop i rip) := .of_vals rfl rfl rfl rfl rfl
  refine hcorrect.trans (quiet_annul (c := c.correctUop i rip) _ h.sched.ring_wf _ _ _ ?_)
  exact annulStart_correctUop h hi heom rip

theorem quiet_startIssue {slot : ℕ} {q : IssueQueue} (c : Core) (i : ℕ) (cl : Cluster) (fu : ℕ) :
    Quiet c ((c.takeSlot cl slot q).startIssue i cl fu) := .of_vals rfl rfl rfl rfl rfl

theorem Turn.quiet (h : Base c) (ht : Turn inp cl c c') : Quiet c c' := by
  cases ht with
  | idle => exact .refl c
  | noFu hp => exact .of_vals rfl rfl rfl rfl rfl
  | back hp hres hex =>
    exact (quiet_startIssue c _ cl _).trans (hex.quiet (h.issuing hp))
  | @completed i slot fu q r c₁ hp hex =>
    obtain ⟨st, hne, hI, -, -⟩ := (h.issuing hp).executed hex
    have hi : i ∈ c₁.order := hI.base.sched.mem_order hI.state hne
    exact ((quiet_startIssue c i cl fu).trans (hex.quiet (h.issuing hp))).trans
      (quiet_finishIssue hi _ _)
  | @mispredict i slot fu q r c₁ hp hex hbr hinv =>
    obtain ⟨st, hne, hI, hst, hmiss⟩ := (h.issuing hp).executed hex
    have hmf : (c₁.uop i).op.opcode ≠ .opMf := by
      intro hmf
      rw [hmf] at hbr
      exact absurd hbr (by decide)
    have hi : i ∈ c₁.order := hI.base.sched.mem_order hI.state hne
    have hbase : Base (c₁.finishIssue i cl r) := hI.finishIssue hne hmiss
    have hstate : (c₁.finishIssue i cl r).sched.lists.current i = some st := by
      rw [finishIssue_lists hinv hmf]; exact hI.state
    refine (((quiet_startIssue c i cl fu).trans (hex.quiet (h.issuing hp))).trans
      (quiet_finishIssue hi _ _)).trans (quiet_mispredict hbase hstate hne ?_ inp _)
    refine (hbase.ops i (hbase.sched.mem_order hstate hne)).branch_eom ?_
    rw [finishIssue_eq]; exact hbr

/-! ### What keeps the values -/

theorem Core.Held.quiet (h : c.Held) (hr : RenamedAt kept c) (hq : Quiet c c') : c'.Held := by
  refine ⟨fun a ha hz => by rw [hq.commit]; exact h.mapped a ha hz, fun a ha hz hrip hfl => ?_⟩
  rw [hq.commit, hq.arf]
  rcases hq.data (c.regs.commitrrt a) with heq | ⟨i, hi, hia⟩
  · rw [heq]; exact h.data a ha hz hrip hfl
  · -- a committed register is no destination in flight
    obtain ⟨st, hst, hf⟩ := hr.dest i hi
    rw [hia, hr.arch a (not_flagReg ha)] at hst
    rw [← Option.some.inj hst] at hf
    exact absurd (.inl rfl) hf.not_committed

theorem Core.Held.rename (h : c.Held) (hr : RenamedAt kept c) (uop : FetchBufferEntry)
    (rest : List FetchBufferEntry) {p : PhysReg} (hp : c.regs.state p = some .free) :
    (c.renameUop uop rest p).Held := by
  obtain ⟨-, hcom, -⟩ := renameEntry_eq (r := c.regs) c.ring.tail uop.op p
  have hcommit : (c.renameUop uop rest p).regs.commitrrt = c.regs.commitrrt := hcom
  refine ⟨fun a ha hz => by rw [hcommit]; exact h.mapped a ha hz, fun a ha hz hrip hfl => ?_⟩
  rw [hcommit]
  refine (data_set _ _ _ ?_).trans (h.data a ha hz hrip hfl)
  intro hap
  have := hr.arch a (not_flagReg ha)
  rw [hap, hp] at this
  cases this

theorem commitArf_apply (c : Core) (i : ℕ) (ha : a.isArch = true) (hrip : a ≠ Reg.rip)
    (hfl : a ≠ Reg.flags) : c.commitArf i a =
      if a = (c.uop i).op.rd ∧ archdestCanCommit (c.uop i).op.rd = true then
        c.vals.data (c.regs.physreg i)
      else c.ctx.commitarf a := by
  have hword : ∀ (b : Bool) (t : Reg → W64) (w : W64),
      (if b then t else Function.update t Reg.flags w) a = t a := by
    intro b t w
    cases b with
    | true => rfl
    | false => exact Function.update_of_ne hfl _ _
  have hnext : ∀ (b : Bool) (t : Reg → W64) (w : W64),
      (if b then Function.update t Reg.rip w else t) a = t a := by
    intro b t w
    cases b with
    | true => exact Function.update_of_ne hrip _ _
    | false => rfl
  unfold Core.commitArf
  dsimp only
  rw [hword, hnext]
  by_cases hd : a = (c.uop i).op.rd
  · subst hd
    by_cases hc : archdestCanCommit (c.uop i).op.rd = true
    · simp [hc, ha]
    · simp [hc]
  · simp only [hd, false_and, if_false]
    split
    · exact Function.update_of_ne hd _ _
    · rfl

theorem mem_destRegs (op : TransOp) (ha : a.isArch = true) :
    a ∈ destRegs op ↔ a = op.rd ∧ archdestCanCommit op.rd = true := by
  have hflag : a ∉ flagRegs op := by
    intro hm
    apply not_flagReg ha
    unfold flagRegs at hm
    unfold FlagReg
    split at hm
    · simp at hm
    · simp only [List.mem_append] at hm
      rcases hm with (hm | hm) | hm <;> split at hm <;> simp_all
  unfold destRegs
  rw [List.mem_append, or_iff_left hflag]
  split
  · rename_i hc; simp [hc]
  · rename_i hc; simp [hc]

/-- A commit moves both: the table names the result, and the context gets it. -/
theorem Core.Held.retire {rest : List ℕ} (h : c.Held) (hr : RenamedAt c.order c)
    (hord : c.order = i :: rest) (hwf : (c.uop i).op.WF) : (c.retire i).Held := by
  obtain ⟨-, -, -, hregs, hvals, -⟩ := retire_frame c i
  have hctx : (c.retire i).ctx.commitarf = c.commitArf i := by
    unfold Core.retire
    dsimp only
    split <;> rfl
  obtain ⟨-, hcom, -⟩ := commitEntry_spec c.regs i hwf.rd_zero hwf.mem_flags
    (by rw [hord] : c.order.Perm (i :: rest)) hr.lists_wf hr.counted
  have htable : ∀ a : Reg, a.isArch = true → (c.retire i).regs.commitrrt a =
      if a = (c.uop i).op.rd ∧ archdestCanCommit (c.uop i).op.rd = true then c.regs.physreg i
      else c.regs.commitrrt a := by
    intro a ha
    rw [hregs, hcom, mapTable_cases]
    simp only [mem_destRegs _ ha]
  refine ⟨fun a ha hz => ?_, fun a ha hz hrip hfl => ?_⟩
  · rw [htable a ha]
    split
    · obtain ⟨st, hst, hf⟩ := hr.dest i (by rw [hord]; exact List.mem_cons_self)
      cases hn : (c.regs.physreg i).nonnull with
      | true => rfl
      | false =>
        rw [hr.null_state hn] at hst
        rw [← Option.some.inj hst] at hf
        exact absurd (.inl rfl) hf.not_committed
    · exact h.mapped a ha hz
  · rw [htable a ha, hctx, commitArf_apply c i ha hrip hfl, hvals]
    split
    · rfl
    · exact h.data a ha hz hrip hfl

/-! ### What loads them -/

theorem load_of_ne (arf : Reg → W64) (t : Reg → PhysReg) {p : PhysReg} (l : List Reg) (v : Values)
    (hl : ∀ b ∈ l, t b ≠ p) : (l.foldl (fun v b => v.set (t b) (arf b) 0) v).data p = v.data p := by
  induction l generalizing v with
  | nil => rfl
  | cons b l ih =>
    rw [List.foldl_cons, ih _ fun d hd => hl d (List.mem_cons_of_mem b hd)]
    exact data_set v _ _ (hl b List.mem_cons_self).symm

theorem load_of_mem (arf : Reg → W64) (t : Reg → PhysReg) (l : List Reg) (v : Values) (ha : a ∈ l)
    (hinj : ∀ b ∈ l, t b = t a → b = a) :
    (l.foldl (fun v b => v.set (t b) (arf b) 0) v).data (t a) = arf a := by
  induction l generalizing v with
  | nil => cases ha
  | cons b l ih =>
    have hinj' := fun d hd => hinj d (List.mem_cons_of_mem b hd)
    rw [List.foldl_cons]
    by_cases hal : a ∈ l
    · exact ih _ hal hinj'
    · obtain rfl : a = b := (List.mem_cons.1 ha).resolve_right hal
      rw [load_of_ne arf t l _ fun d hd heq => hal (hinj' d hd heq ▸ hd)]
      exact Function.update_self _ _ _

/-- A flush loads the values of the context. -/
theorem RegsIdle.held (h : RegsIdle c) : c.flushPipeline.Held := by
  have hfresh := h.fresh
  have hctx : c.flushPipeline.ctx = c.ctx := by
    unfold Core.flushPipeline
    dsimp only
    rw [(fetchReset { c with regs := c.regs.flush c.order } (c.ctx.commitarf Reg.rip)).ctx]
  have hvals : c.flushPipeline.vals = c.vals.load c.flushPipeline.regs c.ctx.commitarf := by
    have hr := fetchReset { c with regs := c.regs.flush c.order } (c.ctx.commitarf Reg.rip)
    unfold Core.flushPipeline
    dsimp only
    rw [hr.vals, hr.ctx]
  refine ⟨hfresh.nonnull, fun a ha hz _ _ => ?_⟩
  rw [hvals, hctx]
  unfold Values.load
  dsimp only
  refine load_of_mem _ _ _ _ (List.mem_filter.2 ⟨List.mem_finRange a, ha⟩) fun b hb hba => ?_
  exact hfresh.inj b a (not_flagReg (List.mem_filter.1 hb).2) (not_flagReg ha) hba
    (by rw [hba]; exact hfresh.nonnull a ha hz)

/-! ### Steps and stages -/

variable {env : Env} {act : Action}

theorem Step.held (hb : Base c) (hr : c.RegsRenamed) (h : c.Held) (hs : Step env inp act c c')
    (hin : act ≠ .outside) : c'.Held := by
  have hmem : ∀ {i st}, c.sched.lists.current i = some st → st ≠ .free → i ∈ c.order :=
    fun hst hne => hb.sched.mem_order hst hne
  have hquiet : ∀ {c'}, Quiet c c' → c'.Held := fun hq => h.quiet hr.renamed hq
  -- only retirement moves a committed value; every other step leaves the committed view as it is
  cases hs with
  | tick ht => exact hquiet ht.quiet
  | loadwakeup i hl =>
    have hq : Quiet c { c with
        vals := c.vals.clearWait (c.regs.physreg i)
        ls := c.modifyLsq i fun e => { e with datavalid := true } } := .of_vals rfl rfl rfl rfl rfl
    exact hquiet (quiet_wakeup hq i)
  | recycle =>
    have hrec := recycled hr.renamed.lists_wf
    exact hquiet (.of_vals rfl rfl hrec.commitrrt hrec.physreg rfl)
  | fencewakeup i _ _ hready _ =>
    have hi := hmem hready (by simp)
    unfold Core.fencewakeup
    dsimp only
    refine hquiet (quiet_wakeup ?_ i)
    exact .of_set hi rfl rfl rfl rfl fun p hp => data_set _ _ _ hp
  | fault j hj =>
    refine hquiet ((?_ : Quiet c (c.forceFpUnavailable j)).trans (.of_vals rfl rfl rfl rfl rfl))
    unfold Core.forceFpUnavailable
    dsimp only
    split
    · exact .of_set hj rfl rfl rfl rfl fun p hp => data_set _ _ _ hp
    · exact .refl c
  | queueSmc => exact hquiet (.of_vals rfl rfl rfl rfl rfl)
  | retire i hhead _ _ _ =>
    obtain ⟨rest, hord⟩ : ∃ rest, c.order = i :: rest := List.head?_eq_some_iff.1 hhead
    exact h.retire hr.renamed hord (hb.ops i (by rw [hord]; exact List.mem_cons_self))
  | writeback i cl _ =>
    refine hquiet ?_
    unfold Core.writebackEntry
    split
    · exact .refl c
    · exact .of_vals rfl rfl rfl rfl rfl
  | transfer i cl _ =>
    refine hquiet ?_
    unfold Core.transferEntry
    split
    · exact .refl c
    · exact .of_vals rfl rfl rfl rfl rfl
  | clockQueues => exact hquiet (.of_vals rfl rfl rfl rfl rfl)
  | issueTurn cl => exact hquiet ((Core.issueTurn_cases env.exec inp cl c).quiet hb)
  | dispatch i _ hd =>
    obtain ⟨cl, needed, tags, -, -, hring, -, hvals, -, -, hctx, -⟩ := dispatchEntry_eq hd
    have hregs : c'.regs.commitrrt = c.regs.commitrrt ∧ c'.regs.physreg = c.regs.physreg := by
      rcases dispatchEntry_regs hd with heq | ⟨j, k, -, -, heq⟩
      · rw [heq]; exact ⟨rfl, rfl⟩
      · rw [heq]; exact ⟨rfl, rfl⟩
    exact hquiet (.of_vals (by rw [hctx]) hring hregs.1 hregs.2 (by rw [hvals]))
  | complete cl i _ =>
    refine hquiet ?_
    unfold Core.completeEntry
    dsimp only
    split
    · exact .of_vals rfl rfl rfl rfl rfl
    · exact .of_vals rfl rfl rfl rfl rfl
  | frontend i _ => exact hquiet (.of_vals rfl rfl rfl rfl rfl)
  | rename _ _ hp _ => exact h.rename hr.renamed _ _ (hr.renamed.peekFree_state hp)
  | fetch k =>
    have hf := hb.fetchTurn_frame env.dec_wf inp k
    exact hquiet (.of_vals (by rw [hf.ctx]) hf.ring (by rw [hf.regs]) (by rw [hf.regs]) (by rw [hf.vals]))
  | flush => exact hr.renamed.idle.held
  | invalidateSmc =>
    refine hquiet ?_
    unfold Core.invalidateSmc
    split
    · exact .of_vals rfl rfl rfl rfl rfl
    · exact .refl c
  | assist => exact absurd rfl hin
  | setRip => exact absurd rfl hin

/-- Every stage but the response, which calls the assists, is a chain of steps inside, and
only the commit stage retires. -/
theorem CycleState.step_inside {s : CycleState} (h : Base s.core) {st : Stage} (hst : st ≠ .respond) :
    Steps env inp (fun a => a ≠ .outside ∧ ∀ i, a = .retire i → st = .commit) s.core
      (s.step env inp st).core :=
  (CycleState.step_steps h st).mono fun _ ha => ⟨fun hout => hst (ha.2 hout), ha.1⟩

theorem Core.RegsRenamed.step (h : c.RegsRenamed) (hb : Base c) (hs : Step env inp act c c') :
    c'.RegsRenamed :=
  (chain_inv (I := fun c => c.ring.WF ROB_SIZE ∧ c.RegsRenamed)
    (fun _ _ h hm => ⟨hm.ring_wf h.1, h.2.move h.1 hm⟩) ⟨hb.sched.ring_wf, h⟩ (hs.moves hb)).2

/-- What the stages before the response keep. -/
structure Core.Valued (c : Core) : Prop where
  base : Base c
  renamed : c.RegsRenamed
  held : c.Held

theorem Core.Valued.steps (h : c.Valued) (hs : Steps env inp (· ≠ .outside) c c') : c'.Valued :=
  chain_inv (I := Core.Valued) (fun _ _ hc ⟨_, hin, hst⟩ => ⟨hst.base hc.base,
    hc.renamed.step hc.base hst,
    hst.held hc.base hc.renamed hc.held hin⟩) h hs

theorem Core.Valued.stages {s : CycleState} (h : s.core.Valued) (l : List Stage)
    (hl : Stage.respond ∉ l) : (s.run env inp l).core.Valued := by
  induction l generalizing s with
  | nil => exact h
  | cons st l ih =>
    have hst : st ≠ .respond := fun heq => hl (heq ▸ List.mem_cons_self)
    have hstep : Steps env inp (· ≠ .outside) s.core (s.step env inp st).core :=
      (CycleState.step_inside h.base hst).mono fun _ ha => ha.1
    exact ih (h.steps hstep) fun hm => hl (List.mem_cons_of_mem st hm)

/-! ### Runs -/

/-- Unless something was thrown, the response ends in a pipeline that has been loaded. -/
theorem respond_held {s : CycleState} (h : s.core.Valued) (hthrew : (s.respond env).threw = none) :
    (s.respond env).core.Held := by
  have hcore : ∀ s : CycleState, (if s.threw.isSome then s else { s with exiting :=
      s.exiting || s.core.mach.simCycle - s.core.mach.lastCommitAtCycle > 4096 }).core = s.core := by
    intro s; split <;> rfl
  have hthrown : ∀ s : CycleState, (if s.threw.isSome then s else { s with exiting :=
      s.exiting || s.core.mach.simCycle - s.core.mach.lastCommitAtCycle > 4096 }).threw = s.threw := by
    intro s; split <;> rfl
  have hflush : s.core.flushPipeline.Valued :=
    h.steps (Step.flush.steps (by simp) :
      Steps env (.hit true) (· ≠ .outside) s.core s.core.flushPipeline)
  have hidle := hflush.renamed.renamed.idle
  unfold CycleState.respond at hthrew ⊢
  dsimp only at hthrew ⊢
  rw [hcore]
  rw [hthrown] at hthrew
  split at hthrew
  · exact h.held
  · exact h.held
  · exact (hflush.steps (Step.invalidateSmc.steps (by simp) :
      Steps env (.hit true) (· ≠ .outside) _ _)).held
  · -- an exception: only a skipped block goes on
    dsimp only at hthrew ⊢
    unfold Core.handleException at hthrew ⊢
    dsimp only at hthrew ⊢
    split at hthrew
    · rename_i hskip
      rw [if_pos hskip]
      exact RegsIdle.held ⟨hidle.lists_wf, hidle.range, hidle.flight, hidle.refcount, hidle.dest⟩
    · cases hthrew
  · -- an assist that returns
    dsimp only at hthrew ⊢
    unfold Core.handleBarrier at hthrew ⊢
    dsimp only at hthrew ⊢
    split at hthrew
    · cases hthrew
    · exact RegsIdle.held ⟨hidle.lists_wf, hidle.range, hidle.flight, hidle.refcount, hidle.dest⟩
  · exact hflush.held.quiet hflush.renamed.renamed (.of_vals rfl rfl rfl rfl rfl)

theorem mem_cycleStages {k : ℕ} (hk : k < cycleStages.length) :
    Stage.respond ∉ cycleStages.take k := by
  intro hm
  have hsub : cycleStages.take k ⊆ cycleStages.take 23 :=
    (List.take_prefix_take_left (by simpa [cycleStages] using Nat.le_of_lt_succ hk)).subset
  exact absurd (hsub hm) (by simp [cycleStages])

theorem CycleState.run_concat (s : CycleState) (l : List Stage) (st : Stage) :
    s.run env inp (l ++ [st]) = (s.run env inp l).step env inp st := by
  unfold CycleState.run
  rw [List.foldl_append]
  rfl

theorem runcycle_respond (c : Core) : c.runcycle env inp =
    ((CycleState.init c).run env inp (cycleStages.take 23)).respond env := by
  have hcut : cycleStages = cycleStages.take 23 ++ [Stage.respond] := rfl
  calc c.runcycle env inp
      = (CycleState.init c).run env inp (cycleStages.take 23 ++ [Stage.respond]) :=
        congrArg ((CycleState.init c).run env inp) hcut
    _ = _ := CycleState.run_concat _ _ _

theorem Core.Held.tick (h : c.Held) (ht : Tick c c') : c'.Held :=
  ⟨fun a ha hz => by rw [ht.regs]; exact h.mapped a ha hz, fun a ha hz hrip hfl => by
    rw [ht.regs, ht.vals, ht.ctx]; exact h.data a ha hz hrip hfl⟩

theorem Reachable.valued {s : RunState} (hs : Reachable env anyInput s) (hdone : s.done = false) :
    s.core.Valued := by
  refine ⟨hs.base.2 hdone, ((rule_regsRenamed env anyInput).reachable hs).2 hdone, ?_⟩
  induction hs with
  | construct => cases hdone
  | @start s ctx space bbcache n hs hend hcache ih =>
    have hidle := ((rule_regsRenamed env anyInput).reachable hs).1 hend
    exact RegsIdle.held (hidle.reset ctx space bbcache n)
  | @iterate s inp hs hdone' hgo hok ih =>
    have h : s.core.Valued :=
      ⟨hs.base.2 hdone', ((rule_regsRenamed env anyInput).reachable hs).2 hdone', ih hdone'⟩
    have hstages : ((CycleState.init s.core).run env inp (cycleStages.take 23)).core.Valued :=
      h.stages (s := CycleState.init s.core) _ (mem_cycleStages (by decide))
    have hthrew : (s.core.runcycle env inp).threw = none := by
      cases ht : (s.core.runcycle env inp).threw with
      | none => rfl
      | some e =>
        unfold RunState.iterate at hdone
        dsimp only at hdone
        rw [ht] at hdone
        cases hdone
    have ht : Tick (s.core.runcycle env inp).core (s.iterate env inp).core := iterate_tick s inp
    rw [runcycle_respond] at hthrew ht
    exact (respond_held hstages hthrew).tick ht
  | finish => cases hdone

/-- Between the cycles of any run, and at the end of every stage before the response to the
commit, the physical register the committed table names for an architectural register holds
the value of the context: what is issued, replayed, redispatched or annulled never shows. -/
theorem committed_values (env : Env) {s : RunState} (hs : Reachable env anyInput s)
    (hdone : s.done = false) (inp : CycleInput) {k : ℕ} (hk : k < cycleStages.length) :
    ((CycleState.init s.core).run env inp (cycleStages.take k)).core.Held :=
  ((hs.valued hdone).stages (s := CycleState.init s.core) _ (mem_cycleStages hk)).held

/-- The cycle in which the first load commits. -/
theorem committed_values_fenceCode : ((CycleState.init (fenceCodeRun 16).core).run Env.fenceCode
    coldInput (cycleStages.take 14)).core.Held :=
  committed_values Env.fenceCode (reachable_fenceCode (by omega)) (goes_fenceCode (by omega)).1
    coldInput (by decide)

end
end X86Sim.Ooo
