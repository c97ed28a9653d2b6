import X86Sim.Decode.BlockShape

/-!
# Blocks put together instruction by instruction
-/

namespace X86Sim

namespace TraceDecoder

variable {d d' : TraceDecoder}

/-! ### What each step can do -/

theorem put_eq {u : TransOp} (h : d.put u = some d') :
    ∃ flag, d' = { d with transbuf := d.transbuf ++ [u], lastFlagsUpdateWasAtomic := flag } := by
  rw [put] at h
  split at h
  · exact ⟨_, (Option.some.inj h).symm⟩
  · cases h

theorem foldlM_put_eq {us : List TransOp} (h : us.foldlM put d = some d') :
    ∃ flag, d' = { d with transbuf := d.transbuf ++ us, lastFlagsUpdateWasAtomic := flag } := by
  induction us generalizing d with
  | nil =>
    have hd : d = d' := Option.some.inj h
    refine ⟨d.lastFlagsUpdateWasAtomic, ?_⟩
    rw [List.append_nil, hd]
  | cons u us ih =>
    rw [List.foldlM_cons] at h
    obtain ⟨d₁, hput, hrest⟩ := Option.bind_eq_some_iff.1 h
    obtain ⟨flag₁, rfl⟩ := put_eq hput
    obtain ⟨flag, rfl⟩ := ih hrest
    refine ⟨flag, ?_⟩
    rw [List.append_assoc]
    rfl

/-- Where a split branches to. -/
def splitTarget (d : TraceDecoder) (after : Bool) : W64 := if after then d.rip else d.ripstart

theorem split_eq {after : Bool} (h : d.split after = some d') :
    (after = false → d.ripstart ≠ d.bb.rip) ∧
      ∃ flag, d' = { d with
        transbuf := d.transbuf ++ [collcc, splitBranch (d.splitTarget after)]
        lastFlagsUpdateWasAtomic := flag
        bb := { d.bb with
          ripTaken := d.splitTarget after, ripNotTaken := d.splitTarget after, brtype := .split }
        joinWithPrevInsn := !after
        endOfBlock := true } := by
  unfold split at h
  dsimp only at h
  split at h
  · cases h
  · rename_i hfirst
    constructor
    · rintro rfl heq
      apply hfirst
      rw [firstInsnInBb, heq]
      simp
    · obtain ⟨d₁, hput₁, h⟩ := Option.bind_eq_some_iff.1 h
      obtain ⟨d₂, hput₂, h⟩ := Option.bind_eq_some_iff.1 h
      obtain ⟨flag₁, rfl⟩ := put_eq hput₁
      obtain ⟨flag₂, rfl⟩ := put_eq hput₂
      refine ⟨flag₂, ?_⟩
      rw [← Option.some.inj h]
      simp [splitTarget]

end TraceDecoder

/-! ### Adding uops to the block -/

/-- `bb'` is `bb` with the uops `l` at its end. -/
structure Appended (bb : TraceBlock) (l : List BlockUop) (bb' : TraceBlock) : Prop where
  transops : bb'.transops = bb.transops ++ l
  rip : bb'.rip = bb.rip
  bytes : bb'.bytes = bb.bytes
  userInsnCount : bb'.userInsnCount = bb.userInsnCount
  brtype : bb'.brtype = bb.brtype

theorem Appended.trans {bb bb₁ bb₂ : TraceBlock} {l l₁ : List BlockUop} (h : Appended bb l bb₁)
    (h₁ : Appended bb₁ l₁ bb₂) : Appended bb (l ++ l₁) bb₂ := by
  refine ⟨?_, h₁.rip.trans h.rip, h₁.bytes.trans h.bytes, h₁.userInsnCount.trans h.userInsnCount,
    h₁.brtype.trans h.brtype⟩
  rw [h₁.transops, h.transops, List.append_assoc]

theorem appended_append {bb bb' : TraceBlock} {u : BlockUop} (h : bb.append u = some bb') :
    Appended bb [u] bb' := by
  rw [TraceBlock.append] at h
  split at h
  · cases h
  · obtain ⟨bb₁, hend, h⟩ := Option.bind_eq_some_iff.1 h
    have hend' : bb₁.transops = bb.transops ∧ bb₁.rip = bb.rip ∧ bb₁.bytes = bb.bytes ∧
        bb₁.userInsnCount = bb.userInsnCount ∧ bb₁.brtype = bb.brtype := by
      rw [TraceBlock.endWith] at hend
      split at hend
      · obtain ⟨type, -, hend⟩ := Option.bind_eq_some_iff.1 hend
        rw [← Option.some.inj hend]
        exact ⟨rfl, rfl, rfl, rfl, rfl⟩
      · rw [Option.some.inj hend]
        exact ⟨rfl, rfl, rfl, rfl, rfl⟩
    obtain ⟨htransops, hrip, hbytes, hcount, hbrtype⟩ := hend'
    rw [← Option.some.inj h]
    refine ⟨?_, hrip, hbytes, hcount, hbrtype⟩
    dsimp only
    rw [htransops]

theorem appended_foldlM {l : List BlockUop} {bb bb' : TraceBlock} (h : l.foldlM TraceBlock.append bb = some bb') :
    Appended bb l bb' := by
  induction l generalizing bb with
  | nil =>
    have hbb : bb = bb' := Option.some.inj h
    subst hbb
    exact ⟨(List.append_nil _).symm, rfl, rfl, rfl, rfl⟩
  | cons u l ih =>
    rw [List.foldlM_cons] at h
    obtain ⟨bb₁, hone, hrest⟩ := Option.bind_eq_some_iff.1 h
    exact (appended_append hone).trans (ih hrest)

namespace TraceDecoder

variable {d d' : TraceDecoder}

theorem close_eq (h : d.close = some d') :
    (d.rip - d.ripstart).toNat ≤ 15 ∧
      ∃ bb, Appended d.bb (d.marked (d.rip - d.ripstart).toNat) bb ∧
        d' = { d with
          bb := if d.joinWithPrevInsn then bb
            else { bb with
              userInsnCount := bb.userInsnCount + 1, bytes := bb.bytes + (d.rip - d.ripstart).toNat }
          transbuf := [] } := by
  unfold close at h
  dsimp only at h
  split at h
  · cases h
  · rename_i hbytes
    split at h
    · cases h
    · obtain ⟨bb, hfold, h⟩ := Option.bind_eq_some_iff.1 h
      exact ⟨by omega, bb, appended_foldlM hfold, (Option.some.inj h).symm⟩

/-- The flush of a buffer that fits. -/
theorem flush_fits {ok : Bool} (hne : d.transbuf ≠ []) (hjoin : d.joinWithPrevInsn = false)
    (hfit : d.overflows = false) (h : d.flush = some (d', ok)) :
    ok = true ∧ (d.rip - d.ripstart).toNat ≤ 15 ∧
      ∃ bb, Appended d.bb (d.marked (d.rip - d.ripstart).toNat) bb ∧
        d' = { d with
          bb := { bb with
            userInsnCount := bb.userInsnCount + 1, bytes := bb.bytes + (d.rip - d.ripstart).toNat }
          transbuf := [] } := by
  have hroom : d.makeRoom = some d := by rw [makeRoom, hfit, if_neg (by decide)]
  have hopen : d.reopen = some d := by rw [reopen, hjoin, if_neg (by decide)]
  rw [flush, if_neg hne, hroom] at h
  obtain ⟨d₁, hd₁, h⟩ := Option.bind_eq_some_iff.1 h
  obtain rfl : d = d₁ := Option.some.inj hd₁
  rw [hopen] at h
  obtain ⟨d₂, hd₂, h⟩ := Option.bind_eq_some_iff.1 h
  obtain rfl : d = d₂ := Option.some.inj hd₂
  obtain ⟨closed, hclose, h⟩ := Option.bind_eq_some_iff.1 h
  have hpair := Option.some.inj h
  have hd' : closed = d' := congrArg Prod.fst hpair
  have hok : (!d.overflows) = ok := congrArg Prod.snd hpair
  obtain ⟨hbytes, bb, happ, hclosed⟩ := close_eq hclose
  refine ⟨?_, hbytes, bb, happ, ?_⟩
  · rw [← hok, hfit]
    rfl
  · rw [← hd', hclosed, hjoin, if_neg (by decide)]

/-- The first instruction of a block is never one that does not fit. -/
theorem flush_overflows_not_first {r : TraceDecoder × Bool} (hne : d.transbuf ≠ []) (hover : d.overflows = true)
    (h : d.flush = some r) : d.ripstart ≠ d.bb.rip := by
  rw [flush, if_neg hne, makeRoom, if_pos hover] at h
  obtain ⟨room, hroom, -⟩ := Option.bind_eq_some_iff.1 h
  exact (split_eq hroom).1 rfl

/-- The flush of a buffer that does not fit: the block is split before its instruction. The
uops of the block are those of `front` and, last, the instruction `g` of `bytes` bytes. -/
theorem flush_overflows {ok : Bool} {front g : List BlockUop} {bytes : ℕ} (hne : d.transbuf ≠ [])
    (hover : d.overflows = true) (htransops : d.bb.transops = front ++ g) (hg : WholeInsn bytes g)
    (hlt : bytes < 2 ^ 64) (h : d.flush = some (d', ok)) :
    ok = false ∧
      ∃ opened : TraceDecoder, opened.transbuf = [collcc, splitBranch d.ripstart] ∧
        opened.joinWithPrevInsn = true ∧ d'.bb.transops = front ++ (g.map reopened ++ opened.marked bytes) ∧
        d'.bb.rip = d.bb.rip ∧ d'.bb.bytes = d.bb.bytes ∧ d'.bb.userInsnCount = d.bb.userInsnCount ∧
        d'.bb.brtype = .split := by
  rw [flush, if_neg hne, makeRoom, if_pos hover] at h
  obtain ⟨room, hroom, h⟩ := Option.bind_eq_some_iff.1 h
  obtain ⟨-, flag, rfl⟩ := split_eq hroom
  obtain ⟨opened, hopen, h⟩ := Option.bind_eq_some_iff.1 h
  obtain ⟨closed, hclose, h⟩ := Option.bind_eq_some_iff.1 h
  have hpair := Option.some.inj h
  have hd' : closed = d' := congrArg Prod.fst hpair
  have hok : (!d.overflows) = ok := congrArg Prod.snd hpair
  have hloop := reopenLoop_whole hg front
  rw [← htransops] at hloop
  unfold reopen at hopen
  dsimp only at hopen
  rw [hloop, Bool.not_false, if_pos rfl] at hopen
  split at hopen
  · cases hopen
  · have hopened := Option.some.inj hopen
    obtain ⟨-, bb, happ, hclosed⟩ := close_eq hclose
    have hbytes : (opened.rip - opened.ripstart).toNat = bytes := by
      rw [← hopened]
      dsimp only
      rw [sub_sub_cancel, BitVec.toNat_ofNat, Nat.mod_eq_of_lt hlt]
    have hjoin : opened.joinWithPrevInsn = true := by rw [← hopened]
    rw [hbytes] at happ
    rw [hjoin, if_pos rfl] at hclosed
    refine ⟨?_, opened, ?_, hjoin, ?_, ?_, ?_, ?_, ?_⟩
    · rw [← hok, hover]
      rfl
    · rw [← hopened]
      rfl
    · rw [← hd', hclosed]
      dsimp only
      rw [happ.transops, ← hopened]
      simp
    · rw [← hd', hclosed]
      dsimp only
      rw [happ.rip, ← hopened]
    · rw [← hd', hclosed]
      dsimp only
      rw [happ.bytes, ← hopened]
    · rw [← hd', hclosed]
      dsimp only
      rw [happ.userInsnCount, ← hopened]
    · rw [← hd', hclosed]
      dsimp only
      rw [happ.brtype, ← hopened]

end TraceDecoder

/-! ### The block after some instructions -/

/-- What `flush` leaves of a uop: all but its place in the instruction and the block. -/
def plain (u : TransOp) : TransOp :=
  { u with unaligned := false, bytes := 0, som := false, eom := false, isX87 := false, isSse := false }

/-- The uops of a block, as they were put. -/
def plainUops (g : List BlockUop) : List TransOp := g.map fun u => plain u.toTransOp

theorem plainUops_marked (d : TraceDecoder) (bytes : ℕ) : plainUops (d.marked bytes) = d.transbuf.map plain := by
  have hmark : (fun u : TransOp × ℕ => plain (d.mark bytes u.1 u.2).toTransOp) = plain ∘ Prod.fst := rfl
  rw [plainUops, TraceDecoder.marked, List.map_map]
  have hcomp : ((fun u : BlockUop => plain u.toTransOp) ∘ fun u : TransOp × ℕ => d.mark bytes u.1 u.2) =
      plain ∘ Prod.fst := hmark
  rw [hcomp, ← List.map_map, List.zipIdx_map_fst]

theorem plainUops_reopened (g : List BlockUop) : plainUops (g.map reopened) = plainUops g := by
  rw [plainUops, List.map_map]
  rfl

/-- `g` is instruction `insn`, and perhaps what closes the block. -/
structure Holds (insn : Insn) (g : List BlockUop) : Prop where
  whole : WholeInsn insn.length g
  uops : ∃ closing, plainUops g = insn.uops.map plain ++ closing

/-- `g` is instruction `insn` and nothing else. -/
structure Kept (insn : Insn) (g : List BlockUop) : Prop where
  whole : WholeInsn insn.length g
  uops : plainUops g = insn.uops.map plain

theorem Kept.holds {insn : Insn} {g : List BlockUop} (h : Kept insn g) : Holds insn g :=
  ⟨h.whole, [], by rw [h.uops, List.append_nil]⟩

theorem Kept.rd_ne {insn : Insn} {g : List BlockUop} (h : Kept insn g) {r : Reg}
    (hrd : ∀ u ∈ insn.uops, u.rd ≠ r) : ∀ u ∈ g, u.rd ≠ r := by
  intro u hu hur
  have hmem : plain u.toTransOp ∈ insn.uops.map plain := by
    rw [← h.uops]
    exact List.mem_map_of_mem hu
  obtain ⟨v, hv, hvu⟩ := List.mem_map.1 hmem
  apply hrd v hv
  have hrd' : (plain v).rd = (plain u.toTransOp).rd := congrArg TransOp.rd hvu
  exact hrd'.trans hur

/-- The bytes of some instructions. -/
def insnBytes (insns : List Insn) : ℕ := (insns.map Insn.length).sum

/-- The rip of instruction `k` of those decoded from `rip` on. -/
def insnRip (rip : W64) (insns : List Insn) (k : ℕ) : W64 := rip + BitVec.ofNat 64 (insnBytes (insns.take k))

/-- The uops of the block are those of the first instructions, one after another. -/
structure Shaped (insns : List Insn) (bb : TraceBlock) : Prop where
  count : bb.count ≤ MAX_BB_UOPS
  groups : ∃ groups, bb.transops = groups.flatten ∧ bb.userInsnCount = groups.length ∧
    List.Forall₂ Holds (insns.take bb.userInsnCount) groups
  bytes : bb.bytes = insnBytes (insns.take bb.userInsnCount)

/-- The block closed by a split ends in a branch to the first instruction not in it. -/
def SplitRight (insns : List Insn) (bb : TraceBlock) : Prop :=
  bb.brtype = .split → ∃ front last, bb.transops = front ++ [last] ∧ last.opcode = .opBru ∧
    last.riptaken = insnRip bb.rip insns bb.userInsnCount

/-- The block holds the instructions `done`, whole, and there is room for a split. -/
structure Collected (done : List Insn) (groups : List (List BlockUop)) (bb : TraceBlock) : Prop where
  transops : bb.transops = groups.flatten
  kept : List.Forall₂ Kept done groups
  userInsnCount : bb.userInsnCount = groups.length
  bytes : bb.bytes = insnBytes done
  short : ∀ insn ∈ done, insn.length ≤ 15
  quiet : ∀ g ∈ groups, ∀ u ∈ g, u.rd ≠ Reg.rip
  count : bb.count ≤ MAX_BB_UOPS - 3

/-- The decoder between two instructions. -/
structure Between (done : List Insn) (groups : List (List BlockUop)) (d : TraceDecoder) : Prop where
  collected : Collected done groups d.bb
  transbuf : d.transbuf = []
  rip : d.rip = d.bb.rip + BitVec.ofNat 64 d.bb.bytes
  join : d.joinWithPrevInsn = false
  endOfBlock : d.endOfBlock = false
  brtype : d.bb.brtype ≠ .split

/-- The decoder with an instruction in the buffer, and perhaps what closes the block. -/
structure Loaded (done : List Insn) (groups : List (List BlockUop)) (insn : Insn) (closing : List TransOp)
    (d : TraceDecoder) : Prop where
  collected : Collected done groups d.bb
  transbuf : d.transbuf = insn.uops ++ closing
  ripstart : d.ripstart = d.bb.rip + BitVec.ofNat 64 d.bb.bytes
  rip : d.rip = d.ripstart + BitVec.ofNat 64 insn.length
  join : d.joinWithPrevInsn = false
  fresh : ∀ u ∈ closing, u.som = false ∧ u.eom = false

theorem insnBytes_append (done : List Insn) (insn : Insn) :
    insnBytes (done ++ [insn]) = insnBytes done + insn.length := by
  rw [insnBytes, insnBytes, List.map_append, List.sum_append]
  simp

theorem splitBranch_fresh (target : W64) :
    ∀ u ∈ [TraceDecoder.collcc, TraceDecoder.splitBranch target], u.som = false ∧ u.eom = false := by
  intro u hu
  simp only [List.mem_cons, List.not_mem_nil, or_false] at hu
  rcases hu with rfl | rfl
  · exact ⟨rfl, rfl⟩
  · exact ⟨rfl, rfl⟩

section Flush

variable {done : List Insn} {groups : List (List BlockUop)} {insn : Insn} {closing : List TransOp}
  {d d' : TraceDecoder} {ok : Bool}

theorem Loaded.ne_nil (h : Loaded done groups insn closing d) : d.transbuf ≠ [] := by
  rw [h.transbuf]
  exact List.append_ne_nil_of_left_ne_nil insn.nonempty closing

theorem Loaded.fresh_all (h : Loaded done groups insn closing d) : ∀ u ∈ d.transbuf, u.som = false ∧ u.eom = false := by
  intro u hu
  rw [h.transbuf] at hu
  rcases List.mem_append.1 hu with hu | hu
  · exact insn.fresh u hu
  · exact h.fresh u hu

theorem Loaded.length_eq (h : Loaded done groups insn closing d) : (d.rip - d.ripstart).toNat = insn.length := by
  rw [h.rip, add_sub_cancel_left, BitVec.toNat_ofNat, Nat.mod_eq_of_lt insn.length_lt]

/-- What a block has grown by when the buffer fits. -/
theorem Loaded.fits (h : Loaded done groups insn closing d) (hfit : d.overflows = false)
    (hflush : d.flush = some (d', ok)) :
    ok = true ∧ insn.length ≤ 15 ∧ WholeInsn insn.length (d.marked insn.length) ∧
      d'.bb.transops = d.bb.transops ++ d.marked insn.length ∧ d'.bb.rip = d.bb.rip ∧
      d'.bb.bytes = d.bb.bytes + insn.length ∧ d'.bb.userInsnCount = d.bb.userInsnCount + 1 ∧
      d'.bb.brtype = d.bb.brtype ∧ d'.bb.count ≤ MAX_BB_UOPS - 3 ∧ d'.transbuf = [] ∧ d'.rip = d.rip ∧
      d'.joinWithPrevInsn = false ∧ d'.endOfBlock = d.endOfBlock := by
  obtain ⟨hok, hbytes, bb, happ, rfl⟩ := TraceDecoder.flush_fits h.ne_nil h.join hfit hflush
  rw [h.length_eq] at hbytes happ ⊢
  have hlen : (d.marked insn.length).length = d.transbuf.length := by
    rw [TraceDecoder.marked, List.length_map, List.length_zipIdx]
  have hcount : bb.transops.length ≤ MAX_BB_UOPS - 3 := by
    have hroom : ¬ (MAX_BB_UOPS - 2 : ℤ) - d.bb.count ≤ d.transbuf.length := by
      rw [TraceDecoder.overflows, decide_eq_false_iff_not] at hfit
      exact hfit
    rw [happ.transops, List.length_append, hlen]
    rw [TraceBlock.count] at hroom
    have hmax : MAX_BB_UOPS = 63 := rfl
    omega
  refine ⟨hok, hbytes, marked_whole h.fresh_all h.ne_nil h.join, happ.transops, happ.rip, ?_, ?_, happ.brtype,
    hcount, rfl, rfl, h.join, rfl⟩
  · dsimp only
    rw [happ.bytes]
  · dsimp only
    rw [happ.userInsnCount]

/-- An instruction that fits and is not the last one. -/
theorem Loaded.between (h : Loaded done groups insn [] d) (hquiet : ∀ u ∈ insn.uops, u.rd ≠ Reg.rip)
    (hend : d.endOfBlock = false) (hbrtype : d.bb.brtype ≠ .split) (hfit : d.overflows = false)
    (hflush : d.flush = some (d', ok)) :
    ok = true ∧ Between (done ++ [insn]) (groups ++ [d.marked insn.length]) d' := by
  obtain ⟨hok, hshort, hwhole, htransops, hrip, hbytes, hinsns, hbr, hcount, hbuf, hdrip, hjoin, hendOfBlock⟩ :=
    h.fits hfit hflush
  have hkept : Kept insn (d.marked insn.length) := by
    refine ⟨hwhole, ?_⟩
    rw [plainUops_marked, h.transbuf, List.append_nil]
  have hbytes' : d'.bb.bytes = insnBytes (done ++ [insn]) := by
    rw [hbytes, h.collected.bytes, insnBytes_append]
  refine ⟨hok, ⟨?_, List.rel_append h.collected.kept (.cons hkept .nil), ?_, hbytes', ?_, ?_, hcount⟩, hbuf, ?_, hjoin,
    hendOfBlock.trans hend, ?_⟩
  · rw [htransops, h.collected.transops]
    simp
  · rw [hinsns, h.collected.userInsnCount]
    simp
  · intro i hi
    rcases List.mem_append.1 hi with hi | hi
    · exact h.collected.short i hi
    · rw [List.mem_singleton.1 hi]
      exact hshort
  · intro g hg
    rcases List.mem_append.1 hg with hg | hg
    · exact h.collected.quiet g hg
    · rw [List.mem_singleton.1 hg]
      exact hkept.rd_ne hquiet
  · have hword : BitVec.ofNat 64 (d.bb.bytes + insn.length) = BitVec.ofNat 64 d.bb.bytes + BitVec.ofNat 64 insn.length :=
      BitVec.ofNat_add _ _
    rw [hdrip, h.rip, h.ripstart, hrip, hbytes, hword, add_assoc]
  · rw [hbr]
    exact hbrtype

/-- An instruction that fits and is the last one. -/
theorem Loaded.shaped (h : Loaded done groups insn closing d) (hfit : d.overflows = false)
    (hflush : d.flush = some (d', ok)) : Shaped (done ++ [insn]) d'.bb := by
  obtain ⟨-, -, hwhole, htransops, -, hbytes, hinsns, -, hcount, -⟩ := h.fits hfit hflush
  have hholds : Holds insn (d.marked insn.length) := by
    refine ⟨hwhole, closing.map plain, ?_⟩
    rw [plainUops_marked, h.transbuf, List.map_append]
  have hlen := h.collected.kept.length_eq
  have htake : (done ++ [insn]).take d'.bb.userInsnCount = done ++ [insn] := by
    apply List.take_of_length_le
    rw [hinsns, h.collected.userInsnCount, List.length_append, hlen]
    rfl
  refine ⟨?_, ⟨groups ++ [d.marked insn.length], ?_, ?_, ?_⟩, ?_⟩
  · have hmax : MAX_BB_UOPS = 63 := rfl
    omega
  · rw [htransops, h.collected.transops]
    simp
  · rw [hinsns, h.collected.userInsnCount]
    simp
  · rw [htake]
    exact List.rel_append (h.collected.kept.imp fun _ _ hk => hk.holds) (.cons hholds .nil)
  · rw [htake, hbytes, h.collected.bytes, insnBytes_append]

/-- The block after an instruction that does not fit. -/
theorem Loaded.overflows (h : Loaded done groups insn closing d) (hover : d.overflows = true)
    (hflush : d.flush = some (d', ok)) :
    ok = false ∧ d'.bb.rip = d.bb.rip ∧ Shaped (done ++ [insn]) d'.bb ∧ SplitRight (done ++ [insn]) d'.bb := by
  have hnonempty : groups ≠ [] := by
    rintro rfl
    apply TraceDecoder.flush_overflows_not_first h.ne_nil hover hflush
    have hdone : done = [] := List.forall₂_nil_right_iff.1 h.collected.kept
    have hbytes : d.bb.bytes = 0 := by
      rw [h.collected.bytes, hdone]
      rfl
    rw [h.ripstart, hbytes]
    simp
  obtain ⟨front, g, rfl⟩ : ∃ front g, groups = front ++ [g] :=
    ⟨groups.dropLast, groups.getLast hnonempty, (List.dropLast_append_getLast hnonempty).symm⟩
  have hlen := h.collected.kept.length_eq
  have hcount := h.collected.userInsnCount
  -- the instruction before the one that does not fit
  obtain ⟨before, prev, rfl, hfront, hprev⟩ : ∃ before prev, done = before ++ [prev] ∧
      List.Forall₂ Kept before front ∧ Kept prev g := by
    have htake := List.forall₂_take_append _ _ _ h.collected.kept
    have hdrop := List.forall₂_drop_append _ _ _ h.collected.kept
    obtain ⟨prev, rest, hp, hrest, hcons⟩ := List.forall₂_cons_right_iff.1 hdrop
    rw [List.forall₂_nil_right_iff] at hrest
    refine ⟨_, prev, ?_, htake, hp⟩
    rw [← hrest, ← hcons, List.take_append_drop]
  have hshort : prev.length ≤ 15 := h.collected.short prev (by simp)
  have htransops : d.bb.transops = front.flatten ++ g := by
    rw [h.collected.transops]
    simp
  obtain ⟨hok, opened, hbuf, hjoin, htransops', hrip, hbytes, hinsns, hbr⟩ :=
    TraceDecoder.flush_overflows h.ne_nil hover htransops hprev.whole (by omega) hflush
  have hfresh : ∀ u ∈ opened.transbuf, u.som = false ∧ u.eom = false := by
    rw [hbuf]
    exact splitBranch_fresh _
  have hne : opened.transbuf ≠ [] := by
    rw [hbuf]
    exact List.cons_ne_nil _ _
  have hwhole : WholeInsn prev.length (g.map reopened ++ opened.marked prev.length) := by
    apply hprev.whole.join hfresh hne hjoin
    rintro r hr ⟨u, hu, rfl⟩
    rw [hbuf] at hu
    simp only [List.mem_cons, List.not_mem_nil, or_false] at hu
    rcases hu with rfl | rfl
    · exact absurd hr (by decide)
    · exact h.collected.quiet g (by simp)
  have hholds : Holds prev (g.map reopened ++ opened.marked prev.length) := by
    refine ⟨hwhole, plainUops (opened.marked prev.length), ?_⟩
    rw [plainUops, List.map_append, ← plainUops, ← plainUops, plainUops_reopened, hprev.uops]
  have htake : (before ++ [prev] ++ [insn]).take d'.bb.userInsnCount = before ++ [prev] := by
    rw [hinsns, hcount, ← hlen]
    exact List.take_left
  have hmarked := @marked_eq opened prev.length [TraceDecoder.collcc] [] (TraceDecoder.splitBranch d.ripstart) hbuf
  refine ⟨hok, hrip, ⟨?_, ⟨front ++ [g.map reopened ++ opened.marked prev.length], ?_, ?_, ?_⟩, ?_⟩, ?_⟩
  · have hroom := h.collected.count
    have hmax : MAX_BB_UOPS = 63 := rfl
    have hmarkedLength : (opened.marked prev.length).length = 2 := by
      rw [hmarked]
      rfl
    rw [TraceBlock.count, htransops, List.length_append] at hroom
    rw [TraceBlock.count, htransops', List.length_append, List.length_append, List.length_map, hmarkedLength]
    omega
  · rw [htransops']
    simp
  · rw [hinsns, hcount]
    simp
  · rw [htake]
    exact List.rel_append (hfront.imp fun _ _ hk => hk.holds) (.cons hholds .nil)
  · rw [htake, hbytes, h.collected.bytes]
  · rintro -
    refine ⟨front.flatten ++ (g.map reopened ++ markFrom opened prev.length [TraceDecoder.collcc] 0),
      opened.mark prev.length (TraceDecoder.splitBranch d.ripstart) 1, ?_, rfl, ?_⟩
    · rw [htransops', hmarked]
      simp only [List.append_assoc]
      rfl
    · rw [insnRip, htake, hrip, ← h.collected.bytes, ← h.ripstart]
      rfl

end Flush

/-! ### Runs -/

/-- What a finished block is: whole instructions, up to the one at the rip after its bytes. -/
structure Finished (start : W64) (insns : List Insn) (bb : TraceBlock) : Prop where
  rip : bb.rip = start
  shaped : Shaped insns bb
  next : bb.rip + BitVec.ofNat 64 bb.bytes = insnRip start insns bb.userInsnCount
  splitRight : SplitRight insns bb

/-- Only the branches that end a block write the instruction pointer. -/
def WritesRip (insn : Insn) : Prop := ∃ u ∈ insn.uops, u.rd = Reg.rip

section Translate

variable {done : List Insn} {groups : List (List BlockUop)} {insn : Insn} {d d' : TraceDecoder} {ok : Bool}

theorem Collected.branchTo {bb : TraceBlock} (h : Collected done groups bb) (branch : Option BlockBranch) :
    Collected done groups (bb.branchTo branch) := by
  cases branch with
  | none => exact h
  | some b => exact ⟨h.transops, h.kept, h.userInsnCount, h.bytes, h.short, h.quiet, h.count⟩

/-- The instruction is in the buffer. -/
theorem Between.loaded (h : Between done groups d) (hdecode : d.decode insn = some d') :
    Loaded done groups insn [] d' ∧ d'.bb.rip = d.bb.rip ∧ d'.endOfBlock = insn.endOfBlock ∧
      d'.bb.brtype ≠ .split := by
  rw [TraceDecoder.decode] at hdecode
  obtain ⟨d₁, hput, hdecode⟩ := Option.bind_eq_some_iff.1 hdecode
  obtain ⟨flag, rfl⟩ := TraceDecoder.foldlM_put_eq hput
  rw [← Option.some.inj hdecode]
  have hfields : ∀ branch, (d.bb.branchTo branch).rip = d.bb.rip ∧ (d.bb.branchTo branch).bytes = d.bb.bytes := by
    intro branch
    cases branch with
    | none => exact ⟨rfl, rfl⟩
    | some b => exact ⟨rfl, rfl⟩
  refine ⟨⟨h.collected.branchTo insn.branch, ?_, ?_, ?_, h.join, ?_⟩, (hfields insn.branch).1, ?_, ?_⟩
  · dsimp only
    rw [h.transbuf, List.nil_append, List.append_nil]
  · dsimp only
    rw [h.rip, (hfields insn.branch).1, (hfields insn.branch).2]
  · dsimp only
  · intro u hu
    exact absurd hu List.not_mem_nil
  · dsimp only
    rw [h.endOfBlock, Bool.false_or]
  · dsimp only
    have hsplit := insn.notSplit
    cases hbranch : insn.branch with
    | none => exact h.brtype
    | some b => exact hsplit b (hbranch ▸ rfl)

theorem Shaped.finished {bb : TraceBlock} {insns : List Insn} (h : Shaped insns bb) (hsplit : SplitRight insns bb) :
    Finished bb.rip insns bb := by
  refine ⟨rfl, h, ?_, hsplit⟩
  rw [insnRip, ← h.bytes]

/-- Instructions after the block's own do not matter to it. -/
theorem Finished.append {start : W64} {bb : TraceBlock} {insns : List Insn} (h : Finished start insns bb)
    (rest : List Insn) : Finished start (insns ++ rest) bb := by
  obtain ⟨groups, htransops, hcount, hholds⟩ := h.shaped.groups
  have hle : bb.userInsnCount ≤ insns.length := by
    have hlen := hholds.length_eq
    rw [List.length_take, ← hcount] at hlen
    omega
  have htake : (insns ++ rest).take bb.userInsnCount = insns.take bb.userInsnCount :=
    List.take_append_of_le_length hle
  refine ⟨h.rip, ⟨h.shaped.count, ⟨groups, htransops, hcount, ?_⟩, ?_⟩, ?_, ?_⟩
  · rw [htake]
    exact hholds
  · rw [htake]
    exact h.shaped.bytes
  · rw [h.next, insnRip, insnRip, htake]
  · intro hbrtype
    obtain ⟨front, last, heq, hbru, htarget⟩ := h.splitRight hbrtype
    refine ⟨front, last, heq, hbru, ?_⟩
    rw [htarget, insnRip, insnRip, htake]

/-- The flush that ends a block. -/
theorem Loaded.finished {closing : List TransOp} (h : Loaded done groups insn closing d)
    (hfits : d.overflows = false → SplitRight (done ++ [insn]) d'.bb) (hflush : d.flush = some (d', ok)) :
    Finished d.bb.rip (done ++ [insn]) d'.bb := by
  by_cases hover : d.overflows = true
  · obtain ⟨-, hrip, hshaped, hsplit⟩ := h.overflows hover hflush
    rw [← hrip]
    exact hshaped.finished hsplit
  · have hfit : d.overflows = false := by simpa using hover
    obtain ⟨-, -, -, -, hrip, -⟩ := h.fits hfit hflush
    rw [← hrip]
    exact (h.shaped hfit hflush).finished (hfits hfit)

/-- A block that is not split after an instruction that fits. -/
theorem Loaded.splitRight_of_ne {closing : List TransOp} (h : Loaded done groups insn closing d)
    (hbrtype : d.bb.brtype ≠ .split) (hflush : d.flush = some (d', ok)) (hfit : d.overflows = false) :
    SplitRight (done ++ [insn]) d'.bb := by
  obtain ⟨-, -, -, -, -, -, -, hbr, -⟩ := h.fits hfit hflush
  intro hsplit
  rw [hbr] at hsplit
  exact absurd hsplit hbrtype

/-- The split after an instruction joins its two uops to it. -/
theorem Loaded.split {d₁ : TraceDecoder} {closing : List TransOp} (h : Loaded done groups insn closing d)
    (hsplit : d.split true = some d₁) :
    Loaded done groups insn (closing ++ [TraceDecoder.collcc, TraceDecoder.splitBranch d.rip]) d₁ ∧
      d₁.bb.rip = d.bb.rip := by
  obtain ⟨-, flag, rfl⟩ := TraceDecoder.split_eq hsplit
  have hc := h.collected
  refine ⟨⟨⟨hc.transops, hc.kept, hc.userInsnCount, hc.bytes, hc.short, hc.quiet, hc.count⟩, ?_, h.ripstart, h.rip,
    rfl, ?_⟩, rfl⟩
  · dsimp only
    rw [h.transbuf, List.append_assoc]
    rfl
  · intro u hu
    rcases List.mem_append.1 hu with hu | hu
    · exact h.fresh u hu
    · exact splitBranch_fresh _ u hu

/-- The block that a split after its last instruction ends. -/
theorem Loaded.splitRight_of_fits {closing : List TransOp}
    (h : Loaded done groups insn (closing ++ [TraceDecoder.collcc, TraceDecoder.splitBranch d.rip]) d)
    (hflush : d.flush = some (d', ok)) (hfit : d.overflows = false) : SplitRight (done ++ [insn]) d'.bb := by
  obtain ⟨-, -, -, htransops, hrip, hbytes, hinsns, -⟩ := h.fits hfit hflush
  obtain ⟨front, hbuf⟩ : ∃ front, d.transbuf = front ++ TraceDecoder.splitBranch d.rip :: [] := by
    refine ⟨insn.uops ++ (closing ++ [TraceDecoder.collcc]), ?_⟩
    rw [h.transbuf]
    simp
  have hmarked := @marked_eq d insn.length _ [] _ hbuf
  have hlen := h.collected.kept.length_eq
  have htake : (done ++ [insn]).take d'.bb.userInsnCount = done ++ [insn] := by
    apply List.take_of_length_le
    rw [hinsns, h.collected.userInsnCount, List.length_append, hlen]
    rfl
  rintro -
  refine ⟨d.bb.transops ++ markFrom d insn.length front 0,
    d.mark insn.length (TraceDecoder.splitBranch d.rip) front.length, ?_, rfl, ?_⟩
  · rw [htransops, hmarked, List.append_assoc]
    rfl
  · have htarget : (d.mark insn.length (TraceDecoder.splitBranch d.rip) front.length).riptaken = d.rip := rfl
    have hword : BitVec.ofNat 64 (d.bb.bytes + insn.length) =
        BitVec.ofNat 64 d.bb.bytes + BitVec.ofNat 64 insn.length := BitVec.ofNat_add _ _
    rw [htarget, insnRip, htake, insnBytes_append, ← h.collected.bytes, hword, ← add_assoc, hrip, ← h.ripstart, h.rip]

/-- **One instruction** goes into the block whole, or ends it. -/
theorem Between.translate (h : Between done groups d) (hrip : WritesRip insn → insn.endOfBlock = true)
    (ht : d.translate insn = some (d', ok)) :
    (ok = true → d'.bb.rip = d.bb.rip ∧ ∃ g, Between (done ++ [insn]) (groups ++ [g]) d') ∧
      (ok = false → Finished d.bb.rip (done ++ [insn]) d'.bb) := by
  rw [TraceDecoder.translate] at ht
  obtain ⟨d₁, hdecode, ht⟩ := Option.bind_eq_some_iff.1 ht
  obtain ⟨hloaded, hstart, hend, hbrtype⟩ := h.loaded hdecode
  rw [← hstart]
  split at ht
  · -- the instruction ends the block
    obtain ⟨r, hflush, ht⟩ := Option.bind_eq_some_iff.1 ht
    obtain ⟨rfl, rfl⟩ := Prod.mk.inj (Option.some.inj ht)
    exact ⟨nofun, fun _ => hloaded.finished (hloaded.splitRight_of_ne hbrtype hflush) hflush⟩
  · rename_i hopen
    split at ht
    · -- the block is long enough
      obtain ⟨d₂, hcollect, ht⟩ := Option.bind_eq_some_iff.1 ht
      obtain ⟨d₃, hsplit, ht⟩ := Option.bind_eq_some_iff.1 ht
      obtain ⟨r, hflush, ht⟩ := Option.bind_eq_some_iff.1 ht
      obtain ⟨rfl, rfl⟩ := Prod.mk.inj (Option.some.inj ht)
      obtain ⟨closing, hloaded₂, hstart₂⟩ : ∃ closing, Loaded done groups insn closing d₂ ∧ d₂.bb.rip = d₁.bb.rip := by
        rw [TraceDecoder.collect] at hcollect
        split at hcollect
        · obtain rfl : d₁ = d₂ := Option.some.inj hcollect
          exact ⟨[], hloaded, rfl⟩
        · obtain ⟨flag, rfl⟩ := TraceDecoder.put_eq hcollect
          refine ⟨[TraceDecoder.collcc], ⟨hloaded.collected, ?_, hloaded.ripstart, hloaded.rip, hloaded.join, ?_⟩, rfl⟩
          · dsimp only
            rw [hloaded.transbuf, List.append_nil]
          · intro u hu
            rw [List.mem_singleton.1 hu]
            exact ⟨rfl, rfl⟩
      obtain ⟨hloaded₃, hstart₃⟩ := hloaded₂.split hsplit
      have hsame : d₂.rip = d₃.rip := by
        obtain ⟨-, flag, rfl⟩ := TraceDecoder.split_eq hsplit
        rfl
      rw [hsame] at hloaded₃
      rw [← hstart₂, ← hstart₃]
      exact ⟨nofun, fun _ => hloaded₃.finished (hloaded₃.splitRight_of_fits hflush) hflush⟩
    · have hstay : d₁.endOfBlock = false := by simpa using hopen
      by_cases hover : d₁.overflows = true
      · obtain ⟨hok, -, -, -⟩ := hloaded.overflows hover ht
        refine ⟨fun htrue => ?_, fun _ => hloaded.finished (hloaded.splitRight_of_ne hbrtype ht) ht⟩
        rw [hok] at htrue
        cases htrue
      · have hfit : d₁.overflows = false := by simpa using hover
        -- an instruction that writes `rip` would have ended the block
        have hquiet : ∀ u ∈ insn.uops, u.rd ≠ Reg.rip := by
          intro u hu hur
          have hends := hrip ⟨u, hu, hur⟩
          rw [← hend, hstay] at hends
          cases hends
        obtain ⟨hok, hbetween⟩ := hloaded.between hquiet hstay hbrtype hfit ht
        obtain ⟨-, -, -, -, hsame, -⟩ := hloaded.fits hfit ht
        refine ⟨fun _ => ⟨hsame, _, hbetween⟩, fun hfalse => ?_⟩
        rw [hok] at hfalse
        cases hfalse

end Translate

/-- **A run** keeps the instructions whole until the block is finished. -/
theorem Between.run {done : List Insn} {groups : List (List BlockUop)} {d d' : TraceDecoder} (insns : List Insn)
    (h : Between done groups d) (hrip : ∀ insn ∈ insns, WritesRip insn → insn.endOfBlock = true)
    (hrun : d.run insns = some (d', false)) : Finished d.bb.rip (done ++ insns) d'.bb := by
  induction insns generalizing done groups d with
  | nil =>
    have hpair := Option.some.inj hrun
    cases congrArg Prod.snd hpair
  | cons insn insns ih =>
    rw [TraceDecoder.run] at hrun
    obtain ⟨r, htranslate, hrun⟩ := Option.bind_eq_some_iff.1 hrun
    obtain ⟨hgoes, hfinished⟩ := h.translate (hrip insn List.mem_cons_self) htranslate
    have happend : done ++ insn :: insns = done ++ [insn] ++ insns := by simp
    rw [happend]
    split at hrun
    · rename_i hok
      obtain ⟨hsame, g, hbetween⟩ := hgoes hok
      rw [← hsame]
      exact ih hbetween (fun i hi => hrip i (List.mem_cons_of_mem insn hi)) hrun
    · have hr : r = (d', false) := Option.some.inj hrun
      rw [hr] at hfinished
      exact (hfinished rfl).append insns

theorem between_init (rip : W64) (insnbytesBufsize validByteCount : ℕ) :
    Between [] [] (TraceDecoder.init rip insnbytesBufsize validByteCount) := by
  refine ⟨⟨rfl, .nil, rfl, rfl, ?_, ?_, ?_⟩, rfl, ?_, rfl, rfl, ?_⟩
  · intro insn hinsn
    exact absurd hinsn List.not_mem_nil
  · intro g hg
    exact absurd hg List.not_mem_nil
  · exact Nat.zero_le _
  · exact (BitVec.add_zero rip).symm
  · exact BrType.noConfusion

/-- **A finished block** holds whole instructions, the first ones decoded from its rip, and
ends where the next one starts. -/
theorem finished_block (rip : W64) (insnbytesBufsize validByteCount : ℕ) (insns : List Insn) {d : TraceDecoder}
    (hrip : ∀ insn ∈ insns, WritesRip insn → insn.endOfBlock = true)
    (hrun : (TraceDecoder.init rip insnbytesBufsize validByteCount).run insns = some (d, false)) :
    Finished rip insns d.bb :=
  (between_init rip insnbytesBufsize validByteCount).run insns hrip hrun

/-! ### Writers of the instruction pointer -/

/-- A block's uops from a start of an instruction on that no other follows are its last
instruction. -/
theorem Shaped.last {insns : List Insn} {bb : TraceBlock} (h : Shaped insns bb) {front rest : List BlockUop}
    {first : BlockUop} (heq : bb.transops = front ++ first :: rest) (hfirst : first.som = true)
    (hrest : ∀ u ∈ rest, u.som = false) : ∃ bytes, WholeInsn bytes (first :: rest) := by
  obtain ⟨groups, htransops, -, hholds⟩ := h.groups
  have hnonempty : groups ≠ [] := by
    rintro rfl
    rw [heq] at htransops
    exact List.append_ne_nil_of_right_ne_nil front (List.cons_ne_nil first rest) htransops
  obtain ⟨front', g, rfl⟩ : ∃ front g, groups = front ++ [g] :=
    ⟨groups.dropLast, groups.getLast hnonempty, (List.dropLast_append_getLast hnonempty).symm⟩
  have hdrop := List.forall₂_drop_append _ _ _ hholds
  obtain ⟨insn, _, hg, -, -⟩ := List.forall₂_cons_right_iff.1 hdrop
  obtain ⟨first', rest', hcons, hfirst', hrest'⟩ := hg.whole.som
  have hsplit : front ++ first :: rest = front'.flatten ++ first' :: rest' := by
    rw [← heq, htransops, ← hcons]
    simp
  refine ⟨insn.length, ?_⟩
  have hsame : first :: rest = first' :: rest' := by
    rcases List.append_eq_append_iff.1 hsplit with ⟨mid, -, hmid⟩ | ⟨mid, -, hmid⟩
    · cases mid with
      | nil => exact hmid
      | cons u mid =>
        have hin : first' ∈ rest := by
          rw [(List.cons.inj hmid).2]
          exact List.mem_append_right mid List.mem_cons_self
        rw [hrest first' hin] at hfirst'
        cases hfirst'
    · cases mid with
      | nil => exact hmid.symm
      | cons u mid =>
        have hin : first ∈ rest' := by
          rw [(List.cons.inj hmid).2]
          exact List.mem_append_right mid List.mem_cons_self
        rw [hrest' first hin] at hfirst
        cases hfirst
  rw [hsame, ← hcons]
  exact hg.whole

/-- The marked uop of an instruction that another writer follows is not final. -/
theorem not_lastWriter {r : Reg} {first last : BlockUop} {rest : List BlockUop} (hrd : first.rd = r)
    (hfinal : first.finalArchInInsn = true) (hlast : last ∈ rest) (hrd' : last.rd = r) :
    ¬ LastWriter r (first :: rest) := by
  rintro ⟨before, u, after, heq, -, -, hafter, hbefore⟩
  cases before with
  | nil =>
    rw [List.nil_append, List.cons.injEq] at heq
    exact hafter last (heq.2 ▸ hlast) hrd'
  | cons v before =>
    rw [List.cons_append, List.cons.injEq] at heq
    have hnot := hbefore first (by rw [heq.1]; exact List.mem_cons_self) hrd
    rw [hfinal] at hnot
    cases hnot

/-- One uop, again and again. -/
def repeated (u : TransOp) (n : ℕ) (hn : n ≠ 0) (hu : u.som = false ∧ u.eom = false) : Insn where
  uops := List.replicate n u
  length := 1
  endOfBlock := false
  branch := none
  isX87 := false
  isSse := false
  length_lt := by decide
  nonempty := by simpa using hn
  fresh v hv := by rw [List.eq_of_mem_replicate hv]; exact hu
  notSplit b hb := by cases hb

def moveTo (rd : Reg) : TransOp := .init .opMov rd Reg.zero Reg.rax Reg.zero 3 0 0 SetFlags.none

/-- Long instructions, and a short one that writes the instruction pointer before the one that
does not fit. -/
def reopenedWriter : List Insn :=
  let long := repeated (moveTo Reg.rcx) 16 (by decide) (by decide)
  [long, long, long, repeated (moveTo Reg.rip) 1 (by decide) (by decide), long]

theorem reopenedWriter_not_finished :
    ¬ ∀ (rip : W64) (insnbytesBufsize validByteCount : ℕ) (insns : List Insn) (d : TraceDecoder),
      (TraceDecoder.init rip insnbytesBufsize validByteCount).run insns = some (d, false) →
        Finished rip insns d.bb := by
  intro h
  obtain ⟨d, hrun⟩ : ∃ d, (TraceDecoder.init 0x1000 127 127).run reopenedWriter = some (d, false) := by
    have hsome : ((TraceDecoder.init 0x1000 127 127).run reopenedWriter).map Prod.snd = some false := by
      decide +kernel
    obtain ⟨⟨d, ok⟩, hr, hok⟩ := Option.map_eq_some_iff.1 hsome
    exact ⟨d, hr.trans (by rw [← hok])⟩
  have htail : ((TraceDecoder.init 0x1000 127 127).run reopenedWriter).map (fun r =>
      (r.1.bb.transops.drop 48).map fun u => (u.som, u.rd, u.finalArchInInsn)) =
        some [(true, Reg.rip, true), (false, Reg.temp0, false), (false, Reg.rip, true)] := by
    decide +kernel
  rw [hrun, Option.map_some, Option.some.injEq] at htail
  obtain ⟨first, us, hus, hfirst, htail⟩ := List.map_eq_cons_iff.1 htail
  obtain ⟨collcc, vs, rfl, hcollcc, htail⟩ := List.map_eq_cons_iff.1 htail
  obtain ⟨last, ws, rfl, hlast, htail⟩ := List.map_eq_cons_iff.1 htail
  obtain rfl := List.map_eq_nil_iff.1 htail
  simp only [Prod.mk.injEq] at hfirst hcollcc hlast
  have heq : d.bb.transops = d.bb.transops.take 48 ++ first :: [collcc, last] := by
    rw [← hus, List.take_append_drop]
  have hrest : ∀ u ∈ [collcc, last], u.som = false := by
    intro u hu
    simp only [List.mem_cons, List.not_mem_nil, or_false] at hu
    rcases hu with rfl | rfl
    · exact hcollcc.1
    · exact hlast.1
  obtain ⟨bytes, hwhole⟩ := (h _ _ _ _ d hrun).shaped.last heq hfirst.1 hrest
  have hwriter := hwhole.final Reg.rip (by decide) ⟨first, List.mem_cons_self, hfirst.2.1⟩
  exact not_lastWriter hfirst.2.1 hfirst.2.2 (by simp) hlast.2.1 hwriter

/-- Long instructions until one does not fit. -/
def longInsns : List Insn := List.replicate 4 (repeated (moveTo Reg.rcx) 16 (by decide) (by decide))

theorem finished_block_longInsns :
    (∀ insn ∈ longInsns, WritesRip insn → insn.endOfBlock = true) ∧
      ∃ d, (TraceDecoder.init 0x1000 127 127).run longInsns = some (d, false) ∧
        Finished 0x1000 longInsns d.bb := by
  have hrip : ∀ insn ∈ longInsns, WritesRip insn → insn.endOfBlock = true := by
    rintro insn hinsn ⟨u, hu, hur⟩
    rw [List.eq_of_mem_replicate hinsn] at hu
    have hmove : u = moveTo Reg.rcx := List.eq_of_mem_replicate hu
    rw [hmove] at hur
    exact absurd hur (by decide)
  have hsome : ((TraceDecoder.init 0x1000 127 127).run longInsns).map Prod.snd = some false := by
    decide +kernel
  obtain ⟨⟨d, ok⟩, hr, rfl⟩ := Option.map_eq_some_iff.1 hsome
  exact ⟨hrip, d, hr, finished_block 0x1000 127 127 longInsns hrip hr⟩

end X86Sim
