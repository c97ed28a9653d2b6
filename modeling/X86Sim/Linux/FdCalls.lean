import Mathlib.Logic.Relation
import X86Sim.Linux.FdOwnership

/-!
# Descriptor calls keep ownership

Every descriptor call, whatever the host answers and wherever it fails, keeps guest and
host descriptors one to one, takes the lowest number, and touches no other descriptor;
but the first process's table is seeded again when closes have emptied it.

* `Process.owned_of_notEmptied`: in every run whose calls do not find the table emptied.
* `Process.not_owned`: after the three standard descriptors are closed, a new socket
  shares its host descriptor with guest descriptor 0.
-/

namespace X86Sim.Linux

open Fds

/-- The host opens descriptors that are not open, the ends of a pipe being two. -/
structure Fresh (host : HostReplies) (s : Fds) : Prop where
  fd : ∀ call fd, host.fd call = some fd → s.isOpen fd = false
  pipe : ∀ r w, host.pipe = some (r, w) → s.isOpen r = false ∧ s.isOpen w = false ∧ r ≠ w

/-- What a call owes the guest: `close` leaves the other descriptors usable, and the
calls that open one return the lowest unused number. -/
structure CallRight (context : CallRegs) (p : Process) (value : ℤ) (p' : Process) : Prop where
  closes : context.syscallNumber = syscallClose → ∀ g fd, g ≠ (context.syscallArg 0).toNat →
    p.fds.fdTable.table.lookup g = some fd →
      p'.fds.fdTable.table.lookup g = some fd ∧ p'.fds.isOpen fd = true
  opens : context.syscallNumber ∈ [syscallOpen, syscallOpenat, syscallDup, syscallSocket] → 0 ≤ value →
    ∃ g : ℕ, value = g ∧ Lowest p.fds.fdTable.table 0 g ∧ g ∈ p'.fds.table
  dupfd : context.syscallNumber = syscallFcntl →
    context.syscallArg 1 = linuxFDupfd ∨ context.syscallArg 1 = linuxFDupfdCloexec → 0 ≤ value →
      ∃ g : ℕ, value = g ∧ Lowest p.fds.fdTable.table (context.syscallArg 2).toNat g ∧ g ∈ p'.fds.table
  pipes : context.syscallNumber = syscallPipe → 0 ≤ value →
    ∃ r w fd, Lowest p.fds.fdTable.table 0 r ∧ Lowest (p.fds.fdTable.table.insert r fd) 0 w ∧
      r ∈ p'.fds.table ∧ w ∈ p'.fds.table ∧
      p'.space.readRange (context.syscallArg 0).toNat 4 = leBytes r 4 ∧
      p'.space.readRange ((context.syscallArg 0).toNat + 4) 4 = leBytes w 4

/-- A call that hands out no descriptor and is no `close`. -/
theorem CallRight.other {context : CallRegs} {p p' : Process} {value : ℤ}
    (hclose : context.syscallNumber ≠ syscallClose)
    (hfail : value < 0 ∨ context.syscallNumber ∉
        [syscallOpen, syscallOpenat, syscallDup, syscallSocket, syscallPipe] ∧
      (context.syscallNumber = syscallFcntl →
        ¬(context.syscallArg 1 = linuxFDupfd ∨ context.syscallArg 1 = linuxFDupfdCloexec))) :
    CallRight context p value p' := by
  refine ⟨fun h => absurd h hclose, fun hmem hv => ?_, fun hn hc hv => ?_, fun hn hv => ?_⟩
  · rcases hfail with hneg | ⟨hnot, _⟩
    · omega
    · exact absurd (by simp only [List.mem_cons, List.not_mem_nil, or_false] at hmem ⊢; tauto) hnot
  · rcases hfail with hneg | ⟨_, hcmd⟩
    · omega
    · exact absurd hc (hcmd hn)
  · rcases hfail with hneg | ⟨hnot, _⟩
    · omega
    · exact absurd (by simp [hn]) hnot

theorem readCStringLoop_error {space : AddressSpace} {address maxLength fuel total : ℕ}
    {result : List Byte} {error : ℕ}
    (h : readCStringLoop space address maxLength fuel total result = .error error) : 0 < error := by
  induction fuel generalizing total result with
  | zero => cases h; decide
  | succ fuel ih =>
    rw [readCStringLoop] at h
    split at h
    · cases h; decide
    · split at h
      · cases h; decide
      · dsimp only at h
        split at h
        · cases h; decide
        · split at h
          · cases h; exact memoryErrorToLinux_pos _
          · split at h
            · cases h
            · exact ih h

theorem readCString_error {space : AddressSpace} {address error : ℕ}
    (h : readCString space address = .error error) : 0 < error := by
  unfold readCString at h
  split at h
  · cases h; decide
  · exact readCStringLoop_error h

/-! ### One call -/

section Calls

variable {context : CallRegs} {kind : SyscallKind} {host : HostReplies} {p p' : Process} {value : ℤ}

theorem number_of_handles {number : ℕ} (h : handles context kind number = true) :
    context.syscallNumber = number := by
  simp only [handles, Bool.and_eq_true, beq_iff_eq] at h
  exact h.2

/-- What a handler leaves: the ownership, and the guest's due. -/
def Keeps (context : CallRegs) (p : Process) (value : ℤ) (p' : Process) : Prop :=
  p'.fds.Owned ∧ CallRight context p value p'

/-- The end of `open` and `openat`. -/
theorem open_finish {fds : Fds} {call : HostCall}
    (hn : context.syscallNumber = syscallOpen ∨ context.syscallNumber = syscallOpenat)
    (hown : fds.Owned) (hne : fds.NotEmptied) (htable : fds.fdTable = p.fds.fdTable)
    (hfresh : ∀ fd, host.fd call = some fd → fds.isOpen fd = false)
    (h : (match host.fd call with
      | none => (p.withFds fds).fails host.errno
      | some fd =>
        match installNew (fds.hostOpened fd) fd with
        | (none, fds) => (p.withFds fds).fails linuxEmfile
        | (some guestFd, fds) => (p.withFds fds).returnValue guestFd) = some (value, p')) :
    Keeps context p value p' := by
  have hclose : context.syscallNumber ≠ syscallClose := by
    rcases hn with hn | hn <;> rw [hn] <;> decide
  cases hfd : host.fd call with
  | none =>
    rw [hfd] at h
    cases h
    exact ⟨hown, .other hclose (Or.inl (returnError_neg host.errno_pos))⟩
  | some fd =>
    rw [hfd] at h
    dsimp only at h
    rcases installNew_cases (hown.openThenTable hne (hfresh fd hfd)) with
      ⟨s', heq, hs⟩ | ⟨g, s', heq, hs, hlow, htab⟩
    · rw [heq] at h
      cases h
      exact ⟨hs, .other hclose (Or.inl (returnError_neg (by decide)))⟩
    · rw [heq] at h
      cases h
      rw [fdTable_hostOpened, table_hostOpened, htable] at hlow htab
      refine ⟨hs, fun h => absurd h hclose, fun _ _ => ⟨g, rfl, hlow, ?_⟩, ?_, ?_⟩
      · rw [Process.withFds, htab, AList.mem_insert]
        exact Or.inl rfl
      · intro hf
        rcases hn with hn | hn <;> rw [hn] at hf <;> exact absurd hf (by decide)
      · intro hf
        rcases hn with hn | hn <;> rw [hn] at hf <;> exact absurd hf (by decide)

/-- Looking a descriptor up seeds the table at most. -/
structure Looked (s s' : Fds) : Prop where
  owned : s.Owned → s.NotEmptied → s'.Owned
  notEmptied : s.NotEmptied → s'.NotEmptied
  table : s'.fdTable = s.fdTable
  isOpen : s'.isOpen = s.isOpen

theorem Looked.refl (s : Fds) : Looked s s := ⟨fun h _ => h, id, rfl, rfl⟩

theorem looked_fdTable (s : Fds) : Looked s s.fdTable := by
  refine ⟨Owned.fdTable, fun h => ?_, fdTable_fdTable, isOpen_fdTable⟩
  unfold fdTable
  split
  · intro _ hempty
    have hseeded : ¬standardFds.entries.isEmpty = true := by decide
    exact absurd hempty hseeded
  · exact h

theorem looked_hostFdFor (s : Fds) (raw : W64) : Looked s (s.hostFdFor raw).2 := by
  unfold hostFdFor
  split
  · exact .refl s
  · exact looked_fdTable s

theorem looked_hostDirfdFor (s : Fds) (raw : W64) : Looked s (s.hostDirfdFor raw).2 := by
  unfold hostDirfdFor
  split
  · exact .refl s
  · exact looked_hostFdFor s raw

/-- A descriptor found is the one the table maps its number to. -/
theorem hostFdFor_some {s s' : Fds} {raw : W64} {fd : ℕ} (h : s.hostFdFor raw = (some fd, s')) :
    s' = s.fdTable ∧ s.fdTable.table.lookup raw.toNat = some fd := by
  unfold hostFdFor checkedFd at h
  by_cases hbig : raw.toNat > intMax
  · rw [if_pos hbig] at h
    cases h
  · rw [if_neg hbig] at h
    injection h with h1 h2
    exact ⟨h2.symm, h1⟩

/-- A call that fails hands nothing out. -/
theorem Keeps.fails {q : Process} {error : ℕ} (heq : q.fails error = some (value, p'))
    (hclose : context.syscallNumber ≠ syscallClose) (howned : q.fds.Owned) (hpos : 0 < error) :
    Keeps context p value p' := by
  cases heq
  exact ⟨howned, .other hclose (Or.inl (returnError_neg hpos))⟩

theorem open_keeps (h : sysOpen context kind host p = some (value, p')) (hfresh : Fresh host p.fds)
    (hown : p.fds.Owned) (hne : p.fds.NotEmptied) : Keeps context p value p' := by
  unfold sysOpen at h
  split at h
  · cases h
  rename_i hhandles
  have hn : context.syscallNumber = syscallOpen ∨ context.syscallNumber = syscallOpenat := by
    simp only [Bool.and_eq_true, Bool.not_eq_true', not_and_or, Bool.not_eq_false] at hhandles
    exact hhandles.imp number_of_handles number_of_handles
  have hclose : context.syscallNumber ≠ syscallClose := by
    rcases hn with hn | hn <;> rw [hn] <;> decide
  have hfails : ∀ {fds : Fds} {error : ℕ}, Looked p.fds fds → 0 < error →
      (p.withFds fds).fails error = some (value, p') → Keeps context p value p' :=
    fun hl hpos heq => .fails heq hclose (hl.owned hown hne) hpos
  dsimp only at h
  split at h
  · rename_i error herr
    exact hfails (.refl _) (readCString_error herr) h
  · split at h
    · exact hfails (.refl _) (by decide) h
    · split at h
      · have hlook := looked_hostDirfdFor p.fds (context.syscallArg 0)
        split at h
        · rename_i fds hdir
          rw [hdir] at hlook
          exact hfails hlook (by decide) h
        · rename_i dirfd fds hdir
          rw [hdir] at hlook
          exact open_finish hn (hlook.owned hown hne) (hlook.notEmptied hne) hlook.table
            (fun fd hfd => by rw [hlook.isOpen]; exact hfresh.fd _ fd hfd) h
      · exact open_finish hn hown hne rfl (fun fd hfd => hfresh.fd _ fd hfd) h

theorem close_keeps (h : sysClose context kind host p = some (value, p'))
    (hown : p.fds.Owned) (hne : p.fds.NotEmptied) : Keeps context p value p' := by
  unfold sysClose at h
  split at h
  · cases h
  rename_i hhandles
  have hn : context.syscallNumber = syscallClose := number_of_handles (by simpa using hhandles)
  have hothers : ∀ {fds : Fds} {v : ℤ}, fds.Owned → (∀ g fd, g ≠ (context.syscallArg 0).toNat →
      p.fds.fdTable.table.lookup g = some fd → fds.fdTable.table.lookup g = some fd ∧
        fds.isOpen fd = true) → Keeps context p v (p.withFds fds) := by
    intro fds v howned hsame
    refine ⟨howned, fun _ => hsame, ?_, ?_, ?_⟩
    · intro hmem
      rw [hn] at hmem
      exact absurd hmem (by decide)
    · intro hf
      rw [hn] at hf
      exact absurd hf (by decide)
    · intro hf
      rw [hn] at hf
      exact absurd hf (by decide)
  -- a call that changes no mapping
  have hlooked : ∀ {fds : Fds} {v : ℤ}, Looked p.fds fds → Keeps context p v (p.withFds fds) := by
    intro fds v hl
    have howned := hown.fdTable hne
    refine hothers (hl.owned hown hne) fun g fd _ hg => ?_
    rw [hl.table, hl.isOpen]
    exact ⟨hg, by simpa using (howned.usable g fd hg).1⟩
  split at h
  · cases h
    exact hlooked (.refl _)
  · rename_i guestFd hchecked
    have hguest : guestFd = (context.syscallArg 0).toNat := by
      unfold checkedFd at hchecked
      split at hchecked
      · cases hchecked
      · exact (Option.some.inj hchecked).symm
    have hlook := looked_hostFdFor p.fds (context.syscallArg 0)
    split at h
    · rename_i fds hfd
      rw [hfd] at hlook
      cases h
      exact hlooked hlook
    · rename_i fd fds hfd
      obtain ⟨rfl, hl⟩ := hostFdFor_some hfd
      rw [← hguest] at hl
      have hhold := owned_iff.1 (hown.fdTable hne)
      rw [← fdTable_fdTable] at hhold
      obtain ⟨s', heq, hs, htab⟩ := closeGuestFd_some hhold host.close
        (by rw [fdTable_fdTable]; exact hl) (Finset.notMem_empty fd)
      have hkeeps : ∀ {v : ℤ}, Keeps context p v (p.withFds s') := by
        intro v
        refine hothers (owned_iff.2 hs) fun g a hne' hg => ?_
        have hleft : s'.table.lookup g = some a := by
          rw [htab, fdTable_fdTable, AList.lookup_erase_ne (by rw [hguest]; exact hne'), hg]
        have hmem : g ∈ s'.table := AList.lookup_isSome.1 (by rw [hleft]; rfl)
        rw [fdTable_of_mem hmem]
        exact ⟨hleft, (hs.usable g a hleft).1⟩
      rw [heq] at h
      cases hc : host.close fd with
      | false => rw [hc] at h; cases h; exact hkeeps
      | true => rw [hc] at h; cases h; exact hkeeps

theorem owned_openClose {s : Fds} (hown : s.Owned) {fd : ℕ} (hfresh : s.isOpen fd = false) :
    ((s.hostOpened fd).hostClose fd).Owned := by
  have hheld := ((owned_iff.1 hown).hostOpened hfresh).closeHeld (Finset.mem_insert_self fd ∅)
  rw [Finset.erase_insert (Finset.notMem_empty fd)] at hheld
  exact owned_iff.2 hheld

/-- `dup` on the host gives a fresh descriptor to install, or leaves the table owned. -/
theorem dupHost_cases {fds : Fds} {fd : ℕ} (cloexec : Bool) (hown : fds.Owned)
    (hfresh : ∀ d, host.fd (.dup fd) = some d → fds.isOpen d = false) :
    (∃ error fds', dupHost host fds fd cloexec = (.error error, fds') ∧ 0 < error ∧ fds'.Owned) ∨
      ∃ d, dupHost host fds fd cloexec = (.ok d, fds.hostOpened d) ∧ fds.isOpen d = false := by
  unfold dupHost
  cases hd : host.fd (.dup fd) with
  | none => exact Or.inl ⟨host.errno, fds, rfl, host.errno_pos, hown⟩
  | some d =>
    dsimp only
    split
    · exact Or.inl ⟨host.errno, _, rfl, host.errno_pos, owned_openClose hown (hfresh d hd)⟩
    · exact Or.inr ⟨d, rfl, hfresh d hd⟩

theorem Fds.Owned.copyPipe {s : Fds} (h : s.Owned) (a b : ℕ) : (s.copyPipeWriteMapping a b).Owned :=
  owned_iff.2 ((owned_iff.1 h).copyPipe a b)

theorem table_copyPipe (s : Fds) (a b : ℕ) : (s.copyPipeWriteMapping a b).table = s.table := by
  unfold copyPipeWriteMapping
  split <;> rfl

/-- A value handed out by a call that is neither `close` nor `pipe`. -/
theorem CallRight.handsOut {g : ℕ} (hclose : context.syscallNumber ≠ syscallClose)
    (hpipe : context.syscallNumber ≠ syscallPipe) (hmem : g ∈ p'.fds.table)
    (hzero : context.syscallNumber ≠ syscallFcntl → Lowest p.fds.fdTable.table 0 g)
    (hfcntl : context.syscallNumber = syscallFcntl →
      Lowest p.fds.fdTable.table (context.syscallArg 2).toNat g) :
    CallRight context p (g : ℤ) p' := by
  refine ⟨fun h => absurd h hclose, fun hin _ => ⟨g, rfl, hzero ?_, hmem⟩,
    fun hf _ _ => ⟨g, rfl, hfcntl hf, hmem⟩, fun h => absurd h hpipe⟩
  rintro hf
  rw [hf] at hin
  exact absurd hin (by decide)

/-- A copy about to be installed. -/
theorem holding_copy {s : Fds} (htable : s.fdTable.Owned) {d : ℕ} (hd : s.fdTable.isOpen d = false) :
    (s.fdTable.hostOpened d).fdTable.Holding {d} ∧ (s.fdTable.hostOpened d).fdTable.table = s.fdTable.table := by
  rw [fdTable_hostOpened, fdTable_fdTable]
  exact ⟨(owned_iff.1 htable).hostOpened hd, rfl⟩

theorem fcntlRest_fds {fds : Fds} {fd : ℕ} {command arg : W64}
    (h : fcntlRest host p fds fd command arg = some (value, p')) : p'.fds = fds := by
  simp only [fcntlRest, Process.fails, Process.returnValue, Process.withFds] at h
  repeat' split at h
  all_goals cases h; rfl

theorem fcntl_number (h : sysFcntl context kind host p = some (value, p')) :
    context.syscallNumber = syscallFcntl ∨ context.syscallNumber = syscallDup ∨
      context.syscallNumber = syscallDup2 ∨ context.syscallNumber = syscallDup3 := by
  unfold sysFcntl at h
  split at h
  · cases h
  rename_i hhandles
  simp only [Bool.and_eq_true, Bool.not_eq_true', not_and_or, Bool.not_eq_false, or_assoc] at hhandles
  exact hhandles.imp number_of_handles
    (Or.imp number_of_handles (Or.imp number_of_handles number_of_handles))

/-- A copy installed at a given number. -/
theorem install_copy {s : Fds} {fd d : ℕ} (hheld : s.fdTable.Holding {d}) (g : ℕ) :
    ∃ s', s.installFd d (some g) = (some g, s') ∧ (s'.copyPipeWriteMapping fd d).Owned ∧
      g ∈ (s'.copyPipeWriteMapping fd d).table := by
  obtain ⟨s', heq, howned, htable⟩ := installFd_some hheld g
  refine ⟨s', heq, howned.copyPipe _ _, ?_⟩
  rw [table_copyPipe, htable, AList.mem_insert]
  exact Or.inl rfl

section

variable {fd : ℕ} (h : sysFcntl context kind host p = some (value, p'))
  (hfd : p.fds.hostFdFor (context.syscallArg 0) = (some fd, p.fds.fdTable))
  (htable : p.fds.fdTable.Owned)
  (hfresh : ∀ d, host.fd (.dup fd) = some d → p.fds.fdTable.isOpen d = false)

include h hfd htable hfresh

/-- `dup` hands out the copy at the lowest number of the table. -/
theorem dup_keeps (hnumber : context.syscallNumber = syscallDup) : Keeps context p value p' := by
  have hclose : context.syscallNumber ≠ syscallClose := by rw [hnumber]; decide
  have hpipe : context.syscallNumber ≠ syscallPipe := by rw [hnumber]; decide
  unfold sysFcntl at h
  split at h
  · cases h
  dsimp only at h
  rw [hfd] at h
  dsimp only at h
  rw [if_pos hnumber] at h
  rcases dupHost_cases false htable hfresh with ⟨error, fds', heq, hpos, howned⟩ | ⟨d, heq, hd⟩
  · rw [heq] at h
    exact .fails h hclose howned hpos
  rw [heq] at h
  dsimp only at h
  obtain ⟨hheld, htab⟩ := holding_copy htable hd
  rcases installNew_cases hheld with ⟨s', heq', howned⟩ | ⟨g, s', heq', howned, hlow, htab'⟩
  · rw [heq'] at h
    exact .fails h hclose howned (by decide)
  · rw [heq'] at h
    cases h
    rw [htab] at hlow htab'
    refine ⟨howned.copyPipe _ _, .handsOut hclose hpipe ?_ (fun _ => hlow) fun hf => ?_⟩
    · rw [Process.withFds, table_copyPipe, htab', AList.mem_insert]
      exact Or.inl rfl
    · rw [hnumber] at hf
      exact absurd hf (by decide)

/-- `dup2` and `dup3` replace what was open at the number asked for. -/
theorem dup2_keeps
    (hnumber : context.syscallNumber = syscallDup2 ∨ context.syscallNumber = syscallDup3) :
    Keeps context p value p' := by
  have hdup : context.syscallNumber ≠ syscallDup := by
    rcases hnumber with hn | hn <;> rw [hn] <;> decide
  have hclose : context.syscallNumber ≠ syscallClose := by
    rcases hnumber with hn | hn <;> rw [hn] <;> decide
  have hvalue : ∀ {p' : Process} {v : ℤ}, CallRight context p v p' := by
    intro p' v
    refine .other hclose (Or.inr ⟨?_, fun hf => ?_⟩)
    · rcases hnumber with hn | hn <;> rw [hn] <;> decide
    · rcases hnumber with hn | hn <;> rw [hn] at hf <;> exact absurd hf (by decide)
  unfold sysFcntl at h
  split at h
  · cases h
  dsimp only at h
  rw [hfd] at h
  dsimp only at h
  rw [if_neg hdup, if_pos hnumber] at h
  split at h
  · cases h
    exact ⟨htable, hvalue⟩
  split at h
  · cases h
    exact ⟨htable, hvalue⟩
  rcases dupHost_cases
      (decide (context.syscallNumber = syscallDup3 ∧ context.syscallArg 2 &&& linuxOCloexec ≠ 0))
      htable hfresh with ⟨error, fds', heq, hpos, howned⟩ | ⟨d, heq, hd⟩
  · rw [heq] at h
    exact .fails h hclose howned hpos
  · rw [heq] at h
    cases h
    obtain ⟨s', heq', howned, -⟩ := install_copy (holding_copy htable hd).1 _
    rw [heq']
    exact ⟨howned, hvalue⟩

/-- `fcntl` copies to the lowest number from its argument on, or changes no table. -/
theorem fcntlCommand_keeps (hnumber : context.syscallNumber = syscallFcntl) :
    Keeps context p value p' := by
  have hclose : context.syscallNumber ≠ syscallClose := by rw [hnumber]; decide
  have hpipe : context.syscallNumber ≠ syscallPipe := by rw [hnumber]; decide
  have hdup : context.syscallNumber ≠ syscallDup := by rw [hnumber]; decide
  have hdup2 : ¬(context.syscallNumber = syscallDup2 ∨ context.syscallNumber = syscallDup3) := by
    rw [hnumber]; decide
  unfold sysFcntl at h
  split at h
  · cases h
  dsimp only at h
  rw [hfd] at h
  dsimp only at h
  rw [if_neg hdup, if_neg hdup2] at h
  split at h
  case isFalse hcommand =>
    refine ⟨?_, .other hclose (Or.inr ⟨?_, fun _ => hcommand⟩)⟩
    · rw [fcntlRest_fds h]
      exact htable
    · rw [hnumber]
      decide
  split at h
  · exact .fails h hclose htable (by decide)
  rcases dupHost_cases (decide (context.syscallArg 1 = linuxFDupfdCloexec)) htable hfresh with
    ⟨error, fds', heq, hpos, howned⟩ | ⟨d, heq, hd⟩
  · rw [heq] at h
    exact .fails h hclose howned hpos
  rw [heq] at h
  dsimp only [nextGuestFd] at h
  obtain ⟨hheld, htab⟩ := holding_copy htable hd
  cases hnext : nextFree (p.fds.fdTable.hostOpened d).fdTable.table
      (intMax - (context.syscallArg 2).toNat) (context.syscallArg 2).toNat with
  | none =>
    -- a minimum above every free number leaves the copy in hand, and it is closed
    rw [hnext] at h
    refine .fails h hclose ?_ (by decide)
    have hclosed := hheld.closeHeld (Finset.mem_singleton_self d)
    rw [Finset.erase_singleton] at hclosed
    exact owned_iff.2 hclosed
  | some g =>
    rw [hnext] at h
    cases h
    have hlow := lowest_of_nextFree hnext
    rw [htab] at hlow
    rw [← fdTable_fdTable] at hheld
    obtain ⟨s', heq', howned, hmem⟩ := install_copy hheld g
    rw [heq']
    exact ⟨howned, .handsOut hclose hpipe hmem (fun hno => absurd hnumber hno) fun _ => hlow⟩

end

theorem fcntl_keeps (h : sysFcntl context kind host p = some (value, p')) (hfresh : Fresh host p.fds)
    (hown : p.fds.Owned) (hne : p.fds.NotEmptied) : Keeps context p value p' := by
  have hnumber := fcntl_number h
  have hlook := looked_hostFdFor p.fds (context.syscallArg 0)
  cases hfd : p.fds.hostFdFor (context.syscallArg 0) with
  | mk found fds =>
    rw [hfd] at hlook
    cases found with
    | none =>
      have hclose : context.syscallNumber ≠ syscallClose := by
        rcases hnumber with hn | hn | hn | hn <;> rw [hn] <;> decide
      unfold sysFcntl at h
      split at h
      · cases h
      dsimp only at h
      rw [hfd] at h
      exact .fails h hclose (hlook.owned hown hne) (by decide)
    | some fd =>
      obtain ⟨rfl, -⟩ := hostFdFor_some hfd
      have htable := hown.fdTable hne
      have hfresh' : ∀ d, host.fd (.dup fd) = some d → p.fds.fdTable.isOpen d = false := by
        intro d hd
        rw [isOpen_fdTable]
        exact hfresh.fd _ d hd
      rcases hnumber with hn | hn | hn
      · exact fcntlCommand_keeps h hfd htable hfresh' hn
      · exact dup_keeps h hfd htable hfresh' hn
      · exact dup2_keeps h hfd htable hfresh' hn

theorem socket_keeps (h : sysSocket context kind host p = some (value, p')) (hfresh : Fresh host p.fds)
    (hown : p.fds.Owned) (hne : p.fds.NotEmptied) : Keeps context p value p' := by
  unfold sysSocket at h
  split at h
  · cases h
  rename_i hhandles
  have hn : context.syscallNumber = syscallSocket := number_of_handles (by simpa using hhandles)
  have hclose : context.syscallNumber ≠ syscallClose := by rw [hn]; decide
  have hpipe : context.syscallNumber ≠ syscallPipe := by rw [hn]; decide
  have hnofcntl : context.syscallNumber ≠ syscallFcntl := by rw [hn]; decide
  have hfails : ∀ {fds : Fds} {error : ℕ}, fds.Owned → 0 < error →
      (p.withFds fds).fails error = some (value, p') → Keeps context p value p' :=
    fun howned hpos heq => .fails heq hclose howned hpos
  dsimp only at h
  split at h
  · exact hfails hown (by decide) h
  · split at h
    · exact hfails hown (by decide) h
    · split at h
      · exact hfails hown (by decide) h
      · split at h
        · exact hfails hown (by decide) h
        · split at h
          · exact hfails hown host.errno_pos h
          · rename_i fd hfd
            have hfd' := hfresh.fd _ fd hfd
            split at h
            · exact hfails (owned_openClose hown hfd') host.errno_pos h
            · rcases installNew_cases (hown.openThenTable hne hfd') with
                ⟨s', heq, hs⟩ | ⟨g, s', heq, hs, hlow, htab⟩
              · rw [heq] at h
                exact hfails hs (by decide) h
              · rw [heq] at h
                cases h
                rw [fdTable_hostOpened, table_hostOpened] at hlow htab
                refine ⟨hs, .handsOut hclose hpipe ?_ (fun _ => hlow) fun hf => absurd hf hnofcntl⟩
                rw [Process.withFds, htab, AList.mem_insert]
                exact Or.inl rfl

/-- Undoing an end that has its guest number. -/
theorem closeEnd_some (host : HostReplies) {s : Fds} {hand : Finset ℕ} (h : s.Holding hand) {fd g : ℕ}
    (hg : s.table.lookup g = some fd) (hfd : fd ∉ hand) :
    (closeEnd host s fd (some g)).Holding hand ∧
      (closeEnd host s fd (some g)).table = s.table.erase g := by
  have hmem : g ∈ s.table := AList.lookup_isSome.1 (by rw [hg]; rfl)
  have hseeded := fdTable_of_mem hmem
  obtain ⟨s', heq, hs, htab⟩ := closeGuestFd_some (s := s) (by rw [hseeded]; exact h) host.close
    (by rw [hseeded]; exact hg) hfd
  rw [hseeded] at htab
  simp only [closeEnd, heq]
  exact ⟨hs, htab⟩

/-- Both numbers of a pipe, as the two calls of `install_fd` choose them. -/
structure PipeInstalled (s : Fds) (r w readFd writeFd : ℕ) (s' : Fds) : Prop where
  lowest : Lowest s.fdTable.table 0 readFd
  lowest' : Lowest (s.fdTable.table.insert readFd r) 0 writeFd
  owned : s'.Owned
  table : s'.table = (s.fdTable.table.insert readFd r).insert writeFd w

theorem PipeInstalled.lookup {s s' : Fds} {r w readFd writeFd : ℕ}
    (h : PipeInstalled s r w readFd writeFd s') :
    s'.table.lookup readFd = some r ∧ s'.table.lookup writeFd = some w := by
  have hne : readFd ≠ writeFd := by
    rintro rfl
    have hunused := h.lowest'.unused
    rw [AList.lookup_insert] at hunused
    cases hunused
  rw [h.table]
  refine ⟨?_, AList.lookup_insert _⟩
  rw [AList.lookup_insert_ne hne, AList.lookup_insert]

/-- A pipe whose numbers are given back. -/
theorem PipeInstalled.undo (host : HostReplies) {s s' : Fds} {r w readFd writeFd : ℕ}
    (h : PipeInstalled s r w readFd writeFd s') :
    (closeEnd host (closeEnd host s' r (some readFd)) w (some writeFd)).Owned := by
  obtain ⟨hr, hw⟩ := h.lookup
  obtain ⟨hs, htab⟩ := closeEnd_some host (owned_iff.1 h.owned) hr (Finset.notMem_empty r)
  have hne : writeFd ≠ readFd := by
    rintro rfl
    have hunused := h.lowest'.unused
    rw [AList.lookup_insert] at hunused
    cases hunused
  have hw' : (closeEnd host s' r (some readFd)).table.lookup writeFd = some w := by
    rw [htab, AList.lookup_erase_ne hne, hw]
  exact owned_iff.2 (closeEnd_some host hs hw' (Finset.notMem_empty w)).1

/-- The two installations of a pipe: both numbers, or ends the clean-up closes again. -/
theorem pipe_install (host : HostReplies) {s : Fds} {r w : ℕ} (hown : s.Owned) (hne : s.NotEmptied)
    (hr : s.isOpen r = false) (hw : s.isOpen w = false) (hrw : r ≠ w) :
    let first := ((s.hostOpened r).hostOpened w).installFd r none
    let second := first.2.installFd w none
    (∃ readFd writeFd, first.1 = some readFd ∧ second.1 = some writeFd ∧
        PipeInstalled s r w readFd writeFd second.2) ∨
      (first.1 = none ∨ second.1 = none) ∧
        (closeEnd host (closeEnd host second.2 r first.1) w second.1).Owned := by
  intro first second
  have htable : ((s.hostOpened r).hostOpened w).fdTable.table = s.fdTable.table := by
    rw [fdTable_hostOpened, fdTable_hostOpened]
    rfl
  have hhold : ((s.hostOpened r).hostOpened w).fdTable.Holding {w, r} := by
    rw [fdTable_hostOpened]
    refine (hown.openThenTable hne hr).hostOpened ?_
    rw [isOpen_fdTable, isOpen_hostOpened, if_neg (Ne.symm hrw)]
    exact hw
  have hrin : r ∈ ({w, r} : Finset ℕ) := by simp
  have herase : ({w, r} : Finset ℕ).erase r = {w} := by
    rw [Finset.pair_comm, Finset.erase_insert (by simpa using hrw)]
  have hwin : w ∈ ({w, r} : Finset ℕ) := by simp
  rcases installFd_none hhold hrin with hfirst | ⟨g, hfirst, hlow, hheld⟩
  · -- no number for the first end
    have hfirst' : first = (none, ((s.hostOpened r).hostOpened w).fdTable) := hfirst
    have hclosed : ∀ {t : Fds} {hand : Finset ℕ}, t.Holding hand → r ∈ hand →
        (closeEnd host t r none).Holding (hand.erase r) := fun ht hmem => ht.closeHeld hmem
    have hhold' := hhold
    rw [← fdTable_fdTable] at hhold'
    rcases installFd_none hhold' hwin with hsecond | ⟨g', hsecond, hlow', hheld'⟩
    · have hsecond' : second = (none, ((s.hostOpened r).hostOpened w).fdTable.fdTable) := by
        simp only [second, hfirst', hsecond]
      refine Or.inr ⟨Or.inl (by rw [hfirst']), ?_⟩
      rw [hsecond', hfirst']
      have hone := hclosed hhold' hrin
      rw [herase] at hone
      have htwo := hone.closeHeld (Finset.mem_singleton_self w)
      rw [Finset.erase_singleton] at htwo
      exact owned_iff.2 htwo
    · have hsecond' : second =
          (some g', ((s.hostOpened r).hostOpened w).fdTable.fdTable.installAt w g') := by
        simp only [second, hfirst', hsecond]
      refine Or.inr ⟨Or.inl (by rw [hfirst']), ?_⟩
      rw [hsecond', hfirst']
      have herase' : ({w, r} : Finset ℕ).erase w = {r} :=
        Finset.erase_insert (by simpa using Ne.symm hrw)
      rw [herase'] at hheld'
      -- the end that got its number is closed by it, the other one by its handle
      have hone := hclosed hheld' (Finset.mem_singleton_self r)
      rw [Finset.erase_singleton] at hone
      refine owned_iff.2 (closeEnd_some host hone ?_ (Finset.notMem_empty w)).1
      simp [closeEnd]
  · have hfirst' : first = (some g, ((s.hostOpened r).hostOpened w).fdTable.installAt r g) := hfirst
    rw [herase] at hheld
    have htab : (((s.hostOpened r).hostOpened w).fdTable.installAt r g).table =
        s.fdTable.table.insert g r := by rw [table_installAt, htable]
    have hgin : (((s.hostOpened r).hostOpened w).fdTable.installAt r g).table.lookup g = some r := by
      rw [htab, AList.lookup_insert]
    have hmem : g ∈ (((s.hostOpened r).hostOpened w).fdTable.installAt r g).table :=
      AList.lookup_isSome.1 (by rw [hgin]; rfl)
    -- the table has an entry now, so looking at it seeds no standard descriptors
    have hseeded := fdTable_of_mem hmem
    have hheld' := hheld
    rw [← hseeded] at hheld'
    rcases installFd_none hheld' (Finset.mem_singleton_self w) with hsecond | ⟨g', hsecond, hlow', hown'⟩
    · have hsecond' : second = (none, ((s.hostOpened r).hostOpened w).fdTable.installAt r g) := by
        simp only [second, hfirst', hsecond, hseeded]
      refine Or.inr ⟨Or.inr (by rw [hsecond']), ?_⟩
      rw [hsecond', hfirst']
      have hone := (closeEnd_some host hheld hgin (by simpa using hrw)).1
      have htwo := hone.closeHeld (Finset.mem_singleton_self w)
      rw [Finset.erase_singleton] at htwo
      exact owned_iff.2 htwo
    · rw [hseeded] at hsecond hlow' hown'
      have hsecond' : second = (some g', (((s.hostOpened r).hostOpened w).fdTable.installAt r g).installAt w g') := by
        simp only [second, hfirst', hsecond]
      rw [Finset.erase_singleton] at hown'
      refine Or.inl ⟨g, g', by rw [hfirst'], by rw [hsecond'], ?_⟩
      rw [htable] at hlow
      rw [htab] at hlow'
      refine ⟨hlow, hlow', ?_, ?_⟩
      · rw [hsecond']
        exact owned_iff.2 hown'
      · rw [hsecond', table_installAt, htab]

theorem writeInt32_error {space space' : AddressSpace} {address v error : ℕ}
    (h : writeInt32 space address v = (some error, space')) : 0 < error := by
  unfold writeInt32 at h
  dsimp only at h
  split at h
  · injection h with h1 h2
    rw [← Option.some.inj h1]
    exact memoryErrorToLinux_pos _
  · cases h

theorem writeInt32_ok {space space' : AddressSpace} {address v : ℕ}
    (h : writeInt32 space address v = (none, space')) :
    space'.readRange address 4 = leBytes v 4 ∧
      ∀ a, a + 4 ≤ address → space'.readRange a 4 = space.readRange a 4 := by
  unfold writeInt32 at h
  dsimp only at h
  split at h
  · cases h
  · rename_i hok
    injection h with h1 h2
    have hlen : (leBytes v 4).length = 4 := by simp [leBytes]
    refine ⟨?_, fun a ha => ?_⟩
    · rw [← h2]
      have hread := AddressSpace.readRange_write space hok
      rw [hlen] at hread
      exact hread
    · rw [← h2]
      apply List.map_congr_left
      intro i hi
      have hi' : i < 4 := List.mem_range.1 hi
      exact AddressSpace.write_frame space (Or.inl (by omega))

theorem pipe_keeps (h : sysPipe context kind host p = some (value, p')) (hfresh : Fresh host p.fds)
    (hown : p.fds.Owned) (hne : p.fds.NotEmptied) : Keeps context p value p' := by
  unfold sysPipe at h
  split at h
  · cases h
  rename_i hhandles
  have hn : context.syscallNumber = syscallPipe := number_of_handles (by simpa using hhandles)
  have hclose : context.syscallNumber ≠ syscallClose := by rw [hn]; decide
  have hfails : ∀ {q : Process} {error : ℕ}, q.fds.Owned → 0 < error →
      q.fails error = some (value, p') → Keeps context p value p' :=
    fun howned hpos heq => .fails heq hclose howned hpos
  dsimp only at h
  split at h
  · exact hfails hown (by decide) h
  split at h
  · exact hfails hown host.errno_pos h
  rename_i r w hpair
  obtain ⟨hr, hw, hrw⟩ := hfresh.pipe r w hpair
  split at h
  · -- the ends cannot be made non-blocking: both are closed
    refine hfails ?_ host.errno_pos h
    have hw' : (p.fds.hostOpened r).isOpen w = false := by
      rw [isOpen_hostOpened, if_neg (Ne.symm hrw)]
      exact hw
    have hhold := ((owned_iff.1 hown).hostOpened hr).hostOpened hw'
    have hrin : r ∈ (insert w (insert r ∅) : Finset ℕ) := by simp
    have hone := hhold.closeHeld hrin
    have hwin : w ∈ (insert w (insert r ∅) : Finset ℕ).erase r := by simp [Ne.symm hrw]
    have htwo := hone.closeHeld hwin
    have hempty : ((insert w (insert r ∅) : Finset ℕ).erase r).erase w = ∅ := by
      ext x
      simp
      tauto
    rw [hempty] at htwo
    exact owned_iff.2 htwo
  · have hinstall := pipe_install host hown hne hr hw hrw
    rcases hfirst : ((p.fds.hostOpened r).hostOpened w).installFd r none with ⟨readFd, fds⟩
    rcases hsecond : fds.installFd w none with ⟨writeFd, fds'⟩
    simp only [hfirst, hsecond] at hinstall h
    rcases hinstall with ⟨rf, wf, rfl, rfl, hpipe⟩ | ⟨hnone, howned⟩
    · dsimp only at h
      split at h
      · rename_i error space hwrite
        exact hfails (hpipe.undo host) (writeInt32_error hwrite) h
      · rename_i space hwrite
        split at h
        · rename_i error space' hwrite'
          exact hfails (hpipe.undo host) (writeInt32_error hwrite') h
        · rename_i space' hwrite'
          cases h
          obtain ⟨hlr, hlw⟩ := hpipe.lookup
          -- the second number is written behind the first, which is still there
          obtain ⟨hread, -⟩ := writeInt32_ok hwrite
          obtain ⟨hread', hkeep⟩ := writeInt32_ok hwrite'
          refine ⟨owned_iff.2 ((owned_iff.1 hpipe.owned).pipes _), fun h => absurd h hclose, ?_, ?_, ?_⟩
          · intro hin
            rw [hn] at hin
            exact absurd hin (by decide)
          · intro hf
            rw [hn] at hf
            exact absurd hf (by decide)
          · intro _ _
            refine ⟨rf, wf, r, hpipe.lowest, hpipe.lowest', ?_, ?_, ?_, hread'⟩
            · exact AList.lookup_isSome.1 (by rw [hlr]; rfl)
            · exact AList.lookup_isSome.1 (by rw [hlw]; rfl)
            · rw [hkeep _ le_rfl, hread]
    · split at h
      · rcases hnone with hnone | hnone <;> cases hnone
      · exact hfails howned (by decide) h

/-- **One descriptor call**, whatever the host answers, keeps the ownership and gives the
guest its due, unless it finds the first process's table emptied. -/
theorem fdSyscall_keeps (h : fdSyscall context kind host p = some (value, p'))
    (hfresh : Fresh host p.fds) (hown : p.fds.Owned) (hne : p.fds.NotEmptied) :
    Keeps context p value p' := by
  simp only [fdSyscall, Option.or_eq_some_iff] at h
  rcases h with h | ⟨-, h | ⟨-, h | ⟨-, h | ⟨-, h⟩⟩⟩⟩
  · exact open_keeps h hfresh hown hne
  · exact close_keeps h hown hne
  · exact pipe_keeps h hfresh hown hne
  · exact fcntl_keeps h hfresh hown hne
  · exact socket_keeps h hfresh hown hne

end Calls

/-! ### Runs -/

/-- A process before its first system call: nothing was opened or closed yet, and the
standard descriptors are open on the host. -/
structure Process.Starts (p : Process) : Prop where
  table : p.fds.table = ∅
  events : p.fds.events = []
  standard : ∀ fd < 3, p.fds.isOpen fd = true

/-- One descriptor call of the guest. -/
def Process.Calls (p p' : Process) : Prop :=
  ∃ context kind host value, fdSyscall context kind host p = some (value, p') ∧ Fresh host p.fds

/-- One descriptor call that does not find the table emptied. -/
def Process.CallsCalmly (p p' : Process) : Prop := p.fds.NotEmptied ∧ p.Calls p'

theorem Process.Starts.owned {p : Process} (h : p.Starts) : p.fds.Owned := by
  refine ⟨fun g g' fd hg => ?_, fun g fd hg => ?_, fun fd ho => ?_⟩
  · rw [h.table, AList.lookup_empty] at hg
    cases hg
  · rw [h.table, AList.lookup_empty] at hg
    cases hg
  · rw [OpenedForGuest, last, h.events] at ho
    cases ho

/-- **Descriptor ownership over runs**: as long as no call finds the first process's
table emptied, every state reached is owned, and every call gives the guest its due. -/
theorem Process.owned_of_notEmptied {p₀ p : Process} (h₀ : p₀.Starts)
    (hrun : Relation.ReflTransGen Process.CallsCalmly p₀ p) :
    p.fds.Owned ∧ (p.fds.NotEmptied → ∀ context kind host value p',
      fdSyscall context kind host p = some (value, p') → Fresh host p.fds →
        CallRight context p value p') := by
  have hown : p.fds.Owned := by
    induction hrun with
    | refl => exact h₀.owned
    | tail _ hstep ih =>
      obtain ⟨hne, context, kind, host, value, hcall, hfresh⟩ := hstep
      exact (fdSyscall_keeps hcall hfresh ih hne).1
  refine ⟨hown, fun hne context kind host value p' hcall hfresh => ?_⟩
  exact (fdSyscall_keeps hcall hfresh hown hne).2

/-! A host that answers like one: the lowest descriptor that is not open. -/

def lowestClosed (isOpen : ℕ → Bool) : Option ℕ := (List.range 1024).find? fun fd => !isOpen fd

def unixHost (s : Fds) : HostReplies where
  fd
    | .dup fd => if s.isOpen fd then lowestClosed s.isOpen else none
    | _ => lowestClosed s.isOpen
  pipe := (lowestClosed s.isOpen).bind fun r =>
    (lowestClosed (Function.update s.isOpen r true)).map fun w => (r, w)
  fcntl fd _ := if s.isOpen fd then some 0 else none
  lock := []
  close := s.isOpen
  errno := linuxEbadf
  errno_pos := by decide

theorem unixHost_fresh (s : Fds) : Fresh (unixHost s) s := by
  have hlow : ∀ {isOpen : ℕ → Bool} {fd : ℕ}, lowestClosed isOpen = some fd → isOpen fd = false := by
    intro isOpen fd h
    simpa using List.find?_some h
  refine ⟨fun call fd h => ?_, fun r w h => ?_⟩
  · cases call with
    | dup a =>
      simp only [unixHost] at h
      split at h
      · exact hlow h
      · cases h
    | «open» => simp only [unixHost] at h; exact hlow h
    | openat => simp only [unixHost] at h; exact hlow h
    | socket => simp only [unixHost] at h; exact hlow h
  · simp only [unixHost, Option.bind_eq_some_iff, Option.map_eq_some_iff, Prod.mk.injEq] at h
    obtain ⟨r', hr, w', hw, rfl, rfl⟩ := h
    have hw' := hlow hw
    rw [Function.update_apply] at hw'
    split at hw'
    · cases hw'
    · rename_i hne
      exact ⟨hlow hr, hw', Ne.symm hne⟩

/-- The process after a list of calls, each one handled. -/
def Process.calls (p : Process) : List CallRegs → Option Process
  | [] => some p
  | context :: rest =>
    (fdSyscall context .syscall64 (unixHost p.fds) p).bind fun r => r.2.calls rest

theorem Process.calls_run {p p' : Process} {l : List CallRegs} (h : p.calls l = some p') :
    Relation.ReflTransGen Process.Calls p p' := by
  induction l generalizing p with
  | nil => cases h; exact .refl
  | cons context rest ih =>
    simp only [Process.calls, Option.bind_eq_some_iff] at h
    obtain ⟨⟨value, q⟩, hcall, hrest⟩ := h
    exact .head ⟨context, .syscall64, unixHost p.fds, value, hcall, unixHost_fresh p.fds⟩ (ih hrest)

/-- The same run, where no call finds the table emptied. -/
theorem Process.calls_calmly {p p' : Process} {l : List CallRegs} (h : p.calls l = some p')
    (hcalm : ∀ n < l.length, ∀ q ∈ p.calls (l.take n), q.fds.NotEmptied) :
    Relation.ReflTransGen Process.CallsCalmly p p' := by
  induction l generalizing p with
  | nil => cases h; exact .refl
  | cons context rest ih =>
    simp only [Process.calls, Option.bind_eq_some_iff] at h
    obtain ⟨⟨value, q⟩, hcall, hrest⟩ := h
    have hfirst : p.fds.NotEmptied := hcalm 0 (by simp) p rfl
    refine .head ⟨hfirst, context, .syscall64, unixHost p.fds, value, hcall, unixHost_fresh p.fds⟩ (ih hrest ?_)
    intro n hn q' hq'
    refine hcalm (n + 1) (by simpa using hn) q' ?_
    rw [List.take_succ_cons, Process.calls, hcall]
    exact hq'

/-- The first process, on a host with only the standard descriptors open. -/
def Process.first : Process where
  fds := ⟨1, ∅, ∅, fun fd => fd < 3, []⟩
  space := .init false

theorem Process.first_starts : Process.first.Starts :=
  ⟨rfl, rfl, fun _ h => decide_eq_true h⟩

def closeCall (fd : W64) : CallRegs := ⟨3, fd, 0, 0, 0, 0, 0⟩
def socketCall : CallRegs := ⟨41, 2, 1, 0, 0, 0, 0⟩

/-- A socket is opened and closed, and its number is given out again. -/
theorem Process.owned_of_notEmptied_socket :
    ∃ p, Process.first.calls [socketCall, closeCall 3, socketCall] = some p ∧
      p.fds.table.lookup 3 = some 3 ∧ p.fds.Owned := by
  have hsome : (Process.first.calls [socketCall, closeCall 3, socketCall]).map
      (fun p => p.fds.table.lookup 3) = some (some 3) := by decide +kernel
  obtain ⟨p, hp, hlookup⟩ := Option.map_eq_some_iff.1 hsome
  have hfilled : ∀ n < 3, n ≠ 0 → ∀ q ∈ Process.first.calls ([socketCall, closeCall 3, socketCall].take n),
      q.fds.table.entries.isEmpty = false := by decide +kernel
  refine ⟨p, hp, hlookup, (Process.owned_of_notEmptied Process.first_starts (Process.calls_calmly hp ?_)).1⟩
  intro n hn q hq
  by_cases hn0 : n = 0
  · subst hn0
    obtain rfl : Process.first = q := Option.some.inj hq
    intro _ _ fd hfd
    exact ⟨decide_eq_true hfd, by simp [ClosedByLayer, last, Process.first]⟩
  · intro _ hempty
    rw [hfilled n hn hn0 q hq] at hempty
    cases hempty

/-- After the guest closes descriptors 0, 1 and 2, its table is seeded again: a new socket
gets number 3, and the host descriptor 0 that guest descriptor 0 maps to as well. -/
theorem Process.not_owned : ¬∀ p₀ p : Process, p₀.Starts → Relation.ReflTransGen Process.Calls p₀ p →
    p.fds.Owned := by
  intro hall
  have hrun : (Process.first.calls [closeCall 0, closeCall 1, closeCall 2, socketCall]).map
      (fun p => (p.fds.table.lookup 0, p.fds.table.lookup 3)) = some (some 0, some 0) := by
    decide +kernel
  obtain ⟨p, hp, htable⟩ := Option.map_eq_some_iff.1 hrun
  obtain ⟨h0, h3⟩ := Prod.mk.inj htable
  have hown := hall _ p Process.first_starts (Process.calls_run hp)
  exact absurd (hown.injective 0 3 0 h0 h3) (by decide)

end X86Sim.Linux
