import Mathlib.Tactic.IntervalCases
import X86Sim.Linux.FdSyscalls

/-!
# Who owns a host descriptor

What one operation on the table does to the ownership of host descriptors, with the
descriptors a handler holds between opening and installing them.
-/

namespace X86Sim.Linux

namespace Fds

/-- What the layer last did to a host descriptor. -/
def last (s : Fds) (fd : ℕ) : Option HostEvent := s.events.find? (·.fd == fd)

def ClosedByLayer (s : Fds) (fd : ℕ) : Prop := s.last fd = some (.closed fd)
def OpenedForGuest (s : Fds) (fd : ℕ) : Prop := s.last fd = some (.opened fd)

/-- Guest and host descriptors correspond one to one: two guest numbers share no host
descriptor, a mapped host descriptor is open and was not closed by the layer, and what
the layer opened for the guest and has not closed is mapped. -/
structure Owned (s : Fds) : Prop where
  injective : ∀ g g' fd, s.table.lookup g = some fd → s.table.lookup g' = some fd → g = g'
  usable : ∀ g fd, s.table.lookup g = some fd → s.isOpen fd = true ∧ ¬s.ClosedByLayer fd
  kept : ∀ fd, s.OpenedForGuest fd → ∃ g, s.table.lookup g = some fd

/-- The table of the first process was not emptied by closes: where it is empty, the
three standard descriptors of the host are open still. -/
def NotEmptied (s : Fds) : Prop :=
  s.contextId = 1 → s.table.entries.isEmpty → ∀ fd < 3, s.isOpen fd = true ∧ ¬s.ClosedByLayer fd

/-- `Owned`, but for the host descriptors a handler holds and has not installed. -/
structure Holding (hand : Finset ℕ) (s : Fds) : Prop where
  injective : ∀ g g' fd, s.table.lookup g = some fd → s.table.lookup g' = some fd → g = g'
  usable : ∀ g fd, s.table.lookup g = some fd → s.isOpen fd = true ∧ ¬s.ClosedByLayer fd
  kept : ∀ fd, s.OpenedForGuest fd → fd ∈ hand ∨ ∃ g, s.table.lookup g = some fd
  held : ∀ fd ∈ hand, s.isOpen fd = true ∧ ¬s.ClosedByLayer fd ∧ ∀ g, s.table.lookup g ≠ some fd

theorem owned_iff {s : Fds} : s.Owned ↔ s.Holding ∅ := by
  constructor
  · intro h
    exact ⟨h.injective, h.usable, fun fd hfd => Or.inr (h.kept fd hfd), by simp⟩
  · intro h
    refine ⟨h.injective, h.usable, fun fd hfd => ?_⟩
    rcases h.kept fd hfd with hmem | hg
    · simp at hmem
    · exact hg

/-! ### The log of host calls -/

section Log

variable (s : Fds) (fd fd' : ℕ)

theorem last_hostOpened :
    (s.hostOpened fd).last fd' = if fd = fd' then some (.opened fd) else s.last fd' := by
  by_cases h : fd = fd'
  · simp [last, hostOpened, HostEvent.fd, h]
  · simp [last, hostOpened, HostEvent.fd, h]

theorem last_hostClose :
    (s.hostClose fd).last fd' = if fd = fd' then some (.closed fd) else s.last fd' := by
  by_cases h : fd = fd'
  · simp [last, hostClose, HostEvent.fd, h]
  · simp [last, hostClose, HostEvent.fd, h]

@[simp] theorem isOpen_hostOpened :
    (s.hostOpened fd).isOpen fd' = if fd' = fd then true else s.isOpen fd' := by
  simp [hostOpened, Function.update_apply]

@[simp] theorem isOpen_hostClose :
    (s.hostClose fd).isOpen fd' = if fd' = fd then false else s.isOpen fd' := by
  simp [hostClose, Function.update_apply]

@[simp] theorem table_hostOpened : (s.hostOpened fd).table = s.table := rfl
@[simp] theorem table_hostClose : (s.hostClose fd).table = s.table := rfl
@[simp] theorem contextId_hostClose : (s.hostClose fd).contextId = s.contextId := rfl
@[simp] theorem table_forget : (s.forgetFdWaitState fd).table = s.table := rfl
@[simp] theorem isOpen_forget : (s.forgetFdWaitState fd).isOpen = s.isOpen := rfl
@[simp] theorem last_forget : (s.forgetFdWaitState fd).last fd' = s.last fd' := rfl

end Log

/-! ### Opening, closing, installing -/

variable {s : Fds} {hand : Finset ℕ}

/-- A descriptor the host just opened is held. -/
theorem Holding.hostOpened (h : s.Holding hand) {fd : ℕ} (hfresh : s.isOpen fd = false) :
    (s.hostOpened fd).Holding (insert fd hand) := by
  have hout : ∀ g, s.table.lookup g ≠ some fd := by
    intro g hg
    rw [(h.usable g fd hg).1] at hfresh
    cases hfresh
  refine ⟨h.injective, ?_, ?_, ?_⟩
  · intro g fd' hg
    have hne : fd' ≠ fd := by rintro rfl; exact hout g hg
    obtain ⟨ho, hc⟩ := h.usable g fd' hg
    refine ⟨by simp [ho], ?_⟩
    rw [ClosedByLayer, last_hostOpened, if_neg (Ne.symm hne)]
    exact hc
  · intro fd' ho
    by_cases heq : fd' = fd
    · exact Or.inl (by simp [heq])
    · rw [OpenedForGuest, last_hostOpened, if_neg (Ne.symm heq)] at ho
      rcases h.kept fd' ho with hmem | hg
      · exact Or.inl (by simp [hmem])
      · exact Or.inr hg
  · intro fd' hmem
    by_cases heq : fd' = fd
    · subst heq
      refine ⟨by simp, ?_, hout⟩
      rw [ClosedByLayer, last_hostOpened, if_pos rfl]
      simp
    · have hin : fd' ∈ hand := by simpa [heq] using hmem
      obtain ⟨ho, hc, hg⟩ := h.held fd' hin
      refine ⟨by simp [ho], ?_, hg⟩
      rw [ClosedByLayer, last_hostOpened, if_neg (Ne.symm heq)]
      exact hc

/-- A host descriptor that no guest number maps to can be closed. -/
theorem Holding.hostClose (h : s.Holding hand) {fd : ℕ} (hout : ∀ g, s.table.lookup g ≠ some fd) :
    (s.hostClose fd).Holding (hand.erase fd) := by
  refine ⟨h.injective, ?_, ?_, ?_⟩
  · intro g fd' hg
    have hne : fd' ≠ fd := by rintro rfl; exact hout g hg
    obtain ⟨ho, hc⟩ := h.usable g fd' hg
    refine ⟨by simp [ho, hne], ?_⟩
    rw [ClosedByLayer, last_hostClose, if_neg (Ne.symm hne)]
    exact hc
  · intro fd' ho
    by_cases heq : fd' = fd
    · subst heq
      rw [OpenedForGuest, last_hostClose, if_pos rfl] at ho
      simp at ho
    · rw [OpenedForGuest, last_hostClose, if_neg (Ne.symm heq)] at ho
      rcases h.kept fd' ho with hmem | hg
      · exact Or.inl (by simp [hmem, heq])
      · exact Or.inr hg
  · intro fd' hmem
    obtain ⟨hne, hin⟩ := Finset.mem_erase.1 hmem
    obtain ⟨ho, hc, hg⟩ := h.held fd' hin
    refine ⟨by simp [ho, hne], ?_, hg⟩
    rw [ClosedByLayer, last_hostClose, if_neg (Ne.symm hne)]
    exact hc

/-- What is held and not mapped can be closed again. -/
theorem Holding.closeHeld (h : s.Holding hand) {fd : ℕ} (hfd : fd ∈ hand) :
    (s.hostClose fd).Holding (hand.erase fd) :=
  h.hostClose (h.held fd hfd).2.2

theorem Holding.forget (h : s.Holding hand) (fd : ℕ) : (s.forgetFdWaitState fd).Holding hand :=
  ⟨h.injective, h.usable, h.kept, h.held⟩

theorem Holding.pipes (h : s.Holding hand) (m : FdMap) :
    ({ s with pipeReadFdForWriteFd := m } : Fds).Holding hand :=
  ⟨h.injective, h.usable, h.kept, h.held⟩

theorem Holding.copyPipe (h : s.Holding hand) (a b : ℕ) : (s.copyPipeWriteMapping a b).Holding hand := by
  unfold copyPipeWriteMapping
  split
  · exact h
  · exact h.pipes _

/-- A mapping removed leaves its host descriptor held. -/
theorem Holding.erase (h : s.Holding hand) {g fd : ℕ} (hg : s.table.lookup g = some fd) :
    ({ s with table := s.table.erase g } : Fds).Holding (insert fd hand) := by
  have hsub : ∀ g' fd', (s.table.erase g).lookup g' = some fd' → g' ≠ g ∧ s.table.lookup g' = some fd' := by
    intro g' fd' hl
    by_cases heq : g' = g
    · rw [heq, AList.lookup_erase] at hl
      cases hl
    · rw [AList.lookup_erase_ne heq] at hl
      exact ⟨heq, hl⟩
  refine ⟨?_, ?_, ?_, ?_⟩
  · intro a b fd' ha hb
    exact h.injective a b fd' (hsub a fd' ha).2 (hsub b fd' hb).2
  · intro a fd' ha
    exact h.usable a fd' (hsub a fd' ha).2
  · intro fd' ho
    rcases h.kept fd' ho with hmem | ⟨a, ha⟩
    · exact Or.inl (by simp [hmem])
    · by_cases heq : a = g
      · subst heq
        rw [hg] at ha
        exact Or.inl (by simp [Option.some.inj ha])
      · exact Or.inr ⟨a, by rw [← ha]; exact AList.lookup_erase_ne heq⟩
  · intro fd' hmem
    rcases Finset.mem_insert.1 hmem with rfl | hin
    · obtain ⟨ho, hc⟩ := h.usable g fd' hg
      refine ⟨ho, hc, fun a ha => ?_⟩
      obtain ⟨hne, hl⟩ := hsub a fd' ha
      exact hne (h.injective a g fd' hl hg)
    · obtain ⟨ho, hc, hl⟩ := h.held fd' hin
      exact ⟨ho, hc, fun a ha => hl a (hsub a fd' ha).2⟩

/-- A held descriptor goes to an unused guest number. -/
theorem Holding.insert (h : s.Holding hand) {g fd : ℕ} (hfd : fd ∈ hand) (hg : s.table.lookup g = none) :
    ({ s with table := s.table.insert g fd } : Fds).Holding (hand.erase fd) := by
  obtain ⟨hopen, hclosed, hout⟩ := h.held fd hfd
  -- no number led to the descriptor in hand, so the new one is alone with it
  have hcases : ∀ a fd', (s.table.insert g fd).lookup a = some fd' →
      a = g ∧ fd' = fd ∨ a ≠ g ∧ fd' ≠ fd ∧ s.table.lookup a = some fd' := by
    intro a fd' hl
    by_cases heq : a = g
    · subst heq
      rw [AList.lookup_insert] at hl
      exact Or.inl ⟨rfl, (Option.some.inj hl).symm⟩
    · rw [AList.lookup_insert_ne heq] at hl
      refine Or.inr ⟨heq, ?_, hl⟩
      rintro rfl
      exact hout a hl
  refine ⟨?_, ?_, ?_, ?_⟩
  · intro a b fd' ha hb
    rcases hcases a fd' ha with ⟨rfl, rfl⟩ | ⟨_, hne, ha⟩ <;>
      rcases hcases b _ hb with ⟨rfl, h2⟩ | ⟨_, hne', hb⟩
    · rfl
    · exact absurd rfl hne'
    · exact absurd h2 hne
    · exact h.injective a b fd' ha hb
  · intro a fd' ha
    rcases hcases a fd' ha with ⟨rfl, rfl⟩ | ⟨_, _, ha⟩
    · exact ⟨hopen, hclosed⟩
    · exact h.usable a fd' ha
  · intro fd' ho
    by_cases heq : fd' = fd
    · exact Or.inr ⟨g, by rw [heq]; exact AList.lookup_insert _⟩
    · rcases h.kept fd' ho with hmem | ⟨a, ha⟩
      · exact Or.inl (Finset.mem_erase.2 ⟨heq, hmem⟩)
      · have hne : a ≠ g := by rintro rfl; rw [hg] at ha; cases ha
        exact Or.inr ⟨a, by rw [← ha]; exact AList.lookup_insert_ne hne⟩
  · intro fd' hmem
    obtain ⟨hne, hin⟩ := Finset.mem_erase.1 hmem
    obtain ⟨ho, hc, hl⟩ := h.held fd' hin
    refine ⟨ho, hc, fun a ha => ?_⟩
    rcases hcases a fd' ha with ⟨_, h2⟩ | ⟨_, _, ha⟩
    · exact hne h2
    · exact hl a ha

/-! ### The table as a handler finds it -/

@[simp] theorem isOpen_fdTable : s.fdTable.isOpen = s.isOpen := by
  unfold fdTable
  split <;> rfl

@[simp] theorem last_fdTable (fd : ℕ) : s.fdTable.last fd = s.last fd := by
  unfold fdTable
  split <;> rfl

theorem fdTable_of_mem {g : ℕ} (hg : g ∈ s.table) : s.fdTable = s := by
  unfold fdTable
  rw [if_neg]
  rintro ⟨_, hempty⟩
  rw [AList.mem_keys, AList.keys, List.isEmpty_iff.1 hempty] at hg
  simp at hg

@[simp] theorem fdTable_fdTable : s.fdTable.fdTable = s.fdTable := by
  by_cases h : s.contextId = 1 ∧ s.table.entries.isEmpty
  · have heq : s.fdTable = { s with table := standardFds } := if_pos h
    have hmem : 0 ∈ standardFds := by decide
    exact fdTable_of_mem (by rw [heq]; exact hmem)
  · have heq : s.fdTable = s := if_neg h
    rw [heq, heq]

theorem fdTable_hostOpened (fd : ℕ) : (s.hostOpened fd).fdTable = s.fdTable.hostOpened fd := by
  unfold fdTable
  split
  · rename_i h
    rw [if_pos (show s.contextId = 1 ∧ s.table.entries.isEmpty from h)]
    rfl
  · rename_i h
    rw [if_neg (show ¬(s.contextId = 1 ∧ s.table.entries.isEmpty) from h)]

theorem standardFds_lookup {g fd : ℕ} (h : standardFds.lookup g = some fd) : g = fd ∧ fd < 3 := by
  have hg : g < 3 := by
    by_contra hlarge
    have hnone : standardFds.lookup g = none := by
      rw [standardFds, AList.lookup_insert_ne (by omega), AList.lookup_insert_ne (by omega),
        AList.lookup_insert_ne (by omega), AList.lookup_empty]
    rw [hnone] at h
    cases h
  interval_cases g
  · have h0 : standardFds.lookup 0 = some 0 := by decide
    rw [h0] at h; cases h; simp
  · have h1 : standardFds.lookup 1 = some 1 := by decide
    rw [h1] at h; cases h; simp
  · have h2 : standardFds.lookup 2 = some 2 := by decide
    rw [h2] at h; cases h; simp

/-- Seeding keeps ownership where the table was not emptied by closes. -/
theorem Holding.fdTable (h : s.Holding hand) (hne : s.NotEmptied) (hhand : ∀ fd ∈ hand, 3 ≤ fd) :
    s.fdTable.Holding hand := by
  unfold Fds.fdTable
  split
  · rename_i hempty
    have hstd := hne hempty.1 hempty.2
    have hnone : ∀ g, s.table.lookup g = none := by
      intro g
      rw [AList.lookup_eq_none, AList.mem_keys, AList.keys, List.isEmpty_iff.1 hempty.2]
      simp
    refine ⟨?_, ?_, ?_, ?_⟩
    · intro a b fd ha hb
      rw [(standardFds_lookup ha).1, (standardFds_lookup hb).1]
    · intro g fd hg
      exact hstd fd (standardFds_lookup hg).2
    · intro fd ho
      rcases h.kept fd ho with hmem | ⟨g, hg⟩
      · exact Or.inl hmem
      · rw [hnone g] at hg
        cases hg
    · intro fd hmem
      obtain ⟨ho, hc, _⟩ := h.held fd hmem
      refine ⟨ho, hc, fun g hg => ?_⟩
      have := (standardFds_lookup hg).2
      have := hhand fd hmem
      omega
  · exact h

/-- The lowest guest number from `minimum` on that the table does not use. -/
structure Lowest (table : FdMap) (minimum g : ℕ) : Prop where
  le : minimum ≤ g
  unused : table.lookup g = none
  least : ∀ g', minimum ≤ g' → g' < g → g' ∈ table

theorem lowest_of_nextFree {table : FdMap} {turns fd g : ℕ} (h : nextFree table turns fd = some g) :
    Lowest table fd g := by
  induction turns generalizing fd with
  | zero => cases h
  | succ turns ih =>
    rw [nextFree] at h
    split at h
    · rename_i hfree
      cases h
      exact ⟨le_rfl, AList.lookup_eq_none.2 hfree, fun _ h1 h2 => by omega⟩
    · rename_i hused
      obtain ⟨hle, hnone, hleast⟩ := ih h
      refine ⟨by omega, hnone, fun g' h1 h2 => ?_⟩
      rcases Nat.eq_or_lt_of_le h1 with rfl | hlt
      · exact not_not.1 hused
      · exact hleast g' hlt h2

/-! ### Installing and closing guest numbers -/

/-- The table after `install_fd`. -/
@[simp] theorem table_installAt (fd g : ℕ) : (s.installAt fd g).table = s.table.insert g fd := by
  unfold installAt
  split
  · rfl
  · split <;> rfl

/-- A held descriptor goes to a guest number; what the number mapped to is closed. -/
theorem Holding.installAt (h : s.Holding hand) {fd g : ℕ} (hfd : fd ∈ hand)
    (hhand : ∀ a, s.table.lookup g = some a → a ∉ hand) : (s.installAt fd g).Holding (hand.erase fd) := by
  unfold Fds.installAt
  cases hg : s.table.lookup g with
  | none => exact h.insert hfd hg
  | some existing =>
    have hne : existing ≠ fd := by
      rintro rfl
      exact hhand existing hg hfd
    -- taking the old mapping out, closing what it led to, and inserting the new one
    have herased := (h.erase hg).forget existing
    have hclosed := herased.closeHeld (Finset.mem_insert_self existing hand)
    rw [Finset.erase_insert (hhand existing hg)] at hclosed
    have hnew := hclosed.insert hfd (g := g) (AList.lookup_erase _ _)
    have htable : (s.table.erase g).insert g fd = s.table.insert g fd := by
      ext1
      rw [AList.entries_insert, AList.entries_insert]
      exact congrArg _ (List.kerase_of_notMem_keys (List.notMem_keys_kerase g s.table.nodupKeys))
    simp only [hne, ne_eq, not_false_eq_true, if_true]
    have hsame : ({ (({ s with table := s.table.erase g } : Fds).forgetFdWaitState existing).hostClose existing
        with table := (s.table.erase g).insert g fd } : Fds) =
        { (s.forgetFdWaitState existing).hostClose existing with table := s.table.insert g fd } := by
      rw [htable]
      rfl
    exact hsame ▸ hnew

/-- `install_fd` without a preference takes the lowest unused number, if there is one. -/
theorem installFd_none (h : s.fdTable.Holding hand) {fd : ℕ} (hfd : fd ∈ hand) :
    s.installFd fd none = (none, s.fdTable) ∨
      ∃ g, s.installFd fd none = (some g, s.fdTable.installAt fd g) ∧ Lowest s.fdTable.table 0 g ∧
        (s.fdTable.installAt fd g).Holding (hand.erase fd) := by
  unfold installFd nextGuestFd
  simp only [fdTable_fdTable]
  cases hn : nextFree s.fdTable.table (intMax - 0) 0 with
  | none => exact Or.inl rfl
  | some g =>
    have hlow := lowest_of_nextFree hn
    refine Or.inr ⟨g, rfl, hlow, h.installAt hfd fun a ha => ?_⟩
    rw [hlow.unused] at ha
    cases ha

/-- `install_fd` with a preference replaces what the number mapped to. -/
theorem installFd_some (h : s.fdTable.Holding {fd}) (g : ℕ) :
    ∃ s', s.installFd fd (some g) = (some g, s') ∧ s'.Owned ∧ s'.table = s.fdTable.table.insert g fd := by
  refine ⟨s.fdTable.installAt fd g, rfl, ?_, table_installAt fd g⟩
  rw [owned_iff, ← Finset.erase_singleton fd]
  refine h.installAt (Finset.mem_singleton_self fd) fun a ha hmem => ?_
  rw [Finset.mem_singleton.1 hmem] at ha
  exact (h.held fd (Finset.mem_singleton_self fd)).2.2 g ha

/-- A new host descriptor is installed at the lowest unused number, or closed again. -/
theorem installNew_cases {fd : ℕ} (h : s.fdTable.Holding {fd}) :
    (∃ s', installNew s fd = (none, s') ∧ s'.Owned) ∨
      ∃ g s', installNew s fd = (some g, s') ∧ s'.Owned ∧ Lowest s.fdTable.table 0 g ∧
        s'.table = s.fdTable.table.insert g fd := by
  have hmem := Finset.mem_singleton_self fd
  rcases installFd_none h hmem with hfull | ⟨g, hg, hlow, hown⟩
  · refine Or.inl ⟨s.fdTable.hostClose fd, by simp only [installNew, hfull], ?_⟩
    rw [owned_iff, ← Finset.erase_singleton fd]
    exact h.closeHeld hmem
  · refine Or.inr ⟨g, s.fdTable.installAt fd g, by simp only [installNew, hg], ?_, hlow,
      table_installAt fd g⟩
    rw [owned_iff, ← Finset.erase_singleton fd]
    exact hown

/-- Closing a guest number takes its mapping out and closes the host descriptor. -/
theorem closeGuestFd_some (h : s.fdTable.Holding hand) (closes : ℕ → Bool) {g fd : ℕ}
    (hg : s.fdTable.table.lookup g = some fd) (hfd : fd ∉ hand) :
    ∃ s', s.closeGuestFd closes g = (closes fd, s') ∧ s'.Holding hand ∧
      s'.table = s.fdTable.table.erase g := by
  have hown := ((h.erase hg).forget fd).closeHeld (Finset.mem_insert_self fd hand)
  rw [Finset.erase_insert hfd] at hown
  exact ⟨_, by simp only [closeGuestFd, hg], hown, rfl⟩

theorem Owned.fdTable (h : s.Owned) (hne : s.NotEmptied) : s.fdTable.Owned :=
  owned_iff.2 ((owned_iff.1 h).fdTable hne (by simp))

/-- A descriptor opened before the table is looked at: it is none of the standard ones
where these are about to be mapped. -/
theorem Owned.openThenTable (h : s.Owned) (hne : s.NotEmptied) {fd : ℕ} (hfresh : s.isOpen fd = false) :
    (s.hostOpened fd).fdTable.Holding {fd} := by
  rw [fdTable_hostOpened]
  have htable := owned_iff.1 (h.fdTable hne)
  exact htable.hostOpened (by simpa using hfresh)

end Fds
end X86Sim.Linux
