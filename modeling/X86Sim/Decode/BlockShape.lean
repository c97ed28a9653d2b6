import X86Sim.Decode.TraceDecoder
import X86Sim.Lib.Loops

/-!
# The shape of a basic block
-/

namespace X86Sim

open Loops

/-! ### Instructions of a block -/

/-- Among the writers of register `r`, the last one is marked final, and no other. -/
def LastWriter (r : Reg) (g : List BlockUop) : Prop :=
  ∃ before u after, g = before ++ u :: after ∧ u.rd = r ∧ u.finalArchInInsn = true ∧
    (∀ v ∈ after, v.rd ≠ r) ∧ ∀ v ∈ before, v.rd = r → v.finalArchInInsn = false

/-- The uops of one instruction of `bytes` bytes. -/
structure WholeInsn (bytes : ℕ) (g : List BlockUop) : Prop where
  som : ∃ first rest, g = first :: rest ∧ first.som = true ∧ ∀ u ∈ rest, u.som = false
  eom : ∃ init last, g = init ++ [last] ∧ last.eom = true ∧ ∀ u ∈ init, u.eom = false
  bytes : ∀ u ∈ g, u.bytes = bytes
  final : ∀ r, r.isArch = true → (∃ u ∈ g, u.rd = r) → LastWriter r g

/-! ### The buffer as an instruction -/

section Marked

variable {d : TraceDecoder} {buf : List TransOp} {bytes : ℕ}

/-- The last writer of a register is the one found. -/
theorem finalArchregWriter_append {before after : List TransOp} {u : TransOp} {r : Reg} (hr : r.isArch = true)
    (hu : u.rd = r) (hafter : ∀ v ∈ after, v.rd ≠ r) :
    finalArchregWriter (before ++ u :: after) r = some before.length := by
  rw [finalArchregWriter, List.zipIdx_append, List.zipIdx_cons, List.foldl_append, List.foldl_cons]
  rw [foldl_keep fun writer : Reg → Option ℕ => writer r]
  · rw [hu, if_pos hr, Function.update_self, Nat.zero_add]
  · intro writer v hv
    have hne : r ≠ v.1.rd := (hafter _ (List.fst_mem_of_mem_zipIdx hv)).symm
    by_cases harch : v.1.rd.isArch = true
    · rw [if_pos harch, Function.update_of_ne hne]
    · rw [if_neg harch]

theorem exists_last_writer {r : Reg} (h : ∃ u ∈ buf, u.rd = r) :
    ∃ before u after, buf = before ++ u :: after ∧ u.rd = r ∧ ∀ v ∈ after, v.rd ≠ r := by
  induction buf with
  | nil =>
    obtain ⟨u, hu, -⟩ := h
    exact absurd hu List.not_mem_nil
  | cons v buf ih =>
    by_cases hrest : ∃ u ∈ buf, u.rd = r
    · obtain ⟨before, u, after, rfl, hu, hafter⟩ := ih hrest
      exact ⟨v :: before, u, after, rfl, hu, hafter⟩
    · obtain ⟨u, hu, hur⟩ := h
      have huv : u = v := by
        rcases List.mem_cons.1 hu with rfl | hmem
        · rfl
        · exact absurd ⟨u, hmem, hur⟩ hrest
      refine ⟨[], v, buf, rfl, huv ▸ hur, fun w hw hwr => hrest ⟨w, hw, hwr⟩⟩

/-- The uops of a part of the buffer, from index `k` on. -/
def markFrom (d : TraceDecoder) (bytes : ℕ) (l : List TransOp) (k : ℕ) : List BlockUop :=
  (l.zipIdx k).map fun u => d.mark bytes u.1 u.2

theorem marked_eq {before after : List TransOp} {u : TransOp} (hbuf : d.transbuf = before ++ u :: after) :
    d.marked bytes = markFrom d bytes before 0 ++ d.mark bytes u before.length ::
      markFrom d bytes after (before.length + 1) := by
  rw [TraceDecoder.marked, hbuf, List.zipIdx_append, List.zipIdx_cons, List.map_append, List.map_cons, Nat.zero_add]
  rfl

theorem mem_markFrom {l : List TransOp} {k : ℕ} {v : BlockUop} (hv : v ∈ markFrom d bytes l k) :
    ∃ u i, u ∈ l ∧ k ≤ i ∧ i < k + l.length ∧ v = d.mark bytes u i := by
  obtain ⟨⟨u, i⟩, hmem, rfl⟩ := List.mem_map.1 hv
  obtain ⟨hle, hlt, heq⟩ := List.mem_zipIdx hmem
  refine ⟨u, i, ?_, hle, hlt, rfl⟩
  rw [heq]
  exact List.getElem_mem _

theorem marked_bytes {v : BlockUop} (hv : v ∈ d.marked bytes) : v.bytes = bytes := by
  obtain ⟨u, i, -, -, -, rfl⟩ := mem_markFrom hv
  rfl

theorem marked_rd {v : BlockUop} (hv : v ∈ d.marked bytes) : ∃ u ∈ d.transbuf, u.rd = v.rd := by
  obtain ⟨u, i, hu, -, -, rfl⟩ := mem_markFrom hv
  exact ⟨u, hu, rfl⟩

variable (hfresh : ∀ u ∈ d.transbuf, u.som = false ∧ u.eom = false)
include hfresh

/-- Only the first uop of the buffer may start an instruction. -/
theorem marked_som (hne : d.transbuf ≠ []) :
    ∃ first rest, d.marked bytes = first :: rest ∧ first.som = !d.joinWithPrevInsn ∧
      ∀ u ∈ rest, u.som = false := by
  obtain ⟨u, us, hbuf⟩ := List.exists_cons_of_ne_nil hne
  have hmarked := @marked_eq d bytes [] us u hbuf
  refine ⟨_, _, hmarked, rfl, ?_⟩
  intro v hv
  obtain ⟨w, i, hw, hle, -, rfl⟩ := mem_markFrom hv
  have hi : ¬ i = 0 := by
    intro h
    rw [h] at hle
    exact absurd hle (by decide)
  have hsom : (d.mark bytes w i).som = w.som := if_neg hi
  rw [hsom]
  exact (hfresh w (hbuf ▸ List.mem_cons_of_mem u hw)).1

/-- Only the last uop of the buffer ends one. -/
theorem marked_eom (hne : d.transbuf ≠ []) :
    ∃ init last, d.marked bytes = init ++ [last] ∧ last.eom = true ∧ ∀ u ∈ init, u.eom = false := by
  have hbuf := (List.dropLast_append_getLast hne).symm
  have hmarked := @marked_eq d bytes _ [] _ hbuf
  have hlen : d.transbuf.dropLast.length + 1 = d.transbuf.length := by
    have hpos := List.length_pos_of_ne_nil hne
    rw [List.length_dropLast]
    omega
  refine ⟨_, _, hmarked, if_pos hlen, ?_⟩
  intro v hv
  obtain ⟨w, i, hw, -, hlt, rfl⟩ := mem_markFrom hv
  have hi : ¬ i + 1 = d.transbuf.length := by omega
  have heom : (d.mark bytes w i).eom = w.eom := if_neg hi
  rw [heom]
  exact (hfresh w (List.dropLast_subset _ hw)).2

omit hfresh in
theorem marked_final {r : Reg} (hr : r.isArch = true) (h : ∃ u ∈ d.transbuf, u.rd = r) :
    LastWriter r (d.marked bytes) := by
  obtain ⟨before, u, after, hbuf, hu, hafter⟩ := exists_last_writer h
  have hwriter : finalArchregWriter d.transbuf r = some before.length := by
    rw [hbuf]
    exact finalArchregWriter_append hr hu hafter
  have hfinal : ∀ w i, w.rd = r → (d.mark bytes w i).finalArchInInsn = (some before.length == some i) := by
    rintro w i rfl
    have hmark : (d.mark bytes w i).finalArchInInsn =
        (w.rd.isArch && finalArchregWriter d.transbuf w.rd == some i) := rfl
    rw [hmark, hr, hwriter, Bool.true_and]
  refine ⟨_, _, _, marked_eq hbuf, hu, ?_, ?_, ?_⟩
  · rw [hfinal _ _ hu]
    simp
  · intro v hv
    obtain ⟨w, i, hw, -, -, rfl⟩ := mem_markFrom hv
    exact hafter w hw
  · intro v hv hvr
    obtain ⟨w, i, -, -, hlt, rfl⟩ := mem_markFrom hv
    rw [hfinal w i hvr]
    have hne : before.length ≠ i := by omega
    simpa using hne

/-- The buffer as an instruction of its own. -/
theorem marked_whole (hne : d.transbuf ≠ []) (hjoin : d.joinWithPrevInsn = false) :
    WholeInsn bytes (d.marked bytes) := by
  obtain ⟨first, rest, hcons, hsom, hothers⟩ := marked_som hfresh hne
  rw [hjoin] at hsom
  refine ⟨⟨first, rest, hcons, hsom, hothers⟩, marked_eom hfresh hne, fun u hu => marked_bytes hu, ?_⟩
  rintro r hr ⟨v, hv, hvr⟩
  obtain ⟨u, hu, hur⟩ := marked_rd hv
  exact marked_final hr ⟨u, hu, hur.trans hvr⟩

end Marked

/-! ### Reopening an instruction -/

/-- A uop of a reopened instruction. -/
def reopened (u : BlockUop) : BlockUop := { u with eom := false, finalFlagsInInsn := false }

section Reopen

variable {d : TraceDecoder} {g : List BlockUop} {bytes : ℕ}

/-- The walk back stops at the start of the last instruction. -/
theorem reopenLoop_append (g : List BlockUop) (front : List BlockUop) {first : BlockUop}
    (hfirst : first.som = true) (hg : ∀ u ∈ g, u.som = false) :
    TraceDecoder.reopenLoop (g ++ first :: front) =
      (g.map reopened ++ reopened first :: front, some first.bytes) := by
  induction g with
  | nil =>
    rw [List.nil_append, TraceDecoder.reopenLoop, if_pos hfirst]
    rfl
  | cons u g ih =>
    have hu : ¬ u.som = true := by
      rw [hg u List.mem_cons_self]
      decide
    rw [List.cons_append, TraceDecoder.reopenLoop, if_neg hu, ih fun v hv => hg v (List.mem_cons_of_mem u hv)]
    rfl

theorem reopenLoop_whole (h : WholeInsn bytes g) (front : List BlockUop) :
    TraceDecoder.reopenLoop (front ++ g).reverse = ((front ++ g.map reopened).reverse, some bytes) := by
  obtain ⟨first, rest, rfl, hfirst, hrest⟩ := h.som
  have hreversed : (front ++ first :: rest).reverse = rest.reverse ++ first :: front.reverse := by simp
  have hrest' : ∀ u ∈ rest.reverse, u.som = false := fun u hu => hrest u (List.mem_reverse.1 hu)
  rw [hreversed, reopenLoop_append _ _ hfirst hrest', h.bytes first List.mem_cons_self]
  simp

/-- A reopened instruction, closed by a buffer that writes none of its registers. -/
theorem WholeInsn.join (h : WholeInsn bytes g) (hfresh : ∀ u ∈ d.transbuf, u.som = false ∧ u.eom = false)
    (hne : d.transbuf ≠ []) (hjoin : d.joinWithPrevInsn = true)
    (hrd : ∀ r, r.isArch = true → (∃ u ∈ d.transbuf, u.rd = r) → ∀ v ∈ g, v.rd ≠ r) :
    WholeInsn bytes (g.map reopened ++ d.marked bytes) := by
  obtain ⟨first, rest, rfl, hfirst, hrest⟩ := h.som
  obtain ⟨mfirst, mrest, hmarked, hmsom, hmothers⟩ := @marked_som d bytes hfresh hne
  obtain ⟨init, last, hlast, heom, hinit⟩ := @marked_eom d bytes hfresh hne
  rw [hjoin] at hmsom
  refine ⟨⟨reopened first, rest.map reopened ++ d.marked bytes, rfl, hfirst, ?_⟩,
    ⟨(first :: rest).map reopened ++ init, last, ?_, heom, ?_⟩, ?_, ?_⟩
  · intro u hu
    rcases List.mem_append.1 hu with hu | hu
    · obtain ⟨v, hv, rfl⟩ := List.mem_map.1 hu
      exact hrest v hv
    · rw [hmarked] at hu
      rcases List.mem_cons.1 hu with rfl | hu
      · exact hmsom
      · exact hmothers u hu
  · rw [hlast, List.append_assoc]
  · intro u hu
    rcases List.mem_append.1 hu with hu | hu
    · obtain ⟨v, -, rfl⟩ := List.mem_map.1 hu
      rfl
    · exact hinit u hu
  · intro u hu
    rcases List.mem_append.1 hu with hu | hu
    · obtain ⟨v, hv, rfl⟩ := List.mem_map.1 hu
      exact h.bytes v hv
    · exact marked_bytes hu
  · rintro r hr ⟨w, hw, hwr⟩
    -- the last writer of a register is in one of the two halves, never in both
    by_cases htail : ∃ u ∈ d.transbuf, u.rd = r
    · -- only the buffer writes `r`
      obtain ⟨before, u, after, heq, hu, hfinal, hafter, hbefore⟩ := @marked_final d bytes r hr htail
      refine ⟨(first :: rest).map reopened ++ before, u, after, ?_, hu, hfinal, hafter, ?_⟩
      · rw [heq, List.append_assoc]
      · intro v hv hvr
        rcases List.mem_append.1 hv with hv | hv
        · obtain ⟨v₀, hv₀, rfl⟩ := List.mem_map.1 hv
          exact absurd hvr (hrd r hr htail v₀ hv₀)
        · exact hbefore v hv hvr
    · -- only the reopened instruction does
      have hnone : ∀ v ∈ d.marked bytes, v.rd ≠ r := by
        intro v hv hvr
        obtain ⟨u, hu, hur⟩ := marked_rd hv
        exact htail ⟨u, hu, hur.trans hvr⟩
      have hold : ∃ u ∈ first :: rest, u.rd = r := by
        rcases List.mem_append.1 hw with hw | hw
        · obtain ⟨w₀, hw₀, rfl⟩ := List.mem_map.1 hw
          exact ⟨w₀, hw₀, hwr⟩
        · exact absurd hwr (hnone w hw)
      obtain ⟨before, u, after, heq, hu, hfinal, hafter, hbefore⟩ := h.final r hr hold
      refine ⟨before.map reopened, reopened u, after.map reopened ++ d.marked bytes, ?_, hu, hfinal, ?_, ?_⟩
      · rw [heq]
        simp
      · intro v hv
        rcases List.mem_append.1 hv with hv | hv
        · obtain ⟨v₀, hv₀, rfl⟩ := List.mem_map.1 hv
          exact hafter v₀ hv₀
        · exact hnone v hv
      · intro v hv hvr
        obtain ⟨v₀, hv₀, rfl⟩ := List.mem_map.1 hv
        exact hbefore v₀ hv₀ hvr

end Reopen

end X86Sim
