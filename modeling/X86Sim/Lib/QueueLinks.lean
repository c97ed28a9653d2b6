import Mathlib.Data.List.Forall2
import Mathlib.Data.List.Nodup
import Mathlib.Logic.Function.Basic

/-!
# Doubly linked rings

Nodes with a link each way. A ring goes from its root through its nodes and back to the
root; a node that is in no list is a ring of its own.

* `Ring.unlink`: what is taken out is a ring of its own, and the rest closes behind it.
* `Ring.addlink`: what is linked in after a node comes right after it.
* `Ring.unlink_of_notMem`, `Ring.addlink_of_notMem`: no other ring notices.
-/

structure Links (ν : Type) where
  next : ν → ν
  prev : ν → ν

namespace Links

variable {ν : Type}

/-- `b` comes right after `a`. -/
def Linked (h : Links ν) (a b : ν) : Prop := h.next a = b ∧ h.prev b = a

/-- From `r` through `xs` and back. -/
structure Ring (h : Links ν) (r : ν) (xs : List ν) : Prop where
  nodup : (r :: xs).Nodup
  linked : List.Forall₂ h.Linked (r :: xs) (xs ++ [r])

/-- A node in no list. -/
abbrev Alone (h : Links ν) (x : ν) : Prop := h.Ring x []

variable {h : Links ν} {x a b c d r s : ν} {xs ys zs A B : List ν}

theorem Alone.iff : h.Alone x ↔ h.next x = x ∧ h.prev x = x :=
  ⟨fun hx => by simpa [Linked] using hx.linked, fun hx => ⟨by simp, by simpa [Linked] using hx⟩⟩

theorem forall₂_imp_mem {α β : Type} {R S : α → β → Prop} {l : List α} {m : List β}
    (hRS : ∀ a ∈ l, ∀ b ∈ m, R a b → S a b) (hR : List.Forall₂ R l m) : List.Forall₂ S l m := by
  induction hR with
  | nil => exact .nil
  | cons hab _ ih =>
    refine .cons (hRS _ List.mem_cons_self _ List.mem_cons_self hab) (ih fun a ha b hb => ?_)
    exact hRS a (List.mem_cons_of_mem _ ha) b (List.mem_cons_of_mem _ hb)

/-- The pairs of a ring, split at one of its nodes. -/
theorem Ring.split (hr : h.Ring r xs) (hA : r :: xs = A ++ a :: B) :
    ∃ b C, B ++ [r] = b :: C ∧ List.Forall₂ h.Linked A (A ++ [a]).tail ∧ h.Linked a b ∧
      List.Forall₂ h.Linked B C := by
  have hlinked := hr.linked
  have htail : xs ++ [r] = (A ++ [a]).tail ++ (B ++ [r]) := by
    cases A with
    | nil => rw [List.nil_append, List.cons.injEq] at hA; simp [hA.2]
    | cons y A => rw [List.cons_append, List.cons.injEq] at hA; simp [hA.2]
  obtain ⟨b, C, hB⟩ : ∃ b C, B ++ [r] = b :: C := List.exists_cons_of_ne_nil (by simp)
  rw [hA, htail, hB] at hlinked
  have hlen : A.length = (A ++ [a]).tail.length := by simp
  have h1 := List.forall₂_take A.length hlinked
  have h2 := List.forall₂_drop A.length hlinked
  rw [List.take_left' rfl, List.take_left' hlen.symm] at h1
  rw [List.drop_left' rfl, List.drop_left' hlen.symm, List.forall₂_cons] at h2
  exact ⟨b, C, hB, h1, h2.1, h2.2⟩

/-- The links around a node of a ring close over it. -/
theorem Ring.around (hr : h.Ring r xs) (hx : x ∈ r :: xs) :
    h.next (h.prev x) = x ∧ h.prev (h.next x) = x := by
  obtain ⟨A, B, hA⟩ := List.append_of_mem hx
  obtain ⟨b, C, -, -, hxb, -⟩ := hr.split hA
  refine ⟨?_, by rw [hxb.1]; exact hxb.2⟩
  have hmem : x ∈ xs ++ [r] := by simpa [or_comm] using hx
  obtain ⟨i, hi, hix⟩ := List.getElem_of_mem hmem
  have hlen := hr.linked.length_eq
  have hp := hr.linked.get (i := i) (by rw [hlen]; exact hi) hi
  simp only [List.get_eq_getElem, hix] at hp
  rw [hp.2]
  exact hp.1

/-- The last node of a ring is the one before its root. -/
theorem Ring.last (hr : h.Ring r xs) : ∃ A, r :: xs = A ++ [h.prev r] ∧ h.Linked (h.prev r) r := by
  obtain ⟨A, z, hz⟩ : ∃ A z, r :: xs = A ++ [z] :=
    ⟨(r :: xs).dropLast, (r :: xs).getLast (by simp), (List.dropLast_append_getLast _).symm⟩
  obtain ⟨b, C, hbC, -, hzb, -⟩ := hr.split hz
  rw [List.nil_append, List.cons.injEq] at hbC
  obtain ⟨rfl, rfl⟩ := hbC
  rw [hzb.2]
  exact ⟨A, hz, hzb⟩

/-! ### Linking and unlinking -/

variable [DecidableEq ν]

/-- The links of `x` close over it, then it points to itself. -/
def unlink (h : Links ν) (x : ν) : Links ν where
  next := Function.update (Function.update h.next (h.prev x) (h.next x)) x x
  prev := Function.update (Function.update h.prev (h.next x) (h.prev x)) x x

/-- `x` between `a` and `b`. -/
def addlink (h : Links ν) (x a b : ν) : Links ν where
  next := Function.update (Function.update h.next x b) a x
  prev := Function.update (Function.update h.prev b x) x a

/-- First after the root, and last before it. -/
def addhead (h : Links ν) (x r : ν) : Links ν := h.addlink x r (h.next r)
def addtail (h : Links ν) (x r : ν) : Links ν := h.addlink x (h.prev r) r

/-! ### One pair -/

/-- A pair without `x` stays linked when `x` goes. -/
theorem Linked.unlink (hab : h.Linked a b) (hx : h.next (h.prev x) = x) (hx' : h.prev (h.next x) = x)
    (ha : a ≠ x) (hb : b ≠ x) : (h.unlink x).Linked a b := by
  obtain ⟨h1, h2⟩ := hab
  have hap : a ≠ h.prev x := by
    rintro rfl
    exact hb (h1.symm.trans hx)
  have hbn : b ≠ h.next x := by
    rintro rfl
    exact ha (h2.symm.trans hx')
  constructor
  · show Function.update (Function.update h.next _ _) x x a = b
    rw [Function.update_of_ne ha, Function.update_of_ne hap, h1]
  · show Function.update (Function.update h.prev _ _) x x b = a
    rw [Function.update_of_ne hb, Function.update_of_ne hbn, h2]

/-- What was around `x` is linked then. -/
theorem unlink_around (hax : h.Linked a x) (hxb : h.Linked x b) (ha : a ≠ x) (hb : b ≠ x) :
    (h.unlink x).Linked a b := by
  constructor
  · show Function.update (Function.update h.next (h.prev x) (h.next x)) x x a = b
    rw [Function.update_of_ne ha, hax.2, Function.update_self, hxb.1]
  · show Function.update (Function.update h.prev (h.next x) (h.prev x)) x x b = a
    rw [Function.update_of_ne hb, hxb.1, Function.update_self, hax.2]

/-- Another pair stays linked when `x` comes between `a` and `b`. -/
theorem Linked.addlink (hcd : h.Linked c d) (hab : h.Linked a b) (hca : c ≠ a) (hc : c ≠ x)
    (hd : d ≠ x) : (h.addlink x a b).Linked c d := by
  obtain ⟨h1, h2⟩ := hcd
  have hdb : d ≠ b := by
    rintro rfl
    exact hca (h2.symm.trans hab.2)
  constructor
  · show Function.update (Function.update h.next x b) a x c = d
    rw [Function.update_of_ne hca, Function.update_of_ne hc, h1]
  · show Function.update (Function.update h.prev b x) x a d = c
    rw [Function.update_of_ne hd, Function.update_of_ne hdb, h2]

theorem addlink_before (h : Links ν) (x a b : ν) : (h.addlink x a b).Linked a x :=
  ⟨Function.update_self _ _ _, Function.update_self _ _ _⟩

theorem addlink_after (hxa : x ≠ a) (hxb : b ≠ x) : (h.addlink x a b).Linked x b := by
  constructor
  · show Function.update (Function.update h.next x b) a x x = b
    rw [Function.update_of_ne hxa, Function.update_self]
  · show Function.update (Function.update h.prev b x) x a b = x
    rw [Function.update_of_ne hxb, Function.update_self]

/-! ### Rings -/

/-- A ring without `x` does not notice when `x` goes. -/
theorem Ring.unlink_of_notMem (hs : h.Ring s ys) (hx : h.next (h.prev x) = x)
    (hx' : h.prev (h.next x) = x) (hxs : x ∉ s :: ys) : (h.unlink x).Ring s ys := by
  refine ⟨hs.nodup, forall₂_imp_mem (fun a ha b hb hab => hab.unlink hx hx' ?_ ?_) hs.linked⟩
  · rintro rfl; exact hxs ha
  · rintro rfl; exact hxs (by simpa [or_comm] using hb)

theorem Ring.unlink (hr : h.Ring r (A ++ x :: B)) :
    (h.unlink x).Ring r (A ++ B) ∧ (h.unlink x).Alone x := by
  have hnd := hr.nodup
  obtain ⟨hx, hx'⟩ := hr.around (x := x) (by simp)
  have hxr : x ≠ r := by
    rintro rfl
    simp at hnd
  refine ⟨?_, Alone.iff.2 ⟨Function.update_self _ _ _, Function.update_self _ _ _⟩⟩
  have hsub : (r :: (A ++ B)).Sublist (r :: (A ++ x :: B)) := by simp
  have hnot : x ∉ r :: (A ++ B) := by
    have hperm : (r :: (A ++ x :: B)).Perm (x :: r :: (A ++ B)) :=
      (List.perm_middle.cons r).trans (List.Perm.swap x r _)
    exact (List.nodup_cons.1 (hperm.nodup_iff.1 hnd)).1
  refine ⟨hnd.sublist hsub, ?_⟩
  obtain ⟨A₀, z, hz⟩ : ∃ A₀ z, r :: A = A₀ ++ [z] :=
    ⟨(r :: A).dropLast, (r :: A).getLast (by simp), (List.dropLast_append_getLast _).symm⟩
  have hcut : r :: (A ++ x :: B) = A₀ ++ z :: x :: B := by
    rw [← List.cons_append, hz]; simp
  -- the ring is cut at the neighbours of `x`: only the links between them change
  obtain ⟨b, C, hbC, h1, hzx, h2⟩ := hr.split hcut
  rw [List.cons_append, List.cons.injEq] at hbC
  obtain ⟨rfl, rfl⟩ := hbC
  obtain ⟨b, C, hbC, -, hxb, h3⟩ := hr.split (A := A₀ ++ [z]) (a := x) (B := B) (by rw [hcut]; simp)
  have hlist : A ++ B ++ [r] = (A₀ ++ [z]).tail ++ b :: C := by
    rw [List.append_assoc, hbC, ← hz]; rfl
  have hmemA : ∀ y ∈ A₀ ++ [z], y ∈ r :: (A ++ B) := by
    intro y hy
    rw [← hz] at hy
    rcases List.mem_cons.1 hy with rfl | hy
    · simp
    · simp [hy]
  have hmemB : ∀ y ∈ b :: C, y ∈ r :: (A ++ B) := by
    intro y hy
    rw [← hbC] at hy
    simp only [List.mem_append, List.mem_singleton] at hy
    rcases hy with hy | rfl
    · simp [hy]
    · simp
  have hne : ∀ y ∈ r :: (A ++ B), y ≠ x := by
    rintro y hy rfl
    exact hnot hy
  rw [← List.cons_append, hz, hlist, List.append_assoc]
  refine List.rel_append ?_ (.cons ?_ ?_)
  · exact forall₂_imp_mem (fun a ha b hb hab => hab.unlink hx hx'
      (hne a (hmemA a (by simp [ha]))) (hne b (hmemA b (List.mem_of_mem_tail hb)))) h1
  · exact unlink_around hzx hxb (hne z (hmemA z (by simp))) (hne b (hmemB b (by simp)))
  · exact forall₂_imp_mem (fun a ha d hd had => had.unlink hx hx'
      (hne a (List.mem_cons_of_mem r (List.mem_append_right A ha))) (hne d (hmemB d (by simp [hd])))) h3

/-- A ring with neither `x` nor `a` does not notice when `x` comes after `a`. -/
theorem Ring.addlink_of_notMem (hs : h.Ring s ys) (hab : h.Linked a b) (hxs : x ∉ s :: ys)
    (has : a ∉ s :: ys) : (h.addlink x a b).Ring s ys := by
  refine ⟨hs.nodup, forall₂_imp_mem (fun c hc d hd hcd => hcd.addlink hab ?_ ?_ ?_) hs.linked⟩
  · rintro rfl; exact has hc
  · rintro rfl; exact hxs hc
  · rintro rfl; exact hxs (by simpa [or_comm] using hd)

/-- `x` comes right after `a`. -/
theorem Ring.addlink (hr : h.Ring r xs) (hxs : x ∉ r :: xs) (hA : r :: xs = A ++ a :: B)
    (hys : r :: ys = A ++ a :: x :: B) (hab : h.Linked a b) : (h.addlink x a b).Ring r ys := by
  obtain ⟨b', C, hbC, h1, hab', h2⟩ := hr.split hA
  obtain rfl : b' = b := hab'.1.symm.trans hab.1
  have hnd := hr.nodup
  have hmem : ∀ y ∈ A ++ a :: B, y ≠ x := by
    rintro y hy rfl
    exact hxs (hA ▸ hy)
  have hr' : r ∈ A ++ a :: B := by rw [← hA]; simp
  have hmemC : ∀ y ∈ b' :: C, y ≠ x := by
    intro y hy
    rw [← hbC] at hy
    simp only [List.mem_append, List.mem_singleton] at hy
    rcases hy with hy | rfl
    · exact hmem y (by simp [hy])
    · exact hmem _ hr'
  have hperm : (r :: ys).Perm (x :: r :: xs) := by
    rw [hys, hA]
    have hmid : ((A ++ [a]) ++ x :: B).Perm (x :: ((A ++ [a]) ++ B)) := List.perm_middle
    simpa using hmid
  -- `x` stands between `a` and `b`, and the rest of the ring is as it was
  have htail : ys ++ [r] = (A ++ [a]).tail ++ x :: b' :: C := by
    rw [← hbC]
    cases A with
    | nil => rw [List.nil_append, List.cons.injEq] at hys; simp [hys.2]
    | cons y A => rw [List.cons_append, List.cons.injEq] at hys; simp [hys.2]
  rw [hA] at hnd
  have haA : a ∉ A := fun ha => (List.disjoint_of_nodup_append hnd) ha List.mem_cons_self
  have haB : a ∉ B := (List.nodup_cons.1 (List.nodup_append.1 hnd).2.1).1
  refine ⟨hperm.nodup_iff.2 (List.nodup_cons.2 ⟨hxs, hr.nodup⟩), ?_⟩
  rw [hys, htail]
  refine List.rel_append ?_ (.cons (addlink_before h x a b') (.cons ?_ ?_))
  · refine forall₂_imp_mem (fun c hc d hd hcd => hcd.addlink hab ?_ (hmem c (by simp [hc])) ?_) h1
    · rintro rfl; exact haA hc
    · refine hmem d ?_
      have := List.mem_of_mem_tail hd
      simp only [List.mem_append, List.mem_singleton] at this
      rcases this with hd | rfl <;> simp_all
  · exact addlink_after (hmem a (by simp)).symm (hmemC b' (by simp))
  · refine forall₂_imp_mem (fun c hc d hd hcd => hcd.addlink hab ?_ (hmem c (by simp [hc]))
      (hmemC d (by simp [hd]))) h2
    rintro rfl; exact haB hc

theorem Ring.addhead (hr : h.Ring r xs) (hxs : x ∉ r :: xs) (hA : r :: xs = A ++ a :: B)
    (hys : r :: ys = A ++ a :: x :: B) : (h.addhead x a).Ring r ys := by
  obtain ⟨b, C, -, -, hab, -⟩ := hr.split hA
  exact hr.addlink hxs hA hys ⟨rfl, by rw [hab.1]; exact hab.2⟩

theorem Ring.addtail (hr : h.Ring r xs) (hxs : x ∉ r :: xs) : (h.addtail x r).Ring r (xs ++ [x]) := by
  obtain ⟨A, hA, hlast⟩ := hr.last
  exact hr.addlink hxs hA (by rw [← List.cons_append, hA]; simp) hlast

end Links
