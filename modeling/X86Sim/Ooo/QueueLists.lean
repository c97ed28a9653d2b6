import X86Sim.Lib.QueueLinks
import X86Sim.Lib.StateLists
import X86Sim.Ooo.Recovery

/-!
# State lists as linked objects (`selfqueuelink`, `StateList`, `changestate`)

The lists of the scheduler and of the physical register files as the source keeps them:
each list is a node with two links and a count, each object a node and a pointer to its
list. `Represents` relates them to the lists the pipeline is modelled with.

* `changestate_refines`, `changestateAfter_refines`: one call, and `execQueues_refines` any
  run of them from the reset on, with no assertion failing.
* `foreach_visits`: a loop over a list visits what was in it at its start, each object
  once, although its body moves the object it is at.
-/

namespace X86Sim.Ooo

/-- A list, or an object. -/
inductive Node (σ : Type)
  | head (s : σ)
  | obj (i : ℕ)
  deriving DecidableEq

structure QueueLists (σ : Type) where
  links : Links (Node σ)
  count : σ → ℤ
  currentStateList : ℕ → Option σ

namespace QueueLists

open Node

variable {σ : Type}

/-- `StateList::reset` and `selfqueuelink::reset`: every node points to itself. -/
def reset : QueueLists σ := ⟨⟨id, id⟩, fun _ => 0, fun _ => none⟩

variable [DecidableEq σ] (q : QueueLists σ)

/-- `StateList::empty` and `peek`. -/
def isEmpty (s : σ) : Bool := q.links.next (head s) = head s
def peek (s : σ) : Option (Node σ) := if q.isEmpty s then none else some (q.links.next (head s))

def unlinked (n : Node σ) : Bool := q.links.prev n = n && q.links.next n = n

/-- `StateList::remove`, if no assertion fails. -/
def remove (s : σ) (i : ℕ) : Option (QueueLists σ) :=
  if q.unlinked (obj i) then none
  else if q.count s - 1 < 0 then none
  else some { q with
    links := q.links.unlink (obj i)
    count := Function.update q.count s (q.count s - 1) }

def enqueue (s : σ) (i : ℕ) : QueueLists σ :=
  { q with
    links := q.links.addtail (obj i) (head s)
    count := Function.update q.count s (q.count s + 1) }

def enqueueAfter (s : σ) (i : ℕ) (preventry : Option ℕ) : QueueLists σ :=
  { q with
    links := q.links.addhead (obj i) (match preventry with | none => head s | some p => obj p)
    count := Function.update q.count s (q.count s + 1) }

/-- `changestate`: `place` is `none` without `place_at_head`, else the entry before. -/
def changestate (i : ℕ) (newqueue : σ) (place : Option (Option ℕ)) : Option (QueueLists σ) :=
  let q? := match q.currentStateList i with
    | none => some q
    | some s => q.remove s i
  q?.map fun q =>
    let q := { q with currentStateList := Function.update q.currentStateList i (some newqueue) }
    match place with
    | none => q.enqueue newqueue i
    | some prevrob => q.enqueueAfter newqueue i prevrob

/-- `foreach_list_mutable`: the objects visited from `entry` on, and what is left of the
lists. The fuel bounds the turns. -/
def foreachListMutable (body : ℕ → QueueLists σ → QueueLists σ) (s : σ) :
    ℕ → Node σ → QueueLists σ → Option (List ℕ × QueueLists σ)
  | 0, _, _ => none
  | _ + 1, head t, q => if t = s then some ([], q) else none
  | n + 1, obj i, q =>
    let nextentry := q.links.next (obj i)
    (foreachListMutable body s n nextentry (body i q)).map fun r => (i :: r.1, r.2)

end QueueLists

/-! ### Refinement -/

open Node QueueLists

section

variable {σ : Type} {q q' : QueueLists σ} {l l' : StateLists σ} {i j p : ℕ} {s t : σ}

/-- The nodes are linked as the lists say, but for `i`, which is in no list. -/
structure Detached (i : ℕ) (q : QueueLists σ) (l : StateLists σ) : Prop where
  ring : ∀ s, q.links.Ring (head s) ((l.members s).map obj)
  alone : ∀ j, j = i ∨ l.current j = none → q.links.Alone (obj j)
  count : ∀ s, q.count s = l.count s
  current : q.currentStateList = l.current
  out : ∀ s, i ∉ l.members s
  own : ∀ s k, k ∈ l.members s → l.current k = some s

/-- The nodes are linked as the lists say. -/
structure Represents (q : QueueLists σ) (l : StateLists σ) : Prop where
  ring : ∀ s, q.links.Ring (head s) ((l.members s).map obj)
  alone : ∀ j, l.current j = none → q.links.Alone (obj j)
  count : ∀ s, q.count s = l.count s
  current : q.currentStateList = l.current

theorem represents_reset : Represents (QueueLists.reset : QueueLists σ) StateLists.empty :=
  ⟨fun _ => Links.Alone.iff.2 ⟨rfl, rfl⟩, fun _ _ => Links.Alone.iff.2 ⟨rfl, rfl⟩, fun _ => rfl, rfl⟩

theorem not_mem_ring (hi : i ∉ l.members s) : obj i ∉ head s :: (l.members s).map obj := by
  simpa using hi

/-- Where an object of a list is. -/
theorem members_split (hl : l.WF) (hc : l.current i = some t) :
    ∃ A B, l.members t = A ++ i :: B ∧ i ∉ A ∧ i ∉ B := by
  obtain ⟨A, B, hAB⟩ := List.append_of_mem ((hl.mem_iff i t).2 hc)
  have hnd := hl.nodup t
  rw [hAB] at hnd
  exact ⟨A, B, hAB, fun hm => (List.disjoint_of_nodup_append hnd) hm List.mem_cons_self,
    (List.nodup_cons.1 (List.nodup_append.1 hnd).2.1).1⟩

/-- An object in no list is detached already. -/
theorem Represents.detached (h : Represents q l) (hl : l.WF) (hc : l.current i = none) :
    Detached i q l where
  ring := h.ring
  alone j hj := h.alone j (hj.elim (fun hji => hji ▸ hc) id)
  count := h.count
  current := h.current
  out s hs := by rw [hl.mem_iff, hc] at hs; cases hs
  own s k hk := (hl.mem_iff k s).1 hk

variable [DecidableEq σ]

/-- No assertion of `remove` fails on an object of the list. -/
theorem Represents.remove_eq (h : Represents q l) (hl : l.WF) (hc : l.current i = some t) :
    q.remove t i = some { q with
      links := q.links.unlink (obj i)
      count := Function.update q.count t (q.count t - 1) } := by
  obtain ⟨A, B, hAB, hA, hB⟩ := members_split hl hc
  have hring := h.ring t
  rw [hAB, List.map_append, List.map_cons] at hring
  have hlinked : q.unlinked (obj i) = false := by
    obtain ⟨b, C, hb, -, hnext, -⟩ := hring.split (A := head t :: A.map obj) (a := obj i)
      (B := B.map obj) (by simp)
    have hne : q.links.next (obj i) ≠ obj i := by
      rw [hnext.1]
      rintro rfl
      have hm : obj i ∈ B.map obj ++ [head t] := by rw [hb]; simp
      simp [hB] at hm
    unfold QueueLists.unlinked
    simp [hne]
  have hpos : ¬q.count t - 1 < 0 := by
    rw [h.count, hl.count_eq, hAB]
    simp only [List.length_append, List.length_cons]
    omega
  unfold QueueLists.remove
  rw [hlinked, if_neg (by simp), if_neg hpos]

/-- What an object is taken out of. -/
theorem Represents.detach (h : Represents q l) (hl : l.WF) (i : ℕ) :
    ∃ q', (match q.currentStateList i with
      | none => some q
      | some s => q.remove s i) = some q' ∧ Detached i q' (l.remove i) := by
  rw [h.current]
  cases hc : l.current i with
  | none =>
    have hrem : l.remove i = l := by unfold StateLists.remove; rw [hc]
    exact ⟨q, rfl, by rw [hrem]; exact h.detached hl hc⟩
  | some t =>
    -- the neighbours of the object are in the same ring, so the other rings do not see the unlinking
    obtain ⟨A, B, hAB, hA, -⟩ := members_split hl hc
    have herase : (l.members t).erase i = A ++ B := by
      rw [hAB, List.erase_append_right _ hA, List.erase_cons_head]
    have hring := h.ring t
    rw [hAB, List.map_append, List.map_cons] at hring
    obtain ⟨hin, hout⟩ := hring.unlink
    obtain ⟨hx, hx'⟩ := hring.around (x := obj i) (by simp)
    refine ⟨_, h.remove_eq hl hc, fun s => ?_, fun j hj => ?_, fun s => ?_, ?_, fun s hs => ?_,
      fun s k hk => ?_⟩
    · rw [StateLists.members_remove]
      by_cases hst : t = s
      · subst hst
        rw [if_pos hc, herase, List.map_append]
        exact hin
      · rw [if_neg (by rw [hc]; simpa using hst)]
        refine (h.ring s).unlink_of_notMem hx hx' (not_mem_ring ?_)
        rw [hl.mem_iff, hc]
        simpa using hst
    · by_cases hji : j = i
      · subst hji; exact hout
      · have hj' := hj.resolve_left hji
        rw [StateLists.current_remove] at hj'
        exact (h.alone j hj').unlink_of_notMem hx hx' (by simpa using fun h => hji h.symm)
    · rw [StateLists.count_remove]
      by_cases hst : t = s
      · subst hst
        rw [if_pos hc]
        show Function.update q.count t _ t = _
        rw [Function.update_self, h.count]
        have : 0 < l.count t := by rw [hl.count_eq, hAB]; simp
        omega
      · rw [if_neg (by rw [hc]; simpa using hst)]
        show Function.update q.count t _ s = _
        rw [Function.update_of_ne (Ne.symm hst)]
        exact h.count s
    · rw [StateLists.current_remove]; exact h.current
    · rw [StateLists.members_remove] at hs
      split at hs
      · exact ((hl.nodup s).mem_erase_iff.1 hs).1 rfl
      · rename_i hn
        exact hn ((hl.mem_iff i s).1 hs)
    · rw [StateLists.members_remove] at hk
      rw [StateLists.current_remove]
      split at hk
      · exact (hl.mem_iff k s).1 (List.mem_of_mem_erase hk)
      · exact (hl.mem_iff k s).1 hk

/-- A detached object is linked into one list. -/
theorem Detached.link {a b : Node σ} (put : List ℕ → List ℕ) (h : Detached i q l)
    (hab : q.links.Linked a b) (ha : a ∈ head s :: (l.members s).map obj)
    (hput : (q.links.addlink (obj i) a b).Ring (head s) ((put (l.members s)).map obj)) :
    Represents ⟨q.links.addlink (obj i) a b, Function.update q.count s (q.count s + 1),
      Function.update q.currentStateList i (some s)⟩ (l.link i s put) := by
  refine ⟨fun t => ?_, fun j hj => ?_, fun t => ?_, ?_⟩
  · show (q.links.addlink (obj i) a b).Ring (head t) ((Function.update l.members s _ t).map obj)
    by_cases hts : t = s
    · subst hts
      rw [Function.update_self]
      exact hput
    · rw [Function.update_of_ne hts]
      refine (h.ring t).addlink_of_notMem hab (not_mem_ring (h.out t)) fun hat => ?_
      -- no node is in two rings
      rcases List.mem_cons.1 ha with rfl | ha
      · simp [Ne.symm hts] at hat
      · obtain ⟨k, hk, rfl⟩ := List.mem_map.1 ha
        have hkt : k ∈ l.members t := by simpa using hat
        have := (h.own t k hkt).symm.trans (h.own s k hk)
        exact hts (Option.some.inj this)
  · have hji : j ≠ i := by
      rintro rfl
      unfold StateLists.link at hj
      dsimp only at hj
      rw [Function.update_self] at hj
      cases hj
    have hj' : l.current j = none := by
      unfold StateLists.link at hj
      dsimp only at hj
      rwa [Function.update_of_ne hji] at hj
    refine (h.alone j (.inr hj')).addlink_of_notMem hab (by simpa using Ne.symm hji) fun haj => ?_
    rw [List.mem_singleton] at haj
    subst haj
    have hm : j ∈ l.members s := by simpa using ha
    rw [h.own s j hm] at hj'
    cases hj'
  · show Function.update q.count s _ t = ((Function.update l.count s _ t : ℕ) : ℤ)
    by_cases hts : t = s
    · subst hts
      rw [Function.update_self, Function.update_self, h.count]
      push_cast
      rfl
    · rw [Function.update_of_ne hts, Function.update_of_ne hts, h.count]
  · show Function.update q.currentStateList i (some s) = Function.update l.current i (some s)
    rw [h.current]

theorem changestate_eq {q₁ : QueueLists σ} {place : Option (Option ℕ)}
    (h : (match q.currentStateList i with
      | none => some q
      | some s => q.remove s i) = some q₁) : q.changestate i s place =
    some (let q := { q₁ with currentStateList := Function.update q₁.currentStateList i (some s) }
      match place with
      | none => q.enqueue s i
      | some prevrob => q.enqueueAfter s i prevrob) := by
  unfold QueueLists.changestate
  dsimp only
  rw [h]
  rfl

/-- `changestate` to the end of a list. -/
theorem changestate_refines (h : Represents q l) (hl : l.WF) (i : ℕ) (s : σ) :
    ∃ q', q.changestate i s none = some q' ∧ Represents q' (l.changestate i s) := by
  obtain ⟨q₁, hq₁, hd⟩ := h.detach hl i
  obtain ⟨A, hA, hlast⟩ := (hd.ring s).last
  refine ⟨_, changestate_eq hq₁, hd.link (· ++ [i]) hlast ?_ ?_⟩
  · rw [hA]; simp
  · rw [List.map_append]
    exact (hd.ring s).addtail (not_mem_ring (hd.out s))

theorem insertAfter_append {A B : List ℕ} (hp : p ∉ A) :
    StateLists.insertAfter p i (A ++ p :: B) = A ++ p :: i :: B := by
  induction A with
  | nil => simp [StateLists.insertAfter]
  | cons a A ih =>
    have hne : a ≠ p := by rintro rfl; simp at hp
    rw [List.cons_append, StateLists.insertAfter, if_neg hne,
      ih fun hm => hp (List.mem_cons_of_mem a hm)]
    rfl

/-- `changestate` to the head of a list, or after an entry that is in it. -/
theorem changestateAfter_refines (h : Represents q l) (hl : l.WF) (i : ℕ) (s : σ) (prev : Option ℕ)
    (hprev : ∀ p ∈ prev, p ≠ i ∧ l.current p = some s) :
    ∃ q', q.changestate i s (some prev) = some q' ∧ Represents q' (l.changestateAfter i s prev) := by
  obtain ⟨q₁, hq₁, hd⟩ := h.detach hl i
  have hi : obj i ∉ head s :: ((l.remove i).members s).map obj := not_mem_ring (hd.out s)
  cases prev with
  | none =>
    have hring : (q₁.links.addhead (obj i) (head s)).Ring (head s)
        (obj i :: ((l.remove i).members s).map obj) := (hd.ring s).addhead (A := []) hi rfl rfl
    obtain ⟨b, C, -, -, hab, -⟩ := (hd.ring s).split (A := []) rfl
    refine ⟨_, changestate_eq hq₁, hd.link (fun m => i :: m) ?_ List.mem_cons_self hring⟩
    exact ⟨rfl, by rw [hab.1]; exact hab.2⟩
  | some p =>
    obtain ⟨hpi, hps⟩ := hprev p rfl
    have hpm : p ∈ (l.remove i).members s := by
      rw [StateLists.members_remove]
      have := (hl.mem_iff p s).2 hps
      split
      · exact (List.mem_erase_of_ne hpi).2 this
      · exact this
    obtain ⟨A, B, hAB⟩ := List.append_of_mem hpm
    have hpA : p ∉ A := by
      have hnd := (List.nodup_cons.1 (hd.ring s).nodup).2
      rw [hAB, List.map_append, List.map_cons] at hnd
      intro hm
      exact (List.disjoint_of_nodup_append hnd) (List.mem_map_of_mem hm) List.mem_cons_self
    have hcut : head s :: ((l.remove i).members s).map obj =
        (head s :: A.map obj) ++ obj p :: B.map obj := by rw [hAB]; simp
    have hring : (q₁.links.addhead (obj i) (obj p)).Ring (head s) ((A ++ p :: i :: B).map obj) :=
      (hd.ring s).addhead hi hcut (by simp)
    obtain ⟨b, C, -, -, hab, -⟩ := (hd.ring s).split hcut
    refine ⟨_, changestate_eq hq₁, hd.link (a := obj p) (StateLists.insertAfter p i) ?_ ?_ ?_⟩
    · exact ⟨rfl, by rw [hab.1]; exact hab.2⟩
    · rw [hcut]; simp
    · rw [hAB, insertAfter_append hpA]
      exact hring

/-- `peek` and `empty` see the first member. -/
theorem Represents.peek (h : Represents q l) (s : σ) :
    q.peek s = (l.members s).head?.map obj := by
  obtain ⟨b, C, hb, -, hab, -⟩ := (h.ring s).split (A := []) rfl
  unfold QueueLists.peek QueueLists.isEmpty
  rw [hab.1]
  cases hm : l.members s with
  | nil =>
    rw [hm] at hb
    simp only [List.map_nil, List.nil_append, List.cons.injEq] at hb
    simp [hb.1.symm]
  | cons i xs =>
    rw [hm] at hb
    simp only [List.map_cons, List.cons_append, List.cons.injEq] at hb
    simp [hb.1.symm]

/-! ### Runs -/

/-- The ways `changestate` is called. -/
inductive ListOp (σ : Type)
  | changestate (i : ℕ) (s : σ)
  | changestateAfter (i : ℕ) (s : σ) (prev : Option ℕ)

namespace ListOp

def onLists (l : StateLists σ) : ListOp σ → StateLists σ
  | changestate i s => l.changestate i s
  | changestateAfter i s prev => l.changestateAfter i s prev

def onQueues (q : QueueLists σ) : ListOp σ → Option (QueueLists σ)
  | changestate i s => q.changestate i s none
  | changestateAfter i s prev => q.changestate i s (some prev)

/-- The entry an object is put after is another one, and in the list. -/
def Valid (l : StateLists σ) : ListOp σ → Prop
  | changestate _ _ => True
  | changestateAfter i s prev => ∀ p ∈ prev, p ≠ i ∧ l.current p = some s

end ListOp

def execLists (l : StateLists σ) (ops : List (ListOp σ)) : StateLists σ := ops.foldl ListOp.onLists l

/-- The same calls on the nodes; `none` when an assertion fails. -/
def execQueues (q : QueueLists σ) : List (ListOp σ) → Option (QueueLists σ)
  | [] => some q
  | op :: ops => (op.onQueues q).bind fun q => execQueues q ops

def ValidRun (l : StateLists σ) : List (ListOp σ) → Prop
  | [] => True
  | op :: ops => op.Valid l ∧ ValidRun (op.onLists l) ops

theorem onLists_wf (hl : l.WF) (op : ListOp σ) : (op.onLists l).WF := by
  cases op with
  | changestate i s => exact hl.changestate i s
  | changestateAfter i s prev => exact hl.changestateAfter i s prev

theorem execLists_wf (hl : l.WF) (ops : List (ListOp σ)) : (execLists l ops).WF := by
  induction ops generalizing l with
  | nil => exact hl
  | cons op ops ih => exact ih (onLists_wf hl op)

theorem onQueues_refines (h : Represents q l) (hl : l.WF) {op : ListOp σ} (hv : op.Valid l) :
    ∃ q', op.onQueues q = some q' ∧ Represents q' (op.onLists l) := by
  cases op with
  | changestate i s => exact changestate_refines h hl i s
  | changestateAfter i s prev => exact changestateAfter_refines h hl i s prev hv

theorem execQueues_refines (h : Represents q l) (hl : l.WF) {ops : List (ListOp σ)}
    (hv : ValidRun l ops) : ∃ q', execQueues q ops = some q' ∧ Represents q' (execLists l ops) := by
  induction ops generalizing q l with
  | nil => exact ⟨q, rfl, h⟩
  | cons op ops ih =>
    obtain ⟨q₁, hq₁, h₁⟩ := onQueues_refines h hl hv.1
    obtain ⟨q₂, hq₂, h₂⟩ := ih h₁ (onLists_wf hl op) hv.2
    exact ⟨q₂, by rw [execQueues, hq₁]; exact hq₂, h₂⟩

/-! ### Loops -/

/-- The body of a loop over list `s`, at object `i`, as `f` on the lists: of what is in `s`
it moves at most `i`, and that to another list. -/
structure LoopBody (s : σ) (body : ℕ → QueueLists σ → QueueLists σ)
    (f : ℕ → StateLists σ → StateLists σ) : Prop where
  refines : ∀ q l i, Represents q l → l.WF → i ∈ l.members s → Represents (body i q) (f i l)
  wf : ∀ l i, l.WF → (f i l).WF
  moves : ∀ l i, l.WF → i ∈ l.members s →
    (f i l).members s = l.members s ∨ (f i l).members s = (l.members s).erase i

/-- Each object goes to another list. -/
theorem loopBody_changestate (hst : t ≠ s) : LoopBody s (fun i q => (q.changestate i t none).getD q)
    fun i l => l.changestate i t where
  refines q l i h hl _ := by
    obtain ⟨q', hq', hr⟩ := changestate_refines h hl i t
    simpa only [hq', Option.getD_some] using hr
  wf l i hl := hl.changestate i t
  moves l i hl hi := by
    refine .inr ?_
    unfold StateLists.changestate StateLists.link
    dsimp only
    rw [Function.update_of_ne (Ne.symm hst), StateLists.members_remove, if_pos ((hl.mem_iff i s).1 hi)]

/-- From any object on, a loop visits what is left of the list as it was. -/
theorem foreach_rest {body : ℕ → QueueLists σ → QueueLists σ} {f : ℕ → StateLists σ → StateLists σ}
    (hb : LoopBody s body f) (rest kept : List ℕ) (h : Represents q l) (hl : l.WF)
    (hm : l.members s = kept ++ rest) {entry : Node σ} {C : List (Node σ)}
    (hentry : rest.map obj ++ [head s] = entry :: C) :
    ∃ q', foreachListMutable body s (rest.length + 1) entry q = some (rest, q') ∧
      Represents q' (rest.foldl (fun l i => f i l) l) := by
  induction rest generalizing q l kept entry C with
  | nil =>
    rw [List.map_nil, List.nil_append, List.cons.injEq] at hentry
    obtain ⟨rfl, -⟩ := hentry
    exact ⟨q, by simp [foreachListMutable], h⟩
  | cons i rest ih =>
    rw [List.map_cons, List.cons_append, List.cons.injEq] at hentry
    obtain ⟨rfl, -⟩ := hentry
    have hi : i ∈ l.members s := by rw [hm]; simp
    -- the next object is read before the body moves this one
    obtain ⟨b, C', hbC, -, hnext, -⟩ := (h.ring s).split (A := head s :: kept.map obj) (a := obj i)
      (B := rest.map obj) (by rw [hm]; simp)
    have hnd := hl.nodup s
    rw [hm] at hnd
    have hik : i ∉ kept := fun hk => (List.disjoint_of_nodup_append hnd) hk List.mem_cons_self
    have hm' : ∃ kept', (f i l).members s = kept' ++ rest := by
      rcases hb.moves l i hl hi with hsame | hgone
      · exact ⟨kept ++ [i], by rw [hsame, hm]; simp⟩
      · refine ⟨kept, ?_⟩
        rw [hgone, hm, List.erase_append_right _ hik, List.erase_cons_head]
    obtain ⟨kept', hm'⟩ := hm'
    obtain ⟨q', hq', hr⟩ := ih kept' (hb.refines q l i h hl hi) (hb.wf l i hl) hm' hbC
    refine ⟨q', ?_, hr⟩
    rw [List.length_cons, foreachListMutable, hnext.1, hq']
    rfl

/-- A loop over a list ends, visits the objects that were in the list when it began, each
once and in order, and does on the nodes what the bodies do on the lists, although a body
may move the very object the loop is at. -/
theorem foreach_visits {body : ℕ → QueueLists σ → QueueLists σ} {f : ℕ → StateLists σ → StateLists σ}
    (hb : LoopBody s body f) (h : Represents q l) (hl : l.WF) :
    ∃ q', foreachListMutable body s ((l.members s).length + 1) (q.links.next (head s)) q =
        some (l.members s, q') ∧
      Represents q' ((l.members s).foldl (fun l i => f i l) l) := by
  obtain ⟨b, C, hbC, -, hnext, -⟩ := (h.ring s).split (A := []) rfl
  rw [hnext.1]
  exact foreach_rest hb (l.members s) [] h hl rfl hbC

theorem foreach_visits_frontend : ∃ q q', foreachListMutable
      (fun i q => (q.changestate i RobState.readyToDispatch none).getD q) .frontend 3
      (q.links.next (head .frontend)) q = some ([4, 5], q') ∧
    Represents q' (([4, 5].foldl (fun l i => l.changestate i .readyToDispatch)
      ((StateLists.empty.changestate 4 RobState.frontend).changestate 5 .frontend))) := by
  have hv : ValidRun StateLists.empty
      [ListOp.changestate 4 RobState.frontend, ListOp.changestate 5 .frontend] :=
    ⟨trivial, trivial, trivial⟩
  obtain ⟨q, -, hq⟩ := execQueues_refines represents_reset StateLists.wf_empty hv
  exact ⟨q, foreach_visits (loopBody_changestate (by decide)) hq (execLists_wf StateLists.wf_empty _)⟩

end
end X86Sim.Ooo
