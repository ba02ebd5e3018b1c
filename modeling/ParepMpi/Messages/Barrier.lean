import ParepMpi.Messages.Collect

/-!
# Pruning at a barrier

When `MPI_Wait` or `MPI_Test` completes a barrier request it deletes every released record of the process it runs at,
without asking the others. That is safe when the program does not communicate across a barrier, which is said by
counts: of the barriers that a process has called, and of those that each send has before it.

Recovery is sound after a failure that comes when no process has completed a barrier that another has not. In between
it can send a message again whose receiver has deleted the record.
-/

namespace ParepMpi

open List Option Function MsgWorld

/-- The sends of each logical rank and, for each of them, how many barriers the rank has called before. -/
structure Program (nC : Int) where
  dest : Int → Nat → Int
  epoch : Int → Nat → Nat
  dest_range : ∀ s id, 0 ≤ dest s id ∧ dest s id < nC
  epoch_mono : ∀ s, Monotone (epoch s)

/-- What the completion of a barrier does to the logs: the released records are marked, and
`cleanup_marked_logs` deletes what is marked. -/
def Proc.completeBarrier (p : Proc) : Proc :=
  Proc.sweep { p with
    sends := p.sends.map fun r => if r.released then r.marked else r
    recvs := p.recvs.map fun r =>
      if r.released then { r with markdelcmp := true, markdelrep := true } else r }

structure BarrierWorld where
  msgs : MsgWorld
  /-- How many barriers the process at a position has called. -/
  entered : Int → Nat := fun _ => 0
  /-- The barriers whose requests it has yet to complete. -/
  waiting : Int → List Nat := fun _ => []
  /-- The SEND records deleted so far, with the position of the process. -/
  prunedSends : List (Int × SendRec) := []
  /-- The RECV records deleted so far, with the barrier at whose completion they were. -/
  prunedRecvs : List (Nat × RecvRec) := []

inductive BarrierEvent
  | isend (i : Int)
  /-- A receive or a probe takes in the `k`-th message in flight. -/
  | receive (k : Nat)
  | releaseSend (i : Int) (id : Nat)
  | releaseRecv (i : Int) (k : Nat)
  | ibarrier (i : Int)
  /-- `MPI_Wait` or `MPI_Test` completes the request of the `k`-th barrier. -/
  | complete (i : Int) (k : Nat)

namespace BarrierWorld

variable {nC : Int}

def start (m : ProcMaps) : BarrierWorld := { msgs := .start m }

variable (prog : Program nC) (w : BarrierWorld)

def setProc (i : Int) (p : Proc) : BarrierWorld :=
  { w with msgs := { w.msgs with procs := update w.msgs.procs i p } }

def sendsNext (i : Int) : Prop :=
  prog.epoch (w.msgs.maps.logical i) (w.msgs.procs i).sendid = w.entered i

def barrierNext (i : Int) : Prop :=
  w.entered i < prog.epoch (w.msgs.maps.logical i) (w.msgs.procs i).sendid

instance (i : Int) : Decidable (w.sendsNext prog i) :=
  inferInstanceAs (Decidable (_ = _))

instance (i : Int) : Decidable (w.barrierNext prog i) :=
  inferInstanceAs (Decidable (_ < _))

def step : BarrierEvent → Option BarrierWorld
  | .isend i =>
    if w.sendsNext prog i then (w.msgs.isend prog.dest i).map fun u => { w with msgs := u } else none
  | .receive k => (w.msgs.receive k).map fun u => { w with msgs := u }
  | .releaseSend i id => some (w.setProc i ((w.msgs.procs i).releaseSend id))
  | .releaseRecv i k => some (w.setProc i ((w.msgs.procs i).releaseRecv k))
  | .ibarrier i =>
    if i ∈ w.msgs.maps.positions ∧ w.barrierNext prog i then
      some { w with entered := update w.entered i (w.entered i + 1)
                    waiting := update w.waiting i (w.waiting i ++ [w.entered i]) }
    else none
  | .complete i k =>
    if i ∈ w.msgs.maps.positions ∧ k ∈ w.waiting i ∧ ∀ j ∈ w.msgs.maps.positions, k < w.entered j then
      some { w.setProc i (w.msgs.procs i).completeBarrier with
        waiting := update w.waiting i ((w.waiting i).erase k)
        prunedSends := w.prunedSends ++ (((w.msgs.procs i).sends.filter (·.released)).map fun r => (i, r))
        prunedRecvs := w.prunedRecvs ++ (((w.msgs.procs i).recvs.filter (·.released)).map fun r => (k, r)) }
    else none

/-- The process at position `i` has completed its `k`-th barrier. -/
def HasCompleted (i : Int) (k : Nat) : Prop := k < w.entered i ∧ k ∉ w.waiting i

structure PrunesSafely : Prop where
  sends : ∀ x ∈ w.prunedSends, ∀ j ∈ w.msgs.maps.positions, w.msgs.maps.logical j = x.2.target →
    (w.msgs.maps.logical x.1, x.2.id) ∈ (w.msgs.procs j).received
  recvs : ∀ x ∈ w.prunedRecvs, ∀ q ∈ w.msgs.maps.positions, w.msgs.maps.logical q = x.2.source →
    w.HasCompleted q x.1 → ∀ r ∈ (w.msgs.procs q).sends, r.id ≠ x.2.id

def Level : Prop :=
  ∀ i ∈ w.msgs.maps.positions, ∀ j ∈ w.msgs.maps.positions, ∀ k < w.entered i,
    k ∉ w.waiting i → k < w.entered j ∧ k ∉ w.waiting j

/-- A process calls a barrier when its sends are complete and nothing is on its way to it; while a barrier
is pending at a process it neither sends nor waits for a receive; and a send does not run behind the
barriers of its destination. The number of a send has the marker `0x7` in its upper bits, without which it would be
taken for no message at all. -/
def Orderly : BarrierEvent → Prop
  | .isend i => w.waiting i = [] ∧ (w.msgs.procs i).sendid < 0x80000000 ∧ ∀ j ∈ w.msgs.maps.positions,
      w.msgs.maps.logical j = prog.dest (w.msgs.maps.logical i) (w.msgs.procs i).sendid → w.entered j ≤ w.entered i
  | .releaseRecv i _ => w.waiting i = []
  | .ibarrier i => w.waiting i = [] ∧ (∀ r ∈ (w.msgs.procs i).sends, r.released = true) ∧
      ∀ msg ∈ w.msgs.net, msg.dst ≠ i
  | _ => True

end BarrierWorld

/-- From `p` to `p'` records may go or have their requests freed; nothing else changes. -/
structure Proc.Relogged (p p' : Proc) : Prop where
  sendid : p'.sendid = p.sendid
  received : p'.received = p.received
  skipcmp : p'.skipcmplist = p.skipcmplist
  skiprep : p'.skipreplist = p.skipreplist
  ids : (p'.sends.map (·.id)).Sublist (p.sends.map (·.id))
  sends : ∀ r' ∈ p'.sends, ∃ r ∈ p.sends, r'.id = r.id ∧ r'.target = r.target ∧ (r.released = true → r'.released = true)
  recvs : ∀ r' ∈ p'.recvs, ∃ r ∈ p.recvs, r'.source = r.source ∧ r'.id = r.id

namespace Proc

theorem Relogged.skipsTo {p p' : Proc} (h : p.Relogged p') (nC j : Int) : p'.skipsTo nC j = p.skipsTo nC j := by
  unfold Proc.skipsTo
  rw [h.skipcmp, h.skiprep]

theorem Logged.relogged {dest : Int → Nat → Int} {nC s : Int} {p p' : Proc} (h : p.Logged dest nC s)
    (hr : p.Relogged p') : p'.Logged dest nC s where
  first_le := hr.sendid ▸ h.first_le
  ids := h.ids.sublist hr.ids
  sent r' hr' := by
    obtain ⟨r, hmem, hid, htarget, _⟩ := hr.sends r' hr'
    rw [hid, htarget, hr.sendid]
    exact h.sent r hmem
  recvs r' hr' := by
    obtain ⟨r, hmem, hsource, hid⟩ := hr.recvs r' hr'
    rw [hsource, hid, hr.received]
    exact h.recvs r hmem
  nodup := hr.received ▸ h.nodup
  addressed := hr.received ▸ h.addressed
  self id hid := by
    rw [hr.sendid]
    exact h.self id (hr.received ▸ hid)

theorem relogged_releaseSend (p : Proc) (id : Nat) : p.Relogged (p.releaseSend id) where
  sendid := rfl
  received := rfl
  skipcmp := rfl
  skiprep := rfl
  ids := by
    have hids : (p.releaseSend id).sends.map (·.id) = p.sends.map (·.id) := by
      simp only [Proc.releaseSend, List.map_map]
      apply map_congr_left
      intro r _
      simp only [comp_apply]
      split <;> rfl
    rw [hids]
  sends r' hr' := by
    obtain ⟨r, hr, rfl⟩ := List.mem_map.mp hr'
    refine ⟨r, hr, ?_⟩
    split
    · exact ⟨rfl, rfl, fun _ => rfl⟩
    · exact ⟨rfl, rfl, fun h => h⟩
  recvs r hr := ⟨r, hr, rfl, rfl⟩

theorem relogged_releaseRecv (p : Proc) (k : Nat) : p.Relogged (p.releaseRecv k) where
  sendid := rfl
  received := rfl
  skipcmp := rfl
  skiprep := rfl
  ids := Sublist.refl _
  sends r hr := ⟨r, hr, rfl, rfl, fun h => h⟩
  recvs r' hr' := by
    obtain ⟨r, hr, rfl | rfl⟩ := mem_release hr'
    · exact ⟨_, hr, rfl, rfl⟩
    · exact ⟨r, hr, rfl, rfl⟩

theorem completeBarrier_sends (p : Proc) : p.completeBarrier.sends = p.sends.filter fun r => !r.released := by
  simp only [completeBarrier, sweep, List.filter_map]
  rw [map_congr_left (g := id), List.map_id]
  · apply filter_congr
    intro r _
    cases hr : r.released <;> simp [SendRec.deletable, SendRec.marked, hr]
  · intro r hr
    cases hrel : r.released <;> simp_all [SendRec.deletable, SendRec.marked]

theorem completeBarrier_recvs (p : Proc) : p.completeBarrier.recvs = p.recvs.filter fun r => !r.released := by
  simp only [completeBarrier, sweep, List.filter_map]
  rw [map_congr_left (g := id), List.map_id]
  · apply filter_congr
    intro r _
    cases hr : r.released <;> simp [RecvRec.deletable, hr]
  · intro r hr
    cases hrel : r.released <;> simp_all [RecvRec.deletable]

theorem relogged_completeBarrier (p : Proc) : p.Relogged p.completeBarrier where
  sendid := rfl
  received := rfl
  skipcmp := rfl
  skiprep := rfl
  ids := by
    rw [completeBarrier_sends]
    exact filter_sublist.map _
  sends r hr := by
    rw [completeBarrier_sends] at hr
    exact ⟨r, (mem_filter.mp hr).1, rfl, rfl, fun h => h⟩
  recvs r hr := by
    rw [completeBarrier_recvs] at hr
    exact ⟨r, (mem_filter.mp hr).1, rfl, rfl⟩

end Proc

namespace MsgWorld

variable {dest : Int → Nat → Int} {w : MsgWorld} {i : Int} {p : Proc}

theorem relog_cases (w : MsgWorld) (hr : (w.procs i).Relogged p) (j : Int) :
    (w.procs j).Relogged (update w.procs i p j) := by
  by_cases hj : j = i
  · subst hj
    rwa [update_self]
  · rw [update_of_ne hj]
    exact ⟨rfl, rfl, rfl, rfl, Sublist.refl _, fun r h => ⟨r, h, rfl, rfl, fun h => h⟩, fun r h => ⟨r, h, rfl, rfl⟩⟩

theorem Flowing.relog (h : w.Flowing dest) (hr : (w.procs i).Relogged p) :
    Flowing dest { w with procs := update w.procs i p } := by
  have hall := relog_cases w hr
  constructor
  case maps => exact h.maps
  case logs => exact fun j hj => (h.logs j hj).relogged (hall j)
  case net => exact h.net
  case once =>
    intro j hj s id
    have honce := h.once j hj s id
    unfold copies at honce ⊢
    rwa [(hall j).received]
  case unsent =>
    intro j hj s h0 hlt id hid
    rw [(hall _).sendid] at hid
    exact h.unsent j hj s h0 hlt id hid
  case noted =>
    intro j hj s h0 hlt id hid hmem
    rw [(hall _).sendid] at hid
    rw [(hall _).received] at hmem
    rw [(hall _).skipsTo]
    exact h.noted j hj s h0 hlt id hid hmem

theorem backed_of_no_skips (hm : w.maps.Valid)
    (h : ∀ i ∈ w.maps.positions, (w.procs i).skipcmplist = [] ∧ (w.procs i).skipreplist = []) :
    Backed dest w := by
  intro j _ s hs hlt id hmem
  obtain ⟨hcmp, hrep⟩ := h _ (hm.sender_mem (ProcMaps.mem_positions.mp hs).1 hlt j)
  rw [Proc.skipsTo, hcmp, hrep, ite_self] at hmem
  exact absurd hmem not_mem_nil

theorem Keeping.relog (h : w.Keeping dest) (hm : w.maps.Valid) (hr : (w.procs i).Relogged p)
    (hskips : ∀ i ∈ w.maps.positions, (w.procs i).skipcmplist = [] ∧ (w.procs i).skipreplist = []) :
    Keeping dest { w with procs := update w.procs i p } := by
  have hall := relog_cases w hr
  constructor
  case arrives =>
    intro j hj s h0 hlt id hfirst hid hlog
    rw [(hall _).sendid] at hid
    have hcopies := h.arrives j hj s h0 hlt id hfirst hid hlog
    unfold copies at hcopies ⊢
    rwa [(hall j).received]
  case backed =>
    refine backed_of_no_skips hm fun j hj => ?_
    rw [(hall j).skipcmp, (hall j).skiprep]
    exact hskips j hj

end MsgWorld

/-! ### A process among barriers

The barriers divide the sends of a program into epochs, and the logs hold what is of the present one. -/

/-- A process of the logical rank `s` that has called `entered` barriers and completed `left` of them: its
SEND records are all of the present epoch, its released RECV records of an epoch it has come to, and what is
missing from its logs belongs to an epoch before. -/
structure Proc.Paced {nC : Int} (prog : Program nC) (s : Int) (entered left : Nat) (p : Proc) : Prop where
  program : entered ≤ prog.epoch s p.sendid
  sends : ∀ r ∈ p.sends, prog.epoch s r.id = left ∧ (left < entered → r.released = true)
  recvs : ∀ r ∈ p.recvs, r.released = true → prog.epoch r.source r.id ≤ left
  keptSend : ∀ id, firstSendid ≤ id → id < p.sendid → (∃ r ∈ p.sends, r.id = id) ∨ prog.epoch s id < left
  keptRecv : ∀ x ∈ p.received, (∃ r ∈ p.recvs, (r.source, r.id) = x) ∨ prog.epoch x.1 x.2 < left
  skips : p.skipcmplist = [] ∧ p.skipreplist = []

namespace Proc.Paced

variable {nC : Int} {prog : Program nC} {s : Int} {entered left : Nat} {p : Proc}

theorem start : Paced prog s 0 0 {} where
  program := Nat.zero_le _
  sends := by simp
  recvs := by simp
  keptSend _ h0 hlt := absurd hlt (not_lt.mpr h0)
  keptRecv := by simp
  skips := ⟨rfl, rfl⟩

theorem issue (h : Paced prog s entered entered p) (hnow : prog.epoch s p.sendid = entered) (t : Int) :
    Paced prog s entered entered (p.issue t) where
  program := by
    have hmono := prog.epoch_mono s (Nat.le_succ p.sendid)
    rw [hnow] at hmono
    exact hmono
  sends r hr := by
    rcases mem_append.mp hr with hr | hr
    · exact h.sends r hr
    · rw [mem_singleton.mp hr]
      exact ⟨hnow, fun hlt => absurd hlt (lt_irrefl _)⟩
  recvs := h.recvs
  keptSend id h0 hlt := by
    rcases Nat.lt_succ_iff_lt_or_eq.mp hlt with hlt | rfl
    · obtain ⟨r, hr, hid⟩ | hold := h.keptSend id h0 hlt
      · exact .inl ⟨r, mem_append_left _ hr, hid⟩
      · exact .inr hold
    · exact .inl ⟨_, mem_append_right _ (mem_singleton_self _), rfl⟩
  keptRecv := h.keptRecv
  skips := by
    simp only [Proc.issue, h.skips.1, h.skips.2, erase_nil, and_self]

theorem accept (h : Paced prog s entered left p) (source : Int) (id : Nat) :
    Paced prog s entered left (p.accept source id) where
  __ := h
  recvs r hr hrel := by
    rcases mem_append.mp hr with hr | hr
    · exact h.recvs r hr hrel
    · rw [mem_singleton.mp hr] at hrel
      cases hrel
  keptRecv x hx := by
    rcases mem_append.mp hx with hx | hx
    · obtain ⟨r, hr, heq⟩ | hold := h.keptRecv x hx
      · exact .inl ⟨r, mem_append_left _ hr, heq⟩
      · exact .inr hold
    · exact .inl ⟨_, mem_append_right _ (mem_singleton_self _), (mem_singleton.mp hx).symm⟩

theorem releaseSend (h : Paced prog s entered left p) (id : Nat) : Paced prog s entered left (p.releaseSend id) where
  __ := h
  sends r' hr' := by
    obtain ⟨r, hr, hid, _, hrel⟩ := (relogged_releaseSend p id).sends r' hr'
    rw [hid]
    exact ⟨(h.sends r hr).1, fun hlt => hrel ((h.sends r hr).2 hlt)⟩
  keptSend i h0 hlt := by
    obtain ⟨r, hr, hid⟩ | hold := h.keptSend i h0 hlt
    · refine .inl ⟨_, mem_map_of_mem hr, ?_⟩
      split <;> exact hid
    · exact .inr hold

theorem releaseRecv (h : Paced prog s entered entered p)
    (hbound : ∀ r ∈ p.recvs, prog.epoch r.source r.id ≤ entered) (k : Nat) :
    Paced prog s entered entered (p.releaseRecv k) where
  __ := h
  recvs r' hr' _ := by
    obtain ⟨r, hr, hsource, hid⟩ := (relogged_releaseRecv p k).recvs r' hr'
    rw [hsource, hid]
    exact hbound r hr
  keptRecv x hx := by
    obtain ⟨r, hr, heq⟩ | hold := h.keptRecv x hx
    · obtain ⟨n, hn⟩ := mem_iff_getElem?.mp hr
      refine .inl ⟨if k = n then { r with released := true } else r, ?_, ?_⟩
      · apply mem_of_getElem? (i := n)
        simp only [Proc.releaseRecv]
        rw [getElem?_modify, hn]
        rfl
      · split <;> exact heq
    · exact .inr hold

theorem ibarrier (h : Paced prog s entered entered p) (hrel : ∀ r ∈ p.sends, r.released = true)
    (hnext : entered < prog.epoch s p.sendid) : Paced prog s (entered + 1) entered p where
  __ := h
  program := hnext
  sends r hr := ⟨(h.sends r hr).1, fun _ => hrel r hr⟩

theorem complete (h : Paced prog s (left + 1) left p) : Paced prog s (left + 1) (left + 1) p.completeBarrier where
  __ := h
  sends r hr := by
    -- Every send was complete when the barrier was called, so none is left.
    rw [completeBarrier_sends] at hr
    obtain ⟨hmem, hnot⟩ := mem_filter.mp hr
    rw [(h.sends r hmem).2 (Nat.lt_succ_self _)] at hnot
    cases hnot
  recvs r hr hrel := by
    rw [completeBarrier_recvs] at hr
    have hnot := (mem_filter.mp hr).2
    rw [hrel] at hnot
    cases hnot
  keptSend id h0 hlt := by
    obtain ⟨r, hr, rfl⟩ | hold := h.keptSend id h0 hlt
    · exact .inr (Nat.lt_succ_of_le (h.sends r hr).1.le)
    · exact .inr (Nat.lt_succ_of_lt hold)
  keptRecv x hx := by
    obtain ⟨r, hr, rfl⟩ | hold := h.keptRecv x hx
    · cases hrel : r.released with
      | false =>
        refine .inl ⟨r, ?_, rfl⟩
        rw [completeBarrier_recvs]
        exact mem_filter.mpr ⟨hr, by rw [hrel]; rfl⟩
      | true => exact .inr (Nat.lt_succ_of_le (h.recvs r hr hrel))
    · exact .inr (Nat.lt_succ_of_lt hold)

end Proc.Paced

namespace BarrierWorld

variable {nC : Int} {prog : Program nC} {w w' : BarrierWorld}

def left (w : BarrierWorld) (i : Int) : Nat := w.entered i - (w.waiting i).length

structure Synced (prog : Program nC) (w : BarrierWorld) : Prop where
  nC : w.msgs.maps.nC = nC
  flow : w.msgs.Flowing prog.dest
  keep : w.msgs.Keeping prog.dest
  blocked : ∀ i ∈ w.msgs.maps.positions, w.waiting i = [] ∨ 0 < w.entered i ∧ w.waiting i = [w.entered i - 1]
  left_le : ∀ i ∈ w.msgs.maps.positions, ∀ j ∈ w.msgs.maps.positions, w.left i ≤ w.entered j
  paced : ∀ i ∈ w.msgs.maps.positions, (w.msgs.procs i).Paced prog (w.msgs.maps.logical i) (w.entered i) (w.left i)
  /-- A message in flight is not of an epoch that its destination has passed. -/
  late : ∀ msg ∈ w.msgs.net, w.entered msg.dst ≤ prog.epoch msg.source msg.id
  /-- Nor of one that some process has yet to come to. -/
  early : ∀ msg ∈ w.msgs.net, ∀ j ∈ w.msgs.maps.positions, prog.epoch msg.source msg.id ≤ w.entered j
  earlyReceived : ∀ p ∈ w.msgs.maps.positions, ∀ x ∈ (w.msgs.procs p).received,
    ∀ j ∈ w.msgs.maps.positions, prog.epoch x.1 x.2 ≤ w.entered j
  prunedSends : ∀ x ∈ w.prunedSends, x.1 ∈ w.msgs.maps.positions ∧ firstSendid ≤ x.2.id ∧
    x.2.target = prog.dest (w.msgs.maps.logical x.1) x.2.id ∧
    prog.epoch (w.msgs.maps.logical x.1) x.2.id < w.left x.1
  prunedRecvs : ∀ x ∈ w.prunedRecvs, prog.epoch x.2.source x.2.id ≤ x.1

theorem left_of_nil {i : Int} (h : w.waiting i = []) : w.left i = w.entered i := by
  rw [left, h, length_nil, Nat.sub_zero]

namespace Synced

section

variable (h : w.Synced prog)

include h

variable {i : Int} {id : Nat}

theorem left_of_waiting (hi : i ∈ w.msgs.maps.positions) {k : Nat}
    (hk : k ∈ w.waiting i) : w.waiting i = [k] ∧ w.entered i = k + 1 ∧ w.left i = k := by
  rcases h.blocked i hi with hnil | ⟨hpos, hone⟩
  · exact absurd hk (hnil ▸ not_mem_nil)
  · rw [hone, mem_singleton] at hk
    have hlen : (w.waiting i).length = 1 := by rw [hone]; rfl
    refine ⟨hk ▸ hone, by omega, ?_⟩
    rw [left, hlen, hk]

theorem hasCompleted_iff (hi : i ∈ w.msgs.maps.positions) (k : Nat) : w.HasCompleted i k ↔ k < w.left i := by
  unfold HasCompleted
  rcases h.blocked i hi with hnil | ⟨hpos, hone⟩
  · rw [left_of_nil hnil, hnil]
    simp
  · rw [left, hone, mem_singleton, length_singleton]
    omega

/-- What belongs to an epoch that some process has completed has been sent by every copy of its sender and
received by every copy of its destination. -/
theorem sent {q : Int} (hq : q ∈ w.msgs.maps.positions)
    (hep : prog.epoch (w.msgs.maps.logical q) id < w.entered q) : id < (w.msgs.procs q).sendid := by
  by_contra hnot
  have hmono := prog.epoch_mono (w.msgs.maps.logical q) (not_lt.mp hnot)
  have hprog := (h.paced q hq).program
  omega

theorem arrived (hi : i ∈ w.msgs.maps.positions) {s : Int} (h0 : 0 ≤ s)
    (hlt : s < w.msgs.maps.nC) (hfirst : firstSendid ≤ id) (hep : prog.epoch s id < w.left i)
    {j : Int} (hj : j ∈ w.msgs.maps.positions) (hlog : prog.dest s id = w.msgs.maps.logical j) :
    (s, id) ∈ (w.msgs.procs j).received := by
  have hq := h.flow.maps.sender_mem h0 hlt j
  have hpast : prog.epoch s id < w.entered (w.msgs.maps.sender s j) := lt_of_lt_of_le hep (h.left_le i hi _ hq)
  have hsent := h.sent hq (by rw [h.flow.maps.logical_sender h0 hlt]; exact hpast)
  have hcopies := h.keep.arrives j hj s h0 hlt id hfirst hsent hlog
  by_contra hnot
  have hnet : ⟨j, s, id⟩ ∉ w.msgs.net := by
    intro hmem
    have hlate : w.entered j ≤ prog.epoch s id := h.late _ hmem
    have := h.left_le i hi j hj
    omega
  rw [copies, count_eq_zero.mpr hnot, count_eq_zero.mpr hnet] at hcopies
  omega

theorem prunesSafely : w.PrunesSafely where
  sends x hx j hj hlog := by
    obtain ⟨hpos, hfirst, htarget, hep⟩ := h.prunedSends x hx
    obtain ⟨h0, hlt⟩ := h.flow.maps.logical_range hpos
    exact h.arrived hpos h0 hlt hfirst hep hj (htarget.symm.trans hlog.symm)
  recvs x hx q hq hlog hdone r hr heq := by
    have hep := h.prunedRecvs x hx
    have hleft := (h.hasCompleted_iff hq _).mp hdone
    have hnow := ((h.paced q hq).sends r hr).1
    rw [hlog, heq] at hnow
    omega

theorem recovers (hlevel : w.Level) {failed : List Int} {u : MsgWorld}
    (hu : w.msgs.shrink failed = some u) : u.restore.ExactlyOnce prog.dest := by
  obtain ⟨old, hc, heq⟩ := shrink_carried hu h.flow.maps
  generalize u.maps = m' at hc heq
  subst heq
  have hleft : ∀ i ∈ w.msgs.maps.positions, ∀ j ∈ w.msgs.maps.positions, w.left i ≤ w.left j := by
    intro i hi j hj
    by_contra hnot
    have hlt : w.left j < w.left i := by omega
    obtain ⟨hk, hkw⟩ := (h.hasCompleted_iff hi (w.left j)).mpr hlt
    have := (h.hasCompleted_iff hj (w.left j)).mp (hlevel i hi j hj _ hk hkw)
    omega
  have hdest : ∀ s id, 0 ≤ prog.dest s id ∧ prog.dest s id < (w.msgs.moved m' old).maps.nC := by
    rw [show (w.msgs.moved m' old).maps.nC = nC from hc.nC.trans h.nC]
    exact prog.dest_range
  have hlogs := moved_logs hc h.flow.logs
  have hrank : ∀ {s : Int}, s < m'.nC → s < w.msgs.maps.nC := fun hlt => hc.nC ▸ hlt
  -- The process that serves a position, before and after it moved.
  have hserve : ∀ {s : Int} (j : Int), 0 ≤ s → s < m'.nC →
      old (m'.sender s j) ∈ w.msgs.maps.positions ∧ w.msgs.maps.logical (old (m'.sender s j)) = s := by
    intro s j h0 hlt
    have hpos := hc.valid.sender_mem h0 hlt j
    exact ⟨hc.mem _ hpos, (hc.logical _ hpos).trans (hc.valid.logical_sender h0 hlt j)⟩
  have hreport : ∀ {s j : Int} {id : Nat}, 0 ≤ s → s < m'.nC →
      (∃ r ∈ (w.msgs.procs (old j)).recvs, (r.source, r.id) = (s, id)) →
        id ∈ (w.msgs.moved m' old).report (m'.sender s j) j := by
    intro s j id h0 hlt ⟨r, hr, heq⟩
    rw [Prod.mk.injEq] at heq
    exact mem_report.mpr ⟨r, hr, heq.1.trans (hc.valid.logical_sender h0 hlt j).symm, heq.2⟩
  have hrec : (w.msgs.moved m' old).Recoverable prog.dest := by
    constructor
    case resent =>
      intro j hj s h0 hlt id ⟨r, hr, hid⟩ hmem
      obtain ⟨hq, hlog⟩ := hserve j h0 hlt
      refine hreport h0 hlt (((h.paced _ (hc.mem j hj)).keptRecv _ hmem).resolve_right ?_)
      have hnow := ((h.paced _ hq).sends r hr).1
      rw [hlog, hid] at hnow
      have := hleft _ (hc.mem j hj) _ hq
      simp only
      omega
    case logged =>
      intro j hj s h0 hlt id hfirst hid hlog
      obtain ⟨hq, hlogq⟩ := hserve j h0 hlt
      refine ((h.paced _ hq).keptSend id hfirst hid).imp_right fun hep => ?_
      rw [hlogq] at hep
      exact h.arrived hq h0 (hrank hlt) hfirst hep (hc.mem j hj) (hlog.trans (hc.logical j hj).symm)
    case ahead =>
      intro j hj s h0 hlt id hid hmem
      obtain ⟨hq, hlog⟩ := hserve j h0 hlt
      refine hreport h0 hlt (((h.paced _ (hc.mem j hj)).keptRecv _ hmem).resolve_right ?_)
      intro hep
      have hpast := lt_of_lt_of_le hep (h.left_le _ (hc.mem j hj) _ hq)
      exact absurd (h.sent hq (by rw [hlog]; exact hpast)) (not_lt.mpr hid)
  have hback : MsgWorld.Backed prog.dest (w.msgs.moved m' old) :=
    backed_of_no_skips hc.valid fun i hi => (h.paced _ (hc.mem i hi)).skips
  exact exactlyOnce_of_keeping (restore_flowing hdest hc.valid hlogs hrec rfl)
    (restore_keeping hdest hc.valid hlogs hrec rfl hback)

end

theorem start {m : ProcMaps} (hm : m.Valid) (hnC : m.nC = nC) : (BarrierWorld.start m).Synced prog where
  nC := hnC
  flow := start_flowing hm
  keep := start_keeping
  blocked _ _ := .inl rfl
  left_le _ _ _ _ := le_rfl
  paced _ _ := .start
  late := by simp [BarrierWorld.start, MsgWorld.start]
  early := by simp [BarrierWorld.start, MsgWorld.start]
  earlyReceived := by simp [BarrierWorld.start, MsgWorld.start]
  prunedSends := by simp [BarrierWorld.start]
  prunedRecvs := by simp [BarrierWorld.start]

variable (h : w.Synced prog)

include h

variable {i : Int} {u : MsgWorld} {k : Nat}

theorem isend (hg : w.Orderly prog (.isend i)) (hnow : w.sendsNext prog i)
    (hu : w.msgs.isend prog.dest i = some u) : Synced prog { w with msgs := u } := by
  obtain ⟨hi, hmaps, hnet, hself, hother⟩ := isend_cases hu
  have hdest : ∀ s id, 0 ≤ prog.dest s id ∧ prog.dest s id < w.msgs.maps.nC := h.nC ▸ prog.dest_range
  have hleft : w.left i = w.entered i := left_of_nil hg.1
  have hnew : ∀ msg ∈ w.msgs.outgoing i (prog.dest (w.msgs.maps.logical i) (w.msgs.procs i).sendid),
      prog.epoch msg.source msg.id = w.entered i ∧ w.entered msg.dst ≤ w.entered i := by
    intro msg hmsg
    obtain ⟨hj, hs, hid, _, hlog, _⟩ := outgoing_sender hdest h.flow.maps hi hmsg
    rw [hs, hid] at hlog ⊢
    exact ⟨hnow, hg.2.2 _ hj hlog.symm⟩
  constructor
  case nC => exact (congrArg ProcMaps.nC hmaps).trans h.nC
  case flow => exact isend_flowing hdest h.flow hu
  case keep => exact isend_keeping hdest h.flow h.keep hu
  case blocked => exact hmaps ▸ h.blocked
  case left_le => exact hmaps ▸ h.left_le
  case paced =>
    simp only [hmaps]
    intro j hj
    by_cases hji : j = i
    · subst hji
      have hp := h.paced j hj
      simp only [hself, left] at hp ⊢
      rw [show w.entered j - (w.waiting j).length = w.entered j from hleft] at hp ⊢
      exact hp.issue hnow _
    · simp only [hother j hji]
      exact h.paced j hj
  case late =>
    simp only [hnet]
    intro msg hmsg
    rcases mem_append.mp hmsg with hmsg | hmsg
    · exact h.late msg hmsg
    · rw [(hnew msg hmsg).1]
      exact (hnew msg hmsg).2
  case early =>
    simp only [hnet, hmaps]
    intro msg hmsg j hj
    rcases mem_append.mp hmsg with hmsg | hmsg
    · exact h.early msg hmsg j hj
    · -- The sender has completed every barrier it called, so everyone has called them.
      rw [(hnew msg hmsg).1, ← hleft]
      exact h.left_le i hi j hj
  case earlyReceived =>
    simp only [hmaps, isend_received hu]
    exact h.earlyReceived
  case prunedSends => exact hmaps ▸ h.prunedSends
  case prunedRecvs => exact h.prunedRecvs

theorem receive (hu : w.msgs.receive k = some u) : Synced prog { w with msgs := u } := by
  obtain ⟨msg, hmsg, hmaps, hnet, hself, hother⟩ := receive_cases hu
  constructor
  case nC => exact (congrArg ProcMaps.nC hmaps).trans h.nC
  case flow => exact receive_flowing h.flow hu
  case keep => exact receive_keeping h.keep hu
  case blocked => exact hmaps ▸ h.blocked
  case left_le => exact hmaps ▸ h.left_le
  case paced =>
    simp only [hmaps]
    intro j hj
    by_cases hji : j = msg.dst
    · subst hji
      simp only [hself]
      exact (h.paced _ hj).accept _ _
    · simp only [hother j hji]
      exact h.paced j hj
  case late =>
    simp only [hnet]
    exact fun msg' hmsg' => h.late msg' (mem_of_mem_eraseIdx hmsg')
  case early =>
    simp only [hnet, hmaps]
    exact fun msg' hmsg' => h.early msg' (mem_of_mem_eraseIdx hmsg')
  case earlyReceived =>
    simp only [hmaps]
    intro p hp x hx
    rcases (receive_received hu).mp hx with hold | hnew
    · exact h.earlyReceived p hp x hold
    · exact h.early _ (mem_of_getElem? hnew)
  case prunedSends => exact hmaps ▸ h.prunedSends
  case prunedRecvs => exact h.prunedRecvs

theorem setProc {p : Proc} (hr : (w.msgs.procs i).Relogged p)
    (hp : i ∈ w.msgs.maps.positions → p.Paced prog (w.msgs.maps.logical i) (w.entered i) (w.left i)) :
    (w.setProc i p).Synced prog := by
  have hall := relog_cases w.msgs hr
  have hpaced : ∀ j ∈ w.msgs.maps.positions, ((w.setProc i p).msgs.procs j).Paced prog
      (w.msgs.maps.logical j) (w.entered j) (w.left j) := by
    intro j hj
    simp only [BarrierWorld.setProc]
    by_cases hji : j = i
    · subst hji
      rw [update_self]
      exact hp hj
    · rw [update_of_ne hji]
      exact h.paced j hj
  refine { h with flow := ?flow, keep := ?keep, paced := ?paced, earlyReceived := ?earlyReceived }
  case flow => exact h.flow.relog hr
  case keep => exact h.keep.relog h.flow.maps hr fun j hj => (h.paced j hj).skips
  case paced => exact hpaced
  case earlyReceived =>
    intro j hj x hx
    rw [show ((w.setProc i p).msgs.procs j).received = (w.msgs.procs j).received from (hall j).received] at hx
    exact h.earlyReceived j hj x hx

theorem ibarrier (hg : w.Orderly prog (.ibarrier i)) (hi : i ∈ w.msgs.maps.positions) (hnext : w.barrierNext prog i) :
    Synced prog { w with entered := update w.entered i (w.entered i + 1)
                         waiting := update w.waiting i (w.waiting i ++ [w.entered i]) } := by
  obtain ⟨hnil, hrel, hnone⟩ := hg
  have hentered : ∀ j, w.entered j ≤ update w.entered i (w.entered i + 1) j := by
    intro j
    by_cases hji : j = i
    · rw [hji, update_self]
      exact Nat.le_succ _
    · rw [update_of_ne hji]
  have hleft : ∀ j, update w.entered i (w.entered i + 1) j -
      (update w.waiting i (w.waiting i ++ [w.entered i]) j).length = w.left j := by
    intro j
    by_cases hji : j = i
    · rw [hji, update_self, update_self, left_of_nil hnil, hnil]
      rfl
    · rw [update_of_ne hji, update_of_ne hji, left]
  refine { h with
    blocked := ?blocked, left_le := ?left_le, paced := ?paced, late := ?late, early := ?early,
    earlyReceived := ?earlyReceived, prunedSends := ?prunedSends }
  case blocked =>
    intro j hj
    by_cases hji : j = i
    · simp [hji, hnil]
    · simp only [update_of_ne hji]
      exact h.blocked j hj
  case left_le =>
    intro j hj j' hj'
    rw [left, hleft]
    exact (h.left_le j hj j' hj').trans (hentered j')
  case paced =>
    intro j hj
    rw [left, hleft]
    have hp := h.paced j hj
    by_cases hji : j = i
    · subst hji
      rw [left_of_nil hnil] at hp ⊢
      simp only [update_self]
      exact hp.ibarrier hrel hnext
    · simp only [update_of_ne hji]
      exact hp
  case late =>
    intro msg hmsg
    simp only [update_of_ne (hnone msg hmsg)]
    exact h.late msg hmsg
  case early => exact fun msg hmsg j hj => (h.early msg hmsg j hj).trans (hentered j)
  case earlyReceived => exact fun p hp x hx j hj => (h.earlyReceived p hp x hx j hj).trans (hentered j)
  case prunedSends =>
    intro x hx
    rw [left, hleft]
    exact h.prunedSends x hx

theorem complete (hi : i ∈ w.msgs.maps.positions)
    (hk : k ∈ w.waiting i) (hall : ∀ j ∈ w.msgs.maps.positions, k < w.entered j) :
    Synced prog { w.setProc i (w.msgs.procs i).completeBarrier with
      waiting := update w.waiting i ((w.waiting i).erase k)
      prunedSends := w.prunedSends ++ (((w.msgs.procs i).sends.filter (·.released)).map fun r => (i, r))
      prunedRecvs := w.prunedRecvs ++ (((w.msgs.procs i).recvs.filter (·.released)).map fun r => (k, r)) } := by
  obtain ⟨hone, hent, hold⟩ := h.left_of_waiting hi hk
  have hr := (w.msgs.procs i).relogged_completeBarrier
  have hnil : (w.waiting i).erase k = [] := by rw [hone, erase_cons_head]
  have hself : w.entered i - (update w.waiting i ((w.waiting i).erase k) i).length = k + 1 := by
    rw [update_self, hnil, length_nil, Nat.sub_zero, hent]
  have hother : ∀ {j : Int}, j ≠ i →
      w.entered j - (update w.waiting i ((w.waiting i).erase k) j).length = w.left j := by
    intro j hji
    rw [update_of_ne hji, left]
  have hpaced := h.paced i hi
  rw [hent, hold] at hpaced
  refine { h with
    flow := ?flow, keep := ?keep, blocked := ?blocked, left_le := ?left_le, paced := ?paced,
    earlyReceived := ?earlyReceived, prunedSends := ?prunedSends, prunedRecvs := ?prunedRecvs }
  case flow => exact h.flow.relog hr
  case keep => exact h.keep.relog h.flow.maps hr fun j hj => (h.paced j hj).skips
  case blocked =>
    intro j hj
    by_cases hji : j = i
    · left
      simp only [hji, update_self, hnil]
    · simp only [update_of_ne hji]
      exact h.blocked j hj
  case left_le =>
    intro j hj j' hj'
    by_cases hji : j = i
    · subst hji
      simp only [left, BarrierWorld.setProc, hself]
      exact hall j' hj'
    · simp only [left, BarrierWorld.setProc, hother hji]
      exact h.left_le j hj j' hj'
  case paced =>
    intro j hj
    by_cases hji : j = i
    · subst hji
      simp only [left, BarrierWorld.setProc, update_self, hnil, length_nil, Nat.sub_zero]
      rw [hent]
      exact hpaced.complete
    · simp only [left, BarrierWorld.setProc, update_of_ne hji]
      exact h.paced j hj
  case earlyReceived =>
    intro j hj x hx
    simp only [BarrierWorld.setProc, (relog_cases w.msgs hr j).received] at hx
    exact h.earlyReceived j hj x hx
  case prunedSends =>
    intro x hx
    rcases mem_append.mp hx with hx | hx
    · obtain ⟨hpos, hfirst, htarget, hep⟩ := h.prunedSends x hx
      refine ⟨hpos, hfirst, htarget, ?_⟩
      by_cases hxi : x.1 = i
      · simp only [left, BarrierWorld.setProc, hxi, hself]
        rw [hxi, hold] at hep
        exact Nat.lt_succ_of_lt hep
      · simp only [left, BarrierWorld.setProc, hother hxi]
        exact hep
    · obtain ⟨r, hmem, rfl⟩ := mem_map.mp hx
      have hsend := (mem_filter.mp hmem).1
      obtain ⟨hfirst, _, htarget⟩ := (h.flow.logs i hi).sent r hsend
      refine ⟨hi, hfirst, htarget, ?_⟩
      simp only [left, BarrierWorld.setProc, hself]
      exact Nat.lt_succ_of_le (hpaced.sends r hsend).1.le
  case prunedRecvs =>
    intro x hx
    rcases mem_append.mp hx with hx | hx
    · exact h.prunedRecvs x hx
    · obtain ⟨r, hmem, rfl⟩ := mem_map.mp hx
      obtain ⟨hrecv, hrel⟩ := mem_filter.mp hmem
      exact hpaced.recvs r hrecv hrel

theorem step {e : BarrierEvent} (hg : w.Orderly prog e) (hs : w.step prog e = some w') : w'.Synced prog := by
  cases e with
  | isend i =>
    simp only [BarrierWorld.step] at hs
    split at hs
    · rename_i hnow
      obtain ⟨u, hu, rfl⟩ := map_eq_some_iff.mp hs
      exact h.isend hg hnow hu
    · cases hs
  | receive k =>
    obtain ⟨u, hu, rfl⟩ := map_eq_some_iff.mp hs
    exact h.receive hu
  | releaseSend i id =>
    rw [← some.inj hs]
    exact h.setProc (Proc.relogged_releaseSend _ id) fun hi => (h.paced i hi).releaseSend id
  | releaseRecv i k =>
    rw [← some.inj hs]
    refine h.setProc (Proc.relogged_releaseRecv _ k) fun hi => ?_
    have hp := h.paced i hi
    rw [left_of_nil hg] at hp ⊢
    refine hp.releaseRecv (fun r hr => ?_) k
    exact h.earlyReceived i hi _ ((h.flow.logs i hi).recvs r hr) i hi
  | ibarrier i =>
    simp only [BarrierWorld.step] at hs
    split at hs
    · rename_i hnext
      rw [← some.inj hs]
      exact h.ibarrier hg hnext.1 hnext.2
    · cases hs
  | complete i k =>
    simp only [BarrierWorld.step] at hs
    split at hs
    · rename_i hready
      rw [← some.inj hs]
      exact h.complete hready.1 hready.2.1 hready.2.2
    · cases hs

end Synced

instance (w : BarrierWorld) : Decidable w.Level :=
  inferInstanceAs (Decidable (∀ i ∈ w.msgs.maps.positions, ∀ j ∈ w.msgs.maps.positions,
    ∀ k < w.entered i, k ∉ w.waiting i → k < w.entered j ∧ k ∉ w.waiting j))

instance (prog : Program nC) (w : BarrierWorld) : ∀ e, Decidable (w.Orderly prog e)
  | .isend i => inferInstanceAs (Decidable (w.waiting i = [] ∧ (w.msgs.procs i).sendid < _ ∧
      ∀ j ∈ w.msgs.maps.positions, _))
  | .releaseRecv i _ => inferInstanceAs (Decidable (w.waiting i = []))
  | .ibarrier i => inferInstanceAs (Decidable (w.waiting i = [] ∧
      (∀ r ∈ (w.msgs.procs i).sends, _) ∧ ∀ msg ∈ w.msgs.net, _))
  | .receive _ | .releaseSend _ _ | .complete _ _ => instDecidableTrue

/-- In an orderly run the pruning at barriers is safe in every state, and a failure that does not find one
process out of a barrier that another is still in recovers every message exactly once. -/
theorem barrier_prunes_safely {m : ProcMaps} (hm : m.Valid) (prog : Program nC) (hnC : m.nC = nC)
    (es : List BarrierEvent) (hguard : Guarded (step prog) (Orderly prog) (start m) es)
    (hrun : runEvents (step prog) (start m) es = some w) :
    w.PrunesSafely ∧ ∀ failed u, w.Level → w.msgs.shrink failed = some u → u.restore.ExactlyOnce prog.dest := by
  have hinv : w.Synced prog := hguard.invariant hrun (.start hm hnC) fun hu hg hstep => hu.step hg hstep
  exact ⟨hinv.prunesSafely, fun failed u hlevel hu => hinv.recovers hlevel hu⟩

/-- Of two ranks the first sends one message to the second, then both call a barrier. -/
def sendThenBarrier : Program 2 where
  dest s _ := if s = 0 then 1 else 0
  epoch s id := if s = 0 ∧ id ≤ firstSendid then 0 else 1
  dest_range s _ := by split <;> decide
  epoch_mono s a b hab := by
    simp only
    split
    · exact Nat.zero_le _
    · rename_i hnot
      rw [if_neg fun hb => hnot ⟨hb.1, hab.trans hb.2⟩]

/-- The message is received and both requests are freed before the barrier; the first compute process fails
after everybody has left it. -/
theorem barrier_prunes_safely_in_order : ∃ w u, runEvents (step sendThenBarrier) (start (.initial 2 1))
        [.isend 0, .isend 2, .receive 0, .releaseSend 0 firstSendid, .releaseSend 2 firstSendid,
          .releaseRecv 1 0, .ibarrier 1, .ibarrier 0, .ibarrier 2, .complete 1 0, .complete 0 0,
          .complete 2 0] = some w ∧
      w.PrunesSafely ∧ w.msgs.shrink [0] = some u ∧ u.restore.ExactlyOnce sendThenBarrier.dest := by
  obtain ⟨w, hw, hlevel, hsome⟩ : ∃ w, runEvents (step sendThenBarrier) (start (.initial 2 1)) [.isend 0, .isend 2,
      .receive 0, .releaseSend 0 firstSendid, .releaseSend 2 firstSendid, .releaseRecv 1 0, .ibarrier 1,
      .ibarrier 0, .ibarrier 2, .complete 1 0, .complete 0 0, .complete 2 0] = some w ∧ w.Level
      ∧ (w.msgs.shrink [0]).isSome := by
    decide +kernel
  obtain ⟨u, hu⟩ := isSome_iff_exists.mp hsome
  obtain ⟨hsafe, hrec⟩ := barrier_prunes_safely (ProcMaps.initial_valid (by decide)) sendThenBarrier rfl _
    (by decide +kernel) hw
  exact ⟨w, u, hw, hsafe, hu, hrec [0] u hlevel hu⟩

/-- The receiver calls the barrier before the message is sent: the sender's record is deleted while the
message is in flight. And in an orderly run a failure between the completion at the receiver and that at the
sender makes the sender send the message again. -/
theorem barrier_prunes_message_in_flight : (∃ w, runEvents (step sendThenBarrier) (start (.initial 2 0))
        [.ibarrier 1, .isend 0, .releaseSend 0 firstSendid, .ibarrier 0, .complete 0 0] = some w ∧
      ¬ w.PrunesSafely) ∧
    ∃ es w u, Guarded (step sendThenBarrier) (Orderly sendThenBarrier) (start (.initial 2 1)) es ∧
      runEvents (step sendThenBarrier) (start (.initial 2 1)) es = some w ∧
      w.msgs.shrink [2] = some u ∧ ¬ u.restore.ExactlyOnce sendThenBarrier.dest := by
  constructor
  · refine exists_run_imp (P := fun w => (0, { id := firstSendid, target := 1, released := true }) ∈ w.prunedSends ∧
      1 ∈ w.msgs.maps.positions ∧ w.msgs.maps.logical 1 = 1 ∧ (w.msgs.procs 1).received = []) (by decide +kernel) ?_
    intro w _ hfacts h
    obtain ⟨hpruned, hpos, hlog, hnone⟩ := hfacts
    have hin := h.sends _ hpruned 1 hpos hlog
    rw [hnone] at hin
    exact absurd hin not_mem_nil
  · obtain ⟨w, hw, u, hu, hpos, htwo⟩ : ∃ w, runEvents (step sendThenBarrier) (start (.initial 2 1))
        [.isend 0, .isend 2, .receive 0, .releaseSend 0 firstSendid, .releaseSend 2 firstSendid,
          .releaseRecv 1 0, .ibarrier 1, .ibarrier 0, .ibarrier 2, .complete 1 0] = some w ∧
        ∃ u, w.msgs.shrink [2] = some u ∧ 1 ∈ u.maps.positions ∧ u.restore.copies 0 firstSendid 1 = 2 := by
      decide +kernel
    refine ⟨_, w, u, by decide +kernel, hw, hu, fun h => ?_⟩
    have hle := h.1 1 hpos 0 firstSendid
    omega

end BarrierWorld

end ParepMpi
