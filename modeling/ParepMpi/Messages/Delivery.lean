import ParepMpi.Messages.Routing

/-!
# Exactly once

A message that the copy of its sender serving a position has issued is at that position once, received or in flight;
one that it has yet to issue is not in flight, and if it has been received the sender is to skip it.

That no message comes twice holds in every run. That none is lost needs more: the skip lists that a process brings to
its new position must be backed by the logs of those it is to skip for, and a second failure can take those away.
-/

namespace ParepMpi

open Option ProcMaps List

inductive MsgEvent
  | isend (i : Int)
  | receive (k : Nat)
  | fail (failed : List Int)
  | rearrange (maps : ProcMaps)

namespace MsgWorld

variable (dest : Int → Nat → Int) (w : MsgWorld)

def step : MsgEvent → Option MsgWorld
  | .isend i => w.isend dest i
  | .receive k => w.receive k
  | .fail failed => (w.shrink failed).map restore
  | .rearrange maps => some (w.recopy maps).restore

/-- How many times the message `id` of the logical rank `s` has come or is coming to position `j`. -/
def copies (s : Int) (id : Nat) (j : Int) : Nat :=
  (w.procs j).received.count (s, id) + w.net.count ⟨j, s, id⟩

def AtMostOnce : Prop := ∀ j ∈ w.maps.positions, ∀ s id, w.copies s id j ≤ 1

/-- A message is at the copies of its destination once, received or in flight, as soon as the copy of its
sender that serves them has issued it. -/
def ExactlyOnce : Prop :=
  w.AtMostOnce ∧ ∀ j ∈ w.maps.positions, ∀ s, 0 ≤ s → s < w.maps.nC → ∀ id, firstSendid ≤ id →
    id < (w.procs (w.maps.sender s j)).sendid → dest s id = w.maps.logical j → w.copies s id j = 1

/-- The ids waiting to be skipped are ids that the process at the position they are meant for has. -/
def Backed : Prop :=
  ∀ j ∈ w.maps.positions, ∀ s ∈ w.maps.positions, s < w.maps.nC →
    ∀ id ∈ (w.procs (w.maps.sender s j)).skipsTo w.maps.nC j,
      (w.procs (w.maps.sender s j)).sendid ≤ id → dest s id = w.maps.logical j → id ∈ w.report s j

def InverseMaps : MsgEvent → Prop
  | .rearrange maps => w.maps.Rearranges maps
  | _ => True

/-- Once the processes have moved, the skip lists they bring along are backed by the receive logs. -/
def SkipsBacked : MsgEvent → Prop
  | .fail failed => ∀ w' ∈ w.shrink failed, Backed dest w'
  | .rearrange maps => Backed dest (w.recopy maps)
  | _ => True

end MsgWorld

structure Proc.Logged (dest : Int → Nat → Int) (nC s : Int) (p : Proc) : Prop where
  first_le : firstSendid ≤ p.sendid
  ids : (p.sends.map (·.id)).Nodup
  sent : ∀ r ∈ p.sends, firstSendid ≤ r.id ∧ r.id < p.sendid ∧ r.target = dest s r.id
  recvs : ∀ r ∈ p.recvs, (r.source, r.id) ∈ p.received
  nodup : p.received.Nodup
  addressed : ∀ x ∈ p.received, 0 ≤ x.1 ∧ x.1 < nC ∧ firstSendid ≤ x.2 ∧ dest x.1 x.2 = s
  self : ∀ id, (s, id) ∈ p.received → id < p.sendid

theorem Proc.nodup_issue (p : Proc) (t : Int) (hids : (p.sends.map (·.id)).Nodup)
    (hold : ∀ r ∈ p.sends, r.id < p.sendid) : ((p.issue t).sends.map (·.id)).Nodup := by
  simp only [Proc.issue, map_append, map_cons, map_nil]
  apply List.Nodup.append hids (nodup_singleton _)
  intro id hid hnew
  obtain ⟨r, hr, rfl⟩ := mem_map.mp hid
  exact absurd (mem_singleton.mp hnew) (ne_of_lt (hold r hr))

structure Proc.Unpruned (p : Proc) : Prop where
  sends : ∀ id, firstSendid ≤ id → id < p.sendid → ∃ r ∈ p.sends, r.id = id
  recvs : ∀ x ∈ p.received, ∃ r ∈ p.recvs, (r.source, r.id) = x

namespace Proc.Unpruned

variable {p : Proc}

theorem start : Unpruned {} := ⟨fun _ h0 hlt => absurd hlt (not_lt.mpr h0), by simp⟩

theorem issue (h : p.Unpruned) (t : Int) : (p.issue t).Unpruned where
  sends id h0 hlt := by
    rcases Nat.lt_succ_iff_lt_or_eq.mp hlt with hlt | rfl
    · obtain ⟨r, hr, hid⟩ := h.sends id h0 hlt
      exact ⟨r, mem_append_left _ hr, hid⟩
    · exact ⟨_, mem_append_right _ (mem_singleton_self _), rfl⟩
  recvs := h.recvs

theorem accept (h : p.Unpruned) (source : Int) (id : Nat) : (p.accept source id).Unpruned where
  sends := h.sends
  recvs x hx := by
    rcases mem_append.mp hx with hx | hx
    · obtain ⟨r, hr, heq⟩ := h.recvs x hx
      exact ⟨r, mem_append_left _ hr, heq⟩
    · exact ⟨_, mem_append_right _ (mem_singleton_self _), (mem_singleton.mp hx).symm⟩

end Proc.Unpruned

namespace Proc.Logged

variable {dest : Int → Nat → Int} {nC s : Int} {p : Proc}

theorem start : Logged dest nC s {} where
  first_le := le_rfl
  ids := nodup_nil
  sent := by simp
  recvs := by simp
  nodup := nodup_nil
  addressed := by simp
  self := by simp

theorem issue (h : Logged dest nC s p) : Logged dest nC s (p.issue (dest s p.sendid)) where
  first_le := h.first_le.trans (Nat.le_succ _)
  ids := p.nodup_issue _ h.ids fun r hr => (h.sent r hr).2.1
  sent r hr := by
    rcases mem_append.mp hr with hr | hr
    · obtain ⟨h0, hlt, htarget⟩ := h.sent r hr
      exact ⟨h0, Nat.lt_succ_of_lt hlt, htarget⟩
    · rw [mem_singleton.mp hr]
      exact ⟨h.first_le, Nat.lt_succ_self _, rfl⟩
  recvs := h.recvs
  nodup := h.nodup
  addressed := h.addressed
  self id hid := Nat.lt_succ_of_lt (h.self id hid)

theorem accept (h : Logged dest nC s p) {source : Int} {id : Nat} (h0 : 0 ≤ source) (hlt : source < nC)
    (hfirst : firstSendid ≤ id) (hdest : dest source id = s) (hnew : (source, id) ∉ p.received)
    (hself : source = s → id < p.sendid) : Logged dest nC s (p.accept source id) where
  first_le := h.first_le
  ids := h.ids
  sent := h.sent
  recvs r hr := by
    rcases mem_append.mp hr with hr | hr
    · exact mem_append_left _ (h.recvs r hr)
    · rw [mem_singleton.mp hr]
      exact mem_append_right _ (mem_singleton_self _)
  nodup := by
    apply List.Nodup.append h.nodup (nodup_singleton _)
    intro x hx hlast
    exact hnew (mem_singleton.mp hlast ▸ hx)
  addressed x hx := by
    rcases mem_append.mp hx with hx | hx
    · exact h.addressed x hx
    · rw [mem_singleton.mp hx]
      exact ⟨h0, hlt, hfirst, hdest⟩
  self i hi := by
    rcases mem_append.mp hi with hi | hi
    · exact h.self i hi
    · obtain ⟨rfl, rfl⟩ := Prod.mk.injEq .. ▸ mem_singleton.mp hi
      exact hself rfl

end Proc.Logged

namespace MsgWorld

variable {dest : Int → Nat → Int} {w w' : MsgWorld}

/-- What the code keeps in every run: logs that agree with the program and no message twice. -/
structure Flowing (dest : Int → Nat → Int) (w : MsgWorld) : Prop where
  maps : w.maps.Valid
  logs : ∀ i ∈ w.maps.positions, (w.procs i).Logged dest w.maps.nC (w.maps.logical i)
  net : ∀ msg ∈ w.net, msg.dst ∈ w.maps.positions ∧ 0 ≤ msg.source ∧ msg.source < w.maps.nC ∧
    firstSendid ≤ msg.id ∧ dest msg.source msg.id = w.maps.logical msg.dst
  once : w.AtMostOnce
  unsent : ∀ j ∈ w.maps.positions, ∀ s, 0 ≤ s → s < w.maps.nC → ∀ id,
    (w.procs (w.maps.sender s j)).sendid ≤ id → ⟨j, s, id⟩ ∉ w.net
  noted : ∀ j ∈ w.maps.positions, ∀ s, 0 ≤ s → s < w.maps.nC → ∀ id,
    (w.procs (w.maps.sender s j)).sendid ≤ id → (s, id) ∈ (w.procs j).received →
      id ∈ (w.procs (w.maps.sender s j)).skipsTo w.maps.nC j

/-- What the code keeps while the skip lists are backed: no message is lost. -/
structure Keeping (dest : Int → Nat → Int) (w : MsgWorld) : Prop where
  arrives : ∀ j ∈ w.maps.positions, ∀ s, 0 ≤ s → s < w.maps.nC → ∀ id, firstSendid ≤ id →
    id < (w.procs (w.maps.sender s j)).sendid → dest s id = w.maps.logical j → 1 ≤ w.copies s id j
  backed : Backed dest w

theorem mem_report {q j : Int} {id : Nat} : id ∈ w.report q j ↔
    ∃ r ∈ (w.procs j).recvs, r.source = w.maps.logical q ∧ r.id = id := by
  simp only [report, List.mem_map, List.mem_filter, decide_eq_true_eq, and_assoc]

theorem received_of_report {nC s : Int} {q j : Int} (hl : (w.procs j).Logged dest nC s) {id : Nat}
    (h : id ∈ w.report q j) : (w.maps.logical q, id) ∈ (w.procs j).received := by
  obtain ⟨r, hr, hsource, rfl⟩ := mem_report.mp h
  exact hsource ▸ hl.recvs r hr

/-- The logs hold what recovery asks of them: a receiver reports what its sender could send again, a sender
has a record of what did not arrive, and a receiver reports what its sender has yet to reach. -/
structure Recoverable (dest : Int → Nat → Int) (w : MsgWorld) : Prop where
  resent : ∀ j ∈ w.maps.positions, ∀ s, 0 ≤ s → s < w.maps.nC → ∀ id,
    (∃ r ∈ (w.procs (w.maps.sender s j)).sends, r.id = id) → (s, id) ∈ (w.procs j).received →
      id ∈ w.report (w.maps.sender s j) j
  logged : ∀ j ∈ w.maps.positions, ∀ s, 0 ≤ s → s < w.maps.nC → ∀ id, firstSendid ≤ id →
    id < (w.procs (w.maps.sender s j)).sendid → dest s id = w.maps.logical j →
      (∃ r ∈ (w.procs (w.maps.sender s j)).sends, r.id = id) ∨ (s, id) ∈ (w.procs j).received
  ahead : ∀ j ∈ w.maps.positions, ∀ s, 0 ≤ s → s < w.maps.nC → ∀ id,
    (w.procs (w.maps.sender s j)).sendid ≤ id → (s, id) ∈ (w.procs j).received → id ∈ w.report (w.maps.sender s j) j

theorem recoverable_of_unpruned (hm : w.maps.Valid) (h : ∀ i ∈ w.maps.positions, (w.procs i).Unpruned) :
    w.Recoverable dest := by
  have hreport : ∀ j ∈ w.maps.positions, ∀ s, 0 ≤ s → s < w.maps.nC → ∀ id,
      (s, id) ∈ (w.procs j).received → id ∈ w.report (w.maps.sender s j) j := by
    intro j hj s h0 hlt id hmem
    obtain ⟨r, hr, heq⟩ := (h j hj).recvs _ hmem
    rw [Prod.mk.injEq] at heq
    exact mem_report.mpr ⟨r, hr, by rw [hm.logical_sender h0 hlt, heq.1], heq.2⟩
  constructor
  case resent => exact fun j hj s h0 hlt id _ => hreport j hj s h0 hlt id
  case logged =>
    intro j _ s h0 hlt id hfirst hid _
    exact .inl ((h _ (hm.sender_mem h0 hlt j)).sends id hfirst hid)
  case ahead => exact fun j hj s h0 hlt id _ => hreport j hj s h0 hlt id

theorem exactlyOnce_of_keeping (hf : w.Flowing dest) (hk : w.Keeping dest) : w.ExactlyOnce dest := by
  refine ⟨hf.once, ?_⟩
  intro j hj s h0 hlt id hfirst hsent hdest
  exact le_antisymm (hf.once j hj s id) (hk.arrives j hj s h0 hlt id hfirst hsent hdest)

theorem start_flowing {m : ProcMaps} (hm : m.Valid) : (start m).Flowing dest where
  maps := hm
  logs _ _ := .start
  net := by simp [start]
  once := by simp [AtMostOnce, copies, start]
  unsent := by simp [start]
  noted := by simp [start]

theorem start_keeping {m : ProcMaps} : (start m).Keeping dest where
  arrives _ _ _ _ _ _ hfirst hsent _ := absurd hsent (not_lt.mpr hfirst)
  backed j _ s _ _ id hid := by
    have hnil : ((start m).procs ((start m).maps.sender s j)).skipsTo (start m).maps.nC j = [] := ite_self _
    rw [hnil] at hid
    exact absurd hid not_mem_nil

section

variable {i : Int}

theorem mem_outgoing {t j s : Int} {id : Nat} :
    ⟨j, s, id⟩ ∈ w.outgoing i t ↔ s = w.maps.logical i ∧ id = (w.procs i).sendid ∧
      j ∈ w.maps.recipients i t ∧ id ∉ (w.procs i).skipsTo w.maps.nC j := by
  simp only [outgoing, List.mem_map, List.mem_filter, decide_eq_true_eq, Message.mk.injEq]
  constructor
  · rintro ⟨j', ⟨hj, hskip⟩, rfl, rfl, rfl⟩
    exact ⟨rfl, rfl, hj, hskip⟩
  · rintro ⟨rfl, rfl, hj, hskip⟩
    exact ⟨j, ⟨hj, hskip⟩, rfl, rfl, rfl⟩

theorem outgoing_nodup (hm : w.maps.Valid) {t : Int} (h0 : 0 ≤ t) (hlt : t < w.maps.nC) : (w.outgoing i t).Nodup := by
  apply List.Nodup.map
  · intro j k hjk
    exact (Message.mk.injEq .. ▸ hjk).1
  · exact (hm.recipients_nodup h0 hlt i).filter _

section

variable (h : w.isend dest i = some w')

include h

theorem isend_cases : i ∈ w.maps.positions ∧ w'.maps = w.maps ∧
      w'.net = w.net ++ w.outgoing i (dest (w.maps.logical i) (w.procs i).sendid) ∧
      w'.procs i = (w.procs i).issue (dest (w.maps.logical i) (w.procs i).sendid) ∧
      ∀ j, j ≠ i → w'.procs j = w.procs j := by
  obtain ⟨hi, h⟩ := ite_none_right_eq_some.mp h
  rw [← some.inj h]
  exact ⟨hi, rfl, rfl, Function.update_self .., fun j hj => Function.update_of_ne hj ..⟩

theorem isend_received (j : Int) : (w'.procs j).received = (w.procs j).received := by
  obtain ⟨_, _, _, hself, hother⟩ := isend_cases h
  by_cases hj : j = i
  · rw [hj, hself]
    rfl
  · rw [hother j hj]

theorem isend_report (q j : Int) : w'.report q j = w.report q j := by
  obtain ⟨_, hmaps, _, hself, hother⟩ := isend_cases h
  unfold report
  rw [hmaps]
  by_cases hj : j = i
  · rw [hj, hself]
    rfl
  · rw [hother j hj]

theorem isend_sender (q j : Int) {id : Nat} (hid : (w'.procs q).sendid ≤ id) : (w.procs q).sendid ≤ id ∧
      (id ∈ (w'.procs q).skipsTo w.maps.nC j ↔ id ∈ (w.procs q).skipsTo w.maps.nC j) := by
  obtain ⟨_, _, _, hself, hother⟩ := isend_cases h
  by_cases hq : q = i
  · subst hq
    rw [hself] at hid ⊢
    have hne : id ≠ (w.procs q).sendid := Nat.ne_of_gt hid
    refine ⟨Nat.le_of_succ_le hid, ?_⟩
    simp only [Proc.skipsTo, Proc.issue]
    split <;> rw [mem_erase_of_ne hne]
  · rw [hother q hq] at hid ⊢
    exact ⟨hid, Iff.rfl⟩

theorem isend_sent (q : Int) {id : Nat} (hid : id < (w'.procs q).sendid) :
    id < (w.procs q).sendid ∨ q = i ∧ id = (w.procs i).sendid := by
  obtain ⟨_, _, _, hself, hother⟩ := isend_cases h
  by_cases hq : q = i
  · subst hq
    rw [hself] at hid
    exact (Nat.lt_succ_iff_lt_or_eq.mp hid).imp_right fun heq => ⟨rfl, heq⟩
  · rw [hother q hq] at hid
    exact .inl hid

theorem isend_copies (s : Int) (id : Nat) (j : Int) : w'.copies s id j = w.copies s id j +
      (w.outgoing i (dest (w.maps.logical i) (w.procs i).sendid)).count ⟨j, s, id⟩ := by
  unfold copies
  rw [isend_received h, (isend_cases h).2.2.1, count_append, add_assoc]

end

variable (hdest : ∀ s id, 0 ≤ dest s id ∧ dest s id < w.maps.nC)

include hdest

theorem outgoing_sender (hm : w.maps.Valid) (hi : i ∈ w.maps.positions) {j s : Int} {id : Nat}
    (hmem : ⟨j, s, id⟩ ∈ w.outgoing i (dest (w.maps.logical i) (w.procs i).sendid)) :
    j ∈ w.maps.positions ∧ s = w.maps.logical i ∧ id = (w.procs i).sendid ∧ w.maps.sender s j = i ∧
      dest s id = w.maps.logical j ∧ id ∉ (w.procs i).skipsTo w.maps.nC j := by
  obtain ⟨rfl, rfl, hj, hskip⟩ := mem_outgoing.mp hmem
  obtain ⟨hpos, hlog, hsender⟩ := (hm.mem_recipients hi (hdest _ _).1 (hdest _ _).2).mp hj
  exact ⟨hpos, rfl, rfl, hsender, hlog.symm, hskip⟩

theorem isend_flowing (hf : w.Flowing dest) (h : w.isend dest i = some w') : w'.Flowing dest := by
  obtain ⟨hi, hmaps, hnet, hself, hother⟩ := isend_cases h
  have hrange := hdest (w.maps.logical i) (w.procs i).sendid
  have hrank := hf.maps.logical_range hi
  constructor
  case maps => exact hmaps ▸ hf.maps
  case logs =>
    rw [hmaps]
    intro j hj
    by_cases hji : j = i
    · rw [hji, hself]
      exact (hf.logs i hi).issue
    · rw [hother j hji]
      exact hf.logs j hj
  case net =>
    rw [hmaps, hnet]
    intro msg hmsg
    rcases mem_append.mp hmsg with hmsg | hmsg
    · exact hf.net msg hmsg
    · obtain ⟨hj, hs, hid, _, hlog, _⟩ := outgoing_sender hdest hf.maps hi hmsg
      exact ⟨hj, hs ▸ hrank.1, hs ▸ hrank.2, hid ▸ (hf.logs i hi).first_le, hlog⟩
  case once =>
    intro j hj s id
    rw [hmaps] at hj
    rw [isend_copies h]
    by_cases hnew : ⟨j, s, id⟩ ∈ w.outgoing i (dest (w.maps.logical i) (w.procs i).sendid)
    · -- The id was in neither the network nor the receiver's log: it had not been sent, nor is it skipped.
      obtain ⟨_, rfl, rfl, hsender, _, hskip⟩ := outgoing_sender hdest hf.maps hi hnew
      have hunsent := hf.unsent j hj _ hrank.1 hrank.2 (w.procs i).sendid (by rw [hsender])
      have hnoted := hf.noted j hj _ hrank.1 hrank.2 (w.procs i).sendid (by rw [hsender])
      rw [hsender] at hnoted
      rw [copies, count_eq_zero.mpr hunsent, count_eq_zero.mpr (mt hnoted hskip)]
      simpa using nodup_iff_count_le_one.mp (outgoing_nodup hf.maps hrange.1 hrange.2) _
    · rw [count_eq_zero.mpr hnew]
      exact hf.once j hj s id
  case unsent =>
    rw [hmaps, hnet]
    intro j hj s h0 hlt id hid hmem
    rcases mem_append.mp hmem with hmem | hmem
    · exact hf.unsent j hj s h0 hlt id (isend_sender h _ j hid).1 hmem
    · obtain ⟨_, _, rfl, hsender, _, _⟩ := outgoing_sender hdest hf.maps hi hmem
      rw [hsender, hself] at hid
      exact Nat.not_succ_le_self _ hid
  case noted =>
    rw [hmaps]
    intro j hj s h0 hlt id hid hmem
    rw [isend_received h] at hmem
    obtain ⟨hold, hiff⟩ := isend_sender h _ j hid
    exact hiff.mpr (hf.noted j hj s h0 hlt id hold hmem)

theorem isend_keeping (hf : w.Flowing dest) (hk : w.Keeping dest) (h : w.isend dest i = some w') : w'.Keeping dest := by
  obtain ⟨hi, hmaps, _, _, _⟩ := isend_cases h
  constructor
  case arrives =>
    rw [hmaps]
    intro j hj s h0 hlt id hfirst hid hlog
    rw [isend_copies h]
    rcases isend_sent h _ hid with hold | ⟨hsender, rfl⟩
    · exact Nat.le_add_right_of_le (hk.arrives j hj s h0 hlt id hfirst hold hlog)
    · have hs : s = w.maps.logical i := by rw [← hsender, hf.maps.logical_sender h0 hlt]
      by_cases hskip : (w.procs i).sendid ∈ (w.procs i).skipsTo w.maps.nC j
      · -- It is skipped because the receiver has it.
        have hback := hk.backed j hj s (hf.maps.rank_mem h0 hlt) hlt (w.procs i).sendid
        rw [hsender] at hback
        have hrec := received_of_report (hf.logs j hj) (hback hskip le_rfl hlog)
        rw [logical_of_lt hlt] at hrec
        exact Nat.le_add_right_of_le (Nat.le_add_right_of_le (one_le_count_iff.mpr hrec))
      · have hrange := hdest (w.maps.logical i) (w.procs i).sendid
        refine Nat.le_add_left_of_le (one_le_count_iff.mpr (mem_outgoing.mpr ⟨hs, rfl, ?_, hskip⟩))
        exact (hf.maps.mem_recipients hi hrange.1 hrange.2).mpr ⟨hj, by rw [← hlog, hs], by rw [← hs, hsender]⟩
  case backed =>
    unfold Backed
    rw [hmaps]
    intro j hj s hs hlt id hmem hid hlog
    obtain ⟨hold, hiff⟩ := isend_sender h _ j hid
    rw [isend_report h]
    exact hk.backed j hj s hs hlt id (hiff.mp hmem) hold hlog

end

section

variable {k : Nat}

section

variable (h : w.receive k = some w')

include h

theorem receive_cases : ∃ msg, w.net[k]? = some msg ∧ w'.maps = w.maps ∧ w'.net = w.net.eraseIdx k ∧
      w'.procs msg.dst = (w.procs msg.dst).accept msg.source msg.id ∧
      ∀ j, j ≠ msg.dst → w'.procs j = w.procs j := by
  obtain ⟨msg, hmsg, h⟩ := bind_eq_some_iff.mp h
  rw [← some.inj h]
  exact ⟨msg, hmsg, rfl, rfl, Function.update_self .., fun j hj => Function.update_of_ne hj ..⟩

theorem receive_sender (q : Int) : (w'.procs q).sendid = (w.procs q).sendid ∧
      ∀ nC j, (w'.procs q).skipsTo nC j = (w.procs q).skipsTo nC j := by
  obtain ⟨msg, _, _, _, hself, hother⟩ := receive_cases h
  by_cases hq : q = msg.dst
  · rw [hq, hself]
    exact ⟨rfl, fun _ _ => rfl⟩
  · rw [hother q hq]
    exact ⟨rfl, fun _ _ => rfl⟩

theorem receive_received {j s : Int} {id : Nat} : (s, id) ∈ (w'.procs j).received ↔
      (s, id) ∈ (w.procs j).received ∨ w.net[k]? = some ⟨j, s, id⟩ := by
  obtain ⟨msg, hmsg, _, _, hself, hother⟩ := receive_cases h
  rw [hmsg, some_inj]
  by_cases hj : j = msg.dst
  · subst hj
    rw [hself, Proc.accept, mem_append, mem_singleton, Prod.mk.injEq]
    refine or_congr_right ⟨?_, ?_⟩
    · rintro ⟨rfl, rfl⟩
      rfl
    · intro heq
      rw [heq]
      exact ⟨rfl, rfl⟩
  · rw [hother j hj]
    refine ⟨.inl, fun hor => hor.resolve_right ?_⟩
    intro heq
    exact hj (by rw [heq])

theorem receive_report {q j : Int} {id : Nat} (hid : id ∈ w.report q j) : id ∈ w'.report q j := by
  obtain ⟨msg, _, hmaps, _, hself, hother⟩ := receive_cases h
  obtain ⟨r, hr, hsource, heq⟩ := mem_report.mp hid
  refine mem_report.mpr ⟨r, ?_, by rw [hmaps, hsource], heq⟩
  by_cases hj : j = msg.dst
  · rw [hj, hself]
    exact mem_append_left _ (hj ▸ hr)
  · rwa [hother j hj]

theorem receive_copies (s : Int) (id : Nat) (j : Int) : w'.copies s id j = w.copies s id j := by
  obtain ⟨msg, hmsg, _, hnet, hself, hother⟩ := receive_cases h
  obtain ⟨hk, hget⟩ := List.getElem?_eq_some_iff.mp hmsg
  have hperm := (getElem_cons_eraseIdx_perm hk).count_eq ⟨j, s, id⟩
  rw [hget, count_cons] at hperm
  unfold copies
  rw [hnet]
  by_cases hj : j = msg.dst
  · subst hj
    rw [hself, Proc.accept, count_append, count_singleton]
    by_cases heq : (msg.source, msg.id) = (s, id)
    · obtain ⟨rfl, rfl⟩ := Prod.mk.injEq .. ▸ heq
      simp only [BEq.rfl, if_true] at hperm ⊢
      omega
    · have hne : msg ≠ ⟨msg.dst, s, id⟩ := fun h => heq (by rw [h])
      simp only [beq_eq_false_iff_ne.mpr heq, beq_eq_false_iff_ne.mpr hne] at hperm ⊢
      omega
  · have hne : msg ≠ ⟨j, s, id⟩ := fun h => hj (by rw [h])
    rw [beq_eq_false_iff_ne.mpr hne] at hperm
    rw [hother j hj]
    simp only [Bool.false_eq_true, if_false] at hperm
    omega

end

theorem receive_flowing (hf : w.Flowing dest) (h : w.receive k = some w') : w'.Flowing dest := by
  obtain ⟨msg, hmsg, hmaps, hnet, hself, hother⟩ := receive_cases h
  have hmem : msg ∈ w.net := mem_of_getElem? hmsg
  obtain ⟨hdst, h0, hlt, hfirst, hlog⟩ := hf.net msg hmem
  have hsent : msg.id < (w.procs (w.maps.sender msg.source msg.dst)).sendid := by
    by_contra hnot
    exact hf.unsent msg.dst hdst msg.source h0 hlt msg.id (not_lt.mp hnot) hmem
  constructor
  case maps => exact hmaps ▸ hf.maps
  case logs =>
    rw [hmaps]
    intro j hj
    by_cases hjm : j = msg.dst
    · rw [hjm, hself]
      have hnew : (msg.source, msg.id) ∉ (w.procs msg.dst).received := by
        intro hold
        have honce := hf.once msg.dst hdst msg.source msg.id
        have h1 := one_le_count_iff.mpr hold
        have h2 : 1 ≤ w.net.count ⟨msg.dst, msg.source, msg.id⟩ := one_le_count_iff.mpr hmem
        unfold copies at honce
        omega
      refine (hf.logs _ hdst).accept h0 hlt hfirst hlog hnew fun hown => ?_
      rwa [hown, hf.maps.sender_self hdst] at hsent
    · rw [hother j hjm]
      exact hf.logs j hj
  case net =>
    rw [hmaps, hnet]
    exact fun msg' hmsg' => hf.net msg' (mem_of_mem_eraseIdx hmsg')
  case once =>
    intro j hj s id
    rw [receive_copies h]
    exact hf.once j (hmaps ▸ hj) s id
  case unsent =>
    rw [hmaps, hnet]
    intro j hj s h0 hlt id hid hin
    rw [(receive_sender h _).1] at hid
    exact hf.unsent j hj s h0 hlt id hid (mem_of_mem_eraseIdx hin)
  case noted =>
    rw [hmaps]
    intro j hj s h0 hlt id hid hin
    rw [(receive_sender h _).1] at hid
    rw [(receive_sender h _).2]
    rcases (receive_received h).mp hin with hold | hnew
    · exact hf.noted j hj s h0 hlt id hid hold
    · exact absurd (mem_of_getElem? hnew) (hf.unsent j hj s h0 hlt id hid)

theorem receive_keeping (hk : w.Keeping dest) (h : w.receive k = some w') : w'.Keeping dest := by
  obtain ⟨_, _, hmaps, _⟩ := receive_cases h
  constructor
  case arrives =>
    rw [hmaps]
    intro j hj s h0 hlt id hfirst hid hlog
    rw [(receive_sender h _).1] at hid
    rw [receive_copies h]
    exact hk.arrives j hj s h0 hlt id hfirst hid hlog
  case backed =>
    unfold Backed
    rw [hmaps]
    intro j hj s hs hlt id hmem hid hlog
    rw [(receive_sender h _).2] at hmem
    rw [(receive_sender h _).1] at hid
    exact receive_report h (hk.backed j hj s hs hlt id hmem hid hlog)

end

/-! ### Restoring

What a report lacks is sent again, and what it names too early is skipped when its turn comes. -/

section

@[simp] theorem restore_maps : w.restore.maps = w.maps := rfl

@[simp] theorem restore_sendid (q : Int) : (w.restore.procs q).sendid = (w.procs q).sendid := rfl

@[simp] theorem restore_received (q : Int) : (w.restore.procs q).received = (w.procs q).received := rfl

theorem mem_resends {q j s : Int} {id : Nat} : ⟨j, s, id⟩ ∈ w.resends q ↔ s = w.maps.logical q ∧ id ∉ w.report q j ∧
      ∃ r ∈ (w.procs q).sends, r.id = id ∧ j ∈ w.maps.recipients q r.target := by
  simp only [resends, List.mem_flatMap, List.mem_map, List.mem_filter, decide_eq_true_eq, Message.mk.injEq]
  constructor
  · rintro ⟨r, hr, j', ⟨hj, hnot⟩, rfl, rfl, rfl⟩
    exact ⟨rfl, hnot, r, hr, rfl, hj⟩
  · rintro ⟨rfl, hnot, r, hr, rfl, hj⟩
    exact ⟨r, hr, j, ⟨hj, hnot⟩, rfl, rfl, rfl⟩

theorem mem_skipItems {q : Int} {js : List Int} {id : Nat} :
    id ∈ w.skipItems q js ↔ ∃ j ∈ js, heeds w.maps q j = true ∧ id ∈ w.report q j ∧
      (∀ r ∈ (w.procs q).sends, ¬ (j ∈ w.maps.recipients q r.target ∧ r.id = id)) ∧ (w.procs q).sendid ≤ id := by
  simp only [skipItems, mem_reverse, mem_flatMap, mem_filter, ahead, decide_eq_true_eq]
  constructor
  · rintro ⟨j, ⟨hj, hh⟩, hrest⟩
    exact ⟨j, hj, hh, hrest⟩
  · rintro ⟨j, hj, hh, hrest⟩
    exact ⟨j, ⟨hj, hh⟩, hrest⟩

theorem mem_restore_skipsTo {q j : Int} {id : Nat} : id ∈ (w.restore.procs q).skipsTo w.maps.nC j ↔
      (∃ i ∈ w.maps.positions, (i < w.maps.nC ↔ j < w.maps.nC) ∧ heeds w.maps q i = true ∧ id ∈ w.report q i ∧
        (∀ r ∈ (w.procs q).sends, ¬ (i ∈ w.maps.recipients q r.target ∧ r.id = id)) ∧ (w.procs q).sendid ≤ id) ∨
        id ∈ (w.procs q).skipsTo w.maps.nC j := by
  simp only [Proc.skipsTo, restore]
  by_cases hj : j < w.maps.nC
  · rw [if_pos hj, if_pos hj, mem_append, mem_skipItems]
    simp only [mem_filter, decide_eq_true_eq, hj, iff_true, and_assoc]
  · rw [if_neg hj, if_neg hj, mem_append, mem_skipItems]
    simp only [mem_filter, decide_eq_true_eq, hj, iff_false, not_lt, and_assoc]

theorem heeds_of_sender (hm : w.maps.Valid) {s j : Int} (h0 : 0 ≤ s) (hlt : s < w.maps.nC)
    (hne : j ≠ w.maps.sender s j) : heeds w.maps (w.maps.sender s j) j = true := by
  unfold ProcMaps.sender at hne ⊢
  split
  · rename_i hside
    rw [if_pos hside] at hne
    rw [heeds, if_pos hlt, decide_eq_true_eq]
    refine ⟨hne, ?_, hside⟩
    by_cases hnone : w.maps.ctr s = -1
    · exact .inl hnone
    · have hge := (hm.replica_mem h0 hlt hnone).2
      exact .inr (by omega)
  · rename_i hside
    rw [if_neg hside] at hne
    have hnone : w.maps.ctr s ≠ -1 := fun h => hside (.inr h)
    have hge := (hm.replica_mem h0 hlt hnone).2
    have hlog := hm.logical_replica h0 hlt hnone
    rw [logical_of_ge hge] at hlog
    rw [heeds, if_neg (by omega), decide_eq_true_eq, hlog]
    exact ⟨by omega, hne, by omega⟩

variable (hdest : ∀ s id, 0 ≤ dest s id ∧ dest s id < w.maps.nC) (hm : w.maps.Valid)
  (hlogs : ∀ i ∈ w.maps.positions, (w.procs i).Logged dest w.maps.nC (w.maps.logical i))

include hdest hm hlogs

theorem resends_sender {q : Int} (hq : q ∈ w.maps.positions) {j s : Int} {id : Nat} :
    ⟨j, s, id⟩ ∈ w.resends q ↔ j ∈ w.maps.positions ∧ s = w.maps.logical q ∧ w.maps.sender s j = q ∧
      (∃ r ∈ (w.procs q).sends, r.id = id) ∧ dest s id = w.maps.logical j ∧ id ∉ w.report q j := by
  rw [mem_resends]
  constructor
  · rintro ⟨rfl, hnot, r, hr, rfl, hj⟩
    obtain ⟨_, _, htarget⟩ := (hlogs q hq).sent r hr
    rw [htarget, hm.mem_recipients hq (hdest _ _).1 (hdest _ _).2] at hj
    obtain ⟨hpos, hlog, hsender⟩ := hj
    exact ⟨hpos, rfl, hsender, ⟨r, hr, rfl⟩, hlog.symm, hnot⟩
  · rintro ⟨hj, rfl, hsender, ⟨r, hr, rfl⟩, hlog, hnot⟩
    refine ⟨rfl, hnot, r, hr, rfl, ?_⟩
    rw [((hlogs q hq).sent r hr).2.2, hm.mem_recipients hq (hdest _ _).1 (hdest _ _).2]
    exact ⟨hj, hlog.symm, hsender⟩

theorem resends_nodup {q : Int} (hq : q ∈ w.maps.positions) : (w.resends q).Nodup := by
  rw [resends, nodup_flatMap]
  constructor
  · intro r hr
    rw [((hlogs q hq).sent r hr).2.2]
    apply List.Nodup.map
    · intro j k hjk
      exact (Message.mk.injEq .. ▸ hjk).1
    · exact (hm.recipients_nodup (hdest _ _).1 (hdest _ _).2 q).filter _
  · refine (pairwise_map.mp (hlogs q hq).ids).imp ?_
    intro r r' hne msg hmsg hmsg'
    obtain ⟨_, _, rfl⟩ := mem_map.mp hmsg
    obtain ⟨_, _, heq⟩ := mem_map.mp hmsg'
    exact hne (Message.mk.injEq .. ▸ heq).2.2.symm

theorem all_resends_nodup : (w.maps.positions.flatMap w.resends).Nodup := by
  rw [nodup_flatMap]
  refine ⟨fun q => resends_nodup hdest hm hlogs, ?_⟩
  apply (positions_nodup w.maps).imp_of_mem
  intro q q' hq hq' hne msg hmsg hmsg'
  obtain ⟨j, s, id⟩ := msg
  exact hne (((resends_sender hdest hm hlogs hq).mp hmsg).2.2.1.symm.trans
    ((resends_sender hdest hm hlogs hq').mp hmsg').2.2.1)

variable (hrec : w.Recoverable dest) (hnet : w.net = [])

include hrec hnet

theorem mem_restore_net {j s : Int} {id : Nat} (h0 : 0 ≤ s) (hlt : s < w.maps.nC) :
    ⟨j, s, id⟩ ∈ w.restore.net ↔ j ∈ w.maps.positions ∧
      (∃ r ∈ (w.procs (w.maps.sender s j)).sends, r.id = id) ∧ dest s id = w.maps.logical j ∧
      (s, id) ∉ (w.procs j).received := by
  have hq := hm.sender_mem h0 hlt j
  have hlogical := hm.logical_sender h0 hlt j
  simp only [restore, hnet, nil_append, mem_flatMap]
  constructor
  · rintro ⟨q, hq, hmem⟩
    obtain ⟨hj, _, rfl, hsend, hlog, hnot⟩ := (resends_sender hdest hm hlogs hq).mp hmem
    exact ⟨hj, hsend, hlog, fun h => hnot (hrec.resent j hj s h0 hlt id hsend h)⟩
  · rintro ⟨hj, hsend, hlog, hnot⟩
    refine ⟨_, hq, (resends_sender hdest hm hlogs hq).mpr ⟨hj, hlogical.symm, rfl, hsend, hlog, ?_⟩⟩
    intro hrep
    exact hnot (hlogical ▸ received_of_report (hlogs j hj) hrep)

theorem restore_flowing : w.restore.Flowing dest := by
  have hnodup : w.restore.net.Nodup := by
    simp only [restore, hnet, nil_append]
    exact all_resends_nodup hdest hm hlogs
  have hin := @mem_restore_net dest w hdest hm hlogs hrec hnet
  constructor
  case maps => exact hm
  case logs =>
    intro i hi
    obtain ⟨h1, h2, h3, h4, h5, h6, h7⟩ := hlogs i hi
    exact ⟨h1, h2, h3, h4, h5, h6, h7⟩
  case net =>
    intro msg hmsg
    have hfrom : msg ∈ w.maps.positions.flatMap w.resends := by simpa [restore, hnet] using hmsg
    obtain ⟨q, hq, hmem⟩ := mem_flatMap.mp hfrom
    obtain ⟨hj, hs, _, ⟨r, hr, hid⟩, hlog, _⟩ := (resends_sender hdest hm hlogs hq).mp hmem
    have hfirst := ((hlogs q hq).sent r hr).1
    exact ⟨hj, hs ▸ (hm.logical_range hq).1, hs ▸ (hm.logical_range hq).2, hid ▸ hfirst, hlog⟩
  case once =>
    intro j hj s id
    have hle := nodup_iff_count_le_one.mp (hlogs j hj).nodup (s, id)
    have hle' := nodup_iff_count_le_one.mp hnodup ⟨j, s, id⟩
    by_cases hmem : (s, id) ∈ (w.procs j).received
    · -- What has been received is not sent again.
      obtain ⟨h0, hlt, _, _⟩ := (hlogs j hj).addressed _ hmem
      have hnot : ⟨j, s, id⟩ ∉ w.restore.net := fun h => ((hin h0 hlt).mp h).2.2.2 hmem
      rw [copies, count_eq_zero.mpr hnot]
      exact hle
    · have hzero : (w.restore.procs j).received.count (s, id) = 0 := count_eq_zero.mpr hmem
      rw [copies, hzero, zero_add]
      exact hle'
  case unsent =>
    intro j _ s h0 hlt id hid hmem
    obtain ⟨r, hr, rfl⟩ := ((hin h0 hlt).mp hmem).2.1
    exact absurd ((hlogs _ (hm.sender_mem h0 hlt j)).sent r hr).2.1 (not_lt.mpr hid)
  case noted =>
    simp only [restore_maps, restore_sendid, restore_received]
    intro j hj s h0 hlt id hid hmem
    have hq := hm.sender_mem h0 hlt j
    have hne : j ≠ w.maps.sender s j := by
      intro heq
      have hlog := hm.logical_sender h0 hlt j
      rw [← heq] at hlog hid
      exact absurd ((hlogs j hj).self id (hlog ▸ hmem)) (not_lt.mpr hid)
    refine mem_restore_skipsTo.mpr (.inl ⟨j, hj, Iff.rfl, heeds_of_sender hm h0 hlt hne,
      hrec.ahead j hj s h0 hlt id hid hmem, ?_, hid⟩)
    rintro r hr ⟨_, rfl⟩
    exact absurd ((hlogs _ hq).sent r hr).2.1 (not_lt.mpr hid)

theorem restore_keeping (hback : Backed dest w) : w.restore.Keeping dest := by
  constructor
  case arrives =>
    simp only [restore_maps, restore_sendid]
    intro j hj s h0 hlt id hfirst hid hlog
    by_cases hmem : (s, id) ∈ (w.procs j).received
    · exact Nat.le_add_right_of_le (one_le_count_iff.mpr hmem)
    · have hsend := (hrec.logged j hj s h0 hlt id hfirst hid hlog).resolve_right hmem
      exact Nat.le_add_left_of_le (one_le_count_iff.mpr
        ((mem_restore_net hdest hm hlogs hrec hnet h0 hlt).mpr ⟨hj, hsend, hlog, hmem⟩))
  case backed =>
    simp only [Backed, restore_maps, restore_sendid]
    intro j hj s hs hlt id hmem hid hlog
    have hreport : w.report s j = w.restore.report s j := rfl
    rw [← hreport]
    have hlogical := hm.logical_sender (mem_positions.mp hs).1 hlt j
    rcases mem_restore_skipsTo.mp hmem with ⟨i, hi, hside, _, hrep, _⟩ | hold
    · -- A reported id belongs to a message for the copy that reported it.
      have haddr := ((hlogs i hi).addressed _ (received_of_report (hlogs i hi) hrep)).2.2.2
      rw [hlogical] at haddr
      have heq := hm.eq_of_logical hi hj (haddr.symm.trans hlog) hside
      obtain ⟨r, hr, hsource, hid'⟩ := mem_report.mp hrep
      exact mem_report.mpr ⟨r, heq ▸ hr, by rw [hsource, hlogical, logical_of_lt hlt], hid'⟩
    · exact hback j hj s hs hlt id hold hid hlog

end

theorem moved_logs {m' : ProcMaps} {old : Int → Int} (hc : Carried w.maps m' old)
    (hlogs : ∀ i ∈ w.maps.positions, (w.procs i).Logged dest w.maps.nC (w.maps.logical i)) :
    ∀ i ∈ (w.moved m' old).maps.positions,
      ((w.moved m' old).procs i).Logged dest (w.moved m' old).maps.nC ((w.moved m' old).maps.logical i) := by
  intro i hi
  have hlog := hlogs (old i) (hc.mem i hi)
  rw [hc.logical i hi, ← hc.nC] at hlog
  exact hlog

structure Flow (dest : Int → Nat → Int) (w : MsgWorld) : Prop extends w.Flowing dest where
  unpruned : ∀ i ∈ w.maps.positions, (w.procs i).Unpruned

theorem Flow.recovers (h : w.Flow dest) (hdest : ∀ s id, 0 ≤ dest s id ∧ dest s id < w.maps.nC)
    {m' : ProcMaps} {old : Int → Int} (hc : Carried w.maps m' old) :
    (w.moved m' old).restore.Flow dest ∧ (Backed dest (w.moved m' old) → (w.moved m' old).restore.Keeping dest) := by
  have hdest' : ∀ s id, 0 ≤ dest s id ∧ dest s id < (w.moved m' old).maps.nC := by
    rwa [show (w.moved m' old).maps.nC = w.maps.nC from hc.nC]
  have hun : ∀ i ∈ (w.moved m' old).maps.positions, ((w.moved m' old).procs i).Unpruned :=
    fun i hi => h.unpruned (old i) (hc.mem i hi)
  have hlogs := moved_logs hc h.logs
  have hrec : (w.moved m' old).Recoverable dest := recoverable_of_unpruned hc.valid hun
  refine ⟨⟨restore_flowing hdest' hc.valid hlogs hrec rfl, fun i hi => ?_⟩,
    restore_keeping hdest' hc.valid hlogs hrec rfl⟩
  obtain ⟨h1, h2⟩ := hun i hi
  exact ⟨h1, h2⟩

theorem isend_flow (hdest : ∀ s id, 0 ≤ dest s id ∧ dest s id < w.maps.nC) (hf : w.Flow dest) {i : Int}
    (h : w.isend dest i = some w') : w'.Flow dest := by
  refine ⟨isend_flowing hdest hf.toFlowing h, ?_⟩
  obtain ⟨hi, hmaps, _, hself, hother⟩ := isend_cases h
  rw [hmaps]
  intro j hj
  by_cases hji : j = i
  · rw [hji, hself]
    exact (hf.unpruned i hi).issue _
  · rw [hother j hji]
    exact hf.unpruned j hj

theorem receive_flow (hf : w.Flow dest) {k : Nat} (h : w.receive k = some w') : w'.Flow dest := by
  refine ⟨receive_flowing hf.toFlowing h, ?_⟩
  obtain ⟨msg, _, hmaps, _, hself, hother⟩ := receive_cases h
  rw [hmaps]
  intro j hj
  by_cases hjm : j = msg.dst
  · rw [hjm, hself]
    exact (hf.unpruned _ (hjm ▸ hj)).accept _ _
  · rw [hother j hjm]
    exact hf.unpruned j hj

theorem step_flow (hdest : ∀ s id, 0 ≤ dest s id ∧ dest s id < w.maps.nC) {e : MsgEvent}
    (hf : w.Flow dest) (hmaps : w.InverseMaps e) (h : w.step dest e = some w') :
    w'.Flow dest ∧ w'.maps.nC = w.maps.nC := by
  cases e with
  | isend i => exact ⟨isend_flow hdest hf h, by rw [(isend_cases h).2.1]⟩
  | receive k =>
    obtain ⟨_, _, heq, _⟩ := receive_cases h
    exact ⟨receive_flow hf h, by rw [heq]⟩
  | fail failed =>
    obtain ⟨u, hu, rfl⟩ := map_eq_some_iff.mp h
    obtain ⟨old, hc, heq⟩ := shrink_carried hu hf.maps
    rw [heq]
    exact ⟨(hf.recovers hdest hc).1, hc.nC⟩
  | rearrange maps =>
    have hc := carried_logical hf.maps hmaps.1 hmaps.2.1
    rw [← some.inj h]
    exact ⟨(hf.recovers hdest hc).1, hc.nC⟩

theorem step_keeping (hdest : ∀ s id, 0 ≤ dest s id ∧ dest s id < w.maps.nC) {e : MsgEvent}
    (hf : w.Flow dest) (hk : w.Keeping dest) (hmaps : w.InverseMaps e) (hback : w.SkipsBacked dest e)
    (h : w.step dest e = some w') : w'.Keeping dest := by
  cases e with
  | isend i => exact isend_keeping hdest hf.toFlowing hk h
  | receive k => exact receive_keeping hk h
  | fail failed =>
    obtain ⟨u, hu, rfl⟩ := map_eq_some_iff.mp h
    have hbacked := hback u hu
    obtain ⟨old, hc, heq⟩ := shrink_carried hu hf.maps
    rw [heq] at hbacked ⊢
    exact (hf.recovers hdest hc).2 hbacked
  | rearrange maps =>
    have hc := carried_logical hf.maps hmaps.1 hmaps.2.1
    rw [← some.inj h]
    exact (hf.recovers hdest hc).2 hback

theorem start_flow {m : ProcMaps} (hm : m.Valid) : (start m).Flow dest := ⟨start_flowing hm, fun _ _ => .start⟩

instance : Decidable (Backed dest w) :=
  inferInstanceAs (Decidable (∀ j ∈ w.maps.positions, ∀ s ∈ w.maps.positions, _))

instance : ∀ e, Decidable (w.SkipsBacked dest e)
  | .isend _ | .receive _ => instDecidableTrue
  | .fail failed => inferInstanceAs (Decidable (∀ w' ∈ w.shrink failed, Backed dest w'))
  | .rearrange maps => inferInstanceAs (Decidable (Backed dest (w.recopy maps)))

/-- In every run no message comes to a process twice, and in a run whose failures and rearrangements find
the skip lists backed by the receive logs every issued message comes exactly once. -/
theorem messages_delivered_once {m : ProcMaps} (hm : m.Valid)
    (hdest : ∀ s id, 0 ≤ dest s id ∧ dest s id < m.nC) (es : List MsgEvent)
    (hmaps : Guarded (step dest) InverseMaps (start m) es)
    (hrun : runEvents (step dest) (start m) es = some w) :
    w.AtMostOnce ∧ (Guarded (step dest) (SkipsBacked dest) (start m) es → w.ExactlyOnce dest) := by
  constructor
  · have hinv : w.Flow dest ∧ w.maps.nC = m.nC := by
      refine hmaps.invariant (P := fun u => u.Flow dest ∧ u.maps.nC = m.nC) hrun ⟨start_flow hm, rfl⟩ ?_
      intro u e u' hu hg hstep
      obtain ⟨hf, hnC⟩ := hu
      have hnext := step_flow (by rwa [hnC]) hf hg hstep
      exact ⟨hnext.1, hnext.2.trans hnC⟩
    exact hinv.1.once
  · intro hback
    have hinv : w.Flow dest ∧ w.Keeping dest ∧ w.maps.nC = m.nC := by
      refine (hmaps.and hback).invariant (P := fun u => u.Flow dest ∧ u.Keeping dest ∧ u.maps.nC = m.nC) hrun
        ⟨start_flow hm, start_keeping, rfl⟩ ?_
      intro u e u' hu hg hstep
      obtain ⟨hf, hk, hnC⟩ := hu
      have hnext := step_flow (by rwa [hnC]) hf hg.1 hstep
      exact ⟨hnext.1, step_keeping (by rwa [hnC]) hf hk hg.1 hg.2 hstep, hnext.2.trans hnC⟩
    exact exactlyOnce_of_keeping hinv.1.toFlowing hinv.2.1

/-- Two logical ranks, both replicated, that send to each other. The first compute process sends and fails
before its replica has sent; the replica takes its place and serves only the process that lacks the message. -/
theorem delivered_once_by_lagging_replica :
    ∃ w, runEvents (step fun s _ => if s = 0 then 1 else 0) (start (ProcMaps.initial 2 2))
        [.isend 0, .receive 0, .fail [0], .isend 0] = some w ∧
      w.net = [⟨2, 0, firstSendid⟩] ∧ w.ExactlyOnce fun s _ => if s = 0 then 1 else 0 := by
  have hdest : ∀ (s : Int) (_ : Nat), (0 : Int) ≤ (if s = 0 then 1 else 0) ∧
      (if s = 0 then 1 else 0) < (ProcMaps.initial 2 2).nC := by
    intro s _
    split <;> decide
  refine exists_run_imp (P := fun w => w.net = [⟨2, 0, firstSendid⟩]) (by decide +kernel) fun w hw hnet =>
    ⟨hnet, (messages_delivered_once (initial_valid (by decide)) hdest _ ?_ hw).2 ?_⟩
  · exact guarded_of_forall (by simp [InverseMaps])
  · decide +kernel

/-- The replica that took the first sender's place is to skip the message for a compute process that then
fails as well: the replica in that one's place never gets it. -/
theorem message_lost_after_second_failure :
    ∃ w, runEvents (step fun s _ => if s = 0 then 1 else 0) (start (.initial 2 2))
        [.isend 0, .receive 0, .fail [0], .fail [1], .isend 0] = some w ∧
      ¬ w.ExactlyOnce fun s _ => if s = 0 then 1 else 0 := by
  refine exists_run_imp (P := fun w => 1 ∈ w.maps.positions ∧ 0 < w.maps.nC ∧ w.maps.logical 1 = 1 ∧
    firstSendid < (w.procs (w.maps.sender 0 1)).sendid ∧ w.copies 0 firstSendid 1 = 0) (by decide +kernel) ?_
  intro w _ hfacts h
  obtain ⟨hpos, hnC, hlog, hsent, hnone⟩ := hfacts
  have hone := h.2 1 hpos 0 le_rfl hnC firstSendid le_rfl hsent (by rw [hlog]; rfl)
  omega

end MsgWorld

end ParepMpi
