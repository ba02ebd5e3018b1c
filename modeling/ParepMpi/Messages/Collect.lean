import ParepMpi.Messages.Delivery

/-!
# Collecting log records

In a round of `CMD_REM_RECV` every process reports the ids of its released RECV records to the copies of their senders.
A sender marks the records that all copies of the destination have reported and sends back what is left of the reports;
the receivers mark what has not come back, and the sweep deletes the released records with both marks.

Marks stay when a round is cut off by a failure. A failure that comes between the sweeps of two processes is not
modelled: a round sweeps everywhere or nowhere.
-/

namespace ParepMpi

open List Option Function MsgWorld

namespace SendRec

/-- The record is released and has both marks: the next sweep deletes it. -/
def deletable (r : SendRec) : Bool := r.released && r.markdelcmp && r.markdelrep

def marked (r : SendRec) : SendRec := { r with markdelcmp := true, markdelrep := true }

def reported (m : ProcMaps) (ids : Int → List Nat) (r : SendRec) : Prop :=
  r.released = true ∧ r.id ∈ ids r.target ∧ (m.ctr r.target = -1 ∨ r.id ∈ ids (m.nC + m.ctr r.target))

instance (m : ProcMaps) (ids : Int → List Nat) (r : SendRec) : Decidable (r.reported m ids) :=
  instDecidableAnd

/-- The reports without the id; the code overwrites its first occurrence by `-1`. -/
def clear (m : ProcMaps) (ids : Int → List Nat) (r : SendRec) (j : Int) : List Nat :=
  if j = r.target ∨ m.ctr r.target ≠ -1 ∧ j = m.nC + m.ctr r.target then (ids j).erase r.id else ids j

end SendRec

namespace RecvRec

def deletable (r : RecvRec) : Bool := r.released && r.markdelcmp && r.markdelrep

def remark (m : ProcMaps) (returned : Int → List Nat) (r : RecvRec) : RecvRec :=
  if r.released then
    { r with
      markdelcmp := r.markdelcmp || r.id ∉ returned r.source
      markdelrep := r.markdelrep || (m.ctr r.source = -1 ∨ r.id ∉ returned (m.nC + m.ctr r.source)) }
  else r

/-- `transfer_to_replicas` makes the two marks of a released record equal. -/
def realign (r : RecvRec) : RecvRec :=
  if r.released then { r with markdelrep := r.markdelcmp } else r

end RecvRec

/-- A sender's pass over its SEND records: the records with their marks, and the reports to send back. -/
def markSends (m : ProcMaps) : List SendRec → (Int → List Nat) → List SendRec × (Int → List Nat)
  | [], ids => ([], ids)
  | r :: rs, ids =>
    if r.reported m ids then
      let out := markSends m rs (r.clear m ids)
      (r.marked :: out.1, out.2)
    else
      let out := markSends m rs ids
      (r :: out.1, out.2)

namespace Proc

def releaseSend (p : Proc) (id : Nat) : Proc :=
  { p with sends := p.sends.map fun r => if r.id = id then { r with released := true } else r }

def releaseRecv (p : Proc) (k : Nat) : Proc :=
  { p with recvs := p.recvs.modify k fun r => { r with released := true } }

def sweep (p : Proc) : Proc :=
  { p with sends := p.sends.filter fun r => !r.deletable
           recvs := p.recvs.filter fun r => !r.deletable }

end Proc

namespace MsgWorld

variable (w : MsgWorld)

/-- The ids of the released RECV records that position `j` reports to position `q`. -/
def gcReport (q j : Int) : List Nat :=
  ((w.procs j).recvs.filter fun r => r.released ∧ r.source = w.maps.logical q).map (·.id)

def returned (q j : Int) : List Nat :=
  (markSends w.maps (w.procs q).sends (w.gcReport q)).2 j

/-- `handle_rem_recv_with_tests` or `handle_rem_recv_no_poll`, when the positions in `qs` get to mark their
SEND records and those in `ps` their RECV records before the round is cut off. -/
def handleRemRecv (qs ps : List Int) : MsgWorld :=
  { w with
    procs := fun i =>
      { w.procs i with
        sends := if i ∈ qs then (markSends w.maps (w.procs i).sends (w.gcReport i)).1 else (w.procs i).sends
        recvs := if i ∈ ps then (w.procs i).recvs.map (RecvRec.remark w.maps fun q => w.returned q i)
          else (w.procs i).recvs } }

def sweep : MsgWorld := { w with procs := fun i => (w.procs i).sweep }

def markAll : MsgWorld := w.handleRemRecv w.maps.positions w.maps.positions

def collect : MsgWorld := w.markAll.sweep

/-- `transfer_to_replicas` makes the marks of the RECV records equal at every process. -/
def realign : MsgWorld :=
  { w with procs := fun i => { w.procs i with recvs := (w.procs i).recvs.map RecvRec.realign } }

end MsgWorld

inductive GcEvent
  | isend (i : Int)
  | receive (k : Nat)
  | releaseSend (i : Int) (id : Nat)
  | releaseRecv (i : Int) (k : Nat)
  | fail (failed : List Int)
  | rearrange (maps : ProcMaps)
  /-- A round cut off by a failure. A process that got the reports back has them from every sender. -/
  | interrupted (qs ps : List Int)
  | collect

namespace MsgWorld

def gcStep (dest : Int → Nat → Int) (w : MsgWorld) : GcEvent → Option MsgWorld
  | .isend i => w.isend dest i
  | .receive k => w.receive k
  | .releaseSend i id => some { w with procs := update w.procs i ((w.procs i).releaseSend id) }
  | .releaseRecv i k => some { w with procs := update w.procs i ((w.procs i).releaseRecv k) }
  | .fail failed => (w.shrink failed).map restore
  | .rearrange maps => some (w.recopy maps).realign.sweep.collect.restore
  | .interrupted qs ps =>
    if ps = [] ∨ ∀ i ∈ w.maps.positions, i ∈ qs then some (w.handleRemRecv qs ps) else none
  | .collect => some w.collect

end MsgWorld

/-- The process has sent the message `id` and keeps no record of it past the next sweep. -/
def Proc.Done (p : Proc) (id : Nat) : Prop := id < p.sendid ∧ ∀ r ∈ p.sends, r.id = id → r.deletable = true

instance (p : Proc) (id : Nat) : Decidable (p.Done id) := instDecidableAnd

namespace MsgWorld

structure CollectsSafely (w : MsgWorld) : Prop where
  /-- A deleted SEND record is of a message that every copy of its destination has received. -/
  sends : ∀ q ∈ w.maps.positions, ∀ r ∈ (w.markAll.procs q).sends, r.deletable = true →
    ∀ j ∈ w.maps.positions, w.maps.logical j = r.target → (w.maps.logical q, r.id) ∈ (w.procs j).received
  /-- A deleted RECV record is of a message that no copy of its sender can send again. -/
  recvs : ∀ p ∈ w.maps.positions, ∀ r ∈ (w.markAll.procs p).recvs, r.deletable = true →
    ∀ q ∈ w.maps.positions, w.maps.logical q = r.source →
      (∀ r' ∈ (w.collect.procs q).sends, r'.id ≠ r.id) ∧ r.id < (w.collect.procs q).sendid

/-- A replica that takes the place of its compute process is done with the messages that the survivors
have marked on account of that process. -/
def PromotesDone (w : MsgWorld) : GcEvent → Prop
  | .fail failed => ∀ s ∈ failed, s < w.maps.nC → ∀ p ∈ w.maps.positions, p ∉ failed →
      ∀ r ∈ (w.procs p).recvs, r.source = s → r.markdelcmp = true → (w.procs (w.maps.nC + w.maps.ctr s)).Done r.id
  | _ => True

def GcInverseMaps (w : MsgWorld) : GcEvent → Prop
  | .rearrange maps => w.maps.Rearranges maps
  | _ => True

end MsgWorld

structure Proc.Tidy (nC : Int) (p : Proc) : Prop where
  fresh : ∀ r ∈ p.sends, r.id < p.sendid
  ids : (p.sends.map (·.id)).Nodup
  source : ∀ r ∈ p.recvs, 0 ≤ r.source ∧ r.source < nC ∧ (r.source, r.id) ∈ p.received
  released : ∀ r ∈ p.recvs, r.markdelcmp = true ∨ r.markdelrep = true → r.released = true

/-- From `p` to `p'` no mark is set and nothing that was done is undone. -/
structure Proc.Quiet (p p' : Proc) : Prop where
  sends : ∀ r' ∈ p'.sends, (r'.markdelcmp = false ∧ r'.markdelrep = false) ∨ ∃ r ∈ p.sends, r.id = r'.id ∧
    r.target = r'.target ∧ r.markdelcmp = r'.markdelcmp ∧ r.markdelrep = r'.markdelrep ∧
    (r.released = true → r'.released = true)
  recvs : ∀ r' ∈ p'.recvs, (r'.markdelcmp = false ∧ r'.markdelrep = false) ∨ ∃ r ∈ p.recvs, r.id = r'.id ∧
    r.source = r'.source ∧ r.markdelcmp = r'.markdelcmp ∧ r.markdelrep = r'.markdelrep
  received : p.received ⊆ p'.received
  done : ∀ id, p.Done id → p'.Done id

theorem SendRec.deletable_iff {r : SendRec} :
    r.deletable = true ↔ r.released = true ∧ r.markdelcmp = true ∧ r.markdelrep = true := by
  simp only [SendRec.deletable, Bool.and_eq_true, and_assoc]

theorem RecvRec.deletable_iff {r : RecvRec} :
    r.deletable = true ↔ r.released = true ∧ r.markdelcmp = true ∧ r.markdelrep = true := by
  simp only [RecvRec.deletable, Bool.and_eq_true, and_assoc]

theorem mem_release {l : List RecvRec} {k : Nat} {r' : RecvRec}
    (h : r' ∈ l.modify k fun r => { r with released := true }) :
    ∃ r ∈ l, r' = r ∨ r' = { r with released := true } := by
  obtain ⟨n, hn⟩ := mem_iff_getElem?.mp h
  rw [getElem?_modify] at hn
  obtain ⟨r, hr, heq⟩ := map_eq_some_iff.mp hn
  refine ⟨r, mem_of_getElem? hr, ?_⟩
  split at heq
  · exact .inr heq.symm
  · exact .inl heq.symm

namespace Proc

variable {p : Proc} {nC : Int}

namespace Tidy

theorem start : Tidy nC {} := ⟨by simp, nodup_nil, by simp, by simp⟩

variable (h : p.Tidy nC)

include h

theorem issue (t : Int) : (p.issue t).Tidy nC where
  fresh r hr := by
    rcases mem_append.mp hr with hr | hr
    · exact Nat.lt_succ_of_lt (h.fresh r hr)
    · rw [mem_singleton.mp hr]
      exact Nat.lt_succ_self _
  ids := p.nodup_issue t h.ids h.fresh
  source := h.source
  released := h.released

theorem accept {source : Int} (h0 : 0 ≤ source) (hlt : source < nC) (id : Nat) : (p.accept source id).Tidy nC where
  fresh := h.fresh
  ids := h.ids
  source r hr := by
    rcases mem_append.mp hr with hr | hr
    · obtain ⟨hs0, hslt, hmem⟩ := h.source r hr
      exact ⟨hs0, hslt, mem_append_left _ hmem⟩
    · rw [mem_singleton.mp hr]
      exact ⟨h0, hlt, mem_append_right _ (mem_singleton_self _)⟩
  released r hr hmark := by
    rcases mem_append.mp hr with hr | hr
    · exact h.released r hr hmark
    · rw [mem_singleton.mp hr] at hmark
      simp at hmark

variable {recvs : List RecvRec} {sends : List SendRec}

theorem rewrite (hids : sends.map (·.id) = p.sends.map (·.id))
    (hrecvs : ∀ r' ∈ recvs, ∃ r ∈ p.recvs, r'.id = r.id ∧ r'.source = r.source ∧
      (r.released = true → r'.released = true) ∧ (r'.markdelcmp = true ∨ r'.markdelrep = true →
        (r.markdelcmp = true ∨ r.markdelrep = true) ∨ r.released = true)) :
    Tidy nC { p with sends := sends, recvs := recvs } where
  fresh r' hr' := by
    have hmem : r'.id ∈ p.sends.map (·.id) := hids ▸ mem_map_of_mem hr'
    obtain ⟨r, hr, heq⟩ := mem_map.mp hmem
    exact heq ▸ h.fresh r hr
  ids := hids ▸ h.ids
  source r' hr' := by
    obtain ⟨r, hr, hid, hsource, _⟩ := hrecvs r' hr'
    rw [hid, hsource]
    exact h.source r hr
  released r' hr' hmark := by
    obtain ⟨r, hr, _, _, hrel, hor⟩ := hrecvs r' hr'
    rcases hor hmark with hold | hnow
    · exact hrel (h.released r hr hold)
    · exact hrel hnow

theorem releaseSend (id : Nat) : (p.releaseSend id).Tidy nC := by
  refine h.rewrite ?_ fun r hr => ⟨r, hr, rfl, rfl, fun h => h, Or.inl⟩
  rw [List.map_map]
  apply map_congr_left
  intro r _
  simp only [comp_apply]
  split <;> rfl

theorem releaseRecv (k : Nat) : (p.releaseRecv k).Tidy nC := by
  refine h.rewrite rfl fun r' hr' => ?_
  obtain ⟨r, hr, rfl | rfl⟩ := mem_release hr'
  · exact ⟨_, hr, rfl, rfl, fun h => h, .inl⟩
  · exact ⟨r, hr, rfl, rfl, fun _ => rfl, .inl⟩

theorem realign : Tidy nC { p with recvs := p.recvs.map RecvRec.realign } := by
  refine h.rewrite rfl fun r' hr' => ?_
  obtain ⟨r, hr, rfl⟩ := mem_map.mp hr'
  unfold RecvRec.realign
  split
  · rename_i hrel
    exact ⟨r, hr, rfl, rfl, fun h => h, fun _ => .inr hrel⟩
  · exact ⟨r, hr, rfl, rfl, fun h => h, .inl⟩

theorem remark (m : ProcMaps) (returned : Int → List Nat) (hids : sends.map (·.id) = p.sends.map (·.id)) :
    Tidy nC { p with sends := sends, recvs := p.recvs.map (RecvRec.remark m returned) } := by
  refine h.rewrite hids fun r' hr' => ?_
  obtain ⟨r, hr, rfl⟩ := mem_map.mp hr'
  unfold RecvRec.remark
  split
  · rename_i hrel
    exact ⟨r, hr, rfl, rfl, fun h => h, fun _ => .inr hrel⟩
  · exact ⟨r, hr, rfl, rfl, fun h => h, .inl⟩

theorem sublist (hs : sends.Sublist p.sends) (hr : recvs.Sublist p.recvs) :
    Tidy nC { p with sends := sends, recvs := recvs } where
  fresh r hmem := h.fresh r (hs.subset hmem)
  ids := h.ids.sublist (hs.map _)
  source r hmem := h.source r (hr.subset hmem)
  released r hmem := h.released r (hr.subset hmem)

end Tidy

namespace Quiet

theorem refl (p : Proc) : Quiet p p where
  sends r hr := .inr ⟨r, hr, rfl, rfl, rfl, rfl, fun h => h⟩
  recvs r hr := .inr ⟨r, hr, rfl, rfl, rfl, rfl⟩
  received _ h := h
  done _ h := h

theorem issue (p : Proc) (t : Int) : Quiet p (p.issue t) where
  sends r hr := by
    rcases mem_append.mp hr with hr | hr
    · exact .inr ⟨r, hr, rfl, rfl, rfl, rfl, fun h => h⟩
    · rw [mem_singleton.mp hr]
      exact .inl ⟨rfl, rfl⟩
  recvs := (refl p).recvs
  received _ h := h
  done id h := by
    refine ⟨Nat.lt_succ_of_lt h.1, fun r hr hid => ?_⟩
    rcases mem_append.mp hr with hr | hr
    · exact h.2 r hr hid
    · rw [mem_singleton.mp hr] at hid
      exact absurd hid (Nat.ne_of_gt h.1)

theorem accept (p : Proc) (source : Int) (id : Nat) : Quiet p (p.accept source id) where
  sends := (refl p).sends
  recvs r hr := by
    rcases mem_append.mp hr with hr | hr
    · exact .inr ⟨r, hr, rfl, rfl, rfl, rfl⟩
    · rw [mem_singleton.mp hr]
      exact .inl ⟨rfl, rfl⟩
  received _ h := mem_append_left _ h
  done _ h := h

theorem releaseSend (p : Proc) (id : Nat) : Quiet p (p.releaseSend id) where
  sends r' hr' := by
    obtain ⟨r, hr, rfl⟩ := mem_map.mp hr'
    refine .inr ⟨r, hr, ?_⟩
    split
    · exact ⟨rfl, rfl, rfl, rfl, fun _ => rfl⟩
    · exact ⟨rfl, rfl, rfl, rfl, fun h => h⟩
  recvs := (refl p).recvs
  received _ h := h
  done i h := by
    refine ⟨h.1, fun r' hr' hid => ?_⟩
    obtain ⟨r, hr, rfl⟩ := mem_map.mp hr'
    split at hid
    · rename_i heq
      rw [if_pos heq]
      obtain ⟨_, hc, hp⟩ := SendRec.deletable_iff.mp (h.2 r hr hid)
      exact SendRec.deletable_iff.mpr ⟨rfl, hc, hp⟩
    · rename_i hne
      rw [if_neg hne]
      exact h.2 r hr hid

theorem releaseRecv (p : Proc) (k : Nat) : Quiet p (p.releaseRecv k) where
  sends := (refl p).sends
  recvs r' hr' := by
    obtain ⟨r, hr, rfl | rfl⟩ := mem_release hr'
    · exact .inr ⟨_, hr, rfl, rfl, rfl, rfl⟩
    · exact .inr ⟨r, hr, rfl, rfl, rfl, rfl⟩
  received _ h := h
  done _ h := h

theorem sweep (p : Proc) : Quiet p p.sweep where
  sends r hr := .inr ⟨r, (mem_filter.mp hr).1, rfl, rfl, rfl, rfl, fun h => h⟩
  recvs r hr := .inr ⟨r, (mem_filter.mp hr).1, rfl, rfl, rfl, rfl⟩
  received _ h := h
  done _ h := ⟨h.1, fun r hr => h.2 r (mem_filter.mp hr).1⟩

end Quiet

end Proc

section

variable {m : ProcMaps} {ids : Int → List Nat} {sends : List SendRec}

variable {id : Nat} {j : Int} {r : SendRec}

theorem mem_clear (h : id ∈ r.clear m ids j) : id ∈ ids j := by
  unfold SendRec.clear at h
  split at h
  · exact mem_of_mem_erase h
  · exact h

theorem eq_of_not_mem_clear (h : id ∈ ids j) (hnot : id ∉ r.clear m ids j) : r.id = id := by
  unfold SendRec.clear at hnot
  split at hnot
  · by_contra hne
    exact hnot ((mem_erase_of_ne fun heq => hne heq.symm).mpr h)
  · exact absurd h hnot

theorem reported_of_clear {r r' : SendRec} (h : r'.reported m (r.clear m ids)) : r'.reported m ids :=
  ⟨h.1, mem_clear h.2.1, h.2.2.imp_right mem_clear⟩

theorem markSends_ids (sends : List SendRec) (ids : Int → List Nat) :
    (markSends m sends ids).1.map (·.id) = sends.map (·.id) := by
  induction sends generalizing ids with
  | nil => rfl
  | cons r rs ih =>
    unfold markSends
    split <;> simp only [map_cons, ih, SendRec.marked]

theorem mem_markSends {r' : SendRec} (h : r' ∈ (markSends m sends ids).1) :
    ∃ r ∈ sends, r' = r ∨ r' = r.marked ∧ r.reported m ids := by
  induction sends generalizing ids with
  | nil => exact absurd h not_mem_nil
  | cons r rs ih =>
    unfold markSends at h
    split at h
    · rename_i hrep
      rcases mem_cons.mp h with rfl | hmem
      · exact ⟨r, mem_cons_self, .inr ⟨rfl, hrep⟩⟩
      · obtain ⟨r₀, hr₀, hor⟩ := ih hmem
        exact ⟨r₀, mem_cons_of_mem _ hr₀, hor.imp_right fun h => ⟨h.1, reported_of_clear h.2⟩⟩
    · rcases mem_cons.mp h with rfl | hmem
      · exact ⟨r', mem_cons_self, .inl rfl⟩
      · obtain ⟨r₀, hr₀, hor⟩ := ih hmem
        exact ⟨r₀, mem_cons_of_mem _ hr₀, hor⟩

theorem markSends_returned (h : id ∈ ids j) (hnot : id ∉ (markSends m sends ids).2 j) :
    ∃ r ∈ (markSends m sends ids).1, r.id = id ∧ r.deletable = true := by
  induction sends generalizing ids with
  | nil => exact absurd h hnot
  | cons r rs ih =>
    unfold markSends at hnot ⊢
    split
    · rename_i hrep
      rw [if_pos hrep] at hnot
      by_cases hkept : id ∈ r.clear m ids j
      · obtain ⟨r₀, hr₀, hrest⟩ := ih hkept hnot
        exact ⟨r₀, mem_cons_of_mem _ hr₀, hrest⟩
      · exact ⟨r.marked, mem_cons_self, eq_of_not_mem_clear h hkept, SendRec.deletable_iff.mpr ⟨hrep.1, rfl, rfl⟩⟩
    · rename_i hrep
      rw [if_neg hrep] at hnot
      obtain ⟨r₀, hr₀, hrest⟩ := ih h hnot
      exact ⟨r₀, mem_cons_of_mem _ hr₀, hrest⟩

end

namespace MsgWorld

variable {dest : Int → Nat → Int} {w w' : MsgWorld}

theorem mem_gcReport {q j : Int} {id : Nat} : id ∈ w.gcReport q j ↔
    ∃ r ∈ (w.procs j).recvs, r.released = true ∧ r.source = w.maps.logical q ∧ r.id = id := by
  simp only [gcReport, List.mem_map, mem_filter, decide_eq_true_eq, and_assoc]

/-- The marks speak the truth: a marked SEND record has arrived everywhere, and a marked RECV record is of
a message that the copy of the sender in the role the mark names is done with. -/
structure Collectable (w : MsgWorld) : Prop where
  maps : w.maps.Valid
  tidy : ∀ i ∈ w.maps.positions, (w.procs i).Tidy w.maps.nC
  net : ∀ msg ∈ w.net, 0 ≤ msg.source ∧ msg.source < w.maps.nC
  sends : ∀ q ∈ w.maps.positions, ∀ r ∈ (w.procs q).sends, r.markdelcmp = true ∨ r.markdelrep = true →
    r.deletable = true ∧ ∀ j ∈ w.maps.positions, w.maps.logical j = r.target →
      (w.maps.logical q, r.id) ∈ (w.procs j).received
  cmp : ∀ p ∈ w.maps.positions, ∀ r ∈ (w.procs p).recvs, r.markdelcmp = true → (w.procs r.source).Done r.id
  rep : ∀ p ∈ w.maps.positions, ∀ r ∈ (w.procs p).recvs, r.markdelrep = true →
    w.maps.ctr r.source ≠ -1 → (w.procs (w.maps.nC + w.maps.ctr r.source)).Done r.id

namespace Collectable

theorem start {m : ProcMaps} (hm : m.Valid) : (start m).Collectable where
  maps := hm
  tidy _ _ := .start
  net := by simp [MsgWorld.start]
  sends := by simp [MsgWorld.start]
  cmp := by simp [MsgWorld.start]
  rep := by simp [MsgWorld.start]

section

variable (h : w.Collectable)

include h

theorem quiet (hmaps : w'.maps = w.maps) (htidy : ∀ i ∈ w.maps.positions, (w'.procs i).Tidy w.maps.nC)
    (hnet : ∀ msg ∈ w'.net, 0 ≤ msg.source ∧ msg.source < w.maps.nC)
    (hq : ∀ i ∈ w.maps.positions, (w.procs i).Quiet (w'.procs i)) : w'.Collectable := by
  constructor
  case maps => exact hmaps ▸ h.maps
  case tidy => rwa [hmaps]
  case net => rwa [hmaps]
  case sends =>
    rw [hmaps]
    intro q hqm r' hr' hmark
    rcases (hq q hqm).sends r' hr' with ⟨hc, hp⟩ | ⟨r, hr, hid, htarget, hc, hp, hrel⟩
    · rw [hc, hp] at hmark
      simp at hmark
    · obtain ⟨hdel, hall⟩ := h.sends q hqm r hr (by rwa [hc, hp])
      obtain ⟨hreleased, hmc, hmp⟩ := SendRec.deletable_iff.mp hdel
      refine ⟨SendRec.deletable_iff.mpr ⟨hrel hreleased, hc ▸ hmc, hp ▸ hmp⟩, ?_⟩
      intro j hj hlog
      exact (hq j hj).received (hid ▸ hall j hj (hlog.trans htarget.symm))
  case cmp =>
    rw [hmaps]
    intro p hp r' hr' hmark
    rcases (hq p hp).recvs r' hr' with ⟨hc, _⟩ | ⟨r, hr, hid, hsource, hc, _⟩
    · rw [hc] at hmark
      cases hmark
    · obtain ⟨h0, hlt, _⟩ := (h.tidy p hp).source r hr
      have hdone := (hq r.source (h.maps.rank_mem h0 hlt)).done r.id (h.cmp p hp r hr (hc ▸ hmark))
      rwa [hid, hsource] at hdone
  case rep =>
    rw [hmaps]
    intro p hp r' hr' hmark hne
    rcases (hq p hp).recvs r' hr' with ⟨_, hc⟩ | ⟨r, hr, hid, hsource, _, hc⟩
    · rw [hc] at hmark
      cases hmark
    · obtain ⟨h0, hlt, _⟩ := (h.tidy p hp).source r hr
      rw [← hsource] at hne ⊢
      rw [← hid]
      exact (hq _ (h.maps.replica_mem h0 hlt hne).1).done r.id (h.rep p hp r hr (hc ▸ hmark) hne)

variable {i : Int}

theorem update {p : Proc} (htidy : (w.procs i).Tidy w.maps.nC → p.Tidy w.maps.nC)
    (hq : (w.procs i).Quiet p) : Collectable { w with procs := update w.procs i p } := by
  refine h.quiet rfl (fun j hj => ?_) h.net (fun j _ => ?_)
  · by_cases hji : j = i
    · subst hji
      simpa only [update_self] using htidy (h.tidy j hj)
    · simpa only [update_of_ne hji] using h.tidy j hj
  · by_cases hji : j = i
    · subst hji
      simpa only [update_self] using hq
    · simpa only [update_of_ne hji] using Proc.Quiet.refl _

theorem sweep : w.sweep.Collectable :=
  h.quiet rfl (fun i hi => (h.tidy i hi).sublist filter_sublist filter_sublist) h.net fun i _ => .sweep (w.procs i)

theorem restore : w.restore.Collectable := by
  refine h.quiet rfl (fun i hi => ?_) ?_ (fun i _ => ?_)
  · obtain ⟨h1, h2, h3, h4⟩ := h.tidy i hi
    exact ⟨h1, h2, h3, h4⟩
  · intro msg hmsg
    rcases mem_append.mp hmsg with hmsg | hmsg
    · exact h.net msg hmsg
    · obtain ⟨q, hq, hmem⟩ := mem_flatMap.mp hmsg
      have hsource := (mem_resends.mp hmem).1
      exact hsource ▸ h.maps.logical_range hq
  · obtain ⟨h1, h2, h3, h4⟩ := Proc.Quiet.refl (w.procs i)
    exact ⟨h1, h2, h3, h4⟩

theorem isend (hs : w.isend dest i = some w') : w'.Collectable := by
  obtain ⟨hi, hmaps, hnet, hself, hother⟩ := isend_cases hs
  refine h.quiet hmaps (fun j hj => ?_) ?_ (fun j _ => ?_)
  · by_cases hji : j = i
    · rw [hji, hself]
      exact (h.tidy i hi).issue _
    · rw [hother j hji]
      exact h.tidy j hj
  · rw [hnet]
    intro msg hmsg
    rcases mem_append.mp hmsg with hmsg | hmsg
    · exact h.net msg hmsg
    · have hsource := (mem_outgoing.mp hmsg).1
      exact hsource ▸ h.maps.logical_range hi
  · by_cases hji : j = i
    · rw [hji, hself]
      exact .issue _ _
    · rw [hother j hji]
      exact .refl _

theorem receive {k : Nat} (hs : w.receive k = some w') : w'.Collectable := by
  obtain ⟨msg, hmsg, hmaps, hnet, hself, hother⟩ := receive_cases hs
  obtain ⟨h0, hlt⟩ := h.net msg (mem_of_getElem? hmsg)
  refine h.quiet hmaps (fun j hj => ?_) ?_ (fun j _ => ?_)
  · by_cases hji : j = msg.dst
    · rw [hji, hself]
      exact (h.tidy msg.dst (hji ▸ hj)).accept h0 hlt _
    · rw [hother j hji]
      exact h.tidy j hj
  · rw [hnet]
    exact fun msg' hmsg' => h.net msg' (mem_of_mem_eraseIdx hmsg')
  · by_cases hji : j = msg.dst
    · rw [hji, hself]
      exact .accept _ _ _
    · rw [hother j hji]
      exact .refl _

end

section

variable {qs ps : List Int}

theorem handleRemRecv_done {i : Int} {id : Nat} (hd : (w.procs i).Done id) :
    ((w.handleRemRecv qs ps).procs i).Done id := by
  refine ⟨hd.1, fun r' hr' hid => ?_⟩
  simp only [handleRemRecv] at hr'
  split at hr'
  · obtain ⟨r, hr, rfl | ⟨rfl, hrep⟩⟩ := mem_markSends hr'
    · exact hd.2 _ hr hid
    · exact SendRec.deletable_iff.mpr ⟨hrep.1, rfl, rfl⟩
  · exact hd.2 r' hr' hid

theorem done_of_returned (h : w.Collectable) {q p : Int} (hq : q ∈ w.maps.positions) (hqs : q ∈ qs)
    {r : RecvRec} (hr : r ∈ (w.procs p).recvs) (hrel : r.released = true)
    (hsource : r.source = w.maps.logical q) (hnot : r.id ∉ w.returned q p) :
    ((w.handleRemRecv qs ps).procs q).Done r.id := by
  have hin : r.id ∈ w.gcReport q p := mem_gcReport.mpr ⟨r, hr, hrel, hsource, rfl⟩
  obtain ⟨r₀, hr₀, hid, hdel⟩ := markSends_returned hin hnot
  have hids := markSends_ids (m := w.maps) (w.procs q).sends (w.gcReport q)
  have hnodup : ((markSends w.maps (w.procs q).sends (w.gcReport q)).1.map (·.id)).Nodup := by
    rw [hids]
    exact (h.tidy q hq).ids
  constructor
  · have hmem : r.id ∈ (w.procs q).sends.map (·.id) := by
      rw [← hids, ← hid]
      exact mem_map_of_mem hr₀
    obtain ⟨r₁, hr₁, heq⟩ := mem_map.mp hmem
    exact heq ▸ (h.tidy q hq).fresh r₁ hr₁
  · intro r' hr' hid'
    simp only [handleRemRecv, if_pos hqs] at hr'
    rw [inj_on_of_nodup_map hnodup hr' hr₀ (hid'.trans hid.symm)]
    exact hdel

theorem mem_remarked {p : Int} {r' : RecvRec} (hr' : r' ∈ ((w.handleRemRecv qs ps).procs p).recvs) :
    ∃ r ∈ (w.procs p).recvs, r'.id = r.id ∧ r'.source = r.source ∧ (r'.markdelcmp = true → r.markdelcmp = true ∨
        p ∈ ps ∧ r.released = true ∧ r.id ∉ w.returned r.source p) ∧
      (r'.markdelrep = true → r.markdelrep = true ∨ p ∈ ps ∧ r.released = true ∧
        (w.maps.ctr r.source = -1 ∨ r.id ∉ w.returned (w.maps.nC + w.maps.ctr r.source) p)) := by
  simp only [handleRemRecv] at hr'
  split at hr'
  · rename_i hp
    obtain ⟨r, hr, rfl⟩ := mem_map.mp hr'
    refine ⟨r, hr, ?_⟩
    unfold RecvRec.remark
    split
    · rename_i hrel
      refine ⟨rfl, rfl, fun hmark => ?_, fun hmark => ?_⟩
      · exact (Bool.or_eq_true_iff.mp hmark).imp_right fun h => ⟨hp, hrel, of_decide_eq_true h⟩
      · exact (Bool.or_eq_true_iff.mp hmark).imp_right fun h => ⟨hp, hrel, of_decide_eq_true h⟩
    · exact ⟨rfl, rfl, .inl, .inl⟩
  · exact ⟨r', hr', rfl, rfl, .inl, .inl⟩

theorem handleRemRecv (h : w.Collectable) (hwhole : ps = [] ∨ ∀ i ∈ w.maps.positions, i ∈ qs) :
    (w.handleRemRecv qs ps).Collectable := by
  have hqs : ∀ {p q : Int}, p ∈ ps → q ∈ w.maps.positions → q ∈ qs := by
    intro p q hp hq
    rcases hwhole with hnil | hall
    · exact absurd hp (hnil ▸ not_mem_nil)
    · exact hall q hq
  constructor
  case maps => exact h.maps
  case tidy =>
    intro i hi
    have hids : (if i ∈ qs then (markSends w.maps (w.procs i).sends (w.gcReport i)).1
        else (w.procs i).sends).map (·.id) = (w.procs i).sends.map (·.id) := by
      split
      · exact markSends_ids _ _
      · rfl
    by_cases hp : i ∈ ps
    · simp only [MsgWorld.handleRemRecv, if_pos hp]
      exact (h.tidy i hi).remark _ _ hids
    · simp only [MsgWorld.handleRemRecv, if_neg hp]
      exact (h.tidy i hi).rewrite hids fun r hr => ⟨r, hr, rfl, rfl, fun h => h, .inl⟩
  case net => exact h.net
  case sends =>
    intro q hq r' hr' hmark
    simp only [MsgWorld.handleRemRecv] at hr'
    split at hr'
    · obtain ⟨r, hr, rfl | ⟨rfl, hrep⟩⟩ := mem_markSends hr'
      · exact h.sends q hq _ hr hmark
      · refine ⟨SendRec.deletable_iff.mpr ⟨hrep.1, rfl, rfl⟩, ?_⟩
        intro j hj hlog
        -- Each copy of the target has reported the id, so it has a record of it.
        have hin : r.id ∈ w.gcReport q j := by
          obtain ⟨h0, hlt⟩ := h.maps.logical_range hj
          rcases (h.maps.logical_eq_iff hj h0 hlt).mp rfl with heq | ⟨hne, heq⟩
          · rw [heq, show w.maps.logical j = r.target from hlog]
            exact hrep.2.1
          · rw [show w.maps.logical j = r.target from hlog] at hne heq
            rw [heq]
            exact hrep.2.2.resolve_left hne
        obtain ⟨rr, hrr, _, hsource, hid⟩ := mem_gcReport.mp hin
        have hrec := ((h.tidy j hj).source rr hrr).2.2
        rw [hsource, hid] at hrec
        exact hrec
    · exact h.sends q hq r' hr' hmark
  case cmp =>
    intro p hp r' hr' hmark
    obtain ⟨r, hr, hid, hsource, hcmp, _⟩ := mem_remarked hr'
    rw [hid, hsource]
    rcases hcmp hmark with hold | ⟨hps, hrel, hnot⟩
    · exact handleRemRecv_done (h.cmp p hp r hr hold)
    · obtain ⟨h0, hlt, _⟩ := (h.tidy p hp).source r hr
      have hq := h.maps.rank_mem h0 hlt
      exact h.done_of_returned hq (hqs hps hq) hr hrel (ProcMaps.logical_of_lt hlt).symm hnot
  case rep =>
    intro p hp r' hr' hmark hne
    obtain ⟨r, hr, hid, hsource, _, hrep⟩ := mem_remarked hr'
    rw [hsource] at hne ⊢
    rw [hid]
    rcases hrep hmark with hold | ⟨hps, hrel, hnot⟩
    · exact handleRemRecv_done (h.rep p hp r hr hold hne)
    · obtain ⟨h0, hlt, _⟩ := (h.tidy p hp).source r hr
      have hq := (h.maps.replica_mem h0 hlt hne).1
      exact h.done_of_returned hq (hqs hps hq) hr hrel (h.maps.logical_replica h0 hlt hne).symm (hnot.resolve_left hne)

end

variable (h : w.Collectable)

include h

theorem markAll : w.markAll.Collectable := h.handleRemRecv (.inr fun _ hi => hi)

theorem collect : w.collect.Collectable := h.markAll.sweep

theorem realign {m' : ProcMaps} (hv : m'.Valid) (hnC : m'.nC = w.maps.nC) : (w.recopy m').realign.Collectable := by
  have hc := carried_logical h.maps hv hnC
  -- The marks of a record, before the two were made equal.
  have hfrom : ∀ p ∈ m'.positions, ∀ r' ∈ ((w.recopy m').realign.procs p).recvs,
      ∃ r ∈ (w.procs (m'.logical p)).recvs, r'.id = r.id ∧ r'.source = r.source ∧
        (r'.markdelcmp = true ∨ r'.markdelrep = true → r.markdelcmp = true) := by
    intro p hp r' hr'
    obtain ⟨r, hr, rfl⟩ := mem_map.mp hr'
    refine ⟨r, hr, ?_⟩
    unfold RecvRec.realign
    split
    · exact ⟨rfl, rfl, fun hor => hor.elim id id⟩
    · rename_i hrel
      exact ⟨rfl, rfl, fun hor => absurd ((h.tidy _ (hc.mem p hp)).released r hr hor) hrel⟩
  constructor
  case maps => exact hv
  case tidy =>
    intro i hi
    have ht := (h.tidy _ (hc.mem i hi)).realign
    rw [← hnC] at ht
    exact ht
  case net => simp [MsgWorld.realign, recopy, moved]
  case sends =>
    intro q hq r hr hmark
    obtain ⟨hdel, hall⟩ := h.sends _ (hc.mem q hq) r hr hmark
    rw [hc.logical q hq] at hall
    refine ⟨hdel, fun j hj hlog => ?_⟩
    exact hall _ (hc.mem j hj) ((hc.logical j hj).trans hlog)
  case cmp =>
    intro p hp r' hr' hmark
    obtain ⟨r, hr, hid, hsource, hold⟩ := hfrom p hp r' hr'
    obtain ⟨h0, hlt, _⟩ := (h.tidy _ (hc.mem p hp)).source r hr
    have hdone := h.cmp _ (hc.mem p hp) r hr (hold (.inl hmark))
    rw [hid, hsource]
    simp only [MsgWorld.realign, recopy, moved, ProcMaps.logical_of_lt (hnC ▸ hlt : r.source < m'.nC)]
    exact ⟨hdone.1, hdone.2⟩
  case rep =>
    intro p hp r' hr' hmark hne
    obtain ⟨r, hr, hid, hsource, hold⟩ := hfrom p hp r' hr'
    obtain ⟨h0, hlt, _⟩ := (h.tidy _ (hc.mem p hp)).source r hr
    have hdone := h.cmp _ (hc.mem p hp) r hr (hold (.inr hmark))
    rw [hsource] at hne ⊢
    rw [hid]
    simp only [MsgWorld.realign, recopy, moved] at hne ⊢
    rw [hv.logical_replica h0 (hnC ▸ hlt) hne]
    exact ⟨hdone.1, hdone.2⟩

theorem shrink {failed : List Int} (hg : w.PromotesDone (.fail failed))
    (hs : w.shrink failed = some w') : w'.Collectable := by
  obtain ⟨ranks, hsurv, hren, heq⟩ := shrink_spec hs h.maps
  generalize hm' : w'.maps = m' at heq hren
  subst heq
  have hc := hren.carried hsurv
  constructor
  case maps => exact hc.valid
  case tidy =>
    intro i hi
    have ht := h.tidy _ (hc.mem i hi)
    rw [← hc.nC] at ht
    exact ht
  case net => simp [moved]
  case sends =>
    intro q hq r hr hmark
    obtain ⟨hdel, hall⟩ := h.sends _ (hc.mem q hq) r hr hmark
    rw [hc.logical q hq] at hall
    refine ⟨hdel, fun j hj hlog => ?_⟩
    exact hall _ (hc.mem j hj) ((hc.logical j hj).trans hlog)
  case cmp =>
    intro p hp r hr hmark
    obtain ⟨h0, hlt, _⟩ := (h.tidy _ (hc.mem p hp)).source r hr
    simp only [moved, hren.ranks_compute hsurv h0 hlt, getD_some]
    split
    · rename_i hfail
      exact hg _ hfail hlt _ (hc.mem p hp) (hren.survives hsurv hp).1 r hr rfl hmark
    · exact h.cmp _ (hc.mem p hp) r hr hmark
  case rep =>
    intro p hp r hr hmark hne
    obtain ⟨h0, hlt, _⟩ := (h.tidy _ (hc.mem p hp)).source r hr
    have hlt' : r.source < m'.nC := by rw [hc.nC]; exact hlt
    -- The replica of the source is the one it had before.
    obtain ⟨hpos, hge⟩ := hc.valid.replica_mem h0 hlt' hne
    have hlog := (hc.logical _ hpos).trans (hc.valid.logical_replica h0 hlt' hne)
    have hold := (hren.survives hsurv hpos).2 (hc.nC ▸ hge)
    obtain ⟨hne', heq⟩ := ((h.maps.logical_eq_iff (hc.mem _ hpos) h0 hlt).mp hlog).resolve_left (by omega)
    have hdone := h.rep _ (hc.mem p hp) r hr hmark hne'
    rw [← heq] at hdone
    exact hdone

theorem collectsSafely : w.CollectsSafely where
  sends q hq r hr hdel := (h.markAll.sends q hq r hr (.inl (SendRec.deletable_iff.mp hdel).2.1)).2
  recvs p hp r hr hdel q hq hlog := by
    obtain ⟨_, hcmp, hrep⟩ := RecvRec.deletable_iff.mp hdel
    obtain ⟨h0, hlt, _⟩ := (h.markAll.tidy p hp).source r hr
    have hdone : (w.markAll.procs q).Done r.id := by
      rcases (h.maps.logical_eq_iff hq h0 hlt).mp hlog with heq | ⟨hne, heq⟩
      · rw [heq]
        exact h.markAll.cmp p hp r hr hcmp
      · rw [heq]
        exact h.markAll.rep p hp r hr hrep hne
    refine ⟨fun r' hr' hid => ?_, hdone.1⟩
    obtain ⟨hmem, hkept⟩ := mem_filter.mp hr'
    rw [hdone.2 r' hmem hid] at hkept
    cases hkept

theorem step {e : GcEvent} (hmaps : w.GcInverseMaps e) (hg : w.PromotesDone e)
    (hs : w.gcStep dest e = some w') : w'.Collectable := by
  cases e with
  | isend i => exact h.isend hs
  | receive k => exact h.receive hs
  | releaseSend i id =>
    rw [← some.inj hs]
    exact h.update (fun ht => ht.releaseSend id) (.releaseSend _ id)
  | releaseRecv i k =>
    rw [← some.inj hs]
    exact h.update (fun ht => ht.releaseRecv k) (.releaseRecv _ k)
  | fail failed =>
    obtain ⟨u, hu, rfl⟩ := map_eq_some_iff.mp hs
    exact (h.shrink hg hu).restore
  | rearrange maps =>
    rw [← some.inj hs]
    exact (h.realign hmaps.1 hmaps.2.1).sweep.collect.restore
  | interrupted qs ps =>
    simp only [gcStep] at hs
    split at hs
    · rename_i hwhole
      rw [← some.inj hs]
      exact h.handleRemRecv hwhole
    · cases hs
  | collect =>
    rw [← some.inj hs]
    exact h.collect

end Collectable

instance (w : MsgWorld) : ∀ e, Decidable (w.PromotesDone e)
  | .fail failed => inferInstanceAs (Decidable (∀ s ∈ failed, s < w.maps.nC →
      ∀ p ∈ w.maps.positions, p ∉ failed → ∀ r ∈ (w.procs p).recvs, _))
  | .isend _ | .receive _ | .releaseSend _ _ | .releaseRecv _ _ | .rearrange _ | .interrupted _ _
  | .collect => instDecidableTrue

/-- In a run in which every promoted replica is done with the messages marked on account of the compute
process it replaces, no round deletes a record that a later recovery could need. -/
theorem collection_safe {m : ProcMaps} (hm : m.Valid) (es : List GcEvent)
    (hmaps : Guarded (gcStep dest) GcInverseMaps (start m) es)
    (hguard : Guarded (gcStep dest) PromotesDone (start m) es)
    (hrun : runEvents (gcStep dest) (start m) es = some w) : w.CollectsSafely := by
  have hinv : w.Collectable := (hmaps.and hguard).invariant hrun (.start hm) fun hu hg => hu.step hg.1 hg.2
  exact hinv.collectsSafely

/-- Both copies of the first rank have sent and are done when the compute process fails. -/
theorem collection_safe_in_step : ∃ w, runEvents (gcStep fun _ _ => 1) (start (.initial 2 1))
        [.isend 0, .receive 0, .isend 2, .releaseSend 0 firstSendid, .releaseSend 2 firstSendid,
          .releaseRecv 1 0, .collect, .fail [0], .isend 0, .receive 0, .releaseRecv 1 0] = some w ∧
      w.CollectsSafely := by
  refine exists_run_imp (P := fun _ => True) (by decide +kernel) fun w hw _ => ?_
  refine collection_safe (ProcMaps.initial_valid (by decide)) _ ?_ ?_ hw
  · exact guarded_of_forall (by simp [GcInverseMaps])
  · decide +kernel

/-- The compute process has sent and is done, its replica has not sent yet. The compute process fails; the
next round deletes the RECV record although the replica in its place is still to send the message. -/
theorem collected_before_promoted_sends : ∃ w, runEvents (gcStep fun _ _ => 1) (start (.initial 2 1))
        [.isend 0, .receive 0, .releaseSend 0 firstSendid, .releaseRecv 1 0, .collect, .fail [0]] = some w ∧
      ¬ w.CollectsSafely := by
  refine exists_run_imp (P := fun w => 0 ∈ w.maps.positions ∧ 1 ∈ w.maps.positions ∧ w.maps.logical 0 = 0 ∧
      ({ id := firstSendid, source := 0, released := true, markdelcmp := true, markdelrep := true } : RecvRec) ∈
        (w.markAll.procs 1).recvs ∧ (w.collect.procs 0).sendid = firstSendid) (by decide +kernel) ?_
  intro w _ hfacts h
  obtain ⟨h0, h1, hlog, hmem, hsend⟩ := hfacts
  have hlt := (h.recvs 1 h1 _ hmem rfl 0 h0 hlog).2
  rw [hsend] at hlt
  exact lt_irrefl _ hlt

end MsgWorld

end ParepMpi
