import ParepMpi.Collective.Retry

/-!
# Who issues a lost collective again

A collective that some process of a communicator has not completed must be issued again by all members that logged it.
The retry goes back to the least of the newest completed ids, which is far enough if collectives complete in the order
of their calls and every process has completed one.
-/

namespace ParepMpi

open Option CArray List ProcMaps CollRecord

/-- The process has yet to call the collective `k`, or has a record of it that is not completed. -/
def CollProc.Incomplete (p : CollProc) (k : Int) : Prop :=
  p.called ≤ k ∨ ∃ r ∈ p.log, r.id = k ∧ r.completed = false

/-- Every process of the group has completed something, and one has completed nothing from `k` on. -/
def SideReissues (group : List CollProc) (k : Int) : Prop :=
  (∀ p ∈ group, ∃ r ∈ p.log, r.completed = true) ∧ ∃ p ∈ group, ∀ r ∈ p.log, r.completed = true → r.id < k

/-- A group goes back to all it has not completed: when a process has nothing completed in its log the
group has nothing incomplete, and no record is pending behind one that every process has completed. -/
structure SideSafe (selected : CollRecord → Prop) (group : List CollProc) : Prop where
  none_completed : (∃ p ∈ group, ∀ r ∈ p.log, r.completed = false) →
    ∀ p ∈ group, ∀ r ∈ p.log, selected r → ∀ q ∈ group, ¬ q.Incomplete r.id
  in_order : ∀ p ∈ group, ∀ r ∈ p.log, selected r → r.completed = false →
    ∃ q ∈ group, ∀ s ∈ q.log, s.completed = true → s.id < r.id

section Sides

variable {group : List CollProc}

theorem reissue_newestByAll_iff (hne : group ≠ []) (hwf : ∀ p ∈ group, p.WellFormed) {k : Int} (hk : 0 ≤ k) :
    reissue (newestByAll completed group) k = true ↔ SideReissues group k := by
  have hzero : newestByAll completed group ≥ 0 ↔ ∀ p ∈ group, ∃ r ∈ p.log, r.completed = true := by
    rw [ge_iff_le, le_newestByAll_iff hne hwf (le_refl 0)]
    refine forall₂_congr fun p hp => exists_congr fun r => and_congr_right fun hr => ?_
    exact and_iff_left ((hwf p hp).id_nonneg r hr)
  have hbelow : k > newestByAll completed group ↔ ∃ p ∈ group, ∀ r ∈ p.log, r.completed = true → r.id < k := by
    rw [gt_iff_lt, ← not_le, le_newestByAll_iff hne hwf hk]
    push Not
    rfl
  rw [reissue, Bool.and_eq_true, decide_eq_true_eq, decide_eq_true_eq, hzero, hbelow, SideReissues, and_comm]

theorem sideSafe_iff (group : List CollProc) (hwf : ∀ p ∈ group, p.WellFormed) (selected : CollRecord → Prop)
    (hsame : ∀ p ∈ group, ∀ r ∈ p.log, ∀ q ∈ group, ∀ s ∈ q.log, s.id = r.id → selected r → selected s) :
    (∀ p ∈ group, ∀ r ∈ p.log, selected r → ∀ q ∈ group, q.Incomplete r.id →
      SideReissues group r.id) ↔ SideSafe selected group := by
  constructor
  · intro h
    constructor
    · rintro ⟨e, he, hnone⟩ p hp r hr hsel q hq hinc
      obtain ⟨s, hs, hdone⟩ := (h p hp r hr hsel q hq hinc).1 e he
      rw [hnone s hs] at hdone
      cases hdone
    · intro p hp r hr hsel hpending
      exact (h p hp r hr hsel p hp (.inr ⟨r, hr, rfl, hpending⟩)).2
  · intro h p hp r hr hsel q hq hinc
    refine ⟨?_, ?_⟩
    · intro e he
      by_contra hnone
      push Not at hnone
      exact h.none_completed ⟨e, he, by simpa using hnone⟩ p hp r hr hsel q hq hinc
    · rcases hinc with hcalled | ⟨s, hs, hid, hpending⟩
      · refine ⟨q, hq, fun s hs hdone => ?_⟩
        have := (hwf q hq).completed_called s hs hdone
        omega
      · obtain ⟨e, he, hbelow⟩ := h.in_order q hq s hs (hsame p hp r hr q hq s hs hid hsel) hpending
        exact ⟨e, he, hid ▸ hbelow⟩

end Sides

/-! ### One record

What a process does with a record depends on its side, on the newest collectives that the two sides have completed
and, for a gather, on the replica of the root. -/

def CollRecord.Transfers (r : CollRecord) : Prop :=
  r.type = .bcast ∨ r.type = .scatter ∨ r.type = .gather ∨ r.type = .allgather ∨
    r.type = .alltoall ∨ r.type = .alltoallv

/-- The replicas take part in the collective: in a gather only when its root has a replica. -/
def CollRecord.Involves (m : ProcMaps) (r : CollRecord) : Prop :=
  r.type = .gather → m.ctr r.root ≠ -1

/-- The operations of a replica on its own side: among the replicas, or across from the root. -/
def EComm.repSide : EComm → Bool
  | .rep | .cmpRep => true
  | _ => false

/-- The process at rank `i` goes outside its arrays when it issues the record on the replica side. -/
def CollRecord.Oversteps (m : ProcMaps) (i : Int) (r : CollRecord) : Prop :=
  (r.type = .allgather ∨ r.type = .alltoall ∨ r.type = .alltoallv) ∧ 0 < m.nR ∧ m.nR < m.nC ∧
      (m.nC ≤ i ∨ m.ctr i = -1) ∨
    r.type = .gather ∧ i < m.nC ∧ m.ctr i = -1 ∧ m.ctr r.root ≠ -1 ∧ m.nC - m.nR < m.nR

section Record

variable {m : ProcMaps} {t : RetryIds} {i : Int} {r : CollRecord}

theorem fillCounts_eq (hm : m.MutuallyInverse) (hC : 0 ≤ m.nC) (hR : 0 ≤ m.nR) (n : Int) :
    fillCounts m n = if m.nR ≤ n then some () else none := by
  obtain ⟨j, hj, hcount⟩ : ∃ j, forRange 0 m.nC
      (fun c j => do if (← m.cmpToRepMap.read c) = -1 then some j else some (j + 1)) (0 : Int) =
        some j ∧ j = (((Finset.range m.nC.toNat).filter fun k : Nat => m.ctr k ≠ -1).card : Int) := by
    refine forRange_spec
      (P := fun c j => j = (((Finset.range c.toNat).filter fun k : Nat => m.ctr k ≠ -1).card : Int)) hC
      (by simp) ?_
    intro c j hc hlt hj
    have hself : ((c.toNat : Nat) : Int) = c := Int.toNat_of_nonneg hc
    rw [hm.ctr_holds c hc hlt, show (c + 1).toNat = c.toNat + 1 by omega, Finset.range_add_one,
      Finset.filter_insert, hself]
    by_cases hnone : m.ctr c = -1
    · exact ⟨j, by simp [hnone], by simp [hnone, hj]⟩
    · refine ⟨j + 1, by simp [hnone], ?_⟩
      rw [if_pos hnone, Finset.card_insert_of_notMem (by simp), hj]
      omega
  rw [hm.card_replicated] at hcount
  rw [fillCounts, hj, bind_eq_bind, bind_some, hcount, show ((m.nR.toNat : Nat) : Int) = m.nR by omega]

/-- What a compute process does with a record on its own side: one operation when the side goes back to
the record, and none otherwise. -/
def CmpEffect (t : RetryIds) (r : CollRecord) (e : ReplayEffect) : Prop :=
  e.ops.count .cmp = (if reissue t.cmpid r.id then 1 else 0) ∧ e.completecmp = !reissue t.cmpid r.id

def RepEffect (m : ProcMaps) (t : RetryIds) (r : CollRecord) (e : ReplayEffect) : Prop :=
  if reissue t.repid r.id then r.Involves m → e.ops.countP EComm.repSide = 1 else e.ops = []

theorem count_cmp_ops (own across : Bool) :
    ((if own then [EComm.cmp] else []) ++ (if across then [EComm.cmpRep] else [])).count .cmp =
      if own then 1 else 0 := by
  cases own <;> cases across <;> rfl

section

variable (hm : m.MutuallyInverse)

include hm

theorem replayFromRoot_compute (hlt : i < m.nC) (hroot : 0 ≤ r.root ∧ r.root < m.nC) :
    ∃ e, replayFromRoot m t i r = some e ∧ CmpEffect t r e := by
  have hrootread := hm.ctr_holds r.root hroot.1 hroot.2
  rw [replayFromRoot, hrootread, bind_eq_bind, bind_some, if_neg (by omega)]
  exact ⟨_, rfl, count_cmp_ops _ _, rfl⟩

theorem replayFromRoot_replica (hge : m.nC ≤ i) (hroot : 0 ≤ r.root ∧ r.root < m.nC) :
    ∃ e, replayFromRoot m t i r = some e ∧ RepEffect m t r e := by
  have hrootread := hm.ctr_holds r.root hroot.1 hroot.2
  rw [replayFromRoot, hrootread, bind_eq_bind, bind_some, if_pos hge]
  unfold RepEffect
  by_cases hre : reissue t.repid r.id = true
  · simp only [if_pos hre]
    refine ⟨_, rfl, fun _ => ?_⟩
    split <;> rfl
  · simp only [if_neg hre]
    exact ⟨_, rfl, rfl⟩

theorem replayGather_compute (hC : 0 ≤ m.nC) (hR : 0 ≤ m.nR)
    (h0 : 0 ≤ i) (hlt : i < m.nC) (hroot : 0 ≤ r.root ∧ r.root < m.nC)
    (hok : reissue t.repid r.id = true → m.ctr i = -1 → m.ctr r.root ≠ -1 → m.nR ≤ m.nC - m.nR) :
    ∃ e, replayGather m t i r = some e ∧ CmpEffect t r e := by
  have hrootread := hm.ctr_holds r.root hroot.1 hroot.2
  have hread := hm.ctr_holds i h0 hlt
  simp only [replayGather, hrootread, hread, bind_eq_bind, bind_some,
    if_neg (show ¬ m.nC ≤ i by omega), fillCounts_eq hm hC hR]
  by_cases hacross : (reissue t.repid r.id && m.ctr r.root != -1 && m.ctr i == -1) = true
  · have hfits : m.nR ≤ m.nC - m.nR := by
      simp only [Bool.and_eq_true, bne_iff_ne, beq_iff_eq] at hacross
      exact hok hacross.1.1 hacross.2 hacross.1.2
    rw [if_pos hacross, if_pos hfits, if_pos hacross]
    refine ⟨_, rfl, ?_, rfl⟩
    cases reissue t.cmpid r.id <;> rfl
  · rw [if_neg hacross, if_neg hacross]
    refine ⟨_, rfl, ?_, rfl⟩
    cases reissue t.cmpid r.id <;> rfl

theorem replayGather_replica (hge : m.nC ≤ i) (hroot : 0 ≤ r.root ∧ r.root < m.nC) (htype : r.type = .gather) :
    ∃ e, replayGather m t i r = some e ∧ RepEffect m t r e := by
  have hrootread := hm.ctr_holds r.root hroot.1 hroot.2
  rw [replayGather, hrootread, bind_eq_bind, bind_some, if_pos hge]
  unfold RepEffect
  by_cases hre : m.ctr r.root ≠ -1 ∧ reissue t.repid r.id = true
  · simp only [if_pos hre, if_pos hre.2]
    split <;> exact ⟨_, rfl, fun _ => rfl⟩
  · rw [if_neg hre]
    refine ⟨_, rfl, ?_⟩
    split
    · exact fun hinv => absurd ⟨hinv htype, ‹_›⟩ hre
    · rfl

theorem replayToAll_compute (h0 : 0 ≤ i) (hlt : i < m.nC) {n : Int}
    (hok : reissue t.repid r.id = true → 0 < m.nR → m.ctr i = -1 → n ≤ 0) :
    ∃ e, replayToAll m t i r n = some e ∧ CmpEffect t r e := by
  have hread := hm.ctr_holds i h0 hlt
  rw [replayToAll, if_neg (by omega)]
  by_cases hre : reissue t.repid r.id = true
  · simp only [if_pos hre, hread, bind_eq_bind, bind_some]
    by_cases hbetween : (decide (m.nR > 0) && m.ctr i == -1) = true
    · have hn : n ≤ 0 := by
        simp only [Bool.and_eq_true, decide_eq_true_eq, beq_iff_eq] at hbetween
        exact hok hre hbetween.1 hbetween.2
      simp only [if_pos hbetween, resetRequests, if_neg (show ¬ 0 < n by omega), bind_some, show n.toNat = 0 by omega]
      refine ⟨_, rfl, ?_, rfl⟩
      cases reissue t.cmpid r.id <;> rfl
    · simp only [if_neg hbetween]
      refine ⟨_, rfl, ?_, rfl⟩
      cases reissue t.cmpid r.id <;> rfl
  · rw [if_neg hre]
    refine ⟨_, rfl, ?_, rfl⟩
    cases reissue t.cmpid r.id <;> rfl

end

theorem replayToAll_replica (hge : m.nC ≤ i) {n : Int}
    (hok : reissue t.repid r.id = true → m.nC > m.nR ∧ m.nR > 0 → n ≤ 0) :
    ∃ e, replayToAll m t i r n = some e ∧ RepEffect m t r e := by
  rw [replayToAll, if_pos hge]
  unfold RepEffect
  by_cases hre : reissue t.repid r.id = true
  · simp only [if_pos hre]
    by_cases hpart : m.nC > m.nR ∧ m.nR > 0
    · have hn := hok hre hpart
      simp only [if_pos hpart, resetRequests, if_neg (show ¬ 0 < n by omega), bind_eq_bind,
        bind_some, show n.toNat = 0 by omega]
      exact ⟨_, rfl, fun _ => rfl⟩
    · simp only [if_neg hpart]
      exact ⟨_, rfl, fun _ => rfl⟩
  · simp only [if_neg hre]
    exact ⟨_, rfl, rfl⟩

theorem replayRecord_compute (tables : ReduceTables) (hm : m.MutuallyInverse) (hC : 0 ≤ m.nC) (hR : 0 ≤ m.nR)
    (h0 : 0 ≤ i) (hlt : i < m.nC) (hroot : 0 ≤ r.root ∧ r.root < m.nC) (htype : r.Transfers)
    (hok : reissue t.repid r.id = true → ¬ r.Oversteps m i) :
    ∃ e, replayRecord m tables t i r = some e ∧ CmpEffect t r e := by
  have hall : ∀ n, (r.type = .allgather ∨ r.type = .alltoall ∨ r.type = .alltoallv) →
      ∃ e, replayToAll m t i r n = some e ∧ CmpEffect t r e := fun n hto =>
    replayToAll_compute hm h0 hlt fun hre hpos hnone =>
      absurd (.inl ⟨hto, hpos, hm.nR_lt_nC h0 hlt hnone, .inr hnone⟩) (hok hre)
  unfold replayRecord
  rcases htype with h | h | h | h | h | h <;> simp only [h]
  · exact replayFromRoot_compute hm hlt hroot
  · exact replayFromRoot_compute hm hlt hroot
  · refine replayGather_compute hm hC hR h0 hlt hroot fun hre hnone hroot' => ?_
    by_contra hgt
    exact hok hre (.inr ⟨h, hlt, hnone, hroot', by omega⟩)
  · exact hall _ (.inl h)
  · exact hall _ (.inr (.inl h))
  · exact hall _ (.inr (.inr h))

theorem replayRecord_replica (tables : ReduceTables) (hm : m.MutuallyInverse) (hge : m.nC ≤ i)
    (hroot : 0 ≤ r.root ∧ r.root < m.nC) (htype : r.Transfers)
    (hok : reissue t.repid r.id = true → ¬ r.Oversteps m i) :
    ∃ e, replayRecord m tables t i r = some e ∧ RepEffect m t r e := by
  have hall : ∀ n, (r.type = .allgather ∨ r.type = .alltoall ∨ r.type = .alltoallv) →
      ∃ e, replayToAll m t i r n = some e ∧ RepEffect m t r e := fun n hto =>
    replayToAll_replica hge fun hre hpart =>
      absurd (.inl ⟨hto, hpart.2, hpart.1, .inl hge⟩) (hok hre)
  unfold replayRecord
  rcases htype with h | h | h | h | h | h <;> simp only [h]
  · exact replayFromRoot_replica hm hge hroot
  · exact replayFromRoot_replica hm hge hroot
  · exact replayGather_replica hm hge hroot h
  · exact hall _ (.inl h)
  · exact hall _ (.inr (.inl h))
  · exact hall _ (.inr (.inr h))

theorem replayRecord_oversteps (tables : ReduceTables) (hm : m.MutuallyInverse) (hC : 0 ≤ m.nC) (h0 : 0 ≤ i)
    (hroot : 0 ≤ r.root ∧ r.root < m.nC) (hre : reissue t.repid r.id = true)
    (hover : r.Oversteps m i) : replayRecord m tables t i r = none := by
  have hrootread := hm.ctr_holds r.root hroot.1 hroot.2
  rcases hover with ⟨hto, hpos, hpart, hwho⟩ | ⟨htype, hlt, hnone, hrootrep, hfits⟩
  · have hall : ∀ n, 0 < n → replayToAll m t i r n = none := by
      intro n hn
      rw [replayToAll]
      by_cases hge : m.nC ≤ i
      · rw [if_pos hge, if_pos hre, if_pos ⟨hpart, hpos⟩, resetRequests, if_pos hn]
        rfl
      · have hnone := hwho.resolve_left hge
        rw [if_neg hge, if_pos hre, hm.ctr_holds i h0 (by omega), bind_eq_bind,
          bind_some, hnone, if_pos (by simp [hpos]), resetRequests, if_pos hn]
        rfl
    unfold replayRecord
    rcases hto with h | h | h <;> simp only [h]
    · exact hall _ hpos
    · exact hall _ (by omega)
    · exact hall _ (by omega)
  · unfold replayRecord
    simp only [htype, replayGather, hrootread, hm.ctr_holds i h0 hlt, bind_eq_bind,
      bind_some, if_neg (show ¬ m.nC ≤ i by omega), fillCounts_eq hm hC (by omega : 0 ≤ m.nR)]
    have hacross : (reissue t.repid r.id && m.ctr r.root != -1 && m.ctr i == -1) = true := by
      simp [hre, hrootrep, hnone]
    rw [if_pos hacross, if_neg (by omega)]
    rfl

end Record

section Records

variable {m : ProcMaps} {tables : ReduceTables} {t : RetryIds} {i : Int}

variable {rs : List CollRecord}

theorem replayRecords_spec {Q : CollRecord → ReplayEffect → Prop}
    (h : ∀ r ∈ rs, ∃ e, replayRecord m tables t i r = some e ∧ Q r e) :
    ∃ effs, replayRecords m tables t i rs = some effs ∧ effs.map Prod.fst = rs ∧ ∀ x ∈ effs, Q x.1 x.2 := by
  induction rs with
  | nil => exact ⟨[], rfl, rfl, by simp⟩
  | cons r rs ih =>
    obtain ⟨e, he, hQ⟩ := h r (by simp)
    obtain ⟨effs, heffs, hfst, hall⟩ := ih fun s hs => h s (mem_cons_of_mem _ hs)
    refine ⟨(r, e) :: effs, ?_, by simp [hfst], ?_⟩
    · simp only [replayRecords, he, heffs, bind_eq_bind, bind_some]
    · intro x hx
      rcases mem_cons.mp hx with rfl | hx
      · exact hQ
      · exact hall x hx

theorem replayRecords_none {r : CollRecord} (hr : r ∈ rs)
    (hnone : replayRecord m tables t i r = none) : replayRecords m tables t i rs = none := by
  induction rs with
  | nil => simp at hr
  | cons s rs ih =>
    rcases mem_cons.mp hr with rfl | hr
    · simp only [replayRecords, hnone, bind_eq_bind, bind_none]
    · simp only [replayRecords, ih hr, bind_eq_bind, bind_none]
      cases replayRecord m tables t i s <;> rfl

end Records

def opsFor (effs : List (CollRecord × ReplayEffect)) (k : Int) : List EComm :=
  (effs.filter fun x => x.1.id == k).flatMap fun x => x.2.ops

theorem opsFor_eq {effs : List (CollRecord × ReplayEffect)}
    (hdistinct : (effs.map fun x => x.1.id).Nodup) {x : CollRecord × ReplayEffect}
    (hx : x ∈ effs) : opsFor effs x.1.id = x.2.ops := by
  have hfilter : effs.filter (fun y => y.1.id == x.1.id) = [x] := by
    induction effs with
    | nil => simp at hx
    | cons y effs ih =>
      rw [map_cons, nodup_cons] at hdistinct
      rcases mem_cons.mp hx with rfl | hx
      · have hrest : effs.filter (fun y => y.1.id == x.1.id) = [] := by
          rw [filter_eq_nil_iff]
          intro z hz hid
          exact hdistinct.1 (mem_map.mpr ⟨z, hz, by simpa using hid⟩)
        rw [filter_cons_of_pos (by simp), hrest]
      · have hne : ¬ (y.1.id == x.1.id) = true := fun hid =>
          hdistinct.1 (mem_map.mpr ⟨x, hx, by simpa using (eq_comm.mp (beq_iff_eq.mp hid))⟩)
        rw [filter_cons, if_neg hne]
        exact ih hdistinct.2 hx
  rw [opsFor, hfilter]
  simp

theorem mem_takeWhile_newer {log : List CollRecord}
    (hsorted : log.Pairwise (fun r s => s.id < r.id)) {minid : Int} {r : CollRecord} :
    r ∈ log.takeWhile (fun r => decide (minid < r.id)) ↔ r ∈ log ∧ minid < r.id := by
  induction log with
  | nil => simp
  | cons s log ih =>
    obtain ⟨hnewer, holder⟩ := pairwise_cons.mp hsorted
    by_cases hs : minid < s.id
    · rw [takeWhile_cons_of_pos (by simpa using hs), mem_cons, mem_cons, ih holder]
      constructor
      · rintro (rfl | ⟨hr, hlt⟩)
        · exact ⟨.inl rfl, hs⟩
        · exact ⟨.inr hr, hlt⟩
      · rintro ⟨rfl | hr, hlt⟩
        · exact .inl rfl
        · exact .inr ⟨hr, hlt⟩
    · rw [takeWhile_cons_of_neg (by simpa using hs)]
      refine iff_of_false (by simp) ?_
      rintro ⟨hr, hlt⟩
      rcases mem_cons.mp hr with rfl | hr
      · exact hs hlt
      · have := hnewer r hr
        omega

namespace CollWorld

/-- The logs of live processes: ordered, of one common sequence of calls, with roots that exist. -/
structure WellFormed (w : CollWorld) : Prop where
  inverse : w.maps.MutuallyInverse
  nC_pos : 1 ≤ w.maps.nC
  nR_nonneg : 0 ≤ w.maps.nR
  length : (w.procs.length : Int) = w.maps.nC + w.maps.nR
  procs : ∀ p ∈ w.procs, p.WellFormed
  root : ∀ p ∈ w.procs, ∀ r ∈ p.log, 0 ≤ r.root ∧ r.root < w.maps.nC
  common : ∀ p ∈ w.procs, ∀ r ∈ p.log, ∀ q ∈ w.procs, ∀ s ∈ q.log, s.id = r.id →
    r.Transfers → s.type = r.type ∧ s.root = r.root

/-- What the process at rank `i` must have done: one operation on its side for each collective that its
side has not completed, and no record flagged as completed that was not and has not been issued. -/
structure ReissuesAt (w : CollWorld) (i : Int) (p : CollProc)
    (effs : List (CollRecord × ReplayEffect)) : Prop where
  cmp : i < w.maps.nC → ∀ r ∈ p.log, r.Transfers → (∃ q ∈ w.computes, q.Incomplete r.id) →
    (opsFor effs r.id).count .cmp = 1
  rep : w.maps.nC ≤ i → ∀ r ∈ p.log, r.Transfers → r.Involves w.maps →
    (∃ q ∈ w.replicas, q.Incomplete r.id) → (opsFor effs r.id).countP EComm.repSide = 1
  flags : ∀ x ∈ effs, x.1.Transfers → x.2.completecmp = true → x.2.completerep = true →
    x.1.completed = true ∨ x.2.ops ≠ [] ∨ w.maps.nC ≤ i ∧ ¬ x.1.Involves w.maps

def Reissues (w : CollWorld) : Prop :=
  ∀ i p, CArray.read w.procs i = some p → ∃ effs, w.retry i = some effs ∧ w.ReissuesAt i p effs

/-- No process has to overstep its arrays for a record that the replicas go back to. -/
def StaysInside (w : CollWorld) : Prop :=
  ∀ i p, CArray.read w.procs i = some p → ∀ r ∈ p.log, SideReissues w.replicas r.id → ¬ r.Oversteps w.maps i

section World

variable {w : CollWorld} {i : Int} {p : CollProc} {k : Int}

theorem WellFormed.computes_ne_nil (hw : w.WellFormed) : w.computes ≠ [] := by
  have hC := hw.nC_pos
  have hR := hw.nR_nonneg
  have hlen := hw.length
  intro hnil
  have := congrArg List.length hnil
  rw [computes, length_take, length_nil] at this
  omega

theorem reissue_cmpid_iff (hw : w.WellFormed) (hk : 0 ≤ k) :
    reissue w.retryIds.cmpid k = true ↔ SideReissues w.computes k :=
  reissue_newestByAll_iff hw.computes_ne_nil (fun p hp => hw.procs p (mem_of_mem_take hp)) hk

theorem reissue_repid_iff (hw : w.WellFormed) (hk : 0 ≤ k) :
    reissue w.retryIds.repid k = true ↔ SideReissues w.replicas k := by
  have hC := hw.nC_pos
  have hlen := hw.length
  by_cases hR : w.maps.nR > 0
  · have hne : w.replicas ≠ [] := by
      intro hnil
      have := congrArg length hnil
      rw [replicas, length_drop, length_nil] at this
      omega
    rw [show w.retryIds.repid = newestByAll completed w.replicas from if_pos hR]
    exact reissue_newestByAll_iff hne (fun p hp => hw.procs p (mem_of_mem_drop hp)) hk
  · have hnil : w.replicas = [] := by
      rw [replicas, drop_eq_nil_iff]
      omega
    rw [show w.retryIds.repid = -1 from if_neg hR, hnil]
    simp [reissue, SideReissues]

theorem minid_lt (h : reissue w.retryIds.cmpid k = true ∨ reissue w.retryIds.repid k = true) :
    w.retryIds.minid < k := by
  simp only [reissue, Bool.and_eq_true, decide_eq_true_eq] at h
  simp only [retryIds] at h ⊢
  split at h <;> split <;> omega

variable {r : CollRecord} {effs : List (CollRecord × ReplayEffect)}

theorem replayReducing_isSome (hw : w.WellFormed) (h0 : 0 ≤ i) (htype : r.type = .reduce ∨ r.type = .allreduce) :
    ∃ e, replayReducing w.maps w.tables w.retryIds i r = some e := by
  unfold replayReducing
  by_cases hge : w.maps.nC ≤ i
  · exact ⟨_, if_pos hge⟩
  · have hread := hw.inverse.ctr_holds i h0 (by omega)
    have hrange := hw.inverse.ctr_range h0 (show i < w.maps.nC by omega)
    obtain ⟨x, hx⟩ : ∃ x, myRepId w.maps w.tables i = some x := by
      rw [myRepId, hread, bind_eq_bind, bind_some]
      by_cases hnone : w.maps.ctr i = -1
      · exact ⟨-1, if_pos hnone⟩
      · rw [if_neg hnone]
        refine exists_read (by omega) ?_
        rw [tables, ReduceTables.gathered, length_map, hw.length]
        omega
    obtain ⟨d, hd⟩ : ∃ d, replayReductionRecord w.maps w.tables w.retryIds.cmpid x i r = some d :=
      replayReductionRecord_isSome hw.inverse (by omega) hw.nR_nonneg
        (by rw [length_map, hw.length]) (by rw [length_map, hw.length]) _ _ h0 (by omega) r
        htype
    rw [if_neg hge, hx, bind_eq_bind, bind_some, hd]
    exact ⟨_, rfl⟩

/-- What the replay of a record at rank `i` does on the side of the process. -/
def SideEffect (w : CollWorld) (i : Int) (r : CollRecord) (e : ReplayEffect) : Prop :=
  r.Transfers → (i < w.maps.nC → CmpEffect w.retryIds r e) ∧ (w.maps.nC ≤ i → RepEffect w.maps w.retryIds r e)

theorem replayRecord_side (hw : w.WellFormed) (h0 : 0 ≤ i) (hroot : 0 ≤ r.root ∧ r.root < w.maps.nC)
    (hok : reissue w.retryIds.repid r.id = true → ¬ r.Oversteps w.maps i) :
    ∃ e, replayRecord w.maps w.tables w.retryIds i r = some e ∧ w.SideEffect i r e := by
  have hC : 0 ≤ w.maps.nC := by omega
  by_cases htype : r.Transfers
  · by_cases hlt : i < w.maps.nC
    · obtain ⟨e, he, hcmp⟩ := replayRecord_compute w.tables hw.inverse hC hw.nR_nonneg h0 hlt hroot htype hok
      exact ⟨e, he, fun _ => ⟨fun _ => hcmp, fun hge => by omega⟩⟩
    · obtain ⟨e, he, hrep⟩ := replayRecord_replica w.tables hw.inverse (show w.maps.nC ≤ i by omega) hroot htype hok
      exact ⟨e, he, fun _ => ⟨fun h => absurd h hlt, fun _ => hrep⟩⟩
  · have hsome : ∃ e, replayRecord w.maps w.tables w.retryIds i r = some e := by
      unfold replayRecord
      cases hr : r.type with
      | reduce => exact replayReducing_isSome hw h0 (.inl hr)
      | allreduce => exact replayReducing_isSome hw h0 (.inr hr)
      | barrier | reduceTemp | allreduceTemp => exact ⟨_, rfl⟩
      | bcast | scatter | gather | allgather | alltoall | alltoallv =>
        exact absurd (by simp [CollRecord.Transfers, hr]) htype
    obtain ⟨e, he⟩ := hsome
    exact ⟨e, he, fun h => absurd h htype⟩

theorem read_procs_mem (h : CArray.read w.procs i = some p) : 0 ≤ i ∧ p ∈ w.procs := by
  have h0 := (read_eq_some_bounds h).1
  rw [CArray.read, if_pos h0] at h
  exact ⟨h0, mem_of_getElem? h⟩

theorem mem_computes_iff : p ∈ w.computes ↔ ∃ i, i < w.maps.nC ∧ CArray.read w.procs i = some p := by
  rw [computes, mem_take_iff_getElem]
  constructor
  · rintro ⟨n, hn, rfl⟩
    refine ⟨n, by omega, ?_⟩
    rw [read_natCast, getElem?_eq_getElem]
  · rintro ⟨i, hlt, hread⟩
    obtain ⟨h0, hlen⟩ := read_eq_some_bounds hread
    obtain ⟨n, rfl⟩ := Int.eq_ofNat_of_zero_le h0
    obtain ⟨hn, heq⟩ := List.getElem?_eq_some_iff.mp hread
    exact ⟨n, by omega, heq⟩

theorem mem_replicas_iff (hC : 0 ≤ w.maps.nC) :
    p ∈ w.replicas ↔ ∃ i, w.maps.nC ≤ i ∧ CArray.read w.procs i = some p := by
  rw [replicas, mem_drop_iff_getElem]
  constructor
  · rintro ⟨n, hn, rfl⟩
    refine ⟨(w.maps.nC.toNat + n : Nat), by omega, ?_⟩
    rw [read_natCast, getElem?_eq_getElem]
  · rintro ⟨i, hge, hread⟩
    obtain ⟨n, rfl⟩ := Int.eq_ofNat_of_zero_le (show 0 ≤ i by omega)
    rw [read_natCast] at hread
    obtain ⟨hn, heq⟩ := List.getElem?_eq_some_iff.mp hread
    refine ⟨n - w.maps.nC.toNat, by omega, ?_⟩
    simp only [show w.maps.nC.toNat + (n - w.maps.nC.toNat) = n by omega, heq]

theorem retried_ids_nodup {log : List CollRecord} (hsorted : log.Pairwise (fun r s => s.id < r.id)) (minid : Int) :
    ((log.takeWhile fun r => decide (minid < r.id)).reverse.map CollRecord.id).Nodup := by
  rw [map_reverse, nodup_reverse]
  refine List.Pairwise.map _ (fun r s h => ?_) (hsorted.sublist (takeWhile_sublist _))
  omega

theorem retry_spec (hw : w.WellFormed) (hin : w.StaysInside) (hp : CArray.read w.procs i = some p) :
    ∃ effs, w.retry i = some effs ∧ (∀ x ∈ effs, w.SideEffect i x.1 x.2 ∧ x.1 ∈ p.log ∧ opsFor effs x.1.id = x.2.ops) ∧
      (∀ r ∈ p.log, w.retryIds.minid < r.id → ∃ e, (r, e) ∈ effs) ∧
      ∀ k, k ≤ w.retryIds.minid → opsFor effs k = [] := by
  obtain ⟨h0, hmem⟩ := read_procs_mem hp
  have hsorted := (hw.procs p hmem).sorted
  have hiff : ∀ r, r ∈ (p.log.takeWhile fun r => decide (w.retryIds.minid < r.id)).reverse ↔
      r ∈ p.log ∧ w.retryIds.minid < r.id := fun r => by
    rw [mem_reverse, mem_takeWhile_newer hsorted]
  obtain ⟨effs, heffs, hfst, hside⟩ := replayRecords_spec (Q := w.SideEffect i)
    (fun r hr => replayRecord_side hw h0 (hw.root p hmem r ((hiff r).mp hr).1) fun hre =>
      hin i p hp r ((hiff r).mp hr).1
        ((reissue_repid_iff hw ((hw.procs p hmem).id_nonneg r ((hiff r).mp hr).1)).mp hre))
  have hmemfst : ∀ r, (∃ e, (r, e) ∈ effs) ↔ r ∈ p.log ∧ w.retryIds.minid < r.id := fun r => by
    rw [← hiff, ← hfst]
    simp
  have hdistinct : (effs.map fun x => x.1.id).Nodup := by
    have hnodup := retried_ids_nodup hsorted w.retryIds.minid
    rwa [← hfst, List.map_map] at hnodup
  refine ⟨effs, ?_, ?_, fun r hr hlt => (hmemfst r).mpr ⟨hr, hlt⟩, ?_⟩
  · rw [retry, hp, bind_eq_bind, bind_some, heffs]
  · intro x hx
    exact ⟨hside x hx, ((hmemfst x.1).mp ⟨x.2, hx⟩).1, opsFor_eq hdistinct hx⟩
  · intro k hk
    have hnone : effs.filter (fun x => x.1.id == k) = [] := by
      rw [filter_eq_nil_iff]
      intro x hx hid
      have hlt := ((hmemfst x.1).mp ⟨x.2, hx⟩).2
      rw [beq_iff_eq.mp hid] at hlt
      omega
    rw [opsFor, hnone, flatMap_nil]

theorem Reissues.staysInside (hw : w.WellFormed) (h : w.Reissues) : w.StaysInside := by
  intro i p hp r hr hre hover
  obtain ⟨h0, hmem⟩ := read_procs_mem hp
  have hk := (hw.procs p hmem).id_nonneg r hr
  rw [← reissue_repid_iff hw hk] at hre
  have hnone : w.retry i = none := by
    rw [retry, hp, bind_eq_bind, bind_some]
    refine replayRecords_none ?_ (replayRecord_oversteps w.tables hw.inverse
      (by have := hw.nC_pos; omega) h0 (hw.root p hmem r hr) hre hover)
    rw [mem_reverse, mem_takeWhile_newer (hw.procs p hmem).sorted]
    exact ⟨hr, minid_lt (.inr hre)⟩
  obtain ⟨effs, heffs, _⟩ := h i p hp
  rw [hnone] at heffs
  cases heffs

theorem cmp_count_iff (hw : w.WellFormed) (hin : w.StaysInside)
    (hp : CArray.read w.procs i = some p) (hlt : i < w.maps.nC) (hr : r ∈ p.log)
    (htype : r.Transfers) (heffs : w.retry i = some effs) :
    (opsFor effs r.id).count .cmp = 1 ↔ SideReissues w.computes r.id := by
  obtain ⟨effs', heffs', hside, hall, hnone⟩ := retry_spec hw hin hp
  rw [heffs, some_inj] at heffs'
  subst heffs'
  have hk := (hw.procs p (read_procs_mem hp).2).id_nonneg r hr
  rw [← reissue_cmpid_iff hw hk]
  by_cases hnew : w.retryIds.minid < r.id
  · obtain ⟨e, he⟩ := hall r hr hnew
    obtain ⟨hse, _, hops⟩ := hside _ he
    rw [hops, ((hse htype).1 hlt).1]
    split <;> simp_all
  · rw [hnone r.id (by omega)]
    refine iff_of_false (by simp) fun hre => hnew (minid_lt (.inl hre))

theorem rep_count_iff (hw : w.WellFormed) (hin : w.StaysInside)
    (hp : CArray.read w.procs i = some p) (hge : w.maps.nC ≤ i) (hr : r ∈ p.log)
    (htype : r.Transfers) (hinv : r.Involves w.maps)
    (heffs : w.retry i = some effs) :
    (opsFor effs r.id).countP EComm.repSide = 1 ↔ SideReissues w.replicas r.id := by
  obtain ⟨effs', heffs', hside, hall, hnone⟩ := retry_spec hw hin hp
  rw [heffs, some_inj] at heffs'
  subst heffs'
  have hk := (hw.procs p (read_procs_mem hp).2).id_nonneg r hr
  rw [← reissue_repid_iff hw hk]
  by_cases hnew : w.retryIds.minid < r.id
  · obtain ⟨e, he⟩ := hall r hr hnew
    obtain ⟨hse, _, hops⟩ := hside _ he
    have heffect := (hse htype).2 hge
    rw [hops]
    unfold RepEffect at heffect
    split at heffect
    · exact iff_of_true (heffect hinv) ‹_›
    · rw [heffect]
      exact iff_of_false (by simp) ‹_›
  · rw [hnone r.id (by omega)]
    refine iff_of_false (by simp) fun hre => hnew (minid_lt (.inr hre))

/-- A collective is issued again by all who logged it exactly when both sides are safe and no process
oversteps its arrays. -/
theorem reissues_iff (hw : w.WellFormed) : w.Reissues ↔ SideSafe CollRecord.Transfers w.computes ∧
      SideSafe (fun r => r.Transfers ∧ r.Involves w.maps) w.replicas ∧ w.StaysInside := by
  have hC : 0 ≤ w.maps.nC := by have := hw.nC_pos; omega
  have hcmp := sideSafe_iff w.computes (fun p hp => hw.procs p (mem_of_mem_take hp))
    CollRecord.Transfers (fun p hp r hr q hq s hs hid htype => by
      have := (hw.common p (mem_of_mem_take hp) r hr q (mem_of_mem_take hq) s hs hid htype).1
      rwa [CollRecord.Transfers, this])
  have hrep := sideSafe_iff w.replicas (fun p hp => hw.procs p (mem_of_mem_drop hp))
    (fun r => r.Transfers ∧ r.Involves w.maps)
    (fun p hp r hr q hq s hs hid hsel => by
      obtain ⟨hty, hroot⟩ := hw.common p (mem_of_mem_drop hp) r hr q (mem_of_mem_drop hq) s hs hid hsel.1
      exact ⟨by rw [CollRecord.Transfers, hty]; exact hsel.1, by rw [CollRecord.Involves, hty, hroot]; exact hsel.2⟩)
  rw [← hcmp, ← hrep]
  constructor
  · intro h
    have hin := h.staysInside hw
    refine ⟨fun p hp r hr htype q hq hinc => ?_, fun p hp r hr hsel q hq hinc => ?_, hin⟩
    · obtain ⟨i, hlt, hread⟩ := mem_computes_iff.mp hp
      obtain ⟨effs, heffs, hat⟩ := h i p hread
      exact (cmp_count_iff hw hin hread hlt hr htype heffs).mp (hat.cmp hlt r hr htype ⟨q, hq, hinc⟩)
    · obtain ⟨i, hge, hread⟩ := (mem_replicas_iff hC).mp hp
      obtain ⟨effs, heffs, hat⟩ := h i p hread
      exact (rep_count_iff hw hin hread hge hr hsel.1 hsel.2 heffs).mp (hat.rep hge r hr hsel.1 hsel.2 ⟨q, hq, hinc⟩)
  · rintro ⟨hcmp, hrep, hin⟩ i p hread
    obtain ⟨effs, heffs, hside, _⟩ := retry_spec hw hin hread
    have hcmpat : i < w.maps.nC → ∀ r ∈ p.log, r.Transfers →
        (∃ q ∈ w.computes, q.Incomplete r.id) → (opsFor effs r.id).count .cmp = 1 := by
      rintro hlt r hr htype ⟨q, hq, hinc⟩
      exact (cmp_count_iff hw hin hread hlt hr htype heffs).mpr
        (hcmp p (mem_computes_iff.mpr ⟨i, hlt, hread⟩) r hr htype q hq hinc)
    have hrepat : w.maps.nC ≤ i → ∀ r ∈ p.log, r.Transfers → r.Involves w.maps →
        (∃ q ∈ w.replicas, q.Incomplete r.id) → (opsFor effs r.id).countP EComm.repSide = 1 := by
      rintro hge r hr htype hinv ⟨q, hq, hinc⟩
      exact (rep_count_iff hw hin hread hge hr htype hinv heffs).mpr
        (hrep p ((mem_replicas_iff hC).mpr ⟨i, hge, hread⟩) r hr ⟨htype, hinv⟩ q hq hinc)
    refine ⟨effs, heffs, hcmpat, hrepat, fun x hx htype _ _ => ?_⟩
    -- A record that is pending makes its own process one that has not completed the collective.
    obtain ⟨_, hr, hops⟩ := hside x hx
    by_cases hdone : x.1.completed = true
    · exact .inl hdone
    · have hinc : p.Incomplete x.1.id := .inr ⟨x.1, hr, rfl, by simpa using hdone⟩
      by_cases hlt : i < w.maps.nC
      · have hone := hcmpat hlt x.1 hr htype ⟨p, mem_computes_iff.mpr ⟨i, hlt, hread⟩, hinc⟩
        refine .inr (.inl fun hnil => ?_)
        rw [hops, hnil] at hone
        simp at hone
      · by_cases hinv : x.1.Involves w.maps
        · have hge : w.maps.nC ≤ i := by omega
          have hone := hrepat hge x.1 hr htype hinv ⟨p, (mem_replicas_iff hC).mpr ⟨i, hge, hread⟩, hinc⟩
          refine .inr (.inl fun hnil => ?_)
          rw [hops, hnil] at hone
          simp at hone
        · exact .inr (.inr ⟨by omega, hinv⟩)

end World

/-- Two compute processes with a broadcast pending, after the records in `older`. -/
def pendingBcast (older : List CollRecord) : CollWorld where
  maps := initial 2 0
  procs := replicate 2
    { called := 2
      log := { type := .bcast, id := 1, completecmp := false, completerep := true } :: older }

def bcastDone : CollRecord := { type := .bcast, id := 0, completecmp := true, completerep := true }

theorem pendingBcast_wellFormed {older : List CollRecord} (h : older = [] ∨ older = [bcastDone]) :
    (pendingBcast older).WellFormed where
  inverse := initial_mutuallyInverse (by decide)
  nC_pos := by simp [pendingBcast, initial]
  nR_nonneg := by simp [pendingBcast, initial]
  length := by simp [pendingBcast, initial]
  procs := by
    intro p hp
    obtain rfl := eq_of_mem_replicate hp
    rcases h with rfl | rfl <;> constructor <;> simp [bcastDone, completed]
  root := by
    intro p hp r hr
    obtain rfl := eq_of_mem_replicate hp
    rcases h with rfl | rfl <;> simp_all [bcastDone, pendingBcast, initial]
    rcases hr with rfl | rfl <;> decide
  common := by
    intro p hp r hr q hq s hs hid _
    obtain rfl := eq_of_mem_replicate hp
    obtain rfl := eq_of_mem_replicate hq
    rcases h with rfl | rfl
    · simp_all
    · simp only [mem_cons, not_mem_nil, or_false] at hr hs
      rcases hr with rfl | rfl <;> rcases hs with rfl | rfl <;> simp_all [bcastDone]

/-- The first collective is pending on both processes when a failure comes. Neither issues it again, and
both flag it as completed. -/
theorem first_collective_lost : (pendingBcast []).retry 0 =
        some [({ type := .bcast, id := 1, completecmp := false, completerep := true }, ⟨[], true, true, []⟩)] ∧
      ¬ (pendingBcast []).Reissues := by
  have hretry : (pendingBcast []).retry 0 =
      some [({ type := .bcast, id := 1, completecmp := false, completerep := true }, ⟨[], true, true, []⟩)] := by decide
  refine ⟨hretry, fun h => ?_⟩
  obtain ⟨effs, heffs, hat⟩ := h 0 _ rfl
  rw [hretry, some_inj] at heffs
  subst heffs
  have hflag := hat.flags _ (mem_singleton.mpr rfl) (.inl rfl) rfl rfl
  revert hflag
  simp [completed, pendingBcast, initial]

/-- With an earlier broadcast completed on both, the pending one is issued again. -/
theorem reissues_after_first : (pendingBcast [bcastDone]).Reissues := by
  have hnil : (pendingBcast [bcastDone]).replicas = [] := rfl
  refine (reissues_iff (pendingBcast_wellFormed (.inr rfl))).mpr ⟨⟨?_, ?_⟩, ⟨?_, ?_⟩, ?_⟩
  · rintro ⟨p, hp, hnone⟩
    obtain rfl := eq_of_mem_replicate (mem_of_mem_take hp)
    exact absurd (hnone bcastDone (by simp)) (by decide)
  · intro p hp r hr _ hpending
    obtain rfl := eq_of_mem_replicate (mem_of_mem_take hp)
    refine ⟨_, hp, fun s hs hdone => ?_⟩
    simp only [mem_cons, not_mem_nil, or_false] at hr hs
    rcases hr with rfl | rfl <;> rcases hs with rfl | rfl <;> simp_all [bcastDone, completed]
  · rintro ⟨p, hp, _⟩
    simp [hnil] at hp
  · intro p hp
    simp [hnil] at hp
  · rintro i p _ r _ ⟨_, q, hq, _⟩
    simp [hnil] at hq

end CollWorld

end ParepMpi
