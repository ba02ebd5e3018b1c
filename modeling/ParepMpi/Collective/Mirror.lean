import ParepMpi.Collective.Beside
import ParepMpi.Collective.Reproduce
import ParepMpi.Rearrange.Swap

/-!
# Replicas receive what their compute processes receive

A replica gets the bytes of the ranks without a replica across, on `EMPI_CMP_REP_INTERCOMM` from a root and on
`EMPI_CMP_NO_REP_INTERCOMM` otherwise.
-/

namespace ParepMpi

open Exchange Option ProcMaps RootArg

namespace ProcMaps

variable {m : ProcMaps} {i a root : Int} {op : EComm → Option Int → RootArg → CollOp} {b : Blocks}
  {buf : Int → Option UInt8} {acrossOp : CollOp}

theorem exists_across {Q : Int → Prop} : (∃ (p : Nat) (a : Int), m.unreplicated[p]? = some a ∧ Q a) ↔
      ∃ s, 0 ≤ s ∧ s < m.nC ∧ m.ctr s = -1 ∧ Q s := by
  constructor
  · intro h
    obtain ⟨p, a, ha, hQ⟩ := h
    obtain ⟨h0, hlt, hnone⟩ := mem_unreplicated.mp (List.mem_of_getElem? ha)
    exact ⟨a, h0, hlt, hnone, hQ⟩
  · intro h
    obtain ⟨s, h0, hlt, hnone, hQ⟩ := h
    obtain ⟨p, hp⟩ := List.mem_iff_getElem?.mp (mem_unreplicated.mpr ⟨h0, hlt, hnone⟩)
    exact ⟨p, s, hp, hQ⟩

theorem peers_cmpNoRep (hge : m.nC ≤ i) : m.peers .cmpNoRep i = m.unreplicated := if_neg (by omega)

theorem peers_cmpNoRep_of_mem (ha : a ∈ m.unreplicated) : m.peers .cmpNoRep a = m.replicas := by
  obtain ⟨_, hlt, hnone⟩ := mem_unreplicated.mp ha
  rw [peers, if_pos hlt, if_pos hnone]

section Ops

variable (hop : ∀ e me arg, (op e me arg).comm = e)

include hop

theorem fromRootOps_across (hge : m.nC ≤ i) (hnone : m.ctr root = -1) :
    onComm (m.fromRootOps root i op) .cmpRep = [op .cmpRep none (.rank root)] := by
  rw [fromRootOps, if_pos hge, if_pos hnone]
  simp [onComm, hop]

theorem fromRootOps_across_compute (hlt : a < m.nC) (hR : 0 < m.nR) (hnone : m.ctr root = -1) :
    onComm (m.fromRootOps root a op) .cmpRep = [op .cmpRep none (if a = root then .root else .procNull)] := by
  rw [fromRootOps, if_neg (by omega)]
  by_cases ha : a = root <;> simp [onComm, hop, hnone, hR, ha]

theorem fromRootOps_across_nil (hge : m.nC ≤ i) (hne : m.ctr root ≠ -1) :
    onComm (m.fromRootOps root i op) .cmpRep = [] := by
  rw [fromRootOps, if_pos hge, if_neg hne]
  simp [onComm, hop]

theorem fromRootOps_cmpNoRep (hge : m.nC ≤ i) : onComm (m.fromRootOps root i op) .cmpNoRep = [] := by
  rw [fromRootOps, if_pos hge]
  split_ifs <;> simp [onComm, hop]

end Ops

theorem mem_fromRootOps_compute {x : CollOp} (hi : i < m.nC) (hop : ∀ e me arg, (op e me arg).comm = e)
    (hx : x ∈ m.fromRootOps root i op) (hcomm : x.comm ≠ .cmp) :
    ∃ arg, (∀ p, arg.names p = false) ∧ x = op .cmpRep none arg := by
  rw [fromRootOps, if_neg (by omega)] at hx
  rcases List.mem_cons.mp hx with rfl | hx
  · exact absurd (hop _ _ _) hcomm
  · split_ifs at hx
    · exact ⟨.root, fun _ => rfl, List.mem_singleton.mp hx⟩
    · exact ⟨.procNull, fun _ => rfl, List.mem_singleton.mp hx⟩
    · simp at hx

theorem gatherOps_across (hge : m.nC ≤ i) (hne : m.ctr root ≠ -1) (hlt : m.nR < m.nC) (hR : 0 < m.nR) :
    onComm (m.gatherOps buf b root acrossOp i) .cmpNoRep =
      [gatherv .cmpNoRep none buf (b.sblock 0) (m.unreplicated.map b.rblock)
        (if m.logical i = root then .root else .procNull)] := by
  rw [gatherOps, if_pos hge, if_pos hne, if_pos ⟨hlt, hR⟩]
  simp [onComm]

theorem gatherOps_across_compute (ha : a ∈ m.unreplicated) (hne : m.ctr root ≠ -1)
    (hacross : acrossOp.comm = .cmpNoRep) :
    onComm (m.gatherOps buf b root acrossOp a) .cmpNoRep = [acrossOp] := by
  obtain ⟨_, hlt, hnone⟩ := mem_unreplicated.mp ha
  rw [gatherOps, if_neg (by omega), if_pos ⟨hne, hnone⟩]
  simp [onComm, hacross]

theorem gatherOps_cmpRep (hge : m.nC ≤ i) : onComm (m.gatherOps buf b root acrossOp i) .cmpRep = [] := by
  rw [gatherOps, if_pos hge]
  split_ifs <;> simp [onComm]

theorem allgatherOps_across (hge : m.nC ≤ i) (hlt : m.nR < m.nC) (hR : 0 < m.nR) :
    onComm (m.allgatherOps buf b i) .cmpNoRep = (List.range m.nR.toNat).map fun k : Nat =>
      gatherv .cmpNoRep none buf (b.sblock 0) (m.unreplicated.map b.rblock)
        (if m.ctr (m.logical i) = k then .root else .procNull) := by
  have hb : m.between i = true := by
    rw [between, if_pos hge]
    exact decide_eq_true ⟨hlt, hR⟩
  simp only [allgatherOps, if_pos hge, hb, if_true, onComm, List.filter_append]
  simp

theorem allgatherOps_across_compute (ha : a ∈ m.unreplicated) (hR : 0 < m.nR) :
    onComm (m.allgatherOps buf b a) .cmpNoRep = (List.range m.nR.toNat).map fun k : Nat =>
      gatherv .cmpNoRep none buf (b.sblock 0) (m.unreplicated.map b.rblock) (.rank k) := by
  obtain ⟨_, hlt, hnone⟩ := mem_unreplicated.mp ha
  have hb : m.between a = true := by
    rw [between, if_neg (by omega)]
    exact decide_eq_true ⟨hR, hnone⟩
  simp only [allgatherOps, if_neg (show ¬ m.nC ≤ a by omega), hb, if_true, onComm]
  simp

theorem allgatherOps_cmpRep (hge : m.nC ≤ i) : onComm (m.allgatherOps buf b i) .cmpRep = [] := by
  simp only [allgatherOps, if_pos hge, onComm]
  split_ifs <;> simp

variable {sblock rblock across : Int → Region}

variable (buf sblock rblock across) in
theorem alltoallOps_across (hge : m.nC ≤ i) (hlt : m.nR < m.nC) (hR : 0 < m.nR) :
    onComm (m.alltoallOps buf sblock rblock across i) .cmpNoRep = (List.range (m.nC - m.nR).toNat).map fun k : Nat =>
        scatterv .cmpNoRep none buf (m.replicated.map sblock) (across (m.unreplicated.getD k 0)) (.rank k) := by
  have hb : m.between i = true := by
    rw [between, if_pos hge]
    exact decide_eq_true ⟨hlt, hR⟩
  simp only [alltoallOps, if_pos hge, hb, if_true, onComm, List.filter_append]
  simp

theorem alltoallOps_across_compute (ha : a ∈ m.unreplicated) (hR : 0 < m.nR) :
    onComm (m.alltoallOps buf sblock rblock across a) .cmpNoRep = (List.range (m.nC - m.nR).toNat).map fun k : Nat =>
        scatterv .cmpNoRep none buf (m.replicated.map sblock) (across (m.unreplicated.getD k 0))
          (if m.unreplicated.idxOf a = k then .root else .procNull) := by
  obtain ⟨_, hlt, hnone⟩ := mem_unreplicated.mp ha
  have hb : m.between a = true := by
    rw [between, if_neg (by omega)]
    exact decide_eq_true ⟨hR, hnone⟩
  simp only [alltoallOps, if_neg (show ¬ m.nC ≤ a by omega), hb, if_true, onComm]
  simp

theorem alltoallOps_cmpRep (hge : m.nC ≤ i) : onComm (m.alltoallOps buf sblock rblock across i) .cmpRep = [] := by
  simp only [alltoallOps, if_pos hge, onComm]
  split_ifs <;> simp

end ProcMaps

namespace CollArgs

variable {m : ProcMaps} {args : CollArgs} {d : SendData} {i root : Int} {w : Int × Option UInt8} {b : Blocks}

def LandsAcross (m : ProcMaps) (args : CollArgs) (d : SendData) (i : Int) (w : Int × Option UInt8) : Prop :=
  LandsOn m.peers (fun i => args.issue m d i) .cmpRep i w ∨ LandsOn m.peers (fun i => args.issue m d i) .cmpNoRep i w

theorem not_deliveredBy_of_all (hm : m.Valid) (hall : ¬ m.nR < m.nC) :
    ¬ args.DeliveredBy m (fun s => m.ctr s = -1) d (m.logical i) w := by
  intro h
  obtain ⟨s, h0, hs, hnone, _⟩ := h
  exact hall (hm.inverse.nR_lt_nC h0 hs hnone)

theorem not_landsOn_cmpNoRep_of_all (hm : m.Valid) (hge : m.nC ≤ i) (hall : ¬ m.nR < m.nC) :
    ¬ LandsOn m.peers (fun i => args.issue m d i) .cmpNoRep i w := by
  intro h
  obtain ⟨k, x, p, a, y, _, ha, _⟩ := h
  rw [peers_cmpNoRep hge] at ha
  obtain ⟨h0, hs, hnone⟩ := mem_unreplicated.mp (List.mem_of_getElem? ha)
  exact hall (hm.inverse.nR_lt_nC h0 hs hnone)

variable {a : Int} {p : Nat}

theorem rank_names_computes (ha : m.computes[p]? = some a) : (rank root).names p = decide (a = root) := by
  obtain ⟨_, _, rfl⟩ := getElem?_computes.mp ha
  rw [names_rank, decide_eq_decide, eq_comm]

theorem rank_names_eq_isRoot (ha : m.computes[p]? = some a) :
    (RootArg.rank root).names p = (if a = root then RootArg.root else .procNull).isRoot none := by
  rw [rank_names_computes ha, isRoot_ite]

section Across

variable (hm : m.Valid) (hinc : m.Increasing) (hge : m.nC ≤ i) (hlt : i < m.nC + m.nR)

include hm hge hlt

theorem replica_mem_positions : i ∈ m.positions := mem_positions.mpr ⟨by have := hm.nC_nonneg; omega, hlt⟩

omit hm in
theorem fromRoot_landsAcross (op : Int → EComm → Option Int → RootArg → CollOp)
    (hop : ∀ a e me arg, (op a e me arg).comm = e) (hissue : ∀ a, args.issue m d a = m.fromRootOps root a (op a))
    (hdel : ∀ s, s ≠ root → args.delivers d (m.logical i) s = none)
    (htransfer : m.ctr root = -1 → ∀ (p : Nat) (a : Int), m.computes[p]? = some a →
      (w ∈ transfer (op i .cmpRep none (.rank root)) (op a .cmpRep none (if a = root then .root else .procNull))
          p ((m.peers .cmpRep a).idxOf i) ↔
        ∃ r v, args.delivers d (m.logical i) a = some (r, v) ∧ Written r v w)) :
    args.LandsAcross m d i w ↔ args.DeliveredBy m (fun s => m.ctr s = -1) d (m.logical i) w := by
  have hcmpNoRep : ¬ LandsOn m.peers (args.issue m d) .cmpNoRep i w := by
    apply not_landsOn_of_nil
    rw [hissue, fromRootOps_cmpNoRep (hop i) hge]
  have hfrom : ∀ {s r v}, args.delivers d (m.logical i) s = some (r, v) → s = root := by
    intro s r v h
    by_contra hne
    rw [hdel s hne] at h
    cases h
  rw [LandsAcross, or_iff_left hcmpNoRep]
  by_cases hnone : m.ctr root = -1
  · have hops : ∀ a ∈ m.peers .cmpRep i, onComm (args.issue m d a) .cmpRep =
        [op a .cmpRep none (if a = root then .root else .procNull)] := by
      intro a ha
      rw [peers, if_neg (by omega)] at ha
      rw [hissue, fromRootOps_across_compute (hop a) (mem_computes.mp ha).2 (by omega) hnone]
    have hself : onComm (args.issue m d i) .cmpRep = [op i .cmpRep none (.rank root)] := by
      rw [hissue, fromRootOps_across (hop i) hge hnone]
    rw [landsOn_single m.peers (args.issue m d) hself hops, peers, if_neg (by omega)]
    constructor
    · intro h
      obtain ⟨p, a, ha, hw⟩ := h
      obtain ⟨h0, halt⟩ := mem_computes.mp (List.mem_of_getElem? ha)
      obtain ⟨r, v, hrv, hw⟩ := (htransfer hnone p a ha).mp hw
      exact ⟨a, h0, halt, hfrom hrv ▸ hnone, r, v, hrv, hw⟩
    · intro h
      obtain ⟨s, h0, hs, _, r, v, hrv, hw⟩ := h
      have hp := computes_getElem? h0 hs
      exact ⟨s.toNat, s, hp, (htransfer hnone s.toNat s hp).mpr ⟨r, v, hrv, hw⟩⟩
  · refine iff_of_false (not_landsOn_of_nil ?_) ?_
    · rw [hissue, fromRootOps_across_nil (hop i) hge hnone]
    · intro h
      obtain ⟨s, _, _, hs, r, v, hrv, _⟩ := h
      exact hnone (hfrom hrv ▸ hs)

theorem bcast_landsAcross {count : Nat} {t : Datatype} (hr : root < m.nC) : (bcast count t root).LandsAcross m d i w ↔
      (bcast count t root).DeliveredBy m (fun s => m.ctr s = -1) d (m.logical i) w := by
  apply fromRoot_landsAcross hge hlt (fun a comm me arg =>
    Exchange.bcast comm me (d.app (m.logical a)) (t.run 0 count) (some (t.run 0 count)) arg) (fun _ _ _ _ => rfl) fun _ => rfl
  · intro s hs
    simp [delivers, hs]
  · intro hnone p a ha
    have hl := (hm.ctr_logical (replica_mem_positions hm hge hlt) hge).2
    have hne : m.logical i ≠ root := fun h => hl (h ▸ hnone)
    rw [mem_transfer_bcast (rank_names_eq_isRoot ha), rank_names_computes ha]
    by_cases hroot : a = root
    · subst hroot
      simp [delivers, hne, RootArg.isRoot, logical_of_lt hr]
    · simp [delivers, hroot]

include hinc in
theorem scatter_landsAcross (hr : root < m.nC) : (scatter b root).LandsAcross m d i w ↔
      (scatter b root).DeliveredBy m (fun s => m.ctr s = -1) d (m.logical i) w := by
  apply fromRoot_landsAcross hge hlt (fun a comm me arg => scatterv comm me (d.app (m.logical a))
    ((if comm = .cmp then m.computes else m.replicated).map b.sblock) (b.rblock 0) arg)
    (fun _ _ _ _ => rfl) fun _ => rfl
  · intro s hs
    simp [delivers, hs]
  · intro hnone p a ha
    have halt := (mem_computes.mp (List.mem_of_getElem? ha)).2
    have hpeers : m.peers .cmpRep a = m.replicas := if_pos halt
    rw [hpeers, idxOf_replicas hge hlt, if_neg (by decide),
      mem_transfer_scatterv (hm.replicated_at hinc hge hlt) b.agree (rank_names_eq_isRoot ha),
      rank_names_computes ha]
    by_cases hroot : a = root
    · subst hroot
      simp [delivers, logical_of_lt hr]
    · simp [delivers, hroot]

theorem landsAcross_of_rounds {n : Nat} {x : Nat → CollOp} {y : Int → Nat → CollOp}
    (hcmpRep : onComm (args.issue m d i) .cmpRep = [])
    (hself : m.nR < m.nC → onComm (args.issue m d i) .cmpNoRep = (List.range n).map x)
    (hops : ∀ a ∈ m.unreplicated, onComm (args.issue m d a) .cmpNoRep = (List.range n).map (y a))
    (htransfer : ∀ (p : Nat) (a : Int), m.unreplicated[p]? = some a →
      ((∃ k < n, w ∈ transfer (x k) (y a k) p (i - m.nC).toNat) ↔
        ∃ r v, args.delivers d (m.logical i) a = some (r, v) ∧ Written r v w)) :
    args.LandsAcross m d i w ↔ args.DeliveredBy m (fun s => m.ctr s = -1) d (m.logical i) w := by
  rw [LandsAcross, or_iff_right (not_landsOn_of_nil hcmpRep)]
  by_cases hfew : m.nR < m.nC
  swap
  · exact iff_of_false (not_landsOn_cmpNoRep_of_all hm hge hfew) (not_deliveredBy_of_all hm hfew)
  have hpeers := peers_cmpNoRep (m := m) hge
  rw [landsOn_rounds m.peers (fun i => args.issue m d i) (hself hfew) (by rwa [hpeers]), hpeers]
  refine Iff.trans ?_ exists_across
  constructor
  · intro h
    obtain ⟨k, p, a, hk, ha, hw⟩ := h
    rw [peers_cmpNoRep_of_mem (List.mem_of_getElem? ha), idxOf_replicas hge hlt] at hw
    exact ⟨p, a, ha, (htransfer p a ha).mp ⟨k, hk, hw⟩⟩
  · intro h
    obtain ⟨p, a, ha, hw⟩ := h
    obtain ⟨k, hk, hw⟩ := (htransfer p a ha).mpr hw
    refine ⟨k, p, a, hk, ha, ?_⟩
    rwa [peers_cmpNoRep_of_mem (List.mem_of_getElem? ha), idxOf_replicas hge hlt]

omit hm hlt in
theorem mem_transfer_across (ha : m.unreplicated[p]? = some a) {P : Prop} [Decidable P] {k : Int}
    (hP : k = i - m.nC ↔ P) {buf : Int → Option UInt8} :
    w ∈ transfer (gatherv .cmpNoRep none buf (b.sblock 0) (m.unreplicated.map b.rblock) (if P then .root else .procNull))
        (gatherv EComm.cmpNoRep none (d.app (m.logical a)) (b.sblock 0) (m.unreplicated.map b.rblock) (.rank k))
        p (i - m.nC).toNat ↔
      P ∧ Written (b.rblock a) (contents (d.app a) (b.sblock 0)) w := by
  have hnames : (rank k).names (i - m.nC).toNat = decide P := by
    rw [names_rank, decide_eq_decide, Int.toNat_of_nonneg (by omega), hP]
  have hroot := isRoot_ite P
  rw [mem_transfer_gatherv ha b.agree (hroot.trans hnames.symm), hroot, decide_eq_true_eq,
    logical_of_lt (mem_unreplicated.mp (List.mem_of_getElem? ha)).2.1]

theorem gather_landsAcross (hr0 : 0 ≤ root) (hr : root < m.nC) : (gather b root).LandsAcross m d i w ↔
      (gather b root).DeliveredBy m (fun s => m.ctr s = -1) d (m.logical i) w := by
  have hi := replica_mem_positions hm hge hlt
  apply landsAcross_of_rounds hm hge hlt (n := if m.ctr root = -1 then 0 else 1)
    (x := fun _ => gatherv .cmpNoRep none (d.app (m.logical i)) (b.sblock 0) (m.unreplicated.map b.rblock)
      (if m.logical i = root then .root else .procNull))
    (y := fun a _ => gatherv .cmpNoRep none (d.app (m.logical a)) (b.sblock 0) (m.unreplicated.map b.rblock)
      (.rank (m.ctr root)))
  · exact gatherOps_cmpRep hge
  · intro hfew
    by_cases hne : m.ctr root = -1
    · rw [issue, gatherOps, if_pos hge, if_neg (not_not.mpr hne), if_pos hne]
      rfl
    · rw [if_neg hne]
      exact gatherOps_across hge hne hfew (by omega)
  · intro a ha
    split_ifs with hne
    · simp [issue, gatherOps, hne, onComm, (mem_unreplicated.mp ha).2.1.not_ge]
    · exact gatherOps_across_compute ha hne rfl
  · intro p a ha
    have hP : m.ctr root = i - m.nC ↔ m.logical i = root := by
      rw [hm.logical_eq_iff hi hr0 hr]
      omega
    simp only [mem_transfer_across hge ha hP]
    by_cases hne : m.ctr root = -1
    · -- the root has no replica, so that no replica is to receive
      have hl : m.logical i ≠ root := fun h => (hm.ctr_logical hi hge).2 (h ▸ hne)
      simp [delivers, hl]
    · simp [delivers, hne]

theorem allgather_landsAcross : (allgather b).LandsAcross m d i w ↔
      (allgather b).DeliveredBy m (fun s => m.ctr s = -1) d (m.logical i) w := by
  have hl := hm.ctr_logical (replica_mem_positions hm hge hlt) hge
  apply landsAcross_of_rounds hm hge hlt (n := m.nR.toNat)
    (x := fun k => gatherv .cmpNoRep none (d.app (m.logical i)) (b.sblock 0) (m.unreplicated.map b.rblock)
      (if m.ctr (m.logical i) = k then .root else .procNull))
    (y := fun a k => gatherv .cmpNoRep none (d.app (m.logical a)) (b.sblock 0) (m.unreplicated.map b.rblock) (.rank k))
  · exact allgatherOps_cmpRep hge
  · exact fun hfew => allgatherOps_across hge hfew (by omega)
  · exact fun a ha => allgatherOps_across_compute ha (by omega)
  · intro p a ha
    have hP : ∀ k : Nat, (k : Int) = i - m.nC ↔ m.ctr (m.logical i) = k := by
      intro k
      omega
    simp only [mem_transfer_across hge ha (hP _)]
    constructor
    · intro h
      obtain ⟨k, _, _, hw⟩ := h
      exact ⟨_, _, rfl, hw⟩
    · intro h
      obtain ⟨r, v, hrv, hw⟩ := h
      cases hrv
      -- the round of the replica
      exact ⟨(i - m.nC).toNat, by omega, by omega, hw⟩

include hinc

theorem alltoallv_landsAcross {v : VBlocks} (hext : v.recvtype.extent = v.recvtype.size) : (alltoallv v).LandsAcross m d i w ↔
      (alltoallv v).DeliveredBy m (fun s => m.ctr s = -1) d (m.logical i) w := by
  have hacross : v.across (m.logical i) = v.rblock (m.logical i) := by
    funext c
    rw [VBlocks.across, VBlocks.rblock, hext]
  apply landsAcross_of_rounds hm hge hlt (n := (m.nC - m.nR).toNat)
    (x := fun k => scatterv .cmpNoRep none (d.app (m.logical i)) (m.replicated.map (v.sblock (m.logical i)))
      (v.across (m.logical i) (m.unreplicated.getD k 0)) (.rank k))
    (y := fun a k => scatterv .cmpNoRep none (d.app (m.logical a)) (m.replicated.map (v.sblock (m.logical a)))
      (v.across (m.logical a) (m.unreplicated.getD k 0))
      (if m.unreplicated.idxOf a = k then .root else .procNull))
  · exact alltoallOps_cmpRep hge
  · exact fun hfew => alltoallOps_across _ _ _ _ hge hfew (by omega)
  · exact fun a ha => alltoallOps_across_compute ha (by omega)
  · intro p a ha
    have hlogical := logical_of_lt (mem_unreplicated.mp (List.mem_of_getElem? ha)).2.1
    simp only [hlogical, idxOf_unreplicated ha]
    have hiff : ∀ k : Nat, w ∈ transfer (scatterv EComm.cmpNoRep none (d.app (m.logical i))
          (m.replicated.map (v.sblock (m.logical i))) (v.across (m.logical i) (m.unreplicated.getD k 0)) (.rank k))
        (scatterv EComm.cmpNoRep none (d.app a) (m.replicated.map (v.sblock a))
          (v.across a (m.unreplicated.getD k 0)) (if p = k then .root else .procNull)) p (i - m.nC).toNat ↔
        k = p ∧ Written (v.rblock (m.logical i) a) (contents (d.app a) (v.sblock a (m.logical i))) w := by
      intro k
      apply mem_transfer_iff
      · rcases eq_or_ne k p with rfl | hk
        · simp [scatterv, names_rank, List.getD_eq_getElem?_getD, ha, hacross]
        · simp [scatterv, names_rank, hk]
      · rintro rfl
        simp [scatterv, isRoot, block_map (hm.replicated_at hinc hge hlt)]
      · rw [contents_length]
        exact v.agree _ _
    simp only [hiff]
    constructor
    · intro h
      obtain ⟨k, _, _, hw⟩ := h
      exact ⟨_, _, rfl, hw⟩
    · intro h
      obtain ⟨r, x, hrx, hw⟩ := h
      cases hrx
      have hp := (List.getElem?_eq_some_iff.mp ha).1
      rw [hm.unreplicated_length] at hp
      exact ⟨p, hp, rfl, hw⟩

end Across

section Alltoall

def uniform (b : Blocks) : VBlocks where
  sendtype := b.sendtype
  recvtype := b.recvtype
  sendcounts := fun _ _ => b.sendcount
  sdispls := fun _ c => c * b.sendcount
  recvcounts := fun _ _ => b.recvcount
  rdispls := fun _ c => c * b.recvcount
  agree := fun _ _ => b.agree

theorem issue_alltoall (b : Blocks) : (alltoall b).issue m d i = (alltoallv (uniform b)).issue m d i := rfl

theorem delivers_alltoall (b : Blocks) (l a : Int) :
    (alltoall b).delivers d l a = (alltoallv (uniform b)).delivers d l a := rfl

theorem alltoallOps_takes_nothing {v : VBlocks} (hi : i < m.nC) {x : CollOp}
    (hx : x ∈ (alltoallv v).issue m d i) (hcomm : x.comm ≠ .cmp) (p : Nat) : x.takes p = none := by
  simp only [issue, alltoallOps, if_neg (show ¬ m.nC ≤ i by omega)] at hx
  rcases List.mem_cons.mp hx with rfl | hx
  · exact absurd rfl hcomm
  · split_ifs at hx
    · obtain ⟨k, _, rfl⟩ := List.mem_map.mp hx
      by_cases h : m.unreplicated.idxOf i = k <;> simp [scatterv, names, h]
    · simp at hx

end Alltoall

theorem landsOn_own (hm : m.Valid) (hinc : i < m.nC ∨ m.Increasing) (hi : i ∈ m.positions) (hroot : args.RootIn m) :
    LandsOn m.peers (fun i => args.issue m d i) (m.ownComm i) i w ↔
      args.DeliveredBy m (m.HasBeside i) d (m.logical i) w := by
  cases args with
  | bcast count t root => exact bcast_landsOn_own hm hi hroot.1 hroot.2
  | scatter b root => exact scatter_landsOn_own hm hinc hi hroot.1 hroot.2
  | gather b root => exact gather_landsOn_own hm hinc hi hroot.1 hroot.2
  | allgather b => exact allgather_landsOn_own hm hinc hi
  | alltoall b =>
    simp only [issue_alltoall, DeliveredBy, delivers_alltoall]
    exact alltoallv_landsOn_own hm hinc hi
  | alltoallv v => exact alltoallv_landsOn_own hm hinc hi

/-- The code steps by the size of a received element where EMPI steps by the extent. -/
def ExtentIsSize : CollArgs → Prop
  | .alltoall b => b.recvtype.extent = b.recvtype.size
  | .alltoallv v => v.recvtype.extent = v.recvtype.size
  | _ => True

theorem landsAcross_iff (hm : m.Valid) (hinc : m.Increasing) (hge : m.nC ≤ i) (hlt : i < m.nC + m.nR)
    (hroot : args.RootIn m) (hext : args.ExtentIsSize) :
    args.LandsAcross m d i w ↔ args.DeliveredBy m (fun s => m.ctr s = -1) d (m.logical i) w := by
  cases args with
  | bcast count t root => exact bcast_landsAcross hm hge hlt hroot.2
  | scatter b root => exact scatter_landsAcross hm hinc hge hlt hroot.2
  | gather b root => exact gather_landsAcross hm hge hlt hroot.1 hroot.2
  | allgather b => exact allgather_landsAcross hm hge hlt
  | alltoall b =>
    simp only [LandsAcross, issue_alltoall, DeliveredBy, delivers_alltoall]
    exact alltoallv_landsAcross hm hinc hge hlt hext
  | alltoallv v => exact alltoallv_landsAcross hm hinc hge hlt hext

theorem compute_takes_nothing (args : CollArgs) (hi : i < m.nC) {x : CollOp} (hx : x ∈ args.issue m d i)
    (hcomm : x.comm ≠ .cmp) (p : Nat) : x.takes p = none := by
  have hge : ¬ m.nC ≤ i := by omega
  cases args with
  | bcast count t root =>
    rw [issue, bcastOps] at hx
    obtain ⟨arg, harg, rfl⟩ := mem_fromRootOps_compute hi (fun _ _ _ => rfl) hx hcomm
    simp [Exchange.bcast, harg]
  | scatter b root =>
    rw [issue, scatterOps] at hx
    obtain ⟨arg, harg, rfl⟩ := mem_fromRootOps_compute hi (fun _ _ _ => rfl) hx hcomm
    simp [scatterv, harg]
  | gather b root =>
    rw [issue, gatherOps, if_neg hge] at hx
    rcases List.mem_cons.mp hx with rfl | hx
    · exact absurd rfl hcomm
    · split_ifs at hx
      · rw [List.mem_singleton.mp hx]
        simp [gatherv, isRoot]
      · simp at hx
  | allgather b =>
    simp only [issue, allgatherOps, if_neg hge] at hx
    rcases List.mem_cons.mp hx with rfl | hx
    · exact absurd rfl hcomm
    · split_ifs at hx
      · obtain ⟨k, _, rfl⟩ := List.mem_map.mp hx
        simp [gatherv, isRoot]
      · simp at hx
  | alltoall b =>
    rw [issue_alltoall] at hx
    exact alltoallOps_takes_nothing hi hx hcomm p
  | alltoallv v => exact alltoallOps_takes_nothing hi hx hcomm p

theorem issue_world (args : CollArgs) (hge : m.nC ≤ i) : onComm (args.issue m d i) .world = [] := by
  cases args with
  | bcast count t root =>
    simp only [issue, bcastOps, fromRootOps, if_pos hge]
    split_ifs <;> simp [onComm]
  | scatter b root =>
    simp only [issue, scatterOps, fromRootOps, if_pos hge]
    split_ifs <;> simp [onComm]
  | gather b root =>
    simp only [issue, gatherOps, if_pos hge]
    split_ifs <;> simp [onComm]
  | allgather b =>
    simp only [issue, allgatherOps, if_pos hge]
    split_ifs <;> simp [onComm]
  | alltoall | alltoallv =>
    simp only [issue, alltoallOps, if_pos hge]
    split_ifs <;> simp [onComm]

theorem landings_compute (hm : m.Valid) (hroot : args.RootIn m) (h0 : 0 ≤ i) (hlt : i < m.nC) :
    w ∈ landings m.peers (fun i => args.issue m d i) i ↔ args.DeliveredBy m (fun _ => True) d i w := by
  have hown := landsOn_own (w := w) (d := d) hm (.inl hlt) (hm.rank_mem h0 hlt) hroot
  rw [logical_of_lt hlt, ownComm, if_pos hlt] at hown
  have hall : args.DeliveredBy m (m.HasBeside i) d i w ↔ args.DeliveredBy m (fun _ => True) d i w := by
    simp only [DeliveredBy, ProcMaps.HasBeside, hlt, true_or]
  rw [mem_landings_iff_landsOn, ← hall, ← hown]
  constructor
  · intro h
    obtain ⟨e, he⟩ := h
    by_cases hcmp : e = .cmp
    · exact hcmp ▸ he
    · exact absurd he (not_landsOn fun x hx hcomm => compute_takes_nothing args hlt hx (hcomm ▸ hcmp))
  · intro h
    exact ⟨_, h⟩

theorem landings_replica (hm : m.Valid) (hinc : m.Increasing) (hroot : args.RootIn m) (hext : args.ExtentIsSize)
    (hge : m.nC ≤ i) (hlt : i < m.nC + m.nR) :
    w ∈ landings m.peers (fun i => args.issue m d i) i ↔ args.DeliveredBy m (fun _ => True) d (m.logical i) w := by
  have hnc : ¬ i < m.nC := by omega
  have hown := landsOn_own (w := w) (d := d) hm (.inr hinc) (replica_mem_positions hm hge hlt) hroot
  rw [ownComm, if_neg hnc] at hown
  have hacross := landsAcross_iff (w := w) (d := d) hm hinc hge hlt hroot hext
  have hsplit : args.DeliveredBy m (fun _ => True) d (m.logical i) w ↔
      args.DeliveredBy m (m.HasBeside i) d (m.logical i) w ∨
        args.DeliveredBy m (fun s => m.ctr s = -1) d (m.logical i) w := by
    constructor
    · intro h
      obtain ⟨s, h0, hs, _, hw⟩ := h
      by_cases hnone : m.ctr s = -1
      · exact .inr ⟨s, h0, hs, hnone, hw⟩
      · exact .inl ⟨s, h0, hs, .inr hnone, hw⟩
    · intro h
      rcases h with ⟨s, h0, hs, _, hw⟩ | ⟨s, h0, hs, _, hw⟩
      · exact ⟨s, h0, hs, trivial, hw⟩
      · exact ⟨s, h0, hs, trivial, hw⟩
  rw [mem_landings_iff_landsOn, hsplit, ← hown, ← hacross]
  constructor
  · intro h
    obtain ⟨e, he⟩ := h
    cases e with
    | world => exact absurd he (not_landsOn_of_nil (issue_world args hge))
    | cmp =>
      obtain ⟨k, x, p, a, y, _, ha, _⟩ := he
      rw [peers, if_neg hnc] at ha
      simp at ha
    | rep => exact .inl he
    | cmpRep => exact .inr (.inl he)
    | cmpNoRep => exact .inr (.inr he)
  · intro h
    rcases h with h | h | h
    · exact ⟨_, h⟩
    · exact ⟨_, h⟩
    · exact ⟨_, h⟩

/-- The entries of the arrays that a call fills at the logical rank `l`. -/
def entries (l : Int) : CollArgs → List (Int → Segment)
  | .bcast .. => []
  | .scatter b _ => [fun c => ⟨b.sendcount, c * b.sendcount⟩]
  | .gather b _ | .allgather b => [fun c => ⟨b.recvcount, c * b.recvcount⟩]
  | .alltoall b => [fun c => ⟨b.sendcount, c * b.sendcount⟩, fun c => ⟨b.recvcount, c * b.recvcount⟩]
  | .alltoallv v =>
    [fun c => ⟨v.sendcounts l c, v.sdispls l c⟩, fun c => ⟨v.recvcounts l c, v.rdispls l c⟩]

/-- The entry at `r` of an array over the replicas is that of the logical rank of the replica `r`, and the
entry at `k` of an array over the compute processes without a replica is that of the `k`-th of them. -/
def SegmentsRight (m : ProcMaps) (args : CollArgs) : Prop :=
  ∀ i ∈ m.positions, ∀ entry ∈ args.entries (m.logical i), ∃ s, m.fillSegments entry = some s ∧
    (∀ r, 0 ≤ r → r < m.nR → s.reps.read r = some (some (entry (m.rtc r)))) ∧
    (m.nC > m.nR ∧ m.nR > 0 →
      ∀ (k : Nat) (c : Int), m.unreplicated[k]? = some c → s.inter.read k = some (some (entry c)))

/-- The call completes, and a replica receives the bytes of its compute process and no others. -/
def Mirrored (m : ProcMaps) (args : CollArgs) : Prop :=
  ∀ d : SendData, Matched m.peers (fun i => args.issue m d i) m.positions ∧ ∀ i ∈ m.positions, m.nC ≤ i → ∀ w,
      w ∈ landings m.peers (fun i => args.issue m d i) i ↔
        w ∈ landings m.peers (fun i => args.issue m d i) (m.logical i)

variable {t : CollType}

theorem segmentsRight_of_increasing (hm : m.Valid) (hinc : m.Increasing) (args : CollArgs) : args.SegmentsRight m := by
  intro i _ entry _
  obtain ⟨s, hs, hreps, hinter⟩ := hm.fillSegments_spec entry
  refine ⟨s, hs, ?_, ?_⟩
  · intro r h0 hlt
    have hr := hm.replicated_getElem?_iff.mpr hinc r.toNat (by omega)
    rw [Int.toNat_of_nonneg h0] at hr
    rw [hreps, CArray.read, if_pos h0, List.getElem?_map, hr, map_some]
  · intro hb k c hc
    rw [hinter hb, CArray.read_natCast, List.getElem?_map, hc, map_some]

theorem mirrored_of_increasing (hm : m.Valid) (hinc : m.Increasing) (hroot : args.RootIn m)
    (hext : args.ExtentIsSize) : args.Mirrored m := by
  intro d
  refine ⟨issue_matched hm args d, ?_⟩
  intro i hi hge w
  obtain ⟨h0, hlt⟩ := hm.logical_range hi
  rw [landings_replica hm hinc hroot hext hge (mem_positions.mp hi).2, landings_compute hm hroot h0 hlt]

theorem increasing_of_segmentsRight (hm : m.Valid) (h : args.SegmentsRight m) {l : Int} {entry : Int → Segment}
    (hl0 : 0 ≤ l) (hl : l < m.nC) (hentry : entry ∈ args.entries l) (hdispl : ∀ c, (entry c).displ = c) :
    m.Increasing := by
  rw [← hm.replicated_getElem?_iff]
  intro r hr
  have hpos := hm.rank_mem hl0 hl
  obtain ⟨s, hs, hright, _⟩ := h l hpos entry (by rwa [logical_of_lt hl])
  obtain ⟨s', hs', hreps, _⟩ := hm.fillSegments_spec entry
  rw [hs, some_inj] at hs'
  subst hs'
  have hread := hright r (by omega) (by omega)
  rw [hreps, CArray.read_natCast, List.getElem?_map, map_eq_some_iff] at hread
  obtain ⟨c, hc, heq⟩ := hread
  have hcr := congrArg Segment.displ (some.inj heq)
  rw [hdispl, hdispl] at hcr
  rw [hc, hcr]

/-- A call of each kind that moves one byte between any two ranks. -/
def oneByte (t : CollType) : CollArgs :=
  match t with
  | .scatter => .scatter ⟨1, .bytes 1, 1, .bytes 1, rfl⟩ 0
  | .gather => .gather ⟨1, .bytes 1, 1, .bytes 1, rfl⟩ 0
  | .alltoall => .alltoall ⟨1, .bytes 1, 1, .bytes 1, rfl⟩
  | .alltoallv =>
    .alltoallv ⟨.bytes 1, .bytes 1, fun _ _ => 1, fun _ c => c, fun _ _ => 1, fun _ c => c, fun _ _ => rfl⟩
  | _ => .allgather ⟨1, .bytes 1, 1, .bytes 1, rfl⟩

theorem oneByte_products (t : CollType) (h0 : 0 ≤ m.nC) : ∀ n ∈ (oneByte t).products m, 0 ≤ n ∧ n ≤ m.nC := by
  have hsum : packedDispl (fun _ => 1) m.nC = m.nC.toNat := by
    simp [packedDispl]
  cases t <;> simp [oneByte, products, Blocks.sent, Blocks.received, Datatype.bytes, hsum, mem_computes]
  all_goals omega

theorem oneByte_spec (ht : t ∈ [CollType.scatter, .gather, .allgather, .alltoall, .alltoallv])
    (hpos : 0 < m.nC) : (oneByte t).type = t ∧ (oneByte t).RootIn m ∧ (oneByte t).ExtentIsSize ∧
      ∃ entry ∈ (oneByte t).entries 0, ∀ c, (entry c).displ = c := by
  have hunit : ∀ c : Int, c * ((1 : Nat) : Int) = c := Int.mul_one
  simp only [List.mem_cons, List.not_mem_nil, or_false] at ht
  rcases ht with rfl | rfl | rfl | rfl | rfl
  · exact ⟨rfl, ⟨Int.le_refl 0, hpos⟩, trivial, _, List.mem_cons_self, hunit⟩
  · exact ⟨rfl, ⟨Int.le_refl 0, hpos⟩, trivial, _, List.mem_cons_self, hunit⟩
  · exact ⟨rfl, trivial, trivial, _, List.mem_cons_self, hunit⟩
  · exact ⟨rfl, trivial, rfl, _, List.mem_cons_self, hunit⟩
  · exact ⟨rfl, trivial, rfl, _, List.mem_cons_self, fun _ => rfl⟩

end CollArgs

end ParepMpi
