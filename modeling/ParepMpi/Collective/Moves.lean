import Mathlib.Algebra.BigOperators.Ring.List
import ParepMpi.Collective.Data
import ParepMpi.Messages.Routing

/-!
# What the operations of a collective move

Two facts about each collective: its operations complete, because the processes of a side all issue on the same
communicators and both sides equally often across, and what they write into the receive buffer of a process.
-/

namespace ParepMpi

open Exchange List Function RootArg

namespace ProcMaps

variable {m : ProcMaps} {i a c : Int} {e : EComm}

theorem mem_computes : c ∈ m.computes ↔ 0 ≤ c ∧ c < m.nC := by
  simp only [computes, mem_map, mem_range, Int.ofNat_eq_natCast]
  constructor
  · omega
  · intro ⟨h0, hlt⟩
    exact ⟨c.toNat, by omega, by omega⟩

theorem mem_replicas : c ∈ m.replicas ↔ m.nC ≤ c ∧ c < m.nC + m.nR := by
  simp only [replicas, mem_map, mem_range]
  constructor
  · omega
  · intro ⟨h0, hlt⟩
    exact ⟨(c - m.nC).toNat, by omega, by omega⟩

theorem computes_getElem? (h0 : 0 ≤ c) (hlt : c < m.nC) : m.computes[c.toNat]? = some c := by
  rw [computes, getElem?_map, getElem?_range (by omega), Option.map_some, Int.ofNat_eq_natCast, Int.toNat_of_nonneg h0]

theorem computes_idxOf (h0 : 0 ≤ c) (hlt : c < m.nC) : m.computes.idxOf c = c.toNat := by
  have hnodup : m.computes.Nodup := nodup_range.map fun _ _ => Int.ofNat.inj
  obtain ⟨hidx, hget⟩ := List.getElem?_eq_some_iff.mp (computes_getElem? h0 hlt)
  have hself := hnodup.idxOf_getElem c.toNat hidx
  rwa [hget] at hself

theorem replicated_subset (hc : c ∈ m.replicated) : c ∈ m.computes := mem_of_mem_filter hc

theorem mem_unreplicated : c ∈ m.unreplicated ↔ 0 ≤ c ∧ c < m.nC ∧ m.ctr c = -1 := by
  rw [unreplicated, mem_filter, mem_computes, decide_eq_true_eq, and_assoc]

theorem Valid.peers_mem (hm : m.Valid) (ha : a ∈ m.peers e i) : a ∈ m.positions := by
  have hC := hm.nC_nonneg
  have hR := hm.nR_nonneg
  have hcompute : a ∈ m.computes → a ∈ m.positions := fun h =>
    mem_positions.mpr (by have := mem_computes.mp h; omega)
  have hreplica : a ∈ m.replicas → a ∈ m.positions := fun h =>
    mem_positions.mpr (by have := mem_replicas.mp h; omega)
  cases e <;> simp only [peers] at ha
  case world => exact ha
  all_goals
    split_ifs at ha
    all_goals first
      | exact hcompute ha
      | exact hreplica ha
      | exact hcompute (mem_of_mem_filter ha)
      | simp at ha

theorem peers_symm (hi : i ∈ m.positions) (ha : a ∈ m.peers e i) : i ∈ m.peers e a := by
  obtain ⟨h0, hlt⟩ := mem_positions.mp hi
  cases e with
  | world => exact hi
  | cmp =>
    have hc : i < m.nC := by
      by_contra hge
      simp [peers, hge] at ha
    rw [peers, if_pos hc] at ha
    rw [peers, if_pos (mem_computes.mp ha).2]
    exact mem_computes.mpr ⟨h0, hc⟩
  | rep =>
    have hge : ¬ i < m.nC := by
      intro hc
      simp [peers, hc] at ha
    rw [peers, if_neg hge] at ha
    rw [peers, if_neg (by have := (mem_replicas.mp ha).1; omega)]
    exact mem_replicas.mpr ⟨by omega, hlt⟩
  | cmpRep =>
    rw [peers] at ha ⊢
    split_ifs at ha with hc
    · rw [if_neg (by have := (mem_replicas.mp ha).1; omega)]
      exact mem_computes.mpr ⟨h0, hc⟩
    · rw [if_pos (mem_computes.mp ha).2]
      exact mem_replicas.mpr ⟨by omega, hlt⟩
  | cmpNoRep =>
    rw [peers] at ha ⊢
    split_ifs at ha with hc hnone
    · rw [if_neg (by have := (mem_replicas.mp ha).1; omega)]
      exact mem_unreplicated.mpr ⟨h0, hc, hnone⟩
    · exact absurd ha not_mem_nil
    · obtain ⟨_, halt, hanone⟩ := mem_unreplicated.mp ha
      rw [if_pos halt, if_pos hanone]
      exact mem_replicas.mpr ⟨by omega, hlt⟩

theorem Valid.matched_of_counts (hm : m.Valid) {ops : Int → List CollOp} (k : EComm → Nat)
    (hC : ∀ i, 0 ≤ i → i < m.nC → ∀ e, e ≠ .rep → (e = .cmpRep ∨ e = .cmpNoRep → 0 < m.nR) →
      (e = .cmpNoRep → m.ctr i = -1) → ((ops i).map Op.comm).count e = k e)
    (hR : ∀ i, m.nC ≤ i → i < m.nC + m.nR → ∀ e, e ≠ .cmp → (e = .cmpNoRep → m.nR < m.nC) →
      ((ops i).map Op.comm).count e = k e) :
    Matched m.peers ops m.positions := by
  have hcount : ∀ i ∈ m.positions, ∀ e j, j ∈ m.peers e i → ((ops i).map Op.comm).count e = k e := by
    intro i hi e j hj
    obtain ⟨h0, hlt⟩ := mem_positions.mp hi
    by_cases hc : i < m.nC
    · apply hC i h0 hc e
      · rintro rfl
        simp [peers, hc] at hj
      · rintro (rfl | rfl) <;> simp only [peers, if_pos hc] at hj
        · have := mem_replicas.mp hj
          omega
        · split_ifs at hj
          · have := mem_replicas.mp hj
            omega
          · simp at hj
      · rintro rfl
        by_contra hnone
        simp [peers, hc, hnone] at hj
    · apply hR i (by omega) hlt e
      · rintro rfl
        simp [peers, hc] at hj
      · rintro rfl
        rw [peers, if_neg hc] at hj
        obtain ⟨hj0, hjlt, hnone⟩ := mem_unreplicated.mp hj
        exact hm.inverse.nR_lt_nC hj0 hjlt hnone
  intro i hi e j hj
  rw [onComm_length, onComm_length, hcount i hi e j hj, hcount j (hm.peers_mem hj) e i (peers_symm hi hj)]

theorem Valid.between_eq_false (hm : m.Valid) (hall : m.nR = 0 ∨ m.nR = m.nC) (hi : i ∈ m.positions) :
    m.between i = false := by
  obtain ⟨h0, hlt⟩ := mem_positions.mp hi
  unfold between
  split
  · exact decide_eq_false (by omega)
  · apply decide_eq_false
    intro ⟨hpos, hnone⟩
    have := hm.inverse.nR_lt_nC h0 (by omega) hnone
    omega

section FromRoot

variable {op : EComm → Option Int → RootArg → CollOp} {root : Int} {x : CollOp}

theorem mem_fromRootOps (hx : x ∈ m.fromRootOps root i op) : ∃ e me arg, x = op e me arg := by
  unfold fromRootOps at hx
  split_ifs at hx <;> simp only [mem_cons, not_mem_nil, or_false] at hx
  all_goals first
    | exact ⟨_, _, _, hx⟩
    | exact hx.elim (fun h => ⟨_, _, _, h⟩) fun h => ⟨_, _, _, h⟩

theorem fromRootOps_head (hi : i < m.nC) : (m.fromRootOps root i op).head? = some (op .cmp (some i) (.rank root)) := by
  rw [fromRootOps, if_neg (by omega), head?_cons]

theorem Valid.fromRootOps_matched (hm : m.Valid) (root : Int)
    (op : Int → EComm → Option Int → RootArg → CollOp) (hop : ∀ i e me arg, (op i e me arg).comm = e) :
    Matched m.peers (fun i => m.fromRootOps root i (op i)) m.positions := by
  apply hm.matched_of_counts fun
    | .cmp => 1
    | .rep => if m.ctr root = -1 then 0 else 1
    | .cmpRep => if m.ctr root = -1 then 1 else 0
    | _ => 0
  · intro i _ hlt e hne hacross _
    simp only [fromRootOps, if_neg (show ¬ m.nC ≤ i by omega)]
    cases e <;> split_ifs <;> simp_all
  · intro i hge _ e hne _
    simp only [fromRootOps]
    cases e <;> split_ifs <;> simp_all

variable {r : Region} {b : Blocks}

theorem bcastOps_lands_nothing (m : ProcMaps) (buf : Int → Int → Option UInt8) (r : Region) {dest : Option Region}
    (hdest : ∀ r' ∈ dest, r'.size = 0) (root i : Int) :
    landings m.peers (fun i => m.bcastOps (buf i) r dest root i) i = [] := by
  apply landings_eq_nil
  intro x hx p a _ r' hr
  obtain ⟨e, me, arg, rfl⟩ := mem_fromRootOps hx
  have htakes : dest = some r' := by
    simp only [bcast] at hr
    split_ifs at hr
    exact hr
  exact hdest r' htakes

theorem bcastOps_head (buf : Int → Option UInt8) (hi : i < m.nC) : (m.bcastOps buf r (some r) root i).head? =
      some (bcast EComm.cmp (some i) buf r (some r) (.rank root)) :=
  fromRootOps_head hi

theorem bcastOps_lands (buf : Int → Int → Option UInt8) (h0 : 0 ≤ root) (hroot : root < m.nC)
    (hi : i < m.nC) (hne : i ≠ root) (hpos : 0 < r.size) :
    (r.start + r.shape 0, buf root (r.start + r.shape 0)) ∈
      landings m.peers (fun i => m.bcastOps (buf i) r (some r) root i) i := by
  refine mem_landings_first (bcastOps_head (buf i) hi) (bcastOps_head (buf root) hroot) rfl (p := root.toNat) ?_ ?_
  · simp only [bcast, peers, if_pos hi, computes_getElem? h0 hroot]
  · apply mem_transfer.mpr
    refine ⟨r, 0, ?_, ?_, ?_, rfl⟩
    · simp [bcast, names, isRoot, h0, hne]
    · simp [bcast, isRoot, contents_length]
    · simp [bcast, isRoot, contents, getElem?_range hpos]

theorem Valid.bcastOps_alone (hm : m.Valid) (hone : m.nC = 1) (h0 : 0 ≤ root) (hroot : root < m.nC)
    (buf : Int → Int → Option UInt8) (hi : i ∈ m.positions) :
    landings m.peers (fun i => m.bcastOps (buf i) r (some r) root i) i = [] := by
  apply landings_eq_nil
  intro x hx p a _ r' hr
  obtain ⟨hi0, hilt⟩ := mem_positions.mp hi
  have hle := hm.inverse.nR_le_nC hm.nC_nonneg
  simp only [bcastOps, fromRootOps] at hx
  by_cases hc : m.nC ≤ i
  · have hne : m.ctr root ≠ -1 := by
      intro hnone
      have := hm.inverse.nR_lt_nC h0 hroot hnone
      omega
    have hself : m.ctr root = i - m.nC := by
      have := hm.inverse.ctr_bounds h0 hroot hne
      omega
    rw [if_pos hc, if_neg hne, mem_singleton] at hx
    simp [hx, bcast, isRoot, hself] at hr
  · have hself : i = root := by omega
    rw [if_neg hc] at hx
    rcases mem_cons.mp hx with rfl | hx
    · simp [bcast, isRoot, hself] at hr
    · split_ifs at hx
      · rw [mem_singleton.mp hx] at hr
        simp [bcast, names] at hr
      · rw [mem_singleton.mp hx] at hr
        simp [bcast, names] at hr
      · simp at hx

theorem scatterOps_lands (buf : Int → Int → Option UInt8) (h0 : 0 ≤ root) (hroot : root < m.nC) (hpos : 0 < b.sent) :
    ((b.rblock 0).start + (b.rblock 0).shape 0, buf root ((b.sblock root).start + (b.sblock root).shape 0)) ∈
      landings m.peers (fun i => m.scatterOps (buf i) b root i) root := by
  have hhead : (m.scatterOps (buf root) b root root).head? =
      some (scatterv EComm.cmp (some root) (buf root) (m.computes.map b.sblock) (b.rblock 0) (.rank root)) :=
    fromRootOps_head hroot
  refine mem_landings_first hhead hhead rfl (p := root.toNat) ?_ ?_
  · simp only [scatterv, peers, if_pos hroot, computes_getElem? h0 hroot]
  · rw [scatterv_comm, peers, if_pos hroot, computes_idxOf h0 hroot,
      mem_transfer_scatterv (computes_getElem? h0 hroot) b.agree (by simp [names, isRoot, h0])]
    refine ⟨by simp [names, h0], 0, ?_, rfl⟩
    have hpos' : 0 < (b.sblock root).size := hpos
    simp only [contents, getElem?_map, getElem?_range hpos', Option.map_some]

theorem scatterOps_freed {w : Int × Option UInt8}
    (hw : w ∈ landings m.peers (fun i => m.scatterOps Exchange.freed b root i) i) : w.2 = none := by
  apply landings_unreadable _ hw
  intro a _ _ y hy q v hv
  obtain ⟨e, me, arg, rfl⟩ := mem_fromRootOps hy
  by_cases harg : arg.isRoot me
  · simp only [scatterv, if_pos harg] at hv
    exact block_freed hv
  · simp [scatterv, harg] at hv

theorem scatterOps_empty (m : ProcMaps) (hzero : b.received = 0) (buf : Int → Int → Option UInt8)
    (root i : Int) : landings m.peers (fun i => m.scatterOps (buf i) b root i) i = [] := by
  apply landings_eq_nil
  intro x hx p a _ r hr
  obtain ⟨e, me, arg, rfl⟩ := mem_fromRootOps hx
  have htakes : b.rblock 0 = r := by
    simp only [scatterv] at hr
    split_ifs at hr
    exact Option.some.inj hr
  rw [← htakes]
  exact hzero

end FromRoot

theorem alltoallOps_agree {buf buf' : Int → Option UInt8} {sblock sblock' rblock rblock' : Int → Region}
    {across across' : Int → Region} (hb : m.between i = false)
    (hs : ∀ c ∈ m.computes, contents buf (sblock c) = contents buf' (sblock' c))
    (hr : ∀ c ∈ m.computes, rblock c = rblock' c ∨ (rblock c).size = 0 ∧ (rblock' c).size = 0) :
    Forall₂ Agree (m.alltoallOps buf sblock rblock across i) (m.alltoallOps buf' sblock' rblock' across' i) := by
  have hagree : ∀ (e : EComm) (l : List Int), (∀ c ∈ l, c ∈ m.computes) →
      Agree (alltoallv e buf (l.map sblock) (l.map rblock)) (alltoallv e buf' (l.map sblock') (l.map rblock')) :=
    fun e l hl => ⟨rfl, block_congr fun c hc => hs c (hl c hc), takes_congr fun c hc => hr c (hl c hc)⟩
  unfold alltoallOps
  rw [hb]
  split
  · exact .cons (hagree .rep m.replicated fun c => replicated_subset) .nil
  · exact .cons (hagree .cmp m.computes fun c hc => hc) .nil

/-- The operations of a gather complete when the compute processes without a replica issue theirs where the
replicas do. -/
theorem Valid.gatherOps_matched (hm : m.Valid) (b : Blocks) (root : Int) (buf : Int → Int → Option UInt8)
    (across : Int → CollOp) (hacross : ∀ i, (across i).comm = .cmpNoRep) :
    Matched m.peers (fun i => m.gatherOps (buf i) b root (across i) i) m.positions := by
  apply hm.matched_of_counts fun
    | .cmp => 1
    | .rep | .cmpNoRep => if m.ctr root = -1 then 0 else 1
    | _ => 0
  · intro i _ hlt e hne _ hnone
    simp only [gatherOps, if_neg (show ¬ m.nC ≤ i by omega)]
    cases e <;> split_ifs <;> simp_all
  · intro i hge hlt e hne hfew
    simp only [gatherOps]
    cases e <;> split_ifs <;> simp_all
    omega

theorem Valid.allgatherOps_matched (hm : m.Valid) (b : Blocks) (buf : Int → Int → Option UInt8) :
    Matched m.peers (fun i => m.allgatherOps (buf i) b i) m.positions := by
  apply hm.matched_of_counts fun
    | .cmp | .rep => 1
    | .cmpNoRep => m.nR.toNat
    | _ => 0
  · intro i _ hlt e hne hpos hnone
    simp only [allgatherOps, between, if_neg (show ¬ m.nC ≤ i by omega)]
    cases e <;> split_ifs <;> simp_all [comp_def, count_replicate]
  · intro i hge hlt e hne hfew
    simp only [allgatherOps, between, if_pos hge]
    cases e <;> split_ifs <;> simp_all [comp_def, count_replicate]
    omega

theorem Valid.alltoallOps_matched (hm : m.Valid) (buf : Int → Int → Option UInt8)
    (sblock rblock across : Int → Int → Region) :
    Matched m.peers (fun i => m.alltoallOps (buf i) (sblock i) (rblock i) (across i) i) m.positions := by
  apply hm.matched_of_counts fun
    | .cmp | .rep => 1
    | .cmpNoRep => (m.nC - m.nR).toNat
    | _ => 0
  · intro i _ hlt e hne hpos hnone
    simp only [alltoallOps, between, if_neg (show ¬ m.nC ≤ i by omega)]
    cases e <;> split_ifs <;> simp_all [comp_def, count_replicate]
  · intro i hge hlt e hne hfew
    simp only [alltoallOps, between, if_pos hge]
    cases e <;> split_ifs <;> simp_all [comp_def, count_replicate]
    omega

theorem Valid.mem_landings_alltoallOps (hm : m.Valid) (hall : m.nR = 0 ∨ m.nR = m.nC)
    (buf : Int → Int → Option UInt8) (sblock rblock across : Int → Int → Region)
    {c : Int} (hc0 : 0 ≤ c) (hc : c < m.nC) (hsize : ∀ a, a < m.nC → (sblock a c).size = (rblock c a).size)
    (w : Int × Option UInt8) :
    w ∈ landings m.peers (fun i => m.alltoallOps (buf i) (sblock i) (rblock i) (across i) i) c ↔
      ∃ a, 0 ≤ a ∧ a < m.nC ∧ Written (rblock c a) (contents (buf a) (sblock a c)) w := by
  have hops : ∀ a, 0 ≤ a → a < m.nC → m.alltoallOps (buf a) (sblock a) (rblock a) (across a) a =
      [alltoallv .cmp (buf a) (m.computes.map (sblock a)) (m.computes.map (rblock a))] := by
    intro a ha0 ha
    simp only [alltoallOps, hm.between_eq_false hall (hm.rank_mem ha0 ha), if_neg (show ¬ m.nC ≤ a by omega)]
    rfl
  have hpeers : ∀ a, a < m.nC → m.peers .cmp a = m.computes := fun a ha => if_pos ha
  rw [mem_landings_single m.peers (fun i => m.alltoallOps (buf i) (sblock i) (rblock i) (across i) i)
    (hops c hc0 hc) (y := fun a => alltoallv .cmp (buf a) (m.computes.map (sblock a)) (m.computes.map (rblock a)))]
  · rw [alltoallv_comm, hpeers c hc]
    constructor
    · intro hex
      obtain ⟨p, a, ha, hw⟩ := hex
      obtain ⟨ha0, halt⟩ := mem_computes.mp (mem_of_getElem? ha)
      rw [hpeers a halt, computes_idxOf hc0 hc,
        mem_transfer_alltoallv ha (computes_getElem? hc0 hc) (hsize a halt)] at hw
      exact ⟨a, ha0, halt, hw⟩
    · intro hex
      obtain ⟨a, ha0, halt, hw⟩ := hex
      refine ⟨a.toNat, a, computes_getElem? ha0 halt, ?_⟩
      rwa [hpeers a halt, computes_idxOf hc0 hc,
        mem_transfer_alltoallv (computes_getElem? ha0 halt) (computes_getElem? hc0 hc) (hsize a halt)]
  · intro a ha
    rw [alltoallv_comm, hpeers c hc] at ha
    obtain ⟨ha0, halt⟩ := mem_computes.mp ha
    exact ⟨hops a ha0 halt, rfl⟩

end ProcMaps

theorem Blocks.sblock_of_dense {b : Blocks} (h : b.sendtype.Dense) (c : Int) :
    b.sblock c = .bytes (c * b.sent) b.sent := by
  rw [sblock, h.run, h.extent, sent, Nat.cast_mul, Int.mul_assoc]

namespace VBlocks

variable (v : VBlocks) (d : SendData) {m : ProcMaps} {l c : Int}

theorem packedDispl_mul (counts : Int → Nat) (c : Int) (size : Nat) :
    packedDispl counts c * size = ((range c.toNat).map fun k : Nat => counts k * size).sum := by
  rw [packedDispl, sum_map_mul_right]

theorem contents_logged (hdense : v.sendtype.Dense) (hc : c ∈ m.computes) :
    contents (v.logged m d l) (v.packedSblock l c) = contents (d.app l) (v.sblock l c) := by
  obtain ⟨h0, hlt⟩ := ProcMaps.mem_computes.mp hc
  have hblock := contents_filled (fun k : Nat => contents (d.app l)
    (.bytes (v.sdispls l k * v.sendtype.size) (v.sendcounts l k * v.sendtype.size)))
    (show c.toNat < m.nC.toNat by omega)
  simp only [length_flatMap, contents_length, Region.bytes, Int.toNat_of_nonneg h0] at hblock
  rw [packedSblock, sblock, hdense.run, hdense.run, hdense.extent, logged, ProcMaps.computes, flatMap_map]
  have hdispl := packedDispl_mul (v.sendcounts l) c v.sendtype.size
  simp only [← Nat.cast_mul, hdispl]
  exact hblock

end VBlocks

end ParepMpi
