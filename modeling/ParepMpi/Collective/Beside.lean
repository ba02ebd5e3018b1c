import ParepMpi.Collective.Segments

/-!
# What a process receives on its own side

`CollArgs.delivers` says what a collective is for: which bytes one logical rank gives to another and where they go.
-/

namespace ParepMpi

open Exchange ProcMaps

namespace CollArgs

/-- What the rank `a` gives to the rank `l`: where it goes, and the bytes. -/
def delivers (d : SendData) (l a : Int) : CollArgs → Option (Region × List (Option UInt8))
  | .bcast count t root =>
    if a = root ∧ l ≠ root then some (t.run 0 count, contents (d.app a) (t.run 0 count)) else none
  | .scatter b root => if a = root then some (b.rblock 0, contents (d.app a) (b.sblock l)) else none
  | .gather b root => if l = root then some (b.rblock a, contents (d.app a) (b.sblock 0)) else none
  | .allgather b => some (b.rblock a, contents (d.app a) (b.sblock 0))
  | .alltoall b => some (b.rblock a, contents (d.app a) (b.sblock l))
  | .alltoallv v => some (v.rblock l a, contents (d.app a) (v.sblock a l))

/-- The byte is among those that the ranks in `S` give to the rank `l`. -/
def DeliveredBy (m : ProcMaps) (S : Int → Prop) (args : CollArgs) (d : SendData) (l : Int)
    (w : Int × Option UInt8) : Prop :=
  ∃ a, 0 ≤ a ∧ a < m.nC ∧ S a ∧ ∃ r v, args.delivers d l a = some (r, v) ∧ Written r v w

end CollArgs

namespace ProcMaps

variable {m : ProcMaps} {i a s root : Int} {p : Nat}

/-- The communicator of the compute processes, or that of the replicas. -/
def ownComm (m : ProcMaps) (i : Int) : EComm := if i < m.nC then .cmp else .rep

def rankBeside (m : ProcMaps) (i s : Int) : Int := if i < m.nC then s else m.ctr s

/-- The compute ranks in the order of the arrays for the communicator of `i`. -/
def arrayRanks (m : ProcMaps) (i : Int) : List Int := if i < m.nC then m.computes else m.replicated

/-- Whether the logical rank `s` has a copy in the communicator of `i`. -/
def HasBeside (m : ProcMaps) (i s : Int) : Prop := i < m.nC ∨ m.ctr s ≠ -1

theorem getElem?_computes : m.computes[p]? = some a ↔ 0 ≤ a ∧ a < m.nC ∧ a = p := by
  constructor
  · intro h
    obtain ⟨h0, hlt⟩ := mem_computes.mp (List.mem_of_getElem? h)
    obtain ⟨hp, heq⟩ := List.getElem?_eq_some_iff.mp h
    refine ⟨h0, hlt, ?_⟩
    simpa [computes] using heq.symm
  · intro h
    obtain ⟨h0, hlt, heq⟩ := h
    rw [show p = a.toNat by omega]
    exact computes_getElem? h0 hlt

theorem getElem?_replicas : m.replicas[p]? = some a ↔ m.nC ≤ a ∧ a < m.nC + m.nR ∧ a = m.nC + p := by
  rw [replicas, List.getElem?_map, Option.map_eq_some_iff]
  constructor
  · intro h
    obtain ⟨k, hk, rfl⟩ := h
    obtain ⟨hlt, heq⟩ := List.getElem?_eq_some_iff.mp hk
    rw [List.length_range] at hlt
    rw [List.getElem_range] at heq
    omega
  · intro h
    obtain ⟨hge, hlt, heq⟩ := h
    exact ⟨p, List.getElem?_range (by omega), heq.symm⟩

theorem idxOf_replicas (hge : m.nC ≤ i) (hlt : i < m.nC + m.nR) : m.replicas.idxOf i = (i - m.nC).toNat := by
  have hnodup : m.replicas.Nodup := List.nodup_range.map fun a b h => by
    simp only [add_right_inj, Nat.cast_inj] at h
    exact h
  obtain ⟨hidx, hget⟩ := List.getElem?_eq_some_iff.mp
    (getElem?_replicas.mpr ⟨hge, hlt, show i = m.nC + ((i - m.nC).toNat : Nat) by omega⟩)
  have hself := hnodup.idxOf_getElem _ hidx
  rwa [hget] at hself

theorem idxOf_unreplicated (h : m.unreplicated[p]? = some a) : m.unreplicated.idxOf a = p := by
  obtain ⟨hidx, hget⟩ := List.getElem?_eq_some_iff.mp h
  have hself := m.unreplicated_nodup.idxOf_getElem _ hidx
  rwa [hget] at hself

theorem Valid.replicated_at (hm : m.Valid) (hinc : m.Increasing) (hge : m.nC ≤ i) (hlt : i < m.nC + m.nR) :
    m.replicated[(i - m.nC).toNat]? = some (m.logical i) := by
  have h := hm.replicated_getElem?_iff.mpr hinc (i - m.nC).toNat (by omega)
  rwa [Int.toNat_of_nonneg (by omega), ← logical_of_ge hge] at h

section Beside

variable (hm : m.Valid) (hinc : i < m.nC ∨ m.Increasing) (hi : i ∈ m.positions)

include hm hi

theorem peers_own_iff : (m.peers (m.ownComm i) i)[p]? = some a ↔
    a ∈ m.positions ∧ (a < m.nC ↔ i < m.nC) ∧ a = (if i < m.nC then 0 else m.nC) + p := by
  obtain ⟨h0, hlt⟩ := mem_positions.mp hi
  have hR := hm.nR_nonneg
  have hC := hm.nC_nonneg
  by_cases hc : i < m.nC
  · simp only [ownComm, hc, if_true, peers, getElem?_computes, mem_positions, iff_true]
    omega
  · simp only [ownComm, hc, if_false, peers, getElem?_replicas, mem_positions, iff_false]
    omega

theorem peers_own_idxOf (ha : (m.peers (m.ownComm i) i)[p]? = some a) :
    (m.peers (m.ownComm a) a)[(m.peers (m.ownComm a) a).idxOf i]? = some i := by
  have hside := ((peers_own_iff hm hi).mp ha).2.1
  have hmem := peers_symm hi (List.mem_of_getElem? ha)
  rw [show m.ownComm i = m.ownComm a by simp only [ownComm, hside]] at hmem
  rw [List.getElem?_eq_getElem (List.idxOf_lt_length_of_mem hmem), List.getElem_idxOf]

theorem exists_beside {Q : Int → Prop} :
    (∃ (p : Nat) (a : Int), (m.peers (m.ownComm i) i)[p]? = some a ∧ Q (m.logical a)) ↔
      ∃ s, 0 ≤ s ∧ s < m.nC ∧ m.HasBeside i s ∧ Q s := by
  obtain ⟨h0, hlt⟩ := mem_positions.mp hi
  constructor
  · intro h
    obtain ⟨p, a, ha, hQ⟩ := h
    obtain ⟨hpos, hside, _⟩ := (peers_own_iff hm hi).mp ha
    obtain ⟨hl0, hllt⟩ := hm.logical_range hpos
    refine ⟨m.logical a, hl0, hllt, ?_, hQ⟩
    by_cases hc : i < m.nC
    · exact .inl hc
    · exact .inr (hm.ctr_logical hpos (by omega)).2
  · intro h
    obtain ⟨s, hs0, hs, hcopy, hQ⟩ := h
    by_cases hc : i < m.nC
    · refine ⟨s.toNat, s, (peers_own_iff hm hi).mpr ⟨hm.rank_mem hs0 hs, by omega, ?_⟩, ?_⟩
      · rw [if_pos hc]
        omega
      · rwa [logical_of_lt hs]
    · have hne := hcopy.resolve_left hc
      obtain ⟨hpos, hge⟩ := hm.replica_mem hs0 hs hne
      refine ⟨(m.ctr s).toNat, m.nC + m.ctr s, (peers_own_iff hm hi).mpr ⟨hpos, by omega, ?_⟩, ?_⟩
      · rw [if_neg hc]
        omega
      · rwa [hm.logical_replica hs0 hs hne]

include hinc

theorem arrayRanks_at (ha : (m.peers (m.ownComm i) i)[p]? = some a) : (m.arrayRanks i)[p]? = some (m.logical a) := by
  obtain ⟨hpos, hside, heq⟩ := (peers_own_iff hm hi).mp ha
  obtain ⟨h0, hlt⟩ := mem_positions.mp hpos
  by_cases hc : i < m.nC
  · rw [if_pos hc] at heq
    rw [arrayRanks, if_pos hc, logical_of_lt (hside.mpr hc), getElem?_computes]
    omega
  · rw [if_neg hc] at heq
    rw [arrayRanks, if_neg hc, ← hm.replicated_at (hinc.resolve_left hc) (by omega) hlt]
    congr 1
    omega

theorem arrayRanks_idxOf (ha : (m.peers (m.ownComm i) i)[p]? = some a) :
    (m.arrayRanks i)[(m.peers (m.ownComm i) a).idxOf i]? = some (m.logical i) := by
  obtain ⟨hpos, hside, heq⟩ := (peers_own_iff hm hi).mp ha
  obtain ⟨h0, hlt⟩ := mem_positions.mp hi
  by_cases hc : i < m.nC
  · simp only [arrayRanks, ownComm, hc, if_true, peers, hside.mpr hc, computes_idxOf h0 hc, logical_of_lt hc]
    exact computes_getElem? h0 hc
  · simp only [arrayRanks, ownComm, hc, if_false, peers, hside, idxOf_replicas (show m.nC ≤ i by omega) hlt]
    exact hm.replicated_at (hinc.resolve_left hc) (by omega) hlt

end Beside

section Congr

variable (h : a < m.nC ↔ i < m.nC)

include h

theorem ownComm_congr : m.ownComm a = m.ownComm i := by
  simp only [ownComm, h]

theorem rankBeside_congr : m.rankBeside a s = m.rankBeside i s := by
  simp only [rankBeside, h]

theorem arrayRanks_congr : m.arrayRanks a = m.arrayRanks i := by
  simp only [arrayRanks, h]

theorem HasBeside.congr (hs : m.HasBeside i s) : m.HasBeside a s := hs.imp_left h.mpr

end Congr

theorem arrayRanks_eq (m : ProcMaps) (i : Int) :
    (if m.ownComm i = .cmp then m.computes else m.replicated) = m.arrayRanks i := by
  by_cases hc : i < m.nC <;> simp [ownComm, arrayRanks, hc]

section Root

variable (hm : m.Valid) (hr0 : 0 ≤ root) (hroot : root < m.nC) (hcopy : m.HasBeside i root)

include hm hr0 hroot hcopy

theorem rankBeside_eq_iff (ha : a ∈ m.positions) (hside : a < m.nC ↔ i < m.nC) :
    m.rankBeside i root = (if a < m.nC then a else a - m.nC) ↔ m.logical a = root := by
  obtain ⟨h0, hlt⟩ := mem_positions.mp ha
  rw [hm.logical_eq_iff ha hr0 hroot]
  by_cases hc : i < m.nC
  · have hb := hm.inverse.ctr_range hr0 hroot
    simp only [rankBeside, hside, hc, if_true]
    omega
  · have hb := hm.inverse.ctr_bounds hr0 hroot (hcopy.resolve_left hc)
    simp only [rankBeside, hside, hc, if_false]
    omega

theorem rank_isRoot_iff (ha : a ∈ m.positions) (hside : a < m.nC ↔ i < m.nC) :
    (RootArg.rank (m.rankBeside i root)).isRoot (some (if a < m.nC then a else a - m.nC)) =
      decide (m.logical a = root) := by
  rw [RootArg.isRoot, beq_eq_decide, decide_eq_decide, Option.some_inj, eq_comm,
    rankBeside_eq_iff hm hr0 hroot hcopy ha hside]

theorem rank_names_iff (hi : i ∈ m.positions) (ha : (m.peers (m.ownComm i) i)[p]? = some a) :
    (RootArg.rank (m.rankBeside i root)).names p = decide (m.logical a = root) := by
  obtain ⟨hpos, hside, heq⟩ := (peers_own_iff hm hi).mp ha
  have hp : (p : Int) = if a < m.nC then a else a - m.nC := by
    simp only [hside]
    split_ifs at heq ⊢ <;> omega
  rw [RootArg.names_rank, hp, decide_eq_decide, rankBeside_eq_iff hm hr0 hroot hcopy hpos hside]

end Root

section Own

variable {op : EComm → Option Int → RootArg → CollOp} {b : Blocks} {buf : Int → Option UInt8}
  {sblock rblock across : Int → Region} {acrossOp : CollOp}

theorem fromRootOps_own (hop : ∀ e me arg, (op e me arg).comm = e) (hcopy : m.HasBeside i root) :
    onComm (m.fromRootOps root i op) (m.ownComm i) =
      [op (m.ownComm i) (some (if i < m.nC then i else i - m.nC)) (.rank (m.rankBeside i root))] := by
  by_cases hc : i < m.nC
  · rw [fromRootOps, if_neg (show ¬ m.nC ≤ i by omega)]
    simp only [ownComm, rankBeside, hc, if_true]
    split_ifs <;> simp [onComm, hop]
  · have hne := hcopy.resolve_left hc
    rw [fromRootOps, if_pos (show m.nC ≤ i by omega), if_neg hne]
    simp [onComm, hop, ownComm, rankBeside, hc]

theorem fromRootOps_own_of_none (hop : ∀ e me arg, (op e me arg).comm = e) (hcopy : ¬ m.HasBeside i root) :
    onComm (m.fromRootOps root i op) (m.ownComm i) = [] := by
  obtain ⟨hc, hnone⟩ := not_or.mp hcopy
  rw [fromRootOps, if_pos (show m.nC ≤ i by omega), if_pos (not_not.mp hnone)]
  simp [onComm, hop, ownComm, hc]

theorem gatherOps_own (hacross : acrossOp.comm = .cmpNoRep) (hcopy : m.HasBeside i root) :
    onComm (m.gatherOps buf b root acrossOp i) (m.ownComm i) =
      [gatherv (m.ownComm i) (some (if i < m.nC then i else i - m.nC)) buf (b.sblock 0)
        ((m.arrayRanks i).map b.rblock) (.rank (m.rankBeside i root))] := by
  by_cases hc : i < m.nC
  · rw [gatherOps, if_neg (show ¬ m.nC ≤ i by omega)]
    simp only [ownComm, rankBeside, arrayRanks, hc, if_true]
    split_ifs <;> simp [onComm, hacross]
  · have hne := hcopy.resolve_left hc
    rw [gatherOps, if_pos (show m.nC ≤ i by omega), if_pos hne]
    simp only [ownComm, rankBeside, arrayRanks, hc, if_false]
    split_ifs <;> simp [onComm]

theorem gatherOps_own_of_none (hcopy : ¬ m.HasBeside i root) :
    onComm (m.gatherOps buf b root acrossOp i) (m.ownComm i) = [] := by
  obtain ⟨hc, hnone⟩ := not_or.mp hcopy
  rw [gatherOps, if_pos (show m.nC ≤ i by omega), if_neg hnone]
  rfl

theorem allgatherOps_own (m : ProcMaps) (buf : Int → Option UInt8) (b : Blocks) (i : Int) :
    onComm (m.allgatherOps buf b i) (m.ownComm i) =
      [allgatherv (m.ownComm i) buf (b.sblock 0) ((m.arrayRanks i).map b.rblock)] := by
  by_cases hc : i < m.nC
  · simp only [allgatherOps, ownComm, arrayRanks, hc, if_true, if_neg (show ¬ m.nC ≤ i by omega)]
    split_ifs <;> simp [onComm]
  · simp only [allgatherOps, ownComm, arrayRanks, hc, if_false, if_pos (show m.nC ≤ i by omega)]
    split_ifs <;> simp [onComm]

theorem alltoallOps_own (m : ProcMaps) (buf : Int → Option UInt8) (sblock rblock across : Int → Region) (i : Int) :
    onComm (m.alltoallOps buf sblock rblock across i) (m.ownComm i) =
      [Exchange.alltoallv (m.ownComm i) buf ((m.arrayRanks i).map sblock) ((m.arrayRanks i).map rblock)] := by
  by_cases hc : i < m.nC
  · simp only [alltoallOps, ownComm, arrayRanks, hc, if_true, if_neg (show ¬ m.nC ≤ i by omega)]
    split_ifs <;> simp [onComm]
  · simp only [alltoallOps, ownComm, arrayRanks, hc, if_false, if_pos (show m.nC ≤ i by omega)]
    split_ifs <;> simp [onComm]

end Own

end ProcMaps

namespace CollArgs

variable {m : ProcMaps} {args : CollArgs} {d : SendData} {i root : Int} {w : Int × Option UInt8} {b : Blocks}

theorem landsOn_own_of (hm : m.Valid) (hi : i ∈ m.positions) {u : Int → CollOp}
    (hu : ∀ a, (a < m.nC ↔ i < m.nC) → onComm (args.issue m d a) (m.ownComm i) = [u a])
    (htransfer : ∀ p a, (m.peers (m.ownComm i) i)[p]? = some a →
      (w ∈ transfer (u i) (u a) p ((m.peers (m.ownComm i) a).idxOf i) ↔
        ∃ r v, args.delivers d (m.logical i) (m.logical a) = some (r, v) ∧ Written r v w)) :
    LandsOn m.peers (fun i => args.issue m d i) (m.ownComm i) i w ↔
      args.DeliveredBy m (m.HasBeside i) d (m.logical i) w := by
  have hpeers : ∀ a ∈ m.peers (m.ownComm i) i, onComm (args.issue m d a) (m.ownComm i) = [u a] := by
    intro a ha
    obtain ⟨p, hp⟩ := List.mem_iff_getElem?.mp ha
    exact hu a ((peers_own_iff hm hi).mp hp).2.1
  rw [landsOn_single m.peers (fun i => args.issue m d i) (hu i Iff.rfl) hpeers]
  refine Iff.trans ?_ (exists_beside hm hi)
  apply exists_congr
  intro p
  apply exists_congr
  intro a
  exact and_congr_right (htransfer p a)

theorem not_landsOn_of_nil {e : EComm} (h : onComm (args.issue m d i) e = []) :
    ¬ LandsOn m.peers (fun i => args.issue m d i) e i w := by
  intro hw
  obtain ⟨k, x, p, a, y, hx, _⟩ := hw
  simp [h] at hx

section Own

variable (hm : m.Valid) (hinc : i < m.nC ∨ m.Increasing) (hi : i ∈ m.positions)

include hm hi

theorem landsOn_own_rooted {k : Int} {u : Int → CollOp}
    (hnil : ¬ m.HasBeside i k → onComm (args.issue m d i) (m.ownComm i) = [])
    (hdel : ∀ s r v, m.HasBeside i s → args.delivers d (m.logical i) s = some (r, v) → m.HasBeside i k)
    (hu : m.HasBeside i k → ∀ a, (a < m.nC ↔ i < m.nC) → onComm (args.issue m d a) (m.ownComm i) = [u a])
    (htransfer : m.HasBeside i k → ∀ p a, (m.peers (m.ownComm i) i)[p]? = some a →
      (w ∈ transfer (u i) (u a) p ((m.peers (m.ownComm i) a).idxOf i) ↔
        ∃ r v, args.delivers d (m.logical i) (m.logical a) = some (r, v) ∧ Written r v w)) :
    LandsOn m.peers (fun i => args.issue m d i) (m.ownComm i) i w ↔
      args.DeliveredBy m (m.HasBeside i) d (m.logical i) w := by
  by_cases hcopy : m.HasBeside i k
  · exact landsOn_own_of hm hi (hu hcopy) (htransfer hcopy)
  · refine iff_of_false (not_landsOn_of_nil (hnil hcopy)) ?_
    intro h
    obtain ⟨s, _, _, hs, r, v, hrv, _⟩ := h
    exact hcopy (hdel s r v hs hrv)

theorem names_eq_isRoot (hr0 : 0 ≤ root) (hr : root < m.nC) (hcopy : m.HasBeside i root) {p : Nat} {a : Int}
    (ha : (m.peers (m.ownComm i) i)[p]? = some a) :
    (RootArg.rank (m.rankBeside i root)).names p =
      (RootArg.rank (m.rankBeside i root)).isRoot (some (if a < m.nC then a else a - m.nC)) := by
  obtain ⟨hpos, hside, _⟩ := (peers_own_iff hm hi).mp ha
  rw [rank_names_iff hm hr0 hr hcopy hi ha, rank_isRoot_iff hm hr0 hr hcopy hpos hside]

theorem bcast_landsOn_own {count : Nat} {t : Datatype} (hr0 : 0 ≤ root) (hr : root < m.nC) :
    LandsOn m.peers (fun i => (bcast count t root).issue m d i) (m.ownComm i) i w ↔
      (bcast count t root).DeliveredBy m (m.HasBeside i) d (m.logical i) w := by
  apply landsOn_own_rooted (k := root) hm hi (u := fun a => Exchange.bcast (m.ownComm i)
    (some (if a < m.nC then a else a - m.nC)) (d.app (m.logical a)) (t.run 0 count) (some (t.run 0 count))
    (.rank (m.rankBeside i root)))
  · intro hcopy
    rw [issue, bcastOps, fromRootOps_own_of_none (fun _ _ _ => rfl) hcopy]
  · intro s r v hs hrv
    have hsroot : s = root ∧ m.logical i ≠ root := by
      by_contra hne
      simp [delivers, hne] at hrv
    exact hsroot.1 ▸ hs
  · intro hcopy a ha
    rw [issue, bcastOps, ← ownComm_congr ha, fromRootOps_own (fun _ _ _ => rfl) (hcopy.congr ha), rankBeside_congr ha]
  · intro hcopy p a ha
    rw [mem_transfer_bcast (names_eq_isRoot hm hi hr0 hr hcopy ha),
      rank_names_iff hm hr0 hr hcopy hi ha, rank_isRoot_iff hm hr0 hr hcopy hi Iff.rfl]
    simp [delivers]

include hinc

theorem scatter_landsOn_own (hr0 : 0 ≤ root) (hr : root < m.nC) :
    LandsOn m.peers (fun i => (scatter b root).issue m d i) (m.ownComm i) i w ↔
      (scatter b root).DeliveredBy m (m.HasBeside i) d (m.logical i) w := by
  apply landsOn_own_rooted (k := root) hm hi (u := fun a => scatterv (m.ownComm i)
    (some (if a < m.nC then a else a - m.nC)) (d.app (m.logical a))
    ((m.arrayRanks i).map b.sblock) (b.rblock 0) (.rank (m.rankBeside i root)))
  · intro hcopy
    rw [issue, scatterOps, fromRootOps_own_of_none (fun _ _ _ => rfl) hcopy]
  · intro s r v hs hrv
    have hsroot : s = root := by
      by_contra hne
      simp [delivers, hne] at hrv
    exact hsroot ▸ hs
  · intro hcopy a ha
    rw [issue, scatterOps, ← ownComm_congr ha, fromRootOps_own (fun _ _ _ => rfl) (hcopy.congr ha), rankBeside_congr ha,
      arrayRanks_eq, arrayRanks_congr ha]
  · intro hcopy p a ha
    rw [mem_transfer_scatterv (arrayRanks_idxOf hm hinc hi ha) b.agree
      (names_eq_isRoot hm hi hr0 hr hcopy ha), rank_names_iff hm hr0 hr hcopy hi ha]
    simp [delivers]

theorem gather_landsOn_own (hr0 : 0 ≤ root) (hr : root < m.nC) :
    LandsOn m.peers (fun i => (gather b root).issue m d i) (m.ownComm i) i w ↔
      (gather b root).DeliveredBy m (m.HasBeside i) d (m.logical i) w := by
  apply landsOn_own_rooted (k := root) hm hi (u := fun a => gatherv (m.ownComm i)
    (some (if a < m.nC then a else a - m.nC)) (d.app (m.logical a)) (b.sblock 0)
    ((m.arrayRanks i).map b.rblock) (.rank (m.rankBeside i root)))
  · exact gatherOps_own_of_none
  · intro s r v _ hrv
    have hlroot : m.logical i = root := by
      by_contra hne
      simp [delivers, hne] at hrv
    rw [← hlroot]
    exact (lt_or_ge i m.nC).imp_right fun hge => (hm.ctr_logical hi hge).2
  · intro hcopy a ha
    rw [issue, ← ownComm_congr ha, gatherOps_own rfl (hcopy.congr ha), rankBeside_congr ha, arrayRanks_congr ha]
  · intro hcopy p a ha
    obtain ⟨hpos, hside, _⟩ := (peers_own_iff hm hi).mp ha
    have hself := rank_isRoot_iff hm hr0 hr hcopy hi Iff.rfl
    have hnames := rank_names_iff hm hr0 hr (hcopy.congr hside) hpos (peers_own_idxOf hm hi ha)
    rw [rankBeside_congr hside, ownComm_congr hside] at hnames
    rw [mem_transfer_gatherv (arrayRanks_at hm hinc hi ha) b.agree (hself.trans hnames.symm), hself]
    simp [delivers]

theorem allgather_landsOn_own : LandsOn m.peers (fun i => (allgather b).issue m d i) (m.ownComm i) i w ↔
      (allgather b).DeliveredBy m (m.HasBeside i) d (m.logical i) w := by
  apply landsOn_own_of hm hi (u := fun a => allgatherv (m.ownComm i) (d.app (m.logical a))
    (b.sblock 0) ((m.arrayRanks i).map b.rblock))
  · intro a ha
    rw [issue, ← ownComm_congr ha, allgatherOps_own, arrayRanks_congr ha]
  · intro p a ha
    rw [mem_transfer_allgatherv (arrayRanks_at hm hinc hi ha) b.agree]
    simp [delivers]

theorem alltoallv_landsOn_own {v : VBlocks} : LandsOn m.peers (fun i => (alltoallv v).issue m d i) (m.ownComm i) i w ↔
      (alltoallv v).DeliveredBy m (m.HasBeside i) d (m.logical i) w := by
  apply landsOn_own_of hm hi (u := fun a => Exchange.alltoallv (m.ownComm i) (d.app (m.logical a))
    ((m.arrayRanks i).map (v.sblock (m.logical a))) ((m.arrayRanks i).map (v.rblock (m.logical a))))
  · intro a ha
    rw [issue, ← ownComm_congr ha, alltoallOps_own, arrayRanks_congr ha]
  · intro p a ha
    rw [mem_transfer_alltoallv (arrayRanks_at hm hinc hi ha) (arrayRanks_idxOf hm hinc hi ha) (v.agree _ _)]
    simp [delivers]

end Own

end CollArgs

end ParepMpi
