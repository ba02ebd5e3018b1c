import ParepMpi.Collective.Moves
import ParepMpi.Collective.Reissue

/-!
# When a replay reproduces the call

A replay that issues what the call issues, from copies with the same bytes, writes the same bytes.
-/

namespace ParepMpi

open Exchange Option ProcMaps

namespace CollArgs

variable {m : ProcMaps} {args : CollArgs} {i : Int}

theorem resetColls_eq (h : m.between i = false) (n : Int) : resetColls m i n = some () := by
  rw [resetColls, h]
  rfl

theorem issue_matched (hm : m.Valid) (args : CollArgs) (d : SendData) :
    Matched m.peers (fun i => args.issue m d i) m.positions := by
  cases args with
  | bcast count t root =>
    exact hm.fromRootOps_matched root (fun i e me => Exchange.bcast e me (d.app (m.logical i)) (t.run 0 count)
      (some (t.run 0 count))) fun _ _ _ _ => rfl
  | scatter b root =>
    exact hm.fromRootOps_matched root (fun i e me => scatterv e me (d.app (m.logical i))
      ((if e = .cmp then m.computes else m.replicated).map b.sblock) (b.rblock 0)) fun _ _ _ _ => rfl
  | gather b root =>
    exact hm.gatherOps_matched b root (fun i => d.app (m.logical i)) (fun i => gatherv .cmpNoRep none
      (d.app (m.logical i)) (b.sblock 0) (m.unreplicated.map b.rblock) (.rank (m.ctr root))) fun _ => rfl
  | allgather b => exact hm.allgatherOps_matched b fun i => d.app (m.logical i)
  | alltoall b =>
    exact hm.alltoallOps_matched (fun i => d.app (m.logical i)) (fun _ => b.sblock) (fun _ => b.rblock) fun _ => b.across
  | alltoallv v =>
    exact hm.alltoallOps_matched (fun i => d.app (m.logical i)) (fun i => v.sblock (m.logical i))
      (fun i => v.rblock (m.logical i)) fun i => v.across (m.logical i)

section Logged

variable {b : Blocks} (hdense : b.sendtype.Dense) (comm : EComm) (buf : Int → Option UInt8) (blocks : List Region)

include hdense

theorem sblock_zero : b.sblock 0 = .bytes 0 b.sent := by
  rw [Blocks.sblock_of_dense hdense, Int.zero_mul]

theorem gatherv_logged (me : Option Int) (arg : RootArg) :
    Agree (gatherv comm me (copied buf b.sent) (b.sblock 0) blocks arg)
      (gatherv comm me buf (b.sblock 0) blocks arg) := by
  rw [sblock_zero hdense]
  exact gatherv_copied comm me buf b.sent blocks arg

theorem allgatherv_logged : Agree (allgatherv comm (copied buf b.sent) (b.sblock 0) blocks)
      (allgatherv comm buf (b.sblock 0) blocks) := by
  rw [sblock_zero hdense]
  exact allgatherv_copied comm buf b.sent blocks

end Logged

theorem reproduces_of_agree (hm : m.Valid) (hreplay : ∀ d, ∀ i ∈ m.positions, ∃ ops, args.replay m d i = some ops ∧
      List.Forall₂ Agree ops (args.issue m d i)) : args.Reproduces m := by
  intro d
  have hagree : ∀ i ∈ m.positions, List.Forall₂ Agree ((args.replay m d i).getD []) (args.issue m d i) := by
    intro i hi
    obtain ⟨ops, hops, hagree⟩ := hreplay d i hi
    rwa [hops, getD_some]
  refine ⟨?_, ?_, ?_⟩
  · intro i hi
    obtain ⟨ops, hops, _⟩ := hreplay d i hi
    rw [hops, isSome_some]
  · intro i hi e j hj
    have hlen := issue_matched hm args d i hi e j hj
    rwa [(onComm_agree (hagree i hi) e).length_eq, (onComm_agree (hagree j (hm.peers_mem hj)) e).length_eq]
  · intro i hi w
    exact mem_landings_agree (hagree i hi) fun e a ha => hagree a (hm.peers_mem ha)

section FromRoot

variable {root : Int}

theorem bcast_reproduces_iff {count : Nat} {t : Datatype} (hm : m.Valid) (h0 : 0 ≤ root) (hroot : root < m.nC) :
    (bcast count t root).Reproduces m ↔ count * t.size = 0 ∨ m.nC = 1 := by
  have hnothing : ∀ i, landings m.peers (m.bcastOps Exchange.freed (t.run 0 count) none root) i = [] :=
    bcastOps_lands_nothing m (fun _ => Exchange.freed) _ (by simp) root
  constructor
  · intro h
    by_contra hnot
    obtain ⟨hsize, hone⟩ := not_or.mp hnot
    obtain ⟨i, hi0, hi, hne⟩ : ∃ i, 0 ≤ i ∧ i < m.nC ∧ i ≠ root :=
      if hz : root = 0 then ⟨1, by omega, by omega, by omega⟩ else ⟨0, by omega, by omega, by omega⟩
    have hlands := bcastOps_lands (r := t.run 0 count) (fun i => SendData.app (fun _ _ => 0) (m.logical i)) h0 hroot
      hi hne (pos_of_ne_zero hsize)
    have hreplayed := ((h fun _ _ => 0).2.2 i (hm.rank_mem hi0 hi) _).mpr hlands
    exact List.not_mem_nil (hnothing i ▸ hreplayed)
  · intro h d
    have hcall : ∀ i ∈ m.positions, landings m.peers
        (fun i => m.bcastOps (d.app (m.logical i)) (t.run 0 count) (some (t.run 0 count)) root i) i = [] := by
      intro i hi
      rcases h with hzero | hone
      · exact bcastOps_lands_nothing m (fun i => d.app (m.logical i)) _
          (by intro _ hr; rw [← mem_some.mp hr]; exact hzero) root i
      · exact hm.bcastOps_alone hone h0 hroot (fun i => d.app (m.logical i)) hi
    refine ⟨fun i _ => rfl, hm.fromRootOps_matched root
      (fun _ e me => Exchange.bcast e me Exchange.freed (t.run 0 count) none) fun _ _ _ _ => rfl, ?_⟩
    intro i hi w
    exact iff_of_eq (congrArg (w ∈ ·) ((hnothing i).trans (hcall i hi).symm))

theorem scatter_reproduces_iff {b : Blocks} (hm : m.Valid) (h0 : 0 ≤ root) (hroot : root < m.nC) :
    (scatter b root).Reproduces m ↔ b.sent = 0 := by
  constructor
  · intro h
    by_contra hsize
    have hlands := scatterOps_lands (fun i => SendData.app (fun _ _ => 0) (m.logical i)) h0 hroot (pos_of_ne_zero hsize)
    have hreplayed := ((h fun _ _ => 0).2.2 root (hm.rank_mem h0 hroot) _).mpr hlands
    have hnone := scatterOps_freed hreplayed
    simp [SendData.app] at hnone
  · intro hzero d
    have hempty := scatterOps_empty m (b.agree.symm.trans hzero)
    refine ⟨fun i _ => rfl, hm.fromRootOps_matched root (fun _ e me => scatterv e me Exchange.freed
      ((if e = .cmp then m.computes else m.replicated).map b.sblock) (b.rblock 0)) fun _ _ _ _ => rfl, ?_⟩
    intro i _ w
    exact iff_of_eq (congrArg (w ∈ ·) ((hempty (fun _ => Exchange.freed) root i).trans
      (hempty (fun i => d.app (m.logical i)) root i).symm))

end FromRoot

section Gather

variable {b : Blocks} {root : Int} {d : SendData}

theorem gather_replay_of_isSome (h : ((gather b root).replay m d i).isSome) :
    ∃ buf, (gather b root).replay m d i = some (m.gatherOps buf b root
      (gatherv .cmpRep none buf (b.sblock 0) (m.replicated.map b.rblock) (.rank (m.ctr root))) i) := by
  refine ⟨copied (d.app (m.logical i)) b.sent, ?_⟩
  unfold replay at h ⊢
  by_cases hacross : i < m.nC ∧ m.ctr root ≠ -1 ∧ m.ctr i = -1
  · simp only [if_pos hacross] at h ⊢
    cases hfill : fillCounts m (m.nC - m.nR) with
    | none => simp [hfill] at h
    | some u => rfl
  · simp only [if_neg hacross]

theorem gather_unmatched (hm : m.Valid) (h0 : 0 ≤ root) (hroot : root < m.nC) (hrep : m.ctr root ≠ -1)
    (hlt : m.nR < m.nC) : ¬ (gather b root).Reproduces m := by
  intro h
  obtain ⟨hsome, hmatched, _⟩ := h fun _ _ => 0
  obtain ⟨c, hc0, hc, hnone⟩ := hm.inverse.exists_unreplicated hm.nR_nonneg hlt
  have hrpos := hm.replica_mem h0 hroot hrep
  have hcpos := hm.rank_mem hc0 hc
  have hlen := hmatched c hcpos .cmpRep (m.nC + m.ctr root) (by
    rw [ProcMaps.peers, if_pos hc]
    exact mem_replicas.mpr ⟨hrpos.2, (mem_positions.mp hrpos.1).2⟩)
  obtain ⟨buf, hreplay⟩ := gather_replay_of_isSome (hsome c hcpos)
  obtain ⟨buf', hreplay'⟩ := gather_replay_of_isSome (hsome _ hrpos.1)
  simp only [onComm_length, hreplay, hreplay', getD_some] at hlen
  rw [ProcMaps.gatherOps, if_neg (by omega), if_pos ⟨hrep, hnone⟩, ProcMaps.gatherOps, if_pos hrpos.2,
    if_pos hrep] at hlen
  split_ifs at hlen <;> simp [gatherv] at hlen

theorem gather_reproduces_iff (hm : m.Valid) (hdense : b.sendtype.Dense) (h0 : 0 ≤ root) (hroot : root < m.nC) :
    (gather b root).Reproduces m ↔ m.ctr root = -1 ∨ m.nR = m.nC := by
  have hle := hm.inverse.nR_le_nC hm.nC_nonneg
  constructor
  · intro h
    by_contra hnot
    obtain ⟨hrep, hne⟩ := not_or.mp hnot
    exact gather_unmatched hm h0 hroot hrep (by omega) h
  · intro hall
    have hacross : ∀ i ∈ m.positions, ¬ (i < m.nC ∧ m.ctr root ≠ -1 ∧ m.ctr i = -1) := by
      intro i hi ⟨hlt, hrep, hnone⟩
      have := hm.inverse.nR_lt_nC (mem_positions.mp hi).1 hlt hnone
      omega
    have hbetween : m.ctr root ≠ -1 → ¬ (m.nC > m.nR ∧ m.nR > 0) := by omega
    apply reproduces_of_agree hm
    intro d i hi
    refine ⟨_, by simp only [replay, if_neg (hacross i hi)]; rfl, ?_⟩
    simp only [issue, ProcMaps.gatherOps]
    by_cases hc : m.nC ≤ i
    · rw [if_pos hc, if_pos hc]
      by_cases hrep : m.ctr root ≠ -1
      · rw [if_pos hrep, if_pos hrep, if_neg (hbetween hrep), if_neg (hbetween hrep)]
        exact .cons (gatherv_logged hdense _ _ _ _ _) .nil
      · rw [if_neg hrep, if_neg hrep]
        exact .nil
    · have hnot : ¬ (m.ctr root ≠ -1 ∧ m.ctr i = -1) := fun h => hacross i hi ⟨by omega, h⟩
      rw [if_neg hc, if_neg hc, if_neg hnot, if_neg hnot]
      exact .cons (gatherv_logged hdense _ _ _ _ _) .nil

end Gather

section ToAll

variable {b : Blocks} {v : VBlocks}

theorem resetColls_fails (hpos : 0 < m.nR) (hlt : m.nR < m.nC) {n : Int} (hn : 0 < n) : resetColls m m.nC n = none := by
  have hbetween : m.between m.nC = true := by
    rw [ProcMaps.between, if_pos (Int.le_refl m.nC)]
    exact decide_eq_true ⟨hlt, hpos⟩
  rw [resetColls, hbetween, if_pos rfl, resetRequests, if_pos hn, map_none]

variable (hm : m.Valid)

include hm

theorem sides_of_reproduces
    (hfails : 0 < m.nR → m.nR < m.nC → ∀ d, args.replay m d m.nC = none) (h : args.Reproduces m) :
    m.nR = 0 ∨ m.nR = m.nC := by
  by_contra hnot
  have hle := hm.inverse.nR_le_nC hm.nC_nonneg
  have hR := hm.nR_nonneg
  have hC := hm.nC_nonneg
  have hsome := (h fun _ _ => 0).1 m.nC (mem_positions.mpr ⟨hC, by omega⟩)
  rw [hfails (by omega) (by omega)] at hsome
  exact Bool.false_ne_true hsome

theorem allgather_reproduces_iff (hdense : b.sendtype.Dense) : (allgather b).Reproduces m ↔ m.nR = 0 ∨ m.nR = m.nC := by
  constructor
  · apply sides_of_reproduces hm
    intro hpos hlt d
    rw [replay, resetColls_fails hpos hlt hpos]
    rfl
  · intro hall
    apply reproduces_of_agree hm
    intro d i hi
    have hb := hm.between_eq_false hall hi
    refine ⟨_, by rw [replay, resetColls_eq hb]; rfl, ?_⟩
    simp only [issue, ProcMaps.allgatherOps, hb]
    split
    · exact .cons (allgatherv_logged hdense _ _ _) .nil
    · exact .cons (allgatherv_logged hdense _ _ _) .nil

theorem alltoall_reproduces_iff (hdense : b.sendtype.Dense) : (alltoall b).Reproduces m ↔ m.nR = 0 ∨ m.nR = m.nC := by
  constructor
  · apply sides_of_reproduces hm
    intro hpos hlt d
    rw [replay, resetColls_fails hpos hlt (by omega)]
    rfl
  · intro hall
    apply reproduces_of_agree hm
    intro d i hi
    have hb := hm.between_eq_false hall hi
    refine ⟨_, by rw [replay, resetColls_eq hb]; rfl, ?_⟩
    rw [issue]
    apply alltoallOps_agree hb _ fun c _ => .inl rfl
    intro c hc
    obtain ⟨hc0, hc⟩ := mem_computes.mp hc
    rw [Blocks.sblock_of_dense hdense]
    apply contents_copied _ (Int.mul_nonneg hc0 (Int.natCast_nonneg _))
    -- the block of the last rank ends where the copy does
    have hblocks : (c + 1) * (b.sent : Int) ≤ m.nC * b.sent :=
      Int.mul_le_mul_of_nonneg_right (by omega) (Int.natCast_nonneg _)
    rw [Int.add_mul, Int.one_mul] at hblocks
    rwa [Nat.cast_mul, Int.toNat_of_nonneg hm.nC_nonneg]

theorem rdispls_of_reproduces (hsend : v.sendtype.Dense) (hrecv : v.recvtype.Dense) (hall : m.nR = 0 ∨ m.nR = m.nC)
    (h : (alltoallv v).Reproduces m) {a c : Int} (ha0 : 0 ≤ a) (ha : a < m.nC) (hc0 : 0 ≤ c)
    (hc : c < m.nC) (hpos : 0 < v.recvcounts c a * v.recvtype.size) :
    v.rdispls c a = packedDispl (v.recvcounts c) a := by
  have hagree := v.agree a c
  let d : SendData := fun l o => if l = a ∧ o = v.sdispls a c * v.sendtype.size then 1 else 0
  have hsblock : ∀ l, v.sblock l c = .bytes (v.sdispls l c * v.sendtype.size) (v.sendcounts l c * v.sendtype.size) := by
    intro l
    rw [VBlocks.sblock, hsend.run, hsend.extent]
  have hmark : ∀ (l : Int) (t : Nat) (x : Option UInt8),
      (contents (d.app l) (v.sblock l c))[t]? = some x → x = some 1 → l = a ∧ t = 0 := by
    intro l t x hx hone
    simp only [hsblock, contents_bytes, List.getElem?_map, map_eq_some_iff] at hx
    obtain ⟨o, ho, rfl⟩ := hx
    have hot : o = t := by
      have := List.getElem?_eq_some_iff.mp ho
      simpa using this.2.symm
    simp only [SendData.app, d, some.injEq] at hone
    split_ifs at hone with hl
    · obtain ⟨rfl, hl⟩ := hl
      omega
    · exact absurd hone (by decide)
  have hcall : (v.rdispls c a * v.recvtype.size, some 1) ∈ landings m.peers ((alltoallv v).issue m d) c := by
    simp only [issue]
    rw [hm.mem_landings_alltoallOps hall (fun i => d.app (m.logical i)) (fun i => v.sblock (m.logical i))
      (fun i => v.rblock (m.logical i)) (fun i => v.across (m.logical i)) hc0 hc
      fun a ha => by rw [logical_of_lt ha, logical_of_lt hc]; exact v.agree a c]
    rw [logical_of_lt hc]
    refine ⟨a, ha0, ha, 0, ?_, ?_⟩
    · rw [logical_of_lt ha, hsblock]
      simp [contents_bytes, List.getElem?_range (hagree ▸ hpos), SendData.app, d]
    · simp [VBlocks.rblock, hrecv.run, hrecv.extent, Region.bytes]
  have hreplay := ((h d).2.2 c (hm.rank_mem hc0 hc) _).mpr hcall
  have hops : ∀ i ∈ m.positions, ((alltoallv v).replay m d i).getD [] =
      m.alltoallOps (v.logged m d (m.logical i)) (v.packedSblock (m.logical i))
        (v.packedRblock (m.logical i)) (fun c => v.recvtype.run 0 (v.recvcounts (m.logical i) c)) i := by
    intro i hi
    rw [replay, resetColls_eq (hm.between_eq_false hall hi)]
    rfl
  rw [mem_landings_congr (hops c (hm.rank_mem hc0 hc)) fun _ a ha => hops a (hm.peers_mem ha),
    hm.mem_landings_alltoallOps hall (fun i => v.logged m d (m.logical i))
      (fun i => v.packedSblock (m.logical i)) (fun i => v.packedRblock (m.logical i))
      (fun i c => v.recvtype.run 0 (v.recvcounts (m.logical i) c)) hc0 hc
      fun a ha => by rw [logical_of_lt ha, logical_of_lt hc]; exact v.agree a c,
    logical_of_lt hc] at hreplay
  obtain ⟨l, hl0, hl, t, ht, hplace⟩ := hreplay
  rw [logical_of_lt hl, v.contents_logged d hsend (mem_computes.mpr ⟨hc0, hc⟩)] at ht
  obtain ⟨rfl, rfl⟩ := hmark l t _ ht rfl
  rw [VBlocks.packedRblock, hrecv.run, hrecv.extent] at hplace
  have hrsize : (v.recvtype.size : Int) ≠ 0 := by
    intro hzero
    rw [Int.natCast_eq_zero.mp hzero, Nat.mul_zero] at hpos
    exact lt_irrefl 0 hpos
  exact Int.eq_of_mul_eq_mul_right hrsize (hplace.trans (Int.add_zero _))

theorem alltoallv_reproduces_iff (hsend : v.sendtype.Dense) (hrecv : v.recvtype.Dense) :
    (alltoallv v).Reproduces m ↔ (alltoallv v).Replayable m := by
  constructor
  · intro h
    have hall := sides_of_reproduces hm (fun hpos hlt d => by
      rw [replay, resetColls_fails hpos hlt (by omega)]
      rfl) h
    exact ⟨hall, fun a c => rdispls_of_reproduces hm hsend hrecv hall h⟩
  · intro ⟨hall, hpacked⟩
    apply reproduces_of_agree hm
    intro d i hi
    have hb := hm.between_eq_false hall hi
    refine ⟨_, by rw [replay, resetColls_eq hb]; rfl, ?_⟩
    rw [issue]
    apply alltoallOps_agree hb fun c => v.contents_logged d hsend
    intro c hc
    obtain ⟨hc0, hc⟩ := mem_computes.mp hc
    obtain ⟨hl0, hl⟩ := hm.logical_range hi
    by_cases hzero : v.recvcounts (m.logical i) c * v.recvtype.size = 0
    · exact .inr ⟨hzero, hzero⟩
    · left
      rw [VBlocks.packedRblock, VBlocks.rblock, hpacked c (m.logical i) hc0 hc hl0 hl (pos_of_ne_zero hzero)]

end ToAll

end CollArgs

end ParepMpi
