import ParepMpi.Messages.World

/-!
# Which copy serves which position

Every position is served by exactly one copy of each logical rank: compute processes by compute processes, replicas by
the replica of the sender, or by its compute process when there is none.
-/

namespace ParepMpi

open List Option ProcMaps

namespace ProcMaps

structure Valid (m : ProcMaps) : Prop where
  inverse : m.MutuallyInverse
  nC_nonneg : 0 ≤ m.nC
  nR_nonneg : 0 ≤ m.nR

/-- What a rearrangement relies on: the new maps are inverse to each other and as large as the old ones. -/
def Rearranges (m maps : ProcMaps) : Prop := maps.Valid ∧ maps.nC = m.nC ∧ maps.nR = m.nR

def sender (m : ProcMaps) (s j : Int) : Int :=
  if j < m.nC ∨ m.ctr s = -1 then s else m.nC + m.ctr s

theorem mem_positions {m : ProcMaps} {i : Int} : i ∈ m.positions ↔ 0 ≤ i ∧ i < m.nC + m.nR := by
  simp only [positions, List.mem_map, mem_range]
  constructor
  · rintro ⟨k, hk, rfl⟩
    rw [Int.ofNat_eq_natCast]
    omega
  · intro ⟨h0, hlt⟩
    exact ⟨i.toNat, by omega, by rw [Int.ofNat_eq_natCast]; omega⟩

theorem positions_nodup (m : ProcMaps) : m.positions.Nodup := nodup_range.map fun _ _ => Int.ofNat.inj

theorem initial_valid {nC nR : Nat} (hle : nR ≤ nC) : (initial nC nR).Valid :=
  ⟨initial_mutuallyInverse hle, Int.natCast_nonneg nC, Int.natCast_nonneg nR⟩

section

variable {m : ProcMaps} {i j q s t : Int}

theorem logical_of_lt (hi : i < m.nC) : m.logical i = i := if_pos hi

theorem logical_of_ge (hi : m.nC ≤ i) : m.logical i = m.rtc (i - m.nC) := if_neg (by omega)

namespace Valid

variable (h : m.Valid)

include h

theorem rank_mem (h0 : 0 ≤ s) (hlt : s < m.nC) : s ∈ m.positions := by
  have hR := h.nR_nonneg
  exact mem_positions.mpr ⟨h0, by omega⟩

theorem replica_mem (h0 : 0 ≤ s) (hlt : s < m.nC) (hne : m.ctr s ≠ -1) :
    m.nC + m.ctr s ∈ m.positions ∧ m.nC ≤ m.nC + m.ctr s := by
  have hb := h.inverse.ctr_bounds h0 hlt hne
  exact ⟨mem_positions.mpr ⟨by omega, by omega⟩, by omega⟩

theorem logical_range (hi : i ∈ m.positions) : 0 ≤ m.logical i ∧ m.logical i < m.nC := by
  obtain ⟨h0, hlt⟩ := mem_positions.mp hi
  by_cases hc : i < m.nC
  · rw [logical_of_lt hc]
    exact ⟨h0, hc⟩
  · rw [logical_of_ge (by omega)]
    exact h.inverse.rtc_bounds (by omega) (by omega)

theorem logical_replica (h0 : 0 ≤ s) (hlt : s < m.nC) (hne : m.ctr s ≠ -1) : m.logical (m.nC + m.ctr s) = s := by
  have hb := h.inverse.ctr_bounds h0 hlt hne
  rw [logical_of_ge (by omega), show m.nC + m.ctr s - m.nC = m.ctr s by omega, h.inverse.rtc_ctr h0 hlt hne]

theorem ctr_logical (hi : i ∈ m.positions) (hge : m.nC ≤ i) :
    m.nC + m.ctr (m.logical i) = i ∧ m.ctr (m.logical i) ≠ -1 := by
  obtain ⟨_, hlt⟩ := mem_positions.mp hi
  rw [logical_of_ge hge, h.inverse.ctr_rtc (by omega) (by omega)]
  omega

theorem logical_eq_iff (hi : i ∈ m.positions) (h0 : 0 ≤ s) (hlt : s < m.nC) :
    m.logical i = s ↔ i = s ∨ m.ctr s ≠ -1 ∧ i = m.nC + m.ctr s := by
  by_cases hc : i < m.nC
  · rw [logical_of_lt hc]
    refine ⟨.inl, fun hor => hor.resolve_right ?_⟩
    intro ⟨hne, heq⟩
    have hb := h.inverse.ctr_bounds h0 hlt hne
    omega
  · obtain ⟨heq, hne⟩ := h.ctr_logical hi (by omega)
    constructor
    · intro hs
      rw [hs] at heq hne
      exact .inr ⟨hne, heq.symm⟩
    · intro hor
      rcases hor with hs | ⟨hne', hs⟩
      · omega
      · rw [hs, h.logical_replica h0 hlt hne']

theorem eq_of_logical (hi : i ∈ m.positions) (hj : j ∈ m.positions)
    (heq : m.logical i = m.logical j) (hside : i < m.nC ↔ j < m.nC) : i = j := by
  by_cases hc : i < m.nC
  · rwa [logical_of_lt hc, logical_of_lt (hside.mp hc)] at heq
  · rw [← (h.ctr_logical hi (by omega)).1, heq, (h.ctr_logical hj (by omega)).1]

theorem sender_mem (h0 : 0 ≤ s) (hlt : s < m.nC) (j : Int) : m.sender s j ∈ m.positions := by
  unfold sender
  split
  · exact h.rank_mem h0 hlt
  · rename_i hnot
    exact (h.replica_mem h0 hlt fun hnone => hnot (.inr hnone)).1

theorem logical_sender (h0 : 0 ≤ s) (hlt : s < m.nC) (j : Int) : m.logical (m.sender s j) = s := by
  unfold sender
  split
  · exact logical_of_lt hlt
  · rename_i hnot
    exact h.logical_replica h0 hlt fun hnone => hnot (.inr hnone)

theorem sender_self (hj : j ∈ m.positions) : m.sender (m.logical j) j = j := by
  unfold sender
  by_cases hc : j < m.nC
  · rw [if_pos (.inl hc), logical_of_lt hc]
  · obtain ⟨heq, hne⟩ := h.ctr_logical hj (by omega)
    rw [if_neg (by tauto), heq]

theorem mem_recipients (hq : q ∈ m.positions) (h0 : 0 ≤ t) (hlt : t < m.nC) :
    j ∈ m.recipients q t ↔ j ∈ m.positions ∧ m.logical j = t ∧ m.sender (m.logical q) j = q := by
  have htm := h.rank_mem h0 hlt
  unfold recipients
  by_cases hc : q < m.nC
  · rw [if_pos hc, logical_of_lt hc, mem_cons]
    have hserve : m.sender q j = q ↔ j < m.nC ∨ m.ctr q = -1 := by
      unfold sender
      split
      · simp [*]
      · rename_i hnot
        have hb := h.inverse.ctr_bounds (mem_positions.mp hq).1 hc fun hnone => hnot (.inr hnone)
        exact iff_of_false (by omega) hnot
    rw [hserve]
    constructor
    · intro hor
      rcases hor with rfl | hmem
      · exact ⟨htm, logical_of_lt hlt, .inl hlt⟩
      · split at hmem
        · rename_i hboth
          rw [mem_singleton.mp hmem]
          exact ⟨(h.replica_mem h0 hlt hboth.1).1, h.logical_replica h0 hlt hboth.1, .inr hboth.2⟩
        · exact absurd hmem not_mem_nil
    · intro ⟨hj, hlog, hside⟩
      rcases (h.logical_eq_iff hj h0 hlt).mp hlog with heq | ⟨hne, heq⟩
      · exact .inl heq
      · have := (h.replica_mem h0 hlt hne).2
        exact .inr (by rw [if_pos ⟨hne, hside.resolve_left (by omega)⟩, heq]; exact mem_singleton_self _)
  · obtain ⟨hself, hown⟩ := h.ctr_logical hq (by omega)
    have hserve : m.sender (m.logical q) j = q ↔ m.nC ≤ j := by
      have hrank := h.logical_range hq
      unfold sender
      by_cases hj : j < m.nC
      · exact iff_of_false (by omega) (by omega)
      · rw [if_neg (by tauto)]
        exact iff_of_true hself (by omega)
    rw [if_neg hc, hserve]
    constructor
    · intro hmem
      split at hmem
      · rename_i hne
        rw [mem_singleton.mp hmem]
        exact ⟨(h.replica_mem h0 hlt hne).1, h.logical_replica h0 hlt hne, (h.replica_mem h0 hlt hne).2⟩
      · exact absurd hmem not_mem_nil
    · intro ⟨hj, hlog, hge⟩
      rcases (h.logical_eq_iff hj h0 hlt).mp hlog with heq | ⟨hne, heq⟩
      · omega
      · rw [if_pos hne, heq]
        exact mem_singleton_self _

theorem recipients_nodup (h0 : 0 ≤ t) (hlt : t < m.nC) (q : Int) : (m.recipients q t).Nodup := by
  unfold recipients
  split
  · split
    · rename_i hboth
      have := (h.replica_mem h0 hlt hboth.1).2
      simp only [nodup_cons, mem_singleton, not_mem_nil, not_false_eq_true, nodup_nil, and_true]
      omega
    · exact nodup_singleton t
  · split
    · exact nodup_singleton _
    · exact nodup_nil

end Valid

end

end ProcMaps

/-- The processes have moved to the positions of new maps, each to one of its own logical rank. -/
structure Carried (m m' : ProcMaps) (old : Int → Int) : Prop where
  valid : m'.Valid
  nC : m'.nC = m.nC
  mem : ∀ i ∈ m'.positions, old i ∈ m.positions
  logical : ∀ i ∈ m'.positions, m.logical (old i) = m'.logical i

theorem carried_logical {m m' : ProcMaps} (h : m.Valid) (h' : m'.Valid) (hnC : m'.nC = m.nC) :
    Carried m m' m'.logical where
  valid := h'
  nC := hnC
  mem i hi := by
    obtain ⟨h0, hlt⟩ := h'.logical_range hi
    exact h.rank_mem h0 (by omega)
  logical i hi := logical_of_lt (by have := h'.logical_range hi; omega)

variable {failed : List Int} {ranks : CArray Int} {old : Int → Int}

theorem Renumbered.carried {m m' : ProcMaps} (h : Renumbered m failed m' ranks) (hs : Survivable m failed) :
    Carried m m' fun i => (ranks.read i).getD (-1) := by
  have hnC := h.nC
  have hC := hs.nC_nonneg
  have hR := h.nR_nonneg hs
  have hv : m.Valid := ⟨hs.inverse, hC, hs.nR_nonneg⟩
  -- A position is either a logical rank, held by one of its two copies, or that of an old replica.
  have hplace : ∀ i ∈ m'.positions, (ranks.read i).getD (-1) ∈ m.positions ∧
      m.logical ((ranks.read i).getD (-1)) = m'.logical i := by
    intro i hi
    obtain ⟨h0, hlt⟩ := mem_positions.mp hi
    by_cases hc : i < m.nC
    · rw [h.ranks_compute hs h0 hc, logical_of_lt (m := m') (by omega)]
      split
      · rename_i hmem
        have hne := hs.replicated i hmem hc
        exact ⟨(hv.replica_mem h0 hc hne).1, hv.logical_replica h0 hc hne⟩
      · exact ⟨hv.rank_mem h0 hc, logical_of_lt hc⟩
    · obtain ⟨r, hr, hrlt, _, hread, hrtc⟩ := h.ranks_replica hs (show 0 ≤ i - m.nC by omega) (by omega)
      rw [show m.nC + (i - m.nC) = i by omega] at hread
      rw [hread, getD_some, ProcMaps.logical_of_ge (m := m') (by omega), hnC, ProcMaps.rtc, hrtc,
        logical_of_ge (by omega), show m.nC + r - m.nC = r by omega]
      exact ⟨mem_positions.mpr ⟨by omega, by omega⟩, rfl⟩
  exact ⟨⟨h.mutuallyInverse hs, by omega, hR⟩, hnC, fun i hi => (hplace i hi).1, fun i hi => (hplace i hi).2⟩

theorem Renumbered.survives {m m' : ProcMaps}
    (h : Renumbered m failed m' ranks) (hs : Survivable m failed) {i : Int} (hi : i ∈ m'.positions) :
    (ranks.read i).getD (-1) ∉ failed ∧ (m.nC ≤ i → m.nC ≤ (ranks.read i).getD (-1)) := by
  have hnC := h.nC
  obtain ⟨h0, hlt⟩ := mem_positions.mp hi
  by_cases hc : i < m.nC
  · have hread := h.ranks_compute hs h0 hc
    have hsurv := ((h.ranks_survivors hs hs.pair _).mp ⟨i, h0, hlt, hread⟩).2.2
    rw [hread]
    exact ⟨hsurv, fun hge => by omega⟩
  · obtain ⟨r, hr, _, hnot, hread, _⟩ := h.ranks_replica hs (show 0 ≤ i - m.nC by omega) (by omega)
    rw [show m.nC + (i - m.nC) = i by omega] at hread
    rw [hread, getD_some]
    exact ⟨hnot, fun _ => by omega⟩

theorem regroup_spec {m m' : ProcMaps} (h : regroup m failed = some (m', old)) (hv : m.Valid) :
    ∃ ranks, Survivable m failed ∧ Renumbered m failed m' ranks ∧ old = fun i => (ranks.read i).getD (-1) := by
  obtain ⟨⟨hsorted, hmem⟩, h⟩ := ite_none_right_eq_some.mp h
  obtain ⟨me, hme, h⟩ := bind_eq_some_iff.mp h
  obtain ⟨out, hout, h⟩ := bind_eq_some_iff.mp h
  obtain ⟨h0, hlt⟩ := mem_positions.mp (mem_of_find?_eq_some hme)
  split at h
  · cases h
  · rename_i hnot
    obtain ⟨rfl, rfl⟩ := h
    obtain ⟨hs, hren⟩ := renumbered_of_remap hv.inverse hv.nC_nonneg hv.nR_nonneg h0 hlt
      (fun f hf => mem_positions.mp (hmem f hf)) hsorted hout ((Bool.not_eq_true _).mp hnot)
    exact ⟨out.worldCommRanks, hs, hren, rfl⟩

theorem regroup_carried {m m' : ProcMaps}
    (h : regroup m failed = some (m', old)) (hv : m.Valid) : Carried m m' old := by
  obtain ⟨ranks, hs, hren, rfl⟩ := regroup_spec h hv
  exact hren.carried hs

namespace MsgWorld

variable {w w' : MsgWorld} {failed : List Int}

theorem shrink_spec (h : w.shrink failed = some w') (hv : w.maps.Valid) :
    ∃ ranks, Survivable w.maps failed ∧ Renumbered w.maps failed w'.maps ranks ∧
      w' = w.moved w'.maps fun i => (ranks.read i).getD (-1) := by
  obtain ⟨⟨m', old⟩, hgroup, rfl⟩ := map_eq_some_iff.mp h
  obtain ⟨ranks, hs, hren, rfl⟩ := regroup_spec hgroup hv
  exact ⟨ranks, hs, hren, rfl⟩

theorem shrink_carried (h : w.shrink failed = some w') (hv : w.maps.Valid) :
    ∃ old, Carried w.maps w'.maps old ∧ w' = w.moved w'.maps old := by
  obtain ⟨ranks, hs, hren, heq⟩ := shrink_spec h hv
  exact ⟨_, hren.carried hs, heq⟩

end MsgWorld

end ParepMpi
