import ParepMpi.Collective.Moves

/-!
# The arrays of counts and displacements

`MPI_Iscatter`, `MPI_Igather`, `MPI_Iallgather`, `MPI_Ialltoall` and `MPI_Ialltoallv` call operations over the
replicas with one count and one displacement for each of them, in the order of their ranks in `EMPI_COMM_REP`.
-/

namespace ParepMpi

open Exchange List Option

structure Segment where
  count : Nat
  displ : Int
  deriving DecidableEq, Repr

/-- The arrays over the replicas and over the compute processes without one, with the running indices of
the loop that fills them. -/
structure SegmentArrays where
  reps : CArray (Option Segment)
  j : Int
  inter : CArray (Option Segment)
  k : Int

namespace ProcMaps

variable {m : ProcMaps} {c r : Int}

/-- One round of the loop. -/
def fillSegment (m : ProcMaps) (entry : Int → Segment) (i : Int) (s : SegmentArrays) : Option SegmentArrays := do
  if (← m.cmpToRepMap.read i) ≠ -1 then
    let reps ← s.reps.write s.j (some (entry i))
    some { s with reps := reps, j := s.j + 1 }
  else if m.nC > m.nR ∧ m.nR > 0 then
    let inter ← s.inter.write s.k (some (entry i))
    some { s with inter := inter, k := s.k + 1 }
  else some s

def fillSegments (m : ProcMaps) (entry : Int → Segment) : Option SegmentArrays :=
  forRange 0 m.nC (m.fillSegment entry) ⟨replicate m.nR.toNat none, 0, replicate (m.nC - m.nR).toNat none, 0⟩

def Increasing (m : ProcMaps) : Prop :=
  ∀ c c', 0 ≤ c → c < c' → c' < m.nC → m.ctr c ≠ -1 → m.ctr c' ≠ -1 → m.ctr c < m.ctr c'

theorem mem_replicated : c ∈ m.replicated ↔ 0 ≤ c ∧ c < m.nC ∧ m.ctr c ≠ -1 := by
  rw [replicated, mem_filter, mem_computes, decide_eq_true_eq, and_assoc]

theorem computes_pairwise (m : ProcMaps) : m.computes.Pairwise (· < ·) := by
  rw [computes, pairwise_map]
  exact pairwise_lt_range.imp fun h => by simpa using h

theorem replicated_pairwise (m : ProcMaps) : m.replicated.Pairwise (· < ·) := m.computes_pairwise.filter _

theorem unreplicated_nodup (m : ProcMaps) : m.unreplicated.Nodup := (m.computes_pairwise.filter _).imp ne_of_lt

theorem Valid.replicated_length (hm : m.Valid) : m.replicated.length = m.nR.toNat := by
  rw [← hm.inverse.card_replicated, replicated, computes, List.filter_map, length_map]
  rfl

theorem Valid.unreplicated_length (hm : m.Valid) : m.unreplicated.length = (m.nC - m.nR).toNat := by
  have hsplit := length_eq_length_filter_add (l := m.computes) fun c => decide (m.ctr c ≠ -1)
  have hrep := hm.replicated_length
  have hR := hm.nR_nonneg
  have hlen : m.computes.length = m.nC.toNat := by rw [computes, length_map, length_range]
  have hnot : m.computes.filter (fun c => !decide (m.ctr c ≠ -1)) = m.unreplicated := by
    apply filter_congr
    intro c _
    by_cases h : m.ctr c = -1 <;> simp [h]
  rw [hnot] at hsplit
  rw [replicated] at hrep
  omega

section Fill

variable {entry : Int → Segment}

private def below (m : ProcMaps) (i : Int) : List Int := m.computes.take i.toNat

variable {i : Int}

private theorem below_succ (h0 : 0 ≤ i) (hlt : i < m.nC) : m.below (i + 1) = m.below i ++ [i] := by
  have hi := computes_getElem? h0 hlt
  rw [below, below, show (i + 1).toNat = i.toNat + 1 by omega, take_add_one, hi, toList_some]

private theorem filter_below_length {p : Int → Bool} (h0 : 0 ≤ i) (hlt : i < m.nC) (hi : p i = true) :
    ((m.below i).filter p).length < (m.computes.filter p).length := by
  have hsub : (m.below (i + 1)).Sublist m.computes := take_sublist _ _
  have hle := (hsub.filter p).length_le
  rw [below_succ h0 hlt, filter_append, length_append, filter_cons_of_pos hi] at hle
  simp only [filter_nil, length_singleton] at hle
  omega

private structure FilledBelow (m : ProcMaps) (entry : Int → Segment) (i : Int) (s : SegmentArrays) : Prop where
  reps : CArray.Filled (((m.below i).filter fun c => m.ctr c ≠ -1).map entry) m.nR.toNat s.reps
  j : s.j = ((m.below i).filter fun c => m.ctr c ≠ -1).length
  inter : m.nC > m.nR ∧ m.nR > 0 →
    CArray.Filled (((m.below i).filter fun c => m.ctr c = -1).map entry) (m.nC - m.nR).toNat s.inter ∧
      s.k = ((m.below i).filter fun c => m.ctr c = -1).length

private theorem filledBelow_zero : m.FilledBelow entry 0
    ⟨replicate m.nR.toNat none, 0, replicate (m.nC - m.nR).toNat none, 0⟩ :=
  ⟨CArray.Filled.nil _, rfl, fun _ => ⟨CArray.Filled.nil _, rfl⟩⟩

private theorem Valid.fillSegment_spec (hm : m.Valid) {s : SegmentArrays} (h0 : 0 ≤ i)
    (hlt : i < m.nC) (h : m.FilledBelow entry i s) :
    ∃ t, m.fillSegment entry i s = some t ∧ m.FilledBelow entry (i + 1) t := by
  have hread := hm.inverse.ctr_holds i h0 hlt
  by_cases hrep : m.ctr i = -1
  · have hwith : (m.below (i + 1)).filter (fun c => m.ctr c ≠ -1) = (m.below i).filter fun c => m.ctr c ≠ -1 := by
      rw [below_succ h0 hlt, filter_append, filter_cons_of_neg (by simp [hrep]), filter_nil, append_nil]
    have hwithout : (m.below (i + 1)).filter (fun c => m.ctr c = -1) =
        ((m.below i).filter fun c => m.ctr c = -1) ++ [i] := by
      rw [below_succ h0 hlt, filter_append, filter_cons_of_pos (by simp [hrep]), filter_nil]
    simp only [fillSegment, hread, hrep]
    by_cases hb : m.nC > m.nR ∧ m.nR > 0
    · obtain ⟨hfill, hk⟩ := h.inter hb
      have hroom := filter_below_length (p := fun c => m.ctr c = -1) h0 hlt (by simp [hrep])
      obtain ⟨b, hwrite, hfill'⟩ := hfill.push (v := entry i) (by
        rw [length_map, ← hm.unreplicated_length]
        exact hroom)
      rw [length_map, ← hk] at hwrite
      rw [if_pos hb, hwrite]
      refine ⟨_, rfl, hwith ▸ h.reps, hwith ▸ h.j, fun _ => ?_⟩
      rw [hwithout, map_append, length_append, hk]
      exact ⟨hfill', rfl⟩
    · rw [if_neg hb]
      exact ⟨s, rfl, hwith ▸ h.reps, hwith ▸ h.j, fun hb' => absurd hb' hb⟩
  · have hwith : (m.below (i + 1)).filter (fun c => m.ctr c ≠ -1) =
        ((m.below i).filter fun c => m.ctr c ≠ -1) ++ [i] := by
      rw [below_succ h0 hlt, filter_append, filter_cons_of_pos (by simp [hrep]), filter_nil]
    have hwithout : (m.below (i + 1)).filter (fun c => m.ctr c = -1) = (m.below i).filter fun c => m.ctr c = -1 := by
      rw [below_succ h0 hlt, filter_append, filter_cons_of_neg (by simp [hrep]), filter_nil, append_nil]
    have hroom := filter_below_length (p := fun c => m.ctr c ≠ -1) h0 hlt (by simp [hrep])
    obtain ⟨b, hwrite, hfill⟩ := h.reps.push (v := entry i) (by
      rw [length_map, ← hm.replicated_length]
      exact hroom)
    rw [length_map, ← h.j] at hwrite
    simp only [fillSegment, hread, bind_eq_bind, bind_some, hrep, ne_eq, hwrite]
    refine ⟨_, rfl, ?_, ?_, hwithout ▸ h.inter⟩
    · rw [hwith, map_append]
      exact hfill
    · rw [hwith, length_append, h.j]
      rfl

/-- The loop stays within its arrays; they hold the entries of the ranks with a replica and of those without
one, each in the order of the ranks. -/
theorem Valid.fillSegments_spec (hm : m.Valid) (entry : Int → Segment) :
    ∃ s, m.fillSegments entry = some s ∧ s.reps = m.replicated.map (fun c => some (entry c)) ∧
      (m.nC > m.nR ∧ m.nR > 0 → s.inter = m.unreplicated.map fun c => some (entry c)) := by
  have hC := hm.nC_nonneg
  have hreps := hm.replicated_length
  have hinter := hm.unreplicated_length
  obtain ⟨t, ht, hr, _, hi⟩ := forRange_spec (P := m.FilledBelow entry) hC filledBelow_zero
    fun i s => hm.fillSegment_spec
  have hall : m.below m.nC = m.computes := by
    exact take_of_length_le (by rw [computes, length_map, length_range])
  rw [hall] at hr hi
  refine ⟨t, ht, ?_, ?_⟩
  · rw [hr.eq_map (by rw [length_map]; exact hreps.ge), List.map_map]
    rfl
  · intro hb
    rw [(hi hb).1.eq_map (by rw [length_map]; exact hinter.ge), List.map_map]
    rfl

end Fill

/-- The `r`-th compute rank with a replica is the logical rank of the replica `r`, for all of them, exactly
when the replicas come in the order of their logical ranks. -/
theorem Valid.replicated_getElem?_iff (hm : m.Valid) :
    (∀ r : Nat, r < m.nR.toNat → m.replicated[r]? = some (m.rtc r)) ↔ m.Increasing := by
  have hinv := hm.inverse
  constructor
  · intro h c c' h0 hlt hc' hne hne'
    by_contra hnot
    have hb := hinv.ctr_bounds h0 (by omega) hne
    have hb' := hinv.ctr_bounds (by omega) hc' hne'
    have hr := h (m.ctr c).toNat (by omega)
    have hr' := h (m.ctr c').toNat (by omega)
    rw [Int.toNat_of_nonneg hb.1, hinv.rtc_ctr h0 (by omega) hne] at hr
    rw [Int.toNat_of_nonneg hb'.1, hinv.rtc_ctr (by omega) hc' hne'] at hr'
    obtain ⟨hi, hget⟩ := List.getElem?_eq_some_iff.mp hr
    obtain ⟨hi', hget'⟩ := List.getElem?_eq_some_iff.mp hr'
    rcases Nat.lt_or_eq_of_le (show (m.ctr c').toNat ≤ (m.ctr c).toNat by omega) with hless | heq
    · have := pairwise_iff_getElem.mp m.replicated_pairwise _ _ hi' hi hless
      omega
    · simp only [heq] at hget'
      omega
  · intro hinc
    have hmono : ((List.range m.nR.toNat).map fun r : Nat => m.rtc r).Pairwise (· < ·) := by
      rw [pairwise_map]
      refine pairwise_lt_range.imp_of_mem ?_
      intro r r' hr hr' hlt
      rw [mem_range] at hr hr'
      have hb := hinv.rtc_bounds (r := r) (by omega) (by omega)
      have hb' := hinv.rtc_bounds (r := r') (by omega) (by omega)
      have hback := hinv.ctr_rtc (r := r) (by omega) (by omega)
      have hback' := hinv.ctr_rtc (r := r') (by omega) (by omega)
      by_contra hnot
      rcases Int.lt_or_eq_of_le (show m.rtc r' ≤ m.rtc r by omega) with hless | heq
      · have := hinc _ _ hb'.1 hless hb.2 (by omega) (by omega)
        omega
      · rw [heq] at hback'
        omega
    -- two increasing lists with the same ranks
    have hperm : m.replicated.Perm ((List.range m.nR.toNat).map fun r : Nat => m.rtc r) := by
      rw [perm_ext_iff_of_nodup (m.replicated_pairwise.imp ne_of_lt) (hmono.imp ne_of_lt)]
      intro c
      rw [mem_replicated, List.mem_map]
      constructor
      · intro ⟨h0, hlt, hne⟩
        have hb := hinv.ctr_bounds h0 hlt hne
        refine ⟨(m.ctr c).toNat, mem_range.mpr (by omega), ?_⟩
        rw [Int.toNat_of_nonneg hb.1, hinv.rtc_ctr h0 hlt hne]
      · intro h
        obtain ⟨r, hr, rfl⟩ := h
        rw [mem_range] at hr
        have hb := hinv.rtc_bounds (r := r) (by omega) (by omega)
        have hback := hinv.ctr_rtc (r := r) (by omega) (by omega)
        exact ⟨hb.1, hb.2, by omega⟩
    have heq := hperm.eq_of_pairwise (fun a b _ _ hab hba => absurd hab (by omega)) m.replicated_pairwise hmono
    intro r hr
    rw [heq, getElem?_map, getElem?_range hr, map_some]

end ProcMaps

end ParepMpi
