import ParepMpi.Failure.Ranks

/-!
# Intercommunicators after failures

`EMPI_Intercomm_create` returns only if the processes of both sides call it and name each other's leader. The leader of
the compute processes without a replica changes from failure to failure, and both sides work it out for themselves.
-/

namespace ParepMpi

open List Option ProcGroup Survivor

/-- The members of `EMPI_COMM_CMP`. -/
abbrev Survivor.cmpPart (s : Survivor) : List Int := s.world.take s.maps.nC.toNat

/-- The members of `EMPI_COMM_REP`. -/
abbrev Survivor.repPart (s : Survivor) : List Int := s.world.drop s.maps.nC.toNat

/-- All of a local group make the same call, and the remote leader in it leads a group whose call names the local one. -/
def Coupled (world : List Int) (call : Int → Option InterCall) : Prop :=
  ∀ p ∈ world, ∀ x, call p = some x → p ∈ x.group ∧ (∀ q ∈ x.group, call q = some x) ∧
    ∃ q y, CArray.read world x.remote = some q ∧ call q = some y ∧ y.group.head? = some q ∧
      x.group.head? = CArray.read world y.remote

theorem coupled_of_none {world : List Int} {call : Int → Option InterCall} (h : ∀ p ∈ world, call p = none) :
    Coupled world call := by
  intro p hp x hx
  rw [h p hp] at hx
  cases hx

namespace Represents

variable {cfg : Config} {s : Survivor} (h : Represents cfg s.maps s.world)

include h

variable {p : Int}

theorem rank_lt (hp : p ∈ s.cmpPart) : rank s.world p < s.maps.nC := by
  have hlt := (rank_lt_iff h.nodup s.maps.nC.toNat (mem_of_mem_take hp)).mpr hp
  rwa [Int.toNat_of_nonneg h.nC_nonneg] at hlt

theorem not_rank_lt (hp : p ∈ s.repPart) : ¬ rank s.world p < s.maps.nC := by
  rw [← Int.toNat_of_nonneg h.nC_nonneg, rank_lt_iff h.nodup _ (mem_of_mem_drop hp)]
  exact fun htake => disjoint_take_drop h.nodup le_rfl htake hp

omit h in
theorem mem_parts (hp : p ∈ s.world) : p ∈ s.cmpPart ∨ p ∈ s.repPart := by
  rwa [← mem_append, take_append_drop]

/-- Compute processes that satisfy `P` on one side, all replicas on the other, and `k` the first rank that does. -/
theorem coupled_of_parts (hR : 0 < s.maps.nR) {call : Int → Option InterCall} {P : Int → Bool} {k a : Int}
    (hcmp : ∀ p ∈ s.cmpPart, call p = if P p then some ⟨s.cmpPart.filter P, s.maps.nC⟩ else none)
    (hrep : ∀ p ∈ s.repPart, call p = some ⟨s.repPart, k⟩) (hk : CArray.read s.world k = some a)
    (ha : (s.cmpPart.filter P).head? = some a) : Coupled s.world call := by
  obtain ⟨b, hb, _⟩ := h.replica 0 le_rfl hR
  rw [add_zero] at hb
  have hhead : s.repPart.head? = some b := by rw [head?_drop, ← hb, CArray.read, if_pos h.nC_nonneg]
  have hside : ∀ q ∈ s.cmpPart.filter P, call q = some ⟨s.cmpPart.filter P, s.maps.nC⟩ := by
    intro q hq
    obtain ⟨hmem, hP⟩ := mem_filter.mp hq
    rw [hcmp q hmem, if_pos hP]
  intro p hp x hx
  rcases mem_parts hp with hmem | hmem
  · rw [hcmp p hmem] at hx
    split at hx
    next hP =>
      cases hx
      exact ⟨mem_filter.mpr ⟨hmem, hP⟩, hside, b, _, hb, hrep b (mem_of_mem_head? hhead), hhead, ha.trans hk.symm⟩
    next => cases hx
  · rw [hrep p hmem] at hx
    cases hx
    exact ⟨hmem, hrep, a, _, hk, hside a (mem_of_mem_head? ha), ha, hhead.trans hb.symm⟩

theorem colorinternal_eq_one_iff {c : Int} (hc : 0 ≤ c) (hlt : c < s.maps.nC) (hp : rank s.world p = c) :
    s.colorinternal p = 1 ↔ s.maps.ctr c = -1 := by
  rw [colorinternal, hp, h.inverse.ctr_holds c hc hlt]
  by_cases hnone : s.maps.ctr c = -1 <;> simp [hnone, undefinedRank]

/-- `rleader` is the rank of the first compute process without a replica. -/
theorem head_noRep (hlt : s.maps.nR < s.maps.nC) : ∃ a, CArray.read s.world s.maps.rleader = some a ∧
    (s.cmpPart.filter fun q => s.colorinternal q = 1).head? = some a := by
  have hC := Int.toNat_of_nonneg h.nC_nonneg
  have hholds : CArray.Holds s.world (s.maps.nC.toNat : Nat) cfg.compute := hC.symm ▸ h.compute
  obtain ⟨c, hc0, hclt, hc⟩ := h.inverse.exists_unreplicated h.nR_nonneg hlt
  have hctr : ∀ j ∈ range s.maps.nC.toNat, s.maps.cmpToRepMap.read (j : Nat) = some (-1) ↔
      s.colorinternal (cfg.compute j) = 1 := by
    intro j hj
    have hj := mem_range.mp hj
    rw [h.colorinternal_eq_one_iff (c := j) (by omega) (by omega)
      (rank_of_read h.nodup (hholds j (by omega) (by omega))), h.inverse.ctr_holds j (by omega) (by omega), some_inj]
  have hsome : ((range s.maps.nC.toNat).find? fun j : Nat => s.maps.cmpToRepMap.read j = some (-1)).isSome := by
    rw [find?_isSome]
    refine ⟨c.toNat, mem_range.mpr (by omega), ?_⟩
    rw [decide_eq_true_iff, Int.toNat_of_nonneg hc0, h.inverse.ctr_holds c hc0 hclt, hc]
  obtain ⟨j, hj⟩ := isSome_iff_exists.mp hsome
  have hjlt := mem_range.mp (mem_of_find?_eq_some hj)
  refine ⟨cfg.compute j, ?_, ?_⟩
  · rw [ProcMaps.rleader, hj]
    exact hholds j (by omega) (by omega)
  · rw [cmpPart, hholds.take_eq, List.filter_map, head?_map, Function.comp_def,
      filter_congr fun k hk => decide_eq_decide.mpr (hctr k hk).symm, head?_filter, hj, map_some]

section Calls

variable (hR : 0 < s.maps.nR) {p : Int}

include hR

theorem calls_compute (hp : p ∈ s.cmpPart) :
    { s with me := p }.comms.cmpRepInter = some ⟨s.cmpPart, s.maps.nC⟩ ∧
      { s with me := p }.comms.cmpNoRepInter = if s.colorinternal p = 1 then
        some ⟨s.cmpPart.filter fun q => s.colorinternal q = 1, s.maps.nC⟩ else none := by
  have hlt := h.rank_lt hp
  have hsplit := split_half h.nodup s.maps.nC.toNat (p := p)
  rw [Int.toNat_of_nonneg h.nC_nonneg, if_pos hlt] at hsplit
  have hinternal : { s with me := p }.colorinternal = s.colorinternal := rfl
  have hnone : s.colorinternal p = undefinedRank ↔ ¬ s.colorinternal p = 1 := by
    unfold colorinternal
    split <;> simp [undefinedRank]
  simp only [comms, hR, hlt, if_true, hsplit, hinternal, hnone]
  refine ⟨trivial, ?_⟩
  by_cases hone : s.colorinternal p = 1 <;> simp [hone, split]

theorem calls_replica (hp : p ∈ s.repPart) :
    { s with me := p }.comms.cmpRepInter = some ⟨s.repPart, 0⟩ ∧
      { s with me := p }.comms.cmpNoRepInter =
        if s.maps.nR < s.maps.nC then some ⟨s.repPart, s.maps.rleader⟩ else none := by
  have hge := h.not_rank_lt hp
  have hsplit := split_half h.nodup s.maps.nC.toNat (p := p)
  rw [Int.toNat_of_nonneg h.nC_nonneg, if_neg hge] at hsplit
  simp [comms, hR, hge, hsplit]

theorem coupled_cmpRep : Coupled s.world fun p => { s with me := p }.comms.cmpRepInter := by
  obtain ⟨h0, hC⟩ := h.inverse.rtc_bounds le_rfl hR
  have hread := h.compute 0 le_rfl (by omega)
  refine h.coupled_of_parts hR (P := fun _ => true) (fun p hp => ?_) (fun p hp => (h.calls_replica hR hp).1) hread ?_
  · simpa using (h.calls_compute hR hp).1
  · rw [filter_true, head?_take, if_neg (by omega), head?_eq_getElem?]
    exact hread

theorem coupled_cmpNoRep : Coupled s.world fun p => { s with me := p }.comms.cmpNoRepInter := by
  by_cases hlt : s.maps.nR < s.maps.nC
  · obtain ⟨a, ha, hhead⟩ := h.head_noRep hlt
    refine h.coupled_of_parts hR (P := fun q => s.colorinternal q = 1) (fun p hp => ?_) (fun p hp => ?_) ha hhead
    · simpa using (h.calls_compute hR hp).2
    · exact (h.calls_replica hR hp).2.trans (if_pos hlt)
  · -- Every compute process has a replica, and neither side calls.
    refine coupled_of_none fun p hp => ?_
    rcases mem_parts hp with hmem | hmem
    · have h0 := (rank_bounds hp).1
      rw [(h.calls_compute hR hmem).2, if_neg]
      rw [h.colorinternal_eq_one_iff h0 (h.rank_lt hmem) rfl]
      exact fun hnone => hlt (h.inverse.nR_lt_nC h0 (h.rank_lt hmem) hnone)
    · exact (h.calls_replica hR hmem).2.trans (if_neg hlt)

end Calls

end Represents

/-- After any failures every call of `EMPI_Intercomm_create`, for the compute processes and the replicas and for the
compute processes without a replica and the replicas, meets the call of the other side. -/
theorem intercomms_match {m : ProcMaps} {me : Int} {events : List NoticeEvent} {s : Survivor} (h : GoesOn m me events s) :
    Coupled s.world (fun p => { s with me := p }.comms.cmpRepInter) ∧
      Coupled s.world (fun p => { s with me := p }.comms.cmpNoRepInter) := by
  obtain ⟨_, _, hrep, _⟩ := h.represents
  by_cases hR : 0 < s.maps.nR
  · exact ⟨hrep.coupled_cmpRep hR, hrep.coupled_cmpNoRep hR⟩
  · exact ⟨coupled_of_none fun p _ => by simp [comms, hR], coupled_of_none fun p _ => by simp [comms, hR]⟩

theorem promotion_intercomms_match : ∃ s, GoesOn (.initial 3 2) 3 promotion s ∧
    Coupled s.world fun p => { s with me := p }.comms.cmpNoRepInter := by
  obtain ⟨s, h⟩ := promotion_goesOn.2
  exact ⟨s, h, (intercomms_match h).2⟩

end ParepMpi
