import ParepMpi.Failure.RemapSpec

/-!
# The renumbering is exact

`Renumbered` gathers what the two loops leave when every failed rank frees a position of its own.
-/

namespace ParepMpi

open ProcMaps Compact Option RemapState

/-- The maps and the order of the old ranks when the ranks of `failed` have left. -/
structure Renumbered (m : ProcMaps) (failed : List Int) (m' : ProcMaps) (ranks : CArray Int) :
    Prop where
  nC : m'.nC = m.nC
  nR : m'.nR = m.nR - failed.length
  ctr : m'.cmpToRepMap.Holds m.nC (m.ctrClosed failed)
  rtc : ∀ r, 0 ≤ r → r < m.nR → r ∉ m.freedReps failed →
    m'.repToCmpMap.read (place (m.freedReps failed) r) = some (m.rtc r)
  ranks : ∀ i, 0 ≤ i → i < m.nC + m.nR → i ∉ m.freed failed →
    ranks.read (place (m.freed failed) i) = some (m.ranksWithout failed i)

def LosesEveryCopy (m : ProcMaps) (failed : List Int) : Prop :=
  ∃ c ∈ failed, c < m.nC ∧ (m.ctr c = -1 ∨ m.nC + m.ctr c ∈ failed)

instance (m : ProcMaps) (failed : List Int) : Decidable (LosesEveryCopy m failed) :=
  inferInstanceAs (Decidable (∃ c ∈ failed, c < m.nC ∧ (m.ctr c = -1 ∨ m.nC + m.ctr c ∈ failed)))

section

variable {m : ProcMaps} {failed : List Int}

theorem freed_nodup_iff (hm : m.MutuallyInverse) (hrange : m.Ranks failed)
    (hrep : m.Replicated failed) (hnodup : failed.Nodup) :
    (m.freed failed).Nodup ↔ ∀ c ∈ failed, c < m.nC → m.nC + m.ctr c ∉ failed := by
  constructor
  · intro h c hc hlt hmem
    have hbounds := hm.ctr_bounds (hrange c hc).1 hlt (hrep c hc hlt)
    have hne := List.inj_on_of_nodup_map h hc hmem (by rw [vacated_of_lt hlt, vacated_of_ge (by omega)])
    omega
  · intro h
    refine hnodup.map_on ?_
    intro c hc d hd heq
    by_cases hclt : c < m.nC <;> by_cases hdlt : d < m.nC
    · rw [vacated_of_lt hclt, vacated_of_lt hdlt] at heq
      exact hm.ctr_injective (hrange c hc).1 hclt (hrange d hd).1 hdlt (hrep c hc hclt) (by omega)
    · rw [vacated_of_lt hclt, vacated_of_ge (by omega)] at heq
      exact absurd (heq ▸ hd) (h c hc hclt)
    · rw [vacated_of_ge (by omega), vacated_of_lt hdlt] at heq
      exact absurd (heq ▸ hc) (h d hd hdlt)
    · rwa [vacated_of_ge (by omega), vacated_of_ge (by omega)] at heq

end

/-- The ranks of the list may fail together: every logical rank keeps a copy. -/
structure Survivable (m : ProcMaps) (failed : List Int) : Prop where
  inverse : m.MutuallyInverse
  nC_nonneg : 0 ≤ m.nC
  nR_nonneg : 0 ≤ m.nR
  range : m.Ranks failed
  replicated : m.Replicated failed
  nodup : (m.freed failed).Nodup

namespace Survivable

variable {m : ProcMaps} {failed : List Int}

theorem of_not_loses (hm : m.MutuallyInverse) (hC : 0 ≤ m.nC) (hR : 0 ≤ m.nR)
    (hrange : m.Ranks failed) (hnodup : failed.Nodup) (h : ¬ LosesEveryCopy m failed) :
    Survivable m failed := by
  have hrep : m.Replicated failed := fun f hf hlt hctr => h ⟨f, hf, hlt, .inl hctr⟩
  exact ⟨hm, hC, hR, hrange, hrep, (freed_nodup_iff hm hrange hrep hnodup).mpr
    (fun c hc hlt hmem => h ⟨c, hc, hlt, .inr hmem⟩)⟩

theorem freed_range (hs : Survivable m failed) {q : Int} (hq : q ∈ m.freed failed) : m.nC ≤ q ∧ q < m.nC + m.nR :=
  ProcMaps.freed_range hs.inverse hs.range hs.replicated hq

theorem pair (hs : Survivable m failed) : ∀ c ∈ failed, c < m.nC → m.nC + m.ctr c ∉ failed :=
  (freed_nodup_iff hs.inverse hs.range hs.replicated (List.Nodup.of_map _ hs.nodup)).mp hs.nodup

end Survivable

variable {m : ProcMaps} {myrank : Int}

theorem lostCand_isSome (hm : m.MutuallyInverse) (h0 : 0 ≤ myrank) : ∃ b, lostCand m myrank = some b := by
  unfold lostCand
  by_cases hge : m.nC ≤ myrank
  · exact ⟨true, if_pos hge⟩
  · rw [if_neg hge, hm.ctr_holds myrank h0 (by omega)]
    exact ⟨_, rfl⟩

theorem noteReplicaLost_isSome {f : Int → Int}
    (hm : m.cmpToRepMap.Holds m.nC f) (h0 : 0 ≤ myrank) (cand switching lost : Bool) :
    ∃ b, noteReplicaLost m myrank cand switching lost = some b := by
  unfold noteReplicaLost
  cases cand with
  | false => exact ⟨lost, rfl⟩
  | true =>
    by_cases hge : m.nC ≤ myrank
    · exact ⟨lost || switching, by rw [if_pos rfl, if_pos hge]⟩
    · rw [if_pos rfl, if_neg hge, hm myrank h0 (by omega)]
      exact ⟨_, rfl⟩

section

variable {m : ProcMaps} {failed : List Int} {myrank : Int}

theorem remap_spec (hs : Survivable m failed) (h0 : 0 ≤ myrank) (hmy : myrank < m.nC + m.nR) (lost : Bool) :
    ∃ out, remap m myrank false lost failed = some out ∧ out.aborting = false ∧
      Renumbered m failed out.maps out.worldCommRanks := by
  obtain ⟨hm, hC, hR, hrange, hrep, hnodup⟩ := hs
  obtain ⟨cand, hcand⟩ := lostCand_isSome hm h0
  obtain ⟨st, hst, hrem, hab⟩ := removeFailed_spec hm hC hmy (start_removed hm hC hR false) failed hrange hrep hnodup
  obtain ⟨st', hst', hclosed⟩ := closeUp_spec hm hC hR hrange hrep hnodup hrem
  have hfalse : st.aborting = false := hab
  have hctr : st'.cmpToRepMap.Holds m.nC (m.ctrClosed failed) :=
    hclosed.ctr.congr (fun c _ hc => by rw [if_pos (by omega)])
  obtain ⟨b, hb⟩ := noteReplicaLost_isSome (m := ⟨m.nC - st.nCdiff, m.nR - st.nRdiff, st'.cmpToRepMap, st'.repToCmpMap⟩)
    (by simpa [hrem.nCdiff] using hctr) h0 cand st.switchingToCmp lost
  refine ⟨⟨⟨m.nC - st.nCdiff, m.nR - st.nRdiff, st'.cmpToRepMap, st'.repToCmpMap⟩,
    st'.worldCommRanks, false, b⟩, ?_, rfl, ?_⟩
  · simp only [remap, hcand, hst, hfalse, hst', hb, bind_eq_bind, bind_some, Bool.false_eq_true, if_false]
  · refine ⟨by simp [hrem.nCdiff], by simp [hrem.nRdiff], hctr, ?_, ?_⟩
    · intro r hr hlt hkeep
      have hdone := hclosed.rtc.done r hr (by omega) hkeep
      rwa [rtcWithout, if_neg (mt mem_freedReps.mpr hkeep)] at hdone
    · intro i hi hlt hkeep
      exact hclosed.ranks.done i hi hlt hkeep

theorem remap_abort (hm : m.MutuallyInverse) (hC : 0 ≤ m.nC) (hR : 0 ≤ m.nR) (h0 : 0 ≤ myrank)
    (hmy : myrank < m.nC + m.nR) (lost : Bool) (hrange : m.Ranks failed)
    (hsorted : failed.Pairwise (· < ·)) (hlost : ∃ f ∈ failed, f < m.nC ∧ m.ctr f = -1) :
    ∃ out, remap m myrank false lost failed = some out ∧ out.aborting = true := by
  obtain ⟨cand, hcand⟩ := lostCand_isSome hm h0
  obtain ⟨st, hst, htrue, cut, hcut⟩ := removeFailed_abort hm hC hmy
    (start_removed hm hC hR false) failed hrange hsorted (by simp [Replicated]) hlost
  obtain ⟨b, hb⟩ := noteReplicaLost_isSome
    (m := ⟨m.nC, m.nR, st.cmpToRepMap, st.repToCmpMap⟩) hcut.ctr h0 cand st.switchingToCmp lost
  refine ⟨⟨⟨m.nC, m.nR, st.cmpToRepMap, st.repToCmpMap⟩, st.worldCommRanks, true, b⟩, ?_, rfl⟩
  simp only [remap, hcand, hst, htrue, hb, bind_eq_bind, bind_some, if_true]

/-- A compute process that fails together with its replica, all failed compute processes having one,
makes the renumbering write outside `cmpToRepMap`. -/
theorem remap_fault (hm : m.MutuallyInverse) (hC : 0 ≤ m.nC) (hR : 0 ≤ m.nR) (h0 : 0 ≤ myrank)
    (hmy : myrank < m.nC + m.nR) (lost : Bool) (hrange : m.Ranks failed)
    (hsorted : failed.Pairwise (· < ·)) (hrep : m.Replicated failed)
    (htwice : ¬ (m.freed failed).Nodup) : remap m myrank false lost failed = none := by
  obtain ⟨cand, hcand⟩ := lostCand_isSome hm h0
  have hnone := removeFailed_fault hm hC hmy
    (start_removed hm hC hR false) failed hrange hsorted hrep (by simp [freed]) htwice
  simp only [remap, hcand, hnone, bind_eq_bind, bind_some, bind_none]

end

section

variable {m m' : ProcMaps} {failed : List Int} {ranks : CArray Int}

theorem place_freed_add (r : Int) : place (m.freed failed) (m.nC + r) = m.nC + place (m.freedReps failed) r := by
  rw [place, place, shift_freedReps]
  omega

variable (hs : Survivable m failed)

include hs

theorem place_freed_of_le {i : Int} (hi : i ≤ m.nC) : place (m.freed failed) i = i := by
  rw [place, shift_eq_zero, Int.sub_zero]
  intro q hq
  have := hs.freed_range hq
  omega

theorem place_freed_end :
    place (m.freed failed) (m.nC + m.nR) = m.nC + m.nR - failed.length := by
  rw [place, shift_eq_length, freed, List.length_map]
  exact fun q hq => (hs.freed_range hq).2

theorem freedReps_nonneg : ∀ r ∈ m.freedReps failed, 0 ≤ r := by
  intro r hr
  have := hs.freed_range (mem_freedReps.mp hr)
  omega

theorem ranksWithout_injective {i j : Int} (hi : i ∉ m.freed failed) (hj : j ∉ m.freed failed)
    (heq : m.ranksWithout failed i = m.ranksWithout failed j) : i = j := by
  have hlt : ∀ k ∈ failed, k ∉ m.freed failed → k < m.nC := fun k hk hfreed => by
    by_contra hge
    exact hfreed (mem_freed_of_ge hk (by omega))
  have hvac : ∀ k ∈ failed, k ∉ m.freed failed → m.nC + m.ctr k ∈ m.freed failed :=
    fun k hk hfreed => List.mem_map.mpr ⟨k, hk, vacated_of_lt (hlt k hk hfreed)⟩
  rw [ranksWithout, ranksWithout, if_neg hi, if_neg hj] at heq
  by_cases hif : i ∈ failed <;> by_cases hjf : j ∈ failed
  · rw [if_pos hif, if_pos hjf] at heq
    exact hs.inverse.ctr_injective (hs.range i hif).1 (hlt i hif hi) (hs.range j hjf).1 (hlt j hjf hj)
      (hs.replicated i hif (hlt i hif hi)) (by omega)
  · rw [if_pos hif, if_neg hjf] at heq
    exact absurd (heq ▸ hvac i hif hi) hj
  · rw [if_neg hif, if_pos hjf] at heq
    exact absurd (heq ▸ hvac j hjf hj) hi
  · rwa [if_neg hif, if_neg hjf] at heq

namespace Renumbered

section

variable (h : Renumbered m failed m' ranks)

include h

variable {k : Int}

theorem exists_position (hk : 0 ≤ k) (hlt : k < m'.nC + m'.nR) :
    ∃ i : Int, 0 ≤ i ∧ i < m.nC + m.nR ∧ i ∉ m.freed failed ∧ place (m.freed failed) i = k := by
  have hC := hs.nC_nonneg
  have hR := hs.nR_nonneg
  refine exists_place hs.nodup ?_ (by omega) hk ?_
  · intro q hq
    have := hs.freed_range hq
    omega
  · rw [place_freed_end hs]
    have := h.nC
    have := h.nR
    omega

theorem exists_replica (hk : 0 ≤ k) (hlt : k < m'.nR) :
    ∃ r : Int, 0 ≤ r ∧ r < m.nR ∧ r ∉ m.freedReps failed ∧ place (m.freedReps failed) r = k := by
  refine exists_place (freedReps_nodup hs.nodup) (freedReps_nonneg hs) hs.nR_nonneg hk ?_
  have hend := place_freed_end hs
  rw [place_freed_add] at hend
  have := h.nR
  omega

theorem place_lt_nR
    {r : Int} (hr : 0 ≤ r) (hlt : r < m.nR) (hkeep : r ∉ m.freedReps failed) :
    0 ≤ place (m.freedReps failed) r ∧ place (m.freedReps failed) r < m'.nR := by
  have hend := place_freed_end hs
  rw [place_freed_add] at hend
  have hstrict := place_lt (freedReps_nodup hs.nodup) hkeep hlt
  have hnonneg := place_nonneg (freedReps_nodup hs.nodup) (freedReps_nonneg hs) hr
  have := h.nR
  omega

end

theorem ctrClosed_eq_iff {c r : Int} (hc : 0 ≤ c)
    (hclt : c < m.nC) (hr : 0 ≤ r) (hrlt : r < m.nR) (hkeep : r ∉ m.freedReps failed) :
    m.ctrClosed failed c = place (m.freedReps failed) r ↔ m.rtc r = c := by
  have hnonneg := place_nonneg (freedReps_nodup hs.nodup) (freedReps_nonneg hs) hr
  rw [← hs.inverse.ctr_eq_iff hc hclt hr hrlt, ctrClosed, ctrWithout]
  by_cases hfreed : m.nC + m.ctr c ∈ m.freed failed
  · rw [if_pos hfreed, if_pos rfl]
    refine iff_of_false (by omega) ?_
    rintro rfl
    exact hkeep (mem_freedReps.mpr hfreed)
  · rw [if_neg hfreed]
    by_cases hnone : m.ctr c = -1
    · exact iff_of_false (by omega) (by omega)
    · rw [if_neg hnone]
      constructor
      · exact place_injective (freedReps_nodup hs.nodup) (mt mem_freedReps.mp hfreed) hkeep
      · rintro rfl
        rfl

variable (h : Renumbered m failed m' ranks)

include h

theorem mutuallyInverse : m'.MutuallyInverse where
  cmp := by
    intro c hc hlt
    rw [h.nC] at hlt
    refine ⟨m.ctrClosed failed c, h.ctr c hc hlt, ?_⟩
    by_cases hnone : m.ctrWithout failed c = -1
    · exact .inl (if_pos hnone)
    · rw [ctrClosed, if_neg hnone]
      obtain ⟨h0, h1⟩ := (ctrWithout_range hs.inverse hc hlt).resolve_left hnone
      refine .inr (h.place_lt_nR hs h0 h1 ?_)
      rw [mem_freedReps]
      unfold ctrWithout at hnone ⊢
      split at hnone
      · exact absurd rfl hnone
      · rwa [if_neg ‹_›]
  rep := by
    intro k hk hlt
    obtain ⟨r, hr, hrlt, hkeep, rfl⟩ := h.exists_replica hs hk hlt
    rw [h.nC]
    exact ⟨m.rtc r, h.rtc r hr hrlt hkeep, hs.inverse.rtc_bounds hr hrlt⟩
  inverse := by
    intro c k hc hclt hk hklt
    rw [h.nC] at hclt
    obtain ⟨r, hr, hrlt, hkeep, rfl⟩ := h.exists_replica hs hk hklt
    rw [h.ctr c hc hclt, h.rtc r hr hrlt hkeep, some_inj, some_inj]
    exact ctrClosed_eq_iff hs hc hclt hr hrlt hkeep

theorem ranks_compute {c : Int} (hc : 0 ≤ c)
    (hlt : c < m.nC) : ranks.read c = some (if c ∈ failed then m.nC + m.ctr c else c) := by
  have hR := hs.nR_nonneg
  have hkeep : c ∉ m.freed failed := fun hmem => by
    have := hs.freed_range hmem
    omega
  have hread := h.ranks c hc (by omega) hkeep
  rwa [place_freed_of_le hs (by omega), ranksWithout, if_neg hkeep] at hread

theorem ranks_place {r : Int} (hr : 0 ≤ r)
    (hlt : r < m.nR) (hkeep : r ∉ m.freedReps failed) :
    ranks.read (m.nC + place (m.freedReps failed) r) = some (m.nC + r) ∧ m.nC + r ∉ failed := by
  have hC := hs.nC_nonneg
  have hstay := mt mem_freedReps.mpr hkeep
  have hnot : m.nC + r ∉ failed := fun hmem => hstay (mem_freed_of_ge hmem (by omega))
  have hread := h.ranks (m.nC + r) (by omega) (by omega) hstay
  rw [place_freed_add, ranksWithout, if_neg hstay, if_neg hnot] at hread
  exact ⟨hread, hnot⟩

theorem ranks_replica {k : Int} (hk : 0 ≤ k) (hlt : k < m'.nR) :
    ∃ r, 0 ≤ r ∧ r < m.nR ∧ m.nC + r ∉ failed ∧ ranks.read (m.nC + k) = some (m.nC + r) ∧
      m'.repToCmpMap.read k = some (m.rtc r) := by
  obtain ⟨r, hr, hrlt, hkeep, rfl⟩ := h.exists_replica hs hk hlt
  obtain ⟨hread, hnot⟩ := h.ranks_place hs hr hrlt hkeep
  exact ⟨r, hr, hrlt, hnot, hread, h.rtc r hr hrlt hkeep⟩

theorem nR_nonneg : 0 ≤ m'.nR := by
  have hR := hs.nR_nonneg
  have hmono := place_mono hs.nodup (show m.nC ≤ m.nC + m.nR by omega)
  rw [place_freed_of_le hs le_rfl, place_freed_end hs] at hmono
  have := h.nR
  omega

theorem ranks_survivors
    (hpair : ∀ c ∈ failed, c < m.nC → m.nC + m.ctr c ∉ failed) (q : Int) :
    (∃ k, 0 ≤ k ∧ k < m'.nC + m'.nR ∧ ranks.read k = some q) ↔ 0 ≤ q ∧ q < m.nC + m.nR ∧ q ∉ failed := by
  have hC := hs.nC_nonneg
  have hR := hs.nR_nonneg
  have hnC := h.nC
  constructor
  · rintro ⟨k, hk, hklt, hread⟩
    by_cases hkc : k < m.nC
    · rw [h.ranks_compute hs hk hkc, some_inj] at hread
      by_cases hmem : k ∈ failed
      · rw [if_pos hmem] at hread
        have := hs.inverse.ctr_bounds hk hkc (hs.replicated k hmem hkc)
        exact ⟨by omega, by omega, hread ▸ hpair k hmem hkc⟩
      · rw [if_neg hmem] at hread
        exact ⟨by omega, by omega, hread ▸ hmem⟩
    · obtain ⟨r, hr, hrlt, hnot, hread', _⟩ := h.ranks_replica hs (show 0 ≤ k - m.nC by omega) (by omega)
      rw [show m.nC + (k - m.nC) = k by omega, hread, some_inj] at hread'
      exact ⟨by omega, by omega, hread' ▸ hnot⟩
  · rintro ⟨hq, hqlt, hnot⟩
    have hend := place_freed_end hs
    have hnR := h.nR
    by_cases hqc : q < m.nC
    · have hread := h.ranks_compute hs hq hqc
      rw [if_neg hnot] at hread
      have hmono := place_mono hs.nodup (show m.nC ≤ m.nC + m.nR by omega)
      rw [place_freed_of_le hs le_rfl] at hmono
      exact ⟨q, hq, by omega, hread⟩
    · -- A replica is at the position of its logical rank when that rank's compute process failed.
      obtain ⟨hc0, hc1⟩ := hs.inverse.rtc_bounds (show 0 ≤ q - m.nC by omega) (by omega)
      have hctr := hs.inverse.ctr_rtc (show 0 ≤ q - m.nC by omega) (by omega)
      by_cases hmem : m.rtc (q - m.nC) ∈ failed
      · have hread := h.ranks_compute hs hc0 hc1
        rw [if_pos hmem, hctr, show m.nC + (q - m.nC) = q by omega] at hread
        have hmono := place_mono hs.nodup (show m.nC ≤ m.nC + m.nR by omega)
        rw [place_freed_of_le hs le_rfl] at hmono
        exact ⟨_, hc0, by omega, hread⟩
      · have hkeep : q ∉ m.freed failed := by
          intro hfreed
          obtain ⟨f, hf, hvac⟩ := List.mem_map.mp hfreed
          by_cases hlt : f < m.nC
          · rw [vacated_of_lt hlt] at hvac
            have hback := hs.inverse.rtc_ctr (hs.range f hf).1 hlt (hs.replicated f hf hlt)
            rw [show m.ctr f = q - m.nC by omega] at hback
            exact hmem (hback ▸ hf)
          · rw [vacated_of_ge (by omega)] at hvac
            exact hnot (hvac ▸ hf)
        have hread := h.ranks q hq hqlt hkeep
        rw [ranksWithout, if_neg hkeep, if_neg hnot] at hread
        have hstrict := place_lt hs.nodup hkeep hqlt
        refine ⟨_, ?_, by omega, hread⟩
        exact place_nonneg hs.nodup (fun p hp => by have := hs.freed_range hp; omega) hq

theorem ranks_distinct {j k : Int}
    (hj : 0 ≤ j) (hjlt : j < m'.nC + m'.nR) (hk : 0 ≤ k) (hklt : k < m'.nC + m'.nR)
    (heq : ranks.read j = ranks.read k) : j = k := by
  obtain ⟨i, hi, hilt, hikeep, rfl⟩ := h.exists_position hs hj hjlt
  obtain ⟨l, hl, hllt, hlkeep, rfl⟩ := h.exists_position hs hk hklt
  rw [h.ranks i hi hilt hikeep, h.ranks l hl hllt hlkeep, some_inj] at heq
  rw [ranksWithout_injective hs hikeep hlkeep heq]

end Renumbered

end

theorem renumbered_of_remap {failed : List Int} {lost : Bool} {out : Remapped}
    (hm : m.MutuallyInverse) (hC : 0 ≤ m.nC) (hR : 0 ≤ m.nR) (h0 : 0 ≤ myrank)
    (hmy : myrank < m.nC + m.nR) (hrange : m.Ranks failed) (hsorted : failed.Pairwise (· < ·))
    (hout : remap m myrank false lost failed = some out) (hgo : out.aborting = false) :
    Survivable m failed ∧ Renumbered m failed out.maps out.worldCommRanks := by
  have hrep : m.Replicated failed := by
    intro f hf hlt hctr
    obtain ⟨out', hout', htrue⟩ := remap_abort hm hC hR h0 hmy lost hrange hsorted ⟨f, hf, hlt, hctr⟩
    rw [hout, some_inj] at hout'
    rw [← hout', hgo] at htrue
    cases htrue
  have hnodup : (m.freed failed).Nodup := by
    by_contra hnot
    rw [remap_fault hm hC hR h0 hmy lost hrange hsorted hrep hnot] at hout
    cases hout
  have hs : Survivable m failed := ⟨hm, hC, hR, hrange, hrep, hnodup⟩
  obtain ⟨out', hout', _, hren⟩ := remap_spec hs h0 hmy lost
  rw [hout, some_inj] at hout'
  exact ⟨hs, hout' ▸ hren⟩

structure ExactlyRemapped (m : ProcMaps) (failed : List Int) (out : Remapped) : Prop where
  nC : out.maps.nC = m.nC
  nR : out.maps.nR = m.nR - failed.length
  inverse : out.maps.MutuallyInverse
  survivors : ∀ q, (∃ k, 0 ≤ k ∧ k < out.maps.nC + out.maps.nR ∧
    out.worldCommRanks.read k = some q) ↔ 0 ≤ q ∧ q < m.nC + m.nR ∧ q ∉ failed
  distinct : ∀ j k, 0 ≤ j → j < out.maps.nC + out.maps.nR → 0 ≤ k →
    k < out.maps.nC + out.maps.nR → out.worldCommRanks.read j = out.worldCommRanks.read k → j = k
  compute : ∀ c, 0 ≤ c → c < m.nC → out.worldCommRanks.read c = some (if c ∈ failed then m.nC + m.ctr c else c)
  replica : ∀ k, 0 ≤ k → k < out.maps.nR → ∃ r, 0 ≤ r ∧ r < m.nR ∧
    out.worldCommRanks.read (m.nC + k) = some (m.nC + r) ∧
    out.maps.repToCmpMap.read k = some (m.rtc r)

/-- The renumbering aborts when a logical rank loses every copy, and is exact otherwise. -/
def RemapsExactly (m : ProcMaps) (myrank : Int) (replicaLost : Bool) (failed : List Int) : Prop :=
  ∃ out, remap m myrank false replicaLost failed = some out ∧ (out.aborting = true ↔ LosesEveryCopy m failed) ∧
    (out.aborting = false → ExactlyRemapped m failed out)

/-- The renumbering is exact unless a compute process fails together with its replica while every
failed compute process has one. -/
theorem remapsExactly_iff {m : ProcMaps} {myrank : Int} {failed : List Int} (replicaLost : Bool)
    (hC : 1 ≤ m.nC) (hR : 0 ≤ m.nR) (hm : m.MutuallyInverse) (h0 : 0 ≤ myrank)
    (hmy : myrank < m.nC + m.nR) (hrange : ∀ f ∈ failed, 0 ≤ f ∧ f < m.nC + m.nR)
    (hsorted : failed.Pairwise (· < ·)) :
    RemapsExactly m myrank replicaLost failed ↔ (∃ c ∈ failed, c < m.nC ∧ m.ctr c = -1) ∨
        ∀ c ∈ failed, c < m.nC → m.nC + m.ctr c ∉ failed := by
  have hC' : 0 ≤ m.nC := by omega
  have hnodup : failed.Nodup := hsorted.imp (fun h => by omega)
  by_cases hbare : ∃ c ∈ failed, c < m.nC ∧ m.ctr c = -1
  · refine iff_of_true ?_ (.inl hbare)
    obtain ⟨out, hout, htrue⟩ := remap_abort hm hC' hR h0 hmy replicaLost hrange hsorted hbare
    obtain ⟨c, hc, hlt, hctr⟩ := hbare
    refine ⟨out, hout, iff_of_true htrue ⟨c, hc, hlt, .inl hctr⟩, ?_⟩
    intro hfalse
    rw [htrue] at hfalse
    cases hfalse
  · have hrep : m.Replicated failed := fun f hf hlt hctr => hbare ⟨f, hf, hlt, hctr⟩
    have hiff := freed_nodup_iff hm hrange hrep hnodup
    by_cases hpair : ∀ c ∈ failed, c < m.nC → m.nC + m.ctr c ∉ failed
    · refine iff_of_true ?_ (.inr hpair)
      have hs : Survivable m failed := ⟨hm, hC', hR, hrange, hrep, hiff.mpr hpair⟩
      obtain ⟨out, hout, hfalse, h⟩ := remap_spec hs h0 hmy replicaLost
      refine ⟨out, hout, ?_, fun _ => ?_⟩
      · refine iff_of_false (by simp [hfalse]) ?_
        rintro ⟨c, hc, hlt, hctr | hmem⟩
        · exact hrep c hc hlt hctr
        · exact hpair c hc hlt hmem
      · refine ⟨h.nC, h.nR, h.mutuallyInverse hs, h.ranks_survivors hs hpair,
          fun j k hj hjlt hk hklt => h.ranks_distinct hs hj hjlt hk hklt,
          fun c hc hlt => h.ranks_compute hs hc hlt, ?_⟩
        intro k hk hlt
        obtain ⟨r, hr, hrlt, _, hranks, hrtc⟩ := h.ranks_replica hs hk hlt
        exact ⟨r, hr, hrlt, hranks, hrtc⟩
    · refine iff_of_false ?_ (by tauto)
      rintro ⟨out, hout, _⟩
      rw [remap_fault hm hC' hR h0 hmy replicaLost hrange hsorted hrep (mt hiff.mp hpair)] at hout
      cases hout

/-- Three logical ranks, two of them replicated: the notice that the first compute process failed. -/
theorem remapsExactly_promotes : RemapsExactly (.initial 3 2) 1 false [0] ∧
      (remap (.initial 3 2) 1 false false [0]).map (·.worldCommRanks.take 4) = some [3, 1, 2, 4] :=
  ⟨(remapsExactly_iff false (by decide) (by decide)
    (ProcMaps.initial_mutuallyInverse (by decide)) (by decide) (by decide) (by decide)
    (by decide)).mpr (.inr (by decide)), by decide⟩

/-- Both copies of the first of two logical ranks fail: the handler neither aborts nor goes on. -/
theorem remap_both_copies : LosesEveryCopy (.initial 2 1) [0, 2] ∧ remap (.initial 2 1) 1 false false [0, 2] = none ∧
      ¬ RemapsExactly (.initial 2 1) 1 false [0, 2] := by
  have hnone : remap (.initial 2 1) 1 false false [0, 2] = none := by decide
  refine ⟨by decide, hnone, ?_⟩
  rintro ⟨out, hout, _⟩
  rw [hnone] at hout
  cases hout

end ParepMpi
