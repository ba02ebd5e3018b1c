import ParepMpi.Failure.Remap

/-!
# What the renumbering computes

Each failed rank frees one position among the replicas: a failed replica its own, a failed compute process that of the
replica promoted in its stead.
-/

namespace ParepMpi

open Function List Compact

namespace ProcMaps

variable (m : ProcMaps)

/-- The position that the communicator loses when the rank `f` fails. -/
def vacated (f : Int) : Int := if f < m.nC then m.nC + m.ctr f else f

/-- The positions that the communicator loses when the ranks of the list fail. -/
def freed (failed : List Int) : List Int := failed.map m.vacated

/-- The old rank at position `i` when the ranks of the list have failed, before closing up. -/
def ranksWithout (failed : List Int) (i : Int) : Int :=
  if i ∈ m.freed failed then -1 else if i ∈ failed then m.nC + m.ctr i else i

/-- `cmpToRepMap` when the ranks of the list have failed, before closing up. -/
def ctrWithout (failed : List Int) (c : Int) : Int :=
  if m.nC + m.ctr c ∈ m.freed failed then -1 else m.ctr c

/-- `repToCmpMap` when the ranks of the list have failed, before closing up. -/
def rtcWithout (failed : List Int) (r : Int) : Int :=
  if m.nC + r ∈ m.freed failed then -1 else m.rtc r

def freedReps (failed : List Int) : List Int := (m.freed failed).map (· - m.nC)

/-- `cmpToRepMap` when the ranks of the list have failed and the replicas are closed up. -/
def ctrClosed (failed : List Int) (c : Int) : Int :=
  if m.ctrWithout failed c = -1 then -1
  else place (m.freedReps failed) (m.ctrWithout failed c)

def Replicated (failed : List Int) : Prop := ∀ f ∈ failed, f < m.nC → m.ctr f ≠ -1

def Ranks (failed : List Int) : Prop := ∀ f ∈ failed, 0 ≤ f ∧ f < m.nC + m.nR

variable {m : ProcMaps} {failed : List Int}

variable {f r : Int} {rest : List Int}

theorem vacated_of_lt (h : f < m.nC) : m.vacated f = m.nC + m.ctr f := if_pos h

theorem vacated_of_ge (h : m.nC ≤ f) : m.vacated f = f := if_neg (by omega)

theorem freed_snoc (f : Int) : m.freed (failed ++ [f]) = m.freed failed ++ [m.vacated f] := by
  rw [freed, map_append]
  rfl

theorem mem_freed_of_ge (hf : f ∈ failed) (h : m.nC ≤ f) : f ∈ m.freed failed := mem_map.mpr ⟨f, hf, vacated_of_ge h⟩

theorem vacated_range (hm : m.MutuallyInverse) (h0 : 0 ≤ f) (h1 : f < m.nC + m.nR)
    (hrep : f < m.nC → m.ctr f ≠ -1) : m.nC ≤ m.vacated f ∧ m.vacated f < m.nC + m.nR := by
  by_cases hlt : f < m.nC
  · have := hm.ctr_bounds h0 hlt (hrep hlt)
    rw [vacated_of_lt hlt]
    omega
  · rw [vacated_of_ge (by omega)]
    omega

theorem freed_range (hm : m.MutuallyInverse) (hr : m.Ranks failed) (hrep : m.Replicated failed)
    {q : Int} (hq : q ∈ m.freed failed) : m.nC ≤ q ∧ q < m.nC + m.nR := by
  obtain ⟨f, hf, rfl⟩ := mem_map.mp hq
  exact vacated_range hm (hr f hf).1 (hr f hf).2 (hrep f hf)

theorem mem_freed_snoc {f q : Int} : q ∈ m.freed (failed ++ [f]) ↔ q ∈ m.freed failed ∨ q = m.vacated f := by
  rw [freed_snoc, mem_append, mem_singleton]

theorem ctrWithout_snoc (hm : m.MutuallyInverse) {f c : Int} (hv0 : m.nC ≤ m.vacated f)
    (hv1 : m.vacated f < m.nC + m.nR) (hc : 0 ≤ c) (hlt : c < m.nC) :
    update (m.ctrWithout failed) (m.rtc (m.vacated f - m.nC)) (-1) c = m.ctrWithout (failed ++ [f]) c := by
  have hiff : m.nC + m.ctr c = m.vacated f ↔ c = m.rtc (m.vacated f - m.nC) := by
    have := hm.ctr_eq_iff hc hlt (show 0 ≤ m.vacated f - m.nC by omega) (by omega)
    omega
  simp only [update_apply, ctrWithout, mem_freed_snoc, hiff]
  by_cases h : c = m.rtc (m.vacated f - m.nC)
  · rw [if_pos h, if_pos (.inr h)]
  · rw [if_neg h]
    exact if_congr (by simp [h]) rfl rfl

theorem rtcWithout_snoc {f r : Int} : update (m.rtcWithout failed) (m.vacated f - m.nC) (-1) r =
      m.rtcWithout (failed ++ [f]) r := by
  have hiff : m.nC + r = m.vacated f ↔ r = m.vacated f - m.nC := by omega
  simp only [update_apply, rtcWithout, mem_freed_snoc, hiff]
  by_cases h : r = m.vacated f - m.nC
  · rw [if_pos h, if_pos (.inr h)]
  · rw [if_neg h]
    exact if_congr (by simp [h]) rfl rfl

theorem ranksWithout_snoc_of_lt {f i : Int} (hlt : f < m.nC) (hfresh : f ∉ m.freed failed) :
    update (update (m.ranksWithout failed) f (m.nC + m.ctr f))
        (m.nC + m.ctr f) (-1) i = m.ranksWithout (failed ++ [f]) i := by
  simp only [update_apply, ranksWithout, mem_freed_snoc, vacated_of_lt hlt, mem_append, mem_singleton]
  by_cases hv : i = m.nC + m.ctr f
  · rw [if_pos hv, if_pos (.inr hv)]
  · by_cases hf : i = f
    · subst hf
      simp [hfresh, hv]
    · simp [hf, hv]

theorem ranksWithout_snoc_of_ge {f i : Int} (hge : m.nC ≤ f) :
    update (m.ranksWithout failed) f (-1) i = m.ranksWithout (failed ++ [f]) i := by
  simp only [update_apply, ranksWithout, mem_freed_snoc, vacated_of_ge hge, mem_append, mem_singleton]
  by_cases hf : i = f
  · rw [if_pos hf, if_pos (.inr hf)]
  · simp [hf]

theorem mem_freedReps : r ∈ m.freedReps failed ↔ m.nC + r ∈ m.freed failed := by
  simp only [freedReps, mem_map]
  constructor
  · rintro ⟨q, hq, rfl⟩
    rwa [show m.nC + (q - m.nC) = q by omega]
  · intro h
    exact ⟨m.nC + r, h, by omega⟩

theorem freedReps_nodup (h : (m.freed failed).Nodup) : (m.freedReps failed).Nodup :=
  h.map (fun a b hab => by simpa using hab)

theorem shift_freedReps (r : Int) : shift (m.freedReps failed) r = shift (m.freed failed) (m.nC + r) :=
  shift_map_sub _ _ _

theorem ranksWithout_eq_neg_one_iff (hm : m.MutuallyInverse) (hrep : m.Replicated failed) {i : Int} (hi : 0 ≤ i) :
    m.ranksWithout failed i = -1 ↔ i ∈ m.freed failed := by
  unfold ranksWithout
  by_cases hfreed : i ∈ m.freed failed
  · simp [hfreed]
  · rw [if_neg hfreed]
    refine iff_of_false ?_ hfreed
    by_cases hmem : i ∈ failed
    · have hlt : i < m.nC := by
        by_contra hge
        exact hfreed (mem_freed_of_ge hmem (by omega))
      have := hm.ctr_bounds hi hlt (hrep i hmem hlt)
      omega
    · rw [if_neg hmem]
      omega

theorem rtcWithout_eq_neg_one_iff (hm : m.MutuallyInverse) (hr : 0 ≤ r)
    (hlt : r < m.nR) : m.rtcWithout failed r = -1 ↔ r ∈ m.freedReps failed := by
  have hbounds := hm.rtc_bounds hr hlt
  rw [mem_freedReps, rtcWithout]
  by_cases hfreed : m.nC + r ∈ m.freed failed
  · rw [if_pos hfreed]
    exact iff_of_true rfl hfreed
  · rw [if_neg hfreed]
    exact iff_of_false (by omega) hfreed

theorem ctrWithout_range (hm : m.MutuallyInverse) {c : Int} (hc : 0 ≤ c) (hlt : c < m.nC) :
    m.ctrWithout failed c = -1 ∨ 0 ≤ m.ctrWithout failed c ∧ m.ctrWithout failed c < m.nR := by
  unfold ctrWithout
  split
  · exact .inl rfl
  · exact hm.ctr_range hc hlt

theorem Replicated.of_append (h : m.Replicated (failed ++ rest)) : m.Replicated failed :=
  fun f hf => h f (mem_append_left _ hf)

theorem Ranks.of_append (h : m.Ranks (failed ++ rest)) : m.Ranks failed := fun f hf => h f (mem_append_left _ hf)

end ProcMaps

namespace RemapState

open ProcMaps

variable {a : CArray Int} {m : ProcMaps} {done : List Int} {st : RemapState} {f : Int}

theorem incrFrom_spec {lo hi : Int} {f : Int → Int} (h : a.Holds hi f) (hlo : 0 ≤ lo) (hle : lo ≤ hi) :
    ∃ b, incrFrom lo hi a = some b ∧ b.Holds hi (fun i => f i + if lo ≤ i then 1 else 0) := by
  have hloop : ∃ b, incrFrom lo hi a = some b ∧ b.Holds hi (fun i => f i + if lo ≤ i ∧ i < hi then 1 else 0) := by
    refine forRange_spec (P := fun k (b : CArray Int) => b.Holds hi (fun i => f i + if lo ≤ i ∧ i < k then 1 else 0))
      hle ?_ ?_
    · exact h.congr (fun i _ _ => by rw [if_neg (by omega), Int.add_zero])
    · intro k b hlok hk hb
      obtain ⟨c, hc, hheld, _⟩ := hb.write (by omega) hk (f k + 1)
      have hread : b.read k = some (f k) := by simpa using hb k (by omega) hk
      refine ⟨c, ?_, hheld.congr ?_⟩
      · simp only [hread, Option.bind_eq_bind, Option.bind_some, hc]
      · intro i _ _
        by_cases hik : i = k
        · rw [hik, update_self, if_pos (by omega)]
        · rw [update_of_ne hik]
          congr 1
          exact if_congr (by omega) rfl rfl
  obtain ⟨b, hb, hheld⟩ := hloop
  refine ⟨b, hb, hheld.congr ?_⟩
  intro i _ hi
  congr 1
  exact if_congr (by omega) rfl rfl

/-- The state of the first loop when the ranks of `done` have been taken out. -/
structure Removed (m : ProcMaps) (done : List Int) (st : RemapState) : Prop where
  ranks : st.worldCommRanks.Holds (m.nC + m.nR) (m.ranksWithout done)
  rankadj : st.rankadj.Holds (m.nC + m.nR) (fun _ => 0)
  rankadjrep : st.rankadjrep.Holds (m.nC + m.nR) (shift (m.freed done))
  ctr : st.cmpToRepMap.Holds m.nC (m.ctrWithout done)
  rtc : st.repToCmpMap.Holds m.nR (m.rtcWithout done)
  nRdiff : st.nRdiff = done.length
  nCdiff : st.nCdiff = 0

theorem start_removed (hm : m.MutuallyInverse) (hC : 0 ≤ m.nC) (hR : 0 ≤ m.nR)
    (aborting : Bool) : Removed m [] (start m aborting) := by
  have hlen : (((m.nC + m.nR).toNat : Nat) : Int) = m.nC + m.nR := by omega
  constructor
  · have hholds := CArray.holds_ofFn (m.nC + m.nR).toNat (fun i => i)
    rw [hlen] at hholds
    exact hholds.congr (fun i _ _ => by simp [ranksWithout, freed])
  · have hholds := CArray.holds_ofFn (m.nC + m.nR).toNat (fun _ => (0 : Int))
    rwa [hlen] at hholds
  · have hholds := CArray.holds_ofFn (m.nC + m.nR).toNat (fun _ => (0 : Int))
    rw [hlen] at hholds
    exact hholds.congr (fun i _ _ => (shift_nil i).symm)
  · exact hm.ctr_holds.congr (fun c _ _ => by simp [ctrWithout, freed])
  · exact hm.rtc_holds.congr (fun r _ _ => by simp [rtcWithout, freed])
  · rfl
  · rfl

theorem incrFrom_shift {n q : Int} {gone : List Int} (h : a.Holds n (shift gone)) (hq : 0 ≤ q) (hlt : q < n) :
    ∃ b, incrFrom (q + 1) n a = some b ∧ b.Holds n (shift (gone ++ [q])) := by
  obtain ⟨b, hb, hheld⟩ := incrFrom_spec h (show 0 ≤ q + 1 by omega) (by omega)
  refine ⟨b, hb, hheld.congr ?_⟩
  intro i _ _
  rw [shift_snoc]
  congr 1

theorem noteSwitching_spec (h : Removed m done st) {myrank : Int} (hlt : myrank < m.nC + m.nR) (f : Int) :
    ∃ b, noteSwitching m.nC myrank f st = some { st with switchingToCmp := b } := by
  unfold noteSwitching
  by_cases hge : m.nC ≤ myrank
  · have hread := h.rtc (myrank - m.nC) (by omega) (by omega)
    rw [if_pos hge, hread]
    exact ⟨_, rfl⟩
  · rw [if_neg hge]
    exact ⟨st.switchingToCmp, rfl⟩

theorem Removed.setSwitching (h : Removed m done st) (b : Bool) : Removed m done { st with switchingToCmp := b } :=
  { h with }

/-- What is written when the rank `f` leaves, whether it is promoted over or dropped. -/
theorem Removed.vacate (hm : m.MutuallyInverse) (h : Removed m done st) (hC : 0 ≤ m.nC)
    (hv : m.nC ≤ m.vacated f ∧ m.vacated f < m.nC + m.nR) :
    ∃ adj rtc ctr, incrFrom (m.vacated f + 1) (m.nC + m.nR) st.rankadjrep = some adj ∧
      st.repToCmpMap.write (m.vacated f - m.nC) (-1) = some rtc ∧
      st.cmpToRepMap.write (m.rtc (m.vacated f - m.nC)) (-1) = some ctr ∧
      ∀ w : CArray Int, w.Holds (m.nC + m.nR) (m.ranksWithout (done ++ [f])) →
        Removed m (done ++ [f]) { st with nRdiff := st.nRdiff + 1, worldCommRanks := w, rankadjrep := adj,
                                          repToCmpMap := rtc, cmpToRepMap := ctr } := by
  obtain ⟨hc0, hc1⟩ := hm.rtc_bounds (show 0 ≤ m.vacated f - m.nC by omega) (by omega)
  obtain ⟨adj, hadj, hadjheld⟩ := incrFrom_shift h.rankadjrep (show 0 ≤ m.vacated f by omega) hv.2
  obtain ⟨rtc, hrtc, hrtcheld, _⟩ := h.rtc.write (show 0 ≤ m.vacated f - m.nC by omega) (by omega) (-1)
  obtain ⟨ctr, hctr, hctrheld, _⟩ := h.ctr.write hc0 hc1 (-1)
  refine ⟨adj, rtc, ctr, hadj, hrtc, hctr, fun w hw => ⟨hw, h.rankadj, ?_, ?_, ?_, by simp [h.nRdiff], h.nCdiff⟩⟩
  · rwa [freed_snoc]
  · exact hctrheld.congr fun c => ctrWithout_snoc hm hv.1 hv.2
  · exact hrtcheld.congr fun r _ _ => rtcWithout_snoc

theorem promoteReplica_spec (hm : m.MutuallyInverse) (h : Removed m done st) (hf : 0 ≤ f) (hlt : f < m.nC)
    (hne : m.ctr f ≠ -1) (hfresh : f ∉ m.freed done) (hfree : m.vacated f ∉ m.freed done) :
    ∃ st', promoteReplica m.nC m.nR f (m.ctr f) st = some st' ∧ Removed m (done ++ [f]) st' ∧
      st'.aborting = st.aborting := by
  obtain ⟨hr0, hr1⟩ := hm.ctr_bounds hf hlt hne
  have hvac : m.vacated f = m.nC + m.ctr f := vacated_of_lt hlt
  have hsub : m.vacated f - m.nC = m.ctr f := by omega
  have hcomm : m.ctr f + m.nC = m.vacated f := by omega
  have hnot : m.vacated f ∉ done := fun hmem => hfree (mem_freed_of_ge hmem (by omega))
  have hread := h.ranks (m.vacated f) (by omega) (by omega)
  rw [ranksWithout, if_neg hfree, if_neg hnot] at hread
  obtain ⟨w, hw, hwheld, _⟩ := h.ranks.write hf (by omega) (m.vacated f)
  obtain ⟨w', hw', hwheld', _⟩ := hwheld.write (show 0 ≤ m.vacated f by omega) (by omega) (-1)
  obtain ⟨adj, rtc, ctr, hadj, hrtc, hctr, hrem⟩ := h.vacate hm (by omega) ⟨show m.nC ≤ m.vacated f by omega, by omega⟩
  rw [hsub] at hrtc hctr
  rw [hm.rtc_ctr hf hlt hne] at hctr
  refine ⟨_, ?_, hrem w' (hwheld'.congr fun i _ _ => ?_), rfl⟩
  · simp only [promoteReplica, hcomm, hread, hw, hw', hadj, hrtc, hctr, Option.bind_eq_bind, Option.bind_some]
  · rw [hvac]
    exact ranksWithout_snoc_of_lt hlt hfresh

theorem dropReplica_spec (hm : m.MutuallyInverse) (h : Removed m done st) (hge : m.nC ≤ f) (hC : 0 ≤ m.nC)
    (hlt : f < m.nC + m.nR) (hfree : f ∉ m.freed done) :
    ∃ st', dropReplica m.nC m.nR f st = some st' ∧ Removed m (done ++ [f]) st' ∧ st'.aborting = st.aborting := by
  have hvac : m.vacated f = f := vacated_of_ge hge
  have hread := h.rtc (f - m.nC) (by omega) (by omega)
  rw [rtcWithout, if_neg (by rwa [show m.nC + (f - m.nC) = f by omega])] at hread
  obtain ⟨w, hw, hwheld, _⟩ := h.ranks.write (show 0 ≤ f by omega) hlt (-1)
  obtain ⟨adj, rtc, ctr, hadj, hrtc, hctr, hrem⟩ := h.vacate hm hC ⟨show m.nC ≤ m.vacated f by omega, by omega⟩
  rw [hvac] at hadj hrtc hctr
  refine ⟨_, ?_, hrem w (hwheld.congr fun i _ _ => ranksWithout_snoc_of_ge hge), rfl⟩
  simp only [dropReplica, hw, hadj, hread, hctr, hrtc, Option.bind_eq_bind, Option.bind_some]

theorem dropReplica_fault (h : Removed m done st) (hge : m.nC ≤ f) (hC : 0 ≤ m.nC) (hlt : f < m.nC + m.nR)
    (hgone : f ∈ m.freed done) : dropReplica m.nC m.nR f st = none := by
  have hread := h.rtc (f - m.nC) (by omega) (by omega)
  rw [rtcWithout, if_pos (by rwa [show m.nC + (f - m.nC) = f by omega])] at hread
  obtain ⟨w, hw, _⟩ := h.ranks.write (show 0 ≤ f by omega) hlt (-1)
  obtain ⟨adj, hadj, _⟩ := incrFrom_shift h.rankadjrep (show 0 ≤ f by omega) hlt
  have hctr := st.cmpToRepMap.write_of_neg (show (-1 : Int) < 0 by omega) (-1)
  unfold dropReplica
  simp only [hw, hadj, hread, hctr, Option.bind_eq_bind, Option.bind_some, Option.bind_none]

section FirstLoop

variable {m : ProcMaps} {done : List Int} {st : RemapState} {myrank : Int}

variable {f : Int} {rest : List Int}

theorem vacated_not_mem_freed (hm : m.MutuallyInverse) (hdone : m.Ranks done)
    (hdrep : m.Replicated done) (hbelow : ∀ d ∈ done, d < f) (hf : f < m.nC) (h0 : 0 ≤ f) :
    m.vacated f ∉ m.freed done := by
  intro hmem
  obtain ⟨d, hd, heq⟩ := mem_map.mp hmem
  have hdf := hbelow d hd
  rw [vacated_of_lt (show d < m.nC by omega), vacated_of_lt hf] at heq
  have := hm.ctr_injective (hdone d hd).1 (by omega) h0 hf (hdrep d hd (by omega)) (by omega)
  omega

private theorem below_of_pairwise (h : (done ++ f :: rest).Pairwise (· < ·)) : ∀ d ∈ done, d < f :=
  fun d hd => (pairwise_append.mp h).2.2 d hd f (by simp)

private theorem above_of_pairwise (h : (done ++ f :: rest).Pairwise (· < ·)) : ∀ g ∈ f :: rest, f ≤ g := by
  intro g hg
  rcases mem_cons.mp hg with rfl | hg
  · exact le_rfl
  · exact le_of_lt ((pairwise_cons.mp (pairwise_append.mp h).2.1).1 g hg)

variable (hm : m.MutuallyInverse) (hC : 0 ≤ m.nC) (hmy : myrank < m.nC + m.nR) (h : Removed m done st)

include hm hC hmy h

theorem removeFailed_cons (rest : List Int) (hdone : m.Ranks done) (hdrep : m.Replicated done)
    (hf : 0 ≤ f ∧ f < m.nC + m.nR) (hrep : f < m.nC → m.ctr f ≠ -1) (hfree : m.vacated f ∉ m.freed done) :
    ∃ st', removeFailed m.nC m.nR myrank (f :: rest) st = removeFailed m.nC m.nR myrank rest st' ∧
      Removed m (done ++ [f]) st' ∧ st'.aborting = st.aborting := by
  obtain ⟨b, hb⟩ := noteSwitching_spec h hmy f
  have hset := h.setSwitching b
  by_cases hlt : f < m.nC
  · have hfresh : f ∉ m.freed done := fun hmem => by
      have := freed_range hm hdone hdrep hmem
      omega
    have hread := hset.ctr f hf.1 hlt
    rw [ctrWithout, if_neg (by rwa [vacated_of_lt hlt] at hfree)] at hread
    obtain ⟨st', hst', hrem, hab⟩ := promoteReplica_spec hm hset hf.1 hlt (hrep hlt) hfresh hfree
    refine ⟨st', ?_, hrem, hab⟩
    rw [removeFailed]
    simp only [hb, hread, hst', Option.bind_eq_bind, Option.bind_some, if_pos hlt, if_neg (hrep hlt)]
  · rw [vacated_of_ge (by omega)] at hfree
    obtain ⟨st', hst', hrem, hab⟩ := dropReplica_spec hm hset (by omega) hC hf.2 hfree
    refine ⟨st', ?_, hrem, hab⟩
    rw [removeFailed]
    simp only [hb, hst', Option.bind_eq_bind, Option.bind_some, if_neg hlt]

theorem removeFailed_spec (failed : List Int) (hrange : m.Ranks (done ++ failed))
    (hrep : m.Replicated (done ++ failed)) (hnodup : (m.freed (done ++ failed)).Nodup) :
    ∃ st', removeFailed m.nC m.nR myrank failed st = some st' ∧ Removed m (done ++ failed) st' ∧
      st'.aborting = st.aborting := by
  induction failed generalizing done st with
  | nil => exact ⟨st, rfl, by simpa using h, rfl⟩
  | cons f rest ih =>
    have happ : done ++ f :: rest = done ++ [f] ++ rest := by simp
    have hmem : f ∈ done ++ f :: rest := by simp
    have hfree : m.vacated f ∉ m.freed done := by
      rw [happ, freed, map_append] at hnodup
      have hpre := (nodup_append.mp hnodup).1
      rw [← freed, freed_snoc] at hpre
      exact fun hin => (nodup_append.mp hpre).2.2 _ hin _ (by simp) rfl
    obtain ⟨st', hstep, hrem, hab⟩ := removeFailed_cons hm hC hmy h rest hrange.of_append
      hrep.of_append (hrange f hmem) (hrep f hmem) hfree
    rw [happ] at hrange hrep hnodup ⊢
    obtain ⟨st'', hloop, hrem', hab'⟩ := ih hrem hrange hrep hnodup
    exact ⟨st'', by rw [hstep, hloop], hrem', by rw [hab', hab]⟩

theorem removeFailed_abort (failed : List Int) (hrange : m.Ranks (done ++ failed))
    (hsorted : (done ++ failed).Pairwise (· < ·)) (hdrep : m.Replicated done)
    (hlost : ∃ f ∈ failed, f < m.nC ∧ m.ctr f = -1) :
    ∃ st', removeFailed m.nC m.nR myrank failed st = some st' ∧ st'.aborting = true ∧ ∃ cut, Removed m cut st' := by
  induction failed generalizing done st with
  | nil => simp at hlost
  | cons f rest ih =>
    have hf := hrange f (by simp)
    obtain ⟨g, hg, hglt, hgctr⟩ := hlost
    have hlt : f < m.nC := by
      have := above_of_pairwise hsorted g hg
      omega
    by_cases hctr : m.ctr f = -1
    · obtain ⟨b, hb⟩ := noteSwitching_spec h hmy f
      have hread := (h.setSwitching b).ctr f hf.1 hlt
      have hkeep : m.nC + m.ctr f ∉ m.freed done := fun hmem => by
        have := freed_range hm hrange.of_append hdrep hmem
        omega
      rw [ctrWithout, if_neg hkeep] at hread
      refine ⟨{ st with switchingToCmp := b, aborting := true }, ?_, rfl, done, ?_⟩
      · rw [removeFailed]
        simp only [hb, hread, Option.bind_eq_bind, Option.bind_some, if_pos hlt, if_pos hctr]
      · exact { h with }
    · have hfree := vacated_not_mem_freed hm hrange.of_append hdrep (below_of_pairwise hsorted) hlt hf.1
      obtain ⟨st', hstep, hrem, _⟩ := removeFailed_cons hm hC hmy h rest hrange.of_append hdrep hf (fun _ => hctr) hfree
      have happ : done ++ f :: rest = done ++ [f] ++ rest := by simp
      rw [happ] at hrange hsorted
      have hgrest : g ∈ rest := by
        rcases mem_cons.mp hg with rfl | hgrest
        · exact absurd hgctr hctr
        · exact hgrest
      rw [hstep]
      refine ih hrem hrange hsorted ?_ ⟨g, hgrest, hglt, hgctr⟩
      intro d hd hdlt
      rcases mem_append.mp hd with hd | hd
      · exact hdrep d hd hdlt
      · rwa [mem_singleton.mp hd]

theorem removeFailed_fault (failed : List Int) (hrange : m.Ranks (done ++ failed))
    (hsorted : (done ++ failed).Pairwise (· < ·)) (hrep : m.Replicated (done ++ failed))
    (hnodup : (m.freed done).Nodup) (htwice : ¬ (m.freed (done ++ failed)).Nodup) :
    removeFailed m.nC m.nR myrank failed st = none := by
  induction failed generalizing done st with
  | nil => simp [hnodup] at htwice
  | cons f rest ih =>
    have hf := hrange f (by simp)
    by_cases hfree : m.vacated f ∈ m.freed done
    · have hge : m.nC ≤ f := by
        by_contra hlt
        exact vacated_not_mem_freed hm hrange.of_append hrep.of_append (below_of_pairwise hsorted) (by omega) hf.1 hfree
      rw [vacated_of_ge hge] at hfree
      obtain ⟨b, hb⟩ := noteSwitching_spec h hmy f
      have hfault := dropReplica_fault (h.setSwitching b) hge hC hf.2 hfree
      rw [removeFailed]
      simp only [hb, hfault, Option.bind_eq_bind, Option.bind_some, Option.bind_none, if_neg (show ¬ f < m.nC by omega)]
    · obtain ⟨st', hstep, hrem, _⟩ := removeFailed_cons hm hC hmy h rest hrange.of_append
        hrep.of_append hf (hrep f (by simp)) hfree
      have happ : done ++ f :: rest = done ++ [f] ++ rest := by simp
      rw [happ] at hrange hsorted hrep htwice
      rw [hstep]
      refine ih hrem hrange hsorted hrep ?_ htwice
      rw [freed_snoc]
      exact nodup_append.mpr ⟨hnodup, by simp, by
        intro a ha b hb hab
        rw [mem_singleton] at hb
        exact hfree (hb ▸ hab ▸ ha)⟩

end FirstLoop

section SecondLoop

open Compact

variable {st : RemapState} {gone : List Int} {n nC nR i : Int}

variable {old : Int → Int}

theorem moveRank_spec (h : Packed gone old n i st.worldCommRanks)
    (hadj : st.rankadj.Holds n (fun _ => 0)) (hadjrep : st.rankadjrep.Holds n (shift gone))
    (hnodup : gone.Nodup) (hpos : ∀ q ∈ gone, 0 ≤ q) (hi : 0 ≤ i) (hlt : i < n)
    (hold : old i = -1 ↔ i ∈ gone) :
    ∃ w, moveRank i st = some { st with worldCommRanks := w } ∧ Packed gone old n (i + 1) w := by
  have hread := h.rest i le_rfl hlt
  unfold moveRank
  by_cases hgone : i ∈ gone
  · refine ⟨st.worldCommRanks, ?_, h.skip hgone⟩
    simp only [hread, Option.bind_eq_bind, Option.bind_some, if_pos (hold.mpr hgone)]
  · obtain ⟨w, hw, hpacked⟩ := h.move hnodup hpos hi hlt hgone
    refine ⟨w, ?_, hpacked⟩
    have hplace : i - 0 - shift gone i = place gone i := by unfold place; omega
    simp only [hread, Option.bind_eq_bind, Option.bind_some, if_neg (mt hold.mp hgone),
      hadj i hi hlt, hadjrep i hi hlt, hplace, hw]

theorem moveRep_spec (h : Packed (gone.map (· - nC)) old nR i st.repToCmpMap)
    (hadj : st.rankadj.Holds n (fun _ => 0)) (hadjrep : st.rankadjrep.Holds n (shift gone))
    (hn : n = nC + nR) (hC : 0 ≤ nC) (hnodup : gone.Nodup) (hpos : ∀ q ∈ gone, nC ≤ q)
    (hi : 0 ≤ i) (hlt : i < nR) (hrange : old i ≠ -1 → 0 ≤ old i ∧ old i < nC)
    (hold : old i = -1 ↔ i ∈ gone.map (· - nC)) :
    ∃ a, moveRep nC nR i st = some { st with repToCmpMap := a } ∧ Packed (gone.map (· - nC)) old nR (i + 1) a := by
  have hread := h.rest i le_rfl hlt
  unfold moveRep
  rw [if_pos hlt]
  by_cases hgone : i ∈ gone.map (· - nC)
  · refine ⟨st.repToCmpMap, ?_, h.skip hgone⟩
    simp only [hread, Option.bind_eq_bind, Option.bind_some, if_pos (hold.mpr hgone)]
  · have hne := mt hold.mp hgone
    obtain ⟨a, ha, hpacked⟩ := h.move (hnodup.map (fun a b hab => by simpa using hab)) (by
        intro q hq
        obtain ⟨p, hp, rfl⟩ := mem_map.mp hq
        have := hpos p hp
        omega) hi hlt hgone
    refine ⟨a, ?_, hpacked⟩
    have hshift : i - shift gone (i + nC) = place (gone.map (· - nC)) i := by
      rw [place, shift_map_sub, Int.add_comm]
    simp only [hread, Option.bind_eq_bind, Option.bind_some, if_neg hne,
      hadjrep (i + nC) (by omega) (by omega), hadj (old i) (hrange hne).1 (by
        omega), hshift, Int.sub_zero, ha]

theorem moveCmp_spec {old new : Int → Int} (h : st.cmpToRepMap.Holds nC (fun c => if c < i then new c else old c))
    (hadj : st.rankadj.Holds n (fun _ => 0)) (hadjrep : st.rankadjrep.Holds n (shift gone))
    (hn : n = nC + nR) (hR : 0 ≤ nR) (hi : 0 ≤ i) (hlt : i < nC)
    (hrange : old i ≠ -1 → 0 ≤ old i ∧ old i < nR)
    (hnew : new i = if old i = -1 then -1 else place (gone.map (· - nC)) (old i)) :
    ∃ a, moveCmp nC i st = some { st with cmpToRepMap := a } ∧
      a.Holds nC (fun c => if c < i + 1 then new c else old c) := by
  have hread : st.cmpToRepMap.read i = some (old i) := by simpa using h i hi hlt
  unfold moveCmp
  rw [if_pos hlt]
  by_cases hne : old i = -1
  · rw [if_pos hne] at hnew
    refine ⟨st.cmpToRepMap, ?_, h.congr ?_⟩
    · simp only [hread, Option.bind_eq_bind, Option.bind_some, if_pos hne]
    · intro c _ _
      by_cases hci : c = i
      · subst hci
        rw [if_neg (by omega), if_pos (by omega), hnew, hne]
      · exact if_congr (by omega) rfl rfl
  · rw [if_neg hne] at hnew
    obtain ⟨a, ha, hheld, _⟩ := h.write hi hlt (new i)
    refine ⟨a, ?_, hheld.congr ?_⟩
    · have hshift : old i - shift gone (old i + nC) = new i := by
        rw [hnew, place, shift_map_sub, Int.add_comm]
      simp only [hread, Option.bind_eq_bind, Option.bind_some, if_neg hne,
        hadj i hi (by omega), hadjrep (old i + nC) (by omega) (by omega), hshift, Int.sub_zero, ha]
    · intro c _ _
      by_cases hci : c = i
      · rw [hci, update_self, if_pos (by omega)]
      · rw [update_of_ne hci]
        exact if_congr (by omega) rfl rfl

/-- The state of the second loop when the entries below `i` have been moved. -/
structure ClosingUp (m : ProcMaps) (failed : List Int) (i : Int) (st : RemapState) : Prop where
  ranks : Packed (m.freed failed) (m.ranksWithout failed) (m.nC + m.nR) i st.worldCommRanks
  rankadj : st.rankadj.Holds (m.nC + m.nR) (fun _ => 0)
  rankadjrep : st.rankadjrep.Holds (m.nC + m.nR) (shift (m.freed failed))
  ctr : st.cmpToRepMap.Holds m.nC (fun c => if c < i then m.ctrClosed failed c else m.ctrWithout failed c)
  rtc : Packed (m.freedReps failed) (m.rtcWithout failed) m.nR (min i m.nR) st.repToCmpMap

variable {m : ProcMaps} {failed : List Int}

theorem closeUpEntry_spec (hm : m.MutuallyInverse) (hC : 0 ≤ m.nC) (hR : 0 ≤ m.nR)
    (hrange : m.Ranks failed) (hrep : m.Replicated failed) (hnodup : (m.freed failed).Nodup)
    (hi : 0 ≤ i) (hlt : i < m.nC + m.nR) (h : ClosingUp m failed i st) :
    ∃ st', closeUpEntry m.nC m.nR i st = some st' ∧ ClosingUp m failed (i + 1) st' := by
  have hpos : ∀ q ∈ m.freed failed, m.nC ≤ q := fun q hq => (freed_range hm hrange hrep hq).1
  obtain ⟨w, hw, hranks⟩ := moveRank_spec h.ranks h.rankadj h.rankadjrep hnodup
    (fun q hq => by have := hpos q hq; omega) hi hlt (ranksWithout_eq_neg_one_iff hm hrep hi)
  have hcmp : ∃ a, moveCmp m.nC i { st with worldCommRanks := w } =
      some { st with worldCommRanks := w, cmpToRepMap := a } ∧ a.Holds m.nC
        (fun c => if c < i + 1 then m.ctrClosed failed c else m.ctrWithout failed c) := by
    by_cases hic : i < m.nC
    · exact moveCmp_spec h.ctr h.rankadj h.rankadjrep rfl hR hi hic (ctrWithout_range hm hi hic).resolve_left rfl
    · refine ⟨st.cmpToRepMap, by rw [moveCmp, if_neg hic], h.ctr.congr ?_⟩
      intro c _ hc
      rw [if_pos (by omega), if_pos (by omega)]
  obtain ⟨a, ha, hctr⟩ := hcmp
  have hrep' : ∃ b, moveRep m.nC m.nR i { st with worldCommRanks := w, cmpToRepMap := a } =
      some { st with worldCommRanks := w, cmpToRepMap := a, repToCmpMap := b } ∧
      Packed (m.freedReps failed) (m.rtcWithout failed) m.nR (min (i + 1) m.nR) b := by
    by_cases hir : i < m.nR
    · have hpacked := h.rtc
      rw [min_eq_left (by omega)] at hpacked
      rw [min_eq_left (by omega)]
      refine moveRep_spec hpacked h.rankadj h.rankadjrep rfl hC hnodup hpos hi hir ?_
        (rtcWithout_eq_neg_one_iff hm hi hir)
      intro hne
      unfold rtcWithout at hne ⊢
      split
      · simp_all
      · exact hm.rtc_bounds hi hir
    · refine ⟨st.repToCmpMap, by rw [moveRep, if_neg hir], ?_⟩
      have hpacked := h.rtc
      rwa [min_eq_right (by omega)] at hpacked ⊢
  obtain ⟨b, hb, hrtc⟩ := hrep'
  refine ⟨{ st with worldCommRanks := w, cmpToRepMap := a, repToCmpMap := b }, ?_,
    ⟨hranks, h.rankadj, h.rankadjrep, hctr, hrtc⟩⟩
  simp only [closeUpEntry, hw, ha, hb, Option.bind_eq_bind, Option.bind_some]

theorem closeUp_spec (hm : m.MutuallyInverse) (hC : 0 ≤ m.nC) (hR : 0 ≤ m.nR)
    (hrange : m.Ranks failed) (hrep : m.Replicated failed) (hnodup : (m.freed failed).Nodup)
    (h : Removed m failed st) :
    ∃ st', closeUp m.nC m.nR st = some st' ∧ ClosingUp m failed (m.nC + m.nR) st' := by
  refine forRange_spec (P := ClosingUp m failed) (by omega) ?_ ?_
  · refine ⟨.init h.ranks, h.rankadj, h.rankadjrep, h.ctr.congr ?_, ?_⟩
    · intro c hc _
      rw [if_neg (by omega)]
    · rw [min_eq_left hR]
      exact .init h.rtc
  · intro i st hi hlt hst
    exact closeUpEntry_spec hm hC hR hrange hrep hnodup hi hlt hst

end SecondLoop

end RemapState

end ParepMpi
