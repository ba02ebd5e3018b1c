import ParepMpi.Rearrange.Swap

/-!
# When a plan fits

As long as no failure is reported and no prediction comes to nothing while a plan waits to be applied, a plan that
waits fits the maps at hand, so `MPI_Replica_rearrange` leaves maps that are inverse to each other.
-/

namespace ParepMpi

open List Option CArray ProcGroup Rearranger

theorem copyCell_spec {n i : Int} {f : Int → Int} {src dst : CArray Int} (hsrc : src.Holds n f)
    (hn : n ≤ dst.length) (hi : 0 ≤ i) (hdst : dst.Holds (min i n) f) :
    ∃ b, copyCell n i src dst = some b ∧ b.length = dst.length ∧ b.Holds (min (i + 1) n) f := by
  unfold copyCell
  by_cases hlt : i < n
  · obtain ⟨b, hb⟩ := exists_write hi (show i < (dst.length : Int) by omega) (f i)
    refine ⟨b, by simp [hlt, hsrc i hi hlt, hb], length_write hb, ?_⟩
    intro j hj hjlt
    by_cases heq : j = i
    · rw [heq, read_write_self hb]
    · rw [read_write_ne hb heq]
      exact hdst j hj (by omega)
  · refine ⟨dst, if_neg hlt, rfl, ?_⟩
    rwa [show min (i + 1) n = min i n by omega]

theorem copyMaps_spec {nC nR : Int} (hi : Int) {f g : Int → Int} (src dst : Plan)
    (hctr : src.ctrmap.Holds nC f) (hrtc : src.rtcmap.Holds nR g) (hC : 0 ≤ nC) (hR : 0 ≤ nR)
    (hdC : nC ≤ dst.ctrmap.length) (hdR : nR ≤ dst.rtcmap.length) (hhiC : nC ≤ hi) (hhiR : nR ≤ hi) :
    ∃ p, copyMaps nC nR hi src dst = some p ∧ p.ctrmap.length = dst.ctrmap.length ∧
      p.rtcmap.length = dst.rtcmap.length ∧ p.ctrmap.Holds nC f ∧ p.rtcmap.Holds nR g := by
  have hloop : ∃ p, copyMaps nC nR hi src dst = some p ∧ p.ctrmap.length = dst.ctrmap.length ∧
      p.rtcmap.length = dst.rtcmap.length ∧ p.ctrmap.Holds (min hi nC) f ∧
      p.rtcmap.Holds (min hi nR) g := by
    apply forRange_spec (P := fun i (p : Plan) => p.ctrmap.length = dst.ctrmap.length ∧
      p.rtcmap.length = dst.rtcmap.length ∧ p.ctrmap.Holds (min i nC) f ∧ p.rtcmap.Holds (min i nR) g)
      (by omega) ⟨rfl, rfl, fun j hj hlt => by omega, fun j hj hlt => by omega⟩
    rintro i p hi0 _ ⟨hl, hl', hf, hg⟩
    obtain ⟨a, ha, hal, haf⟩ := copyCell_spec hctr (by omega) hi0 hf
    obtain ⟨b, hb, hbl, hbg⟩ := copyCell_spec hrtc (by omega) hi0 hg
    exact ⟨⟨a, b⟩, by simp [ha, hb], hal.trans hl, hbl.trans hl', haf, hbg⟩
  obtain ⟨p, hp, hl, hl', hf, hg⟩ := hloop
  rw [show min hi nC = nC by omega] at hf
  rw [show min hi nR = nR by omega] at hg
  exact ⟨p, hp, hl, hl', hf, hg⟩

theorem Plan.inverse_of_holds {m m' : ProcMaps} (h : m.MutuallyInverse) {p : Plan} (hC : m'.nC = m.nC)
    (hR : m'.nR = m.nR) (hctr : p.ctrmap.Holds m.nC m.ctr) (hrtc : p.rtcmap.Holds m.nR m.rtc) :
    (p.toMaps m').MutuallyInverse := by
  refine ProcMaps.MutuallyInverse.of_holds m.ctr m.rtc ?_ ?_ ?_ ?_ ?_
  · exact hC ▸ hctr
  · exact hR ▸ hrtc
  · intro c hc hlt
    have := h.ctr_range hc (hC ▸ hlt)
    rwa [show (p.toMaps m').nR = m.nR from hR]
  · intro r hr hlt
    have := h.rtc_bounds hr (hR ▸ hlt)
    rwa [show (p.toMaps m').nC = m.nC from hC]
  · intro c r hc hclt hr hrlt
    exact h.ctr_eq_iff hc (hC ▸ hclt) hr (hR ▸ hrlt)

theorem markPredicted_spec (now : Int) {recvranks : List Int} {l : CArray Int}
    (hrange : ∀ q ∈ recvranks, 0 ≤ q ∧ q < l.length) :
    ∃ l', markPredicted now recvranks l = some l' ∧ l'.length = l.length ∧
      (∀ q ∈ recvranks, l'.read q = some now) ∧ ∀ q, q ∉ recvranks → l'.read q = l.read q := by
  induction recvranks generalizing l with
  | nil => exact ⟨l, rfl, rfl, by simp, fun _ _ => rfl⟩
  | cons q rest ih =>
    obtain ⟨h0, hlt⟩ := hrange q mem_cons_self
    obtain ⟨a, ha⟩ := exists_write h0 hlt now
    have hlen := length_write ha
    obtain ⟨l', hl', hlen', hmem, hnot⟩ := ih (l := a) fun p hp => by
      rw [hlen]
      exact hrange p (mem_cons_of_mem q hp)
    refine ⟨l', by simp [markPredicted, ha, hl'], by omega, ?_, ?_⟩
    · intro p hp
      by_cases hrest : p ∈ rest
      · exact hmem p hrest
      · rw [hnot p hrest, (mem_cons.mp hp).resolve_right hrest, read_write_self ha]
    · intro p hp
      rw [mem_cons, not_or] at hp
      rw [hnot p hp.2, read_write_ne ha hp.1]

variable {l : Option (CArray Int)} {size : Nat}

theorem length_refreshed (now : Int)
    (h : ∀ a, l = some a → a.length = size) : (refreshed size now l).length = size := by
  cases l with
  | none => exact length_replicate
  | some a => rw [refreshed, length_map, h a rfl]

theorem read_refreshed (now : Int) (h : ∀ a, l = some a → a.length = size)
    {q : Int} (h0 : 0 ≤ q) (hlt : q < size) : (refreshed size now l).read q = some (match l.bind (CArray.read · q) with
        | some t => if 1800 < now - t then -1 else t
        | none => -1) := by
  cases l with
  | none =>
    rw [refreshed, CArray.read, if_pos h0, getElem?_replicate, if_pos (by omega)]
    rfl
  | some a =>
    obtain ⟨t, ht⟩ := exists_read (a := a) h0 (by rw [h a rfl]; exact hlt)
    rw [bind_some, ht]
    rw [CArray.read, if_pos h0] at ht
    rw [refreshed, CArray.read, if_pos h0, getElem?_map, ht, map_some]
    by_cases hnone : t = -1 <;> simp [hnone]

/-- When process `q` was predicted to fail, once a prediction has come at `now`, with `-1` for never: the processes
of the prediction at `now`, and the others as before unless this is more than 1800 seconds ago. -/
def Rearranger.stamp (s : Rearranger) (recvranks : List Int) (now q : Int) : Int :=
  if q ∈ recvranks then now
  else match s.predList.bind (CArray.read · q) with
    | some t => if 1800 < now - t then -1 else t
    | none => -1

/-- What there is to plan for when the prediction has come. -/
def Rearranger.outlook (s : Rearranger) (recvranks : List Int) (now : Int) : PlanInput :=
  ⟨s.proc.maps, s.proc.world, (range s.proc.size).map fun q : Nat => s.stamp recvranks now q⟩

/-- What a prediction relies on: maps that are inverse to each other, a communicator with a process at every position, and
a list with an entry for every process. -/
structure Rearranger.Listed (s : Rearranger) : Prop where
  inverse : s.proc.maps.MutuallyInverse
  nC_nonneg : 0 ≤ s.proc.maps.nC
  nR_nonneg : 0 ≤ s.proc.maps.nR
  world_nodup : s.proc.world.Nodup
  world_range : ∀ q ∈ s.proc.world, 0 ≤ q ∧ q < s.proc.size
  world_length : s.proc.maps.nC + s.proc.maps.nR ≤ s.proc.world.length
  predList : ∀ l, s.predList = some l → l.length = s.proc.size

namespace Rearranger.Listed

variable {s : Rearranger}

theorem length_le (h : s.Listed) : s.proc.maps.nC + s.proc.maps.nR ≤ s.proc.size := by
  have hsub : s.proc.world ⊆ originalGroup s.proc.size := fun q hq => mem_originalGroup.mpr (h.world_range q hq)
  have hle := (h.world_nodup.subperm hsub).length_le
  rw [originalGroup, length_map, length_range] at hle
  have := h.world_length
  omega

/-- The list has a stamp for every process, and the processes of the prediction are expected to fail. -/
theorem planInput (h : s.Listed) {recvranks : List Int} {now : Int} (hnow : now ≠ -1)
    (hranks : ∀ q ∈ recvranks, 0 ≤ rank s.proc.world q) :
    s.planInput recvranks now = some (s.outlook recvranks now) ∧ (s.outlook recvranks now).Sound ∧
      ∀ q ∈ recvranks, (s.outlook recvranks now).healthy (rank s.proc.world q) = false := by
  have hlen := length_refreshed now h.predList
  have hmem : ∀ q ∈ recvranks, q ∈ s.proc.world := by
    intro q hq
    by_contra hnot
    have := hranks q hq
    rw [rank, if_neg hnot, undefinedRank] at this
    omega
  obtain ⟨l, hl, hlen', hmarked, hrest⟩ := markPredicted_spec now
    (l := refreshed s.proc.size now s.predList) fun q hq => by
      have := h.world_range q (hmem q hq)
      omega
  have hholds : CArray.Holds l s.proc.size (s.stamp recvranks now) := by
    intro q h0 hlt
    by_cases hq : q ∈ recvranks
    · rw [hmarked q hq, stamp, if_pos hq]
    · rw [hrest q hq, read_refreshed now h.predList h0 hlt, stamp, if_neg hq]
  have hstamps : l = (s.outlook recvranks now).predList := by
    rw [outlook, ← hholds.take_eq, take_of_length_le (by omega)]
  rw [hstamps] at hl hholds
  refine ⟨by simp [Rearranger.planInput, hl, outlook], ⟨h.inverse, h.nC_nonneg, h.nR_nonneg, ?_⟩, ?_⟩
  · intro pos h0 hlt
    have hworld := h.world_length
    obtain ⟨q, hq⟩ := exists_read (a := s.proc.world) h0 (by simp only [outlook] at hlt; omega)
    obtain ⟨hq0, hq1⟩ := h.world_range q (mem_iff_read.mpr ⟨pos, hq⟩)
    have hread : (s.outlook recvranks now).world.read pos = some q := hq
    exact ⟨s.stamp recvranks now q == -1, by simp [PlanInput.healthyAt, hread, hholds q hq0 hq1]⟩
  · intro q hq
    obtain ⟨hq0, hq1⟩ := h.world_range q (hmem q hq)
    have hread : (s.outlook recvranks now).world.read (rank s.proc.world q) = _ := read_rank (hmem q hq)
    simp [PlanInput.healthy, PlanInput.healthyAt, hread, hholds q hq0 hq1, stamp, hq, hnow]

end Rearranger.Listed

/-- A notice that does not run into another, of failures that the renumbering can handle, while no plan
waits. -/
def Rearranger.NoticeFits (s : Rearranger) (failed : List Int) : Prop :=
  s.proc.ValidNotice failed ∧ s.proc.reqListLock = false ∧
    (¬ LosesEveryCopy s.proc.maps (failedRanks s.proc.world failed) ∨
      ∃ c ∈ failedRanks s.proc.world failed, c < s.proc.maps.nC ∧ s.proc.maps.ctr c = -1) ∧
    s.swapReplicas = false ∧ s.applying = false

/-- A prediction of processes that have a position in the communicator, in which no logical rank is served
twice, and which does not come to nothing while a plan waits. -/
def Rearranger.PredictionFits (s : Rearranger) (recvranks : List Int) (now : Int) : Prop :=
  0 ≤ now ∧ s.proc.aborting = false ∧ s.applying = false ∧ (∀ q ∈ recvranks, 0 ≤ rank s.proc.world q ∧
      rank s.proc.world q < s.proc.maps.nC + s.proc.maps.nR) ∧
    ∀ x ∈ s.planInput recvranks now, ((x.gifts (recvranks.map (rank x.world))).map Prod.fst).Nodup ∧
        (s.swapReplicas = true → x.gifts (recvranks.map (rank x.world)) ≠ [])

def PlansFit : Except NoticeFault Rearranger → RearrangeEvent → Prop
  | .ok s, .procFailed failed => s.NoticeFits failed
  | .ok s, .predict recvrank now => s.PredictionFits [recvrank] now
  | .ok s, .predictNode recvranks now => s.PredictionFits recvranks now
  | _, _ => True

instance (s : Rearranger) (failed : List Int) : Decidable (s.NoticeFits failed) :=
  instDecidableAnd

instance (s : Rearranger) (recvranks : List Int) (now : Int) : Decidable (s.PredictionFits recvranks now) :=
  instDecidableAnd

instance : ∀ r e, Decidable (PlansFit r e)
  | .ok s, .procFailed failed => inferInstanceAs (Decidable (s.NoticeFits failed))
  | .ok s, .predict recvrank now => inferInstanceAs (Decidable (s.PredictionFits [recvrank] now))
  | .ok s, .predictNode recvranks now => inferInstanceAs (Decidable (s.PredictionFits recvranks now))
  | .ok _, .commCreated | .ok _, .shrinkerExits | .ok _, .shrinkPerformed | .ok _, .swapSeen | .ok _, .rearrange
  | .error _, _ => instDecidableTrue

/-- The maps represent a configuration of the processes of `group`, which are members of the communicator
as it is. -/
structure Survivor.Placed (s : Survivor) (group : List Int) : Prop where
  represents : ∃ cfg, Represents cfg s.maps group
  me_mem : s.me ∈ group
  not_failed : ∀ q ∈ group, q ∉ s.failedGroup
  range : ∀ q ∈ group, 0 ≤ q ∧ q < s.size
  world_nodup : s.world.Nodup
  world_range : ∀ q ∈ s.world, 0 ≤ q ∧ q < s.size
  world_length : s.maps.nC + s.maps.nR ≤ s.world.length

structure Rearranger.Ready (s : Rearranger) : Prop where
  ckpt : s.proc.ckpt = none
  predList : ∀ l, s.predList = some l → l.length = s.proc.size
  phase : ∃ group aborting, Phase s.proc group aborting ∧ (aborting = false → s.proc.Placed group) ∧
    (aborting = true → s.swapReplicas = false ∧ s.applying = false)
  plan : s.swapReplicas = true ∨ s.applying = true → ∃ p, s.plan = some p ∧ p.Fits s.proc.maps
  idle : s.applying = true → s.proc.Idle ∧ s.swapReplicas = false

namespace Rearranger

variable {s : Rearranger}

theorem Ready.placed (h : s.Ready) (hab : s.proc.aborting = false) (hstop : s.proc.stopped = false) :
    ∃ group, Phase s.proc group false ∧ s.proc.Placed group := by
  obtain ⟨group, aborting, hphase, hplaced, _⟩ := h.phase
  have hfalse : aborting = false := by
    cases hphase with
    | installed _ _ hdecision => exact hdecision
    | stopped hst _ _ => rw [hstop] at hst; cases hst
    | creating _ _ _ _ _ hab' _ _ _ => rw [← hab', hab]
    | created _ _ _ _ hab' _ _ _ => rw [← hab', hab]
    | ckpt _ _ _ _ _ hckpt _ _ _ _ _ => rw [h.ckpt] at hckpt; cases hckpt
  exact ⟨group, hfalse ▸ hphase, hplaced hfalse⟩

theorem Ready.listed (h : s.Ready) {group : List Int} (hp : s.proc.Placed group) : s.Listed := by
  obtain ⟨cfg, hrep⟩ := hp.represents
  exact ⟨hrep.inverse, hrep.nC_nonneg, hrep.nR_nonneg, hp.world_nodup, hp.world_range, hp.world_length, h.predList⟩

variable {x : PlanInput} {r : Except NoticeFault Rearranger}

theorem plan_start (h : x.Sound) {size : Nat} (hsize : x.maps.nC + x.maps.nR ≤ size) :
    ∃ plan, copyMaps x.maps.nC x.maps.nR size
        { ctrmap := x.maps.cmpToRepMap, rtcmap := x.maps.repToCmpMap }
        { ctrmap := replicate x.maps.nC.toNat 0, rtcmap := replicate x.maps.nR.toNat 0 } = some plan ∧
      plan.Fits x.maps ∧ plan.ctrmap.Holds x.maps.nC x.maps.ctr ∧ plan.rtcmap.Holds x.maps.nR x.maps.rtc := by
  have hC := h.nC_nonneg
  have hR := h.nR_nonneg
  obtain ⟨plan, hplan, hl, hl', hctr, hrtc⟩ := copyMaps_spec size
    { ctrmap := x.maps.cmpToRepMap, rtcmap := x.maps.repToCmpMap }
    { ctrmap := replicate x.maps.nC.toNat 0, rtcmap := replicate x.maps.nR.toNat 0 }
    h.inverse.ctr_holds h.inverse.rtc_holds hC hR (by simp) (by simp) (by omega) (by omega)
  have hlen : (plan.ctrmap.length : Int) = x.maps.nC := by
    rw [hl, length_replicate]
    omega
  have hlen' : (plan.rtcmap.length : Int) = x.maps.nR := by
    rw [hl', length_replicate]
    omega
  exact ⟨plan, hplan, ⟨Plan.inverse_of_holds h.inverse rfl rfl hctr hrtc, hlen, hlen'⟩, hctr, hrtc⟩

theorem used_start (x : PlanInput) : CArray.Holds (replicate x.maps.nR.toNat false) x.maps.nR
    fun k => decide (k ∈ x.spares.take 0) := by
  intro k hk hlt
  obtain ⟨n, rfl⟩ := Int.eq_ofNat_of_zero_le hk
  rw [read_natCast, getElem?_replicate, if_pos (by omega)]
  simp

theorem handed_start {plan : Plan} (hfits : plan.Fits x.maps)
    (hctr : plan.ctrmap.Holds x.maps.nC x.maps.ctr) (hrtc : plan.rtcmap.Holds x.maps.nR x.maps.rtc) :
    x.Handed [] { plan := plan, usedreps := replicate x.maps.nR.toNat false } where
  ctr_length := hfits.ctr_length
  rtc_length := hfits.rtc_length
  given := by simp
  used := used_start x
  swap := rfl
  planned _ := by
    refine ⟨hfits, ?_, ?_⟩
    · intro c hc hlt _ _
      rw [ProcMaps.ctr, Plan.toMaps, hctr c hc hlt, getD_some]
    · intro k hk _
      obtain ⟨⟨hk0, hk1⟩, _⟩ := PlanInput.mem_spares.mp hk
      rw [ProcMaps.rtc, Plan.toMaps, hrtc k hk0 hk1, getD_some]

variable (h : s.Ready)

include h

theorem Ready.predictNode (hstop : s.proc.stopped = false) {recvranks : List Int} {now : Int}
    (hfit : s.PredictionFits recvranks now) :
    ∃ s', s.predictNode recvranks now = some s' ∧ s'.Ready := by
  obtain ⟨hnow, hab, happ, hranks, hgifts⟩ := hfit
  obtain ⟨group, hphase, hp⟩ := h.placed hab hstop
  have hlisted := h.listed hp
  have hstamp : now ≠ -1 := by omega
  obtain ⟨hx, hsound, hsick⟩ := hlisted.planInput hstamp fun q hq => (hranks q hq).1
  obtain ⟨hnodup, hwaits⟩ := hgifts _ hx
  obtain ⟨plan, hplan, hfits, hctr, hrtc⟩ := plan_start hsound hlisted.length_le
  obtain ⟨st, hst, hhanded⟩ := (handed_start hfits hctr hrtc).planAll hsound (recvranks.map (rank s.proc.world)) (by
    intro currank hc
    obtain ⟨q, hq, rfl⟩ := List.mem_map.mp hc
    exact ⟨(hranks q hq).1, (hranks q hq).2, hsick q hq⟩)
  have hlist : ∀ l, some (s.outlook recvranks now).predList = some l → l.length = s.proc.size := by
    intro l hl
    rw [← Option.some.inj hl, outlook, length_map, length_range]
  simp only [Rearranger.predictNode, hx, hplan, show (s.outlook recvranks now).world = s.proc.world from rfl, hst,
    bind_eq_bind, bind_some]
  cases hswap : st.swapReplicas with
  | true =>
    refine ⟨_, rfl, h.ckpt, hlist, ⟨group, false, hphase, fun _ => hp, by simp⟩, fun _ => ?_, ?_⟩
    · exact ⟨st.plan, rfl, (hhanded.planned hnodup).fits⟩
    · intro happ'
      rw [happ] at happ'
      cases happ'
  | false =>
    -- A plan that waits was ruled out, so none is lost.
    have hnone : s.swapReplicas = false := by
      by_contra hwait
      have hne := hwaits (by simpa using hwait)
      rw [hhanded.swap] at hswap
      simp only [nil_append, Bool.not_eq_false', List.isEmpty_iff] at hswap
      exact hne hswap
    refine ⟨_, rfl, h.ckpt, hlist, ⟨group, false, hphase, fun _ => hp, by simp⟩, ?_, ?_⟩
    · simp [hnone, happ]
    · simp [happ]

theorem Ready.procFailed {failed : List Int} (hfit : s.NoticeFits failed)
    (hs : s.daemon (.procFailed failed) = some r) :
    ∃ s', r = .ok s' ∧ s'.Ready := by
  obtain ⟨⟨hne, hnodup, hrange, hme⟩, hlock, hhandled, hswap, happ⟩ := hfit
  have hstop : s.proc.stopped = false := by
    obtain ⟨r', hr', _⟩ := map_eq_some_iff.mp hs
    exact step_not_stopped hr'
  obtain ⟨group, aborting, hphase, hplaced, _⟩ := h.phase
  obtain ⟨hidle, hgroup, hfalse⟩ := hphase.idle hlock h.ckpt hstop
  have hp := hplaced hfalse
  subst hgroup
  obtain ⟨cfg, hrep⟩ := hp.represents
  obtain ⟨t, ht, hcur, hranks, hmem⟩ := s.proc.translate_spec hnodup
    (fun f hf => ⟨(hrange f hf).1, (hrange f hf).2.1⟩) hp.world_nodup hp.not_failed
  have hnone : s.swapReplicas = false ∧ s.applying = false := ⟨hswap, happ⟩
  have hready : ∀ out group', s.proc.renumber false t = some (out, group') →
      (out.aborting = false → (∃ cfg, Represents cfg out.maps group') ∧
        ∀ q, q ∈ group' ↔ q ∈ s.proc.world ∧ q ∉ failed) → ∃ s', r = .ok s' ∧ s'.Ready := by
    intro out group' hren hgood
    obtain ⟨p, hp', hme', hsize, hmaps, hfailed, hworld, hckpt, hphase', _⟩ := procFailed_spec hidle ht hren
    simp only [daemon, hp', map_some, some_inj] at hs
    refine ⟨{ s with proc := p }, hs.symm, hckpt, fun l hl => (h.predList l hl).trans hsize.symm,
      ⟨group', _, hphase', ?_, fun _ => hnone⟩, by simp [hswap, happ], by simp [happ]⟩
    intro hab
    obtain ⟨⟨cfg', hrep'⟩, hmem'⟩ := hgood hab
    have hsub : group' ⊆ s.proc.world := fun q hq => ((hmem' q).mp hq).1
    refine ⟨⟨cfg', hmaps ▸ hrep'⟩, ?_, ?_, ?_, hworld ▸ hp.world_nodup, ?_, ?_⟩
    · exact (hmem' p.me).mpr (hme' ▸ ⟨hp.me_mem, hme⟩)
    · intro q hq
      obtain ⟨hqw, hqf⟩ := (hmem' q).mp hq
      rw [hfailed, hmem, not_or]
      exact ⟨hp.not_failed q hqw, hqf⟩
    · intro q hq
      rw [hsize]
      exact hp.range q (hsub hq)
    · intro q hq
      rw [hsize]
      exact hp.world_range q (hworld ▸ hq)
    · rw [hmaps, hworld, ← hrep'.length]
      exact Int.ofNat_le.mpr (hrep'.nodup.subperm hsub).length_le
  rcases hhandled with hkeep | hbare
  · obtain ⟨out, group', hren, _, _, hrep', hmem'⟩ := s.proc.renumber_spec hrep hp.me_mem hranks hkeep
    exact hready out group' hren fun _ => ⟨⟨_, hrep'⟩, hmem'⟩
  · obtain ⟨out, _, hab, hren⟩ := s.proc.renumber_abort hrep hp.me_mem hranks hcur hbare
    exact hready out _ hren fun hfalse' => by
      rw [hab] at hfalse'
      cases hfalse'

theorem Ready.shrinks {e : NoticeEvent}
    (hphase : ∀ {r}, Survivor.step (.ok s.proc) e = some r → ∀ group aborting, Phase s.proc group aborting →
      ∃ p, r = .ok p ∧ Phase p group aborting ∧ SameFailures s.proc p group)
    (hidle : s.proc.Idle → Survivor.step (.ok s.proc) e = none)
    (hs : s.daemon e = some r) : ∃ s', r = .ok s' ∧ s'.Ready := by
  obtain ⟨r', hr', rfl⟩ := map_eq_some_iff.mp hs
  obtain ⟨group, aborting, hp, hplaced, hab⟩ := h.phase
  obtain ⟨p, rfl, hp', hsame⟩ := hphase hr' group aborting hp
  have hrunning : s.applying = false := by
    by_contra happ
    rw [hidle (h.idle (by simpa using happ)).1] at hr'
    cases hr'
  refine ⟨{ s with proc := p }, rfl, hsame.ckpt h.ckpt, fun l hl => (h.predList l hl).trans hsame.size.symm,
    ⟨group, aborting, hp', ?_, hab⟩, ?_, by simp [hrunning]⟩
  · intro hfalse
    have hold := hplaced hfalse
    obtain ⟨cfg, hrep⟩ := hold.represents
    refine ⟨⟨cfg, hsame.maps ▸ hrep⟩, hsame.me ▸ hold.me_mem, hsame.failedGroup ▸ hold.not_failed,
      hsame.size ▸ hold.range, ?_, ?_, ?_⟩
    · rcases hsame.world with hw | hw
      · exact hw ▸ hold.world_nodup
      · exact hw ▸ hrep.nodup
    · rw [hsame.size]
      rcases hsame.world with hw | hw
      · exact hw ▸ hold.world_range
      · exact hw ▸ hold.range
    · rw [hsame.maps]
      rcases hsame.world with hw | hw
      · exact hw ▸ hold.world_length
      · rw [hw, hrep.length]
  · intro hplan
    rw [hsame.maps]
    exact h.plan hplan

theorem Ready.swapSeen (hswap : s.swapReplicas = true) (hlock : s.proc.reqListLock = false) :
    Ready { s with swapReplicas := false, applying := true } := by
  obtain ⟨group, aborting, hphase, hplaced, hab⟩ := h.phase
  cases aborting with
  | true =>
    rw [(hab rfl).1] at hswap
    cases hswap
  | false =>
    have hidle := (hphase.idle hlock h.ckpt hphase.not_stopped).1
    exact ⟨h.ckpt, h.predList, ⟨group, false, hphase, hplaced, by simp⟩, fun _ => h.plan (.inl hswap),
      fun _ => ⟨hidle, rfl⟩⟩

theorem Ready.rearrange (happ : s.applying = true) :
    ∃ s', s.rearrange = some s' ∧ s'.Ready ∧ s'.proc.maps.MutuallyInverse ∧
      (s'.proc.world.length : Int) = s'.proc.maps.nC + s'.proc.maps.nR := by
  obtain ⟨hidle, hswap⟩ := h.idle happ
  obtain ⟨group, hphase, hp⟩ := h.placed hidle.aborting hidle.stopped
  obtain ⟨_, hgroup, _⟩ := hphase.idle hidle.lock h.ckpt hidle.stopped
  subst hgroup
  obtain ⟨cfg, hrep⟩ := hp.represents
  obtain ⟨plan, hplan, hfits⟩ := h.plan (.inr happ)
  have hinv := hfits.inverse
  have hctrmap : plan.ctrmap.Holds s.proc.maps.nC _ := hinv.ctr_holds
  have hrtcmap : plan.rtcmap.Holds s.proc.maps.nR _ := hinv.rtc_holds
  obtain ⟨p, hcopy, _, _, hctr, hrtc⟩ := copyMaps_spec s.proc.maps.nC plan
    { ctrmap := s.proc.maps.cmpToRepMap, rtcmap := s.proc.maps.repToCmpMap }
    hctrmap hrtcmap hrep.nC_nonneg hrep.nR_nonneg hrep.inverse.ctr_holds.le_length
    hrep.inverse.rtc_holds.le_length le_rfl (hrep.inverse.nR_le_nC hrep.nC_nonneg)
  have hnew : (p.toMaps s.proc.maps).MutuallyInverse := Plan.inverse_of_holds hinv rfl rfl hctr hrtc
  have hrep' := Config.of_represents hnew hrep.nC_nonneg hrep.nR_nonneg hrep.length hrep.nodup
  refine ⟨{ s with proc := { s.proc with maps := p.toMaps s.proc.maps }, plan := none, applying := false },
    by simp [Rearranger.rearrange, hplan, hcopy], ⟨h.ckpt, h.predList, ?_, ?_, by simp⟩, hnew, hrep.length⟩
  · refine ⟨s.proc.world, false, .installed ?_ rfl rfl, fun _ => ?_, by simp⟩
    · exact { hidle with }
    · exact ⟨⟨_, hrep'⟩, hp.me_mem, hp.not_failed, hp.range, hp.world_nodup, hp.world_range, hp.world_length⟩
  · simp [hswap]

end Rearranger

/-- Nothing has gone wrong in the run, and if it ends with `MPI_Replica_rearrange` the maps are inverse to
each other over the ranks of the communicator. -/
def PlanApplied (events : List RearrangeEvent) (r : Except NoticeFault Rearranger) : Prop :=
  ∃ s, r = .ok s ∧ (events.getLast? = some .rearrange → s.proc.maps.MutuallyInverse ∧
    (s.proc.world.length : Int) = s.proc.maps.nC + s.proc.maps.nR)

open Rearranger

theorem ready_step (past : List RearrangeEvent) (r : Except NoticeFault Rearranger) (e : RearrangeEvent)
    (r' : Except NoticeFault Rearranger) (h : (∃ s, r = .ok s ∧ s.Ready) ∧ PlanApplied past r)
    (hguard : PlansFit r e) (hs : step r e = some r') :
    (∃ s, r' = .ok s ∧ s.Ready) ∧ PlanApplied (past ++ [e]) r' := by
  obtain ⟨⟨s, rfl, h⟩, _⟩ := h
  -- Only a rearrangement has more to show than that the next state is ready.
  have hother : e ≠ .rearrange → (∃ s, r' = .ok s ∧ s.Ready) →
      (∃ s, r' = .ok s ∧ s.Ready) ∧ PlanApplied (past ++ [e]) r' := by
    rintro hne ⟨s', hr', hready⟩
    refine ⟨⟨s', hr', hready⟩, s', hr', ?_⟩
    intro hlast
    rw [getLast?_append, getLast?_singleton, some_or, some_inj] at hlast
    exact absurd hlast hne
  cases e with
  | procFailed failed => exact hother (by simp) (h.procFailed hguard hs)
  | commCreated =>
    exact hother (by simp) (h.shrinks (fun hr _ _ hp => hp.commCreated hr)
      (fun hidle => by simp [Survivor.step, hidle.thread]) hs)
  | shrinkerExits =>
    exact hother (by simp) (h.shrinks (fun hr _ _ hp => hp.shrinkerExits hr)
      (fun hidle => by simp [Survivor.step, hidle.thread]) hs)
  | shrinkPerformed =>
    exact hother (by simp) (h.shrinks (fun hr _ _ hp => hp.shrinkPerformed hr)
      (fun hidle => by simp [Survivor.step, hidle.resp]) hs)
  | predict recvrank now =>
    simp only [step] at hs
    split at hs
    · cases hs
    · rename_i hstop
      obtain ⟨s', hs', hready⟩ := h.predictNode ((Bool.not_eq_true _).mp hstop) hguard
      rw [predict, hs', orFault, some_inj] at hs
      exact hother (by simp) ⟨s', hs.symm, hready⟩
  | predictNode recvranks now =>
    simp only [step] at hs
    split at hs
    · cases hs
    · rename_i hstop
      obtain ⟨s', hs', hready⟩ := h.predictNode ((Bool.not_eq_true _).mp hstop) hguard
      rw [hs', orFault, some_inj] at hs
      exact hother (by simp) ⟨s', hs.symm, hready⟩
  | swapSeen =>
    simp only [step] at hs
    split at hs
    · rename_i hseen
      simp only [Bool.and_eq_true, Bool.not_eq_true'] at hseen
      rw [some_inj] at hs
      exact hother (by simp) ⟨_, hs.symm, h.swapSeen hseen.1.1 hseen.2⟩
    · cases hs
  | rearrange =>
    simp only [step] at hs
    split at hs
    · obtain ⟨s', hs', hready, hinv, hlen⟩ := h.rearrange ‹_›
      rw [hs', orFault, some_inj] at hs
      exact ⟨⟨s', hs.symm, hready⟩, s', hs.symm, fun _ => ⟨hinv, hlen⟩⟩
    · cases hs

theorem start_ready {m : ProcMaps} {me : Int} (hC : 0 ≤ m.nC) (hR : 0 ≤ m.nR)
    (hm : m.MutuallyInverse) (hme : 0 ≤ me ∧ me < m.nC + m.nR) : (start m me).Ready := by
  have hrep := initialConfig_represents hC hR hm
  refine ⟨rfl, by simp [start], ⟨_, false,
    .installed ⟨rfl, rfl, rfl, rfl, rfl, rfl, rfl, rfl⟩ rfl rfl, fun _ => ?_, by simp⟩, ?_, ?_⟩
  · refine ⟨⟨_, hrep⟩, ?_, fun q _ => not_mem_nil, fun q => mem_originalGroup.mp,
      hrep.nodup, fun q => mem_originalGroup.mp, hrep.length.ge⟩
    exact mem_originalGroup.mpr ⟨hme.1, by simp only [start, Survivor.start]; omega⟩
  · simp [start]
  · simp [start]

/-- A plan is applied to the maps it was computed from, in every run whose events fit. -/
theorem plans_applied (m : ProcMaps) (me : Int) (hC : 1 ≤ m.nC) (hR : 0 ≤ m.nR)
    (hm : m.MutuallyInverse) (hme : 0 ≤ me ∧ me < m.nC + m.nR) {events : List RearrangeEvent}
    {r : Except NoticeFault Rearranger}
    (hguard : Guarded step PlansFit (.ok (.start m me)) events)
    (hrun : runEvents step (.ok (.start m me)) events = some r) : PlanApplied events r := by
  have hstart : (start m me).Ready := start_ready (by omega) hR hm hme
  exact (guarded_run_invariant (P := fun past r => (∃ s, r = .ok s ∧ s.Ready) ∧ PlanApplied past r)
    ready_step events [] ⟨⟨_, rfl, hstart⟩, _, rfl, by simp⟩ hguard hrun).2

/-- Three logical ranks, the third without a replica: it is predicted to fail and gets the replica of the
first. -/
theorem plan_applied_at_once : ∃ r, runEvents step (.ok (.start (.initial 3 2) 0))
        [.predict 2 100, .swapSeen, .rearrange] = some r ∧
      PlanApplied [.predict 2 100, .swapSeen, .rearrange] r :=
  ⟨_, rfl, plans_applied (.initial 3 2) 0 (by decide) (by decide) (ProcMaps.initial_mutuallyInverse (by decide))
    (by decide) (by decide) rfl⟩

/-- The same plan when the second replica fails before it is applied: the second logical rank is mapped to
a replica that is no longer there. -/
theorem plan_applied_after_failure : ∃ s, runEvents step (.ok (.start (.initial 3 2) 0))
        [.predict 2 100, .procFailed [4], .commCreated, .shrinkPerformed, .swapSeen, .rearrange] = some (.ok s) ∧
      s.proc.maps.nR = 1 ∧ s.proc.maps.cmpToRepMap = [-1, 1, 0] ∧
      ¬ PlanApplied [.predict 2 100, .procFailed [4], .commCreated, .shrinkPerformed, .swapSeen, .rearrange]
        (.ok s) := by
  refine ⟨_, rfl, rfl, rfl, ?_⟩
  rintro ⟨s, hs, hinv⟩
  obtain ⟨r, hr, hrange⟩ := (hinv rfl).1.cmp 1 (by decide) (by cases hs; decide)
  cases hs
  cases hr
  revert hrange
  decide

end ParepMpi
