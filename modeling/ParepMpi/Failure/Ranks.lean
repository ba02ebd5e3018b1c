import ParepMpi.Failure.Compose

/-!
# Ranks after failures

When a shrink ends, every process splits the new `eworldComm` into compute processes and replicas. `MPI_Comm_rank` and
`MPI_Comm_size` answer from the parts, and the application must not see that anything has changed.
-/

namespace ParepMpi

open List Option ProcGroup Survivor

/-- A call of `EMPI_Intercomm_create`: the local communicator, led by its rank 0, and the rank of the remote leader in
`eworldComm`. -/
structure InterCall where
  group : List Int
  remote : Int

/-- The parts that a process belongs to, and the calls that join them to the others; `none` is `EMPI_COMM_NULL`. -/
structure Comms where
  cmp : Option (List Int)
  rep : Option (List Int)
  cmpRepInter : Option InterCall
  cmpNoRepInter : Option InterCall

/-- The loop that looks for the first compute process without a replica. -/
def ProcMaps.rleader (m : ProcMaps) : Int :=
  match (range m.nC.toNat).find? fun j : Nat => m.cmpToRepMap.read j = some (-1) with
  | some j => j
  | none => m.nR

namespace Survivor

variable (s : Survivor)

/-- The colour that process `q` passes for `EMPI_CMP_NO_REP`. -/
def colorinternal (q : Int) : Int :=
  if s.maps.cmpToRepMap.read (rank s.world q) ≠ some (-1) then undefinedRank else 1

/-- The communicators that the process creates over `eworldComm` at the end of a shrink. -/
def comms : Comms :=
  if 0 < s.maps.nR then
    let color q := if rank s.world q < s.maps.nC then 0 else 1
    let part := split s.world color s.me
    if color s.me = 0 then
      ⟨part, none, some ⟨part, s.maps.nC⟩, if s.colorinternal s.me = undefinedRank then none
        else some ⟨split part s.colorinternal s.me, s.maps.nC⟩⟩
    else ⟨none, part, some ⟨part, 0⟩, if s.maps.nR < s.maps.nC then some ⟨part, s.maps.rleader⟩ else none⟩
  else ⟨s.world, none, none, none⟩

/-- The colour that process `q` passes for `pairComm`. -/
def pairColor (q : Int) : Int :=
  if s.maps.nR ≤ 0 ∨ rank s.world q < s.maps.nC then rank s.world q else s.maps.rtc (rank s.world q - s.maps.nC)

def pairComm : List Int := split s.world s.pairColor s.me

/-- `MPI_Comm_rank` on `MPI_COMM_WORLD`. -/
def commRank : Option Int :=
  match s.comms.rep with
  | some rep => s.maps.repToCmpMap.read (rank rep s.me)
  | none => s.comms.cmp.map (rank · s.me)

/-- `MPI_Comm_size` on `MPI_COMM_WORLD`. -/
def commSize : Option Int :=
  match s.comms.rep with
  | some _ => some (s.world.length - s.maps.nR)
  | none => s.comms.cmp.map fun cmp => (cmp.length : Int)

end Survivor

/-- Process `q` computes for the logical rank `c`. -/
def Config.Serves (cfg : Config) (nC q c : Int) : Prop :=
  0 ≤ c ∧ c < nC ∧ cfg.compute c = q ∨ (q, c) ∈ cfg.replicas

/-- Whoever is left serves the logical rank it has always served. -/
theorem Config.Serves.of_fail {cfg : Config} {nC q c : Int} {gone : List Int} (hf : cfg.Functional)
    (hcopy : ¬ cfg.Loses nC gone) (h : (cfg.fail gone).Serves nC q c) : cfg.Serves nC q c := by
  rcases h with ⟨h0, hlt, hc⟩ | hrep
  · by_cases hmem : cfg.compute c ∈ gone
    · obtain ⟨r, hr, _⟩ := exists_replica_of_not_loses hcopy h0 hlt hmem
      rw [fail_compute_of_replica hf hmem hr] at hc
      exact .inr (hc ▸ hr)
    · exact .inl ⟨h0, hlt, fail_compute_of_not_mem hmem ▸ hc⟩
  · exact .inr (mem_fail_replicas.mp hrep).1

namespace Represents

variable {cfg : Config} {s : Survivor} (h : Represents cfg s.maps s.world)

include h

theorem serves_unique {q c d : Int} (hc : cfg.Serves s.maps.nC q c) (hd : cfg.Serves s.maps.nC q d) : c = d := by
  have hrank : ∀ {k}, cfg.Serves s.maps.nC q k → rank s.world q = k ∧ k < s.maps.nC ∨
      ∃ r, 0 ≤ r ∧ rank s.world q = s.maps.nC + r ∧ s.maps.rtc r = k := by
    rintro k (⟨h0, hlt, rfl⟩ | hrep)
    · exact .inl ⟨rank_of_read h.nodup (h.compute k h0 hlt), hlt⟩
    · obtain ⟨r, hr0, _, hrtc, hr⟩ := h.mem_replicas_iff.mp hrep
      exact .inr ⟨r, hr0, rank_of_read h.nodup hr, hrtc⟩
  rcases hrank hc with ⟨h1, h2⟩ | ⟨r, hr, h1, rfl⟩ <;> rcases hrank hd with ⟨h3, h4⟩ | ⟨r', hr', h3, rfl⟩
  · omega
  · omega
  · omega
  · rw [show r = r' by omega]

variable (hme : s.me ∈ s.world)

include hme

theorem commRank_eq : s.commRank = some (s.pairColor s.me) ∧ s.commSize = some s.maps.nC := by
  have hC := Int.toNat_of_nonneg h.nC_nonneg
  have hlength := h.length
  have hbounds := rank_bounds hme
  have hsplit := split_half h.nodup s.maps.nC.toNat (p := s.me)
  rw [hC] at hsplit
  unfold commRank commSize comms pairColor
  by_cases hlt : rank s.world s.me < s.maps.nC
  · by_cases hR : 0 < s.maps.nR
    · have hrank := (rank_take h.nodup s.maps.nC.toNat hme (by omega)).2
      simp [hR, hlt, hsplit, hrank]
      omega
    · have hnR := h.nR_nonneg
      simp [hR, hlt]
      omega
  · have hrank := (rank_drop h.nodup s.maps.nC.toNat hme (by omega)).2
    have hread := h.inverse.rtc_holds (rank s.world s.me - s.maps.nC) (by omega) (by omega)
    simp [show 0 < s.maps.nR by omega, hlt, hsplit, hrank, hC, hread]
    omega

theorem pairColor_serves : 0 ≤ s.pairColor s.me ∧ s.pairColor s.me < s.maps.nC ∧
    cfg.Serves s.maps.nC s.me (s.pairColor s.me) := by
  have hbounds := rank_bounds hme
  have hlength := h.length
  have hread := read_rank hme
  unfold pairColor
  split
  next hor =>
    have hlt : rank s.world s.me < s.maps.nC := by omega
    rw [h.compute _ hbounds.1 hlt, some_inj] at hread
    exact ⟨hbounds.1, hlt, .inl ⟨hbounds.1, hlt, hread⟩⟩
  next hge =>
    obtain ⟨h0, hcmp⟩ := h.inverse.rtc_bounds (r := rank s.world s.me - s.maps.nC) (by omega) (by omega)
    refine ⟨h0, hcmp, .inr (h.mem_replicas_iff.mpr ⟨rank s.world s.me - s.maps.nC, by omega, by omega, rfl, ?_⟩)⟩
    rwa [add_sub_cancel]

omit hme in
/-- A compute process and its replica. -/
theorem length_pairComm_le : s.pairComm.length ≤ 2 := by
  let c := s.pairColor s.me
  have hsub : s.pairComm ⊆ [cfg.compute c, (cfg.replicaOf c).getD (cfg.compute c)] := by
    intro q hq
    obtain ⟨hq, hcolor⟩ := mem_filter.mp hq
    have hserves := (h.pairColor_serves (s := { s with me := q }) hq).2.2
    rcases (of_decide_eq_true hcolor : s.pairColor q = c) ▸ hserves with ⟨_, _, hq⟩ | hq
    · exact hq ▸ mem_cons_self
    · simp [(Config.replicaOf_eq_some_iff h.functional).mpr hq]
  exact (subperm_of_subset (h.nodup.filter _) hsub).length_le

end Represents

/-- The process goes on, with its communicator installed, after the notices in `events`. -/
structure GoesOn (m : ProcMaps) (me : Int) (events : List NoticeEvent) (s : Survivor) : Prop where
  nC_pos : 1 ≤ m.nC
  nR_nonneg : 0 ≤ m.nR
  inverse : m.MutuallyInverse
  range : 0 ≤ me ∧ me < m.nC + m.nR
  guard : Guarded step NoticesInTime (.ok (.start m me)) events
  run : runEvents step (.ok (.start m me)) events = some (.ok s)
  installed : s.Installed
  goes : s.stopped = false

section Runs

variable {m : ProcMaps} {me me' : Int} {events events' : List NoticeEvent} {s s' : Survivor}

theorem GoesOn.start_mem (h : GoesOn m me events s) : me ∈ originalGroup (m.nC + m.nR).toNat := by
  obtain ⟨h0, hlt⟩ := h.range
  rw [mem_originalGroup]
  omega

theorem GoesOn.represents (h : GoesOn m me events s) : ¬ (initialConfig m).Loses m.nC (noticed events) ∧
    s.maps.nC = m.nC ∧ Represents ((initialConfig m).fail (noticed events)) s.maps s.world ∧ s.me = me ∧ me ∈ s.world := by
  have hC : 0 ≤ m.nC := by have := h.nC_pos; omega
  obtain ⟨u, hu, hc⟩ := guarded_run_invariant (P := fun past r => ∃ s, r = .ok s ∧ Composed m me (noticed past) s)
    (composed_step hC h.nR_nonneg h.inverse h.range) events [] ⟨_, rfl, start_composed hC h.nR_nonneg h.inverse⟩ h.guard h.run
  cases hu
  rw [nil_append] at hc
  obtain ⟨group, aborting, hphase, hout⟩ := hc.outcome
  obtain ⟨hlock, hckpt⟩ := h.installed.resolve_left (by simp [h.goes])
  obtain ⟨_, rfl, rfl⟩ := hphase.idle hlock hckpt h.goes
  cases hout with
  | survives hcopy hnC hrep hmem =>
    exact ⟨hcopy, hnC, hrep, hc.me_eq, (hmem me).mpr ⟨h.start_mem, hc.me_not_mem⟩⟩

/-- After any number of failures, and promoted or not, a process keeps the rank that it started with. -/
theorem comm_rank_stable (h : GoesOn m me events s) : ∃ c, 0 ≤ c ∧ c < m.nC ∧
    (start m me).commRank = some c ∧ s.commRank = some c ∧ s.commSize = some m.nC := by
  obtain ⟨hcopy, hnC, hrep, rfl, hmem⟩ := h.represents
  have hinit : Represents (initialConfig m) (start m s.me).maps (start m s.me).world :=
    initialConfig_represents (by have := h.nC_pos; omega) h.nR_nonneg h.inverse
  obtain ⟨h0, hlt, hserves⟩ := hrep.pairColor_serves hmem
  obtain ⟨hrank, hsize⟩ := hrep.commRank_eq hmem
  rw [hnC] at hlt hserves hsize
  have hsame := hinit.serves_unique (hserves.of_fail hinit.functional hcopy) (hinit.pairColor_serves h.start_mem).2.2
  exact ⟨_, h0, hlt, hsame ▸ (hinit.commRank_eq h.start_mem).1, hrank, hsize⟩

/-- Two of three logical ranks are replicated: process 3 takes the place of process 0, and then process 4 fails. -/
def promotion : List NoticeEvent :=
  [.procFailed [0], .commCreated, .shrinkerExits, .shrinkPerformed, .procFailed [4], .commCreated, .shrinkerExits,
    .shrinkPerformed]

theorem promotion_goesOn : (∃ s, GoesOn (.initial 3 2) 1 promotion s) ∧ ∃ s, GoesOn (.initial 3 2) 3 promotion s := by
  have hm : (ProcMaps.initial 3 2).MutuallyInverse := ProcMaps.initial_mutuallyInverse (by decide)
  exact ⟨⟨_, by decide, by decide, hm, by decide, by decide, rfl, .inr ⟨rfl, rfl⟩, rfl⟩,
    ⟨_, by decide, by decide, hm, by decide, by decide, rfl, .inr ⟨rfl, rfl⟩, rfl⟩⟩

theorem promoted_keeps_rank : ∃ s c, GoesOn (.initial 3 2) 3 promotion s ∧
    (start (.initial 3 2) 3).commRank = some c ∧ s.commRank = some c := by
  obtain ⟨s, h⟩ := promotion_goesOn.2
  obtain ⟨c, _, _, hstart, hrank, _⟩ := comm_rank_stable h
  exact ⟨s, c, h, hstart, hrank⟩

/-- Survivors that were told of the same failures, in whatever order and grouping, have the same maps and number the
processes alike. -/
theorem survivors_agree (h : GoesOn m me events s) (h' : GoesOn m me' events' s')
    (hsame : ∀ q, q ∈ noticed events ↔ q ∈ noticed events') : SameMaps s.maps s'.maps ∧ s.world = s'.world := by
  obtain ⟨_, hnC, hrep, _⟩ := h.represents
  obtain ⟨_, hnC', hrep', _⟩ := h'.represents
  have hfail : (initialConfig m).fail (noticed events) = (initialConfig m).fail (noticed events') := by
    simp only [Config.fail, hsame]
  rw [hfail] at hrep
  exact ⟨hrep.sameMaps hrep' (hnC.trans hnC'.symm), hrep.sameMembers hrep' (hnC.trans hnC'.symm)⟩

theorem promoted_agrees : ∃ s s', GoesOn (.initial 3 2) 3 promotion s ∧ GoesOn (.initial 3 2) 1 promotion s' ∧
    SameMaps s.maps s'.maps ∧ s.world = s'.world := by
  obtain ⟨s, h⟩ := promotion_goesOn.2
  obtain ⟨s', h'⟩ := promotion_goesOn.1
  exact ⟨s, s', h, h', survivors_agree h h' fun q => Iff.rfl⟩

/-- `pairComm` holds the live processes of one rank, a compute process and its replica at most. -/
theorem pair_comm_of_rank (h : GoesOn m me events s) : s.pairComm.length ≤ 2 ∧
    ∀ q, q ∈ s.pairComm ↔ q ∈ s.world ∧ { s with me := q }.commRank = s.commRank := by
  obtain ⟨_, _, hrep, rfl, hmem⟩ := h.represents
  refine ⟨hrep.length_pairComm_le, fun q => ?_⟩
  rw [pairComm, split, mem_filter, decide_eq_true_iff]
  refine and_congr_right fun hq => ?_
  rw [(hrep.commRank_eq hmem).1, (hrep.commRank_eq (s := { s with me := q }) hq).1, some_inj]
  rfl

theorem promoted_alone : ∃ s, GoesOn (.initial 3 2) 3 promotion s ∧ s.pairComm.length ≤ 2 := by
  obtain ⟨s, h⟩ := promotion_goesOn.2
  exact ⟨s, h, (pair_comm_of_rank h).1⟩

end Runs

end ParepMpi
