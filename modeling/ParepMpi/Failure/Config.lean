import ParepMpi.Failure.Renumbered
import ParepMpi.Lib.Group

/-!
# Configurations

What the maps and the communicator stand for, without their numbering: which process computes each logical rank, and
which replicas there are, in order.
-/

namespace ParepMpi

open List Option ProcMaps CArray ProcGroup

/-- The process of each logical rank, and the replicas in order with the logical rank of each. -/
structure Config where
  compute : Int → Int
  replicas : List (Int × Int)

namespace Config

def replicaOf (cfg : Config) (c : Int) : Option Int :=
  (cfg.replicas.find? fun x => x.2 == c).map Prod.fst

/-- The processes of `failed` leave: a replica takes the place of its compute process. -/
def fail (cfg : Config) (failed : List Int) : Config where
  compute c := if cfg.compute c ∈ failed then (cfg.replicaOf c).getD (cfg.compute c) else cfg.compute c
  replicas := cfg.replicas.filter fun x => x.1 ∉ failed ∧ cfg.compute x.2 ∉ failed

def Loses (cfg : Config) (nC : Int) (failed : List Int) : Prop :=
  ∃ c, 0 ≤ c ∧ c < nC ∧ cfg.compute c ∈ failed ∧ ∀ q, (q, c) ∈ cfg.replicas → q ∈ failed

def Functional (cfg : Config) : Prop := (cfg.replicas.map Prod.snd).Nodup

variable {cfg : Config} {failed gone : List Int} {nC : Int}

theorem replicaOf_eq_some_iff (h : cfg.Functional) {c q : Int} : cfg.replicaOf c = some q ↔ (q, c) ∈ cfg.replicas := by
  rw [replicaOf, map_eq_some_iff]
  constructor
  · rintro ⟨⟨p, d⟩, hfind, rfl⟩
    have hd : d = c := by simpa using find?_some hfind
    exact hd ▸ mem_of_find?_eq_some hfind
  · intro hmem
    obtain ⟨x, hx⟩ := isSome_iff_exists.mp
      (find?_isSome (p := fun x : Int × Int => x.2 == c).mpr ⟨(q, c), hmem, by simp⟩)
    have hsnd : x.2 = c := by simpa using find?_some hx
    have heq := inj_on_of_nodup_map h (mem_of_find?_eq_some hx) hmem hsnd
    exact ⟨x, hx, by rw [heq]⟩

theorem Functional.fail (h : cfg.Functional) : (cfg.fail failed).Functional :=
  Nodup.sublist (filter_sublist.map Prod.snd) h

theorem mem_fail_replicas {q c : Int} :
    (q, c) ∈ (cfg.fail failed).replicas ↔ (q, c) ∈ cfg.replicas ∧ q ∉ failed ∧ cfg.compute c ∉ failed := by
  simp [Config.fail]

variable {c : Int}

theorem fail_compute_of_not_mem (h : cfg.compute c ∉ failed) : (cfg.fail failed).compute c = cfg.compute c := if_neg h

theorem fail_compute_of_replica (hf : cfg.Functional) {c q : Int} (h : cfg.compute c ∈ failed)
    (hq : (q, c) ∈ cfg.replicas) : (cfg.fail failed).compute c = q := by
  rw [Config.fail]
  simp only [if_pos h, (replicaOf_eq_some_iff hf).mpr hq, getD_some]

theorem exists_replica_of_not_loses (h : ¬ cfg.Loses nC failed) (hc : 0 ≤ c) (hlt : c < nC)
    (hmem : cfg.compute c ∈ failed) : ∃ q, (q, c) ∈ cfg.replicas ∧ q ∉ failed := by
  by_contra hnone
  push Not at hnone
  exact h ⟨c, hc, hlt, hmem, hnone⟩

theorem not_loses_append (hf : cfg.Functional) (hgone : ¬ cfg.Loses nC gone)
    (hfailed : ¬ (cfg.fail gone).Loses nC failed) : ¬ cfg.Loses nC (gone ++ failed) := by
  rintro ⟨c, hc, hlt, hmem, hall⟩
  apply hfailed
  refine ⟨c, hc, hlt, ?_, ?_⟩
  · by_cases hg : cfg.compute c ∈ gone
    · -- The replica promoted the first time is the copy that fails the second time.
      obtain ⟨q, hq, hqg⟩ := exists_replica_of_not_loses hgone hc hlt hg
      rw [fail_compute_of_replica hf hg hq]
      exact (mem_append.mp (hall q hq)).resolve_left hqg
    · rw [fail_compute_of_not_mem hg]
      exact (mem_append.mp hmem).resolve_left hg
  · intro q hq
    obtain ⟨hrep, hqg, _⟩ := mem_fail_replicas.mp hq
    exact (mem_append.mp (hall q hrep)).resolve_left hqg

theorem fail_compute_append (hf : cfg.Functional) (h : ¬ cfg.Loses nC (gone ++ failed)) (hc : 0 ≤ c) (hlt : c < nC) :
    ((cfg.fail gone).fail failed).compute c = (cfg.fail (gone ++ failed)).compute c := by
  by_cases hmem : cfg.compute c ∈ gone ++ failed
  · obtain ⟨q, hq, hqf⟩ := exists_replica_of_not_loses h hc hlt hmem
    rw [mem_append, not_or] at hqf
    rw [fail_compute_of_replica hf hmem hq]
    by_cases hg : cfg.compute c ∈ gone
    · have hfirst := fail_compute_of_replica hf hg hq
      rw [fail_compute_of_not_mem (hfirst ▸ hqf.2), hfirst]
    · have hfirst := fail_compute_of_not_mem hg
      apply fail_compute_of_replica hf.fail
      · rw [hfirst]
        exact (mem_append.mp hmem).resolve_left hg
      · exact mem_fail_replicas.mpr ⟨hq, hqf.1, hg⟩
  · rw [fail_compute_of_not_mem hmem]
    rw [mem_append, not_or] at hmem
    have hfirst := fail_compute_of_not_mem hmem.1
    rw [fail_compute_of_not_mem (hfirst ▸ hmem.2), hfirst]

theorem fail_replicas_append : ((cfg.fail gone).fail failed).replicas = (cfg.fail (gone ++ failed)).replicas := by
  change List.filter _ (List.filter _ cfg.replicas) = List.filter _ cfg.replicas
  rw [List.filter_filter]
  apply filter_congr
  intro x _
  -- A replica that the first failure leaves has its compute process still in place.
  by_cases hg : cfg.compute x.2 ∈ gone
  · simp [hg]
  · have hfirst : (cfg.fail gone).compute x.2 = cfg.compute x.2 := fail_compute_of_not_mem hg
    simp only [hfirst, mem_append, hg, not_false_eq_true, and_true, not_or, ← Bool.decide_and, true_and]
    congr 1
    apply propext
    tauto

end Config

open Compact

/-- The maps and the members of the communicator, by rank, stand for the configuration. -/
structure Represents (cfg : Config) (m : ProcMaps) (world : CArray Int) : Prop where
  inverse : m.MutuallyInverse
  nC_nonneg : 0 ≤ m.nC
  nR_nonneg : 0 ≤ m.nR
  length : (world.length : Int) = m.nC + m.nR
  nodup : world.Nodup
  compute : ∀ c, 0 ≤ c → c < m.nC → world.read c = some (cfg.compute c)
  replicas_length : (cfg.replicas.length : Int) = m.nR
  replica : ∀ r, 0 ≤ r → r < m.nR → ∃ q, world.read (m.nC + r) = some q ∧ CArray.read cfg.replicas r = some (q, m.rtc r)

def failedRanks (world failed : List Int) : List Int :=
  (inter world failed).map (rank world)

theorem mem_failedRanks {world failed : List Int} (hw : world.Nodup) {f : Int} :
    f ∈ failedRanks world failed ↔ ∃ q, CArray.read world f = some q ∧ q ∈ failed := by
  rw [failedRanks, List.mem_map]
  constructor
  · rintro ⟨q, hq, rfl⟩
    obtain ⟨hqw, hqf⟩ := mem_inter.mp hq
    exact ⟨q, read_rank hqw, hqf⟩
  · rintro ⟨q, hread, hqf⟩
    exact ⟨q, mem_inter.mpr ⟨mem_iff_read.mpr ⟨f, hread⟩, hqf⟩, rank_of_read hw hread⟩

theorem failedRanks_ascend {world failed : List Int} (hw : world.Nodup) : (failedRanks world failed).Pairwise (· < ·) :=
  ranks_ascend hw filter_sublist

namespace Represents

variable {cfg : Config} {m : ProcMaps} {world : CArray Int} {failed : List Int}

section

variable (h : Represents cfg m world)

include h

theorem functional : cfg.Functional := by
  have hsnd : ∀ i c, CArray.read (cfg.replicas.map Prod.snd) i = some c → 0 ≤ i ∧ i < m.nR ∧ m.rtc i = c := by
    intro i c hi
    obtain ⟨h0, hlt⟩ := read_eq_some_bounds hi
    rw [length_map, h.replicas_length] at hlt
    obtain ⟨q, _, hq⟩ := h.replica i h0 hlt
    rw [CArray.read, if_pos h0] at hq hi
    rw [getElem?_map, hq, map_some, some_inj] at hi
    exact ⟨h0, hlt, hi⟩
  unfold Config.Functional
  rw [nodup_iff_read]
  intro i j c hi hj
  obtain ⟨hi0, hilt, hic⟩ := hsnd i c hi
  obtain ⟨hj0, hjlt, hjc⟩ := hsnd j c hj
  rw [← h.inverse.ctr_rtc hi0 hilt, hic, ← hjc, h.inverse.ctr_rtc hj0 hjlt]

theorem mem_replicas_iff {q c : Int} : (q, c) ∈ cfg.replicas ↔
      ∃ r, 0 ≤ r ∧ r < m.nR ∧ m.rtc r = c ∧ world.read (m.nC + r) = some q := by
  rw [mem_iff_read]
  constructor
  · rintro ⟨r, hr⟩
    obtain ⟨h0, hlt⟩ := read_eq_some_bounds hr
    rw [h.replicas_length] at hlt
    obtain ⟨p, hp, hread⟩ := h.replica r h0 hlt
    rw [hr, some_inj, Prod.mk.injEq] at hread
    exact ⟨r, h0, hlt, hread.2.symm, hread.1 ▸ hp⟩
  · rintro ⟨r, h0, hlt, rfl, hq⟩
    obtain ⟨p, hp, hread⟩ := h.replica r h0 hlt
    rw [hq, some_inj] at hp
    exact ⟨r, by rw [hread, hp]⟩

theorem failedRanks_range : m.Ranks (failedRanks world failed) := by
  intro f hf
  obtain ⟨q, hq, _⟩ := (mem_failedRanks h.nodup).mp hf
  obtain ⟨h0, hlt⟩ := read_eq_some_bounds hq
  rw [h.length] at hlt
  exact ⟨h0, hlt⟩

theorem mem_failedRanks_compute {c : Int} (hc : 0 ≤ c) (hlt : c < m.nC) :
    c ∈ failedRanks world failed ↔ cfg.compute c ∈ failed := by
  simp [mem_failedRanks h.nodup, h.compute c hc hlt]

theorem losesEveryCopy_iff : LosesEveryCopy m (failedRanks world failed) ↔ cfg.Loses m.nC failed := by
  constructor
  · rintro ⟨c, hc, hlt, hcopy⟩
    have h0 := (h.failedRanks_range c hc).1
    refine ⟨c, h0, hlt, (h.mem_failedRanks_compute h0 hlt).mp hc, ?_⟩
    intro q hq
    obtain ⟨r, hr0, hrlt, rfl, hread⟩ := h.mem_replicas_iff.mp hq
    rw [h.inverse.ctr_rtc hr0 hrlt] at hcopy
    obtain ⟨p, hp, hmem⟩ := (mem_failedRanks h.nodup).mp (hcopy.resolve_left (by omega))
    rw [hread, some_inj] at hp
    exact hp ▸ hmem
  · rintro ⟨c, h0, hlt, hc, hall⟩
    refine ⟨c, (h.mem_failedRanks_compute h0 hlt).mpr hc, hlt, ?_⟩
    by_cases hnone : m.ctr c = -1
    · exact .inl hnone
    · right
      obtain ⟨hr0, hrlt⟩ := h.inverse.ctr_bounds h0 hlt hnone
      obtain ⟨q, hq, _⟩ := h.replica (m.ctr c) hr0 hrlt
      have hmem := hall q (h.mem_replicas_iff.mpr ⟨m.ctr c, hr0, hrlt, h.inverse.rtc_ctr h0 hlt hnone, hq⟩)
      exact (mem_failedRanks h.nodup).mpr ⟨q, hq, hmem⟩

variable (hcopy : ¬ LosesEveryCopy m (failedRanks world failed))

include hcopy

theorem survivable : Survivable m (failedRanks world failed) :=
  Survivable.of_not_loses h.inverse h.nC_nonneg h.nR_nonneg h.failedRanks_range
    ((failedRanks_ascend h.nodup).imp fun hlt => by omega) hcopy

theorem mem_freedReps_iff {r q : Int} (hr : 0 ≤ r) (hlt : r < m.nR)
    (hq : CArray.read cfg.replicas r = some (q, m.rtc r)) :
    r ∈ m.freedReps (failedRanks world failed) ↔ ¬ (q ∉ failed ∧ cfg.compute (m.rtc r) ∉ failed) := by
  have hs := h.survivable hcopy
  obtain ⟨p, hp, hread⟩ := h.replica r hr hlt
  rw [hq, some_inj, Prod.mk.injEq] at hread
  rw [← hread.1] at hp
  obtain ⟨hc0, hclt⟩ := h.inverse.rtc_bounds hr hlt
  have hself : m.nC + r ∈ failedRanks world failed ↔ q ∈ failed := by
    simp [mem_failedRanks h.nodup, hp]
  rw [mem_freedReps, ← hself, ← h.mem_failedRanks_compute hc0 hclt, ProcMaps.freed, List.mem_map]
  constructor
  · rintro ⟨f, hf, hvac⟩ ⟨hnself, hncmp⟩
    by_cases hfc : f < m.nC
    · rw [vacated_of_lt hfc] at hvac
      have hback := h.inverse.rtc_ctr (h.failedRanks_range f hf).1 hfc (hs.replicated f hf hfc)
      rw [show m.ctr f = r by omega] at hback
      exact hncmp (hback ▸ hf)
    · rw [vacated_of_ge (by omega)] at hvac
      exact hnself (hvac ▸ hf)
  · intro hnot
    by_cases hself' : m.nC + r ∈ failedRanks world failed
    · exact ⟨_, hself', vacated_of_ge (by omega)⟩
    · refine ⟨m.rtc r, by tauto, ?_⟩
      rw [vacated_of_lt hclt, h.inverse.ctr_rtc hr hlt]

end

section Renumbering

variable {m' : ProcMaps} {ranks : CArray Int}

variable (h : Represents cfg m world) (hcopy : ¬ LosesEveryCopy m (failedRanks world failed))

include h hcopy

private theorem exists_ranks
    (hr : Renumbered m (failedRanks world failed) m' ranks) {k : Int} (hk : 0 ≤ k)
    (hlt : k < m'.nR + m'.nC) : ∃ i p, ranks.read k = some i ∧ world.read i = some p := by
  have hs := h.survivable hcopy
  obtain ⟨i, hi, hilt, hkeep, rfl⟩ := hr.exists_position hs hk (by omega)
  have hread := hr.ranks i hi hilt hkeep
  obtain ⟨h0, h1, _⟩ := (hr.ranks_survivors hs
    (fun c hc hcl hmem => hcopy ⟨c, hc, hcl, .inr hmem⟩) _).mp ⟨_, hk, by omega, hread⟩
  obtain ⟨p, hp⟩ := exists_read h0 (by rw [h.length]; exact h1)
  exact ⟨_, p, hread, hp⟩

private theorem fail_compute_read {c : Int} (hc : 0 ≤ c) (hlt : c < m.nC) :
    world.read (if c ∈ failedRanks world failed then m.nC + m.ctr c else c) = some ((cfg.fail failed).compute c) := by
  by_cases hmem : c ∈ failedRanks world failed
  · have hcfg := (h.mem_failedRanks_compute hc hlt).mp hmem
    have hrep := (h.survivable hcopy).replicated c hmem hlt
    obtain ⟨hr0, hrlt⟩ := h.inverse.ctr_bounds hc hlt hrep
    obtain ⟨q, hq, _⟩ := h.replica (m.ctr c) hr0 hrlt
    have hqc := h.mem_replicas_iff.mpr ⟨m.ctr c, hr0, hrlt, h.inverse.rtc_ctr hc hlt hrep, hq⟩
    rw [if_pos hmem, hq, Config.fail_compute_of_replica h.functional hcfg hqc]
  · have hcfg := mt (h.mem_failedRanks_compute hc hlt).mpr hmem
    rw [if_neg hmem, h.compute c hc hlt, Config.fail_compute_of_not_mem hcfg]

private theorem kept_iff (r : Int) (x : Int × Int)
    (hx : CArray.read cfg.replicas r = some x) :
    decide (x.1 ∉ failed ∧ cfg.compute x.2 ∉ failed) = true ↔ r ∉ m.freedReps (failedRanks world failed) := by
  obtain ⟨h0, hlt⟩ := read_eq_some_bounds hx
  rw [h.replicas_length] at hlt
  obtain ⟨q, _, hq⟩ := h.replica r h0 hlt
  rw [h.mem_freedReps_iff hcopy h0 hlt hq, not_not, decide_eq_true_eq]
  rw [hx, some_inj] at hq
  rw [hq]

theorem renumbered
    (hr : Renumbered m (failedRanks world failed) m' ranks) :
    ∃ alive, incl world (ranks.take (m'.nR + m'.nC).toNat) = some alive ∧
      Represents (cfg.fail failed) m' alive ∧ ∀ q, q ∈ alive ↔ q ∈ world ∧ q ∉ failed := by
  have hs := h.survivable hcopy
  have hC := h.nC_nonneg
  have hR := hr.nR_nonneg hs
  have hnC := hr.nC
  have hvalid : ∀ k, 0 ≤ k → k < m'.nR + m'.nC → _ := fun k => h.exists_ranks hcopy hr
  have hlen : m'.nR + m'.nC ≤ ranks.length := by
    by_cases hzero : m'.nR + m'.nC ≤ 0
    · omega
    · obtain ⟨i, _, hi, _⟩ := hvalid (m'.nR + m'.nC - 1) (by omega) (by omega)
      have := (read_eq_some_bounds hi).2
      omega
  obtain ⟨alive, halive, hlength, hread⟩ := incl_spec hlen hvalid
    (fun j k hj hjlt hk hklt => hr.ranks_distinct hs hj (by omega) hk (by omega))
  have hrnodup := freedReps_nodup hs.nodup
  have hrnonneg := freedReps_nonneg hs
  have hkept := h.kept_iff hcopy
  refine ⟨alive, halive, ⟨hr.mutuallyInverse hs, by omega, hR, by omega, ?_, ?_, ?_, ?_⟩, ?_⟩
  · rw [nodup_iff_read]
    intro j k v hj hk
    obtain ⟨hj0, hjlt⟩ := read_eq_some_bounds hj
    obtain ⟨hk0, hklt⟩ := read_eq_some_bounds hk
    obtain ⟨i, p, hi, hp⟩ := hvalid j hj0 (by omega)
    obtain ⟨i', p', hi', hp'⟩ := hvalid k hk0 (by omega)
    rw [hread j hj0 (by omega), hi, bind_some, hp] at hj
    rw [hread k hk0 (by omega), hi', bind_some, hp'] at hk
    have hii : i = i' := nodup_iff_read.mp h.nodup i i' v (hp.trans hj) (hp'.trans hk)
    exact hr.ranks_distinct hs hj0 (by omega) hk0 (by omega) (by rw [hi, hi', hii])
  · intro c hc hlt
    rw [hread c hc (by omega), hr.ranks_compute hs hc (by omega), bind_some]
    exact h.fail_compute_read hcopy hc (by omega)
  · have hcount := length_filter_place hrnodup hrnonneg cfg.replicas _ hkept
    rw [h.replicas_length] at hcount
    have hend := place_freed_end hs
    rw [place_freed_add] at hend
    have hnR := hr.nR
    change ((filter _ cfg.replicas).length : Int) = _
    omega
  · intro k hk hlt
    obtain ⟨r, hr0, hrlt, hkeep, rfl⟩ := hr.exists_replica hs hk hlt
    obtain ⟨q, hq, hrep⟩ := h.replica r hr0 hrlt
    refine ⟨q, ?_, ?_⟩
    · rw [hnC, hread _ (by omega) (by omega), (hr.ranks_place hs hr0 hrlt hkeep).1, bind_some, hq]
    · have hfilter := read_filter_place hrnodup hrnonneg cfg.replicas _ hkept hrep hkeep
      rw [ProcMaps.rtc, hr.rtc r hr0 hrlt hkeep, getD_some]
      exact hfilter
  · intro q
    have hsurv := hr.ranks_survivors hs fun c hc hcl hmem => hcopy ⟨c, hc, hcl, .inr hmem⟩
    rw [mem_iff_read]
    constructor
    · rintro ⟨k, hk⟩
      obtain ⟨hk0, hklt⟩ := read_eq_some_bounds hk
      obtain ⟨i, p, hi, hp⟩ := hvalid k hk0 (by omega)
      rw [hread k hk0 (by omega), hi, bind_some] at hk
      have hnot := ((hsurv i).mp ⟨k, hk0, by omega, hi⟩).2.2
      exact ⟨mem_iff_read.mpr ⟨i, hk⟩, fun hq => hnot ((mem_failedRanks h.nodup).mpr ⟨q, hk, hq⟩)⟩
    · rintro ⟨hqw, hqf⟩
      obtain ⟨i, hi⟩ := mem_iff_read.mp hqw
      obtain ⟨hi0, hilt⟩ := read_eq_some_bounds hi
      have hnot : i ∉ failedRanks world failed := by
        intro hmem
        obtain ⟨p, hp, hpf⟩ := (mem_failedRanks h.nodup).mp hmem
        rw [hi, some_inj] at hp
        exact hqf (hp ▸ hpf)
      obtain ⟨k, hk0, hklt, hk⟩ := (hsurv i).mpr ⟨hi0, by rw [← h.length]; exact hilt, hnot⟩
      exact ⟨k, by rw [hread k hk0 (by omega), hk, bind_some, hi]⟩

end Renumbering

theorem congr {cfg' : Config} (h : Represents cfg m world)
    (hcmp : ∀ c, 0 ≤ c → c < m.nC → cfg.compute c = cfg'.compute c)
    (hrep : cfg.replicas = cfg'.replicas) : Represents cfg' m world := by
  refine { h with compute := ?_, replicas_length := ?_, replica := ?_ }
  · intro c hc hlt
    rw [← hcmp c hc hlt]
    exact h.compute c hc hlt
  · rw [← hrep]
    exact h.replicas_length
  · rw [← hrep]
    exact h.replica

theorem append {gone : List Int} (hf : cfg.Functional) (hcopy : ¬ cfg.Loses m.nC (gone ++ failed))
    (h : Represents ((cfg.fail gone).fail failed) m world) :
    Represents (cfg.fail (gone ++ failed)) m world :=
  h.congr (fun _ => Config.fail_compute_append hf hcopy) Config.fail_replicas_append

end Represents

/-- The same numbers of processes and the same map entries for them. -/
structure SameMaps (m m' : ProcMaps) : Prop where
  nC : m.nC = m'.nC
  nR : m.nR = m'.nR
  cmp : ∀ c, 0 ≤ c → c < m.nC → m.cmpToRepMap.read c = m'.cmpToRepMap.read c
  rep : ∀ r, 0 ≤ r → r < m.nR → m.repToCmpMap.read r = m'.repToCmpMap.read r

theorem SameMaps.refl (m : ProcMaps) : SameMaps m m := ⟨rfl, rfl, fun _ _ _ => rfl, fun _ _ _ => rfl⟩

namespace Represents

variable {cfg : Config} {m m' : ProcMaps} {world world' : CArray Int}

theorem sameMaps (h : Represents cfg m world) (h' : Represents cfg m' world') (hnC : m.nC = m'.nC) : SameMaps m m' := by
  have hnR : m.nR = m'.nR := by rw [← h.replicas_length, h'.replicas_length]
  have hrtc : ∀ r, 0 ≤ r → r < m.nR → m.rtc r = m'.rtc r := by
    intro r hr hlt
    obtain ⟨q, _, hq⟩ := h.replica r hr hlt
    obtain ⟨q', _, hq'⟩ := h'.replica r hr (by omega)
    rw [hq, some_inj, Prod.mk.injEq] at hq'
    exact hq'.2
  have hle : ∀ c, 0 ≤ c → c < m.nC → m.ctr c ≠ -1 → m'.ctr c = m.ctr c := by
    intro c hc hlt hne
    obtain ⟨hr0, hrlt⟩ := h.inverse.ctr_bounds hc hlt hne
    rw [h'.inverse.ctr_eq_iff hc (by omega) hr0 (by omega), ← hrtc _ hr0 hrlt, h.inverse.rtc_ctr hc hlt hne]
  have hctr : ∀ c, 0 ≤ c → c < m.nC → m.ctr c = m'.ctr c := by
    intro c hc hlt
    by_cases hne : m.ctr c = -1
    · by_cases hne' : m'.ctr c = -1
      · rw [hne, hne']
      · obtain ⟨hr0, hrlt⟩ := h'.inverse.ctr_bounds hc (by omega) hne'
        rw [h.inverse.ctr_eq_iff hc hlt hr0 (by omega), hrtc _ hr0 (by omega), h'.inverse.rtc_ctr hc (by omega) hne']
    · exact (hle c hc hlt hne).symm
  refine ⟨hnC, hnR, ?_, ?_⟩
  · intro c hc hlt
    rw [h.inverse.ctr_holds c hc hlt, h'.inverse.ctr_holds c hc (by omega), hctr c hc hlt]
  · intro r hr hlt
    rw [h.inverse.rtc_holds r hr hlt, h'.inverse.rtc_holds r hr (by omega), hrtc r hr hlt]

theorem sameMembers (h : Represents cfg m world) (h' : Represents cfg m' world') (hnC : m.nC = m'.nC) :
    world = world' := by
  have hnR : m.nR = m'.nR := by rw [← h.replicas_length, h'.replicas_length]
  have hlen := h.length
  have hlen' := h'.length
  apply ext_getElem?
  intro n
  by_cases hn : n < world.length
  · rw [← read_natCast, ← read_natCast]
    by_cases hc : (n : Int) < m.nC
    · rw [h.compute n (by omega) hc, h'.compute n (by omega) (by omega)]
    · obtain ⟨q, hq, hrep⟩ := h.replica (n - m.nC) (by omega) (by omega)
      obtain ⟨q', hq', hrep'⟩ := h'.replica (n - m.nC) (by omega) (by omega)
      rw [hrep, some_inj, Prod.mk.injEq] at hrep'
      rw [show m.nC + (n - m.nC) = (n : Int) by omega] at hq
      rw [show m'.nC + (n - m.nC) = (n : Int) by omega] at hq'
      rw [hq, hq', hrep'.1]
  · rw [getElem?_eq_none (by omega), getElem?_eq_none (by omega)]

end Represents

def Config.of (m : ProcMaps) (world : CArray Int) : Config where
  compute c := (world.read c).getD 0
  replicas := (range m.nR.toNat).map fun r : Nat => ((world.read (m.nC + r)).getD 0, m.rtc r)

theorem Config.of_represents {m : ProcMaps} {world : CArray Int} (hm : m.MutuallyInverse)
    (hC : 0 ≤ m.nC) (hR : 0 ≤ m.nR) (hlen : (world.length : Int) = m.nC + m.nR) (hw : world.Nodup) :
    Represents (Config.of m world) m world where
  inverse := hm
  nC_nonneg := hC
  nR_nonneg := hR
  length := hlen
  nodup := hw
  compute := by
    intro c hc hlt
    obtain ⟨q, hq⟩ := exists_read hc (show c < (world.length : Int) by omega)
    simp only [Config.of, hq, getD_some]
  replicas_length := by
    rw [Config.of, length_map, length_range]
    omega
  replica := by
    intro r hr hlt
    obtain ⟨q, hq⟩ := exists_read (show 0 ≤ m.nC + r by omega) (show m.nC + r < (world.length : Int) by omega)
    obtain ⟨n, rfl⟩ := Int.eq_ofNat_of_zero_le hr
    refine ⟨q, hq, ?_⟩
    rw [Config.of, read_natCast, getElem?_map, getElem?_range (by omega), map_some, hq, getD_some]

end ParepMpi
