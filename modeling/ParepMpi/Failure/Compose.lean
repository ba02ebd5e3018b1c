import ParepMpi.Failure.Notice

/-!
# Notices compose

When each notice comes after the previous communicator is installed, and none takes the last copy of a logical rank, a
process ends where a single notice with all the failed ranks would have taken it.
-/

namespace ParepMpi

open List Option ProcGroup Survivor

variable {n : Nat}

theorem read_originalGroup {f : Int} (h0 : 0 ≤ f) (hlt : f < n) : CArray.read (originalGroup n) f = some f := by
  obtain ⟨k, rfl⟩ := Int.eq_ofNat_of_zero_le h0
  rw [originalGroup, CArray.read_natCast, getElem?_map, getElem?_range (by omega)]
  rfl

theorem mem_originalGroup {q : Int} : q ∈ originalGroup n ↔ 0 ≤ q ∧ q < n := by
  rw [originalGroup, List.mem_map]
  constructor
  · rintro ⟨k, hk, rfl⟩
    rw [mem_range] at hk
    omega
  · rintro ⟨h0, hlt⟩
    exact ⟨q.toNat, mem_range.mpr (by omega), by omega⟩

theorem originalGroup_nodup (n : Nat) : (originalGroup n).Nodup := nodup_range.map fun i j h => by simpa using h

theorem incl_originalGroup {ranks : List Int} (hnodup : ranks.Nodup)
    (hrange : ∀ f ∈ ranks, 0 ≤ f ∧ f < n) : incl (originalGroup n) ranks = some ranks := by
  rw [incl, if_pos hnodup]
  clear hnodup
  induction ranks with
  | nil => rfl
  | cons f ranks ih =>
    obtain ⟨h0, hlt⟩ := hrange f mem_cons_self
    rw [mapM_cons, read_originalGroup h0 hlt, ih fun g hg => hrange g (mem_cons_of_mem f hg)]
    rfl

namespace Survivor

theorem numberRanks_spec {n : Nat} {a : CArray Int} (hn : n ≤ a.length) :
    ∃ b, numberRanks n a = some b ∧ b.take n = (range n).map fun k : Nat => (k : Int) := by
  have hloop : ∃ b, numberRanks n a = some b ∧ b.length = a.length ∧ b.Holds n fun i => i := by
    apply forRange_spec (P := fun k (b : CArray Int) => b.length = a.length ∧ b.Holds k fun i => i)
      (by omega) ⟨rfl, fun i hi hlt => by omega⟩
    rintro i b hi hlt ⟨hlen, hholds⟩
    obtain ⟨c, hc⟩ := CArray.exists_write hi (show i < (b.length : Int) by omega) i
    refine ⟨c, hc, by rw [CArray.length_write hc, hlen], ?_⟩
    intro j hj hjlt
    by_cases heq : j = i
    · rw [heq, CArray.read_write_self hc]
    · rw [CArray.read_write_ne hc heq]
      exact hholds j hj (by omega)
  obtain ⟨b, hb, _, hholds⟩ := hloop
  exact ⟨b, hb, hholds.take_eq⟩

variable {failed : List Int} {cfg : Config} {t : Translated}

theorem translate_spec (s : Survivor) (hnodup : failed.Nodup)
    (hrange : ∀ f ∈ failed, 0 ≤ f ∧ f < s.size) (hw : s.world.Nodup)
    (hgone : ∀ q ∈ s.world, q ∉ s.failedGroup) :
    ∃ t, s.translate failed = some t ∧ t.currentFailedGroup = inter s.world failed ∧
      t.failedRanks = failedRanks s.world failed ∧
      ∀ q, q ∈ t.failedGroup ↔ q ∈ s.failedGroup ∨ q ∈ failed := by
  obtain ⟨g, hg, hmem⟩ : ∃ g, s.addFailed failed = some g ∧ ∀ q, q ∈ g ↔ q ∈ s.failedGroup ∨ q ∈ failed := by
    simp only [addFailed, incl_originalGroup hnodup hrange, bind_eq_bind, bind_some]
    by_cases hnil : s.failedGroup = []
    · exact ⟨failed, by rw [if_pos hnil], by simp [hnil]⟩
    · exact ⟨_, by rw [if_neg hnil], fun q => mem_union⟩
  have hcurrent : inter s.world g = inter s.world failed := by
    apply inter_congr
    intro q hq
    simp [hmem, hgone q hq]
  have hlen : (inter s.world failed).length ≤ failed.length := by
    have hsub : inter s.world failed ⊆ failed := fun q hq => (mem_inter.mp hq).2
    exact ((hw.filter _).subperm hsub).length_le
  obtain ⟨b, hb, htake⟩ := numberRanks_spec hlen
  refine ⟨⟨g, b, inter s.world failed, failedRanks s.world failed⟩, ?_, rfl, rfl, hmem⟩
  simp only [translate, hg, hcurrent, hb, htake, translateRanks_all, bind_eq_bind, bind_some, length_map, failedRanks]
  rw [if_pos hlen]

theorem renumber_spec (s : Survivor) (h : Represents cfg s.maps s.world) (hme : s.me ∈ s.world)
    (ht : t.failedRanks = failedRanks s.world failed)
    (hcopy : ¬ LosesEveryCopy s.maps (failedRanks s.world failed)) :
    ∃ out group, s.renumber false t = some (out, group) ∧ out.aborting = false ∧
      out.maps.nC = s.maps.nC ∧ Represents (cfg.fail failed) out.maps group ∧
      ∀ q, q ∈ group ↔ q ∈ s.world ∧ q ∉ failed := by
  obtain ⟨h0, hlt⟩ := rank_bounds hme
  rw [h.length] at hlt
  obtain ⟨out, hout, hab, hren⟩ := remap_spec (h.survivable hcopy) h0 hlt s.replicaLost
  obtain ⟨group, hgroup, hrep, hmem⟩ := h.renumbered hcopy hren
  refine ⟨out, group, ?_, hab, hren.nC, hrep, hmem⟩
  simp only [renumber, ht, hout, hab, hgroup, bind_eq_bind, bind_some, Bool.false_eq_true, if_false]

theorem renumber_abort (s : Survivor) (h : Represents cfg s.maps s.world) (hme : s.me ∈ s.world)
    (ht : t.failedRanks = failedRanks s.world failed)
    (hcur : t.currentFailedGroup = inter s.world failed)
    (hbare : ∃ c ∈ failedRanks s.world failed, c < s.maps.nC ∧ s.maps.ctr c = -1) :
    ∃ out, remap s.maps (rank s.world s.me) false s.replicaLost (failedRanks s.world failed) =
        some out ∧ out.aborting = true ∧
      s.renumber false t = some (out, diff s.world (inter s.world failed)) := by
  obtain ⟨h0, hlt⟩ := rank_bounds hme
  rw [h.length] at hlt
  obtain ⟨out, hout, hab⟩ := remap_abort h.inverse h.nC_nonneg h.nR_nonneg h0 hlt s.replicaLost
    h.failedRanks_range (failedRanks_ascend h.nodup) hbare
  refine ⟨out, hout, hab, ?_⟩
  simp only [renumber, ht, hcur, hout, hab, bind_eq_bind, bind_some, if_true]

end Survivor

/-! ### Phases of a shrink

A notice starts a shrink, which ends with the new communicator or with a process that stops; the events in between
keep the members that the communicator will have. -/

structure Survivor.Idle (s : Survivor) : Prop where
  lock : s.reqListLock = false
  comm : s.commLock = false
  thread : s.threadActive = false
  resp : s.responses = 0
  ckpt : s.ckpt = none
  aborting : s.aborting = false
  wait : s.waitingForResp = false
  stopped : s.stopped = false

/-- The communicator with members `group` is installed, or will be once the shrink that is running ends,
and the process then stops when `aborting`. -/
inductive Phase (s : Survivor) (group : List Int) (aborting : Bool) : Prop
  | installed (hidle : s.Idle) (hgroup : s.world = group) (hdecision : aborting = false)
  | stopped (hstop : s.stopped = true) (hgroup : s.world = group) (hdecision : aborting = true)
  | creating (hlock : s.reqListLock = true) (hthread : s.threadActive = true)
      (hperf : s.performingShrink = true) (hresp : s.responses = 0) (hckpt : s.ckpt = none)
      (hab : s.aborting = aborting) (hwait : s.waitingForResp = false) (hstop : s.stopped = false)
      (hgroup : s.shrinkGroup = group)
  | created (hlock : s.reqListLock = true) (hperf : s.performingShrink = false)
      (hresp : s.responses = 1) (hckpt : s.ckpt = none) (hab : s.aborting = aborting)
      (hwait : s.waitingForResp = false) (hstop : s.stopped = false) (hgroup : s.newComm = group)
  | ckpt (hlock : s.reqListLock = false) (hcomm : s.commLock = false)
      (hthread : s.threadActive = false) (hresp : s.responses = 0) (c : CkptShrink)
      (hckpt : s.ckpt = some c) (hab : s.aborting = false) (hwait : s.waitingForResp = false)
      (hstop : s.stopped = false) (hgroup : c.group = group) (hdecision : c.aborting = aborting)

/-- What an event other than a notice leaves alone; `group` may be installed. -/
structure SameFailures (s s' : Survivor) (group : List Int) : Prop where
  me : s'.me = s.me
  size : s'.size = s.size
  maps : s'.maps = s.maps
  failedGroup : s'.failedGroup = s.failedGroup
  world : s'.world = s.world ∨ s'.world = group
  ckpt : s.ckpt = none → s'.ckpt = none

namespace Phase

variable {s : Survivor} {group : List Int} {aborting : Bool} {r : Except NoticeFault Survivor}

theorem idle (h : Phase s group aborting) (hlock : s.reqListLock = false) (hckpt : s.ckpt = none)
    (hstop : s.stopped = false) : s.Idle ∧ s.world = group ∧ aborting = false := by
  cases h with
  | installed hidle hgroup hdecision => exact ⟨hidle, hgroup, hdecision⟩
  | stopped hstop' _ _ => rw [hstop] at hstop'; cases hstop'
  | creating hlock' _ _ _ _ _ _ _ _ => rw [hlock] at hlock'; cases hlock'
  | created hlock' _ _ _ _ _ _ _ => rw [hlock] at hlock'; cases hlock'
  | ckpt _ _ _ _ _ hckpt' _ _ _ _ _ => rw [hckpt] at hckpt'; cases hckpt'

theorem not_stopped (h : Phase s group false) : s.stopped = false := by
  cases h with
  | installed hidle _ _ => exact hidle.stopped
  | stopped _ _ hdecision => cases hdecision
  | creating _ _ _ _ _ _ _ hstop _ => exact hstop
  | created _ _ _ _ _ _ hstop _ => exact hstop
  | ckpt _ _ _ _ _ _ _ _ hstop _ _ => exact hstop

variable (h : Phase s group aborting)

include h

theorem commCreated (hs : step (.ok s) .commCreated = some r) :
    ∃ s', r = .ok s' ∧ Phase s' group aborting ∧ SameFailures s s' group := by
  cases h with
  | installed hidle _ _ => simp [step, hidle.stopped, hidle.thread] at hs
  | stopped hstop _ _ => simp [step, hstop] at hs
  | creating hlock hthread hperf hresp hckpt hab hwait hstop hgroup =>
    simp only [step, hstop, hthread, hperf, Bool.false_eq_true, if_false, Bool.and_self, if_true, some_inj] at hs
    exact ⟨_, hs.symm, .created hlock rfl (by simp [hresp]) hckpt hab hwait rfl hgroup,
      ⟨rfl, rfl, rfl, rfl, .inl rfl, fun hnone => hnone⟩⟩
  | created _ hperf _ _ _ _ hstop _ => simp [step, hstop, hperf] at hs
  | ckpt _ _ hthread _ _ _ _ _ hstop _ _ => simp [step, hstop, hthread] at hs

theorem shrinkerExits (hs : step (.ok s) .shrinkerExits = some r) :
    ∃ s', r = .ok s' ∧ Phase s' group aborting ∧ SameFailures s s' group := by
  cases h with
  | installed hidle _ _ => simp [step, hidle.stopped, hidle.thread] at hs
  | stopped hstop _ _ => simp [step, hstop] at hs
  | creating _ _ hperf _ _ _ _ hstop _ => simp [step, hstop, hperf] at hs
  | created hlock hperf hresp hckpt hab hwait hstop hgroup =>
    simp only [step, hstop, hperf, Bool.false_eq_true, if_false, Bool.not_false, Bool.and_true] at hs
    split at hs
    · rw [some_inj] at hs
      exact ⟨_, hs.symm, .created hlock rfl hresp hckpt hab hwait rfl hgroup,
        ⟨rfl, rfl, rfl, rfl, .inl rfl, fun hnone => hnone⟩⟩
    · cases hs
  | ckpt _ _ hthread _ _ _ _ _ hstop _ _ => simp [step, hstop, hthread] at hs

theorem shrinkPerformed (hs : step (.ok s) .shrinkPerformed = some r) :
    ∃ s', r = .ok s' ∧ Phase s' group aborting ∧ SameFailures s s' group := by
  cases h with
  | installed hidle _ _ => simp [step, hidle.stopped, hidle.resp] at hs
  | stopped hstop _ _ => simp [step, hstop] at hs
  | creating _ _ _ hresp _ _ _ hstop _ => simp [step, hstop, hresp] at hs
  | created hlock hperf hresp hckpt hab hwait hstop hgroup =>
    simp only [Survivor.step, hstop, hresp, Survivor.shrinkPerformed, hwait, hab, Bool.false_eq_true,
      if_false, Nat.lt_one_iff, if_true, some_inj] at hs
    cases haborting : aborting with
    | true =>
      simp only [haborting, if_true] at hs
      exact ⟨_, hs.symm, .stopped rfl hgroup rfl, ⟨rfl, rfl, rfl, rfl, .inr hgroup, fun hnone => hnone⟩⟩
    | false =>
      simp only [haborting, Bool.false_eq_true, if_false] at hs
      exact ⟨_, hs.symm, .installed ⟨rfl, rfl, rfl, rfl, hckpt, rfl, rfl, rfl⟩ hgroup rfl,
        ⟨rfl, rfl, rfl, rfl, .inr hgroup, fun hnone => hnone⟩⟩
  | ckpt _ _ _ hresp _ _ _ _ hstop _ _ => simp [step, hstop, hresp] at hs

theorem ckptShrunk (hs : step (.ok s) .ckptShrunk = some r) :
    ∃ s', r = .ok s' ∧ Phase s' group aborting ∧ SameFailures s s' group := by
  cases h with
  | installed hidle _ _ => simp [step, hidle.stopped, hidle.ckpt] at hs
  | stopped hstop _ _ => simp [step, hstop] at hs
  | creating _ _ _ _ hckpt _ _ hstop _ => simp [step, hstop, hckpt] at hs
  | created _ _ _ hckpt _ _ hstop _ => simp [step, hstop, hckpt] at hs
  | ckpt hlock hcomm hthread hresp c hckpt hab hwait hstop hgroup hdecision =>
    simp only [step, hstop, hckpt, Bool.false_eq_true, if_false, map_some, some_inj] at hs
    refine ⟨_, hs.symm, ?_, ⟨rfl, rfl, rfl, rfl, .inr hgroup, fun _ => rfl⟩⟩
    cases haborting : aborting with
    | true => exact .stopped (hdecision.trans haborting) hgroup rfl
    | false =>
      exact .installed ⟨hlock, hcomm, hthread, hresp, rfl, hab, hwait, hdecision.trans haborting⟩ hgroup rfl

end Phase

section Handling

variable {s : Survivor} {failed : List Int} {t : Translated} {out : Remapped} {group : List Int}

theorem procFailed_spec (h : s.Idle) (ht : s.translate failed = some t) (hr : s.renumber false t = some (out, group)) :
    ∃ s', step (.ok s) (.procFailed failed) = some (.ok s') ∧ s'.me = s.me ∧ s'.size = s.size ∧
      s'.maps = out.maps ∧ s'.failedGroup = t.failedGroup ∧ s'.world = s.world ∧ s'.ckpt = none ∧
      Phase s' group out.aborting ∧
      ∃ s'', runEvents step (.ok s') [.commCreated, .shrinkPerformed] = some (.ok s'') ∧
        s''.maps = out.maps ∧ s''.world = group ∧ s''.stopped = out.aborting := by
  obtain ⟨hlock, hcomm, hthread, hresp, hckpt, hab, hwait, hstop⟩ := h
  refine ⟨{ s.noted t out with
              aborting := out.aborting, reqListLock := true, commLock := true, threadActive := true,
              performingShrink := true, shrinkGroup := group }, ?_, rfl, rfl, rfl, rfl, rfl, hckpt,
    .creating rfl rfl rfl hresp hckpt rfl hwait hstop rfl, ?_⟩
  · simp [step, procFailed, startShrink, noted, *]
  · cases hout : out.aborting with
    | true | false => simp [runEvents, step, shrinkPerformed, noted, *]

theorem ckptProcFailed_spec (h : s.Idle) (ht : s.translate failed = some t)
    (hr : s.renumber false t = some (out, group)) :
    ∃ s', step (.ok s) (.ckptProcFailed failed) = some (.ok s') ∧ s'.me = s.me ∧
      s'.size = s.size ∧ s'.maps = out.maps ∧ s'.failedGroup = t.failedGroup ∧
      Phase s' group out.aborting := by
  obtain ⟨hlock, hcomm, hthread, hresp, hckpt, hab, hwait, hstop⟩ := h
  refine ⟨{ s.noted t out with ckpt := some ⟨t.absFailedRanks, group, out.aborting⟩ }, ?_, rfl, rfl, rfl,
    rfl, .ckpt hlock hcomm hthread hresp _ rfl hab hwait hstop rfl rfl⟩
  simp [step, ckptProcFailed, noted, *]

end Handling

/-- A set of original ranks that fails after the notices so far, this process not among them. -/
def Survivor.ValidNotice (s : Survivor) (failed : List Int) : Prop :=
  failed ≠ [] ∧ failed.Nodup ∧ (∀ f ∈ failed, 0 ≤ f ∧ f < s.size ∧ f ∉ s.failedGroup) ∧ s.me ∉ failed

/-- No shrink is running, and every logical rank keeps a copy or the notice is the first one and reports
a compute process that has no replica. -/
def Survivor.InTime (s : Survivor) (failed : List Int) : Prop :=
  s.reqListLock = false ∧ s.ckpt = none ∧ (¬ LosesEveryCopy s.maps (failedRanks s.world failed) ∨
      s.failedGroup = [] ∧ ∃ c ∈ failedRanks s.world failed, c < s.maps.nC ∧ s.maps.ctr c = -1)

instance (s : Survivor) (failed : List Int) : Decidable (s.ValidNotice failed) :=
  instDecidableAnd

instance (s : Survivor) (failed : List Int) : Decidable (s.InTime failed) :=
  instDecidableAnd

def NoticesInTime : Except NoticeFault Survivor → NoticeEvent → Prop
  | .ok s, .procFailed failed => s.ValidNotice failed ∧ s.InTime failed
  | .ok s, .ckptProcFailed failed => s.ValidNotice failed ∧ s.InTime failed
  | _, _ => True

instance : ∀ r e, Decidable (NoticesInTime r e)
  | .ok s, .procFailed failed | .ok s, .ckptProcFailed failed =>
    inferInstanceAs (Decidable (s.ValidNotice failed ∧ s.InTime failed))
  | .ok _, .commCreated | .ok _, .shrinkerExits | .ok _, .shrinkPerformed | .ok _, .ckptShrunk | .error _, _ =>
    instDecidableTrue

def Survivor.Installed (s : Survivor) : Prop :=
  s.stopped = true ∨ s.reqListLock = false ∧ s.ckpt = none

/-- The same decision to abort, the same maps and the same members in the same order. -/
structure SameOutcome (s s' : Survivor) : Prop where
  stopped : s.stopped = s'.stopped
  maps : SameMaps s.maps s'.maps
  world : s.world = s'.world

section Runs

variable (m : ProcMaps) (me : Int)

def initialConfig : Config := Config.of m (originalGroup (m.nC + m.nR).toNat)

/-- The failure of `gone`: how the maps and the group of the new communicator come out, and whether the
process is to stop. -/
inductive Outcome (gone : List Int) (maps : ProcMaps) (group : List Int) : Bool → Prop
  | survives (hcopy : ¬ (initialConfig m).Loses m.nC gone) (hnC : maps.nC = m.nC)
      (hrep : Represents ((initialConfig m).fail gone) maps group)
      (hmem : ∀ q, q ∈ group ↔ q ∈ originalGroup (m.nC + m.nR).toNat ∧ q ∉ gone) :
      Outcome gone maps group false
  | aborts (out : Remapped)
      (hbare : ∃ c ∈ failedRanks (originalGroup (m.nC + m.nR).toNat) gone, c < m.nC ∧ m.ctr c = -1)
      (hout : remap m (rank (originalGroup (m.nC + m.nR).toNat) me) false false
        (failedRanks (originalGroup (m.nC + m.nR).toNat) gone) = some out)
      (hmaps : maps = out.maps)
      (hgroup : group = diff (originalGroup (m.nC + m.nR).toNat) (inter (originalGroup (m.nC + m.nR).toNat) gone)) :
      Outcome gone maps group true

structure Composed (gone : List Int) (s : Survivor) : Prop where
  me_eq : s.me = me
  size_eq : s.size = (m.nC + m.nR).toNat
  failedGroup : ∀ q, q ∈ s.failedGroup ↔ q ∈ gone
  nodup : gone.Nodup
  range : ∀ f ∈ gone, 0 ≤ f ∧ f < (m.nC + m.nR).toNat
  me_not_mem : me ∉ gone
  outcome : ∃ group aborting, Phase s group aborting ∧ Outcome m me gone s.maps group aborting
  first : gone = [] → s = .start m me

variable {m me}
variable (hC : 0 ≤ m.nC) (hR : 0 ≤ m.nR) (hm : m.MutuallyInverse)
  (hme : 0 ≤ me ∧ me < m.nC + m.nR)

include hC hR hm in
theorem initialConfig_represents : Represents (initialConfig m) m (originalGroup (m.nC + m.nR).toNat) := by
  apply Config.of_represents hm hC hR
  · rw [originalGroup, length_map, length_range]
    omega
  · exact originalGroup_nodup _

include hC hR hm in
theorem start_outcome (gone : List Int) (hnil : gone = []) :
    Outcome m me gone m (originalGroup (m.nC + m.nR).toNat) false := by
  subst hnil
  refine .survives ?_ rfl ?_ (by simp)
  · rintro ⟨c, _, _, hc, _⟩
    cases hc
  · apply (initialConfig_represents hC hR hm).congr
    · intro c _ _
      exact (Config.fail_compute_of_not_mem (by simp)).symm
    · simp [Config.fail]

variable {s : Survivor} {group gone : List Int} {e : NoticeEvent} {r : Except NoticeFault Survivor}

include hC hR hm hme in
theorem Composed.notice {gone failed : List Int} (h : Composed m me gone s)
    (hidle : s.Idle) (hvalid : s.ValidNotice failed) (htime : s.InTime failed) :
    ∃ t out group, s.translate failed = some t ∧ s.renumber false t = some (out, group) ∧
      (∀ q, q ∈ t.failedGroup ↔ q ∈ gone ++ failed) ∧
      Outcome m me (gone ++ failed) out.maps group out.aborting := by
  obtain ⟨_, hnodup, hrange, hmef⟩ := hvalid
  obtain ⟨group, aborting, hphase, hout⟩ := h.outcome
  obtain ⟨_, rfl, rfl⟩ := hphase.idle hidle.lock hidle.ckpt hidle.stopped
  cases hout with
  | survives hcopy hnC hrep hmem =>
    have hmeworld : s.me ∈ s.world := by
      rw [hmem, h.me_eq, mem_originalGroup]
      exact ⟨by omega, h.me_not_mem⟩
    obtain ⟨t, ht, hcur, hranks, hgroup⟩ := s.translate_spec hnodup
      (fun f hf => ⟨(hrange f hf).1, (hrange f hf).2.1⟩) hrep.nodup
      (fun q hq hqf => ((hmem q).mp hq).2 ((h.failedGroup q).mp hqf))
    have hfailed : ∀ q, q ∈ t.failedGroup ↔ q ∈ gone ++ failed := by
      intro q
      rw [hgroup, h.failedGroup, mem_append]
    obtain ⟨-, -, hkeep | ⟨hfirst, hbare⟩⟩ := htime
    · have hlose := mt hrep.losesEveryCopy_iff.mpr hkeep
      rw [hnC] at hlose
      have hboth := Config.not_loses_append (initialConfig_represents hC hR hm).functional hcopy hlose
      obtain ⟨out, group', hren, hab, hnC', hrep', hmem'⟩ := s.renumber_spec hrep hmeworld hranks hkeep
      refine ⟨t, out, group', ht, hren, hfailed, ?_⟩
      rw [hab]
      refine .survives hboth (hnC'.trans hnC) ?_ ?_
      · apply Represents.append (initialConfig_represents hC hR hm).functional _ hrep'
        rwa [hnC', hnC]
      · intro q
        rw [hmem', hmem, mem_append]
        tauto
    · -- The first notice: the process is in its initial state.
      have hnil : gone = [] := by
        rw [eq_nil_iff_forall_not_mem]
        intro q hq
        rw [← h.failedGroup, hfirst] at hq
        cases hq
      have hstart := h.first hnil
      obtain ⟨out, hremap, hab, hren⟩ := s.renumber_abort hrep hmeworld hranks hcur hbare
      refine ⟨t, out, _, ht, hren, hfailed, ?_⟩
      rw [hab, hnil, nil_append]
      subst hstart
      exact .aborts out hbare hremap rfl rfl

include hC hR hm in
theorem start_composed : Composed m me [] (.start m me) where
  me_eq := rfl
  size_eq := rfl
  failedGroup := fun q => Iff.rfl
  nodup := nodup_nil
  range := by simp
  me_not_mem := by simp
  outcome := ⟨_, false, .installed ⟨rfl, rfl, rfl, rfl, rfl, rfl, rfl, rfl⟩ rfl rfl, start_outcome hC hR hm [] rfl⟩
  first := fun _ => rfl

theorem Composed.extend {gone failed : List Int} {s s' : Survivor} {t : Translated} {out : Remapped}
    (h : Composed m me gone s) (hvalid : s.ValidNotice failed)
    (hfailed : ∀ q, q ∈ t.failedGroup ↔ q ∈ gone ++ failed)
    (hout : Outcome m me (gone ++ failed) out.maps group out.aborting) (hme' : s'.me = s.me)
    (hsize : s'.size = s.size) (hmaps : s'.maps = out.maps) (hgroup : s'.failedGroup = t.failedGroup)
    (hphase : Phase s' group out.aborting) : Composed m me (gone ++ failed) s' := by
  obtain ⟨hne, hnodup, hrange, hmef⟩ := hvalid
  have hsz := h.size_eq
  refine ⟨hme'.trans h.me_eq, hsize.trans hsz, fun q => by rw [hgroup, hfailed], ?_, ?_, ?_,
    ⟨group, _, hphase, hmaps ▸ hout⟩, ?_⟩
  · rw [nodup_append']
    refine ⟨h.nodup, hnodup, ?_⟩
    intro q hq hqf
    exact (hrange q hqf).2.2 ((h.failedGroup q).mpr hq)
  · intro f hf
    rcases mem_append.mp hf with hgone | hnew
    · exact h.range f hgone
    · have := hrange f hnew
      omega
  · rw [mem_append, not_or]
    exact ⟨h.me_not_mem, h.me_eq ▸ hmef⟩
  · intro hnil
    exact absurd (append_eq_nil_iff.mp hnil).2 hne

theorem Composed.idle (h : Composed m me gone s)
    (hlock : s.reqListLock = false) (hckpt : s.ckpt = none) (hstop : s.stopped = false) : s.Idle := by
  obtain ⟨group, aborting, hphase, _⟩ := h.outcome
  exact (hphase.idle hlock hckpt hstop).1

theorem step_not_stopped (hs : step (.ok s) e = some r) : s.stopped = false := by
  cases hstop : s.stopped with
  | false => rfl
  | true => simp [step, hstop] at hs

theorem Composed.shrinks (h : Composed m me gone s) (hphase : ∀ group aborting, Phase s group aborting →
      ∃ s', r = .ok s' ∧ Phase s' group aborting ∧ SameFailures s s' group)
    (hs : step (.ok s) e = some r)
    (hstart : step (.ok (.start m me)) e = none) :
    ∃ s', r = .ok s' ∧ Composed m me gone s' := by
  obtain ⟨group, aborting, hp, hout⟩ := h.outcome
  obtain ⟨s', hr, hp', hsame⟩ := hphase group aborting hp
  refine ⟨s', hr, hsame.me.trans h.me_eq, hsame.size.trans h.size_eq,
    fun q => by rw [hsame.failedGroup, h.failedGroup], h.nodup, h.range, h.me_not_mem,
    ⟨group, aborting, hp', hsame.maps ▸ hout⟩, ?_⟩
  intro hnil
  rw [h.first hnil, hstart] at hs
  cases hs

include hC hR hm hme in
theorem composed_step (past : List NoticeEvent) (r : Except NoticeFault Survivor) (e : NoticeEvent)
    (r' : Except NoticeFault Survivor) (h : ∃ s, r = .ok s ∧ Composed m me (noticed past) s)
    (hguard : NoticesInTime r e) (hs : step r e = some r') :
    ∃ s', r' = .ok s' ∧ Composed m me (noticed (past ++ [e])) s' := by
  obtain ⟨s, rfl, hc⟩ := h
  have hnoticed : noticed (past ++ [e]) = noticed past ++ noticed [e] := flatMap_append
  rw [hnoticed]
  cases e with
  | procFailed failed =>
    obtain ⟨hvalid, htime⟩ := hguard
    have hidle := hc.idle htime.1 htime.2.1 (step_not_stopped hs)
    obtain ⟨t, out, group, ht, hren, hfailed, hout⟩ := hc.notice hC hR hm hme hidle hvalid htime
    obtain ⟨s', hs', hme', hsize, hmaps, hgroup, _, _, hphase, _⟩ := procFailed_spec hidle ht hren
    rw [hs', some_inj] at hs
    rw [show noticed [NoticeEvent.procFailed failed] = failed from append_nil failed]
    exact ⟨s', hs.symm, hc.extend hvalid hfailed hout hme' hsize hmaps hgroup hphase⟩
  | ckptProcFailed failed =>
    obtain ⟨hvalid, htime⟩ := hguard
    have hidle := hc.idle htime.1 htime.2.1 (step_not_stopped hs)
    obtain ⟨t, out, group, ht, hren, hfailed, hout⟩ := hc.notice hC hR hm hme hidle hvalid htime
    obtain ⟨s', hs', hme', hsize, hmaps, hgroup, hphase⟩ := ckptProcFailed_spec hidle ht hren
    rw [hs', some_inj] at hs
    rw [show noticed [NoticeEvent.ckptProcFailed failed] = failed from append_nil failed]
    exact ⟨s', hs.symm, hc.extend hvalid hfailed hout hme' hsize hmaps hgroup hphase⟩
  | commCreated =>
    rw [show noticed [NoticeEvent.commCreated] = [] from rfl, append_nil]
    exact hc.shrinks (fun _ _ hp => hp.commCreated hs) hs rfl
  | shrinkerExits =>
    rw [show noticed [NoticeEvent.shrinkerExits] = [] from rfl, append_nil]
    exact hc.shrinks (fun _ _ hp => hp.shrinkerExits hs) hs rfl
  | shrinkPerformed =>
    rw [show noticed [NoticeEvent.shrinkPerformed] = [] from rfl, append_nil]
    exact hc.shrinks (fun _ _ hp => hp.shrinkPerformed hs) hs rfl
  | ckptShrunk =>
    rw [show noticed [NoticeEvent.ckptShrunk] = [] from rfl, append_nil]
    exact hc.shrinks (fun _ _ hp => hp.ckptShrunk hs) hs rfl

def singleNotice (failed : List Int) : List NoticeEvent :=
  [.procFailed failed, .commCreated, .shrinkPerformed]

include hC hR hm hme in
theorem singleNotice_outcome {maps : ProcMaps} {aborting : Bool}
    (hnodup : gone.Nodup) (hrange : ∀ f ∈ gone, 0 ≤ f ∧ f < (m.nC + m.nR).toNat)
    (h : Outcome m me gone maps group aborting) :
    ∃ once, runEvents step (.ok (.start m me)) (singleNotice gone) = some (.ok once) ∧
      once.stopped = aborting ∧ SameMaps maps once.maps ∧ group = once.world := by
  have hrep := initialConfig_represents hC hR hm
  have hidle : (start m me).Idle := ⟨rfl, rfl, rfl, rfl, rfl, rfl, rfl, rfl⟩
  have hmeworld : me ∈ originalGroup (m.nC + m.nR).toNat := mem_originalGroup.mpr (by omega)
  obtain ⟨t, ht, hcur, hranks, _⟩ := (start m me).translate_spec hnodup hrange hrep.nodup (fun q _ => not_mem_nil)
  cases h with
  | survives hcopy hnC hrep' hmem =>
    obtain ⟨out, group', hren, hab, hnC', hrep'', _⟩ := (start m me).renumber_spec hrep hmeworld
      hranks (mt hrep.losesEveryCopy_iff.mp hcopy)
    obtain ⟨s', hs', _, _, _, _, _, _, _, once, honce, hmaps, hworld, hstop⟩ := procFailed_spec hidle ht hren
    have hsame : maps.nC = out.maps.nC := hnC.trans hnC'.symm
    refine ⟨once, runEvents_cons.mpr ⟨_, hs', honce⟩, hstop.trans hab, ?_, ?_⟩
    · rw [hmaps]
      exact hrep'.sameMaps hrep'' hsame
    · rw [hworld]
      exact hrep'.sameMembers hrep'' hsame
  | aborts out hbare hout hmaps' hgroup' =>
    obtain ⟨out', hout', hab, hren⟩ := (start m me).renumber_abort hrep hmeworld hranks hcur hbare
    obtain ⟨s', hs', _, _, _, _, _, _, _, once, honce, hmaps, hworld, hstop⟩ := procFailed_spec hidle ht hren
    have heq : out = out' := some.inj (hout.symm.trans hout')
    refine ⟨once, runEvents_cons.mpr ⟨_, hs', honce⟩, hstop.trans hab, ?_, ?_⟩
    · rw [hmaps, hmaps', heq]
      exact SameMaps.refl _
    · rw [hworld, hgroup']
      rfl

end Runs

/-- Nothing has gone wrong in the run, and once the last communicator is installed the process is where
a single notice with all the failed ranks takes it. -/
def ComposesAt (m : ProcMaps) (me : Int) (events : List NoticeEvent) (r : Except NoticeFault Survivor) :
    Prop :=
  ∃ s, r = .ok s ∧ (s.Installed → ∃ once, runEvents step (.ok (.start m me)) (singleNotice (noticed events)) =
      some (.ok once) ∧ SameOutcome s once)

/-- Notices in time compose. -/
theorem notices_compose {m : ProcMaps} {me : Int} (hC : 1 ≤ m.nC) (hR : 0 ≤ m.nR)
    (hm : m.MutuallyInverse) (hme : 0 ≤ me ∧ me < m.nC + m.nR) {events : List NoticeEvent}
    {r : Except NoticeFault Survivor}
    (hguard : Guarded step NoticesInTime (.ok (.start m me)) events)
    (hrun : runEvents step (.ok (.start m me)) events = some r) :
    ComposesAt m me events r := by
  have hC' : 0 ≤ m.nC := by omega
  obtain ⟨s, rfl, hc⟩ := guarded_run_invariant (P := fun past r => ∃ s, r = .ok s ∧ Composed m me (noticed past) s)
    (composed_step hC' hR hm hme) events [] ⟨_, rfl, start_composed hC' hR hm⟩ hguard hrun
  rw [nil_append] at hc
  refine ⟨s, rfl, fun hinst => ?_⟩
  obtain ⟨group, aborting, hphase, hout⟩ := hc.outcome
  obtain ⟨once, honce, hstop, hmaps, hworld⟩ := singleNotice_outcome hC' hR hm hme hc.nodup hc.range hout
  have hend : s.stopped = aborting ∧ s.world = group := by
    cases hphase with
    | installed hidle hgroup hdecision => exact ⟨hidle.stopped.trans hdecision.symm, hgroup⟩
    | stopped hst hgroup hdecision => exact ⟨hst.trans hdecision.symm, hgroup⟩
    | creating hlock _ _ _ _ _ _ hst _ => simp [Survivor.Installed, hlock, hst] at hinst
    | created hlock _ _ _ _ _ hst _ => simp [Survivor.Installed, hlock, hst] at hinst
    | ckpt _ _ _ _ _ hckpt _ _ hst _ _ => simp [Survivor.Installed, hckpt, hst] at hinst
  exact ⟨once, honce, hend.1.trans hstop.symm, hmaps, hend.2.trans hworld⟩

/-- Two logical ranks with a replica each: the compute process of the first fails and, after the shrunk
communicator is installed, the replica of the second while a checkpoint is written. -/
theorem notices_compose_in_turn : ∃ r, runEvents step (.ok (.start (.initial 2 2) 1))
        [.procFailed [0], .commCreated, .shrinkerExits, .shrinkPerformed, .ckptProcFailed [3], .ckptShrunk] = some r ∧
      ComposesAt (.initial 2 2) 1
        [.procFailed [0], .commCreated, .shrinkerExits, .shrinkPerformed, .ckptProcFailed [3], .ckptShrunk] r :=
  ⟨_, rfl, notices_compose (by decide) (by decide) (ProcMaps.initial_mutuallyInverse (by decide))
    (by decide) (by decide) rfl⟩

/-- The same two failures when the second notice comes while the first shrink is running: the failed
members of the communicator are two, and `abs_failed_ranks` has room for the one of the notice. -/
theorem second_notice_overruns : runEvents step (.ok (.start (.initial 2 2) 1))
        [.procFailed [0], .commCreated, .procFailed [3]] = some (.error .access) ∧
      ¬ ComposesAt (.initial 2 2) 1 [.procFailed [0], .commCreated, .procFailed [3]] (.error .access) := by
  refine ⟨rfl, ?_⟩
  rintro ⟨s, hs, _⟩
  cases hs

end ParepMpi
