import ParepMpi.Messages.World
import ParepMpi.Rearrange.Apply

/-!
# What a prediction brings

The handlers of `CMD_INFORM_PREDICT` and `CMD_INFORM_PREDICT_NODE` decide from the maps at hand and write into
`ctrmap` and `rtcmap`.
-/

namespace ParepMpi

open List Option ProcMaps ProcGroup Prod Rearranger

namespace Rearranger

/-- The maps that the next rearrangement brings: those of the plan, if there is one. -/
def nextMaps (s : Rearranger) : ProcMaps := (s.plan.map fun p => p.toMaps s.proc.maps).getD s.proc.maps

theorem Listed.predictNode {s : Rearranger} (h : s.Listed) {recvranks : List Int} {now : Int} (hnow : now ≠ -1)
    (hranks : ∀ q ∈ recvranks, 0 ≤ rank s.proc.world q) :
    ∃ plan : Plan, plan.Fits s.proc.maps ∧ plan.ctrmap.Holds s.proc.maps.nC s.proc.maps.ctr ∧
      plan.rtcmap.Holds s.proc.maps.nR s.proc.maps.rtc ∧
      ∀ st, (s.outlook recvranks now).planAll
          { plan := plan, usedreps := replicate s.proc.maps.nR.toNat false } (recvranks.map (rank s.proc.world)) =
          some st →
        ∃ s', s.predictNode recvranks now = some s' ∧ s'.proc = s.proc ∧
          s'.predList = some (s.outlook recvranks now).predList ∧
          s'.nextMaps = if st.swapReplicas then st.plan.toMaps s.proc.maps else s.proc.maps := by
  obtain ⟨hx, hsound, -⟩ := h.planInput hnow hranks
  obtain ⟨plan, hplan, hfits, hctr, hrtc⟩ := plan_start hsound h.length_le
  refine ⟨plan, hfits, hctr, hrtc, ?_⟩
  intro st hst
  have hst' : (s.outlook recvranks now).planAll
      { plan := plan, usedreps := replicate (s.outlook recvranks now).maps.nR.toNat false }
      (recvranks.map (rank (s.outlook recvranks now).world)) = some st := hst
  simp only [Rearranger.predictNode, hx, hplan, hst', bind_eq_bind, bind_some]
  cases st.swapReplicas with
  | true | false => exact ⟨_, rfl, rfl, rfl, rfl⟩

end Rearranger

namespace PlanInput

/-- The logical rank has a copy that is not expected to fail, when the replicas are those of `m`. -/
def HealthyCopy (x : PlanInput) (m : ProcMaps) (c : Int) : Prop :=
  x.healthy c = true ∨ m.ctr c ≠ -1 ∧ x.healthy (m.ctr c + x.maps.nC) = true

/-- The maps `m` after a prediction for the process at `currank`. -/
structure RemapsOne (x : PlanInput) (m : ProcMaps) (currank d : Int) : Prop where
  inverse : m.MutuallyInverse
  ctr_rest : ∀ e, 0 ≤ e → e < x.maps.nC → e ≠ x.maps.logical currank → e ≠ d → m.ctr e = x.maps.ctr e
  rtc_rest : ∀ r, 0 ≤ r → r < x.maps.nR → r ≠ x.maps.ctr (x.maps.logical currank) → r ≠ x.maps.ctr d →
    m.rtc r = x.maps.rtc r
  rescued : ¬ x.HealthyCopy x.maps (x.maps.logical currank) →
    (∃ k, (0 ≤ k ∧ k < x.maps.nR) ∧ x.healthy (k + x.maps.nC) = true ∧ x.healthy (x.maps.rtc k) = true ∧
      x.maps.rtc k ≠ currank) →
    d ≠ x.maps.logical currank ∧ m.ctr (x.maps.logical currank) = x.maps.ctr d ∧ x.maps.ctr d ≠ -1 ∧
      x.healthy (m.ctr (x.maps.logical currank) + x.maps.nC) = true ∧ x.healthy d = true

variable {x : PlanInput}

variable {currank : Int} {plan : Plan} {rest served curranks : List Int} {st : Planning} {m : ProcMaps}

theorem logical_bounds (h : x.Sound) (h0 : 0 ≤ currank) (hlt : currank < x.maps.nC + x.maps.nR) :
    0 ≤ x.maps.logical currank ∧ x.maps.logical currank < x.maps.nC := by
  unfold logical
  split
  · rename_i hcmp
    exact ⟨h0, hcmp⟩
  · exact h.inverse.rtc_bounds (by omega) (by omega)

theorem needs_eq_logical {currank c : Int} (h : x.needs currank = some c) : c = x.maps.logical currank := by
  unfold needs at h
  unfold logical
  split at h
  · rename_i hlt
    rw [if_pos hlt]
    split at h
    · cases h
    · exact (some_inj.mp h).symm
  · rename_i hge
    rw [if_neg hge]
    split at h
    · cases h
    · exact (some_inj.mp h).symm

theorem needs_of_not_healthyCopy (h : ¬ x.HealthyCopy x.maps (x.maps.logical currank)) :
    x.needs currank = some (x.maps.logical currank) := by
  unfold HealthyCopy at h
  rw [not_or] at h
  unfold needs
  by_cases hlt : currank < x.maps.nC
  · rw [logical, if_pos hlt] at h ⊢
    rw [if_pos hlt, if_neg h.2]
  · rw [logical, if_neg hlt] at h ⊢
    rw [if_neg hlt, if_neg h.1]

theorem remapsOne_same (h : x.Sound)
    (hnone : x.needs currank = none ∨ x.spares = []) : x.RemapsOne x.maps currank (x.maps.logical currank) where
  inverse := h.inverse
  ctr_rest _ _ _ _ _ := rfl
  rtc_rest _ _ _ _ _ := rfl
  rescued hsick hk := by
    obtain ⟨k, hk, hrep, hcmp, -⟩ := hk
    rcases hnone with hneed | hempty
    · rw [needs_of_not_healthyCopy hsick] at hneed
      cases hneed
    · have hmem : k ∈ x.spares := mem_spares.mpr ⟨hk, by rw [isSpare, hrep, hcmp]; rfl⟩
      rw [hempty] at hmem
      cases hmem

theorem remapsOne_given (h : x.Sound) {plan p : Plan} (hfits : p.Fits x.maps)
    (hctr : plan.ctrmap.Holds x.maps.nC x.maps.ctr) (hrtc : plan.rtcmap.Holds x.maps.nR x.maps.rtc) {currank k : Int}
    (hk : k ∈ x.spares) (hsick : x.healthy (x.maps.logical currank) = false)
    (hread : ∀ d, p.ctrmap.read d = if d = x.maps.rtc k then some (x.maps.ctr (x.maps.logical currank))
      else if d = x.maps.logical currank then some k else plan.ctrmap.read d)
    (hread' : ∀ q, p.rtcmap.read q =
      if x.maps.ctr (x.maps.logical currank) ≠ -1 ∧ q = x.maps.ctr (x.maps.logical currank) then some (x.maps.rtc k)
      else if q = k then some (x.maps.logical currank) else plan.rtcmap.read q) :
    x.RemapsOne (p.toMaps x.maps) currank (x.maps.rtc k) := by
  obtain ⟨hbounds, hspare⟩ := mem_spares.mp hk
  rw [isSpare, Bool.and_eq_true] at hspare
  have hback := h.inverse.ctr_rtc hbounds.1 hbounds.2
  have hne : x.maps.rtc k ≠ x.maps.logical currank := by
    intro heq
    rw [heq, hsick] at hspare
    cases hspare.2
  have hnew : (p.toMaps x.maps).ctr (x.maps.logical currank) = k := by
    refine (congrArg (getD · (-1)) ((hread _).trans ?_)).trans getD_some
    rw [if_neg hne.symm, if_pos rfl]
  refine ⟨hfits.inverse, ?_, ?_, fun _ _ => ⟨hne, ?_, ?_, ?_, hspare.2⟩⟩
  · intro e he0 he1 hec hed
    refine (congrArg (getD · (-1)) ((hread e).trans ?_)).trans getD_some
    rw [if_neg hed, if_neg hec, hctr e he0 he1]
  · intro r hr0 hr1 hrc hrd
    rw [hback] at hrd
    refine (congrArg (getD · (-1)) ((hread' r).trans ?_)).trans getD_some
    rw [if_neg (fun hboth => hrc hboth.2), if_neg hrd, hrtc r hr0 hr1]
  · rw [hnew, hback]
  · omega
  · rw [hnew]
    exact hspare.1

theorem planAll_one (h : x.Sound) (hfits : plan.Fits x.maps)
    (hctr : plan.ctrmap.Holds x.maps.nC x.maps.ctr) (hrtc : plan.rtcmap.Holds x.maps.nR x.maps.rtc)
    (hpos : 0 ≤ currank ∧ currank < x.maps.nC + x.maps.nR) (hsick : x.healthy currank = false) :
    ∃ st d, x.planAll { plan := plan, usedreps := replicate x.maps.nR.toNat false } [currank] = some st ∧
      x.RemapsOne (if st.swapReplicas then st.plan.toMaps x.maps else x.maps) currank d := by
  have hused : CArray.Holds (replicate x.maps.nR.toNat false) x.maps.nR
      fun k => decide (k ∈ x.spares.take ([] : List Int).length) := used_start x
  have hone : ∀ st, x.planAll st [currank] = x.planFor st currank := by
    intro st
    simp [planAll]
  rw [hone, planFor_eq h hused hpos hsick, serve]
  cases hneed : x.needs currank with
  | none => exact ⟨_, _, rfl, remapsOne_same h (.inl hneed)⟩
  | some c =>
    obtain rfl := needs_eq_logical hneed
    obtain ⟨hc, hcsick, -⟩ := needs_spec h hpos hsick hneed
    cases hnext : x.spares.drop ([] : List Int).length with
    | nil => exact ⟨_, _, rfl, remapsOne_same h (.inr hnext)⟩
    | cons k rest =>
      have hmem : k ∈ x.spares := mem_of_mem_drop (hnext ▸ mem_cons_self)
      obtain ⟨hk, hspare⟩ := mem_spares.mp hmem
      rw [isSpare, Bool.and_eq_true] at hspare
      have hne : x.maps.logical currank ≠ x.maps.rtc k := by
        intro heq
        rw [heq, hspare.2] at hcsick
        cases hcsick
      have hr : (plan.toMaps x.maps).ctr (x.maps.logical currank) = x.maps.ctr (x.maps.logical currank) :=
        (congrArg (getD · (-1)) (hctr _ hc.1 hc.2)).trans getD_some
      have ho : (plan.toMaps x.maps).rtc k = x.maps.rtc k := (congrArg (getD · (-1)) (hrtc _ hk.1 hk.2)).trans getD_some
      obtain ⟨p, hp, hfits', hread, hread'⟩ := hfits.exchange hc hk hne hr ho
      obtain ⟨used, hwrite, -⟩ := used_next hused hnext (x.maps.logical currank)
      refine ⟨⟨p, used, true⟩, x.maps.rtc k, ?_, remapsOne_given h hfits' hctr hrtc hmem hcsick hread hread'⟩
      simp only [Planning.give, hwrite, hp, bind_eq_bind, bind_some]
      rw [if_pos ⟨hk.1, (h.inverse.rtc_bounds hk.1 hk.2).1⟩]

/-- The maps `m` after a prediction for the processes at `curranks`. -/
structure RemapsNode (x : PlanInput) (m : ProcMaps) (curranks : List Int) : Prop where
  inverse : m.MutuallyInverse
  unique : ∀ r, 0 ≤ r → r < x.maps.nR → ∃! c, (0 ≤ c ∧ c < x.maps.nC) ∧ m.ctr c = r
  served : ∀ currank ∈ curranks, x.HealthyCopy m (x.maps.logical currank) ∨
    ¬ ∃ k, (0 ≤ k ∧ k < x.maps.nR) ∧ x.healthy (k + x.maps.nC) = true ∧ x.healthy (x.maps.rtc k) = true ∧
      m.rtc k = x.maps.rtc k

/-- Of the logical ranks that need another replica, those for whom there is a spare are different. -/
def ServedOnce (x : PlanInput) (curranks : List Int) : Prop :=
  ((curranks.filterMap x.needs).take x.spares.length).Nodup

instance (x : PlanInput) (curranks : List Int) : Decidable (x.ServedOnce curranks) :=
  inferInstanceAs (Decidable (Nodup _))

theorem servedOnce_iff (curranks : List Int) : x.ServedOnce curranks ↔ ((x.gifts curranks).map fst).Nodup := by
  rw [ServedOnce, gifts, map_fst_zip]

/-- Maps in which whoever was given a spare is noted, and which are inverse to each other, give no one two. -/
theorem nodup_of_inverse (hm : m.MutuallyInverse) (hC : m.nC = x.maps.nC) (hR : m.nR = x.maps.nR)
    {gifts : List (Int × Int)} (hsnd : (gifts.map snd).Nodup)
    (hrange : ∀ ck ∈ gifts, (0 ≤ ck.1 ∧ ck.1 < x.maps.nC) ∧ 0 ≤ ck.2 ∧ ck.2 < x.maps.nR)
    (hgiven : ∀ ck ∈ gifts, m.rtc ck.2 = ck.1) : (gifts.map fst).Nodup := by
  apply Nodup.map_on _ hsnd.of_map
  intro ck hck ck' hck' heq
  have hback : ∀ p ∈ gifts, m.ctr p.1 = p.2 := by
    intro p hp
    obtain ⟨⟨hc0, hc1⟩, hk0, hk1⟩ := hrange p hp
    exact (hm.ctr_eq_iff hc0 (by omega) hk0 (by omega)).mpr (hgiven p hp)
  refine Prod.ext heq ?_
  rw [← hback ck hck, heq, hback ck' hck']

theorem unique_replica (hm : m.MutuallyInverse) {r : Int} (h0 : 0 ≤ r) (hlt : r < m.nR) :
    ∃! c, (0 ≤ c ∧ c < m.nC) ∧ m.ctr c = r := by
  refine ⟨m.rtc r, ⟨hm.rtc_bounds h0 hlt, hm.ctr_rtc h0 hlt⟩, ?_⟩
  intro c hc
  obtain ⟨⟨hc0, hc1⟩, hctr⟩ := hc
  exact ((hm.ctr_eq_iff hc0 hc1 h0 hlt).mp hctr).symm

theorem mem_gifts (h : x.Sound)
    (hranks : ∀ currank ∈ curranks, 0 ≤ currank ∧ currank < x.maps.nC + x.maps.nR ∧ x.healthy currank = false)
    {ck : Int × Int} (hck : ck ∈ x.gifts curranks) :
    ck.2 ∈ x.spares ∧ (0 ≤ ck.1 ∧ ck.1 < x.maps.nC) ∧ x.healthy ck.1 = false ∧
      (x.maps.ctr ck.1 = -1 ∨ x.healthy (x.maps.ctr ck.1 + x.maps.nC) = false) := by
  obtain ⟨hfst, hsnd⟩ := of_mem_zip hck
  obtain ⟨currank, hcur, hneed⟩ := mem_filterMap.mp hfst
  obtain ⟨h0, hlt, hsick⟩ := hranks currank hcur
  exact ⟨hsnd, needs_spec h ⟨h0, hlt⟩ hsick hneed⟩

/-- A process that is expected to fail and whose logical rank needs nothing has a healthy copy beside it. -/
theorem healthyCopy_of_needs_none (hneed : x.needs currank = none) : x.HealthyCopy x.maps (x.maps.logical currank) := by
  by_contra hnot
  rw [needs_of_not_healthyCopy hnot] at hneed
  cases hneed

theorem spares_given {c : Int} (hc : c ∈ curranks.filterMap x.needs)
    (hnot : c ∉ (x.gifts curranks).map fst) {k : Int} (hk : k ∈ x.spares) :
    ∃ c', (c', k) ∈ x.gifts curranks := by
  have hlen : x.spares.length ≤ (curranks.filterMap x.needs).length := by
    by_contra hlt
    rw [gifts, map_fst_zip, take_of_length_le (by omega)] at hnot
    exact hnot hc
  have hsnd : (x.gifts curranks).map snd = x.spares := by
    rw [gifts, map_snd_zip, take_of_length_le hlen]
  rw [← hsnd] at hk
  obtain ⟨ck, hck, rfl⟩ := mem_map.mp hk
  exact ⟨ck.1, hck⟩

theorem served_of_given (h : x.Sound)
    (hranks : ∀ currank ∈ curranks, 0 ≤ currank ∧ currank < x.maps.nC + x.maps.nR ∧ x.healthy currank = false)
    (hm : m.MutuallyInverse) (hC : m.nC = x.maps.nC) (hR : m.nR = x.maps.nR)
    (hgiven : ∀ ck ∈ x.gifts curranks, m.rtc ck.2 = ck.1)
    (hrest : ∀ c, 0 ≤ c → c < x.maps.nC → c ∉ (x.gifts curranks).map fst → x.healthy c = false →
      m.ctr c = x.maps.ctr c) (hcur : currank ∈ curranks) :
    x.HealthyCopy m (x.maps.logical currank) ∨
      ¬ ∃ k, (0 ≤ k ∧ k < x.maps.nR) ∧ x.healthy (k + x.maps.nC) = true ∧ x.healthy (x.maps.rtc k) = true ∧
        m.rtc k = x.maps.rtc k := by
  obtain ⟨h0, hlt, hsick⟩ := hranks currank hcur
  cases hneed : x.needs currank with
  | none =>
    left
    have hcopy := healthyCopy_of_needs_none hneed
    rcases hcopy with hcmp | hrep
    · exact .inl hcmp
    · -- A logical rank with a healthy replica is given none, and its compute process is expected to fail.
      by_cases hcmp : x.healthy (x.maps.logical currank) = true
      · exact .inl hcmp
      · have hbounds := logical_bounds h h0 hlt
        have hnot : x.maps.logical currank ∉ (x.gifts curranks).map fst := by
          intro hmem
          obtain ⟨ck, hck, heq⟩ := mem_map.mp hmem
          obtain ⟨-, -, -, hold⟩ := mem_gifts h hranks hck
          rw [heq] at hold
          rw [hold.resolve_left hrep.1] at hrep
          exact absurd hrep.2 (by simp)
        right
        rw [hrest _ hbounds.1 hbounds.2 hnot (by simpa using hcmp)]
        exact hrep
  | some c =>
    obtain rfl := needs_eq_logical hneed
    by_cases hmem : x.maps.logical currank ∈ (x.gifts curranks).map fst
    · left
      obtain ⟨ck, hck, heq⟩ := mem_map.mp hmem
      obtain ⟨hspare, hc, -, -⟩ := mem_gifts h hranks hck
      obtain ⟨hk, hgood⟩ := mem_spares.mp hspare
      rw [isSpare, Bool.and_eq_true] at hgood
      have hctr : m.ctr ck.1 = ck.2 := (hm.ctr_eq_iff hc.1 (by omega) hk.1 (by omega)).mpr (hgiven ck hck)
      rw [← heq]
      right
      rw [hctr]
      exact ⟨by omega, hgood.1⟩
    · right
      intro hk
      obtain ⟨k, hk, hrep, hcmp, hsame⟩ := hk
      have hspare : k ∈ x.spares := mem_spares.mpr ⟨hk, by rw [isSpare, hrep, hcmp]; rfl⟩
      obtain ⟨c', hck⟩ := spares_given (mem_filterMap.mpr ⟨currank, hcur, hneed⟩) hmem hspare
      obtain ⟨-, -, hcsick, -⟩ := mem_gifts h hranks hck
      rw [← hsame, hgiven _ hck, hcsick] at hcmp
      cases hcmp

theorem planAll_node (h : x.Sound) (hfits : plan.Fits x.maps)
    (hctr : plan.ctrmap.Holds x.maps.nC x.maps.ctr) (hrtc : plan.rtcmap.Holds x.maps.nR x.maps.rtc)
    (curranks : List Int)
    (hranks : ∀ currank ∈ curranks, 0 ≤ currank ∧ currank < x.maps.nC + x.maps.nR ∧ x.healthy currank = false) :
    ∃ st, x.planAll { plan := plan, usedreps := replicate x.maps.nR.toNat false } curranks = some st ∧
      (x.RemapsNode (if st.swapReplicas then st.plan.toMaps x.maps else x.maps) curranks ↔ x.ServedOnce curranks) := by
  obtain ⟨st, hst, hhanded⟩ := (handed_start hfits hctr hrtc).planAll h curranks hranks
  rw [nil_append] at hhanded
  refine ⟨st, hst, ?_⟩
  generalize hm : (if st.swapReplicas then st.plan.toMaps x.maps else x.maps) = m
  have hC : m.nC = x.maps.nC := by
    rw [← hm]
    split
    all_goals rfl
  have hR : m.nR = x.maps.nR := by
    rw [← hm]
    split
    all_goals rfl
  have hgiven : ∀ ck ∈ x.gifts curranks, m.rtc ck.2 = ck.1 := by
    intro ck hck
    have hswap : st.swapReplicas = true := by
      rw [hhanded.swap]
      cases hempty : (curranks.filterMap x.needs).zip x.spares with
      | nil =>
        rw [gifts, hempty] at hck
        cases hck
      | cons => rfl
    rw [← hm, if_pos hswap]
    exact (congrArg (getD · (-1)) (hhanded.given ck hck)).trans getD_some
  rw [servedOnce_iff]
  constructor
  · intro hremap
    apply nodup_of_inverse hremap.inverse hC hR _ _ hgiven
    · rw [gifts, map_snd_zip]
      exact x.spares_nodup.sublist (take_sublist _ _)
    · intro ck hck
      obtain ⟨hspare, hc, -, -⟩ := mem_gifts h hranks hck
      exact ⟨hc, (mem_spares.mp hspare).1⟩
  · intro honce
    have hplanned := hhanded.planned honce
    have hinv : m.MutuallyInverse := by
      rw [← hm]
      split
      · exact hplanned.fits.inverse
      · exact h.inverse
    have hrest : ∀ c, 0 ≤ c → c < x.maps.nC → c ∉ (x.gifts curranks).map fst → x.healthy c = false →
        m.ctr c = x.maps.ctr c := by
      intro c hc0 hc1 hnot hsick
      rw [← hm]
      split
      · exact hplanned.ctr_rest c hc0 hc1 hnot hsick
      · rfl
    refine ⟨hinv, ?_, fun currank => served_of_given h hranks hinv hC hR hgiven hrest⟩
    intro r hr0 hr1
    rw [← hC]
    exact unique_replica hinv hr0 (by omega)

end PlanInput

theorem Rearranger.listed_start {nC nR : Nat} (hle : nR ≤ nC) (me : Int) : (start (.initial nC nR) me).Listed where
  inverse := initial_mutuallyInverse hle
  nC_nonneg := Int.natCast_nonneg nC
  nR_nonneg := Int.natCast_nonneg nR
  world_nodup := nodup_range.map fun i j h => by simpa using h
  world_range q hq := mem_originalGroup.mp hq
  world_length := by
    change (nC : Int) + nR ≤ (originalGroup ((nC : Int) + nR).toNat).length
    rw [originalGroup, length_map, length_range]
    omega
  predList l hl := by cases hl

/-- A prediction for one process that has a position in the communicator: the list gets the stamp of the process and
loses what is out of date, and whoever the list then expects to fail decides what the maps become. -/
theorem Rearranger.prediction_remaps_one {s : Rearranger} (h : s.Listed) {recvrank now : Int} (hnow : now ≠ -1)
    (hpos : 0 ≤ rank s.proc.world recvrank ∧ rank s.proc.world recvrank < s.proc.maps.nC + s.proc.maps.nR) :
    ∃ s' d, s.predict recvrank now = some s' ∧ s'.proc = s.proc ∧
      s'.predList = some (s.outlook [recvrank] now).predList ∧
      (s.outlook [recvrank] now).RemapsOne s'.nextMaps (rank s.proc.world recvrank) d := by
  have hranks : ∀ q ∈ [recvrank], 0 ≤ rank s.proc.world q := fun q hq => mem_singleton.mp hq ▸ hpos.1
  obtain ⟨-, hsound, hsick⟩ := h.planInput hnow hranks
  obtain ⟨plan, hfits, hctr, hrtc, hrun⟩ := h.predictNode hnow hranks
  obtain ⟨st, d, hst, hremap⟩ := PlanInput.planAll_one hsound hfits hctr hrtc hpos (hsick recvrank mem_cons_self)
  obtain ⟨s', hs', hproc, hlist, hnext⟩ := hrun st hst
  exact ⟨s', d, hs', hproc, hlist, hnext ▸ hremap⟩

/-- The fourth of four logical ranks has no replica, and its process is expected to fail. -/
theorem Rearranger.lone_rank_remapped : ∃ s' d, (start (.initial 4 3) 1).predict 3 100 = some s' ∧
      s'.predList = some [-1, -1, -1, 100, -1, -1, -1] ∧
      ((start (.initial 4 3) 1).outlook [3] 100).RemapsOne s'.nextMaps (rank (start (.initial 4 3) 1).proc.world 3) d := by
  obtain ⟨s', d, hs', -, hlist, hremap⟩ := @prediction_remaps_one _ (listed_start (show 3 ≤ 4 by decide) 1) 3 100
    (by decide) (by decide)
  exact ⟨s', d, hs', hlist, hremap⟩

/-- A prediction for processes that have a position in the communicator does what it is to do exactly when, among the
logical ranks that need another replica and for whom there is one, none comes twice. -/
theorem Rearranger.node_prediction_remaps_iff {s : Rearranger} (h : s.Listed) {recvranks : List Int} {now : Int}
    (hnow : now ≠ -1) (hpos : ∀ q ∈ recvranks, 0 ≤ rank s.proc.world q ∧
      rank s.proc.world q < s.proc.maps.nC + s.proc.maps.nR) :
    ∃ s', s.predictNode recvranks now = some s' ∧ s'.proc = s.proc ∧
      s'.predList = some (s.outlook recvranks now).predList ∧
      ((s.outlook recvranks now).RemapsNode s'.nextMaps (recvranks.map (rank s.proc.world)) ↔
        (s.outlook recvranks now).ServedOnce (recvranks.map (rank s.proc.world))) := by
  have hranks : ∀ q ∈ recvranks, 0 ≤ rank s.proc.world q := fun q hq => (hpos q hq).1
  obtain ⟨-, hsound, hsick⟩ := h.planInput hnow hranks
  obtain ⟨plan, hfits, hctr, hrtc, hrun⟩ := h.predictNode hnow hranks
  obtain ⟨st, hst, hremap⟩ := PlanInput.planAll_node hsound hfits hctr hrtc (recvranks.map (rank s.proc.world))
    (by
      intro currank hcur
      obtain ⟨q, hq, rfl⟩ := mem_map.mp hcur
      exact ⟨(hpos q hq).1, (hpos q hq).2, hsick q hq⟩)
  obtain ⟨s', hs', hproc, hlist, hnext⟩ := hrun st hst
  exact ⟨s', hs', hproc, hlist, hnext ▸ hremap⟩

/-- The fourth logical rank takes one of two spares. The first one, of which both processes are named, takes the other
once. -/
theorem Rearranger.node_served_once : ∃ s', (start (.initial 4 3) 1).predictNode [3, 0, 4] 100 = some s' ∧
      ((start (.initial 4 3) 1).outlook [3, 0, 4] 100).RemapsNode s'.nextMaps
        ([3, 0, 4].map (rank (start (.initial 4 3) 1).proc.world)) := by
  have hpos : ∀ q ∈ ([3, 0, 4] : List Int), 0 ≤ rank (start (.initial 4 3) 1).proc.world q ∧
      rank (start (.initial 4 3) 1).proc.world q < 4 + 3 := by decide
  obtain ⟨s', hs', -, -, hiff⟩ := node_prediction_remaps_iff
    (listed_start (show 3 ≤ 4 by decide) 1) (show (100 : Int) ≠ -1 by decide) hpos
  exact ⟨s', hs', hiff.mpr (by decide)⟩

/-- Both processes of the first logical rank are named while there are two spares. It gets one after the other; the two
logical ranks that gave them have the same replica then. -/
theorem Rearranger.node_served_twice : ∃ s', (start (.initial 4 3) 1).predictNode [0, 4] 100 = some s' ∧
      s'.nextMaps.cmpToRepMap = [2, 0, 0, -1] ∧ s'.nextMaps.repToCmpMap = [2, 0, 0] ∧
      ¬ s'.nextMaps.MutuallyInverse := by
  obtain ⟨s', hs', hmaps⟩ := map_eq_some_iff.mp (show ((start (.initial 4 3) 1).predictNode [0, 4]
    100).map nextMaps = some ⟨4, 3, [2, 0, 0, -1], [2, 0, 0]⟩ by decide)
  refine ⟨s', hs', by rw [hmaps], by rw [hmaps], ?_⟩
  rw [hmaps]
  intro hinv
  have hback := (hinv.inverse 1 0 (by decide) (by decide) (by decide) (by decide)).mp (by decide)
  exact absurd hback (by decide)

end ParepMpi
