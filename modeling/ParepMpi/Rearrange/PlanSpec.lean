import ParepMpi.Rearrange.Plan

/-!
# What a plan does

The processes of a prediction that leave a logical rank without a healthy copy take the spare replicas in order, one
each.
-/

namespace ParepMpi

open List Option Function CArray Prod

def Plan.toMaps (p : Plan) (m : ProcMaps) : ProcMaps :=
  { m with cmpToRepMap := p.ctrmap, repToCmpMap := p.rtcmap }

namespace Plan

variable {m : ProcMaps} {p : Plan} {c k o r : Int}

theorem exchange_inverse {p' : Plan} (h : (p.toMaps m).MutuallyInverse) (hc : 0 ≤ c ∧ c < m.nC)
    (hk : 0 ≤ k ∧ k < m.nR) (hne : c ≠ o) (hr : (p.toMaps m).ctr c = r) (ho : (p.toMaps m).rtc k = o)
    (hctr : p'.ctrmap.Holds m.nC (update (update (p.toMaps m).ctr c k) o r))
    (hrtc : p'.rtcmap.Holds m.nR (if r = -1 then update (p.toMaps m).rtc k c
        else update (update (p.toMaps m).rtc k c) r o)) :
    (p'.toMaps m).MutuallyInverse := by
  obtain ⟨ho0, ho1⟩ := ho ▸ h.rtc_bounds hk.1 hk.2
  have hrange : r = -1 ∨ 0 ≤ r ∧ r < m.nR := hr ▸ h.ctr_range hc.1 hc.2
  refine ProcMaps.MutuallyInverse.of_holds _ _ hctr hrtc ?_ ?_ ?_
  · intro d hd hlt
    by_cases hdo : d = o
    · rw [hdo, update_self]
      exact hrange
    · rw [update_of_ne hdo]
      by_cases hdc : d = c
      · rw [hdc, update_self]
        exact .inr hk
      · rw [update_of_ne hdc]
        exact h.ctr_range hd hlt
  · intro q hq hlt
    have hold := h.rtc_bounds hq hlt
    split
    · by_cases hqk : q = k
      · rw [hqk, update_self]
        exact hc
      · rw [update_of_ne hqk]
        exact hold
    · by_cases hqr : q = r
      · rw [hqr, update_self]
        exact ⟨ho0, ho1⟩
      · rw [update_of_ne hqr]
        by_cases hqk : q = k
        · rw [hqk, update_self]
          exact hc
        · rw [update_of_ne hqk]
          exact hold
  · intro d q hd hdlt hq hqlt
    have hinv := h.ctr_eq_iff hd hdlt hq hqlt
    have hinvo := h.ctr_eq_iff hd hdlt hk.1 hk.2
    have hinvc := h.ctr_eq_iff hc.1 hc.2 hq hqlt
    grind [update_apply]

/-- The plan holds maps that are inverse to each other, in arrays of the lengths `nC` and `nR`. -/
structure Fits (p : Plan) (m : ProcMaps) : Prop where
  inverse : (p.toMaps m).MutuallyInverse
  ctr_length : (p.ctrmap.length : Int) = m.nC
  rtc_length : (p.rtcmap.length : Int) = m.nR

theorem exchange_writes (hc : 0 ≤ c ∧ c < p.ctrmap.length) (ho : 0 ≤ o ∧ o < p.ctrmap.length)
    (hk : 0 ≤ k ∧ k < p.rtcmap.length) (hr : r = -1 ∨ 0 ≤ r ∧ r < p.rtcmap.length) :
    ∃ p', p.exchange c k o (if r = -1 then none else some r) = some p' ∧
      p'.ctrmap.length = p.ctrmap.length ∧ p'.rtcmap.length = p.rtcmap.length ∧
      (∀ d, p'.ctrmap.read d = if d = o then some r else if d = c then some k else p.ctrmap.read d) ∧
      ∀ q, p'.rtcmap.read q = if r ≠ -1 ∧ q = r then some o else if q = k then some c else p.rtcmap.read q := by
  obtain ⟨a, ha⟩ := exists_write hc.1 hc.2 k
  have hal := length_write ha
  obtain ⟨b, hb⟩ := exists_write (a := a) ho.1 (by omega) r
  obtain ⟨a', ha'⟩ := exists_write hk.1 hk.2 c
  have hal' := length_write ha'
  have hctr : ∀ d, b.read d = if d = o then some r else if d = c then some k else p.ctrmap.read d := by
    intro d
    rw [read_write hb, read_write ha]
  by_cases hnone : r = -1
  · refine ⟨⟨b, a'⟩, ?_, (length_write hb).trans hal, hal', hctr, ?_⟩
    · rw [if_pos hnone]
      rw [hnone] at hb
      simp only [Plan.exchange, ha, ha', hb, bind_eq_bind, bind_some]
    · intro q
      rw [if_neg (by simp [hnone]), read_write ha']
  · obtain ⟨hr0, hr1⟩ := hr.resolve_left hnone
    obtain ⟨b', hb'⟩ := exists_write (a := a') hr0 (by omega) o
    refine ⟨⟨b, b'⟩, ?_, (length_write hb).trans hal, (length_write hb').trans hal', hctr, ?_⟩
    · rw [if_neg hnone]
      simp only [Plan.exchange, ha, ha', hb, hb', bind_eq_bind, bind_some]
    · intro q
      rw [read_write hb', read_write ha']
      simp [hnone]

theorem Fits.exchange (h : p.Fits m) (hc : 0 ≤ c ∧ c < m.nC) (hk : 0 ≤ k ∧ k < m.nR) (hne : c ≠ o)
    (hr : (p.toMaps m).ctr c = r) (ho : (p.toMaps m).rtc k = o) :
    ∃ p', p.exchange c k o (if r = -1 then none else some r) = some p' ∧ p'.Fits m ∧
      (∀ d, p'.ctrmap.read d = if d = o then some r else if d = c then some k else p.ctrmap.read d) ∧
      ∀ q, p'.rtcmap.read q = if r ≠ -1 ∧ q = r then some o else if q = k then some c else p.rtcmap.read q := by
  have hlen := h.ctr_length
  have hlen' := h.rtc_length
  have hobounds : 0 ≤ o ∧ o < m.nC := ho ▸ h.inverse.rtc_bounds hk.1 hk.2
  have hrange : r = -1 ∨ 0 ≤ r ∧ r < m.nR := hr ▸ h.inverse.ctr_range hc.1 hc.2
  obtain ⟨p', hp', hl, hl', hctr, hrtc⟩ := p.exchange_writes (c := c) (k := k) (o := o) (r := r) (by omega) (by omega)
    (by omega) (by omega)
  refine ⟨p', hp', ⟨exchange_inverse h.inverse hc hk hne hr ho ?_ ?_, by omega, by omega⟩, hctr, hrtc⟩
  · intro d hd hlt
    have hold : p.ctrmap.read d = some ((p.toMaps m).ctr d) := h.inverse.ctr_holds d hd hlt
    rw [hctr, hold, update_apply, update_apply]
    split_ifs
    all_goals rfl
  · intro q hq hlt
    have hold : p.rtcmap.read q = some ((p.toMaps m).rtc q) := h.inverse.rtc_holds q hq hlt
    rw [hrtc, hold]
    by_cases hnone : r = -1
    · rw [if_pos hnone, if_neg (by simp [hnone]), update_apply]
      split_ifs
      all_goals rfl
    · rw [if_neg hnone, update_apply, update_apply]
      simp only [ne_eq, hnone, not_false_eq_true, true_and]
      split_ifs
      all_goals rfl

end Plan

namespace PlanInput

variable (x : PlanInput)

def healthy (pos : Int) : Bool := (x.healthyAt pos).getD false

def isSpare (k : Int) : Bool :=
  x.healthy (k + x.maps.nC) && x.healthy (x.maps.rtc k)

/-- The replicas that can be given away, in the order in which they are. -/
def spares : List Int := x.replicaRanks.filter x.isSpare

/-- The logical rank that needs another replica because the process at `currank` may fail. -/
def needs (currank : Int) : Option Int :=
  if currank < x.maps.nC then
    if x.maps.ctr currank ≠ -1 ∧ x.healthy (x.maps.ctr currank + x.maps.nC) = true then none
    else some currank
  else if x.healthy (x.maps.rtc (currank - x.maps.nC)) then none
  else some (x.maps.rtc (currank - x.maps.nC))

def gifts (curranks : List Int) : List (Int × Int) :=
  (curranks.filterMap x.needs).zip x.spares

/-- Every position of the communicator can be looked up in `parep_mpi_pred_list`. -/
structure Sound : Prop where
  inverse : x.maps.MutuallyInverse
  nC_nonneg : 0 ≤ x.maps.nC
  nR_nonneg : 0 ≤ x.maps.nR
  listed : ∀ pos, 0 ≤ pos → pos < x.maps.nC + x.maps.nR → ∃ b, x.healthyAt pos = some b

variable {x : PlanInput} {k c currank : Int} {usedreps : CArray Bool} {n : Nat} {st : Planning}
  {rest served : List Int}

theorem Sound.healthyAt (h : x.Sound) {pos : Int} (h0 : 0 ≤ pos)
    (hlt : pos < x.maps.nC + x.maps.nR) : x.healthyAt pos = some (x.healthy pos) := by
  obtain ⟨b, hb⟩ := h.listed pos h0 hlt
  rw [healthy, hb, getD_some]

theorem mem_replicaRanks : k ∈ x.replicaRanks ↔ 0 ≤ k ∧ k < x.maps.nR := by
  rw [replicaRanks, List.mem_map]
  constructor
  · rintro ⟨n, hn, rfl⟩
    rw [mem_range] at hn
    omega
  · rintro ⟨h0, hlt⟩
    exact ⟨k.toNat, mem_range.mpr (by omega), by omega⟩

theorem spares_nodup (x : PlanInput) : x.spares.Nodup := by
  apply Nodup.filter
  exact nodup_range.map fun i j h => by simpa using h

theorem mem_spares : k ∈ x.spares ↔ (0 ≤ k ∧ k < x.maps.nR) ∧ x.isSpare k = true := by
  rw [spares, mem_filter, mem_replicaRanks]

theorem findSpare_spec (h : x.Sound) {used : Int → Bool}
    (hused : usedreps.Holds x.maps.nR used) {allowed : Int → Int → Bool}
    (hallowed : ∀ k, x.isSpare k = true → allowed (k + x.maps.nC) (x.maps.rtc k) = true) (ks : List Int)
    (hks : ∀ k ∈ ks, 0 ≤ k ∧ k < x.maps.nR) :
    x.findSpare usedreps allowed ks =
      some ((ks.find? fun k => x.isSpare k && !used k).map fun k => (k, x.maps.rtc k)) := by
  induction ks with
  | nil => rfl
  | cons k ks ih =>
    obtain ⟨h0, hlt⟩ := hks k mem_cons_self
    have hrest := ih fun j hj => hks j (mem_cons_of_mem k hj)
    obtain ⟨hc0, hc1⟩ := h.inverse.rtc_bounds h0 hlt
    rw [findSpare, hused k h0 hlt, find?_cons]
    cases hu : used k with
    | true => simp [hrest]
    | false =>
      simp only [bind_eq_bind, bind_some, Bool.false_eq_true, if_false,
        h.inverse.rtc_holds k h0 hlt, h.healthyAt (show 0 ≤ k + x.maps.nC by omega) (by omega),
        h.healthyAt hc0 (show x.maps.rtc k < x.maps.nC + x.maps.nR by omega), Bool.not_false,
        Bool.and_true]
      cases hs : x.isSpare k with
      | true =>
        have hall := hallowed k hs
        unfold isSpare at hs
        rw [hs, hall]
        rfl
      | false =>
        unfold isSpare at hs
        rw [hs]
        simpa using hrest

theorem find_next_spare (x : PlanInput) (n : Nat) :
    (x.replicaRanks.find? fun k => x.isSpare k && !decide (k ∈ x.spares.take n)) = (x.spares.drop n).head? := by
  have hnodup := x.spares_nodup
  rw [← take_append_drop n x.spares, nodup_append'] at hnodup
  have hfilter : (x.replicaRanks.find? fun k => x.isSpare k && !decide (k ∈ x.spares.take n)) =
      x.spares.find? fun k => !decide (k ∈ x.spares.take n) := by
    rw [spares, find?_filter]
    congr 1
    funext k
    simp
  have htake : (x.spares.take n).find? (fun k => !decide (k ∈ x.spares.take n)) = none := by
    rw [find?_eq_none]
    intro k hk
    simp [hk]
  have hdrop : (x.spares.drop n).find? (fun k => !decide (k ∈ x.spares.take n)) = (x.spares.drop n).head? := by
    cases hd : x.spares.drop n with
    | nil => rfl
    | cons k rest =>
      have hnot : k ∉ x.spares.take n := fun hmem => hnodup.2.2 hmem (hd ▸ mem_cons_self)
      rw [find?_cons_of_pos (by simp [hnot]), head?_cons]
  rw [hfilter]
  conv_lhs => rw [← take_append_drop n x.spares]
  rw [find?_append, take_append_drop, htake, none_or, hdrop]

theorem append_zip {α β : Type*} (l r : List α) (s : List β) : (l ++ r).zip s = l.zip s ++ r.zip (s.drop l.length) := by
  induction l generalizing s with
  | nil => rfl
  | cons a l ih =>
    cases s with
    | nil => simp
    | cons b s => simp [ih]

theorem map_fst_zip {α β : Type*} (l : List α) (s : List β) : (l.zip s).map fst = l.take s.length := by
  induction l generalizing s with
  | nil => simp
  | cons a l ih =>
    cases s with
    | nil => rfl
    | cons b s => simp [ih]

theorem map_snd_zip {α β : Type*} (l : List α) (s : List β) : (l.zip s).map snd = s.take l.length := by
  induction l generalizing s with
  | nil => simp
  | cons a l ih =>
    cases s with
    | nil => rfl
    | cons b s => simp [ih]

theorem spare_not_given_back {c k : Int}
    (hr : x.maps.ctr c = -1 ∨ x.healthy (x.maps.ctr c + x.maps.nC) = false) (hk : k ∈ x.spares) :
    ¬ (x.maps.ctr c ≠ -1 ∧ k = x.maps.ctr c) := by
  intro hback
  obtain ⟨hne, heq⟩ := hback
  have hspare := (mem_spares.mp hk).2
  rw [isSpare, Bool.and_eq_true, heq, hr.resolve_left hne] at hspare
  cases hspare.1

/-! ### One process of a prediction

A process that will fail leaves a rank without one of its copies; the rank gets the next spare replica. -/

/-- What is done for the process at `currank` when the first `n` spares are given away: the logical rank that needs
another replica gets the next spare. -/
def serve (x : PlanInput) (st : Planning) (n : Nat) (currank : Int) : Option Planning :=
  match x.needs currank, x.spares.drop n with
  | some c, k :: _ => st.give c k (x.maps.rtc k) (if x.maps.ctr c = -1 then none else some (x.maps.ctr c))
  | _, _ => some st

variable {x : PlanInput}

theorem findSpare_next (h : x.Sound)
    (hused : usedreps.Holds x.maps.nR fun k => decide (k ∈ x.spares.take n)) (allowed : Int → Int → Bool)
    (hallowed : ∀ k, x.isSpare k = true → allowed (k + x.maps.nC) (x.maps.rtc k) = true) :
    x.findSpare usedreps allowed x.replicaRanks = some ((x.spares.drop n).head?.map fun k => (k, x.maps.rtc k)) := by
  rw [findSpare_spec h hused hallowed x.replicaRanks fun k => mem_replicaRanks.mp, find_next_spare]

section

variable (h : x.Sound) (hused : st.usedreps.Holds x.maps.nR fun k => decide (k ∈ x.spares.take n))

include h hused

theorem planForCompute_eq (h0 : 0 ≤ c)
    (hlt : c < x.maps.nC) (hsick : x.healthy c = false) : x.planForCompute st c = x.serve st n c := by
  have hfind := findSpare_next h hused (fun _ cmprank => cmprank != c) fun k hk => by
    rw [isSpare, Bool.and_eq_true] at hk
    apply bne_iff_ne.mpr
    intro heq
    rw [heq, hsick] at hk
    cases hk.2
  have hhealth : x.replicaIsHealthy (x.maps.ctr c) =
      some (decide (x.maps.ctr c ≠ -1 ∧ x.healthy (x.maps.ctr c + x.maps.nC) = true)) := by
    unfold replicaIsHealthy
    by_cases hnone : x.maps.ctr c = -1
    · simp [hnone]
    · obtain ⟨hr0, hr1⟩ := h.inverse.ctr_bounds h0 hlt hnone
      rw [if_neg hnone, h.healthyAt (by omega) (by omega)]
      simp [hnone]
  simp only [PlanInput.planForCompute, h.inverse.ctr_holds c h0 hlt, hhealth, hfind, bind_eq_bind, bind_some]
  by_cases hok : x.maps.ctr c ≠ -1 ∧ x.healthy (x.maps.ctr c + x.maps.nC) = true
  · rw [if_pos (by simpa using hok), serve, show x.needs c = none by rw [needs, if_pos hlt, if_pos hok]]
  · rw [if_neg (by simpa using hok), serve, show x.needs c = some c by rw [needs, if_pos hlt, if_neg hok]]
    cases x.spares.drop n with
    | nil | cons => rfl

theorem planForReplica_eq {reprank : Int}
    (hge : x.maps.nC ≤ reprank) (hlt : reprank < x.maps.nC + x.maps.nR) (hsick : x.healthy reprank = false) :
    x.planForReplica st reprank = x.serve st n reprank := by
  have hfind := findSpare_next h hused (fun rank _ => rank != reprank) fun k hk => by
    rw [isSpare, Bool.and_eq_true] at hk
    apply bne_iff_ne.mpr
    intro heq
    rw [heq, hsick] at hk
    cases hk.1
  have hr0 : 0 ≤ reprank - x.maps.nC := by omega
  have hr1 : reprank - x.maps.nC < x.maps.nR := by omega
  obtain ⟨hc0, hc1⟩ := h.inverse.rtc_bounds hr0 hr1
  have hback := h.inverse.ctr_rtc hr0 hr1
  have hcmp : ¬ reprank < x.maps.nC := by omega
  simp only [PlanInput.planForReplica, h.inverse.rtc_holds _ hr0 hr1,
    h.healthyAt hc0 (show x.maps.rtc (reprank - x.maps.nC) < x.maps.nC + x.maps.nR by omega), hfind,
    h.inverse.ctr_holds _ hc0 hc1, bind_eq_bind, bind_some]
  cases hok : x.healthy (x.maps.rtc (reprank - x.maps.nC)) with
  | true =>
    rw [serve, show x.needs reprank = none by rw [needs, if_neg hcmp, if_pos hok]]
    rfl
  | false =>
    rw [serve, show x.needs reprank = some (x.maps.rtc (reprank - x.maps.nC)) by
      rw [needs, if_neg hcmp, if_neg (by simp [hok])]]
    cases x.spares.drop n with
    | nil => rfl
    | cons k rest =>
      simp only []
      rw [if_neg (show x.maps.ctr (x.maps.rtc (reprank - x.maps.nC)) ≠ -1 by omega)]
      rfl

theorem planFor_eq
    (hpos : 0 ≤ currank ∧ currank < x.maps.nC + x.maps.nR) (hsick : x.healthy currank = false) :
    x.planFor st currank = x.serve st n currank := by
  unfold planFor
  split
  · rename_i hlt
    exact planForCompute_eq h hused hpos.1 hlt hsick
  · exact planForReplica_eq h hused (by omega) hpos.2 hsick

end

theorem needs_spec (h : x.Sound) (hpos : 0 ≤ currank ∧ currank < x.maps.nC + x.maps.nR)
    (hsick : x.healthy currank = false) (hneed : x.needs currank = some c) :
    (0 ≤ c ∧ c < x.maps.nC) ∧ x.healthy c = false ∧
      (x.maps.ctr c = -1 ∨ x.healthy (x.maps.ctr c + x.maps.nC) = false) := by
  unfold needs at hneed
  by_cases hlt : currank < x.maps.nC
  · rw [if_pos hlt] at hneed
    split at hneed
    · cases hneed
    · rename_i hok
      obtain rfl := some_inj.mp hneed
      refine ⟨⟨hpos.1, hlt⟩, hsick, ?_⟩
      by_cases hnone : x.maps.ctr currank = -1
      · exact .inl hnone
      · exact .inr (by simpa [hnone] using hok)
  · have hr0 : 0 ≤ currank - x.maps.nC := by omega
    have hr1 : currank - x.maps.nC < x.maps.nR := by omega
    rw [if_neg hlt] at hneed
    split at hneed
    · cases hneed
    · rename_i hok
      obtain rfl := some_inj.mp hneed
      refine ⟨h.inverse.rtc_bounds hr0 hr1, by simpa using hok, .inr ?_⟩
      rw [h.inverse.ctr_rtc hr0 hr1, show currank - x.maps.nC + x.maps.nC = currank by omega]
      exact hsick

theorem next_spare (hnext : x.spares.drop served.length = k :: rest) (c : Int) :
    k ∈ x.spares ∧ k ∉ x.spares.take served.length ∧ (served ++ [c]).zip x.spares = served.zip x.spares ++ [(c, k)] ∧
      x.spares.take (served ++ [c]).length = x.spares.take served.length ++ [k] := by
  have hlen : served.length < x.spares.length := by
    by_contra hge
    rw [drop_eq_nil_of_le (by omega)] at hnext
    cases hnext
  refine ⟨mem_of_mem_drop (hnext ▸ mem_cons_self), ?_, ?_, ?_⟩
  · have hnodup := x.spares_nodup
    rw [← take_append_drop served.length x.spares, nodup_append'] at hnodup
    exact fun hin => hnodup.2.2 hin (hnext ▸ mem_cons_self)
  · rw [append_zip, hnext]
    rfl
  · have hget : x.spares[served.length] = k := by
      rw [drop_eq_getElem_cons hlen, cons.injEq] at hnext
      exact hnext.1
    rw [length_append, length_singleton, take_succ_eq_append_getElem hlen, hget]

theorem no_spare (hnext : x.spares.drop served.length = []) (c : Int) :
    (served ++ [c]).zip x.spares = served.zip x.spares ∧
      x.spares.take (served ++ [c]).length = x.spares.take served.length := by
  have hle := drop_eq_nil_iff.mp hnext
  constructor
  · rw [append_zip, hnext, zip_nil_right, append_nil]
  · rw [take_of_length_le hle, take_of_length_le (by rw [length_append]; omega)]

theorem used_next (hused : usedreps.Holds x.maps.nR fun k => decide (k ∈ x.spares.take served.length))
    (hnext : x.spares.drop served.length = k :: rest) (c : Int) :
    ∃ used, usedreps.write k true = some used ∧
      used.Holds x.maps.nR fun k => decide (k ∈ x.spares.take (served ++ [c]).length) := by
  obtain ⟨hmem, -, -, htake⟩ := next_spare hnext c
  obtain ⟨hk, -⟩ := mem_spares.mp hmem
  obtain ⟨used, hwrite, hheld, _⟩ := hused.write hk.1 hk.2 true
  refine ⟨used, hwrite, ?_⟩
  rw [htake]
  apply hheld.congr
  intro q _ _
  by_cases hqk : q = k
  · rw [hqk, update_self]
    simp
  · simp [hqk]

theorem needs_cons (served : List Int) (currank : Int) (rest : List Int) :
    served ++ (currank :: rest).filterMap x.needs = served ++ (x.needs currank).toList ++ rest.filterMap x.needs := by
  rw [append_assoc]
  congr 1
  cases hneed : x.needs currank <;> simp [hneed]

/-- The plan when the spares have been given away as in `gifts`, no logical rank having got two. -/
structure Planned (x : PlanInput) (gifts : List (Int × Int)) (plan : Plan) : Prop where
  fits : plan.Fits x.maps
  ctr_rest : ∀ c, 0 ≤ c → c < x.maps.nC → c ∉ gifts.map fst → x.healthy c = false →
    (plan.toMaps x.maps).ctr c = x.maps.ctr c
  rtc_rest : ∀ k ∈ x.spares, k ∉ gifts.map snd → (plan.toMaps x.maps).rtc k = x.maps.rtc k

theorem Planned.give {plan p : Plan} {gifts : List (Int × Int)} (hp : x.Planned gifts plan) (hc : 0 ≤ c ∧ c < x.maps.nC)
    (hsick : x.healthy c = false) (hk : k ∈ x.spares) (hfresh : c ∉ gifts.map fst) (hnot : k ∉ gifts.map snd)
    (hr : x.maps.ctr c = -1 ∨ x.healthy (x.maps.ctr c + x.maps.nC) = false)
    (hrun : plan.exchange c k (x.maps.rtc k) (if x.maps.ctr c = -1 then none else some (x.maps.ctr c)) = some p) :
    x.Planned (gifts ++ [(c, k)]) p := by
  obtain ⟨hbounds, hspare⟩ := mem_spares.mp hk
  rw [isSpare, Bool.and_eq_true] at hspare
  have hne : ∀ d, x.healthy d = false → d ≠ x.maps.rtc k := by
    rintro d hd rfl
    rw [hspare.2] at hd
    cases hd
  obtain ⟨p', hp', hfits, hctr, hrtc⟩ := hp.fits.exchange hc hbounds (hne c hsick)
    (hp.ctr_rest c hc.1 hc.2 hfresh hsick) (hp.rtc_rest k hk hnot)
  obtain rfl := some_inj.mp (hrun.symm.trans hp')
  refine ⟨hfits, ?_, ?_⟩
  · intro d hd0 hd1 hd hdsick
    rw [map_append, mem_append, not_or] at hd
    rw [← hp.ctr_rest d hd0 hd1 hd.1 hdsick]
    refine congrArg (getD · (-1)) ((hctr d).trans ?_)
    rw [if_neg (hne d hdsick), if_neg (by simpa using hd.2)]
    rfl
  · intro q hq hqk
    rw [map_append, mem_append, not_or] at hqk
    rw [← hp.rtc_rest q hq hqk.1]
    refine congrArg (getD · (-1)) ((hrtc q).trans ?_)
    rw [if_neg (spare_not_given_back hr hq), if_neg (by simpa using hqk.2)]
    rfl

/-- The plan when the logical ranks of `served` have been considered: whoever was given a spare is noted there, even if
he was given another one later. -/
structure Handed (x : PlanInput) (served : List Int) (st : Planning) : Prop where
  ctr_length : (st.plan.ctrmap.length : Int) = x.maps.nC
  rtc_length : (st.plan.rtcmap.length : Int) = x.maps.nR
  given : ∀ ck ∈ served.zip x.spares, st.plan.rtcmap.read ck.2 = some ck.1
  used : st.usedreps.Holds x.maps.nR fun k => decide (k ∈ x.spares.take served.length)
  swap : st.swapReplicas = !(served.zip x.spares).isEmpty
  planned : ((served.zip x.spares).map fst).Nodup → x.Planned (served.zip x.spares) st.plan

theorem Handed.give (h : x.Sound) (hp : x.Handed served st) (hc : 0 ≤ c ∧ c < x.maps.nC)
    (hsick : x.healthy c = false) (hnext : x.spares.drop served.length = k :: rest)
    (hr : x.maps.ctr c = -1 ∨ x.healthy (x.maps.ctr c + x.maps.nC) = false) :
    ∃ st', st.give c k (x.maps.rtc k) (if x.maps.ctr c = -1 then none else some (x.maps.ctr c)) = some st' ∧
      x.Handed (served ++ [c]) st' := by
  obtain ⟨hmem, hnot, hzip, -⟩ := next_spare hnext c
  obtain ⟨hk, -⟩ := mem_spares.mp hmem
  have ho := h.inverse.rtc_bounds hk.1 hk.2
  have hrange := h.inverse.ctr_range hc.1 hc.2
  have hC := hp.ctr_length
  have hR := hp.rtc_length
  obtain ⟨used, hwrite, hheld⟩ := used_next hp.used hnext c
  obtain ⟨p, hrun, hl, hl', -, hread⟩ := st.plan.exchange_writes (c := c) (k := k) (o := x.maps.rtc k)
    (r := x.maps.ctr c) (by omega) (by omega) (by omega) (by omega)
  refine ⟨⟨p, used, true⟩, ?_, hl ▸ hC, hl' ▸ hR, ?_, hheld, by simp [hzip], ?_⟩
  · simp only [Planning.give, hwrite, hrun, bind_eq_bind, bind_some]
    rw [if_pos ⟨hk.1, ho.1⟩]
  · rw [hzip]
    intro ck hck
    rw [hread]
    rcases mem_append.mp hck with hold | hnew
    · have hsnd : ck.2 ∈ x.spares.take served.length := map_snd_zip served x.spares ▸ mem_map_of_mem hold
      have hne : ck.2 ≠ k := fun heq => hnot (heq ▸ hsnd)
      rw [if_neg (spare_not_given_back hr (mem_of_mem_take hsnd)), if_neg hne]
      exact hp.given ck hold
    · obtain rfl := mem_singleton.mp hnew
      rw [if_neg (spare_not_given_back hr hmem), if_pos rfl]
  · rw [hzip, map_append, nodup_append']
    intro honce
    exact (hp.planned honce.1).give hc hsick hmem (fun hin => honce.2.2 hin (by simp)) (by rwa [map_snd_zip]) hr hrun

theorem Handed.serve (h : x.Sound) (hp : x.Handed served st)
    (hpos : 0 ≤ currank ∧ currank < x.maps.nC + x.maps.nR) (hsick : x.healthy currank = false) :
    ∃ st', x.planFor st currank = some st' ∧ x.Handed (served ++ (x.needs currank).toList) st' := by
  rw [planFor_eq h hp.used hpos hsick, PlanInput.serve]
  cases hneed : x.needs currank with
  | none => exact ⟨st, rfl, by simpa using hp⟩
  | some c =>
    obtain ⟨hc, hcsick, hold⟩ := needs_spec h hpos hsick hneed
    cases hnext : x.spares.drop served.length with
    | nil =>
      obtain ⟨hzip, htake⟩ := no_spare hnext c
      exact ⟨st, rfl, hp.ctr_length, hp.rtc_length, hzip ▸ hp.given, htake ▸ hp.used, hzip ▸ hp.swap, hzip ▸ hp.planned⟩
    | cons k rest => exact hp.give h hc hcsick hnext hold

theorem Handed.planAll (h : x.Sound) (curranks : List Int) (hp : x.Handed served st)
    (hranks : ∀ currank ∈ curranks, 0 ≤ currank ∧ currank < x.maps.nC + x.maps.nR ∧ x.healthy currank = false) :
    ∃ st', x.planAll st curranks = some st' ∧ x.Handed (served ++ curranks.filterMap x.needs) st' := by
  induction curranks generalizing served st with
  | nil => exact ⟨st, rfl, by simpa using hp⟩
  | cons currank rest ih =>
    obtain ⟨h0, hlt, hsick⟩ := hranks currank mem_cons_self
    rw [needs_cons]
    obtain ⟨st', hst', hp'⟩ := hp.serve h ⟨h0, hlt⟩ hsick
    obtain ⟨st'', hst'', hp''⟩ := ih hp' fun r hr => hranks r (mem_cons_of_mem currank hr)
    exact ⟨st'', by rw [PlanInput.planAll, hst', bind_eq_bind, bind_some, hst''], hp''⟩

end PlanInput

end ParepMpi
