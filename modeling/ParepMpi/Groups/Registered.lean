import ParepMpi.Groups.Reading

/-!
# Every process is registered

The rounds of the main coordinator one after the other: a node of its own group is registered in its round, all nodes
of another group in the round of their leader.
-/

namespace ParepMpi

open List Option Function

namespace StartUp

variable {cfg : StartUp} {t : MainTables} {lims : CArray RankLims} {r : Registration} {v i n : Nat}

/-- How many nodes are registered before the round for node `i`: with a leader come all the nodes of its group. -/
def reach (n i : Nat) : Nat :=
  if groupId n i = 0 ∨ groupNodeid n i = 0 then i else min n ((groupId n i + 1) * groupSizeMax n)

theorem group_succ (n i : Nat) :
    groupNodeid n i + 1 < groupSizeMax n ∧ groupId n (i + 1) = groupId n i ∧ groupNodeid n (i + 1) = groupNodeid n i + 1 ∨
      groupNodeid n i + 1 = groupSizeMax n ∧ groupId n (i + 1) = groupId n i + 1 ∧ groupNodeid n (i + 1) = 0 := by
  have hmax := groupSizeMax_pos n
  have hlt : groupNodeid n i < groupSizeMax n := groupNodeid_lt
  have hsplit := groupId_mul_add (n := n) i
  rcases Nat.lt_or_eq_of_le (Nat.succ_le_of_lt hlt) with hnext | hnext
  · have heq : i + 1 = groupNodeid n i + 1 + groupSizeMax n * groupId n i := by
      rw [mul_comm]
      omega
    refine .inl ⟨hnext, ?_, ?_⟩
    · conv_lhs => rw [heq]
      rw [groupId, Nat.add_mul_div_left _ _ hmax, Nat.div_eq_of_lt hnext, zero_add]
    · conv_lhs => rw [heq]
      rw [groupNodeid, Nat.add_mul_mod_self_left, Nat.mod_eq_of_lt hnext]
  · have heq : i + 1 = groupSizeMax n * (groupId n i + 1) := by
      rw [mul_comm, Nat.succ_mul]
      omega
    refine .inr ⟨hnext, ?_, ?_⟩
    · conv_lhs => rw [heq]
      rw [groupId, Nat.mul_div_cancel_left _ hmax]
    · conv_lhs => rw [heq]
      rw [groupNodeid, Nat.mul_mod_right]

theorem reach_own (hown : groupId n i = 0) : reach n (i + 1) = i + 1 := by
  rcases group_succ n i with ⟨-, hid, -⟩ | ⟨-, -, hnid⟩
  · exact if_pos (.inl (hid.trans hown))
  · exact if_pos (.inr hnid)

theorem reach_leader (hleader : groupNodeid n i = 0) (hid : groupId n i ≠ 0) (hfull : i + groupSizeMax n ≤ n) :
    reach n (i + 1) = i + groupSizeMax n := by
  have hsplit := groupId_mul_add (n := n) i
  rcases group_succ n i with ⟨hlt, hid', hnid⟩ | ⟨heq, -, hnid⟩
  · rw [reach, if_neg (by omega), hid', Nat.succ_mul]
    omega
  · rw [reach, if_pos (.inr hnid)]
    omega

theorem reach_member (hid : groupId n i ≠ 0) (hnid : groupNodeid n i ≠ 0) (hi : i < n) : reach n (i + 1) = reach n i := by
  have hsplit := groupId_mul_add (n := n) i
  have hmul : (groupId n i + 1) * groupSizeMax n = groupId n i * groupSizeMax n + groupSizeMax n := Nat.succ_mul _ _
  rw [reach, reach, if_neg (show ¬ (groupId n i = 0 ∨ groupNodeid n i = 0) by omega)]
  rcases group_succ n i with ⟨hlt, hid', hnid'⟩ | ⟨heq, -, hnid'⟩
  · rw [if_neg (by omega), hid']
  · rw [if_pos (.inr hnid')]
    omega

theorem reach_end (n : Nat) : reach n n = n := by
  have hsplit := groupId_mul_add (n := n) n
  have hlt : groupNodeid n n < groupSizeMax n := groupNodeid_lt
  rw [reach]
  split
  · rfl
  · rw [Nat.succ_mul]
    omega

def FullGroups (n : Nat) : Prop := n ≤ groupSizeMax n ∨ groupSizeMax n ∣ n

instance (n : Nat) : Decidable (FullGroups n) := instDecidableOr

theorem FullGroups.leader (h : FullGroups n) (hi : i < n) (hleader : groupNodeid n i = 0) (hid : groupId n i ≠ 0) :
    i + groupSizeMax n ≤ n := by
  have hsplit := groupId_mul_add (n := n) i
  have hle : groupSizeMax n ≤ groupId n i * groupSizeMax n := Nat.le_mul_of_pos_left _ (by omega)
  rcases h with hone | ⟨q, hq⟩
  · omega
  · have hmul := mul_comm (groupSizeMax n) q
    have hlt : groupId n i < q := by
      apply Nat.lt_of_mul_lt_mul_right (a := groupSizeMax n)
      omega
    have := Nat.mul_le_mul_right (groupSizeMax n) hlt
    rw [Nat.succ_mul] at this
    omega

def sent (cfg : StartUp) (v : Nat) : List Nat :=
  1 :: if groupId cfg.nodeNum v ≠ 0 ∧ groupNodeid cfg.nodeNum v = 0 then cfg.blocks v (groupSize cfg.nodeNum v)
    else cfg.block v

def Direct (cfg : StartUp) (v : Nat) : Prop := groupId cfg.nodeNum v = 0 ∨ groupNodeid cfg.nodeNum v = 0

instance (v : Nat) : Decidable (cfg.Direct v) := instDecidableOr

section

variable (h : Noted cfg (range cfg.nodeNum) t)

include h

theorem registerLeader_spec (hlims : Limits cfg lims)
    (hfull : FullGroups cfg.nodeNum) (hi : i < cfg.nodeNum) (hleader : groupNodeid cfg.nodeNum i = 0)
    (hid : groupId cfg.nodeNum i ≠ 0) (hent : Entered cfg r i i) (hunread : r.unread i = cfg.sent i) :
    ∃ u, cfg.registerNode lims t r i = some u ∧
      Entered cfg u (i + groupSizeMax cfg.nodeNum) (i + groupSizeMax cfg.nodeNum) ∧
      u.unread = update r.unread i [] := by
  have hmem := mem_range.mpr hi
  have hmax := groupSizeMax_pos cfg.nodeNum
  have hsplit := groupId_mul_add (n := cfg.nodeNum) i
  have hpos : 0 < i := by
    have := Nat.mul_pos (Nat.pos_of_ne_zero hid) hmax
    omega
  have hroom := hfull.leader hi hleader hid
  have hsize : groupSize cfg.nodeNum i = groupSizeMax cfg.nodeNum := by
    have := groupSize_eq hi
    omega
  rw [sent, if_pos ⟨hid, hleader⟩, hsize, show groupSizeMax cfg.nodeNum = groupSizeMax cfg.nodeNum - 1 + 1 by omega,
    blocks_cons] at hunread
  let ws := cfg.block i ++ cfg.blocks (i + 1) (groupSizeMax cfg.nodeNum - 1)
  let r₀ : Registration := ⟨r.globalPids, r.allRanks, r.procState, update r.unread i ws⟩
  have hent₀ : Entered cfg r₀ i i := { hent with }
  obtain ⟨r₁, h₁, hent₁, hun₁⟩ := readNode_spec hent₀ hi (update_self _ _ _)
  obtain ⟨r₂, h₂, hent₂, hun₂⟩ := readMembers_spec h hlims hi hleader cfg.nodeNum Nat.one_pos (by omega) (by omega) hent₁
    (show r₁.unread i = _ by rw [hun₁, update_self, hsize])
  rw [hsize] at hent₂
  obtain ⟨r₃, h₃, hent₃, hun₃⟩ := markNode_spec hent₂ hi
  obtain ⟨r₄, h₄, hent₄, hun₄⟩ := markMembers_spec h hlims hroom hpos cfg.nodeNum Nat.one_pos hmax (by omega) hent₃
  refine ⟨r₄, ?_, hent₄, ?_⟩
  · simp only [registerNode, h.ids i hmem, h.nodeids i hmem, h.sockets i hmem (by omega), hunread, takeWords_one,
      hlims.read_eq i hi, hleader, or_true, if_true, bind_eq_bind, bind_some]
    rw [h₁, bind_some, h₂, bind_some, h₃, bind_some, h₄]
  · rw [hun₄, hun₃, hun₂, hun₁]
    simp only [r₀, update_idem]

theorem registerOwn_spec (hlims : Limits cfg lims) (hi : i < cfg.nodeNum)
    (hnid : groupNodeid cfg.nodeNum i ≠ 0) (hid : groupId cfg.nodeNum i = 0) (hent : Entered cfg r i i)
    (hunread : r.unread i = cfg.sent i) :
    ∃ u, cfg.registerNode lims t r i = some u ∧ Entered cfg u (i + 1) (i + 1) ∧ u.unread = update r.unread i [] := by
  have hmem := mem_range.mpr hi
  have hpos : i ≠ 0 := by
    rintro rfl
    exact hnid (Nat.zero_mod _)
  rw [sent, if_neg (by omega), ← append_nil (cfg.block i)] at hunread
  let r₀ : Registration := ⟨r.globalPids, r.allRanks, r.procState, update r.unread i (cfg.block i ++ [])⟩
  have hent₀ : Entered cfg r₀ i i := { hent with }
  obtain ⟨r₁, h₁, hent₁, hun₁⟩ := readNode_spec hent₀ hi (update_self _ _ _)
  obtain ⟨r₂, h₂, hent₂, hun₂⟩ := markNode_spec hent₁ hi
  refine ⟨r₂, ?_, hent₂, ?_⟩
  · simp only [registerNode, h.ids i hmem, h.nodeids i hmem, h.sockets i hmem hpos, hunread, takeWords_one,
      hlims.read_eq i hi, hid, true_or, if_true, bind_eq_bind, bind_some, if_neg hnid]
    rw [h₁, bind_some, h₂, bind_some]
  · rw [hun₂, hun₁]
    simp only [r₀, update_idem]

theorem registerNode_spec (hlims : Limits cfg lims)
    (hfull : FullGroups cfg.nodeNum) (hpos : 0 < i) (hi : i < cfg.nodeNum)
    (hent : Entered cfg r (reach cfg.nodeNum i) (reach cfg.nodeNum i)) (hunread : r.unread i = cfg.sent i) :
    ∃ u, cfg.registerNode lims t r i = some u ∧ Entered cfg u (reach cfg.nodeNum (i + 1)) (reach cfg.nodeNum (i + 1)) ∧
      u.unread = if cfg.Direct i then update r.unread i [] else r.unread := by
  have hmem := mem_range.mpr hi
  by_cases hdirect : cfg.Direct i
  · rw [if_pos hdirect]
    rw [show reach cfg.nodeNum i = i from if_pos hdirect] at hent
    by_cases hleader : groupNodeid cfg.nodeNum i = 0
    · have hid : groupId cfg.nodeNum i ≠ 0 := by
        intro hid
        have := groupId_mul_add (n := cfg.nodeNum) i
        rw [hid, hleader] at this
        omega
      rw [reach_leader hleader hid (hfull.leader hi hleader hid)]
      exact registerLeader_spec h hlims hfull hi hleader hid hent hunread
    · have hid := hdirect.resolve_right hleader
      rw [reach_own hid]
      exact registerOwn_spec h hlims hi hleader hid hent hunread
  · rw [if_neg hdirect]
    unfold Direct at hdirect
    rw [reach_member (by omega) (by omega) hi]
    refine ⟨r, ?_, hent, rfl⟩
    simp only [registerNode, h.ids i hmem, h.nodeids i hmem, bind_eq_bind, bind_some, if_neg hdirect]

theorem registerNode_short (hlims : Limits cfg lims) (hi : i < cfg.nodeNum)
    (hleader : groupNodeid cfg.nodeNum i = 0) (hfar : groupSizeMax cfg.nodeNum ≤ i)
    (hshort : cfg.nodeNum < i + groupSizeMax cfg.nodeNum) : cfg.registerNode lims t r i = none := by
  have hmem := mem_range.mpr hi
  have hsock := h.sockets i hmem (by omega)
  simp only [registerNode, h.ids i hmem, h.nodeids i hmem, hsock, hlims.read_eq i hi, hleader, or_true, if_true,
    bind_eq_bind, bind_some]
  cases takeWords 1 (r.unread i) with
  | none => rfl
  | some p =>
    rw [bind_some]
    split
    · cases readNode i (cfg.limsOf i) { r with unread := update r.unread i p.2 } with
      | none => rfl
      | some r₁ =>
        rw [bind_some]
        cases cfg.readMembers lims t i i cfg.nodeNum 1 r₁ with
        | none => rfl
        | some r₂ =>
          rw [bind_some]
          cases markNode (cfg.limsOf i) r₂ with
          | none => rfl
          | some r₃ => exact markMembers_short h hlims hshort hfar (by omega) (by omega)
    · rfl

end

/-- The orders in which the coordinators come: all others to the main one, the members of a group to its leader. -/
structure Arrivals (cfg : StartUp) (order : List Nat) (orders : Nat → List Nat) : Prop where
  main : order.Perm (range' 1 (cfg.nodeNum - 1))
  leaders : ∀ v < cfg.nodeNum, groupId cfg.nodeNum v ≠ 0 → groupNodeid cfg.nodeNum v = 0 →
    (orders v).Perm (range' 1 (groupSize cfg.nodeNum v - 1))

variable {order : List Nat} {orders : Nat → List Nat}

section

variable (h : Noted cfg (range cfg.nodeNum) t)

include h

theorem stream_spec (hlims : Limits cfg lims) (harr : Arrivals cfg order orders)
    (hv : v < cfg.nodeNum) : cfg.stream lims t orders v = some (cfg.sent v) := by
  unfold stream sent
  split
  · rename_i hleader
    exact leaderStream_spec h hlims hv hleader.2 (harr.leaders v hv hleader.1 hleader.2)
  · exact daemonStream_spec hlims hv

theorem registerAll_spec (hlims : Limits cfg lims)
    (hfull : FullGroups cfg.nodeNum) {unread : Nat → List Nat} (hunread : ∀ v < cfg.nodeNum, unread v = cfg.sent v) :
    ∃ r, cfg.registerAll lims t unread = some r ∧ Entered cfg r cfg.nodeNum cfg.nodeNum ∧
      ∀ v < cfg.nodeNum, v ≠ 0 → cfg.Direct v → r.unread v = [] := by
  have hn := cfg.nodeNum_pos
  obtain ⟨a, ha, hpids⟩ := (Entries.empty cfg cfg.pid 0).extend hn _ rfl
  obtain ⟨b, hb, hranks⟩ := (Entries.empty cfg (fun v j => cfg.startOf v + j) 0).extend hn (range (cfg.nodeSize 0))
    (by simp [startOf])
  obtain ⟨c, hc, hrunning⟩ := (Entries.empty cfg (fun _ _ => DaemonState.running) .uninitialized).extend hn
    (replicate (cfg.nodeSize 0) .running) (by rw [map_const', length_range])
  have hone : reach cfg.nodeNum 1 = 1 := by
    have := reach_own (n := cfg.nodeNum) (i := 0) (Nat.zero_div _)
    exact this
  have hround : ∀ (i : Nat) (r : Registration), 1 ≤ i → i < 1 + (cfg.nodeNum - 1) →
      (Entered cfg r (reach cfg.nodeNum i) (reach cfg.nodeNum i) ∧
        ∀ v < cfg.nodeNum, v ≠ 0 → r.unread v = if v < i ∧ cfg.Direct v then [] else cfg.sent v) →
      ∃ u, cfg.registerNode lims t r i = some u ∧
        (Entered cfg u (reach cfg.nodeNum (i + 1)) (reach cfg.nodeNum (i + 1)) ∧
          ∀ v < cfg.nodeNum, v ≠ 0 → u.unread v = if v < i + 1 ∧ cfg.Direct v then [] else cfg.sent v) := by
    intro i r hlo hhi hinv
    obtain ⟨hent, hun⟩ := hinv
    have hi : i < cfg.nodeNum := by omega
    have hsent : r.unread i = cfg.sent i := by
      rw [hun i hi (by omega), if_neg (by omega)]
    obtain ⟨u, hu, huent, huun⟩ := registerNode_spec h hlims hfull (by omega) hi hent hsent
    refine ⟨u, hu, huent, ?_⟩
    intro v hv hv0
    rw [huun]
    by_cases hvi : v = i
    · subst hvi
      by_cases hdirect : cfg.Direct v
      · rw [if_pos hdirect, update_self, if_pos ⟨by omega, hdirect⟩]
      · rw [if_neg hdirect, if_neg (fun hd => hdirect hd.2), hsent]
    · have hiff : (v < i + 1 ∧ cfg.Direct v) ↔ (v < i ∧ cfg.Direct v) := and_congr_left' (by omega)
      rw [if_congr hiff rfl rfl, ← hun v hv hv0]
      split
      · exact update_of_ne hvi _ _
      · rfl
  obtain ⟨r, hr, hent, hun⟩ := foldlM_range'_spec (s := ⟨a, b, c, unread⟩) 1 (cfg.nodeNum - 1)
    ⟨by rw [hone]; exact ⟨hpids, hranks, hrunning⟩, fun v hv hv0 => by rw [if_neg (by omega)]; exact hunread v hv⟩ hround
  rw [show 1 + (cfg.nodeNum - 1) = cfg.nodeNum by omega] at hent hun
  rw [reach_end] at hent
  refine ⟨r, ?_, hent, fun v hv hv0 hdirect => by rw [hun v hv hv0, if_pos ⟨hv, hdirect⟩]⟩
  have hread : lims.read 0 = some (cfg.limsOf 0) := hlims.read_eq 0 hn
  simp only [registerAll, hread, ha, hb, hc, bind_eq_bind, bind_some]
  exact hr

theorem inBlocks : cfg.InBlocks t := by
  refine ⟨fun v => groupId_lt, ?_⟩
  intro g hg
  refine ⟨g * groupSizeMax cfg.nodeNum, _, h.counts g hg, ?_⟩
  intro v hv
  rw [countP_groupId]
  have hblock := div_eq_iff_block (v := v) (g := g) (groupSizeMax_pos cfg.nodeNum)
  rw [Nat.succ_mul] at hblock
  refine ⟨?_, ?_⟩
  · unfold groupId
    rw [hblock]
    omega
  · rintro rfl
    have hsplit := groupId_mul_add (n := cfg.nodeNum) v
    exact ⟨by omega, groupSize_eq hv⟩

end

theorem Limits.lt_of_read {l : RankLims} (h : Limits cfg lims) (hread : lims.read (v : Int) = some l) :
    v < cfg.nodeNum ∧ l = cfg.limsOf v := by
  have hv : v < cfg.nodeNum := by
    have := (CArray.read_eq_some_bounds hread).2
    rw [h.length_eq] at this
    omega
  refine ⟨hv, ?_⟩
  rw [h.read_eq v hv] at hread
  exact (some_inj.mp hread).symm

theorem Limits.partitioned (h : Limits cfg lims) : cfg.RanksPartitioned lims := by
  refine ⟨?_, ?_⟩
  · intro k
    constructor
    · intro hk
      -- the last node that starts at or before the rank
      have hlast : ∀ m, k < cfg.startOf m → m ≤ cfg.nodeNum →
          ∃ v < cfg.nodeNum, cfg.startOf v ≤ k ∧ k < cfg.startOf (v + 1) := by
        intro m hm hle
        induction m with
        | zero =>
          change k < ((0 : Nat) : Int) at hm
          omega
        | succ m ih =>
          by_cases hstart : (cfg.startOf m : Int) ≤ k
          · exact ⟨m, by omega, hstart, hm⟩
          · exact ih (by omega) (by omega)
      obtain ⟨v, hv, hlow, hhigh⟩ := hlast cfg.nodeNum hk.2 le_rfl
      rw [startOf_succ] at hhigh
      exact ⟨v, hv, cfg.limsOf v, h.read_eq v hv, hlow, by rw [limsOf]; dsimp only; omega⟩
    · intro hex
      obtain ⟨v, hv, l, hl, hlow, hhigh⟩ := hex
      obtain ⟨-, rfl⟩ := h.lt_of_read hl
      have hend := cfg.startOf_mono hv
      rw [startOf_succ] at hend
      have hsize : cfg.size = cfg.startOf cfg.nodeNum := rfl
      rw [limsOf] at hlow hhigh
      dsimp only at hlow hhigh
      omega
  · intro v w l m hl hm hne k hk
    obtain ⟨-, rfl⟩ := h.lt_of_read hl
    obtain ⟨-, rfl⟩ := h.lt_of_read hm
    simp only [limsOf] at hk
    rcases Nat.lt_or_gt_of_ne hne with hlt | hlt
    · have := cfg.startOf_mono hlt
      rw [startOf_succ] at this
      omega
    · have := cfg.startOf_mono (show w + 1 ≤ v from hlt)
      rw [startOf_succ] at this
      omega

theorem Entered.registered (hlims : Limits cfg lims) (h : Entered cfg r cfg.nodeNum cfg.nodeNum) :
    cfg.AllRegistered lims r := by
  intro v hv
  refine ⟨cfg.limsOf v, hlims.read_eq v hv, by rw [limsOf]; dsimp only; omega, ?_⟩
  intro k hk
  exact ⟨h.running.read_eq v hv k hk, h.pids.read_eq v hv k hk, h.ranks.read_eq v hv k hk⟩

theorem registered_iff (harr : Arrivals cfg order orders) : cfg.Registered order orders ↔ FullGroups cfg.nodeNum := by
  obtain ⟨t, ht, hnoted⟩ := acceptAll_spec harr.main
  obtain ⟨lims, hlims, hlim⟩ := rankLimsAll_spec hnoted
  have hstreams : (range cfg.nodeNum).mapM (cfg.stream lims t orders) = some ((range cfg.nodeNum).map cfg.sent) :=
    mapM_eq_some fun v hv => stream_spec hnoted hlim harr (mem_range.mp hv)
  have hinit : cfg.init order orders = (cfg.registerAll lims t fun v =>
      ((range cfg.nodeNum).map cfg.sent).getD v []).bind fun r => some (t, lims, r) := by
    simp only [StartUp.init, ht, hlims, hstreams, bind_eq_bind, bind_some]
  constructor
  · intro hreg
    obtain ⟨t', lims', r, hr, -⟩ := hreg
    rw [hinit] at hr
    obtain ⟨r', hr', -⟩ := bind_eq_some_iff.mp hr
    by_contra hshort
    unfold FullGroups at hshort
    rw [not_or] at hshort
    -- the leader of the last group
    let last := (cfg.nodeNum / groupSizeMax cfg.nodeNum) * groupSizeMax cfg.nodeNum
    have hmax := groupSizeMax_pos cfg.nodeNum
    have hdiv := Nat.div_add_mod cfg.nodeNum (groupSizeMax cfg.nodeNum)
    have hmod := Nat.mod_lt cfg.nodeNum hmax
    have hcomm : last = groupSizeMax cfg.nodeNum * (cfg.nodeNum / groupSizeMax cfg.nodeNum) := mul_comm _ _
    have hfar : groupSizeMax cfg.nodeNum ≤ last := Nat.le_mul_of_pos_left _ (Nat.div_pos (by omega) hmax)
    have hleader : groupNodeid cfg.nodeNum last = 0 := Nat.mul_mod_left _ _
    obtain ⟨_, _, hr'⟩ := bind_eq_some_iff.mp hr'
    obtain ⟨_, _, hr'⟩ := bind_eq_some_iff.mp hr'
    obtain ⟨_, _, hr'⟩ := bind_eq_some_iff.mp hr'
    obtain ⟨_, _, hr'⟩ := bind_eq_some_iff.mp hr'
    obtain ⟨u, w, hround⟩ := exists_round_of_foldlM (i := last) hr' (mem_range'_1.mpr ⟨by omega, by omega⟩)
    rw [registerNode_short hnoted hlim (by omega) hleader hfar (by omega)] at hround
    contradiction
  · intro hfull
    have hunread : ∀ v < cfg.nodeNum, ((range cfg.nodeNum).map cfg.sent).getD v [] = cfg.sent v := by
      intro v hv
      rw [getD_eq_getElem?_getD, getElem?_map, getElem?_range hv]
      rfl
    obtain ⟨r, hr, hent, hun⟩ := registerAll_spec hnoted hlim hfull hunread
    refine ⟨t, lims, r, ?_, inBlocks hnoted, hlim.partitioned, hent.registered hlim, hun⟩
    rw [hinit, hr]
    rfl

theorem buffersHold_iff : cfg.BuffersHold ↔ cfg.nodeNum = 1 := by
  have hn := cfg.nodeNum_pos
  constructor
  · intro h
    by_contra hne
    have := h 1 (by omega) (by omega)
    contradiction
  · intro hone v hv hv0
    omega

/-- The main coordinator registers every process exactly when there is no short group behind the first; that no
coordinator writes outside its buffer holds only when there is no other one. -/
theorem startup_registers (harr : Arrivals cfg order orders) : (cfg.Registered order orders ↔ FullGroups cfg.nodeNum) ∧
      (cfg.Registered order orders ∧ cfg.BuffersHold ↔ cfg.nodeNum = 1) := by
  refine ⟨registered_iff harr, ?_⟩
  rw [registered_iff harr, buffersHold_iff]
  constructor
  · exact fun h => h.2
  · intro hone
    refine ⟨?_, hone⟩
    rw [hone]
    decide

/-- Eight nodes of three processes each, which come in the reverse order. -/
def eightNodes : StartUp := ⟨8, fun _ => 3, fun v k => 100 * v + k, by decide⟩

theorem eightNodes_registered : eightNodes.Registered [7, 6, 5, 4, 3, 2, 1] fun _ => [3, 2, 1] := by
  have harr : Arrivals eightNodes [7, 6, 5, 4, 3, 2, 1] fun _ => [3, 2, 1] := by
    refine ⟨by decide, ?_⟩
    intro v hv hid hnid
    have hsize : ∀ v < 8, groupSize 8 v = 4 := by decide +kernel
    rw [show groupSize eightNodes.nodeNum v = 4 from hsize v hv]
    decide
  exact (startup_registers harr).1.mpr (by decide +kernel)

/-- With five nodes, the second group has one. The leader's round asks for the ranks of node 5, which there is not. -/
theorem fiveNodes_not_registered :
    ¬ (⟨5, fun _ => 1, fun v k => 100 * v + k, by decide⟩ : StartUp).Registered [1, 2, 3, 4] fun v =>
      range' 1 (groupSize 5 v - 1) := by
  intro h
  obtain ⟨t, lims, r, hinit, -⟩ := h
  have hnone : ((⟨5, fun _ => 1, fun v k => 100 * v + k, by decide⟩ : StartUp).init [1, 2, 3, 4] fun v =>
      range' 1 (groupSize 5 v - 1)).isSome = false := by decide +kernel
  rw [hinit] at hnone
  contradiction

end StartUp

end ParepMpi
