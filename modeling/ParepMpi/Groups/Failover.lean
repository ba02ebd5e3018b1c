import ParepMpi.Groups.Layout
import ParepMpi.Groups.Leader

/-!
# Members agree on their leader

The leader of a group only moves up, and everybody below it is lost.
-/

namespace ParepMpi

open List Option Function NodeGroups

namespace Leaders

variable {cfg : NodeGroups} {s t : Leaders} {g h i j l : Nat}

structure GroupInv (cfg : NodeGroups) (s : Leaders) (g l : Nat) : Prop where
  leader : ∀ i < cfg.size g, s.leaderNodeids (cfg.node g i) = l
  bounded : l < cfg.size g
  below : ∀ i < l, s.lost (cfg.node g i) = true
  believes : ∀ i < cfg.size g, s.believed (cfg.node g i) ≤ l
  agreed : ∀ a, (g, a, false) ∈ s.given → a = l
  /-- When a member has been with the leader and finds it gone, it was lost after all answers that name it. -/
  parted : s.lost (cfg.node g l) = true → ∀ i < cfg.size g, s.connected (cfg.node g i) = true →
    s.believed (cfg.node g i) = l → (g, l, false) ∉ s.given

structure Inv (cfg : NodeGroups) (s : Leaders) : Prop where
  known : ∀ v, s.daemonState v = .terminated → s.lost v = true
  waiting : ∀ v ∈ s.pending, s.lost v = true
  groups : ∀ g, 0 < cfg.size g → ∃ l, GroupInv cfg s g l

theorem Inv.init : Inv cfg init where
  known := by
    intro v hv
    contradiction
  waiting := by
    intro v hv
    contradiction
  groups := fun g hg => ⟨0, fun _ _ => rfl, hg, by omega, fun _ _ => Nat.le_refl _, by simp [Leaders.init],
    by simp [Leaders.init]⟩

theorem GroupInv.congr (hinv : GroupInv cfg s g l)
    (hleader : ∀ i < cfg.size g, t.leaderNodeids (cfg.node g i) = s.leaderNodeids (cfg.node g i))
    (hlost : ∀ i < cfg.size g, s.lost (cfg.node g i) = true → t.lost (cfg.node g i) = true)
    (hbelieved : ∀ i < cfg.size g, t.believed (cfg.node g i) = s.believed (cfg.node g i))
    (hgiven : ∀ a, (g, a, false) ∈ t.given → (g, a, false) ∈ s.given)
    (hparted : t.lost (cfg.node g l) = true → (∃ i < cfg.size g, t.connected (cfg.node g i) = true ∧
        s.believed (cfg.node g i) = l) → (g, l, false) ∈ t.given →
      s.lost (cfg.node g l) = true ∧ ∃ i < cfg.size g, s.connected (cfg.node g i) = true ∧
        s.believed (cfg.node g i) = l) : GroupInv cfg t g l where
  leader := by
    intro i hi
    rw [hleader i hi]
    exact hinv.leader i hi
  bounded := hinv.bounded
  below := by
    intro i hi
    exact hlost i (Nat.lt_trans hi hinv.bounded) (hinv.below i hi)
  believes := by
    intro i hi
    rw [hbelieved i hi]
    exact hinv.believes i hi
  agreed := fun a ha => hinv.agreed a (hgiven a ha)
  parted := by
    intro hl i hi hconn hbel hmem
    rw [hbelieved i hi] at hbel
    obtain ⟨hold, j, hj, hjconn, hjbel⟩ := hparted hl ⟨i, hi, hconn, hbel⟩ hmem
    exact hinv.parted hold j hj hjconn hjbel (hgiven l hmem)

theorem GroupInv.elsewhere {a : Nat} {tbl : Nat → Nat} (hl : GroupInv cfg s h l) (hi : i < cfg.size g) (hne : h ≠ g)
    (htbl : ∀ j < cfg.size h, tbl (cfg.node h j) = s.leaderNodeids (cfg.node h j)) :
    GroupInv cfg (s.answered cfg g i a tbl) h l := by
  have hnode {j : Nat} (hj : j < cfg.size h) : cfg.node h j ≠ cfg.node g i := fun heq => hne (node_inj hj hi heq).1
  refine hl.congr htbl (fun _ _ hlost => hlost) ?_ ?_ ?_
  · intro j hj
    exact update_of_ne (hnode hj) _ _
  · intro b hmem
    rcases mem_append.mp hmem with hmem | hmem
    · exact hmem
    · exact absurd (congrArg Prod.fst (mem_singleton.mp hmem)) hne
  · intro hlost hconn _
    obtain ⟨j, hj, hjconn, hjbel⟩ := hconn
    refine ⟨hlost, j, hj, ?_, hjbel⟩
    simp only [answered] at hjconn
    rwa [update_of_ne (hnode hj)] at hjconn

namespace Inv

variable (hinv : Inv cfg s)

include hinv

theorem lose (hi : i < cfg.size g) (hstep : s.step cfg (.lose g i) = some t) : Inv cfg t := by
  obtain ⟨-, heq⟩ := ite_none_right_eq_some.mp hstep
  obtain rfl := some_inj.mp heq
  have hmono : ∀ v, s.lost v = true → update s.lost (cfg.node g i) true v = true := by
    intro v hv
    by_cases hvi : v = cfg.node g i
    · rw [hvi, update_self]
    · rwa [update_of_ne hvi]
  refine ⟨fun v hv => hmono v (hinv.known v hv), fun v hv => hmono v (hinv.waiting v hv), ?_⟩
  intro h hh
  obtain ⟨l, hl⟩ := hinv.groups h hh
  refine ⟨l, hl.congr (fun _ _ => rfl) (fun _ _ => hmono _) (fun _ _ => rfl) ?_ ?_⟩
  · intro a hmem
    obtain ⟨e, he, heq⟩ := mem_map.mp hmem
    split at heq
    · simp at heq
    · rwa [← heq]
  · intro hlost hconn hmem
    refine ⟨?_, hconn⟩
    by_cases hnode : cfg.node h l = cfg.node g i
    · -- the answers that name the lost node have been marked
      obtain ⟨rfl, rfl⟩ := node_inj hl.bounded hi hnode
      obtain ⟨e, he, heq⟩ := mem_map.mp hmem
      split at heq
      · simp at heq
      · rename_i hother
        rw [heq] at hother
        exact absurd ⟨rfl, rfl⟩ hother
    · dsimp only at hlost
      rwa [update_of_ne hnode] at hlost

theorem markTerminated {v : Nat} {pending : List Nat} (hv : s.lost v = true) (hsub : pending ⊆ s.pending) :
    Inv cfg { s with daemonState := update s.daemonState v .terminated, pending := pending } where
  known := by
    intro w hw
    dsimp only at hw
    by_cases hwv : w = v
    · rwa [hwv]
    · rw [update_of_ne hwv] at hw
      exact hinv.known w hw
  waiting := fun w hw => hinv.waiting w (hsub hw)
  groups := by
    intro h hh
    obtain ⟨l, hl⟩ := hinv.groups h hh
    exact ⟨l, hl.congr (fun _ _ => rfl) (fun _ _ hlost => hlost) (fun _ _ => rfl) (fun _ hmem => hmem)
      fun hlost hconn _ => ⟨hlost, hconn⟩⟩

theorem connect (hi : i < cfg.size g) (hlives : s.lost (cfg.node g (s.believed (cfg.node g i))) = false) :
    Inv cfg { s with connected := update s.connected (cfg.node g i) true } where
  known := hinv.known
  waiting := hinv.waiting
  groups := by
    intro h hh
    obtain ⟨l, hl⟩ := hinv.groups h hh
    refine ⟨l, hl.congr (fun _ _ => rfl) (fun _ _ hlost => hlost) (fun _ _ => rfl) (fun _ hmem => hmem) ?_⟩
    intro hlost hconn _
    obtain ⟨j, hj, hjconn, hjbel⟩ := hconn
    refine ⟨hlost, j, hj, ?_, hjbel⟩
    by_cases hnode : cfg.node h j = cfg.node g i
    · -- a member connects to a leader that lives
      obtain ⟨rfl, rfl⟩ := node_inj hj hi hnode
      rw [hjbel, hlost] at hlives
      contradiction
    · dsimp only at hjconn
      rwa [update_of_ne hnode] at hjconn

theorem search (hasks : s.Asks cfg g i) (hl : GroupInv cfg s g l) (hbel : s.believed (cfg.node g i) = l) :
    ∃ a, s.handleGetNgroupLeader cfg g i (s.believed (cfg.node g i)) =
        some (a, fun j => if cfg.offset g ≤ j ∧ j < cfg.offset g + cfg.size g then a else s.leaderNodeids j) ∧
      l < a ∧ a ≤ i ∧ s.daemonState (cfg.node g a) ≠ .terminated ∧
      ∀ j, l < j → j < a → s.daemonState (cfg.node g j) = .terminated := by
  obtain ⟨-, hi, hlives, -, hgone⟩ := hasks
  have hrunning : s.daemonState (cfg.node g i) ≠ .terminated := by
    intro hterm
    rw [hinv.known _ hterm] at hlives
    contradiction
  have hlt : l < i := by
    rcases Nat.lt_trichotomy l i with hlt | rfl | hlt
    · exact hlt
    · rw [hbel, hlives] at hgone
      contradiction
    · rw [hl.below i hlt] at hlives
      contradiction
  have hfuel : i < l + 1 + cfg.size g := by omega
  obtain ⟨a, ha, hlow, hhigh, hstate, hbetween⟩ := searchLeader_spec hlt hi hrunning hfuel
  refine ⟨a, ?_, hlow, hhigh, hstate, hbetween⟩
  have hcur : s.leaderNodeids (cfg.offset g + i) = l := hl.leader i hi
  simp only [handleGetNgroupLeader, hbel, hcur, if_true, ha, bind_eq_bind, bind_some]

theorem request (htimely : s.Timely cfg (.request g i)) (hstep : s.step cfg (.request g i) = some t) : Inv cfg t := by
  obtain ⟨hasks, hstep⟩ := ite_none_right_eq_some.mp hstep
  obtain ⟨⟨a, tbl⟩, hanswer, heq⟩ := bind_eq_some_iff.mp hstep
  obtain rfl := some_inj.mp heq
  obtain ⟨-, hi, hlives, hconn, hgone⟩ := id hasks
  refine ⟨hinv.known, ?_, ?_⟩
  · intro v hv
    simp only [answered] at hv
    split at hv
    · rcases mem_append.mp hv with hv | hv
      · exact hinv.waiting v hv
      · rw [mem_singleton.mp hv]
        exact hgone
    · exact hinv.waiting v hv
  · intro h hh
    obtain ⟨l, hl⟩ := hinv.groups h hh
    by_cases hbel : s.believed (cfg.node g i) = s.leaderNodeids (cfg.node g i)
    · by_cases hhg : h = g
      · subst hhg
        -- the leader is moved on
        rw [hl.leader i hi] at hbel
        obtain ⟨b, hb, hlt, hle, hstate, hbetween⟩ := hinv.search hasks hl hbel
        obtain ⟨rfl, rfl⟩ := Prod.mk.inj (some_inj.mp (hanswer.symm.trans hb))
        rw [hbel] at hgone
        refine ⟨a, ?_, by omega, ?_, ?_, ?_, ?_⟩
        · intro j hj
          exact if_pos ⟨Nat.le_add_right _ _, Nat.add_lt_add_left hj _⟩
        · intro j hj
          rcases Nat.lt_trichotomy j l with hjl | rfl | hjl
          · exact hl.below j hjl
          · exact hgone
          · exact hinv.known _ (hbetween j hjl hj)
        · intro j hj
          by_cases hnode : cfg.node h j = cfg.node h i
          · rw [hnode]
            exact Nat.le_of_eq (update_self _ _ _)
          · have := hl.believes j hj
            exact Nat.le_trans (Nat.le_of_eq (update_of_ne hnode _ _)) (by omega)
        · intro x hmem
          rcases mem_append.mp hmem with hmem | hmem
          · rw [hl.agreed x hmem] at hmem
            exact absurd hmem (hl.parted hgone i hi hconn hbel)
          · exact congrArg (fun e => e.2.1) (mem_singleton.mp hmem)
        · intro _ j hj hjconn hjbel
          -- only the member that has just asked knows the new leader
          simp only [answered] at hjconn hjbel
          by_cases hnode : cfg.node h j = cfg.node h i
          · rw [hnode, update_self] at hjconn
            contradiction
          · rw [update_of_ne hnode] at hjbel
            have := hl.believes j hj
            omega
      · obtain ⟨l', hl'⟩ := hinv.groups g (by omega)
        rw [hl'.leader i hi] at hbel
        obtain ⟨b, hb, -⟩ := hinv.search hasks hl' hbel
        obtain ⟨rfl, rfl⟩ := Prod.mk.inj (some_inj.mp (hanswer.symm.trans hb))
        refine ⟨l, hl.elsewhere hi hhg ?_⟩
        intro j hj
        refine if_neg ?_
        intro hin
        have heq : cfg.node h j = cfg.node g (cfg.node h j - cfg.offset g) := by
          unfold NodeGroups.node at hin ⊢
          omega
        exact hhg (node_inj hj (by omega) heq).1
    · have hkeep : s.handleGetNgroupLeader cfg g i (s.believed (cfg.node g i)) =
          some (s.leaderNodeids (cfg.node g i), s.leaderNodeids) := if_neg hbel
      obtain ⟨rfl, rfl⟩ := Prod.mk.inj (some_inj.mp (hanswer.symm.trans hkeep))
      refine ⟨l, ?_⟩
      by_cases hhg : h = g
      · subst hhg
        have hlost : s.lost (cfg.node h l) = false := by
          rw [← hl.leader i hi]
          exact htimely.resolve_left hbel
        refine ⟨hl.leader, hl.bounded, hl.below, ?_, ?_, ?_⟩
        · intro j hj
          by_cases hnode : cfg.node h j = cfg.node h i
          · rw [hnode]
            exact Nat.le_of_eq ((update_self _ _ _).trans (hl.leader i hi))
          · exact Nat.le_trans (Nat.le_of_eq (update_of_ne hnode _ _)) (hl.believes j hj)
        · intro x hmem
          rcases mem_append.mp hmem with hmem | hmem
          · exact hl.agreed x hmem
          · exact (congrArg (fun e => e.2.1) (mem_singleton.mp hmem)).trans (hl.leader i hi)
        · intro hl'
          exact absurd (hl'.symm.trans hlost) (by decide)
      · exact hl.elsewhere hi hhg fun _ _ => rfl

theorem step {e : LeaderEvent} (htimely : s.Timely cfg e) (hstep : s.step cfg e = some t) : Inv cfg t := by
  cases e with
  | lose g i => exact hinv.lose (ite_none_right_eq_some.mp hstep).1 hstep
  | notice g i =>
    obtain ⟨hlost, heq⟩ := ite_none_right_eq_some.mp hstep
    obtain rfl := some_inj.mp heq
    exact hinv.markTerminated hlost.2 fun _ hv => hv
  | request g i => exact hinv.request htimely hstep
  | connect g i =>
    obtain ⟨henabled, heq⟩ := ite_none_right_eq_some.mp hstep
    obtain rfl := some_inj.mp heq
    exact hinv.connect henabled.1 henabled.2.2
  | register k =>
    obtain ⟨v, hv, heq⟩ := bind_eq_some_iff.mp hstep
    obtain rfl := some_inj.mp heq
    exact hinv.markTerminated (hinv.waiting v (mem_of_getElem? hv)) (eraseIdx_sublist _ _).subset

theorem answered_iff (hasks : s.Asks cfg g i) (htimely : s.Timely cfg (.request g i)) :
    s.Answered cfg g i ↔ ¬ s.TakesOver cfg g i := by
  obtain ⟨-, hi, -, hconn, hgone⟩ := id hasks
  obtain ⟨l, hl⟩ := hinv.groups g (by omega)
  have hsize : cfg.size g < 2 ^ 31 := by
    unfold NodeGroups.size at hi ⊢
    rw [getD_eq_getElem?_getD] at hi ⊢
    cases hget : cfg.sizes[g]? with
    | none =>
      rw [hget, getD_none] at hi
      omega
    | some m => exact cfg.size_lt m (mem_of_getElem? hget)
  have hcur := hl.leader i hi
  -- the answer, and everything but the messages
  obtain ⟨a, tbl, hanswer, ha, hstate, hne, hagreed, htakes⟩ : ∃ a tbl,
      s.handleGetNgroupLeader cfg g i (s.believed (cfg.node g i)) = some (a, tbl) ∧ a < cfg.size g ∧
      s.daemonState (cfg.node g a) ≠ .terminated ∧ a ≠ s.believed (cfg.node g i) ∧
      (∀ x, (g, x, false) ∈ s.given → x = a) ∧ (s.TakesOver cfg g i ↔ i = a) := by
    unfold TakesOver
    by_cases hbel : s.believed (cfg.node g i) = s.leaderNodeids (cfg.node g i)
    · rw [if_pos hbel, hcur]
      rw [hcur] at hbel
      obtain ⟨a, ha, hlt, hle, hstate, hbetween⟩ := hinv.search hasks hl hbel
      refine ⟨a, _, ha, by omega, hstate, by omega, ?_, ?_, ?_⟩
      · intro x hmem
        rw [hl.agreed x hmem] at hmem
        rw [hbel] at hgone
        exact absurd hmem (hl.parted hgone i hi hconn hbel)
      · intro hall
        by_contra hia
        exact hstate (hall a (by omega) hlt)
      · rintro rfl
        exact fun j hj hlj => hbetween j hlj hj
    · rw [if_neg hbel, hcur]
      rw [hcur] at hbel
      have hlives : s.lost (cfg.node g l) = false := by
        rw [← hcur] at hbel ⊢
        exact htimely.resolve_left hbel
      refine ⟨l, s.leaderNodeids, ?_, hl.bounded, ?_, Ne.symm hbel, hl.agreed, Iff.rfl⟩
      · rw [← hcur] at hbel ⊢
        exact if_neg hbel
      · intro hterm
        rw [hinv.known _ hterm] at hlives
        contradiction
  rw [htakes]
  constructor
  · intro hgood hia
    subst hia
    obtain ⟨b, tbl', hb, -, -, -, -, msg, hmsg, -⟩ := hgood
    obtain ⟨rfl, -⟩ := Prod.mk.inj (some_inj.mp (hanswer.symm.trans hb))
    obtain ⟨msg', rest, hrest, hlen⟩ := receive_leader (s := s) ha hsize
    rw [hrest] at hmsg
    obtain ⟨-, rfl⟩ := Prod.mk.inj (some_inj.mp hmsg)
    rw [length_nil] at hlen
    omega
  · intro hia
    exact ⟨a, tbl, hanswer, ha, hstate, hne, hagreed, receive_member (by omega) hia⟩

end Inv

theorem inv_of_run {es : List LeaderEvent} (hguard : Guarded (step cfg) (Timely cfg) init es)
    (hrun : runEvents (step cfg) init es = some s) : Inv cfg s :=
  hguard.invariant hrun .init fun hs => hs.step

/-- When members that know an old leader ask while the present one lives, an answer is good exactly when the member that
asks is not the new leader. -/
theorem leader_failover {es : List LeaderEvent} (hguard : Guarded (step cfg) (Timely cfg) init es)
    (hrun : runEvents (step cfg) init es = some s) (hasks : s.Asks cfg g i) (htimely : s.Timely cfg (.request g i)) :
    s.Answered cfg g i ↔ ¬ s.TakesOver cfg g i :=
  (inv_of_run hguard hrun).answered_iff hasks htimely

/-- The groups of seventeen nodes. -/
def threeGroups : NodeGroups where
  sizes := [8, 8, 1]
  addr := fun _ => replicate 16 0
  ipText := fun _ => replicate 256 0
  nodeSize := fun _ => 1
  size_lt := by decide
  addr_length := fun _ => length_replicate
  ipText_length := fun _ => length_replicate

example : ((List.range (groupNum 17)).map fun g => groupSize 17 (g * groupSizeMax 17)) = threeGroups.sizes := by
  decide +kernel

/-- The leader is lost, another member gets the next one and is with it. -/
def leaderLost : List LeaderEvent := [.lose 1 0, .request 1 2, .connect 1 2]

theorem leaderLost_answered : ∃ s, Guarded (step threeGroups) (Timely threeGroups) init leaderLost ∧
    runEvents (step threeGroups) init leaderLost = some s ∧ s.Asks threeGroups 1 3 ∧ s.Answered threeGroups 1 3 := by
  have hguard : Guarded (step threeGroups) (Timely threeGroups) init leaderLost := by decide +kernel
  obtain ⟨s, hs, hasks, htimely, htakes⟩ : ∃ s, runEvents (step threeGroups) init leaderLost = some s
      ∧ s.Asks threeGroups 1 3 ∧ s.Timely threeGroups (.request 1 3) ∧ ¬ s.TakesOver threeGroups 1 3 := by
    decide +kernel
  exact ⟨s, hguard, hs, hasks, (leader_failover hguard hs hasks htimely).mpr htakes⟩

/-- The new leader asks too, and is lost after a member has connected to it. -/
def secondLost : List LeaderEvent :=
  [.lose 1 0, .request 1 1, .request 1 2, .connect 1 2, .lose 1 1, .request 1 3, .request 1 2]

/-- To the new leader twelve bytes a node are written that it does not read; and after a second loss two members that
know the same leader get different answers. -/
theorem failover_fails :
    (∃ s, runEvents (step threeGroups) init [.lose 1 0] = some s ∧ s.Asks threeGroups 1 1 ∧ ¬ s.Answered threeGroups 1 1) ∧
      ∃ s, runEvents (step threeGroups) init secondLost = some s ∧ s.Asks threeGroups 1 4 ∧ ¬ s.TakesOver threeGroups 1 4 ∧
        ¬ s.Answered threeGroups 1 4 := by
  refine ⟨?_, ?_⟩
  · obtain ⟨s, hs, hasks, htimely, htakes⟩ : ∃ s, runEvents (step threeGroups) init [.lose 1 0] = some s
        ∧ s.Asks threeGroups 1 1 ∧ s.Timely threeGroups (.request 1 1) ∧ s.TakesOver threeGroups 1 1 := by
      decide +kernel
    have hinv := inv_of_run (show Guarded (step threeGroups) (Timely threeGroups) init [.lose 1 0] by decide +kernel) hs
    exact ⟨s, hs, hasks, fun hgood => (hinv.answered_iff hasks htimely).mp hgood htakes⟩
  · obtain ⟨s, hs, hasks, htakes, hgiven, hanswer⟩ : ∃ s, runEvents (step threeGroups) init secondLost = some s
        ∧ s.Asks threeGroups 1 4 ∧ ¬ s.TakesOver threeGroups 1 4 ∧ (1, 1, false) ∈ s.given
        ∧ (s.handleGetNgroupLeader threeGroups 1 4 (s.believed (threeGroups.node 1 4))).map Prod.fst = some 2 := by
      decide +kernel
    refine ⟨s, hs, hasks, htakes, ?_⟩
    intro hgood
    obtain ⟨a, tbl, ha, -, -, -, hagreed, -⟩ := hgood
    rw [ha, map_some, some_inj] at hanswer
    exact absurd ((hagreed 1 hgiven).trans hanswer) (by decide)

end Leaders

end ParepMpi
