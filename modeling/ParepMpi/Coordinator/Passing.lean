import ParepMpi.Coordinator.Failures

/-!
# Notices and releases on their way

The main coordinator announces failures to the daemons, and the daemons pass on what they read.
-/

namespace ParepMpi

open Option Function List Coordinator Coordinators DaemonMsg

namespace Coordinators

variable {l : Nodes} {s s' : Coordinators} {c : Coordinator} {r v w : Nat}

theorem informCheck_announce (w : Nat) : (c.announce r).informCheck w = (c.informCheck w || w == r) := by
  unfold Coordinator.announce
  split
  · rename_i hcheck
    exact (or_beq_of_true hcheck w).symm
  · exact update_true w

theorem sameEpisode_markInformed : s.SameEpisode (s.markInformed l r) ∧ (s.markInformed l r).updates = s.updates ∧
    (s.markInformed l r).queue = s.queue ∧ (s.markInformed l r).released = s.released := by
  unfold markInformed
  split
  all_goals exact ⟨⟨rfl, rfl, rfl, rfl, rfl, rfl⟩, rfl, rfl, rfl⟩

theorem markInformed_node (h : s.noticed r = false) :
    (s.markInformed l r).node = Function.update s.node 0 { s.node 0 with
      informCheck := Function.update (s.node 0).informCheck r true
      numInformFailed := (s.node 0).numInformFailed + 1 } ∧
    (s.markInformed l r).informNode = Function.update s.informNode (l.nodeOf r) (s.informNode (l.nodeOf r) + 1) ∧
    (s.markInformed l r).informGroup =
      Function.update s.informGroup (l.leader (l.nodeOf r)) (s.informGroup (l.leader (l.nodeOf r)) + 1) := by
  have hraw : ¬ (s.node 0).informCheck r = true := Bool.not_eq_true _ ▸ h
  rw [markInformed, if_neg hraw]
  exact ⟨by rw [Coordinator.announce, if_neg hraw]; rfl, rfl, rfl⟩

theorem noticed_markInformed (w : Nat) : (s.markInformed l r).noticed w = (s.noticed w || w == r) := by
  cases hcheck : s.noticed r
  · rw [noticed, (markInformed_node hcheck).1, update_self]
    exact update_true w
  · rw [markInformed, if_pos (show (s.node 0).informCheck r = true from hcheck), or_beq_of_true hcheck]

theorem BarrierInv.markInformed (h : s.BarrierInv l) (hidle : (s.node 0).phase = .idle) (hr : r < l.size)
    (hknown : s.known r = true) : (s.markInformed l r).BarrierInv l := by
  cases hcheck : s.noticed r
  swap
  · rwa [Coordinators.markInformed, if_pos (show (s.node 0).informCheck r = true from hcheck)]
  obtain ⟨hep, hupdates, hqueue, hrel⟩ := sameEpisode_markInformed (l := l) (s := s) (r := r)
  obtain ⟨hnode, hinformNode, hinformGroup⟩ := markInformed_node (l := l) hcheck
  have hnoticed := noticed_markInformed (l := l) (s := s) (r := r)
  generalize s.markInformed l r = s' at *
  have hcounts : ∀ w, SameCounts (s.node w) (s'.node w) := sameCounts_update hnode ⟨Iff.rfl, rfl, rfl, rfl, rfl, rfl⟩
  have hterm : ∀ w, (s'.node w).terminated = (s.node w).terminated := update_field hnode terminated rfl
  have hdead : s'.dead l = s.dead l := dead_congr hterm
  have hknown' : s'.known = s.known := known_congr hterm
  have hclosed : ¬ s.IsOpen 0 := fun hopen => hopen hidle
  have hnot : s.counted r = false := by
    by_contra hc
    have hc : s.counted r = true := by simpa using hc
    by_cases hzero : l.nodeOf r = 0
    · rw [(h.main.idle hidle).1 r hr hzero] at hc
      contradiction
    · exact hclosed (h.counts.late r hr hc (h.deaths.known_dead r hr hknown) hzero).1
  have hinsert : ∀ p : Nat → Bool, p r = true →
      tally (fun w => p w && s'.noticed w) l.size = tally (fun w => p w && s.noticed w) l.size + 1 := by
    intro p hp
    simp only [hnoticed]
    exact tally_and_insert hr hp hcheck
  have hsame : ∀ p : Nat → Bool, p r = false →
      tally (fun w => p w && s'.noticed w) l.size = tally (fun w => p w && s.noticed w) l.size := by
    intro p hp
    simp only [hnoticed]
    exact tally_and_insert_of_not hp
  refine ⟨?_, h.clients.congr ⟨hep.episodes, hep.arrived, hrel, hqueue⟩ fun w _ hw => by rwa [hdead] at hw, ?_, ?_,
    fun v hv => (h.nodes v hv).congr (hcounts v) hep.node fun w _ _ => by rw [hdead], hep.mail h.mail, ?_⟩
  · refine ⟨?_, ?_, ?_, ?_, ?_, ?_, ?_, ?_, ?_, ?_, ?_⟩
    · rw [hknown', hdead]
      exact h.deaths.known_dead
    · rw [hknown', hdead, hupdates]
      exact h.deaths.heard
    · rw [hdead, hupdates]
      exact h.deaths.updates
    · intro w hw hn
      rw [hnoticed, Bool.or_eq_true] at hn
      rw [hknown']
      rcases hn with hn | heq
      · exact h.deaths.noticed_known w hw hn
      · rwa [beq_iff_eq.mp heq]
    · intro w hw hc
      by_cases hzero : l.nodeOf w = 0
      · rwa [hzero] at hc
      · rw [hnode, update_of_ne hzero] at hc
        rw [hnoticed, h.deaths.told w hw hc, Bool.true_or]
    · intro v ranks hmem w hw
      rw [hqueue] at hmem
      obtain ⟨hlt, hn⟩ := h.deaths.notices v ranks hmem w hw
      rw [hnoticed, hn, Bool.true_or]
      exact ⟨hlt, rfl⟩
    · intro v
      rw [hterm, update_field hnode numFailed rfl]
      exact h.deaths.numFailed v
    · intro v
      by_cases hv : v = 0
      · subst hv
        rw [show (s'.node 0).numInformFailed = (s.node 0).numInformFailed + 1 by rw [hnode, update_self],
          h.deaths.numInform 0]
        exact (hinsert (l.watches 0) rfl).symm
      · rw [hnode, update_of_ne hv]
        exact h.deaths.numInform v
    · intro v
      rw [hinformNode]
      by_cases hv : l.nodeOf r = v
      · subst hv
        rw [update_self, h.deaths.informNode, hinsert _ (by simp)]
      · rw [update_of_ne (Ne.symm hv), h.deaths.informNode, hsame _ (by simp [hv])]
    · intro v
      rw [hinformGroup]
      by_cases hv : l.leader (l.nodeOf r) = v
      · subst hv
        rw [update_self, h.deaths.informGroup, hinsert _ (by simp)]
      · rw [update_of_ne (Ne.symm hv), h.deaths.informGroup, hsame _ (by simp [hv])]
    · rw [hdead]
      exact h.deaths.alive
  · refine ⟨?_, ?_, ?_, ?_⟩
    · intro w hw hc
      rw [hep.counted] at hc
      have hne : w ≠ r := fun heq => by rw [heq, hnot] at hc; contradiction
      rw [hnoticed, or_beq_of_ne hne, hep.arrived, hep.episodes]
      exact h.counts.counted w hw hc
    · rw [hdead, hep.arrived, hep.episodes, hep.counted]
      exact h.counts.live
    · intro w hw hout
      rw [hep.struck] at hout
      exact absurd (h.counts.struck w hw hout).2.2.2 hclosed
    · intro w hw hc hd hzero
      rw [hdead] at hd
      rw [hep.counted] at hc
      exact absurd (h.counts.late w hw hc hd hzero).1 hclosed
  · exact update_forall hnode ((h.waiting 0).congr rfl rfl rfl rfl rfl) fun w _ => h.waiting w
  · have hclosed' : ¬ s'.IsOpen 0 := fun hopen => hopen ((hcounts 0).phase.mpr hidle)
    refine ⟨?_, fun hopen => absurd hopen hclosed', fun hopen => absurd hopen hclosed',
      fun hopen => absurd hopen hclosed'⟩
    intro _
    rw [hep.counted, hep.given]
    exact h.main.idle hidle

theorem markInformed_main : ((s.markInformed l r).node 0).phase = (s.node 0).phase ∧
    (s.markInformed l r).known = s.known := by
  cases hcheck : s.noticed r
  · obtain ⟨hnode, -, -⟩ := markInformed_node (l := l) hcheck
    exact ⟨update_field hnode phase rfl 0, known_congr (update_field hnode terminated rfl)⟩
  · rw [markInformed, if_pos (show (s.node 0).informCheck r = true from hcheck)]
    exact ⟨rfl, rfl⟩

theorem BarrierInv.markAll (h : s.BarrierInv l) (hidle : (s.node 0).phase = .idle) (ranks : List Nat)
    (hranks : ∀ r ∈ ranks, r < l.size ∧ s.known r = true) :
    (ranks.foldl (Coordinators.markInformed l) s).BarrierInv l ∧
      (ranks.foldl (Coordinators.markInformed l) s).queue = s.queue ∧
      ∀ r, s.noticed r = true ∨ r ∈ ranks → (ranks.foldl (Coordinators.markInformed l) s).noticed r = true := by
  induction ranks generalizing s with
  | nil => exact ⟨h, rfl, fun r hr => hr.resolve_right (by simp)⟩
  | cons r ranks ih =>
    obtain ⟨-, -, hqueue, -⟩ := sameEpisode_markInformed (l := l) (s := s) (r := r)
    obtain ⟨hphase, hknown⟩ := markInformed_main (l := l) (s := s) (r := r)
    have hnoticed := noticed_markInformed (l := l) (s := s) (r := r)
    obtain ⟨hr, hkr⟩ := hranks r mem_cons_self
    obtain ⟨hinv, hqueue', hall⟩ := ih (h.markInformed hidle hr hkr) (hphase.trans hidle) fun w hw => by
      rw [hknown]
      exact hranks w (mem_cons_of_mem _ hw)
    refine ⟨hinv, hqueue'.trans hqueue, ?_⟩
    intro w hw
    apply hall
    rw [hnoticed, Bool.or_eq_true]
    rcases hw with hw | hw
    · exact .inl (.inl hw)
    · rcases mem_cons.mp hw with heq | hw
      · exact .inl (.inr (beq_iff_eq.mpr heq))
      · exact .inr hw

theorem coming_sendDaemons {m : DaemonMsg} {p : DaemonMsg → Bool} (hv : v ≠ 0) (hlt : v < l.nodeNum) :
    (s.sendDaemons l m).coming l p v = s.coming l p v + if p m then 1 else 0 := by
  unfold coming sendDaemons
  rw [if_neg hv, if_neg hv]
  dsimp only
  by_cases hdirect : l.leader v = 0 ∨ l.leader v = v
  · have hnot : l.follows v = false := by
      unfold Nodes.follows
      rcases hdirect with h | h
      all_goals simp [h]
    rw [if_pos ⟨hv, hlt, hdirect⟩, hnot, countP_append, countP_singleton]
    simp
  · obtain ⟨hzero, hself⟩ := not_or.mp hdirect
    have hfollows : l.follows v = true := by simp [Nodes.follows, hzero, hself]
    rw [if_neg fun h => hdirect h.2.2, hfollows, if_pos rfl, if_pos rfl,
      if_pos ⟨hzero, l.leader_lt v hlt, .inr (l.leader_leader v)⟩, countP_append, countP_singleton]
    omega

theorem mem_sendDaemons {m m' : DaemonMsg} (h : m' ∈ (s.sendDaemons l m).queue v) : m' ∈ s.queue v ∨ m' = m := by
  unfold sendDaemons at h
  dsimp only at h
  split at h
  · simpa using h
  · exact .inl h

variable {ranks : List Nat} {q : List DaemonMsg}

theorem BarrierInv.announce (h : s.BarrierInv l) (hs : s.announce l ranks = some s')
    (hread : ∀ v < l.nodeNum, ∀ m ∈ s.queue v, m.isNotice = false) : s'.BarrierInv l := by
  unfold Coordinators.announce at hs
  dsimp only at hs
  split at hs
  swap
  · contradiction
  rename_i hcond
  obtain ⟨-, hranks, hlock, -⟩ := hcond
  obtain rfl := some_inj.mp hs
  have hidle : (s.node 0).phase = .idle := by
    by_contra hopen
    exact hlock (h.main.lock hopen)
  obtain ⟨hinv, hqueue, hall⟩ := h.markAll hidle ranks fun r hr => ⟨(hranks r hr).1, (hranks r hr).2.1⟩
  generalize ranks.foldl (Coordinators.markInformed l) s = t at hinv hqueue hall
  have hnone : ∀ v < l.nodeNum, (t.queue v).countP isNotice = 0 := by
    intro v hv
    rw [hqueue, countP_eq_zero]
    intro m hm
    rw [hread v hv m hm]
    decide
  refine hinv.frame ⟨rfl, rfl, rfl, rfl, rfl, rfl⟩ (fun v => SameCounts.refl _) rfl rfl rfl
    (hinv.deaths.congr ⟨fun _ => rfl, fun _ => rfl, fun _ => rfl, fun _ => rfl, rfl, rfl, rfl⟩ ?_) ?_ hinv.waiting
  · intro v ranks' hmem r hr
    rcases mem_sendDaemons hmem with hold | hnew
    · exact hinv.deaths.notices v ranks' hold r hr
    · injection hnew with hnew
      rw [hnew] at hr
      exact ⟨(hranks r hr).1, hall r (.inr hr)⟩
  · refine ⟨hinv.clients.released, hinv.clients.arrived, ?_, ?_⟩
    · intro r hr hlive
      have hcoming : (t.sendDaemons l (.notice ranks)).coming l isBarrier (l.nodeOf r) =
          t.coming l isBarrier (l.nodeOf r) := by
        by_cases hzero : l.nodeOf r = 0
        · simp [coming, hzero]
        · exact coming_sendDaemons hzero (l.rank_lt r hr)
      exact (congrArg (t.released r + ·) hcoming).trans (hinv.clients.passing r hr hlive)
    · intro v hv
      by_cases hzero : v = 0
      · simp [coming, hzero]
      · have hcoming : t.coming l isNotice v = 0 := by
          unfold coming
          rw [if_neg hzero, hnone v hv, hnone _ (l.leader_lt v hv)]
          simp
        have hsend := coming_sendDaemons (s := t) (m := .notice ranks) (p := isNotice) hzero hv
        rw [hcoming] at hsend
        exact le_of_eq hsend

section Passing

variable {m : DaemonMsg} {q : List DaemonMsg} {p : DaemonMsg → Bool}

theorem mem_sendGroup {m' : DaemonMsg} (h : m' ∈ (s.sendGroup l v m q).queue w) : m' ∈ s.queue w ∨ m' ∈ q ∨ m' = m := by
  unfold sendGroup at h
  dsimp only at h
  split at h
  · exact .inr (.inl h)
  · split at h
    · rcases mem_append.mp h with hold | hnew
      · exact .inl hold
      · exact .inr (.inr (mem_singleton.mp hnew))
    · exact .inl h

theorem coming_sendGroup_self (hv : v ≠ 0) (hcount : (s.queue v).countP p = q.countP p + if p m then 1 else 0) :
    (s.sendGroup l v m q).coming l p v + (if p m then 1 else 0) = s.coming l p v := by
  unfold coming sendGroup
  rw [if_neg hv, if_neg hv]
  dsimp only
  rw [if_pos rfl, hcount]
  by_cases hfollows : l.follows v = true
  · have hne : l.leader v ≠ v := by
      simp only [Nodes.follows, decide_eq_true_eq] at hfollows
      exact hfollows.1
    rw [if_pos hfollows, if_neg hne, if_neg fun h => hne (Nodes.leads_iff.mp h.1).2, if_pos hfollows]
    omega
  · rw [if_neg hfollows, if_neg hfollows]
    omega

theorem coming_sendGroup_of_ne (hv : v ≠ 0) (hw : w ≠ v) (hlt : w < l.nodeNum)
    (hcount : (s.queue v).countP p = q.countP p + if p m then 1 else 0) :
    (s.sendGroup l v m q).coming l p w = s.coming l p w := by
  unfold coming sendGroup
  dsimp only
  by_cases hzero : w = 0
  · rw [if_pos hzero, if_pos hzero]
  rw [if_neg hzero, if_neg hzero, if_neg hw]
  by_cases hgroup : l.leader w = v
  · have hself : l.leader v = v := by rw [← hgroup, l.leader_leader]
    have hfollows : l.follows w = true := by simp [Nodes.follows, hgroup, hv, Ne.symm hw]
    rw [if_pos ⟨Nodes.leads_iff.mpr ⟨hv, hself⟩, hlt, hgroup⟩, hfollows, if_pos rfl, if_pos rfl, if_pos hgroup, hgroup,
      countP_append, countP_singleton, hcount]
    omega
  · rw [if_neg fun h => hgroup h.2.2]
    by_cases hfollows : l.follows w = true
    · have hnot : ¬ (l.leads v = true ∧ l.leader w < l.nodeNum ∧ l.leader (l.leader w) = v) := by
        intro h
        rw [l.leader_leader] at h
        exact hgroup h.2.2
      rw [if_pos hfollows, if_pos hfollows, if_neg hgroup, if_neg hnot]
    · rw [if_neg hfollows, if_neg hfollows]

theorem Clients.notices_sendGroup (h : s.Clients l) (hv : v ≠ 0) (hlt : w < l.nodeNum) (hcount : (s.queue v).countP
    isNotice = q.countP isNotice + if m.isNotice then 1 else 0) :
    (s.sendGroup l v m q).coming l isNotice w ≤ 1 := by
  have hold := h.notices w hlt
  by_cases hwv : w = v
  · subst hwv
    have hself := coming_sendGroup_self (l := l) hv hcount
    omega
  · rwa [coming_sendGroup_of_ne hv hwv hlt hcount]

end Passing

theorem BarrierInv.passBarrier {b : Bool} (h : s.BarrierInv l) (hv : v ≠ 0) (hmem : ∀ m ∈ q, m ∈ s.queue v)
    (hcount : ∀ p : DaemonMsg → Bool, (s.queue v).countP p = q.countP p + if p (.barrier b) then 1 else 0) :
    (s.passBarrier l v b q).BarrierInv l := by
  generalize hs' : s.passBarrier l v b q = s'
  have hnode : s'.node = Function.update s.node v
      { s.node v with performingBarrier := false, barrierRunning := false } := by rw [← hs']; rfl
  have hdeaths : s.SameDeaths s' := by
    refine SameDeaths.of_update hnode rfl rfl rfl rfl ?_ ?_ ?_
    all_goals rw [← hs']; rfl
  have hqueue : s'.queue = (s.sendGroup l v (.barrier b) q).queue := by rw [← hs']; rfl
  have hep : s.SameEpisode s' := by
    rw [← hs']
    exact ⟨rfl, rfl, rfl, rfl, rfl, rfl⟩
  have hrel : ∀ r, s'.released r =
      if r < l.size ∧ l.nodeOf r = v ∧ ¬ (s.node v).terminated r then s.released r + 1 else s.released r := by
    intro r
    have hself : ((s.setNode v { s.node v with performingBarrier := false, barrierRunning := false }).node v).terminated =
        (s.node v).terminated := by simp [setNode]
    rw [← hs']
    simp only [Coordinators.passBarrier, releaseClients, sendGroup, hself]
    rfl
  refine h.frame hep (sameCounts_update hnode ⟨Iff.rfl, rfl, rfl, rfl, rfl, rfl⟩)
    (update_field hnode informLock rfl 0) hdeaths.dead hdeaths.noticed (h.deaths.congr hdeaths ?_) ?_
    (update_forall hnode ((h.waiting v).congr rfl rfl rfl rfl rfl) fun w _ => h.waiting w)
  · intro w ranks hmem'
    rw [hqueue] at hmem'
    rcases mem_sendGroup hmem' with hold | hold | hnew
    · exact h.deaths.notices w ranks hold
    · exact h.deaths.notices v ranks (hmem _ hold)
    · contradiction
  -- Each live process of the node is released from the episode before.
  · have hstep : ∀ r < l.size, s'.dead l r = false →
        s'.released r + s'.coming l isBarrier (l.nodeOf r) = s.episodes := by
      intro r hr hlive
      rw [hdeaths.dead] at hlive
      have hpass := h.clients.passing r hr hlive
      rw [coming_congr hqueue, hrel]
      by_cases hnode' : l.nodeOf r = v
      · have hterm : ¬ (s.node v).terminated r = true := by
          rw [← hnode']
          simpa [dead] using hlive
        have hself := coming_sendGroup_self (l := l) (m := .barrier b) hv (hcount isBarrier)
        rw [if_pos ⟨hr, hnode', hterm⟩, hnode']
        rw [hnode', ← hself] at hpass
        simp only [isBarrier, if_true] at hpass
        omega
      · rw [if_neg fun hc => hnode' hc.2.1, coming_sendGroup_of_ne hv hnode' (l.rank_lt r hr) (hcount _)]
        exact hpass
    refine ⟨?_, ?_, ?_, ?_⟩
    · intro r hr
      obtain ⟨h1, h2, h3⟩ := h.clients.released r hr
      rw [hep.arrived, hep.episodes]
      have hcase := hrel r
      split at hcase
      · rename_i hc
        have hlive : s.dead l r = false := by simpa [dead, hc.2.1] using hc.2.2
        have hup := h.clients.arrived r hr hlive
        have hle := hstep r hr (by rw [hdeaths.dead, hlive])
        omega
      · omega
    · rw [hdeaths.dead, hep.arrived, hep.episodes]
      exact h.clients.arrived
    · rw [hep.episodes]
      exact hstep
    · intro w hlt
      rw [coming_congr hqueue]
      exact h.clients.notices_sendGroup hv hlt (hcount _)


theorem numInform_announce (hr : r < l.size) (hwatch : l.watches v r = true)
    (h : c.numInformFailed = tally (fun r => l.watches v r && c.informCheck r) l.size) :
    (c.announce r).numInformFailed = tally (fun w => l.watches v w && (c.announce r).informCheck w) l.size := by
  simp only [informCheck_announce]
  cases hcheck : c.informCheck r
  · rw [tally_and_insert hr hwatch hcheck, ← h]
    simp [Coordinator.announce, hcheck]
  · simp only [or_beq_of_true hcheck]
    rw [show c.announce r = c by simp [Coordinator.announce, hcheck], h]

/-- A coordinator which differs from another only in the notices it has heard. -/
structure SameButNotices (c c' : Coordinator) : Prop where
  counts : SameCounts c c'
  phase : c'.phase = c.phase
  terminated : c'.terminated = c.terminated
  numFailed : c'.numFailed = c.numFailed
  informLock : c'.informLock = c.informLock

theorem announceAll (ranks : List Nat) (hranks : ∀ r ∈ ranks, r < l.size ∧ l.nodeOf r = v)
    (h : c.numInformFailed = tally (fun r => l.watches v r && c.informCheck r) l.size) :
    let c' := ranks.foldl (fun c r => c.announce r) c
    SameButNotices c c' ∧ c'.numInformFailed = tally (fun r => l.watches v r && c'.informCheck r) l.size ∧
      ∀ r, c'.informCheck r = true → c.informCheck r = true ∨ r ∈ ranks := by
  induction ranks generalizing c with
  | nil => exact ⟨⟨SameCounts.refl c, rfl, rfl, rfl, rfl⟩, h, fun r => .inl⟩
  | cons r ranks ih =>
    obtain ⟨hr, hnode⟩ := hranks r mem_cons_self
    have hone : SameButNotices c (c.announce r) := by
      unfold Coordinator.announce
      split
      · exact ⟨SameCounts.refl c, rfl, rfl, rfl, rfl⟩
      · exact ⟨⟨Iff.rfl, rfl, rfl, rfl, rfl, rfl⟩, rfl, rfl, rfl, rfl⟩
    obtain ⟨hsame, hnum, hcheck⟩ := ih (fun w hw => hranks w (mem_cons_of_mem _ hw))
      (numInform_announce hr (by simp [Nodes.watches, hnode]) h)
    refine ⟨⟨⟨?_, ?_, ?_, ?_, ?_, ?_⟩, ?_, ?_, ?_, ?_⟩, hnum, ?_⟩
    · exact hsame.counts.phase.trans hone.counts.phase
    · exact hsame.counts.count.trans hone.counts.count
    · exact hsame.counts.groupCount.trans hone.counts.groupCount
    · exact hsame.counts.reached.trans hone.counts.reached
    · exact hsame.counts.localReached.trans hone.counts.localReached
    · exact hsame.counts.recvRank.trans hone.counts.recvRank
    · exact hsame.phase.trans hone.phase
    · exact hsame.terminated.trans hone.terminated
    · exact hsame.numFailed.trans hone.numFailed
    · exact hsame.informLock.trans hone.informLock
    · intro w hw
      rcases hcheck w hw with hold | hmem
      · rw [informCheck_announce, Bool.or_eq_true] at hold
        rcases hold with hold | heq
        · exact .inl hold
        · exact .inr (by rw [beq_iff_eq.mp heq]; exact mem_cons_self)
      · exact .inr (mem_cons_of_mem _ hmem)

theorem BarrierInv.passNotice (h : s.BarrierInv l) (hv : v ≠ 0)
    (hqv : s.queue v = .notice ranks :: q) : (s.passNotice l v ranks q).BarrierInv l := by
  have hmem : .notice ranks ∈ s.queue v := by rw [hqv]; exact mem_cons_self
  have hcount : ∀ p : DaemonMsg → Bool, (s.queue v).countP p = q.countP p + if p (.notice ranks) then 1 else 0 := by
    intro p
    rw [hqv, countP_cons]
  obtain ⟨hsame, hnum, hcheck⟩ := announceAll (c := s.node v) (ranks.filter fun r => l.nodeOf r = v) (fun r hr => by
      obtain ⟨hr, hnode⟩ := mem_filter.mp hr
      exact ⟨(h.deaths.notices v ranks hmem r hr).1, by simpa using hnode⟩) (h.deaths.numInform v)
  generalize hs' : s.passNotice l v ranks q = s'
  have hnode : s'.node = Function.update s.node v
      ((ranks.filter fun r => l.nodeOf r = v).foldl (fun c => c.announce) (s.node v)) := by rw [← hs']; rfl
  have hep : s.SameEpisode s' := by
    rw [← hs']
    exact ⟨rfl, rfl, rfl, rfl, rfl, rfl⟩
  have hqueue : s'.queue = (s.sendGroup l v (.notice ranks) q).queue := by rw [← hs']; rfl
  have hrel : s'.released = s.released ∧ s'.updates = s.updates ∧ s'.informNode = s.informNode ∧
      s'.informGroup = s.informGroup := by
    rw [← hs']
    exact ⟨rfl, rfl, rfl, rfl⟩
  have hterm : ∀ w, (s'.node w).terminated = (s.node w).terminated := update_field hnode terminated hsame.terminated
  have hdead : s'.dead l = s.dead l := dead_congr hterm
  have hnoticed : s'.noticed = s.noticed := by
    funext w
    rw [noticed, noticed, hnode, update_of_ne (Ne.symm hv)]
  refine h.frame hep (sameCounts_update hnode hsame.counts) (update_field hnode informLock hsame.informLock 0)
    hdead hnoticed ?_ ?_ (update_forall hnode ((h.waiting v).congr hsame.phase hsame.counts.count hsame.counts.groupCount
      hsame.numFailed hsame.informLock) fun w _ => h.waiting w)
  · refine h.deaths.mono hterm hnoticed (update_field hnode numFailed hsame.numFailed) hrel.2.2.1 hrel.2.2.2
      hrel.2.1 ?_ (update_forall hnode (P := fun v c => c.numInformFailed = tally (fun r => l.watches v r &&
        c.informCheck r) l.size) hnum fun w _ => h.deaths.numInform w) ?_
    · intro r hr hc
      by_cases hrv : l.nodeOf r = v
      · rw [hnode, hrv, update_self] at hc
        rcases hcheck r hc with hold | hmem'
        · exact h.deaths.told r hr (by rwa [hrv])
        · exact (h.deaths.notices v ranks hmem r (mem_filter.mp hmem').1).2
      · rw [hnode, update_of_ne hrv] at hc
        exact h.deaths.told r hr hc
    · intro w ranks' hmem'
      rw [hqueue] at hmem'
      rcases mem_sendGroup hmem' with hold | hold | hnew
      · exact h.deaths.notices w ranks' hold
      · exact h.deaths.notices v ranks' (by rw [hqv]; exact mem_cons_of_mem _ hold)
      · injection hnew with hnew
        rw [hnew]
        exact h.deaths.notices v ranks hmem
  · refine ⟨?_, ?_, ?_, ?_⟩
    · rw [hrel.1, hep.arrived, hep.episodes]
      exact h.clients.released
    · rw [hdead, hep.arrived, hep.episodes]
      exact h.clients.arrived
    · intro r hr hlive
      rw [hdead] at hlive
      rw [hrel.1, hep.episodes, coming_congr hqueue, ← h.clients.passing r hr hlive]
      by_cases hrv : l.nodeOf r = v
      · rw [hrv, ← coming_sendGroup_self hv (hcount isBarrier)]
        rfl
      · rw [coming_sendGroup_of_ne hv hrv (l.rank_lt r hr) (hcount _)]
    · intro w hlt
      rw [coming_congr hqueue]
      exact h.clients.notices_sendGroup hv hlt (hcount _)

theorem BarrierInv.dropNotice (h : s.BarrierInv l) (hqv : s.queue v = .notice ranks :: q) :
    ({ s with queue := Function.update s.queue v q } : Coordinators).BarrierInv l := by
  have hcount : ∀ p : DaemonMsg → Bool, ∀ w, (s.queue w).countP p =
      (Function.update s.queue v q w).countP p + if w = v ∧ p (.notice ranks) = true then 1 else 0 := by
    intro p w
    by_cases hw : w = v
    · subst hw
      rw [update_self, hqv, countP_cons]
      simp
    · rw [update_of_ne hw, if_neg fun hc => hw hc.1]
      rfl
  refine h.frame ⟨rfl, rfl, rfl, rfl, rfl, rfl⟩ (fun _ => SameCounts.refl _) rfl rfl rfl
    (h.deaths.congr ⟨fun _ => rfl, fun _ => rfl, fun _ => rfl, fun _ => rfl, rfl, rfl, rfl⟩ ?_) ?_ h.waiting
  · intro w ranks' hmem
    by_cases hw : w = v
    · subst hw
      exact h.deaths.notices w ranks' (by
        rw [hqv]
        exact mem_cons_of_mem _ (by simpa using hmem))
    · exact h.deaths.notices w ranks' (by simpa [hw] using hmem)
  · refine ⟨h.clients.released, h.clients.arrived, ?_, ?_⟩
    · intro r hr hlive
      have hpass := h.clients.passing r hr hlive
      unfold coming at hpass ⊢
      simp only [hcount isBarrier, isBarrier, Bool.false_eq_true, and_false, if_false, Nat.add_zero] at hpass
      exact hpass
    · intro w hlt
      refine le_trans ?_ (h.clients.notices w hlt)
      unfold coming
      split
      · exact Nat.le_refl 0
      · rw [hcount isNotice w, hcount isNotice (l.leader w)]
        dsimp only
        split
        all_goals omega

theorem BarrierInv.poll (h : s.BarrierInv l) (hs : s.poll l v = some s') : s'.BarrierInv l := by
  unfold Coordinators.poll at hs
  dsimp only at hs
  split at hs
  · contradiction
  rename_i hcond
  obtain ⟨hv, hlt⟩ := not_or.mp hcond
  split at hs
  · contradiction
  · rename_i failReady q hqueue
    split at hs
    · contradiction
    · obtain rfl := some_inj.mp hs
      refine h.passBarrier hv (fun m => by rw [hqueue]; exact mem_cons_of_mem _) ?_
      intro p
      rw [hqueue, countP_cons]
  · rename_i ranks q hqueue
    split at hs
    · obtain rfl := some_inj.mp hs
      exact h.dropNotice hqueue
    · split at hs
      · contradiction
      · split at hs
        · split at hs
          · contradiction
          · rename_i failReady q
            obtain rfl := some_inj.mp hs
            have hbar := h.passBarrier (b := failReady) (q := .notice ranks :: q) hv (fun m hm => by
                rw [hqueue]
                rcases mem_cons.mp hm with rfl | hm
                · exact mem_cons_self
                · exact mem_cons_of_mem _ (mem_cons_of_mem _ hm))
              (fun p => by
                rw [hqueue, countP_cons, countP_cons, countP_cons]
                omega)
            exact hbar.passNotice hv (if_pos rfl)
          · -- There is no second notice.
            have hone := h.clients.notices v (by omega)
            unfold coming at hone
            rw [if_neg hv, hqueue, countP_cons, countP_cons] at hone
            simp only [isNotice, if_true] at hone
            omega
        · obtain rfl := some_inj.mp hs
          exact h.passNotice hv hqueue

end Coordinators

end ParepMpi
