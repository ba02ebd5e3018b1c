import ParepMpi.Coordinator.Gather

/-!
# Failures during a barrier

Events that do not change a count: the thread of a coordinator wakes up, a process is seen to be gone, the main
coordinator hears of it.
-/

namespace ParepMpi

open List Option Function BarrierPhase Bool Coordinator Coordinators

variable {p : BarrierPhase}

theorem signalled_idle : p.signalled = .idle ↔ p = .idle := by
  cases p
  all_goals simp [signalled]

def BarrierPhase.Running (p : BarrierPhase) : Prop := p = .fresh ∨ ∃ b, p = .waiting b

theorem BarrierPhase.Running.ne_idle (h : p.Running) : p ≠ .idle := by
  rcases h with rfl | ⟨b, rfl⟩
  all_goals simp

namespace Coordinators

variable {l : Nodes} {s s' : Coordinators} {c : Coordinator} {r v w : Nat}

theorem update_forall {P : Nat → Coordinator → Prop} (hnode : s'.node = Function.update s.node v c) (hv : P v c)
    (h : ∀ w, w ≠ v → P w (s.node w)) (w : Nat) : P w (s'.node w) := by
  rw [hnode]
  by_cases hw : w = v
  · subst hw
    rw [update_self]
    exact hv
  · rw [update_of_ne hw]
    exact h w hw

theorem update_field {α : Type} (hnode : s'.node = Function.update s.node v c) (f : Coordinator → α)
    (hf : f c = f (s.node v)) (w : Nat) : f (s'.node w) = f (s.node w) :=
  update_forall (P := fun w c => f c = f (s.node w)) hnode hf (fun _ _ => rfl) w

theorem SameCounts.refl (c : Coordinator) : SameCounts c c := ⟨Iff.rfl, rfl, rfl, rfl, rfl, rfl⟩

theorem sameCounts_update (hnode : s'.node = Function.update s.node v c) (h : SameCounts (s.node v) c) (w : Nat) :
    SameCounts (s.node w) (s'.node w) :=
  update_forall (P := fun w => SameCounts (s.node w)) hnode h (fun _ _ => SameCounts.refl _) w

theorem SameDeaths.of_update (hnode : s'.node = Function.update s.node v c)
    (hterm : c.terminated = (s.node v).terminated := by rfl)
    (hcheck : c.informCheck = (s.node v).informCheck := by rfl)
    (hfailed : c.numFailed = (s.node v).numFailed := by rfl)
    (hinform : c.numInformFailed = (s.node v).numInformFailed := by rfl)
    (hinformNode : s'.informNode = s.informNode := by rfl) (hinformGroup : s'.informGroup = s.informGroup := by rfl)
    (hupdates : s'.updates = s.updates := by rfl) : s.SameDeaths s' where
  terminated := update_field hnode Coordinator.terminated hterm
  informCheck := update_field hnode Coordinator.informCheck hcheck
  numFailed := update_field hnode Coordinator.numFailed hfailed
  numInform := update_field hnode numInformFailed hinform
  informNode := hinformNode
  informGroup := hinformGroup
  updates := hupdates

theorem Clients.congr (h : s.Clients l) (hs : s.SameClients s')
    (hlive : ∀ r < l.size, s'.dead l r = false → s.dead l r = false) : s'.Clients l := by
  refine ⟨?_, ?_, ?_, ?_⟩
  · rw [hs.released, hs.arrived, hs.episodes]
    exact h.released
  · rw [hs.arrived, hs.episodes]
    exact fun r hr hdead => h.arrived r hr (hlive r hr hdead)
  · intro r hr hdead
    rw [hs.released, hs.episodes, coming_congr hs.queue]
    exact h.passing r hr (hlive r hr hdead)
  · intro v hv
    rw [coming_congr hs.queue]
    exact h.notices v hv

namespace Waiting

theorem congr (h : Waiting l v c) {c' : Coordinator} (hphase : c'.phase = c.phase) (hcount : c'.count = c.count)
    (hgroup : c'.groupCount = c.groupCount) (hfailed : c'.numFailed = c.numFailed)
    (hlock : c'.informLock = c.informLock) : Waiting l v c' where
  idle := by rw [hphase, hcount, hgroup, hlock]; exact h.idle
  checking := by rw [hphase, hfailed]; exact h.checking
  waiting := by rw [hphase, hcount, hfailed]; exact h.waiting
  not_blocked := by rw [hphase]; exact h.not_blocked
  not_aborted := by rw [hphase]; exact h.not_aborted

theorem of_idle (hphase : c.phase = .idle) (h : c.count = 0 ∧ c.groupCount = 0 ∧ c.informLock = false) :
    Waiting l v c := by
  refine ⟨fun _ => h, ?_, ?_, ?_, ?_⟩
  all_goals simp [hphase]

theorem of_checking (hphase : c.phase = .checking c.numFailed) : Waiting l v c := by
  refine ⟨?_, ?_, ?_, ?_, ?_⟩
  all_goals simp [hphase]

theorem of_running (hphase : c.phase.Running) (h : c.phase = .waiting false → c.count < l.barrierSize v - c.numFailed) :
    Waiting l v c := by
  rcases hphase with hphase | ⟨b, hphase⟩
  all_goals
    rw [hphase] at h
    refine ⟨?_, ?_, by rwa [hphase], ?_, ?_⟩
  all_goals simp [hphase]

theorem signalFrom {k : Int} (hphase : ∃ b, c.phase = .waiting b) : (c.signalFrom k).phase.Running ∧
    ((c.signalFrom k).phase = .waiting false → c.count < k - c.numFailed) := by
  obtain ⟨b, hb⟩ := hphase
  simp only [Coordinator.signalFrom, hb, BarrierPhase.signalled]
  split
  · exact ⟨.inr ⟨_, rfl⟩, by simp⟩
  · exact ⟨.inr ⟨_, rfl⟩, fun _ => by omega⟩

theorem of_waiting (hphase : c.phase = .waiting false) (h : c.count < l.barrierSize v - c.numFailed) :
    Waiting l v c := by
  refine ⟨?_, ?_, fun _ => h, ?_, ?_⟩
  all_goals simp [hphase]

end Waiting

section

variable (h : s.BarrierInv l)

include h

theorem BarrierInv.of_update (hs : s.SameEpisode s')
    (hnode : s'.node = Function.update s.node v c) (hcounts : SameCounts (s.node v) c) (hdeaths : s.SameDeaths s')
    (hlock : c.informLock = (s.node v).informLock) (hwaiting : Waiting l v c) (hqueue : s'.queue = s.queue)
    (hreleased : s'.released = s.released) : s'.BarrierInv l :=
  h.frame hs (sameCounts_update hnode hcounts) (update_field hnode informLock hlock 0)
    hdeaths.dead hdeaths.noticed (hdeaths.deaths h.deaths hqueue)
    (h.clients.congr ⟨hs.episodes, hs.arrived, hreleased, hqueue⟩ hdeaths.live)
    (update_forall hnode hwaiting fun w _ => h.waiting w)

theorem BarrierInv.setPhase {p : BarrierPhase} (hidle : p = .idle ↔ (s.node v).phase = .idle)
    (hwaiting : Waiting l v { s.node v with phase := p }) :
    (s.setNode v { s.node v with phase := p }).BarrierInv l :=
  h.of_update ⟨rfl, rfl, rfl, rfl, rfl, rfl⟩ rfl ⟨hidle, rfl, rfl, rfl, rfl, rfl⟩
    (SameDeaths.of_update rfl) rfl hwaiting rfl rfl

theorem BarrierInv.read (hs : s.read v = some s') : s'.BarrierInv l := by
  have hopen : (s.node v).phase ≠ .idle ∧ s' = s.setNode v { s.node v with phase := .checking (s.node v).numFailed } := by
    unfold Coordinators.read at hs
    dsimp only at hs
    split at hs
    · rename_i hphase
      exact ⟨by rw [hphase]; decide, (some_inj.mp hs).symm⟩
    · rename_i hphase
      exact ⟨by rw [hphase]; decide, (some_inj.mp hs).symm⟩
    · contradiction
  obtain ⟨hopen, rfl⟩ := hopen
  exact h.setPhase (by simp [hopen]) (Waiting.of_checking rfl)

theorem BarrierInv.wake (hs : s.wake v = some s') : s'.BarrierInv l := by
  unfold Coordinators.wake at hs
  split at hs
  · rename_i b hphase
    obtain rfl := some_inj.mp hs
    have hsig : (s.node v).phase.signalled = .waiting true := by rw [hphase, BarrierPhase.signalled]
    refine h.setPhase signalled_idle ?_
    refine ⟨?_, ?_, ?_, ?_, ?_⟩
    all_goals simp [hsig]
  · contradiction

theorem BarrierInv.inform {i : Nat} (hs : s.inform i = some s') : s'.BarrierInv l := by
  obtain ⟨d, -, hs⟩ := bind_eq_some_iff.mp hs
  dsimp only at hs
  have hsame : Waiting l d { s.node d with barrierRunning := true } := (h.waiting d).congr rfl rfl rfl rfl rfl
  split at hs
  · obtain rfl := some_inj.mp hs
    exact h.of_update (v := d) ⟨rfl, rfl, rfl, rfl, rfl, rfl⟩ (update_eq_self _ _).symm (SameCounts.refl _)
      (SameDeaths.of_update (update_eq_self d _).symm) rfl (h.waiting d) rfl rfl
  · obtain rfl := some_inj.mp hs
    split
    all_goals
      exact h.of_update (v := d) ⟨rfl, rfl, rfl, rfl, rfl, rfl⟩ rfl ⟨Iff.rfl, rfl, rfl, rfl, rfl, rfl⟩
        (SameDeaths.of_update (v := d) rfl) rfl hsame rfl rfl

end

section Terminate

theorem Waiting.terminate (h : Waiting l v c) (hcheck : ∀ n, c.phase ≠ .checking n) : Waiting l v (c.terminate r) := by
  unfold Coordinator.terminate
  split
  · exact h
  · refine ⟨?_, ?_, ?_, ?_, ?_⟩
    · intro hidle
      exact h.idle (signalled_idle.mp hidle)
    · intro n hn
      cases hphase : c.phase with
      | checking m => exact absurd hphase (hcheck m)
      | _ => simp [signal, hphase, BarrierPhase.signalled] at hn
    · intro hwait
      cases hphase : c.phase
      all_goals simp [signal, hphase, BarrierPhase.signalled] at hwait
    · have := h.not_blocked
      cases hphase : c.phase
      all_goals simp_all [signal, BarrierPhase.signalled]
    · have := h.not_aborted
      cases hphase : c.phase
      all_goals simp_all [signal, BarrierPhase.signalled]

theorem sameCounts_terminate : SameCounts c (c.terminate r) := by
  unfold Coordinator.terminate
  split
  · exact SameCounts.refl c
  · exact ⟨signalled_idle, rfl, rfl, rfl, rfl, rfl⟩

theorem terminated_terminate (w : Nat) : (c.terminate r).terminated w = (c.terminated w || w == r) := by
  unfold Coordinator.terminate
  split
  · rename_i hterm
    exact (or_beq_of_true hterm w).symm
  · exact update_true w

theorem informCheck_terminate : (c.terminate r).informCheck = c.informCheck ∧
    (c.terminate r).numInformFailed = c.numInformFailed ∧ (c.terminate r).informLock = c.informLock := by
  unfold Coordinator.terminate
  split
  all_goals exact ⟨rfl, rfl, rfl⟩

theorem numFailed_terminate (hr : r < l.size) (hwatch : l.watches v r = true)
    (h : c.numFailed = tally (fun r => l.watches v r && c.terminated r) l.size) :
    (c.terminate r).numFailed = tally (fun w => l.watches v w && (c.terminate r).terminated w) l.size := by
  simp only [terminated_terminate]
  cases hterm : c.terminated r
  · rw [tally_and_insert hr hwatch hterm, ← h]
    simp [Coordinator.terminate, hterm, Coordinator.signal]
  · simp only [or_beq_of_true hterm]
    rw [show c.terminate r = c by simp [Coordinator.terminate, hterm], h]

-- One of the two coordinators that watch a process notes that it is gone; its own is the first.
variable (hnode : s'.node = Function.update s.node v ((s.node v).terminate r)) (hwatch : l.watches v r = true)
  (hfirst : v ≠ l.nodeOf r → s.dead l r = true)

include hnode hwatch hfirst in
theorem dead_terminate (w : Nat) : s'.dead l w = (s.dead l w || w == r) := by
  unfold dead
  rw [hnode]
  by_cases hw : l.nodeOf w = v
  · rw [hw, update_self, terminated_terminate]
  · rw [update_of_ne hw]
    by_cases heq : w = r
    · subst heq
      have hdead := hfirst (Ne.symm hw)
      rw [dead] at hdead
      rw [hdead, Bool.true_or]
    · rw [or_beq_of_ne heq]

include hnode in
theorem known_terminate (w : Nat) : s'.known w = (s.known w || (v = 0 && w == r)) := by
  unfold known
  rw [hnode]
  by_cases hzero : v = 0
  · rw [hzero, update_self, terminated_terminate]
    simp
  · rw [update_of_ne (Ne.symm hzero)]
    simp [hzero]

include hnode in
theorem noticed_terminate : s'.noticed = s.noticed := by
  funext w
  exact congrFun (update_field hnode informCheck informCheck_terminate.1 0) w

include hnode hwatch hfirst in
theorem Deaths.terminate (h : s.Deaths l) (hr : r < l.size)
    (hother : s.dead l r = true ∨ ∃ r' < l.size, r' ≠ r ∧ l.nodeOf r' = l.nodeOf r ∧ s.dead l r' = false)
    (hkept : ∀ w ∈ s.updates, w ∈ s'.updates ∨ w = r ∧ v = 0) (hheard : v = 0 ∨ r ∈ s'.updates)
    (hupdates : ∀ w ∈ s'.updates, w ∈ s.updates ∨ w = r) (hqueue : s'.queue = s.queue)
    (hinformNode : s'.informNode = s.informNode) (hinformGroup : s'.informGroup = s.informGroup) : s'.Deaths l where
  known_dead w hw hknown := by
    rw [known_terminate hnode, or_eq_true] at hknown
    rw [dead_terminate hnode hwatch hfirst, or_eq_true]
    exact hknown.imp (h.known_dead w hw) fun hand => (and_eq_true _ _ ▸ hand).2
  heard w hw hdead := by
    rw [dead_terminate hnode hwatch hfirst, or_eq_true] at hdead
    rw [known_terminate hnode, or_eq_true]
    rcases hdead with hdead | heq
    · rcases h.heard w hw hdead with hknown | hmem
      · exact Or.inl (Or.inl hknown)
      · rcases hkept w hmem with hmem | ⟨heq, hzero⟩
        · exact Or.inr hmem
        · exact Or.inl (Or.inr (by simp [heq, hzero]))
    · rcases hheard with hzero | hmem
      · exact Or.inl (Or.inr (by simp [hzero, heq]))
      · exact Or.inr (by rwa [beq_iff_eq.mp heq])
  updates w hmem := by
    rw [dead_terminate hnode hwatch hfirst, Bool.or_eq_true]
    rcases hupdates w hmem with hold | rfl
    · exact ⟨(h.updates w hold).1, Or.inl (h.updates w hold).2⟩
    · exact ⟨hr, Or.inr (beq_self_eq_true w)⟩
  noticed_known w hw hnoticed := by
    rw [noticed_terminate hnode] at hnoticed
    rw [known_terminate hnode, h.noticed_known w hw hnoticed, Bool.true_or]
  told w hw hcheck := by
    rw [update_field hnode informCheck informCheck_terminate.1] at hcheck
    rw [noticed_terminate hnode]
    exact h.told w hw hcheck
  notices := by
    rw [hqueue, noticed_terminate hnode]
    exact h.notices
  numFailed := by
    refine update_forall hnode (P := fun v c => c.numFailed = tally (fun r => l.watches v r && c.terminated r) l.size)
      ?_ fun w _ => h.numFailed w
    exact numFailed_terminate hr hwatch (h.numFailed _)
  numInform v := by
    rw [update_field hnode informCheck informCheck_terminate.1,
      update_field hnode numInformFailed informCheck_terminate.2.1]
    exact h.numInform v
  informNode := by rw [hinformNode, noticed_terminate hnode]; exact h.informNode
  informGroup := by rw [hinformGroup, noticed_terminate hnode]; exact h.informGroup
  alive w hw := by
    obtain ⟨w', hw', hsame, hlive⟩ := h.alive w hw
    have hdead := dead_terminate hnode hwatch hfirst
    by_cases heq : w' = r
    · rcases hother with hdead' | ⟨r', hr', hne, hsame', hlive'⟩
      · rw [heq, hdead'] at hlive
        contradiction
      · exact ⟨r', hr', by rw [hsame', ← heq, hsame], by rw [hdead, hlive', or_beq_of_ne hne]⟩
    · exact ⟨w', hw', hsame, by rw [hdead, hlive, or_beq_of_ne heq]⟩

end Terminate

/-- A process is gone. -/
theorem BarrierInv.terminate (h : s.BarrierInv l) (hs : s.terminate l r = some s')
    (hcheck : ∀ n, (s.node (l.nodeOf r)).phase ≠ .checking n)
    (hother : ∃ r' < l.size, r' ≠ r ∧ l.nodeOf r' = l.nodeOf r ∧ s.dead l r' = false ∧
      (s.arrived r = s.episodes + 1 → s.arrived r' = s.episodes + 1))
    (hlate : ∀ r' < l.size, s.counted r' = true → s.dead l r' = true → l.nodeOf r' ≠ 0 → s.IsOpen (l.nodeOf r'))
    (harrived : s.arrived r = s.episodes + 1 → l.nodeOf r ≠ 0 →
      s.IsOpen 0 ∧ (s.IsOpen (l.nodeOf r) ∨ ∀ r' < l.size, s.dead l r' = true → s.noticed r' = true)) :
    s'.BarrierInv l := by
  unfold Coordinators.terminate at hs
  dsimp only at hs
  split at hs
  swap
  · contradiction
  rename_i hcond
  have hr := hcond.1
  obtain ⟨r', hr', hne, hsame, hlive', hcame⟩ := hother
  obtain ⟨hnode, hep, hupdates, hqueue, hinformNode, hinformGroup, hrel⟩ :
      s'.node = Function.update s.node (l.nodeOf r) ((s.node (l.nodeOf r)).terminate r) ∧ s.SameEpisode s' ∧
      s'.updates = (if l.nodeOf r = 0 then s.updates else s.updates ++ [r]) ∧ s'.queue = s.queue ∧
      s'.informNode = s.informNode ∧ s'.informGroup = s.informGroup ∧ s'.released = s.released := by
    obtain rfl := some_inj.mp hs
    split
    all_goals exact ⟨rfl, ⟨rfl, rfl, rfl, rfl, rfl, rfl⟩, rfl, rfl, rfl, rfl, rfl⟩
  have hwatch : l.watches (l.nodeOf r) r = true := by simp [Nodes.watches]
  have hfirst : l.nodeOf r ≠ l.nodeOf r → s.dead l r = true := absurd rfl
  have hdead : ∀ w, s'.dead l w = (s.dead l w || w == r) := dead_terminate hnode hwatch hfirst
  have hmono : ∀ w < l.size, s'.dead l w = false → s.dead l w = false := by
    intro w _ hw
    rw [hdead, or_eq_false_iff] at hw
    exact hw.1
  have hgrow : ∀ w < l.size, s.dead l w = true → s'.dead l w = true := by
    intro w _ hw
    rw [hdead, hw, Bool.true_or]
  have hsurvive : s'.dead l r' = false := by rw [hdead, hlive', or_beq_of_ne hne]
  have hcounts : ∀ w, SameCounts (s.node w) (s'.node w) := sameCounts_update hnode sameCounts_terminate
  have hopen : ∀ w, s.IsOpen w → s'.IsOpen w := fun w hw hidle => hw ((hcounts w).phase.mp hidle)
  have hnoticed : s'.noticed = s.noticed := noticed_terminate hnode
  -- The process that stays stands in for the one that goes.
  have hstand : s.counted r = true → s.counted r' = true := by
    intro hc
    exact h.counts.live r' hr' hlive' (hcame (h.counts.counted r hr hc).1)
  have hdeaths : s'.Deaths l := by
    refine h.deaths.terminate hnode hwatch hfirst hr (Or.inr ⟨r', hr', hne, hsame, hlive'⟩) ?_ ?_ ?_ hqueue hinformNode
      hinformGroup
    all_goals rw [hupdates]
    · intro w hmem
      left
      split
      · exact hmem
      · exact mem_append_left _ hmem
    · split
      · exact Or.inl ‹_›
      · exact Or.inr (mem_append_right _ mem_cons_self)
    · intro w hmem
      split at hmem
      · exact Or.inl hmem
      · simpa using hmem
  refine ⟨hdeaths, h.clients.congr ⟨hep.episodes, hep.arrived, hrel, hqueue⟩ hmono, ?_,
    update_forall hnode ((h.waiting _).terminate hcheck) fun w _ => h.waiting w, ?_, hep.mail h.mail, ?_⟩
  · refine h.counts.mono hep.counted hep.struck hep.arrived hep.episodes hgrow hnoticed (hopen 0) ?_
    intro w hw hc hd hzero
    rw [(hcounts 0).reached]
    cases hold : s.dead l w
    · -- The process that has just failed.
      have heq : w = r := by
        rw [hdead, hold] at hd
        exact beq_iff_eq.mp hd
      subst heq
      obtain ⟨hmain, hor⟩ := harrived (h.counts.counted w hw hc).1 hzero
      refine ⟨hopen 0 hmain, hor.imp (hopen _) ?_⟩
      intro hall
      refine ⟨?_, ?_⟩
      · by_contra hreached
        obtain ⟨u, hu, hud, hun⟩ := (h.main.tallied hmain).seen hreached
        rw [hall u hu hud] at hun
        contradiction
      · intro u hu hud hun
        rw [hdead, or_eq_true] at hud
        rcases hud with hud | heq
        · rw [hall u hu hud] at hun
          contradiction
        · exact beq_iff_eq.mp heq
    · exact ⟨hopen 0 (h.counts.late w hw hc hold hzero).1, Or.inl (hopen _ (hlate w hw hc hold hzero))⟩
  · intro v hv
    refine (h.nodes v hv).mono (hcounts v) hep.node (fun w hw _ => hmono w hw) ?_
    intro hv'
    obtain ⟨w, hw, hheard⟩ := (h.nodes v hv).heard hv'
    rcases hheard with ⟨hown, hc, hlive⟩ | hmember
    · by_cases heq : w = r
      · subst heq
        refine ⟨r', hr', Or.inl ⟨by rw [hsame, hown], ?_, hsurvive⟩⟩
        rw [hep.counted]
        exact hstand hc
      · exact ⟨w, hw, Or.inl ⟨hown, by rwa [hep.counted], by rw [hdead, hlive, or_beq_of_ne heq]⟩⟩
    · exact ⟨w, hw, Or.inr (by rwa [hep.given])⟩
  · have hsameMain : s.SameMain l s' := hep.main hnoticed
    refine h.main.mono (hcounts 0) (update_field hnode informLock informCheck_terminate.2.2 0) hsameMain hgrow ?_
    intro hmain
    obtain ⟨w, hw, hlive, hhere⟩ := h.main.heard hmain
    by_cases heq : w = r
    · subst heq
      refine ⟨r', hr', hsurvive, ?_⟩
      rw [hsameMain.here hr']
      have hand := hhere
      unfold here at hand ⊢
      rw [and_eq_true] at hand ⊢
      refine ⟨hstand hand.1, ?_⟩
      unfold Nodes.top
      rw [hsame]
      exact hand.2
    · exact ⟨w, hw, by rw [hdead, hlive, or_beq_of_ne heq], by rwa [hsameMain.here hw]⟩

theorem BarrierInv.update {i : Nat} (h : s.BarrierInv l) (hs : s.update i = some s')
    (hcheck : ∀ n, (s.node 0).phase ≠ .checking n) : s'.BarrierInv l := by
  obtain ⟨r, hget, hs⟩ := bind_eq_some_iff.mp hs
  obtain ⟨hr, hdeadr⟩ := h.deaths.updates r (mem_of_getElem? hget)
  obtain ⟨hnode, hep, hupdates, hqueue, hinformNode, hinformGroup, hrel⟩ :
      s'.node = Function.update s.node 0 ((s.node 0).terminate r) ∧ s.SameEpisode s' ∧
      s'.updates = s.updates.eraseIdx i ∧ s'.queue = s.queue ∧ s'.informNode = s.informNode ∧
      s'.informGroup = s.informGroup ∧ s'.released = s.released := by
    obtain rfl := some_inj.mp hs
    exact ⟨rfl, ⟨rfl, rfl, rfl, rfl, rfl, rfl⟩, rfl, rfl, rfl, rfl, rfl⟩
  have hdead : s'.dead l = s.dead l := by
    funext w
    rw [dead_terminate hnode rfl fun _ => hdeadr, or_beq_of_true hdeadr]
  refine h.frame hep (sameCounts_update hnode sameCounts_terminate)
    (update_field hnode informLock informCheck_terminate.2.2 0) hdead (noticed_terminate hnode) ?_
    (h.clients.congr ⟨hep.episodes, hep.arrived, hrel, hqueue⟩ fun w _ hw => by rwa [hdead] at hw)
    (update_forall hnode ((h.waiting 0).terminate hcheck) fun w _ => h.waiting w)
  refine h.deaths.terminate hnode rfl (fun _ => hdeadr) hr (Or.inl hdeadr) ?_ (Or.inl rfl) ?_ hqueue hinformNode
    hinformGroup
  · intro w hmem
    by_cases heq : w = r
    · exact Or.inr ⟨heq, rfl⟩
    · left
      rw [hupdates]
      obtain ⟨j, hj⟩ := mem_iff_getElem?.mp hmem
      refine mem_eraseIdx_iff_getElem?.mpr ⟨j, ?_, hj⟩
      intro hji
      rw [hji, hget] at hj
      exact heq (some_inj.mp hj).symm
  · intro w hmem
    rw [hupdates] at hmem
    exact Or.inl (mem_of_mem_eraseIdx hmem)

end Coordinators

end ParepMpi
