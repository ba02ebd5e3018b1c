import ParepMpi.Coordinator.Passing

/-!
# Arrivals and reports

A process comes to the barrier, or a report comes to a leader or to the main coordinator.
-/

namespace ParepMpi

open Function Coordinator

namespace Coordinators

variable {l : Nodes} {s s' : Coordinators} {c : Coordinator} {r v w : Nat}

theorem Tallied.of_untouched (hcount : c.count = 0) (hgroup : c.groupCount = 0) (hrecv : ∀ r, c.recvRank r = false)
    (hreached : c.reached ≤ 0) (hlocal : c.localReached = 0)
    (hcounted : ∀ r < l.size, l.nodeOf r = v → s.counted r = false ∧ s.struck r = false)
    (hgiven : ∀ r < l.size, l.leads v = true → l.leader (l.nodeOf r) = v → l.nodeOf r ≠ v →
      s.given (l.nodeOf r) = false) : s.Tallied l v c where
  recv r hr hnode := by rw [hrecv, (hcounted r hr hnode).1]
  count := by
    rw [hcount, tally_eq_zero]
    intro r hr
    unfold gathered
    by_cases hnode : l.nodeOf r = v
    · simp [hnode, (hcounted r hr hnode).1]
    · by_cases hgroup : l.leads v = true ∧ l.leader (l.nodeOf r) = v
      · simp [hnode, hgiven r hr hgroup.1 hgroup.2 hnode]
      · by_cases hleads : l.leads v = true
        · simp [hnode, show l.leader (l.nodeOf r) ≠ v from fun heq => hgroup ⟨hleads, heq⟩]
        · simp [hnode, hleads]
  groupCount hleads := by
    rw [hgroup, tally_eq_zero]
    intro r hr
    unfold heardOf
    by_cases hnode : l.nodeOf r = v
    · simp [(hcounted r hr hnode).1]
    · by_cases hmember : l.leader (l.nodeOf r) = v
      · simp [hnode, hgiven r hr hleads hmember hnode]
      · simp [hmember]
  reached _ := hreached.trans tally_nonneg
  localReached _ := hlocal.le.trans tally_nonneg

theorem MainTallied.begin (h : s.MainOk l) (hidle : (s.node 0).phase = .idle) (hcount : c.count = 0) :
    s.MainTallied l (c.begin (-1)) := by
  obtain ⟨hown, hgiven⟩ := h.idle hidle
  have htop : ∀ r, l.nodeOf r ≠ 0 → s.given (l.top r) = false := by
    intro r hr
    refine hgiven _ ?_ Nodes.dest_top
    unfold Nodes.top
    split
    · exact hr
    · assumption
  refine ⟨fun r hr hnode => (hown r hr hnode).symm, ?_, by simp [Coordinator.begin], ?_, ?_, absurd rfl⟩
  · intro r _ hnode hhere
    simp [here, hnode, htop r hnode] at hhere
  · rw [tally_eq_zero]
    · exact hcount
    · intro r hr
      unfold here
      by_cases hnode : l.nodeOf r = 0
      · simp [hown r hr hnode]
      · simp [hnode, htop r hnode]
  · intro r _ hnode hg
    rw [htop r hnode] at hg
    contradiction

variable {b : Bool}

theorem arrive_of_live (hlive : c.terminated r = false) : c.arrive b r = { c with
    recvRank := Function.update c.recvRank r true
    count := c.count + 1
    groupCount := if b then c.groupCount + 1 else c.groupCount } :=
  if_neg (by simp [hlive])

theorem reached_arrive : (c.arrive b r).reached = c.reached := by
  unfold arrive
  split
  all_goals rfl

theorem informLock_arrive : (c.arrive b r).informLock = c.informLock := by
  unfold arrive
  split
  all_goals rfl

section Arrive

variable (hcounted : s'.counted = Function.update s.counted r true) (hstruck : s'.struck = s.struck)
  (hgiven : s'.given = s.given)

include hcounted in
theorem counted_arrive (w : Nat) : s'.counted w = (s.counted w || w == r) := by rw [hcounted, update_true]

include hcounted hstruck hgiven in
theorem Tallied.arrive (h : s.Tallied l v c) (hr : r < l.size) (hnode : l.nodeOf r = v)
    (hlive : c.terminated r = false) (hnot : s.counted r = false) : s'.Tallied l v (c.arrive (l.leads v) r) := by
  rw [arrive_of_live hlive]
  have hc := counted_arrive hcounted
  have hheard : s'.heardOf l v = s.heardOf l v := by
    funext w
    rw [heardOf, heardOf, hgiven]
  refine ⟨?_, ?_, ?_, ?_, ?_⟩
  · intro w hw hwv
    rw [hc, ← h.recv w hw hwv]
    exact update_true w
  · rw [tally_insert (p := s.gathered l v) hr (by simp [gathered, hnode, hnot]), ← h.count]
    intro w _
    unfold gathered
    rw [hc, hgiven]
    by_cases hwr : w = r
    · simp [hwr, hnode]
    · rw [or_beq_of_ne hwr, or_beq_of_ne hwr]
  · intro hleads
    rw [if_pos hleads, h.groupCount hleads]
    simp only [hheard, hc]
    exact (tally_and_insert hr (by simp [heardOf, hnode, (Nodes.leads_iff.mp hleads).2]) hnot).symm
  · rw [hheard, hstruck]
    exact h.reached
  · rw [hstruck]
    exact h.localReached

include hcounted hgiven in
theorem MainTallied.arrive (h : s.MainTallied l c) (hr : r < l.size) (hnode : l.nodeOf r = 0)
    (hlive : c.terminated r = false) (hnot : s.counted r = false) (hdead : s'.dead l = s.dead l)
    (hnoticed : s'.noticed = s.noticed) {b : Bool} : s'.MainTallied l (c.arrive b r) := by
  rw [arrive_of_live hlive]
  have hc := counted_arrive hcounted
  have hhere : ∀ w, s'.here l w = (s.here l w || w == r) := by
    intro w
    unfold here
    rw [hc, hgiven]
    by_cases hwr : w = r
    · simp [hwr, hnode]
    · rw [or_beq_of_ne hwr, or_beq_of_ne hwr]
  refine ⟨?_, ?_, ?_, ?_, ?_, ?_⟩
  · intro w hw hwv
    rw [hc, ← h.own w hw hwv]
    exact update_true w
  · intro w hw hwv hh
    have hwr : w ≠ r := fun heq => hwv (heq ▸ hnode)
    rw [hhere, or_beq_of_ne hwr] at hh
    simp [hwr, h.recv w hw hwv hh]
  · intro w hw hwv hrecv
    have hwr : w ≠ r := fun heq => hwv (heq ▸ hnode)
    rw [hgiven]
    exact h.given w hw hwv (by simpa [hwr] using hrecv)
  · rw [h.count]
    exact (tally_insert hr (by simp [here, hnot]) fun w _ => hhere w).symm
  · intro w hw hwv hg hcw hn
    have hwr : w ≠ r := fun heq => hwv (heq ▸ hnode)
    rw [hc, or_beq_of_ne hwr] at hcw
    rw [hgiven] at hg
    rw [hnoticed] at hn
    exact h.gone w hw hwv hg hcw hn
  · rw [hdead, hnoticed]
    exact h.seen

end Arrive

theorem Clients.arrive (h : s.Clients l) (hr : r < l.size) (hback : s.arrived r = s.released r)
    (harrived : s'.arrived = Function.update s.arrived r (s.arrived r + 1)) (hdead : s'.dead l = s.dead l)
    (hepisodes : s'.episodes = s.episodes) (hreleased : s'.released = s.released) (hqueue : s'.queue = s.queue) :
    s'.Clients l := by
  have hup : ∀ w, s'.arrived w = s.arrived w ∨ w = r ∧ s'.arrived w = s.arrived w + 1 := by
    intro w
    rw [harrived]
    by_cases hwr : w = r
    · exact .inr ⟨hwr, by rw [hwr, update_self]⟩
    · exact .inl (update_of_ne hwr _ _)
  have hbackr := h.released r hr
  refine ⟨?_, ?_, ?_, ?_⟩
  · intro w hw
    have := h.released w hw
    rw [hreleased]
    rcases hup w with heq | ⟨rfl, heq⟩
    all_goals omega
  · intro w hw hlive
    rw [hdead] at hlive
    have := h.arrived w hw hlive
    rcases hup w with heq | ⟨-, heq⟩
    all_goals omega
  · rw [hdead, hreleased, hepisodes]
    intro w hw
    rw [coming_congr hqueue]
    exact h.passing w hw
  · intro w hw
    rw [coming_congr hqueue]
    exact h.notices w hw

/-- A process that lives is counted; the coordinator was `c` when it had taken itself to be in a barrier. -/
theorem BarrierInv.arriveLive {p : BarrierPhase} (h : s.BarrierInv l) (hr : r < l.size) (hlive : s.dead l r = false)
    (hback : s.arrived r = s.released r)
    (hnode : s'.node = Function.update s.node (l.nodeOf r) { c.arrive (l.leads (l.nodeOf r)) r with phase := p })
    (hdeaths : s.SameDeaths s') (hterm : c.terminated = (s.node (l.nodeOf r)).terminated)
    (htallied : l.nodeOf r ≠ 0 → s.Tallied l (l.nodeOf r) c)
    (hmain : l.nodeOf r = 0 → s.MainTallied l c ∧ c.informLock = true ∧ (s.IsOpen 0 → c.reached = (s.node 0).reached))
    (hphase : p.Running) (hwait : p = .waiting false → c.count + 1 < l.barrierSize (l.nodeOf r) - c.numFailed)
    (harrived : s'.arrived = Function.update s.arrived r (s.arrived r + 1))
    (hcounted : s'.counted = Function.update s.counted r true) (hstruck : s'.struck = s.struck)
    (hgiven : s'.given = s.given) (hreports : s'.reports = s.reports) (hepisodes : s'.episodes = s.episodes)
    (hreleased : s'.released = s.released) (hqueue : s'.queue = s.queue) : s'.BarrierInv l := by
  obtain ⟨harr, hnot, hunrep⟩ := h.arrived_eq hr hlive hback
  have hliveC : c.terminated r = false := by rw [hterm]; exact hlive
  have hc := counted_arrive hcounted
  have hopen : ∀ w, s.IsOpen w → s'.IsOpen w := by
    intro w hw
    refine update_forall (P := fun w c => s.IsOpen w → c.phase ≠ .idle) hnode (fun _ => hphase.ne_idle) (fun w _ hw => hw) w
      hw
  have hopenv : s'.IsOpen (l.nodeOf r) := by
    rw [IsOpen, hnode, update_self]
    exact hphase.ne_idle
  have hrep : ∀ w, s'.Reported w ↔ s.Reported w := by
    intro w
    rw [Reported, Reported, hgiven, hreports]
  have hnoticedr : s.noticed r = false := by
    by_contra hn
    have := h.deaths.known_dead r hr (h.deaths.noticed_known r hr (by simpa using hn))
    rw [hlive] at this
    contradiction
  have hsameNode : ∀ w, w ≠ l.nodeOf r → SameCounts (s.node w) (s'.node w) := by
    intro w hw
    rw [hnode, update_of_ne hw]
    exact SameCounts.refl _
  have hdead : s'.dead l = s.dead l := hdeaths.dead
  have hliving : ∀ w, s.dead l w = true → w ≠ r := by
    rintro w hd rfl
    rw [hlive] at hd
    contradiction
  refine ⟨hdeaths.deaths h.deaths hqueue, h.clients.arrive hr hback harrived hdead hepisodes hreleased hqueue, ?_, ?_, ?_,
    ?_, ?_⟩
  · refine ⟨?_, ?_, ?_, ?_⟩
    · intro w hw hcw
      rw [hdeaths.noticed, harrived, hepisodes]
      by_cases hwr : w = r
      · subst hwr
        rw [update_self, harr]
        exact ⟨rfl, hnoticedr⟩
      · rw [hc, or_beq_of_ne hwr] at hcw
        rw [update_of_ne hwr]
        exact h.counts.counted w hw hcw
    · intro w hw hlw haw
      rw [hc]
      by_cases hwr : w = r
      · simp [hwr]
      · rw [harrived, hepisodes, update_of_ne hwr] at haw
        rw [hdead] at hlw
        rw [h.counts.live w hw hlw haw, Bool.true_or]
    · intro w hw hsw
      rw [hstruck] at hsw
      obtain ⟨hd, hn, hcw, hmain0⟩ := h.counts.struck w hw hsw
      rw [hdead, hdeaths.noticed, hc, or_beq_of_ne (hliving w hd)]
      exact ⟨hd, hn, hcw, hopen 0 hmain0⟩
    · intro w hw hcw hdw hzero
      rw [hdead] at hdw
      rw [hc, or_beq_of_ne (hliving w hdw)] at hcw
      obtain ⟨hmain0, hor⟩ := h.counts.late w hw hcw hdw hzero
      have hreached : (s'.node 0).reached = (s.node 0).reached := by
        rw [hnode]
        by_cases hv : l.nodeOf r = 0
        · rw [hv, update_self]
          exact reached_arrive.trans ((hmain hv).2.2 hmain0)
        · rw [update_of_ne (Ne.symm hv)]
      rw [hdead, hdeaths.noticed, hreached]
      exact ⟨hopen 0 hmain0, hor.imp_left (hopen _)⟩
  · refine update_forall hnode ?_ fun w _ => h.waiting w
    rw [arrive_of_live hliveC]
    exact Waiting.of_running hphase hwait
  · intro w hw
    by_cases hwv : w = l.nodeOf r
    · subst hwv
      refine NodeOk.of_open hopenv (mt (hrep _).mp hunrep) ?_ ⟨r, hr, .inl ⟨rfl, by simp [hc], by rwa [hdead]⟩⟩
      rw [hnode, update_self]
      have ht := (htallied hw).arrive hcounted hstruck hgiven hr rfl hliveC hnot
      exact { ht with }
    · refine (h.nodes w hw).congr (hsameNode w hwv) ⟨fun _ _ _ => by rw [hgiven], hrep w, ?_⟩ fun u _ _ => by rw [hdead]
      intro u _ hor
      have hur : u ≠ r := by
        intro heq
        subst heq
        rcases hor with heq | hg
        · exact hwv heq.symm
        · exact hunrep (.inl hg.2)
      rw [hc, hstruck, or_beq_of_ne hur]
      exact ⟨rfl, rfl⟩
  · refine h.mail.congr hreports hgiven ?_ fun u _ hu => by rwa [hstruck]
    intro m hm u _ hunit
    have hur : u ≠ r := by
      rintro rfl
      rw [h.not_inUnit hr hunrep hm] at hunit
      contradiction
    rw [hc, or_beq_of_ne hur]
  · by_cases hv : l.nodeOf r = 0
    · rw [hv] at hnode hopenv
      obtain ⟨ht, hlock, -⟩ := hmain hv
      have ht' := ht.arrive hcounted hgiven hr hv hliveC hnot hdead hdeaths.noticed (b := l.leads 0)
      refine MainOk.of_open hopenv ?_ ?_ ⟨r, hr, by rwa [hdead], by simp [here, hc, hv]⟩
      · rw [hnode]
        exact informLock_arrive.trans hlock
      · rw [hnode]
        exact { ht' with }
    · have hzero : (0 : Nat) ≠ l.nodeOf r := Ne.symm hv
      refine h.main.congr (hsameNode 0 hzero) (by rw [hnode, update_of_ne hzero])
        ⟨fun u _ => by rw [hdeaths.noticed], fun u _ => by rw [hgiven], ?_⟩ fun u _ => by rw [hdead]
      intro u _ hor
      have hur : u ≠ r := by
        intro heq
        subst heq
        rcases hor with heq | hg
        · exact hv heq
        · rw [h.not_given_top hr hunrep] at hg
          contradiction
      rw [hc, or_beq_of_ne hur]

theorem BarrierInv.arriveDead (h : s.BarrierInv l) (hr : r < l.size) (hdead : s.dead l r = true)
    (hback : s.arrived r = s.released r) :
    ({ s with arrived := Function.update s.arrived r (s.arrived r + 1) } : Coordinators).BarrierInv l := by
  have hnot : s.counted r = false := by
    by_contra hc
    have := (h.counts.counted r hr (by simpa using hc)).1
    have := h.clients.released r hr
    omega
  refine ⟨h.deaths.congr ⟨fun _ => rfl, fun _ => rfl, fun _ => rfl, fun _ => rfl, rfl, rfl, rfl⟩ h.deaths.notices,
    h.clients.arrive hr hback rfl rfl rfl rfl rfl, ?_, h.waiting,
    fun v hv => (h.nodes v hv).congr (SameCounts.refl _) ⟨fun _ _ _ => rfl, Iff.rfl, fun _ _ _ => ⟨rfl, rfl⟩⟩
      fun _ _ _ => rfl, h.mail.congr rfl rfl (fun _ _ _ _ _ => rfl) fun _ _ hr => hr,
    h.main.congr (SameCounts.refl _) rfl ⟨fun _ _ => rfl, fun _ _ => rfl, fun _ _ _ => rfl⟩ fun _ _ => rfl⟩
  refine ⟨?_, ?_, h.counts.struck, h.counts.late⟩
  · intro w hw hc
    have hwr : w ≠ r := fun heq => by
      rw [heq] at hc
      exact absurd (hnot.symm.trans hc) (by decide)
    dsimp only
    rw [update_of_ne hwr]
    exact h.counts.counted w hw hc
  · intro w hw hlive harr
    have hwr : w ≠ r := fun heq => by
      rw [heq] at hlive
      exact absurd (hdead.symm.trans hlive) (by decide)
    dsimp only at harr
    rw [update_of_ne hwr] at harr
    exact h.counts.live w hw hlive harr

theorem phase_of_free (hfree : c.free = true) (hopen : c.phase ≠ .idle) : ∃ b, c.phase = .waiting b := by
  unfold free at hfree
  split at hfree
  · rename_i hidle
    exact absurd hidle hopen
  · rename_i b hphase
    exact ⟨b, hphase⟩
  · contradiction

theorem tellRunning_eq : ∃ b rs, s.tellRunning l v =
    { s.setNode v { s.node v with barrierRunning := b } with runnings := rs } := by
  have hself : ∀ rs, ({ s with runnings := rs } : Coordinators) =
      { s.setNode v { s.node v with barrierRunning := (s.node v).barrierRunning } with runnings := rs } := by
    intro rs
    rw [setNode, update_eq_self]
  unfold tellRunning
  split
  · exact ⟨_, _, hself s.runnings⟩
  · split
    · split
      · exact ⟨_, _, hself s.runnings⟩
      · exact ⟨_, _, rfl⟩
    · exact ⟨_, _, hself _⟩

theorem BarrierInv.handleBarrier (h : s.BarrierInv l) (hs : s.handleBarrier l r = some s')
    (hfirst : s.dead l r = true → (s.node (l.nodeOf r)).count ≠ 0) : s'.BarrierInv l := by
  unfold Coordinators.handleBarrier at hs
  dsimp only at hs
  split at hs
  swap
  · contradiction
  rename_i hcond
  obtain ⟨hr, hback, hfree⟩ := hcond
  have hw := h.waiting (l.nodeOf r)
  split at hs
  · -- The first arrival.
    rename_i hcount
    have hlive : s.dead l r = false := by
      by_contra hdead
      exact hfirst (by simpa using hdead) hcount
    have hterm : (s.node (l.nodeOf r)).terminated r = false := hlive
    have hidle := h.idle_of_count hcount
    obtain ⟨-, hgroup, hlock⟩ := hw.idle hidle
    generalize ht : ({ s with arrived := Function.update s.arrived r (s.arrived r + 1) } : Coordinators) = t at hs
    obtain ⟨b, rs, htell⟩ := tellRunning_eq (l := l) (s := t) (v := l.nodeOf r)
    rw [htell] at hs
    subst ht
    simp only [setNode, update_self, update_idem] at hs
    rw [if_neg (by simp [hlock]), if_neg (show ¬ (s.node (l.nodeOf r)).terminated r = true by simp [hterm])] at hs
    obtain rfl := Option.some_inj.mp hs
    obtain ⟨-, -, hunrep⟩ := h.arrived_eq hr hlive hback
    have hbegin : ({ s.node (l.nodeOf r) with barrierRunning := b }.begin
        (if l.nodeOf r = 0 then -1 else 0)).terminated r = false := hterm
    refine h.arriveLive (c := { s.node (l.nodeOf r) with barrierRunning := b }.begin (if l.nodeOf r = 0 then -1 else 0))
      (p := .fresh) hr hlive hback ?_ ?_ rfl ?_ ?_ (.inl rfl) (by simp) rfl rfl rfl rfl rfl rfl rfl rfl
    · rw [arrive_of_live hbegin]
      rfl
    · rw [arrive_of_live hbegin]
      exact SameDeaths.of_update rfl
    · intro hv
      obtain ⟨hcounted, hgiven⟩ := (h.nodes _ hv).untouched hidle hunrep
      exact Tallied.of_untouched hcount hgroup (fun _ => rfl) (by simp [begin, hv]) rfl hcounted hgiven
    · intro hv
      rw [hv] at hidle hcount
      rw [hv]
      exact ⟨MainTallied.begin h.main hidle hcount, rfl, absurd hidle⟩
  · rename_i hcount
    have hopen : s.IsOpen (l.nodeOf r) := fun hidle => hcount (hw.idle hidle).1
    cases hdead : s.dead l r
    · have hterm : (s.node (l.nodeOf r)).terminated r = false := hdead
      have harr := arrive_of_live (b := l.leads (l.nodeOf r)) hterm
      have hwait : ∃ b, ((s.node (l.nodeOf r)).arrive (l.leads (l.nodeOf r)) r).phase = .waiting b := by
        rw [harr]
        exact phase_of_free hfree hopen
      obtain ⟨hrunning, hsleep⟩ := Waiting.signalFrom (k := l.barrierSize (l.nodeOf r)) hwait
      simp only [hterm, harr] at hs
      obtain rfl := Option.some_inj.mp hs
      refine h.arriveLive (c := s.node (l.nodeOf r))
        (p := ((s.node (l.nodeOf r)).arrive (l.leads (l.nodeOf r)) r |>.signalFrom (l.barrierSize (l.nodeOf r))).phase)
        hr hdead hback ?_ (SameDeaths.of_update rfl) rfl (fun hv => (h.nodes _ hv).tallied hopen)
        ?_ hrunning ?_ rfl rfl rfl rfl rfl rfl rfl rfl
      · rw [harr]
        rfl
      · intro hv
        rw [hv] at hopen
        rw [hv]
        exact ⟨h.main.tallied hopen, h.main.lock hopen, fun _ => rfl⟩
      · rwa [harr] at hsleep ⊢
    · have hterm : (s.node (l.nodeOf r)).terminated r = true := hdead
      have harr : (s.node (l.nodeOf r)).arrive (l.leads (l.nodeOf r)) r = s.node (l.nodeOf r) := if_pos hterm
      simp only [hterm, harr, if_true, setNode, Function.update_eq_self] at hs
      obtain rfl := Option.some_inj.mp hs
      exact h.arriveDead hr hdead hback

end Coordinators

end ParepMpi
