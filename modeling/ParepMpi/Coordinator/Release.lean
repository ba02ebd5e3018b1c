import ParepMpi.Coordinator.Local

/-!
# The main coordinator looks at its count

It takes its own failed processes out of the count, or one of another node.
-/

namespace ParepMpi

open Function

namespace Coordinators

open Coordinator

variable {l : Nodes} {s s' : Coordinators} {r v : Nat}

/-- What the main coordinator takes out of its count, and what its `reached` becomes. -/
structure TakenOff (l : Nodes) (s : Coordinators) (out : Nat → Bool) (reached : Int) : Prop where
  here : ∀ r, out r = true → r < l.size ∧ s.here l r = true ∧ s.known r = true
  all : ∀ r < l.size, s.here l r = true → s.known r = true → out r = true
  seen : reached ≠ -1 → ∃ r < l.size, s.dead l r = true ∧ s.noticed r = false
  fresh : reached = -1 → (s.node 0).reached = -1 ∧ ∀ r, out r = false
  alone : reached ≠ -1 → (s.node 0).reached = -1 → ∀ r < l.size, s.counted r = true → l.nodeOf r ≠ 0 →
    (∀ r' < l.size, s.dead l r' = true → s.noticed r' = false → r' = r) → out r = true

section Scan

variable (h : s.BarrierInv l) (hopen : s.IsOpen 0)

include h

theorem BarrierInv.alone_of_here (hr : r < l.size) (hnode : l.nodeOf r ≠ 0) (hhere : s.here l r = true)
    (hknown : s.known r = true) :
    (s.node 0).reached = -1 ∧ ∀ r' < l.size, s.dead l r' = true → s.noticed r' = false → r' = r := by
  simp only [here, hnode, Bool.and_eq_true, Bool.or_eq_true, decide_eq_true_eq, false_or] at hhere
  have hgiven := h.given_node hr hhere.2
  obtain ⟨-, hor⟩ := h.counts.late r hr hhere.1 (h.deaths.known_dead r hr hknown) hnode
  exact hor.resolve_left fun ho => (h.nodes _ hnode).unreported ho (.inl hgiven)

theorem BarrierInv.unannounced_of_here (hr : r < l.size) (hhere : s.here l r = true) (hknown : s.known r = true) :
    (s.node 0).unannounced r = true ∧ s.noticed r = false := by
  have hnoticed := (h.counts.counted r hr (Bool.and_eq_true _ _ ▸ hhere).1).2
  have hcheck : (s.node 0).informCheck r = false := hnoticed
  have hterm : (s.node 0).terminated r = true := hknown
  exact ⟨by simp [unannounced, hcheck, hterm], hnoticed⟩

theorem BarrierInv.noticed_of_le (hle : (s.node 0).numFailed ≤ (s.node 0).numInformFailed) (hr : r < l.size)
    (hknown : s.known r = true) : s.noticed r = true := by
  rw [h.deaths.numFailed, h.deaths.numInform] at hle
  have hterm : (s.node 0).terminated r = true := hknown
  have := of_tally_le (p := fun r => l.watches 0 r && (s.node 0).informCheck r) (fun i hi hand => by
    rw [Bool.and_eq_true] at hand ⊢
    exact ⟨hand.1, h.deaths.noticed_known i hi hand.2⟩) hle hr (by simp [Nodes.watches, hterm])
  exact (Bool.and_eq_true _ _ ▸ this).2

include hopen

theorem BarrierInv.scan_main : ∃ out reached,
    (s.node 0).scan l 0 (s.node 0).numFailed = (s.node 0).takeOff out (tally out l.size) reached ∧
      s.TakenOff l out reached := by
  have ht := h.main.tallied hopen
  have hrest : (∀ r < l.size, s.here l r = true → s.known r = false) → ∃ out reached,
      s.node 0 = (s.node 0).takeOff out (tally out l.size) reached ∧ s.TakenOff l out reached := by
    intro hnone
    refine ⟨fun _ => false, (s.node 0).reached, ?_, by simp, ?_, ht.seen, fun hreached => ⟨hreached, fun _ => rfl⟩,
      fun hne heq => absurd heq hne⟩
    · rw [tally_eq_zero fun _ _ => rfl, takeOff_zero fun _ _ => rfl]
    · intro r hr hhere hknown
      rw [hnone r hr hhere] at hknown
      contradiction
  rw [scan, if_pos rfl]
  split
  swap
  · apply hrest
    intro r hr hhere
    by_contra hknown
    have hknown : s.known r = true := by simpa using hknown
    have hnoticed := h.noticed_of_le (by omega) hr hknown
    rw [(h.unannounced_of_here hr hhere hknown).2] at hnoticed
    contradiction
  have hnoticed : ∀ i, (s.node 0).unannounced i = true → s.known i = true ∧ s.noticed i = false := by
    intro i hi
    simp only [unannounced, Bool.and_eq_true, Bool.not_eq_true'] at hi
    exact ⟨hi.2, hi.1⟩
  have hscan := (s.node 0).mainScan_cases (l := l)
  generalize (s.node 0).mainScan l = c at hscan
  cases hscan with
  | own i reached hi hown hun hreached =>
    have hdead := h.deaths.known_dead i hi (hnoticed i hun).1
    have hnotAlone : ∀ r, l.nodeOf r ≠ 0 → ¬ ∀ r' < l.size, s.dead l r' = true → s.noticed r' = false → r' = r := by
      intro r hr halone
      rw [← halone i hi hdead (hnoticed i hun).2] at hr
      exact hr hown
    refine ⟨fun r => r < l.size && leavingMain (fun r => l.nodeOf r = 0) (s.node 0) r, reached, ?_, ?_, ?_, ?_, ?_, ?_⟩
    · congr 1
      apply tally_congr
      intro r hr
      simp [hr]
    · intro r hr
      simp only [leavingMain, Bool.and_eq_true, decide_eq_true_eq] at hr
      obtain ⟨hlt, ⟨hnode, hun⟩, hrecv⟩ := hr
      rw [ht.own r hlt hnode] at hrecv
      exact ⟨hlt, by simp [here, hnode, hrecv], (hnoticed r hun).1⟩
    · intro r hr hhere hknown
      by_cases hnode : l.nodeOf r = 0
      · have hcounted : s.counted r = true := (Bool.and_eq_true _ _ ▸ hhere).1
        have hrecv := ht.own r hr hnode
        rw [hcounted] at hrecv
        simp [hr, leavingMain, hnode, hrecv, (h.unannounced_of_here hr hhere hknown).1]
      · exact absurd (h.alone_of_here hr hnode hhere hknown).2 (hnotAlone r hnode)
    · intro _
      exact ⟨i, hi, hdead, (hnoticed i hun).2⟩
    · intro heq
      exact absurd heq hreached
    · intro _ _ r _ _ hnode halone
      exact absurd halone (hnotAlone r hnode)
  | other i hi hother hun hrecv hreached hown =>
    have hdead := h.deaths.known_dead i hi (hnoticed i hun).1
    refine ⟨fun r => r == i, 1, by rw [tally_single hi], ?_, ?_, ?_, by simp, ?_⟩
    · intro r hr
      obtain rfl := beq_iff_eq.mp hr
      have hgiven := ht.given r hi hother hrecv
      have hcounted : s.counted r = true := by
        by_contra hc
        exact ht.gone r hi hother hgiven (by simpa using hc) (hnoticed r hun).2 hreached
      exact ⟨hi, by simp [here, hcounted, hgiven], (hnoticed r hun).1⟩
    · intro r hr hhere hknown
      by_cases hnode : l.nodeOf r = 0
      · have := (h.unannounced_of_here hr hhere hknown).1
        rw [hown r hr hnode] at this
        contradiction
      · rw [(h.alone_of_here hr hnode hhere hknown).2 i hi hdead (hnoticed i hun).2]
        exact beq_self_eq_true r
    · intro _
      exact ⟨i, hi, hdead, (hnoticed i hun).2⟩
    · intro _ _ r _ _ _ halone
      rw [halone i hi hdead (hnoticed i hun).2]
      exact beq_self_eq_true r
  | rest hown hother =>
    apply hrest
    intro r hr hhere
    by_contra hknown
    have hknown : s.known r = true := by simpa using hknown
    have hun := (h.unannounced_of_here hr hhere hknown).1
    by_cases hnode : l.nodeOf r = 0
    · rw [hown r hr hnode] at hun
      contradiction
    · have hrecv := hother (h.alone_of_here hr hnode hhere hknown).1 r hr hnode hun
      rw [ht.recv r hr hnode hhere] at hrecv
      contradiction

end Scan

section TakeOff

variable {out : Nat → Bool} {reached : Int} (hcounted : ∀ r, s'.counted r = (s.counted r && !out r))
  (hstruck : s'.struck = s.struck) (hgiven : s'.given = s.given) (hout : s.TakenOff l out reached)

include hcounted hgiven

theorem here_takeOff : s'.here l r = (s.here l r && !out r) := by
  unfold here
  rw [hcounted, hgiven]
  ac_rfl

include hout

theorem MainTallied.takeOff (ht : s.MainTallied l (s.node 0)) (hdead : s'.dead l = s.dead l)
    (hnoticed : s'.noticed = s.noticed) :
    s'.MainTallied l ((s.node 0).takeOff out (tally out l.size) reached) := by
  have hhere := fun r => here_takeOff (l := l) hcounted hgiven (r := r)
  refine ⟨?_, ?_, ?_, ?_, ?_, ?_⟩
  · intro r hr hnode
    rw [hcounted]
    simp [Coordinator.takeOff, ht.own r hr hnode]
  · intro r hr hnode hh
    rw [hhere, Bool.and_eq_true] at hh
    simp only [Coordinator.takeOff, ht.recv r hr hnode hh.1, hh.2, Bool.true_and]
  · intro r hr hnode hrecv
    rw [hgiven]
    simp only [Coordinator.takeOff, Bool.and_eq_true] at hrecv
    exact ht.given r hr hnode hrecv.1
  · have hsplit : tally (s.here l) l.size = tally (s'.here l) l.size + tally out l.size := by
      apply tally_add
      · intro r _
        rw [hhere]
        cases ho : out r
        · simp
        · simp [(hout.here r ho).2.1]
      · intro r _ hh
        rw [hhere, Bool.and_eq_true] at hh
        simpa using hh.2
    have := ht.count
    simp only [Coordinator.takeOff]
    omega
  · intro r hr hnode hg hc hn hreached
    obtain ⟨hold, hnone⟩ := hout.fresh hreached
    rw [hcounted, hnone r] at hc
    rw [hgiven] at hg
    rw [hnoticed] at hn
    exact ht.gone r hr hnode hg (by simpa using hc) hn hold
  · rw [hdead, hnoticed]
    exact hout.seen

include hstruck

theorem BarrierInv.takeOff (h : s.BarrierInv l) (hopen : s.IsOpen 0)
    (hnode : s'.node = Function.update s.node 0 ((s.node 0).takeOff out (tally out l.size) reached))
    (hdeaths : s.SameDeaths s') (hclients : s.SameClients s') (hreports : s'.reports = s.reports) : s'.BarrierInv l := by
  have hrep : ∀ w, s'.Reported w ↔ s.Reported w := by
    intro w
    rw [Reported, Reported, hgiven, hreports]
  have hphase : ∀ w, (s'.node w).phase = (s.node w).phase := update_field hnode Coordinator.phase rfl
  have hsame : ∀ w, w ≠ 0 → s'.node w = s.node w := by
    intro w hw
    rw [hnode, update_of_ne hw]
  have hlive : ∀ r < l.size, s.dead l r = false → out r = false := by
    intro r hr hl
    by_contra ho
    rw [h.deaths.known_dead r hr (hout.here r (by simpa using ho)).2.2] at hl
    contradiction
  have hcounted' : ∀ r, s'.counted r = true → s.counted r = true ∧ out r = false := by
    intro r hr
    rw [hcounted] at hr
    simpa using hr
  -- The report about a process that is taken out has been handled.
  have hgivenOut : ∀ r, out r = true → l.nodeOf r ≠ 0 → s.given (l.top r) = true := by
    intro r ho hne
    have hhere := (hout.here r ho).2.1
    simp only [here, hne, Bool.and_eq_true, Bool.or_eq_true, decide_eq_true_eq, false_or] at hhere
    exact hhere.2
  refine ⟨hdeaths.deaths h.deaths hclients.queue, h.clients.congr hclients hdeaths.live, ?_, ?_, ?_, ?_, ?_⟩
  · refine ⟨?_, ?_, ?_, ?_⟩
    · intro r hr hr'
      rw [hclients.arrived, hclients.episodes, hdeaths.noticed]
      exact h.counts.counted r hr (hcounted' r hr').1
    · intro r hr hl harr
      rw [hdeaths.dead] at hl
      rw [hclients.arrived, hclients.episodes] at harr
      rw [hcounted]
      simp [h.counts.live r hr hl harr, hlive r hr hl]
    · intro r hr hr'
      rw [hstruck] at hr'
      rw [hdeaths.dead, hdeaths.noticed, hcounted, IsOpen, hphase]
      obtain ⟨hd, hn, hc, ho⟩ := h.counts.struck r hr hr'
      exact ⟨hd, hn, by simp [hc], ho⟩
    · intro r hr hr' hd hzero
      obtain ⟨hc, ho⟩ := hcounted' r hr'
      rw [hdeaths.dead] at hd
      obtain ⟨hmain, hor⟩ := h.counts.late r hr hc hd hzero
      rw [IsOpen, IsOpen, hphase, hphase, hdeaths.dead, hdeaths.noticed, hnode, update_self]
      refine ⟨hmain, hor.imp_right ?_⟩
      intro halone
      refine ⟨?_, halone.2⟩
      by_contra hne
      rw [hout.alone hne halone.1 r hr hc hzero halone.2] at ho
      contradiction
  · refine update_forall hnode ?_ fun w _ => h.waiting w
    have hw := h.waiting 0
    refine ⟨fun hi => absurd hi hopen, hw.checking, ?_, hw.not_blocked, hw.not_aborted⟩
    intro hwait
    have := hw.waiting hwait
    have := tally_nonneg (p := out) (n := l.size)
    change (s.node 0).count - _ < _
    change _ < _ - (s.node 0).numFailed
    omega
  · intro w hw
    by_cases hr : s.Reported w
    · have hidle : (s'.node w).phase = .idle := by
        rw [hphase]
        by_contra ho
        exact (h.nodes w hw).unreported ho hr
      have hr' : s'.Reported w := (hrep w).mpr hr
      refine ⟨fun _ => ?_, fun _ => absurd hr', absurd hidle, absurd hidle, absurd hidle, fun _ => ⟨?_, ?_⟩⟩
      · rw [hphase] at hidle
        rw [hsame w hw]
        exact (h.nodes w hw).idle hidle
      · intro r hr'' hnode' hl
        rw [hdeaths.dead] at hl
        rw [hcounted]
        simp [((h.nodes w hw).full hr).1 r hr'' hnode' hl, hlive r hr'' hl]
      · rw [hgiven]
        exact ((h.nodes w hw).full hr).2
    · refine (h.nodes w hw).congr (by rw [hsame w hw]; exact SameCounts.refl _)
        ⟨fun _ _ _ => by rw [hgiven], hrep w, ?_⟩ fun r _ _ => by rw [hdeaths.dead]
      intro r hr' hor
      rw [hcounted, hstruck]
      refine ⟨?_, rfl⟩
      have ho : out r = false := by
        by_contra ho
        have ho : out r = true := by simpa using ho
        rcases hor with hown | hmember
        · have hg := h.given_node hr' (hgivenOut r ho (by rwa [hown]))
          rw [hown] at hg
          exact hr (Or.inl hg)
        · have hzero : l.leader (l.nodeOf r) ≠ 0 := by rwa [hmember.1]
          have hg := hgivenOut r ho (Nodes.nodeOf_ne_zero_of_leader hzero)
          rw [Nodes.top, if_neg hzero, hmember.1] at hg
          exact hr (Or.inl hg)
      simp [ho]
  · refine h.mail.congr hreports hgiven ?_ fun r _ hr => by rwa [hstruck]
    intro m hm r hr hu
    have ho : out r = false := by
      by_contra ho
      have htop := hgivenOut r (by simpa using ho) (Nodes.inUnit_ne_zero (h.mail.sender m hm).1 hu)
      rw [h.not_inUnit_of_given hr htop hm] at hu
      contradiction
    simp [hcounted, ho]
  · refine MainOk.of_open (by rwa [IsOpen, hphase]) ?_ ?_ ?_
    · rw [hnode, update_self]
      exact h.main.lock hopen
    · rw [hnode, update_self]
      exact (h.main.tallied hopen).takeOff hcounted hgiven hout hdeaths.dead hdeaths.noticed
    · obtain ⟨r, hr, hl, hh⟩ := h.main.heard hopen
      refine ⟨r, hr, by rwa [hdeaths.dead], ?_⟩
      rw [here_takeOff hcounted hgiven, hh, hlive r hr hl]
      rfl

end TakeOff

section Release

namespace BarrierInv

variable (h : s.BarrierInv l) (hopen : s.IsOpen 0)
  (hgone : ∀ r < l.size, s.here l r = true → s.known r = false)

include h in
theorem tally_not_known : tally (fun r => !s.known r) l.size = l.size - (s.node 0).numFailed := by
  rw [tally_not, h.deaths.numFailed]
  congr 1

include hgone in
theorem not_known_of_here (hr : r < l.size) (hhere : s.here l r = true) : (!s.known r) = true := by
  rw [hgone r hr hhere]
  rfl

include h hopen hgone

theorem main_count_le : (s.node 0).count ≤ l.size - (s.node 0).numFailed := by
  rw [← h.tally_not_known, (h.main.tallied hopen).count]
  exact tally_mono fun r => not_known_of_here hgone

variable (hcount : (s.node 0).count = l.size - (s.node 0).numFailed)

include hcount

theorem here_of_live (hr : r < l.size) (hlive : s.dead l r = false) : s.here l r = true := by
  rw [← h.tally_not_known, (h.main.tallied hopen).count] at hcount
  refine of_tally_le (fun r => not_known_of_here hgone) hcount.ge hr ?_
  by_contra hknown
  rw [h.deaths.known_dead r hr (by simpa using hknown)] at hlive
  contradiction

theorem given_of_live (hr : r < l.size) (hlive : s.dead l r = false) (hnode : l.nodeOf r ≠ 0) :
    s.given (l.top r) = true := by
  have := h.here_of_live hopen hgone hcount hr hlive
  simp only [here, hnode, Bool.and_eq_true, Bool.or_eq_true, decide_eq_true_eq, false_or] at this
  exact this.2

theorem idle_of_complete (hv : v ≠ 0) : (s.node v).phase = .idle := by
  by_contra hopenv
  have hunrep := (h.nodes v hv).unreported hopenv
  obtain ⟨r, hr, hheard⟩ := (h.nodes v hv).heard hopenv
  rcases hheard with ⟨hnode, -, hlive⟩ | ⟨hleads, hgroup, -, -⟩
  · have hgiven := h.given_node hr (h.given_of_live hopen hgone hcount hr hlive (by rwa [hnode]))
    rw [hnode] at hgiven
    exact hunrep (.inl hgiven)
  · obtain ⟨r', hr', hnode', hlive⟩ := h.deaths.alive r hr
    have hleader : l.leader (l.nodeOf r') = v := by rw [hnode', hgroup]
    have hgiven := h.given_of_live hopen hgone hcount hr' hlive (Nodes.nodeOf_ne_zero_of_leader (by rwa [hleader]))
    rw [Nodes.top, if_neg (by rwa [hleader]), hleader] at hgiven
    exact hunrep (.inl hgiven)

theorem reports_of_complete : s.reports = [] := by
  by_contra hne
  obtain ⟨m, hm⟩ := List.exists_mem_of_ne_nil _ hne
  obtain ⟨r, hr, hunit, hlive, -⟩ := h.unit_live hm
  have hgiven := h.given_of_live hopen hgone hcount hr hlive (Nodes.inUnit_ne_zero (h.mail.sender m hm).1 hunit)
  rw [h.not_inUnit_of_given hr hgiven hm] at hunit
  contradiction

theorem arrived_of_complete (hr : r < l.size) (hlive : s.dead l r = false) : s.arrived r = s.episodes + 1 := by
  have hhere := h.here_of_live hopen hgone hcount hr hlive
  exact (h.counts.counted r hr (Bool.and_eq_true _ _ ▸ hhere).1).1

theorem release : (s.release l (s.node 0)).BarrierInv l := by
  have hlive := fun r => h.arrived_of_complete hopen hgone hcount (r := r)
  have hidle := fun v => h.idle_of_complete hopen hgone hcount (v := v)
  have hreports := h.reports_of_complete hopen hgone hcount
  generalize hs' : s.release l (s.node 0) = s'
  have hnode : s'.node = Function.update s.node 0 (s.node 0).released := by rw [← hs']; rfl
  have hdeaths : s.SameDeaths s' := by
    rw [← hs']
    exact SameDeaths.of_update rfl
  obtain ⟨b, hqueue⟩ : ∃ b, s'.queue = (s.sendDaemons l (.barrier b)).queue := ⟨_, by rw [← hs']; rfl⟩
  have hcoming : ∀ p v, v ≠ 0 → v < l.nodeNum → s'.coming l p v = s.coming l p v + if p (.barrier b) then 1 else 0 := by
    intro p v hv hlt
    rw [← coming_sendDaemons hv hlt]
    exact coming_congr hqueue p v
  have hrel : ∀ r, s'.released r =
      if r < l.size ∧ l.nodeOf r = 0 ∧ ¬ (s.node 0).terminated r then s.released r + 1 else s.released r := by
    intro r
    rw [← hs']
    rfl
  have harrived : s'.arrived = s.arrived := by rw [← hs']; rfl
  have hepisodes : s'.episodes = s.episodes + 1 := by rw [← hs']; rfl
  obtain ⟨hcounted, hstruck, hgiven⟩ :
      (∀ r, s'.counted r = false) ∧ (∀ r, s'.struck r = false) ∧ ∀ r, s'.given r = false := by
    rw [← hs']
    exact ⟨fun _ => rfl, fun _ => rfl, fun _ => rfl⟩
  have hnil : s'.reports = [] := by
    rw [← hs']
    exact hreports
  have hnorep : ∀ v, ¬ s'.Reported v := by
    intro v hrep
    rw [Reported, hgiven, hnil] at hrep
    simp at hrep
  have hphase : ∀ v, (s'.node v).phase = .idle := update_forall (P := fun _ c => c.phase = .idle) hnode rfl hidle
  refine ⟨h.deaths.congr hdeaths ?_, ?_, ?_, ?_, ?_, ?_, ?_⟩
  · intro v ranks hmem
    rw [hqueue] at hmem
    exact h.deaths.notices v ranks ((mem_sendDaemons hmem).resolve_right (by simp))
  · refine ⟨?_, ?_, ?_, ?_⟩
    · intro r hr
      obtain ⟨h1, h2, h3⟩ := h.clients.released r hr
      rw [harrived, hepisodes]
      have hcase := hrel r
      split at hcase
      · rename_i hc
        have hl : s.dead l r = false := by simpa [dead, hc.2.1] using hc.2.2
        have := hlive r hr hl
        omega
      · omega
    · intro r hr hl
      rw [hdeaths.dead] at hl
      rw [harrived, hepisodes, hlive r hr hl]
    · intro r hr hl
      rw [hdeaths.dead] at hl
      have hpass := h.clients.passing r hr hl
      rw [hrel, hepisodes]
      by_cases hzero : l.nodeOf r = 0
      · have hterm : ¬ (s.node 0).terminated r = true := by
          rw [← hzero]
          simpa [dead] using hl
        rw [if_pos ⟨hr, hzero, hterm⟩]
        simp only [coming, hzero, if_true] at hpass ⊢
        omega
      · rw [if_neg fun hc => hzero hc.2.1, hcoming _ _ hzero (l.rank_lt r hr)]
        simp only [DaemonMsg.isBarrier, if_true]
        omega
    · intro v hv
      by_cases hzero : v = 0
      · simp [coming, hzero]
      · rw [hcoming _ _ hzero hv]
        exact h.clients.notices v hv
  · refine ⟨?_, ?_, ?_, ?_⟩
    · intro r _ hc
      rw [hcounted] at hc
      contradiction
    · intro r hr _ harr
      have := h.clients.released r hr
      rw [harrived, hepisodes] at harr
      omega
    · intro r _ hc
      rw [hstruck] at hc
      contradiction
    · intro r _ hc
      rw [hcounted] at hc
      contradiction
  · exact update_forall hnode (Waiting.of_idle rfl ⟨rfl, rfl, rfl⟩) fun w _ => h.waiting w
  · intro v hv
    refine ⟨fun _ => ?_, fun _ _ => ⟨fun r _ _ => ⟨hcounted r, hstruck r⟩, fun r _ _ _ _ => hgiven _⟩,
      absurd (hphase v), absurd (hphase v), absurd (hphase v),
      fun hrep => absurd hrep (hnorep v)⟩
    rw [hnode, update_of_ne hv]
    exact (h.nodes v hv).idle (hidle v hv)
  · refine ⟨?_, ?_, ?_, ?_, hgiven 0⟩
    · rw [hnil]
      exact List.nodup_nil
    all_goals
      rw [hnil]
      simp
  · exact ⟨fun _ => ⟨fun r _ _ => hcounted r, fun v _ _ => hgiven v⟩, absurd (hphase 0),
      absurd (hphase 0), absurd (hphase 0)⟩

end BarrierInv

theorem release_setNode {c : Coordinator} (hterm : c.terminated = (s.node 0).terminated) :
    (s.setNode 0 c).release l c = s.release l c := by
  simp only [Coordinators.release, releaseClients, sendDaemons, setNode, update_idem]
  simp [hterm]

theorem BarrierInv.checkMain (h : s.BarrierInv l) (hs : s.check l 0 = some s') : s'.BarrierInv l := by
  obtain ⟨n, hphase, c, hc, hcases⟩ := check_cases hs
  have hopen : s.IsOpen 0 := by
    rw [IsOpen, hphase]
    simp
  obtain rfl := (h.waiting 0).checking n hphase
  obtain ⟨out, reached, hscan, hout⟩ := h.scan_main hopen
  rw [hscan] at hc
  have ht := h.main.tallied hopen
  have hcounted : ∀ r, (s.struckOut 0 c).counted r = (s.counted r && !out r) := by
    intro r
    have hrecv : ((s.node 0).recvRank r && !c.recvRank r) = out r := by
      rw [hc]
      cases ho : out r
      · simp [Coordinator.takeOff, ho]
      · obtain ⟨hr, hhere, -⟩ := hout.here r ho
        have hin : (s.node 0).recvRank r = true := by
          by_cases hnode : l.nodeOf r = 0
          · rw [ht.own r hr hnode]
            exact (Bool.and_eq_true _ _ ▸ hhere).1
          · exact ht.recv r hr hnode hhere
        simp [Coordinator.takeOff, ho, hin]
    unfold struckOut
    dsimp only
    rw [hrecv]
  have hstruck : (s.struckOut 0 c).struck = s.struck := by
    funext r
    simp [struckOut]
  have hdeaths : s.SameDeaths ((s.struckOut 0 c).setNode 0 c) := by
    subst hc
    exact SameDeaths.of_update rfl
  have hscanned : ((s.struckOut 0 c).setNode 0 c).BarrierInv l := by
    refine BarrierInv.takeOff (s := s) hcounted hstruck rfl hout h hopen ?_ hdeaths ⟨rfl, rfl, rfl, rfl⟩ rfl
    rw [← hc]
    rfl
  have hgone : ∀ r < l.size, ((s.struckOut 0 c).setNode 0 c).here l r = true →
      ((s.struckOut 0 c).setNode 0 c).known r = false := by
    intro r hr hhere
    rw [hdeaths.known]
    have hand : ((s.struckOut 0 c).setNode 0 c).here l r = (s.here l r && !out r) := here_takeOff hcounted rfl
    rw [hand, Bool.and_eq_true, Bool.not_eq_true'] at hhere
    by_contra hknown
    rw [hout.all r hr hhere.1 (by simpa using hknown)] at hhere
    exact absurd hhere.2 (by decide)
  have hself : ((s.struckOut 0 c).setNode 0 c).node 0 = c := by simp [setNode]
  have hopen' : ((s.struckOut 0 c).setNode 0 c).IsOpen 0 := by
    rw [IsOpen, hself, hc]
    exact hopen
  have hle := hscanned.main_count_le hopen' hgone
  have hfailed : c.numFailed = (s.node 0).numFailed := by
    rw [hc]
    rfl
  rw [hself, hfailed] at hle
  have hsize : l.barrierSize 0 = l.size := rfl
  rcases hcases with ⟨hlt, rfl⟩ | hgt | ⟨heq, -, rfl⟩ | ⟨-, hne, -⟩
  · have hsleep := hscanned.setPhase (v := 0) (p := .waiting false)
      ⟨by simp, fun hi => absurd hi hopen'⟩ (Waiting.of_waiting rfl (by rwa [hself, hfailed]))
    rw [hself] at hsleep
    simpa only [setNode, update_idem] using hsleep
  · omega
  · have hrelease := hscanned.release hopen' hgone (by rw [hself, hfailed]; exact heq)
    rwa [hself, release_setNode (by rw [hc]; rfl)] at hrelease
  · exact absurd rfl hne

theorem BarrierInv.check (h : s.BarrierInv l) (hs : s.check l v = some s') : s'.BarrierInv l := by
  by_cases hv : v = 0
  · subst hv
    exact h.checkMain hs
  · exact h.checkNode hv hs

end Release

end Coordinators

end ParepMpi
