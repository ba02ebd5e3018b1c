import ParepMpi.Coordinator.Reports

/-!
# The thread of a node looks at its count

It takes the failed processes of its node out of the count.
-/

namespace ParepMpi

open List Function Nodes Bool

namespace Coordinators

open Coordinator

variable {l : Nodes} {s s' : Coordinators} {r v : Nat}

def failedHere (l : Nodes) (s : Coordinators) (v r : Nat) : Bool := l.nodeOf r = v && s.counted r && s.dead l r

namespace BarrierInv

variable (h : s.BarrierInv l) (hv : v ≠ 0)

include h hv

theorem leaving_eq (hopen : s.IsOpen v) (hr : r < l.size) :
    leaving (fun r => l.nodeOf r = v) (s.node v) r = s.failedHere l v r := by
  unfold leaving failedHere dead
  by_cases hnode : l.nodeOf r = v
  · rw [((h.nodes v hv).tallied hopen).recv r hr hnode, hnode]
    simp [hnode]
  · simp [hnode]

theorem not_failedHere (hle : (s.node v).numFailed ≤ (s.node v).numInformFailed) (hr : r < l.size) :
    s.failedHere l v r = false := by
  by_contra hfailed
  have hfailed : s.failedHere l v r = true := by simpa using hfailed
  simp only [failedHere, and_eq_true, decide_eq_true_eq] at hfailed
  obtain ⟨⟨hnode, hcounted⟩, hdead⟩ := hfailed
  rw [h.deaths.numFailed, h.deaths.numInform] at hle
  have hinform : (l.watches v r && (s.node v).informCheck r) = true := by
    refine of_tally_le (p := fun r => l.watches v r && (s.node v).informCheck r) ?_ hle hr ?_
    · intro i hi hand
      rw [and_eq_true] at hand ⊢
      have hi' : l.nodeOf i = v := by simpa [Nodes.watches, hv] using hand.1
      have hnoticed := h.deaths.told i hi (by rw [hi']; exact hand.2)
      have hdead := h.deaths.known_dead i hi (h.deaths.noticed_known i hi hnoticed)
      rw [dead, hi'] at hdead
      exact ⟨hand.1, hdead⟩
    · rw [dead, hnode] at hdead
      simp [Nodes.watches, hnode, hdead]
  rw [and_eq_true] at hinform
  have hnoticed := h.deaths.told r hr (by rw [hnode]; exact hinform.2)
  rw [(h.counts.counted r hr hcounted).2] at hnoticed
  contradiction

theorem scan_local (hopen : s.IsOpen v) : (s.node v).scan l v (s.node v).numFailed =
    (s.node v).strikeOff (l.leads v) (fun r => r < l.size && s.failedHere l v r) (tally (s.failedHere l v) l.size) := by
  have hcongr : ∀ r, (decide (r < l.size) && leaving (fun r => l.nodeOf r = v) (s.node v) r) =
      (decide (r < l.size) && s.failedHere l v r) := by
    intro r
    by_cases hr : r < l.size
    · rw [h.leaving_eq hv hopen hr]
    · simp [hr]
  rw [scan, if_neg hv]
  split
  · rw [localScan_eq, tally_congr fun r => h.leaving_eq hv hopen]
    exact strikeOff_congr fun r _ => hcongr r
  · have hnone : ∀ r < l.size, s.failedHere l v r = false := fun r => h.not_failedHere hv (by omega)
    rw [tally_eq_zero hnone]
    refine (strikeOff_zero ?_).symm
    intro r _
    by_cases hr : r < l.size
    · simp [hnone r hr]
    · simp [hr]

end BarrierInv

section Strike

variable {c : Coordinator} (hcounted : ∀ r < l.size, s'.counted r = (s.counted r && !s.failedHere l v r))
  (hstruck : ∀ r < l.size, s'.struck r = (s.struck r || s.failedHere l v r)) (hgiven : s'.given = s.given)

theorem of_failedHere (hr : s.failedHere l v r = true) : l.nodeOf r = v ∧ s.counted r = true ∧ s.dead l r = true := by
  simp only [failedHere, and_eq_true, decide_eq_true_eq] at hr
  exact ⟨hr.1.1, hr.1.2, hr.2⟩

include hcounted hstruck hgiven

theorem Tallied.strikeOff (ht : s.Tallied l v c) (hs : s.Counted l) :
    s'.Tallied l v (c.strikeOff (l.leads v) (fun r => r < l.size && s.failedHere l v r)
      (tally (s.failedHere l v) l.size)) := by
  have hheard : s'.heardOf l v = s.heardOf l v := by
    funext r
    rw [heardOf, heardOf, hgiven]
  have hown : ∀ r, l.leads v = true → s.failedHere l v r = true → s.heardOf l v r = true := by
    intro r hleads hf
    simp [heardOf, of_failedHere hf, (leads_iff.mp hleads).2]
  have hadd : ∀ p : Nat → Bool, (∀ r, s.failedHere l v r = true → p r = true) →
      tally (fun r => p r && s'.struck r) l.size =
        tally (fun r => p r && s.struck r) l.size + tally (s.failedHere l v) l.size := by
    intro p hp
    apply tally_add
    · intro r hr
      rw [hstruck r hr]
      cases hf : s.failedHere l v r
      · simp
      · simp [hp r hf]
    · intro r hr hg
      simp [failedHere, (hs.struck r hr (and_eq_true _ _ ▸ hg).2).2.2.1]
  refine ⟨?_, ?_, ?_, ?_, ?_⟩
  · intro r hr hnode
    rw [hcounted r hr]
    simp [Coordinator.strikeOff, hr, ht.recv r hr hnode]
  · have hsplit : tally (s.gathered l v) l.size = tally (s'.gathered l v) l.size + tally (s.failedHere l v) l.size := by
      apply tally_add
      · intro r hr
        unfold gathered
        rw [hcounted r hr, hgiven]
        cases hf : s.failedHere l v r
        · simp
        · simp [of_failedHere hf]
      · intro r hr hg
        by_contra hf
        have hf : s.failedHere l v r = true := by simpa using hf
        simp [gathered, hcounted r hr, hf, of_failedHere hf] at hg
    have := ht.count
    simp only [Coordinator.strikeOff]
    omega
  · intro hleads
    have hsplit : tally (fun r => s.heardOf l v r && s.counted r) l.size =
        tally (fun r => s'.heardOf l v r && s'.counted r) l.size + tally (s.failedHere l v) l.size := by
      rw [hheard]
      apply tally_add
      · intro r hr
        rw [hcounted r hr]
        cases hf : s.failedHere l v r
        · simp
        · simp [of_failedHere hf, hown r hleads hf]
      · intro r hr hg
        rw [hcounted r hr] at hg
        cases hf : s.failedHere l v r
        · rfl
        · simp [hf] at hg
    have := ht.groupCount hleads
    simp only [Coordinator.strikeOff, hleads, if_true]
    omega
  · intro hleads
    have hsplit := hadd (s.heardOf l v) fun r => hown r hleads
    have := ht.reached hleads
    simp only [Coordinator.strikeOff, hleads, if_true, hheard]
    omega
  · intro hleads
    have hsplit := hadd (fun r => l.nodeOf r = v) fun r hf => by simp [of_failedHere hf]
    have := ht.localReached hleads
    simp only [Coordinator.strikeOff]
    omega

theorem BarrierInv.strikeOff (h : s.BarrierInv l) (hv : v ≠ 0) (hopen : s.IsOpen v)
    (hnode : s'.node = Function.update s.node v ((s.node v).strikeOff (l.leads v)
      (fun r => r < l.size && s.failedHere l v r) (tally (s.failedHere l v) l.size)))
    (hdeaths : s.SameDeaths s') (hclients : s.SameClients s') (hreports : s'.reports = s.reports) : s'.BarrierInv l := by
  have hunrep := (h.nodes v hv).unreported hopen
  have hother : ∀ r < l.size, l.nodeOf r ≠ v → s'.counted r = s.counted r ∧ s'.struck r = s.struck r := by
    intro r hr hne
    rw [hcounted r hr, hstruck r hr]
    simp [failedHere, hne]
  have hrep : ∀ w, s'.Reported w ↔ s.Reported w := by
    intro w
    rw [Reported, Reported, hgiven, hreports]
  have hphase : ∀ w, (s'.node w).phase = (s.node w).phase := update_field hnode Coordinator.phase rfl
  have hmain : s'.node 0 = s.node 0 := by rw [hnode, update_of_ne (Ne.symm hv)]
  refine ⟨hdeaths.deaths h.deaths hclients.queue, h.clients.congr hclients hdeaths.live, ?_, ?_, ?_, ?_, ?_⟩
  · have hcounted' : ∀ r < l.size, s'.counted r = true → s.counted r = true := by
      intro r hr hr'
      rw [hcounted r hr, and_eq_true] at hr'
      exact hr'.1
    refine ⟨?_, ?_, ?_, ?_⟩
    · intro r hr hr'
      rw [hclients.arrived, hclients.episodes, hdeaths.noticed]
      exact h.counts.counted r hr (hcounted' r hr hr')
    · intro r hr hlive harr
      rw [hdeaths.dead] at hlive
      rw [hclients.arrived, hclients.episodes] at harr
      rw [hcounted r hr, h.counts.live r hr hlive harr]
      simp [failedHere, hlive]
    · intro r hr hr'
      rw [hdeaths.dead, hdeaths.noticed, hcounted r hr, IsOpen, hphase]
      rw [hstruck r hr, or_eq_true] at hr'
      rcases hr' with hr' | hf
      · obtain ⟨hd, hn, hc, ho⟩ := h.counts.struck r hr hr'
        exact ⟨hd, hn, by simp [hc], ho⟩
      · obtain ⟨hv', hc, hd⟩ := of_failedHere hf
        exact ⟨hd, (h.counts.counted r hr hc).2, by simp [hf], (h.counts.late r hr hc hd (hv' ▸ hv)).1⟩
    · intro r hr hr' hd hzero
      rw [hdeaths.dead] at hd
      rw [IsOpen, IsOpen, hphase, hphase, hmain, hdeaths.dead, hdeaths.noticed]
      exact h.counts.late r hr (hcounted' r hr hr') hd hzero
  · refine update_forall hnode ?_ fun w _ => h.waiting w
    have hw := h.waiting v
    refine ⟨fun hi => absurd hi hopen, hw.checking, ?_, hw.not_blocked, hw.not_aborted⟩
    intro hwait
    have := hw.waiting hwait
    have := tally_nonneg (p := s.failedHere l v) (n := l.size)
    change (s.node v).count - _ < _
    change _ < _ - (s.node v).numFailed
    omega
  · intro w hw
    by_cases hwv : w = v
    · subst hwv
      refine NodeOk.of_open (by rwa [IsOpen, hphase]) (by rwa [hrep]) ?_ ?_
      · rw [hnode, update_self]
        exact ((h.nodes w hw).tallied hopen).strikeOff hcounted hstruck hgiven h.counts
      · obtain ⟨r, hr, hheard⟩ := (h.nodes w hw).heard hopen
        rw [← hgiven] at hheard
        refine ⟨r, hr, hheard.imp_left ?_⟩
        intro hown
        rw [hdeaths.dead, hcounted r hr]
        exact ⟨hown.1, by simp [failedHere, hown.2], hown.2.2⟩
    · refine (h.nodes w hw).congr ?_ ⟨fun _ _ _ => by rw [hgiven], hrep w, ?_⟩ fun r _ _ => by rw [hdeaths.dead]
      · rw [hnode, update_of_ne hwv]
        exact SameCounts.refl _
      · intro r hr hor
        refine hother r hr fun heq => ?_
        rcases hor with hown | hmember
        · exact hwv (hown.symm.trans heq)
        · rw [heq] at hmember
          exact hunrep (Or.inl hmember.2)
  · refine h.mail.congr hreports hgiven ?_ fun r hr hr' => by rw [hstruck r hr, hr', Bool.true_or]
    intro m hm r hr hunit
    refine (hother r hr ?_).1
    intro hne
    rw [h.not_inUnit hr (by rwa [hne]) hm] at hunit
    contradiction
  · refine h.main.congr (by rw [hmain]; exact SameCounts.refl _) (by rw [hmain])
      ⟨fun r _ => by rw [hdeaths.noticed], fun _ _ => by rw [hgiven], ?_⟩ fun r _ => by rw [hdeaths.dead]
    intro r hr hor
    refine (hother r hr fun heq => ?_).1
    rcases hor with hown | hmember
    · exact hv (heq.symm.trans hown)
    · rw [h.not_given_top hr (by rwa [heq])] at hmember
      contradiction

end Strike

section Report

def awaited (l : Nodes) (s : Coordinators) (v r : Nat) : Bool := l.inUnit v r && !(l.nodeOf r = v && s.dead l r)

theorem inUnit_self (hnode : l.nodeOf r = v) (hv : v ≠ 0) : l.inUnit v r = true := by
  cases hleads : l.leads v
  · rw [inUnit_of_not_leads hv hleads, hnode, decide_eq_true rfl]
  · rw [inUnit_of_leads hleads, hnode, (leads_iff.mp hleads).2, decide_eq_true rfl]

namespace BarrierInv

variable (h : s.BarrierInv l) (hv : v ≠ 0) (hopen : s.IsOpen v)
  (hlive : ∀ r < l.size, l.nodeOf r = v → s.counted r = true → s.dead l r = false)

include h hv in
theorem tally_awaited : tally (s.awaited l v) l.size = l.barrierSize v - (s.node v).numFailed := by
  have hsplit : l.unitSize v = tally (s.awaited l v) l.size + tally (fun r => l.nodeOf r = v && s.dead l r) l.size := by
    apply tally_add
    · intro r _
      unfold awaited
      by_cases hnode : l.nodeOf r = v
      · simp [hnode, inUnit_self hnode hv, Bool.or_comm]
      · simp [hnode]
    · intro r _ hr
      unfold awaited at hr
      rw [and_eq_true, not_eq_true'] at hr
      exact hr.2
  have hfailed : (s.node v).numFailed = tally (fun r => l.nodeOf r = v && s.dead l r) l.size := by
    rw [h.deaths.numFailed]
    apply tally_congr
    intro r _
    unfold dead Nodes.watches
    by_cases hnode : l.nodeOf r = v
    · simp [hnode]
    · simp [hnode, hv]
  rw [Nodes.barrierSize, if_neg hv]
  omega

include hv hlive in
theorem awaited_of_gathered (hr : r < l.size) (hg : s.gathered l v r = true) : s.awaited l v r = true := by
  simp only [gathered, or_eq_true, and_eq_true, decide_eq_true_eq] at hg
  rcases hg with ⟨hnode, hcounted⟩ | ⟨⟨⟨hleads, hgroup⟩, hne⟩, -⟩
  · simp [awaited, inUnit_self hnode hv, hlive r hr hnode hcounted]
  · simp [awaited, inUnit_of_leads hleads, hgroup, hne]

include h hv hopen hlive

theorem count_le : (s.node v).count ≤ l.barrierSize v - (s.node v).numFailed := by
  rw [← h.tally_awaited hv, ((h.nodes v hv).tallied hopen).count]
  exact tally_mono fun r => awaited_of_gathered hv hlive

variable (hcount : (s.node v).count = l.barrierSize v - (s.node v).numFailed)

include hcount

theorem gathered_of_awaited (hr : r < l.size) (ha : s.awaited l v r = true) : s.gathered l v r = true := by
  rw [← h.tally_awaited hv, ((h.nodes v hv).tallied hopen).count] at hcount
  exact of_tally_le (fun r => awaited_of_gathered hv hlive) hcount.ge hr ha

theorem unit_full : (∀ r < l.size, l.nodeOf r = v → s.dead l r = false → s.counted r = true) ∧
    ∀ r < l.size, l.leads v = true → l.leader (l.nodeOf r) = v → l.nodeOf r ≠ v → s.given (l.nodeOf r) = true := by
  refine ⟨?_, ?_⟩
  · intro r hr hnode hl
    have := h.gathered_of_awaited hv hopen hlive hcount hr (by simp [awaited, inUnit_self hnode hv, hl])
    simpa [gathered, hnode] using this
  · intro r hr hleads hgroup hne
    have := h.gathered_of_awaited hv hopen hlive hcount hr (by simp [awaited, inUnit_of_leads hleads, hgroup, hne])
    simpa [gathered, hne, hleads, hgroup] using this

theorem report_spec : ((s.node v).report l v).nid = v ∧
    ((s.node v).report l v).bcount = tally (fun r => l.inUnit v r && s.counted r) l.size ∧
    ((s.node v).report l v).fprb ≤ tally (fun r => l.inUnit v r && s.struck r) l.size := by
  have ht := (h.nodes v hv).tallied hopen
  unfold report
  cases hleads : l.leads v
  · refine ⟨rfl, ?_, ?_⟩
    · rw [ht.count]
      apply tally_congr
      intro r _
      simp [gathered, hleads, inUnit_of_not_leads hv hleads]
    · refine (ht.localReached hleads).trans_eq ?_
      simp only [inUnit_of_not_leads hv hleads]
  · have hheard : ∀ r < l.size, s.heardOf l v r = l.inUnit v r := by
      intro r hr
      rw [inUnit_of_leads hleads, heardOf]
      by_cases hgroup : l.leader (l.nodeOf r) = v
      · by_cases hne : l.nodeOf r = v
        · simp [hne]
        · simp [hgroup, (h.unit_full hv hopen hlive hcount).2 r hr hleads hgroup hne]
      · simp [hgroup]
    refine ⟨rfl, ?_, ?_⟩
    · rw [ht.groupCount hleads]
      exact tally_congr fun r hr => by rw [hheard r hr]
    · refine (ht.reached hleads).trans_eq ?_
      exact tally_congr fun r hr => by rw [hheard r hr]

theorem report_pos : 0 < ((s.node v).report l v).bcount := by
  rw [(h.report_spec hv hopen hlive hcount).2.1]
  obtain ⟨r, hr, hheard⟩ := (h.nodes v hv).heard hopen
  rcases hheard with ⟨hnode, hcounted, -⟩ | ⟨hleads, hgroup, hne, hgiven⟩
  · exact tally_pos hr (by simp [inUnit_self hnode hv, hcounted])
  · -- A member that has reported has somebody who lives.
    obtain ⟨r', hr', hnode', hlive'⟩ := h.deaths.alive r hr
    have hzero : l.nodeOf r ≠ 0 := nodeOf_ne_zero_of_leader (by rwa [hgroup])
    have hcounted := ((h.nodes _ hzero).full (.inl hgiven)).1 r' hr' hnode' hlive'
    exact tally_pos hr' (by simp [inUnit_of_leads hleads, hnode', hgroup, hcounted])

theorem report : ({ s.setNode v (s.node v).reported with
    reports := s.reports ++ [(s.node v).report l v] } : Coordinators).BarrierInv l := by
  obtain ⟨hnid, hbcount, hfprb⟩ := h.report_spec hv hopen hlive hcount
  have hpos := h.report_pos hv hopen hlive hcount
  have hunrep := (h.nodes v hv).unreported hopen
  generalize hs' : ({ s.setNode v (s.node v).reported with
    reports := s.reports ++ [(s.node v).report l v] } : Coordinators) = s'
  obtain ⟨hnode, hreports, hgiven, hcounted, hstruck, hclients, hdeaths⟩ :
      s'.node = Function.update s.node v (s.node v).reported ∧ s'.reports = s.reports ++ [(s.node v).report l v] ∧
      s'.given = s.given ∧ s'.counted = s.counted ∧ s'.struck = s.struck ∧ s.SameClients s' ∧ s.SameDeaths s' := by
    rw [← hs']
    exact ⟨rfl, rfl, rfl, rfl, rfl, ⟨rfl, rfl, rfl, rfl⟩, SameDeaths.of_update rfl⟩
  have hsame : ∀ w, w ≠ v → s'.node w = s.node w := by
    intro w hw
    rw [hnode, update_of_ne hw]
  have hmain := hsame 0 (Ne.symm hv)
  have hidle : (s'.node v).phase = .idle := by
    rw [hnode, update_self]
    rfl
  have hrepv : s'.Reported v := Or.inr ⟨_, by rw [hreports]; exact mem_append_right _ (mem_singleton.mpr rfl), hnid⟩
  refine ⟨hdeaths.deaths h.deaths hclients.queue, h.clients.congr hclients hdeaths.live, ?_, ?_, ?_, ?_, ?_⟩
  · refine h.counts.mono hcounted hstruck hclients.arrived hclients.episodes
      (fun r _ hr => by rwa [hdeaths.dead]) hdeaths.noticed (fun ho => by rwa [IsOpen, hmain]) ?_
    intro r hr hc hd hzero
    rw [hdeaths.dead] at hd
    have hne : l.nodeOf r ≠ v := fun heq => by
      rw [hlive r hr heq hc] at hd
      contradiction
    rw [IsOpen, hmain, hdeaths.dead, IsOpen, hsame _ hne]
    exact h.counts.late r hr hc hd hzero
  · exact update_forall hnode (Waiting.of_idle rfl ⟨rfl, rfl, rfl⟩) fun w _ => h.waiting w
  · intro w hw
    by_cases hwv : w = v
    · subst hwv
      refine ⟨fun _ => ?_, fun _ => absurd hrepv, absurd hidle, absurd hidle, absurd hidle, fun _ => ?_⟩
      · rw [hnode, update_self]
        exact le_rfl
      · rw [hcounted, hgiven, hdeaths.dead]
        exact h.unit_full hv hopen hlive hcount
    · refine (h.nodes w hw).congr (by rw [hsame w hwv]; exact SameCounts.refl _) ⟨fun _ _ _ => by rw [hgiven], ?_, ?_⟩
        fun r _ _ => by rw [hdeaths.dead]
      · rw [Reported, Reported, hgiven, hreports]
        refine or_congr_right ⟨?_, ?_⟩
        · intro hex
          obtain ⟨m, hm, hmw⟩ := hex
          rcases mem_append.mp hm with hm | hm
          · exact ⟨m, hm, hmw⟩
          · rw [mem_singleton.mp hm, hnid] at hmw
            exact absurd hmw.symm hwv
        · intro hex
          obtain ⟨m, hm, hmw⟩ := hex
          exact ⟨m, mem_append_left _ hm, hmw⟩
      · intro r _ _
        rw [hcounted, hstruck]
        exact ⟨rfl, rfl⟩
  · have hmem : ∀ m ∈ s'.reports, m ∈ s.reports ∨ m = (s.node v).report l v := by
      rw [hreports]
      simp
    refine ⟨?_, ?_, ?_, ?_, by rw [hgiven]; exact h.mail.given_zero⟩
    · rw [hreports, map_append, map_singleton, hnid]
      refine List.Nodup.append h.mail.nodup (nodup_singleton v) ?_
      intro w hw hw'
      obtain ⟨m, hm, hmw⟩ := List.mem_map.mp hw
      exact hunrep (Or.inr ⟨m, hm, hmw.trans (mem_singleton.mp hw')⟩)
    · intro m hm
      rw [hgiven]
      rcases hmem m hm with hm | rfl
      · exact h.mail.sender m hm
      · rw [hnid]
        refine ⟨hv, ?_⟩
        by_contra hg
        exact hunrep (Or.inl (by simpa using hg))
    · intro m hm
      rw [hcounted]
      rcases hmem m hm with hm | rfl
      · exact h.mail.bcount m hm
      · rw [hnid]
        exact ⟨hbcount, hpos⟩
    · intro m hm
      rw [hstruck]
      rcases hmem m hm with hm | rfl
      · exact h.mail.fprb m hm
      · rw [hnid]
        exact hfprb
  · exact h.main.congr (by rw [hmain]; exact SameCounts.refl _) (by rw [hmain])
      ⟨fun r _ => by rw [hdeaths.noticed], fun _ _ => by rw [hgiven], fun _ _ _ => by rw [hcounted]⟩
      fun r _ => by rw [hdeaths.dead]

end BarrierInv

end Report

section Check

variable {c : Coordinator}

def struckOut (s : Coordinators) (v : Nat) (c : Coordinator) : Coordinators :=
  { s with
    counted := fun r => s.counted r && !((s.node v).recvRank r && !c.recvRank r)
    struck := fun r => s.struck r || v ≠ 0 && ((s.node v).recvRank r && !c.recvRank r) }

theorem check_cases (hs : s.check l v = some s') : ∃ n, (s.node v).phase = .checking n ∧
    ∃ c, c = (s.node v).scan l v n ∧
      (c.count < l.barrierSize v - n ∧ s' = (s.struckOut v c).setNode v { c with phase := .waiting false } ∨
        l.barrierSize v - n < c.count ∨
        c.count = l.barrierSize v - n ∧ v = 0 ∧ s' = (s.struckOut 0 c).release l c ∨
        c.count = l.barrierSize v - n ∧ v ≠ 0 ∧ s' = { (s.struckOut v c).setNode v c.reported with
          reports := s.reports ++ [c.report l v] }) := by
  unfold Coordinators.check at hs
  dsimp only at hs
  split at hs
  swap
  · contradiction
  rename_i n hphase
  refine ⟨n, hphase, _, rfl, ?_⟩
  generalize (s.node v).scan l v n = c at *
  obtain rfl := Option.some_inj.mp hs
  split
  · rename_i hlt
    exact .inl ⟨hlt, rfl⟩
  · split
    · exact .inr (.inl (by omega))
    · have heq : c.count = l.barrierSize v - n := by omega
      split
      · rename_i hv
        subst hv
        exact .inr (.inr (.inl ⟨heq, rfl, rfl⟩))
      · rename_i hv
        exact .inr (.inr (.inr ⟨heq, hv, rfl⟩))

theorem BarrierInv.checkNode (h : s.BarrierInv l) (hv : v ≠ 0) (hs : s.check l v = some s') : s'.BarrierInv l := by
  obtain ⟨n, hphase, c, hc, hcases⟩ := check_cases hs
  have hopen : s.IsOpen v := by
    rw [IsOpen, hphase]
    simp
  obtain rfl := (h.waiting v).checking n hphase
  rw [h.scan_local hv hopen] at hc
  have hout : ∀ r < l.size, ((s.node v).recvRank r && !c.recvRank r) = s.failedHere l v r := by
    intro r hr
    rw [hc]
    cases hf : s.failedHere l v r
    · simp [Coordinator.strikeOff, hf]
    · obtain ⟨hnode, hcounted, -⟩ := of_failedHere hf
      simp [Coordinator.strikeOff, hf, hr, ((h.nodes v hv).tallied hopen).recv r hr hnode, hcounted]
  have hcounted : ∀ r < l.size, (s.struckOut v c).counted r = (s.counted r && !s.failedHere l v r) := by
    intro r hr
    unfold struckOut
    dsimp only
    rw [hout r hr]
  have hstruck : ∀ r < l.size, (s.struckOut v c).struck r = (s.struck r || s.failedHere l v r) := by
    intro r hr
    unfold struckOut
    dsimp only
    rw [hout r hr, decide_eq_true hv, Bool.true_and]
  have hdeaths : s.SameDeaths ((s.struckOut v c).setNode v c) := by
    subst hc
    exact SameDeaths.of_update rfl
  have hscanned : ((s.struckOut v c).setNode v c).BarrierInv l := by
    refine BarrierInv.strikeOff (s := s) hcounted hstruck rfl h hv hopen ?_ hdeaths ⟨rfl, rfl, rfl, rfl⟩ rfl
    rw [← hc]
    rfl
  have hlive : ∀ r < l.size, l.nodeOf r = v → ((s.struckOut v c).setNode v c).counted r = true →
      ((s.struckOut v c).setNode v c).dead l r = false := by
    intro r hr hnode hcount
    rw [hdeaths.dead]
    have := (hcounted r hr).symm.trans hcount
    by_contra hd
    simp [failedHere, hnode, show s.dead l r = true by simpa using hd] at this
  have hself : ((s.struckOut v c).setNode v c).node v = c := update_self _ _ _
  have hopen' : ((s.struckOut v c).setNode v c).IsOpen v := by
    rw [IsOpen, hself, hc]
    exact hopen
  have hle := hscanned.count_le hv hopen' hlive
  have hfailed : c.numFailed = (s.node v).numFailed := by
    rw [hc]
    rfl
  rw [hself, hfailed] at hle
  rcases hcases with ⟨hlt, rfl⟩ | hgt | ⟨-, hzero, -⟩ | ⟨heq, -, rfl⟩
  · have hsleep := hscanned.setPhase (v := v) (p := .waiting false)
      ⟨by simp, fun hi => absurd hi hopen'⟩ (Waiting.of_waiting rfl (by rwa [hself, hfailed]))
    rw [hself] at hsleep
    simpa only [setNode, update_idem] using hsleep
  · omega
  · exact absurd hzero hv
  · have hreport := hscanned.report hv hopen' hlive (by rw [hself, hfailed]; exact heq)
    rw [hself] at hreport
    simp only [setNode, update_idem] at hreport
    exact hreport

end Check

end Coordinators

end ParepMpi
