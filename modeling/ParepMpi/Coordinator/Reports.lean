import ParepMpi.Coordinator.Arrival

/-!
# Reports

A report adds to the count of a leader or of the main coordinator.
-/

namespace ParepMpi

open List Function Nodes Bool

namespace Coordinators

variable {l : Nodes} {s s' : Coordinators} {c : Coordinator} {m : Report} {r v w : Nat}

structure Taken (s s' : Coordinators) (m : Report) : Prop extends s.SameClients s' where
  reports : ∃ a b, s.reports = a ++ m :: b ∧ s'.reports = a ++ b
  given : s'.given = Function.update s.given m.nid true
  counted : s'.counted = s.counted
  struck : s'.struck = s.struck

namespace Taken

variable (hs : s.Taken s' m)

include hs

theorem mem : m ∈ s.reports := by
  obtain ⟨a, b, hrep, -⟩ := hs.reports
  simp [hrep]

variable {m' : Report}

theorem mem_of_mem (hm : m' ∈ s'.reports) : m' ∈ s.reports := by
  obtain ⟨a, b, hrep, hrep'⟩ := hs.reports
  rw [hrep'] at hm
  rw [hrep]
  rcases mem_append.mp hm with hm | hm
  · exact mem_append_left _ hm
  · exact mem_append_right _ (mem_cons_of_mem _ hm)

theorem mem_of_ne (hm : m' ∈ s.reports) (hne : m' ≠ m) : m' ∈ s'.reports := by
  obtain ⟨a, b, hrep, hrep'⟩ := hs.reports
  rw [hrep] at hm
  rw [hrep']
  rcases mem_append.mp hm with hm | hm
  · exact mem_append_left _ hm
  · exact mem_append_right _ ((mem_cons.mp hm).resolve_left hne)

theorem given_of_ne (hv : v ≠ m.nid) : s'.given v = s.given v := by rw [hs.given, update_of_ne hv]

theorem given_self : s'.given m.nid = true := by rw [hs.given, update_self]

theorem reported : s'.Reported v ↔ s.Reported v := by
  by_cases hv : v = m.nid
  · subst hv
    exact ⟨fun _ => .inr ⟨m, hs.mem, rfl⟩, fun _ => .inl hs.given_self⟩
  · rw [Reported, Reported, hs.given_of_ne hv]
    refine or_congr_right ⟨?_, ?_⟩
    · intro h
      obtain ⟨m', hm', hnid⟩ := h
      exact ⟨m', hs.mem_of_mem hm', hnid⟩
    · intro h
      obtain ⟨m', hm', hnid⟩ := h
      exact ⟨m', hs.mem_of_ne hm' fun heq => hv (by rw [← hnid, heq]), hnid⟩

theorem mail (h : s.Mail l) : s'.Mail l := by
  obtain ⟨hnot, hnodup⟩ : m.nid ∉ s'.reports.map Report.nid ∧ (s'.reports.map Report.nid).Nodup := by
    obtain ⟨a, b, hrep, hrep'⟩ := hs.reports
    have hnodup := h.nodup
    rw [hrep, map_append, map_cons, nodup_middle, ← map_append, ← hrep'] at hnodup
    exact nodup_cons.mp hnodup
  have hne : ∀ m' ∈ s'.reports, m'.nid ≠ m.nid := fun m' hm' heq => hnot (heq ▸ mem_map_of_mem hm')
  refine ⟨hnodup, ?_, ?_, ?_, ?_⟩
  · intro m' hm'
    rw [hs.given_of_ne (hne m' hm')]
    exact h.sender m' (hs.mem_of_mem hm')
  · rw [hs.counted]
    exact fun m' hm' => h.bcount m' (hs.mem_of_mem hm')
  · rw [hs.struck]
    exact fun m' hm' => h.fprb m' (hs.mem_of_mem hm')
  · rw [hs.given_of_ne (h.sender m hs.mem).1.symm]
    exact h.given_zero

end Taken

theorem Tallied.gather (h : s.Tallied l v c) (hs : s.Taken s' m) (hleads : l.leads v = true)
    (hgroup : l.leader m.nid = v) (hne : m.nid ≠ v) (hgiven : s.given m.nid = false)
    (hbcount : m.bcount = tally (fun r => l.nodeOf r = m.nid && s.counted r) l.size)
    (hfprb : m.fprb ≤ tally (fun r => l.nodeOf r = m.nid && s.struck r) l.size) : s'.Tallied l v (c.gather l m) := by
  have hheard : ∀ r, s'.heardOf l v r = (s.heardOf l v r || l.nodeOf r = m.nid) := by
    intro r
    unfold heardOf
    by_cases hr : l.nodeOf r = m.nid
    · simp [hr, hgroup, hs.given_self]
    · simp [hr, hs.given_of_ne hr]
  have hnot : ∀ r, s.heardOf l v r = true → l.nodeOf r ≠ m.nid := by
    intro r hr heq
    simp [heardOf, heq, hgiven, hne] at hr
  refine ⟨?_, ?_, ?_, ?_, ?_⟩
  · rw [hs.counted]
    exact h.recv
  · unfold Coordinator.gather Nodes.sizeOf
    rw [h.count]
    refine (tally_add ?_ ?_).symm
    · intro r _
      unfold gathered
      by_cases hr : l.nodeOf r = m.nid
      · simp [hr, hgroup, hne, hleads, hs.given_self]
      · simp [hr, hs.given_of_ne hr, hs.counted]
    · intro r _ hr
      rw [decide_eq_false_iff_not]
      intro heq
      simp [gathered, heq, hgiven, hne] at hr
  · intro _
    unfold Coordinator.gather
    rw [h.groupCount hleads, hbcount]
    refine (tally_add ?_ ?_).symm
    · intro r _
      rw [hheard, hs.counted, and_or_distrib_right]
    · intro r _ hr
      rw [and_eq_true] at hr
      simp [hnot r hr.1]
  · intro _
    have hsplit : tally (fun r => s'.heardOf l v r && s'.struck r) l.size =
        tally (fun r => s.heardOf l v r && s.struck r) l.size +
          tally (fun r => l.nodeOf r = m.nid && s.struck r) l.size := by
      apply tally_add
      · intro r _
        rw [hheard, hs.struck, and_or_distrib_right]
      · intro r _ hr
        rw [and_eq_true] at hr
        simp [hnot r hr.1]
    have := h.reached hleads
    unfold Coordinator.gather
    dsimp only
    omega
  · intro hnotLeads
    rw [hleads] at hnotLeads
    contradiction

/-! ### A report at the main coordinator

The main coordinator infers from a report how many processes of the unit have failed without its knowledge. -/

theorem BarrierInv.lfail_eq (h : s.BarrierInv l) (hm : m ∈ s.reports) :
    s.lfail l m = tally (fun r => l.inUnit m.nid r && !s.counted r && !s.noticed r) l.size := by
  have hinform : (if l.leader m.nid = m.nid then s.informGroup m.nid else s.informNode m.nid) =
      tally (fun r => l.inUnit m.nid r && s.noticed r) l.size := by
    unfold Nodes.inUnit
    split
    · exact h.deaths.informGroup m.nid
    · exact h.deaths.informNode m.nid
  have hcounted : l.unitSize m.nid = tally (fun r => l.inUnit m.nid r && s.counted r) l.size +
      tally (fun r => l.inUnit m.nid r && !s.counted r) l.size := by
    apply tally_add
    · intro r _
      cases s.counted r
      all_goals simp
    · intro r _ hr
      simp [(and_eq_true _ _ ▸ hr).2]
  have hnoticed : tally (fun r => l.inUnit m.nid r && !s.counted r) l.size =
      tally (fun r => l.inUnit m.nid r && s.noticed r) l.size +
        tally (fun r => l.inUnit m.nid r && !s.counted r && !s.noticed r) l.size := by
    apply tally_add
    · intro r hr
      cases hn : s.noticed r
      · simp
      · have hnot : s.counted r = false := by
          by_contra hc
          rw [(h.counts.counted r hr (by simpa using hc)).2] at hn
          contradiction
        simp [hnot]
    · intro r _ hr
      simp [(and_eq_true _ _ ▸ hr).2]
  rw [lfail, hinform, (h.mail.bcount m hm).1]
  omega

theorem BarrierInv.fprb_le_lfail (h : s.BarrierInv l) (hm : m ∈ s.reports) : m.fprb ≤ s.lfail l m := by
  rw [h.lfail_eq hm]
  refine (h.mail.fprb m hm).trans (tally_mono ?_)
  intro r hr hand
  rw [and_eq_true] at hand
  obtain ⟨-, hnoticed, hcounted, -⟩ := h.counts.struck r hr hand.2
  simp [hand.1, hnoticed, hcounted]

theorem BarrierInv.exists_of_lfail_pos (h : s.BarrierInv l) (hm : m ∈ s.reports) (hpos : 0 < s.lfail l m) :
    ∃ r < l.size, s.dead l r = true ∧ s.noticed r = false ∧ s.counted r = false := by
  rw [h.lfail_eq hm] at hpos
  obtain ⟨r, hr, hand⟩ := exists_of_tally_pos hpos
  simp only [and_eq_true, not_eq_true'] at hand
  refine ⟨r, hr, ?_, hand.2, hand.1.2⟩
  by_contra hlive
  have hcounted := h.unit_counted (h.mail.sender m hm).1 (.inr ⟨m, hm, rfl⟩) hr hand.1.1 (by simpa using hlive)
  rw [hand.1.2] at hcounted
  contradiction

variable {k : Int} {i : Nat}

theorem reached_takeReport (hpos : 0 < k) : (c.takeReport l m k).reached ≠ -1 := by
  unfold Coordinator.takeReport
  dsimp only
  rw [if_pos hpos]
  split
  · split
    · decide
    · omega
  · decide

theorem reached_takeReport_of_le (hle : k ≤ 0) : (c.takeReport l m k).reached = c.reached := by
  exact if_neg (by omega)

theorem MainTallied.takeReport (ht : s.MainTallied l c) (h : s.BarrierInv l) (hs : s.Taken s' m)
    (hdest : l.dest m.nid = 0) (hdead : s'.dead l = s.dead l) (hnoticed : s'.noticed = s.noticed) :
    s'.MainTallied l (c.takeReport l m (s.lfail l m)) := by
  obtain ⟨hnid, hgiven⟩ := h.mail.sender m hs.mem
  have htop : ∀ r, l.nodeOf r ≠ 0 → (l.inUnit m.nid r = true ↔ l.top r = m.nid) := fun r => inUnit_iff_top hnid hdest
  have hown : ∀ r, l.nodeOf r = 0 → l.inUnit m.nid r = false := by
    intro r hr
    by_contra hunit
    exact inUnit_ne_zero hnid (by simpa using hunit) hr
  refine ⟨?_, ?_, ?_, ?_, ?_, ?_⟩
  · intro r hr hnode
    unfold Coordinator.takeReport
    dsimp only
    rw [hown r hnode, Bool.or_false, hs.counted]
    exact ht.own r hr hnode
  · intro r hr hnode hhere
    unfold Coordinator.takeReport
    rw [or_eq_true]
    by_cases hr' : l.top r = m.nid
    · exact .inr ((htop r hnode).mpr hr')
    · refine .inl (ht.recv r hr hnode ?_)
      unfold here at hhere ⊢
      rwa [hs.counted, hs.given_of_ne hr'] at hhere
  · intro r hr hnode hrecv
    by_cases hr' : l.top r = m.nid
    · rw [hr', hs.given_self]
    · rw [hs.given_of_ne hr']
      apply ht.given r hr hnode
      unfold Coordinator.takeReport at hrecv
      rw [or_eq_true] at hrecv
      exact hrecv.resolve_right fun hunit => hr' ((htop r hnode).mp hunit)
  · unfold Coordinator.takeReport
    rw [ht.count, (h.mail.bcount m hs.mem).1]
    refine (tally_add ?_ ?_).symm
    · intro r _
      unfold here
      rw [hs.counted]
      by_cases hnode : l.nodeOf r = 0
      · simp [hnode, hown r hnode]
      · by_cases hr' : l.top r = m.nid
        · simp [hr', hs.given_self, hgiven, hnode, (htop r hnode).mpr hr']
        · have hunit : l.inUnit m.nid r = false := by
            by_contra hunit
            exact hr' ((htop r hnode).mp (by simpa using hunit))
          simp [hs.given_of_ne hr', hunit]
    · intro r _ hhere
      by_cases hnode : l.nodeOf r = 0
      · simp [hown r hnode]
      · have hr' : l.top r ≠ m.nid := fun heq => by simp [here, hnode, heq, hgiven] at hhere
        have hunit : l.inUnit m.nid r = false := by
          by_contra hunit
          exact hr' ((htop r hnode).mp (by simpa using hunit))
        simp [hunit]
  · intro r hr hnode hg hc hn
    rw [hs.counted] at hc
    rw [hnoticed] at hn
    by_cases hpos : 0 < s.lfail l m
    · exact reached_takeReport hpos
    · rw [reached_takeReport_of_le (by omega)]
      by_cases hr' : l.top r = m.nid
      · rw [h.lfail_eq hs.mem] at hpos
        exact absurd (tally_pos hr (by simp [(htop r hnode).mpr hr', hc, hn])) hpos
      · rw [hs.given_of_ne hr'] at hg
        exact ht.gone r hr hnode hg hc hn
  · intro hne
    rw [hdead, hnoticed]
    by_cases hpos : 0 < s.lfail l m
    · obtain ⟨r, hr, hd, hn, -⟩ := h.exists_of_lfail_pos hs.mem hpos
      exact ⟨r, hr, hd, hn⟩
    · rw [reached_takeReport_of_le (by omega)] at hne
      exact ht.seen hne

section

variable (h : s.BarrierInv l)

include h

theorem BarrierInv.take (hs : s.Taken s' m)
    (hnode : s'.node = Function.update s.node (l.dest m.nid) c) (hdeaths : s.SameDeaths s')
    (hwaiting : Waiting l (l.dest m.nid) c) (hopen : c.phase ≠ .idle)
    (hmember : l.dest m.nid ≠ 0 → s'.NodeOk l (l.dest m.nid))
    (hmain : l.dest m.nid = 0 → s'.MainOk l ∧
      (s.IsOpen 0 → c.reached = (s.node 0).reached ∨ 0 < s.lfail l m)) : s'.BarrierInv l := by
  obtain ⟨hnid, hgiven⟩ := h.mail.sender m hs.mem
  have hsame : ∀ w, w ≠ l.dest m.nid → s'.node w = s.node w := by
    intro w hw
    rw [hnode, update_of_ne hw]
  refine ⟨hdeaths.deaths h.deaths hs.queue, h.clients.congr hs.toSameClients hdeaths.live, ?_,
    update_forall hnode hwaiting fun w _ => h.waiting w, ?_, hs.mail h.mail, ?_⟩
  · refine h.counts.congr hs.counted hs.struck hs.arrived hs.episodes hdeaths.dead hdeaths.noticed ?_ ?_
    · intro w hw
      exact update_forall (P := fun w c => s.IsOpen w → c.phase ≠ .idle) hnode (fun _ => hopen) (fun _ _ hw => hw) w hw
    · intro r hr hcounted hopen0 hreached halone
      by_cases hzero : l.dest m.nid = 0
      · rw [hnode, hzero, update_self]
        rcases (hmain hzero).2 hopen0 with heq | hpos
        · exact heq.trans hreached
        · -- A failure that the report does not account for would be a second one.
          obtain ⟨r', hr', hd, hn, hc⟩ := h.exists_of_lfail_pos hs.mem hpos
          rw [halone r' hr' hd hn, hcounted] at hc
          contradiction
      · rw [hsame 0 (Ne.symm hzero)]
        exact hreached
  · intro w hw
    by_cases hwd : w = l.dest m.nid
    · rw [hwd] at hw ⊢
      exact hmember hw
    · refine (h.nodes w hw).congr (by rw [hsame w hwd]; exact SameCounts.refl _) ⟨?_, hs.reported, ?_⟩
        fun r _ _ => by rw [hdeaths.dead]
      · intro u hu hne
        refine hs.given_of_ne fun heq => hwd ?_
        rw [← hu, heq, Nodes.dest, if_neg (by rw [← heq, hu]; exact hne.symm)]
      · intro r _ _
        rw [hs.counted, hs.struck]
        exact ⟨rfl, rfl⟩
  · by_cases hzero : l.dest m.nid = 0
    · exact (hmain hzero).1
    · have hz := hsame 0 (Ne.symm hzero)
      refine h.main.congr (by rw [hz]; exact SameCounts.refl _) (by rw [hz]) ⟨?_, ?_, ?_⟩ fun r _ => by rw [hdeaths.dead]
      · intro r _
        rw [hdeaths.noticed]
      · intro u hu
        exact hs.given_of_ne fun heq => hzero (by rw [← heq, hu])
      · intro r _ _
        rw [hs.counted]

theorem BarrierInv.unit_live (hm : m ∈ s.reports) :
    ∃ r < l.size, l.inUnit m.nid r = true ∧ s.dead l r = false ∧ s.counted r = true := by
  obtain ⟨hb, hpos⟩ := h.mail.bcount m hm
  rw [hb] at hpos
  obtain ⟨r, hr, hand⟩ := exists_of_tally_pos hpos
  obtain ⟨r', hr', hnode, hlive⟩ := h.deaths.alive r hr
  have hunit : l.inUnit m.nid r' = true := by
    rw [and_eq_true] at hand
    unfold Nodes.inUnit at hand ⊢
    rw [hnode]
    exact hand.1
  exact ⟨r', hr', hunit, hlive, h.unit_counted (h.mail.sender m hm).1 (.inr ⟨m, hm, rfl⟩) hr' hunit hlive⟩

theorem BarrierInv.not_reported_leader (hm : m ∈ s.reports) (hd : l.dest m.nid ≠ 0) : ¬ s.Reported (l.dest m.nid) := by
  intro hrep
  obtain ⟨hnid, hgiven⟩ := h.mail.sender m hm
  obtain ⟨hself, hdest, hnotLeads⟩ := dest_eq_leader hd
  rw [hdest] at hd hrep
  obtain ⟨r, hr, hin, -⟩ := h.unit_live hm
  rw [inUnit_of_not_leads hnid hnotLeads, decide_eq_true_eq] at hin
  have := ((h.nodes _ hd).full hrep).2 r hr (leads_iff.mpr ⟨hd, l.leader_leader _⟩) (by rw [hin])
    (by rw [hin]; exact hself.symm)
  rw [hin, hgiven] at this
  contradiction

variable {p : BarrierPhase}

theorem BarrierInv.takeAtLeader (hs : s.Taken s' m) (hd : l.dest m.nid ≠ 0)
    (hnode : s'.node = Function.update s.node (l.dest m.nid) { c.gather l m with phase := p })
    (hdeaths : s.SameDeaths s') (htallied : s.Tallied l (l.dest m.nid) c)
    (hphase : p.Running)
    (hwait : p = .waiting false → c.count + l.sizeOf m.nid < l.barrierSize (l.dest m.nid) - c.numFailed) :
    s'.BarrierInv l := by
  obtain ⟨hnid, hgiven⟩ := h.mail.sender m hs.mem
  obtain ⟨hself, hdest, hnotLeads⟩ := dest_eq_leader hd
  have hunrep := mt hs.reported.mp (h.not_reported_leader hs.mem hd)
  rw [hdest] at hd hnode htallied hwait hunrep
  have hleads : l.leads (l.leader m.nid) = true := leads_iff.mpr ⟨hd, l.leader_leader _⟩
  have hunit : ∀ r, l.inUnit m.nid r = decide (l.nodeOf r = m.nid) := fun r => inUnit_of_not_leads hnid hnotLeads
  obtain ⟨r, hr, hin, hlive, hcounted⟩ := h.unit_live hs.mem
  rw [hunit, decide_eq_true_eq] at hin
  refine h.take hs (by rw [hdest]; exact hnode) hdeaths ?_ hphase.ne_idle ?_
    fun hzero => absurd (hdest.symm.trans hzero) hd
  · rw [hdest]
    exact Waiting.of_running hphase hwait
  · intro _
    rw [hdest]
    have hb := (h.mail.bcount m hs.mem).1
    have hf := h.mail.fprb m hs.mem
    simp only [hunit] at hb hf
    have ht := htallied.gather hs hleads rfl (Ne.symm hself) hgiven hb hf
    refine NodeOk.of_open ?_ hunrep ?_
      ⟨r, hr, Or.inr ⟨hleads, by rw [hin], by rw [hin]; exact hself.symm, by rw [hin, hs.given_self]⟩⟩
    · rw [IsOpen, hnode, update_self]
      exact hphase.ne_idle
    · rw [hnode, update_self]
      exact { ht with }

theorem BarrierInv.takeAtMain (hs : s.Taken s' m) (hd : l.dest m.nid = 0)
    (hnode : s'.node = Function.update s.node 0 { c.takeReport l m (s.lfail l m) with phase := p })
    (hdeaths : s.SameDeaths s') (htallied : s.MainTallied l c) (hlock : c.informLock = true)
    (hreached : s.IsOpen 0 → c.reached = (s.node 0).reached)
    (hphase : p.Running) (hwait : p = .waiting false → c.count + m.bcount < l.size - c.numFailed) : s'.BarrierInv l := by
  obtain ⟨hnid, -⟩ := h.mail.sender m hs.mem
  refine h.take hs (by rw [hd]; exact hnode) hdeaths ?_ hphase.ne_idle (absurd hd) fun _ => ⟨?_, ?_⟩
  · rw [hd]
    exact Waiting.of_running hphase hwait
  · have ht := htallied.takeReport h hs hd hdeaths.dead hdeaths.noticed
    have hnew : s'.node 0 = { c.takeReport l m (s.lfail l m) with phase := p } := by rw [hnode, update_self]
    refine MainOk.of_open ?_ ?_ ?_ ?_
    · rw [IsOpen, hnew]
      exact hphase.ne_idle
    · rw [hnew]
      exact hlock
    · rw [hnew]
      exact { ht with }
    · obtain ⟨r, hr, hin, hlive, hcounted⟩ := h.unit_live hs.mem
      have htop := (inUnit_iff_top hnid hd (inUnit_ne_zero hnid hin)).mp hin
      exact ⟨r, hr, by rwa [hdeaths.dead], by simp [here, hs.counted, hcounted, htop, hs.given_self]⟩
  · intro hopen
    by_cases hpos : 0 < s.lfail l m
    · exact Or.inr hpos
    · left
      rw [← hreached hopen]
      exact reached_takeReport_of_le (l := l) (m := m) (by omega)

end

theorem eraseIdx_of_getElem? {α : Type*} {xs : List α} {x : α} (h : xs[i]? = some x) :
    ∃ a b, xs = a ++ x :: b ∧ xs.eraseIdx i = a ++ b := by
  obtain ⟨hi, hx⟩ := List.getElem?_eq_some_iff.mp h
  refine ⟨xs.take i, xs.drop (i + 1), ?_, eraseIdx_eq_take_drop_succ xs i⟩
  rw [← hx, getElem_cons_drop, take_append_drop]

theorem phase_takeReport (h : s.BarrierInv l) (hm : m ∈ s.reports) :
    (c.takeReport l m (s.lfail l m)).phase = c.phase := by
  have := h.fprb_le_lfail hm
  exact if_neg (by omega)

theorem BarrierInv.handleRemoteBarrier (h : s.BarrierInv l) (hm : s.reports[i]? = some m)
    (hs : { s with reports := s.reports.eraseIdx i }.handleRemoteBarrier l m = some s') : s'.BarrierInv l := by
  obtain ⟨a, b, hrep, herase⟩ := eraseIdx_of_getElem? hm
  have hmem := mem_of_getElem? hm
  have hw := h.waiting (l.dest m.nid)
  unfold Coordinators.handleRemoteBarrier at hs
  dsimp only at hs
  split at hs
  swap
  · contradiction
  rename_i hfree
  obtain rfl := Option.some_inj.mp hs
  by_cases hd : l.dest m.nid = 0
  · rw [if_pos hd]
    rw [hd] at hfree hw ⊢
    by_cases hcount : (s.node 0).count = 0
    · have hidle := h.idle_of_count hcount
      obtain ⟨-, -, hlock⟩ := hw.idle hidle
      rw [if_pos hcount, if_neg (by simp [hlock])]
      have hphase := phase_takeReport (c := (s.node 0).begin (-1)) h hmem
      refine h.takeAtMain (c := (s.node 0).begin (-1)) (p := ((s.node 0).begin (-1) |>.takeReport l m (s.lfail l m)).phase)
        ⟨⟨rfl, rfl, rfl, rfl⟩, ⟨a, b, hrep, herase⟩, rfl, rfl, rfl⟩ hd rfl
        (SameDeaths.of_update rfl) (MainTallied.begin h.main hidle hcount) rfl
        (absurd hidle) (Or.inl hphase) ?_
      rw [hphase]
      simp [Coordinator.begin]
    · have hopen : s.IsOpen 0 := fun hidle => hcount (hw.idle hidle).1
      rw [if_neg hcount]
      have hwait : ∃ b, ((s.node 0).takeReport l m (s.lfail l m)).phase = .waiting b := by
        rw [phase_takeReport h hmem]
        exact phase_of_free hfree hopen
      obtain ⟨hrunning, hsleep⟩ := Waiting.signalFrom (k := l.size) hwait
      exact h.takeAtMain (c := s.node 0) ⟨⟨rfl, rfl, rfl, rfl⟩, ⟨a, b, hrep, herase⟩, rfl, rfl, rfl⟩ hd rfl
        (SameDeaths.of_update rfl) (h.main.tallied hopen) (h.main.lock hopen) (fun _ => rfl)
        hrunning hsleep
  · rw [if_neg hd]
    by_cases hcount : (s.node (l.dest m.nid)).count = 0
    · have hidle := h.idle_of_count hcount
      obtain ⟨-, hgroup, -⟩ := hw.idle hidle
      rw [if_pos hcount]
      generalize ht : ({ s with
        reports := s.reports.eraseIdx i
        given := Function.update s.given m.nid true } : Coordinators) = t
      obtain ⟨b', rs, htell⟩ := tellRunning_eq (l := l) (s := t) (v := l.dest m.nid)
      rw [htell]
      subst ht
      simp only [setNode, update_self, update_idem]
      rw [if_pos hidle]
      obtain ⟨hcounted, hnone⟩ := (h.nodes _ hd).untouched hidle (h.not_reported_leader hmem hd)
      refine h.takeAtLeader (c := { s.node (l.dest m.nid) with barrierRunning := b' }.beginRemote) (p := .fresh)
        ⟨⟨rfl, rfl, rfl, rfl⟩, ⟨a, b, hrep, herase⟩, rfl, rfl, rfl⟩ hd rfl
        (SameDeaths.of_update rfl) ?_ (Or.inl rfl) (by simp)
      exact Tallied.of_untouched hcount hgroup (fun _ => rfl) ((h.nodes _ hd).idle hidle) rfl hcounted hnone
    · have hopen : s.IsOpen (l.dest m.nid) := fun hidle => hcount (hw.idle hidle).1
      rw [if_neg hcount]
      have hwait : ∃ b, ((s.node (l.dest m.nid)).gather l m).phase = .waiting b := phase_of_free hfree hopen
      obtain ⟨hrunning, hsleep⟩ := Waiting.signalFrom (k := l.barrierSize (l.dest m.nid)) hwait
      exact h.takeAtLeader (c := s.node (l.dest m.nid)) ⟨⟨rfl, rfl, rfl, rfl⟩, ⟨a, b, hrep, herase⟩, rfl, rfl, rfl⟩ hd rfl
        (SameDeaths.of_update rfl) ((h.nodes _ hd).tallied hopen) hrunning hsleep

end Coordinators

end ParepMpi
