import ParepMpi.Coordinator.Scan

/-!
# What the counts of the coordinators stand for

In an episode a process is counted from its arrival until the coordinators take it out again or the episode ends.
`BarrierInv` says what every counter stands for in these terms: one statement for each node, one for the main
coordinator, and one for the messages on their way. The lemmas say which parts of the state each of them depends on;
the steps are in the modules that follow, by the kind of the event.
-/

namespace ParepMpi

open Nodes

namespace Nodes

variable {l : Nodes} {r v : Nat}

/-- The node whose report to the main coordinator is about rank `r`. -/
def top (l : Nodes) (r : Nat) : Nat := if l.leader (l.nodeOf r) = 0 then l.nodeOf r else l.leader (l.nodeOf r)

def watches (l : Nodes) (v r : Nat) : Bool := v = 0 || l.nodeOf r = v

theorem leads_iff : l.leads v = true ↔ v ≠ 0 ∧ l.leader v = v := by simp [leads]

theorem inUnit_of_leads (h : l.leads v = true) : l.inUnit v r = decide (l.leader (l.nodeOf r) = v) :=
  if_pos (leads_iff.mp h).2

theorem inUnit_of_not_leads (hv : v ≠ 0) (h : l.leads v = false) : l.inUnit v r = decide (l.nodeOf r = v) :=
  if_neg fun heq => by simp [leads_iff.mpr ⟨hv, heq⟩] at h

theorem nodeOf_ne_zero_of_leader (h : l.leader (l.nodeOf r) ≠ 0) : l.nodeOf r ≠ 0 :=
  fun heq => h (by rw [heq, l.leader_zero])

theorem inUnit_ne_zero (hv : v ≠ 0) (h : l.inUnit v r = true) : l.nodeOf r ≠ 0 := by
  cases hl : l.leads v
  · rw [inUnit_of_not_leads hv hl, decide_eq_true_eq] at h
    omega
  · rw [inUnit_of_leads hl, decide_eq_true_eq] at h
    exact nodeOf_ne_zero_of_leader (by omega)

theorem inUnit_iff_top (hv : v ≠ 0) (hdest : l.dest v = 0) (hr : l.nodeOf r ≠ 0) :
    l.inUnit v r = true ↔ l.top r = v := by
  unfold dest at hdest
  unfold inUnit top
  by_cases hl : l.leader v = v
  · rw [if_pos hl, decide_eq_true_eq]
    constructor
    · intro h
      rw [if_neg (by omega), h]
    · intro h
      split at h
      · rename_i hzero
        rw [h, hl] at hzero
        omega
      · exact h
  · rw [if_neg hl] at hdest
    rw [if_neg hl, decide_eq_true_eq]
    constructor
    · intro h
      rw [if_pos (by rw [h, hdest]), h]
    · intro h
      split at h
      · exact h
      · exact absurd (by rw [← h, l.leader_leader]) hl

theorem top_cases : l.top r = l.nodeOf r ∧ l.dest (l.nodeOf r) = 0 ∨
      l.leads (l.top r) = true ∧ l.leader (l.nodeOf r) = l.top r ∧ l.nodeOf r ≠ l.top r := by
  unfold top dest
  by_cases hzero : l.leader (l.nodeOf r) = 0
  · rw [if_pos hzero]
    refine .inl ⟨rfl, ?_⟩
    split
    · rfl
    · exact hzero
  · rw [if_neg hzero]
    by_cases hself : l.leader (l.nodeOf r) = l.nodeOf r
    · exact .inl ⟨hself, if_pos hself⟩
    · exact .inr ⟨leads_iff.mpr ⟨hzero, l.leader_leader _⟩, rfl, fun h => hself h.symm⟩

theorem dest_top : l.dest (l.top r) = 0 := by
  rcases top_cases (l := l) (r := r) with ⟨htop, hdest⟩ | ⟨hleads, -, -⟩
  · rw [htop, hdest]
  · exact if_pos (leads_iff.mp hleads).2

theorem dest_eq_leader (h : l.dest v ≠ 0) : l.leader v ≠ v ∧ l.dest v = l.leader v ∧ l.leads v = false := by
  have hself : l.leader v ≠ v := fun heq => h (if_pos heq)
  refine ⟨hself, if_neg hself, ?_⟩
  by_contra hleads
  exact hself (leads_iff.mp (by simpa using hleads)).2

end Nodes

namespace DaemonMsg

def isBarrier : DaemonMsg → Bool
  | barrier _ => true
  | notice _ => false

def isNotice : DaemonMsg → Bool
  | barrier _ => false
  | notice _ => true

end DaemonMsg

namespace Coordinators

section

variable (l : Nodes) (s : Coordinators)

def dead (r : Nat) : Bool := (s.node (l.nodeOf r)).terminated r

def known (r : Nat) : Bool := (s.node 0).terminated r

def noticed (r : Nat) : Bool := (s.node 0).informCheck r

def IsOpen (v : Nat) : Prop := (s.node v).phase ≠ .idle

/-- A node's report for this episode is on the way or has been handled. -/
def Reported (v : Nat) : Prop := s.given v = true ∨ ∃ m ∈ s.reports, m.nid = v

def gathered (v r : Nat) : Bool :=
  l.nodeOf r = v && s.counted r || l.leads v && l.leader (l.nodeOf r) = v && l.nodeOf r ≠ v && s.given (l.nodeOf r)

def heardOf (v r : Nat) : Bool := l.leader (l.nodeOf r) = v && (l.nodeOf r = v || s.given (l.nodeOf r))

def here (r : Nat) : Bool := s.counted r && (l.nodeOf r = 0 || s.given (l.top r))

def coming (p : DaemonMsg → Bool) (v : Nat) : Nat :=
  if v = 0 then 0
  else (s.queue v).countP p + if l.follows v then (s.queue (l.leader v)).countP p else 0

structure Deaths : Prop where
  known_dead : ∀ r < l.size, s.known r = true → s.dead l r = true
  heard : ∀ r < l.size, s.dead l r = true → s.known r = true ∨ r ∈ s.updates
  updates : ∀ r ∈ s.updates, r < l.size ∧ s.dead l r = true
  noticed_known : ∀ r < l.size, s.noticed r = true → s.known r = true
  told : ∀ r < l.size, (s.node (l.nodeOf r)).informCheck r = true → s.noticed r = true
  notices : ∀ v ranks, .notice ranks ∈ s.queue v → ∀ r ∈ ranks, r < l.size ∧ s.noticed r = true
  numFailed : ∀ v, (s.node v).numFailed = tally (fun r => l.watches v r && (s.node v).terminated r) l.size
  numInform : ∀ v, (s.node v).numInformFailed = tally (fun r => l.watches v r && (s.node v).informCheck r) l.size
  informNode : ∀ v, s.informNode v = tally (fun r => l.nodeOf r = v && s.noticed r) l.size
  informGroup : ∀ v, s.informGroup v = tally (fun r => l.leader (l.nodeOf r) = v && s.noticed r) l.size
  alive : ∀ r < l.size, ∃ r' < l.size, l.nodeOf r' = l.nodeOf r ∧ s.dead l r' = false

structure Clients : Prop where
  released : ∀ r < l.size, s.released r ≤ s.arrived r ∧ s.arrived r ≤ s.released r + 1 ∧ s.released r ≤ s.episodes
  arrived : ∀ r < l.size, s.dead l r = false → s.episodes ≤ s.arrived r
  passing : ∀ r < l.size, s.dead l r = false → s.released r + s.coming l DaemonMsg.isBarrier (l.nodeOf r) = s.episodes
  notices : ∀ v < l.nodeNum, s.coming l DaemonMsg.isNotice v ≤ 1

/-- Which arrivals are counted. -/
structure Counted : Prop where
  counted : ∀ r < l.size, s.counted r = true → s.arrived r = s.episodes + 1 ∧ s.noticed r = false
  live : ∀ r < l.size, s.dead l r = false → s.arrived r = s.episodes + 1 → s.counted r = true
  struck : ∀ r < l.size, s.struck r = true → s.dead l r = true ∧ s.noticed r = false ∧ s.counted r = false ∧ s.IsOpen 0
  late : ∀ r < l.size, s.counted r = true → s.dead l r = true → l.nodeOf r ≠ 0 →
    s.IsOpen 0 ∧ (s.IsOpen (l.nodeOf r) ∨ (s.node 0).reached = -1 ∧
      ∀ r' < l.size, s.dead l r' = true → s.noticed r' = false → r' = r)

structure Waiting (v : Nat) (c : Coordinator) : Prop where
  idle : c.phase = .idle → c.count = 0 ∧ c.groupCount = 0 ∧ c.informLock = false
  checking : ∀ n, c.phase = .checking n → n = c.numFailed
  waiting : c.phase = .waiting false → c.count < l.barrierSize v - c.numFailed
  not_blocked : c.phase ≠ .blocked
  not_aborted : c.phase ≠ .aborted

structure Tallied (v : Nat) (c : Coordinator) : Prop where
  recv : ∀ r < l.size, l.nodeOf r = v → c.recvRank r = s.counted r
  count : c.count = tally (s.gathered l v) l.size
  groupCount : l.leads v = true → c.groupCount = tally (fun r => s.heardOf l v r && s.counted r) l.size
  reached : l.leads v = true → c.reached ≤ tally (fun r => s.heardOf l v r && s.struck r) l.size
  localReached : l.leads v = false → c.localReached ≤ tally (fun r => l.nodeOf r = v && s.struck r) l.size

def Heard (v : Nat) : Prop :=
  ∃ r < l.size, l.nodeOf r = v ∧ s.counted r = true ∧ s.dead l r = false ∨
    l.leads v = true ∧ l.leader (l.nodeOf r) = v ∧ l.nodeOf r ≠ v ∧ s.given (l.nodeOf r) = true

structure NodeOk (v : Nat) : Prop where
  idle : (s.node v).phase = .idle → (s.node v).reached ≤ 0
  untouched : (s.node v).phase = .idle → ¬ s.Reported v →
    (∀ r < l.size, l.nodeOf r = v → s.counted r = false ∧ s.struck r = false) ∧
      ∀ r < l.size, l.leads v = true → l.leader (l.nodeOf r) = v → l.nodeOf r ≠ v → s.given (l.nodeOf r) = false
  unreported : s.IsOpen v → ¬ s.Reported v
  tallied : s.IsOpen v → s.Tallied l v (s.node v)
  heard : s.IsOpen v → s.Heard l v
  full : s.Reported v → (∀ r < l.size, l.nodeOf r = v → s.dead l r = false → s.counted r = true) ∧
    ∀ r < l.size, l.leads v = true → l.leader (l.nodeOf r) = v → l.nodeOf r ≠ v → s.given (l.nodeOf r) = true

structure Mail : Prop where
  nodup : (s.reports.map Report.nid).Nodup
  sender : ∀ m ∈ s.reports, m.nid ≠ 0 ∧ s.given m.nid = false
  bcount : ∀ m ∈ s.reports, m.bcount = tally (fun r => l.inUnit m.nid r && s.counted r) l.size ∧ 0 < m.bcount
  fprb : ∀ m ∈ s.reports, m.fprb ≤ tally (fun r => l.inUnit m.nid r && s.struck r) l.size
  given_zero : s.given 0 = false

structure MainTallied (c : Coordinator) : Prop where
  own : ∀ r < l.size, l.nodeOf r = 0 → c.recvRank r = s.counted r
  recv : ∀ r < l.size, l.nodeOf r ≠ 0 → s.here l r = true → c.recvRank r = true
  given : ∀ r < l.size, l.nodeOf r ≠ 0 → c.recvRank r = true → s.given (l.top r) = true
  count : c.count = tally (s.here l) l.size
  gone : ∀ r < l.size, l.nodeOf r ≠ 0 → s.given (l.top r) = true → s.counted r = false → s.noticed r = false →
    c.reached ≠ -1
  seen : c.reached ≠ -1 → ∃ r < l.size, s.dead l r = true ∧ s.noticed r = false

structure MainOk : Prop where
  idle : (s.node 0).phase = .idle →
    (∀ r < l.size, l.nodeOf r = 0 → s.counted r = false) ∧ ∀ v, v ≠ 0 → l.dest v = 0 → s.given v = false
  lock : s.IsOpen 0 → (s.node 0).informLock = true
  tallied : s.IsOpen 0 → s.MainTallied l (s.node 0)
  heard : s.IsOpen 0 → ∃ r < l.size, s.dead l r = false ∧ s.here l r = true

structure BarrierInv : Prop where
  deaths : s.Deaths l
  clients : s.Clients l
  counts : s.Counted l
  waiting : ∀ v, Waiting l v (s.node v)
  nodes : ∀ v, v ≠ 0 → s.NodeOk l v
  mail : s.Mail l
  main : s.MainOk l

end

section

variable {l : Nodes} {s s' : Coordinators} {r v : Nat}

namespace BarrierInv

variable (h : s.BarrierInv l)

include h

theorem count_pos (hopen : s.IsOpen v) : 0 < (s.node v).count := by
  by_cases hv : v = 0
  · subst hv
    obtain ⟨r, hr, -, hhere⟩ := h.main.heard hopen
    rw [(h.main.tallied hopen).count]
    exact tally_pos hr hhere
  · obtain ⟨r, hr, hheard⟩ := (h.nodes v hv).heard hopen
    rw [((h.nodes v hv).tallied hopen).count]
    apply tally_pos hr
    rcases hheard with ⟨hnode, hcounted, -⟩ | ⟨hleads, hgroup, hne, hgiven⟩
    · simp [gathered, hnode, hcounted]
    · simp [gathered, hleads, hgroup, hne, hgiven]

theorem idle_of_count (hcount : (s.node v).count = 0) : (s.node v).phase = .idle := by
  by_contra hopen
  have := h.count_pos hopen
  omega

theorem given_node (hr : r < l.size) (hgiven : s.given (l.top r) = true) : s.given (l.nodeOf r) = true := by
  rcases l.top_cases (r := r) with ⟨htop, -⟩ | ⟨hleads, hgroup, hne⟩
  · rwa [htop] at hgiven
  · have htop : l.top r ≠ 0 := (leads_iff.mp hleads).1
    exact ((h.nodes _ htop).full (.inl hgiven)).2 r hr hleads hgroup hne

theorem not_given_top (hr : r < l.size) (hrep : ¬ s.Reported (l.nodeOf r)) : s.given (l.top r) = false := by
  by_contra hgiven
  exact hrep (.inl (h.given_node hr (by simpa using hgiven)))

theorem unit_counted (hv : v ≠ 0) (hrep : s.Reported v) (hr : r < l.size)
    (hunit : l.inUnit v r = true) (hlive : s.dead l r = false) : s.counted r = true := by
  by_cases hnode : l.nodeOf r = v
  · exact ((h.nodes v hv).full hrep).1 r hr hnode hlive
  · cases hleads : l.leads v
    · rw [inUnit_of_not_leads hv hleads, decide_eq_true_eq] at hunit
      exact absurd hunit hnode
    · have hgiven := ((h.nodes v hv).full hrep).2 r hr hleads
        (by rwa [inUnit_of_leads hleads, decide_eq_true_eq] at hunit) hnode
      exact ((h.nodes _ (inUnit_ne_zero hv hunit)).full (.inl hgiven)).1 r hr rfl hlive

variable {m : Report}

theorem not_inUnit (hr : r < l.size) (hrep : ¬ s.Reported (l.nodeOf r))
    (hm : m ∈ s.reports) : l.inUnit m.nid r = false := by
  by_contra hunit
  have hunit : l.inUnit m.nid r = true := by simpa using hunit
  have hv := (h.mail.sender m hm).1
  have hnode : l.nodeOf r ≠ m.nid := fun heq => hrep (.inr ⟨m, hm, heq.symm⟩)
  cases hleads : l.leads m.nid
  · rw [inUnit_of_not_leads hv hleads, decide_eq_true_eq] at hunit
    exact hnode hunit
  · rw [inUnit_of_leads hleads, decide_eq_true_eq] at hunit
    exact hrep (.inl (((h.nodes _ hv).full (.inr ⟨m, hm, rfl⟩)).2 r hr hleads hunit hnode))

theorem not_inUnit_of_given (hr : r < l.size) (hgiven : s.given (l.top r) = true)
    (hm : m ∈ s.reports) : l.inUnit m.nid r = false := by
  by_contra hunit
  have hunit : l.inUnit m.nid r = true := by simpa using hunit
  obtain ⟨hnid, hnot⟩ := h.mail.sender m hm
  cases hleads : l.leads m.nid
  · rw [inUnit_of_not_leads hnid hleads, decide_eq_true_eq] at hunit
    have := h.given_node hr hgiven
    rw [hunit, hnot] at this
    contradiction
  · rw [inUnit_of_leads hleads, decide_eq_true_eq] at hunit
    rw [top, if_neg (by rwa [hunit]), hunit, hnot] at hgiven
    contradiction

theorem arrived_eq (hr : r < l.size) (hlive : s.dead l r = false) (harrived : s.arrived r = s.released r) :
    s.arrived r = s.episodes ∧ s.counted r = false ∧ ¬ s.Reported (l.nodeOf r) := by
  obtain ⟨-, -, hle⟩ := h.clients.released r hr
  have hge := h.clients.arrived r hr hlive
  have hnot : s.counted r = false := by
    by_contra hcounted
    have := (h.counts.counted r hr (by simpa using hcounted)).1
    omega
  refine ⟨by omega, hnot, ?_⟩
  intro hrep
  by_cases hv : l.nodeOf r = 0
  · rw [hv] at hrep
    rcases hrep with hgiven | ⟨m, hm, hzero⟩
    · rw [h.mail.given_zero] at hgiven
      contradiction
    · exact (h.mail.sender m hm).1 hzero
  · have := ((h.nodes _ hv).full hrep).1 r hr rfl hlive
    rw [hnot] at this
    contradiction

end BarrierInv

structure SameCounts (c c' : Coordinator) : Prop where
  phase : c'.phase = .idle ↔ c.phase = .idle
  count : c'.count = c.count
  groupCount : c'.groupCount = c.groupCount
  reached : c'.reached = c.reached
  localReached : c'.localReached = c.localReached
  recvRank : c'.recvRank = c.recvRank

structure SameNode (l : Nodes) (s s' : Coordinators) (v : Nat) : Prop where
  given : ∀ w, l.leader w = v → w ≠ v → s'.given w = s.given w
  reported : s'.Reported v ↔ s.Reported v
  counted : ∀ r < l.size, l.nodeOf r = v ∨ l.leader (l.nodeOf r) = v ∧ s.given (l.nodeOf r) = true →
    s'.counted r = s.counted r ∧ s'.struck r = s.struck r

theorem SameNode.heardOf (hs : s.SameNode l s' v) (r : Nat) : s'.heardOf l v r = s.heardOf l v r := by
  unfold Coordinators.heardOf
  by_cases hgroup : l.leader (l.nodeOf r) = v
  · by_cases hnode : l.nodeOf r = v
    · simp [hnode]
    · rw [hs.given _ hgroup hnode]
  · simp [hgroup]

theorem SameNode.of_heardOf (hs : s.SameNode l s' v) (hr : r < l.size) (hheard : s.heardOf l v r = true) :
    s'.counted r = s.counted r ∧ s'.struck r = s.struck r := by
  apply hs.counted r hr
  simp only [Coordinators.heardOf, Bool.and_eq_true, Bool.or_eq_true, decide_eq_true_eq] at hheard
  exact hheard.2.imp_right fun hgiven => ⟨hheard.1, hgiven⟩

theorem Tallied.congr {c c' : Coordinator} (h : s.Tallied l v c) (hc : SameCounts c c') (hs : s.SameNode l s' v) :
    s'.Tallied l v c' where
  recv r hr hnode := by rw [hc.recvRank, h.recv r hr hnode, (hs.counted r hr (.inl hnode)).1]
  count := by
    rw [hc.count, h.count]
    apply tally_congr
    intro r hr
    unfold gathered
    by_cases hnode : l.nodeOf r = v
    · rw [(hs.counted r hr (.inl hnode)).1]
      simp [hnode]
    · by_cases hgroup : l.leader (l.nodeOf r) = v
      · rw [hs.given _ hgroup hnode]
        simp [hnode]
      · simp [hnode, hgroup]
  groupCount hleads := by
    rw [hc.groupCount, h.groupCount hleads]
    apply tally_congr
    intro r hr
    rw [hs.heardOf]
    cases hheard : s.heardOf l v r
    · rfl
    · rw [(hs.of_heardOf hr hheard).1]
  reached hleads := by
    rw [hc.reached]
    refine (h.reached hleads).trans_eq ?_
    apply tally_congr
    intro r hr
    rw [hs.heardOf]
    cases hheard : s.heardOf l v r
    · rfl
    · rw [(hs.of_heardOf hr hheard).2]
  localReached hleads := by
    rw [hc.localReached]
    refine (h.localReached hleads).trans_eq ?_
    apply tally_congr
    intro r hr
    by_cases hnode : l.nodeOf r = v
    · rw [(hs.counted r hr (.inl hnode)).2]
    · simp [hnode]

theorem NodeOk.mono (h : s.NodeOk l v) (hc : SameCounts (s.node v) (s'.node v)) (hs : s.SameNode l s' v)
    (hlive : ∀ r < l.size, l.nodeOf r = v → s'.dead l r = false → s.dead l r = false)
    (hheard : s.IsOpen v → s'.Heard l v) : s'.NodeOk l v where
  idle hidle := by
    rw [hc.reached]
    exact h.idle (hc.phase.mp hidle)
  untouched hidle hrep := by
    obtain ⟨hcounted, hgiven⟩ := h.untouched (hc.phase.mp hidle) fun hr => hrep (hs.reported.mpr hr)
    refine ⟨?_, ?_⟩
    · intro r hr hnode
      rw [(hs.counted r hr (.inl hnode)).1, (hs.counted r hr (.inl hnode)).2]
      exact hcounted r hr hnode
    · intro r hr hleads hgroup hne
      rw [hs.given _ hgroup hne]
      exact hgiven r hr hleads hgroup hne
  unreported hopen hrep := h.unreported (fun hidle => hopen (hc.phase.mpr hidle)) (hs.reported.mp hrep)
  tallied hopen := (h.tallied fun hidle => hopen (hc.phase.mpr hidle)).congr hc hs
  heard hopen := hheard fun hidle => hopen (hc.phase.mpr hidle)
  full hrep := by
    obtain ⟨hcounted, hgiven⟩ := h.full (hs.reported.mp hrep)
    refine ⟨?_, ?_⟩
    · intro r hr hnode hdead
      rw [(hs.counted r hr (.inl hnode)).1]
      exact hcounted r hr hnode (hlive r hr hnode hdead)
    · intro r hr hleads hgroup hne
      rw [hs.given _ hgroup hne]
      exact hgiven r hr hleads hgroup hne

theorem NodeOk.congr (h : s.NodeOk l v) (hc : SameCounts (s.node v) (s'.node v)) (hs : s.SameNode l s' v)
    (hdead : ∀ r < l.size, l.nodeOf r = v → s'.dead l r = s.dead l r) : s'.NodeOk l v := by
  refine h.mono hc hs (fun r hr hnode hlive => hdead r hr hnode ▸ hlive) ?_
  intro hopen
  obtain ⟨r, hr, hheard⟩ := h.heard hopen
  refine ⟨r, hr, hheard.imp ?_ ?_⟩
  · intro hown
    rw [(hs.counted r hr (.inl hown.1)).1, hdead r hr hown.1]
    exact hown
  · intro hmember
    rw [hs.given _ hmember.2.1 hmember.2.2.1]
    exact hmember

theorem NodeOk.of_open (hopen : s.IsOpen v) (hunrep : ¬ s.Reported v) (htallied : s.Tallied l v (s.node v))
    (hheard : s.Heard l v) : s.NodeOk l v :=
  ⟨fun hi => absurd hi hopen, fun hi => absurd hi hopen, fun _ => hunrep, fun _ => htallied, fun _ => hheard,
    fun hrep => absurd hrep hunrep⟩

/-- Which parts of the state the main coordinator's counters are about. -/
structure SameMain (l : Nodes) (s s' : Coordinators) : Prop where
  noticed : ∀ r < l.size, s'.noticed r = s.noticed r
  given : ∀ v, l.dest v = 0 → s'.given v = s.given v
  counted : ∀ r < l.size, l.nodeOf r = 0 ∨ s.given (l.top r) = true → s'.counted r = s.counted r

theorem SameMain.here (hs : s.SameMain l s') (hr : r < l.size) : s'.here l r = s.here l r := by
  unfold Coordinators.here
  rw [hs.given _ dest_top]
  by_cases hheard : l.nodeOf r = 0 ∨ s.given (l.top r) = true
  · rw [hs.counted r hr hheard]
  · simp [not_or.mp hheard]

theorem MainTallied.congr {c c' : Coordinator} (h : s.MainTallied l c) (hc : SameCounts c c') (hs : s.SameMain l s')
    (hdead : ∀ r < l.size, s.dead l r = true → s'.dead l r = true) : s'.MainTallied l c' where
  own r hr hnode := by rw [hc.recvRank, h.own r hr hnode, hs.counted r hr (.inl hnode)]
  recv r hr hnode hhere := by
    rw [hc.recvRank]
    exact h.recv r hr hnode (hs.here hr ▸ hhere)
  given r hr hnode hrecv := by
    rw [hs.given _ dest_top]
    exact h.given r hr hnode (hc.recvRank ▸ hrecv)
  count := by
    rw [hc.count, h.count]
    exact (tally_congr fun r => hs.here).symm
  gone r hr hnode hgiven hcounted hnoticed := by
    rw [hs.given _ dest_top] at hgiven
    rw [hs.counted r hr (.inr hgiven)] at hcounted
    rw [hs.noticed r hr] at hnoticed
    rw [hc.reached]
    exact h.gone r hr hnode hgiven hcounted hnoticed
  seen hne := by
    obtain ⟨r, hr, hr', hnoticed⟩ := h.seen (hc.reached ▸ hne)
    exact ⟨r, hr, hdead r hr hr', by rwa [hs.noticed r hr]⟩

theorem MainOk.mono (h : s.MainOk l) (hc : SameCounts (s.node 0) (s'.node 0))
    (hlock : (s'.node 0).informLock = (s.node 0).informLock) (hs : s.SameMain l s')
    (hdead : ∀ r < l.size, s.dead l r = true → s'.dead l r = true)
    (hheard : s.IsOpen 0 → ∃ r < l.size, s'.dead l r = false ∧ s'.here l r = true) : s'.MainOk l where
  idle hidle := by
    obtain ⟨hcounted, hgiven⟩ := h.idle (hc.phase.mp hidle)
    refine ⟨?_, ?_⟩
    · intro r hr hnode
      rw [hs.counted r hr (.inl hnode)]
      exact hcounted r hr hnode
    · intro v hv hdest
      rw [hs.given v hdest]
      exact hgiven v hv hdest
  lock hopen := by
    rw [hlock]
    exact h.lock fun hidle => hopen (hc.phase.mpr hidle)
  tallied hopen := (h.tallied fun hidle => hopen (hc.phase.mpr hidle)).congr hc hs hdead
  heard hopen := hheard fun hidle => hopen (hc.phase.mpr hidle)

theorem MainOk.congr (h : s.MainOk l) (hc : SameCounts (s.node 0) (s'.node 0))
    (hlock : (s'.node 0).informLock = (s.node 0).informLock) (hs : s.SameMain l s')
    (hdead : ∀ r < l.size, s'.dead l r = s.dead l r) : s'.MainOk l := by
  refine h.mono hc hlock hs (fun r hr => (hdead r hr).trans) ?_
  intro hopen
  obtain ⟨r, hr, hlive, hhere⟩ := h.heard hopen
  exact ⟨r, hr, by rwa [hdead r hr], by rwa [hs.here hr]⟩

theorem MainOk.of_open (hopen : s.IsOpen 0) (hlock : (s.node 0).informLock = true) (htallied : s.MainTallied l (s.node 0))
    (hheard : ∃ r < l.size, s.dead l r = false ∧ s.here l r = true) : s.MainOk l :=
  ⟨fun hi => absurd hi hopen, fun _ => hlock, fun _ => htallied, fun _ => hheard⟩

theorem dead_congr (h : ∀ v, (s'.node v).terminated = (s.node v).terminated) : s'.dead l = s.dead l := by
  funext r
  rw [dead, dead, h]

theorem known_congr (h : ∀ v, (s'.node v).terminated = (s.node v).terminated) : s'.known = s.known := by
  funext r
  rw [known, known, h]

theorem coming_congr (h : s'.queue = s.queue) (p : DaemonMsg → Bool) (v : Nat) : s'.coming l p v = s.coming l p v := by
  rw [coming, coming, h]

structure SameDeaths (s s' : Coordinators) : Prop where
  terminated : ∀ v, (s'.node v).terminated = (s.node v).terminated
  informCheck : ∀ v, (s'.node v).informCheck = (s.node v).informCheck
  numFailed : ∀ v, (s'.node v).numFailed = (s.node v).numFailed
  numInform : ∀ v, (s'.node v).numInformFailed = (s.node v).numInformFailed
  informNode : s'.informNode = s.informNode
  informGroup : s'.informGroup = s.informGroup
  updates : s'.updates = s.updates

namespace SameDeaths

variable (hs : s.SameDeaths s')

include hs

theorem dead : s'.dead l = s.dead l := dead_congr hs.terminated

theorem live (r : Nat) (_ : r < l.size) (h : s'.dead l r = false) : s.dead l r = false := by
  rwa [hs.dead] at h

theorem known : s'.known = s.known := known_congr hs.terminated

theorem noticed : s'.noticed = s.noticed := by
  funext r
  rw [Coordinators.noticed, Coordinators.noticed, hs.informCheck]

end SameDeaths

theorem Deaths.mono (h : s.Deaths l) (hterm : ∀ v, (s'.node v).terminated = (s.node v).terminated)
    (hnoticed : s'.noticed = s.noticed) (hfailed : ∀ v, (s'.node v).numFailed = (s.node v).numFailed)
    (hinformNode : s'.informNode = s.informNode) (hinformGroup : s'.informGroup = s.informGroup)
    (hupdates : s'.updates = s.updates)
    (htold : ∀ r < l.size, (s'.node (l.nodeOf r)).informCheck r = true → s.noticed r = true)
    (hinform : ∀ v, (s'.node v).numInformFailed = tally (fun r => l.watches v r && (s'.node v).informCheck r) l.size)
    (hqueue : ∀ v ranks, .notice ranks ∈ s'.queue v → ∀ r ∈ ranks, r < l.size ∧ s.noticed r = true) : s'.Deaths l where
  known_dead := by rw [known_congr hterm, dead_congr hterm]; exact h.known_dead
  heard := by rw [known_congr hterm, dead_congr hterm, hupdates]; exact h.heard
  updates := by rw [dead_congr hterm, hupdates]; exact h.updates
  noticed_known := by rw [known_congr hterm, hnoticed]; exact h.noticed_known
  told := by rw [hnoticed]; exact htold
  notices := by rw [hnoticed]; exact hqueue
  numFailed v := by rw [hfailed, hterm]; exact h.numFailed v
  numInform := hinform
  informNode := by rw [hinformNode, hnoticed]; exact h.informNode
  informGroup := by rw [hinformGroup, hnoticed]; exact h.informGroup
  alive := by rw [dead_congr hterm]; exact h.alive

theorem Deaths.congr (h : s.Deaths l) (hs : s.SameDeaths s')
    (hqueue : ∀ v ranks, .notice ranks ∈ s'.queue v → ∀ r ∈ ranks, r < l.size ∧ s.noticed r = true) : s'.Deaths l := by
  refine h.mono hs.terminated hs.noticed hs.numFailed hs.informNode hs.informGroup hs.updates ?_ ?_ hqueue
  · intro r hr hcheck
    rw [hs.informCheck] at hcheck
    exact h.told r hr hcheck
  · intro v
    rw [hs.numInform, hs.informCheck]
    exact h.numInform v

theorem SameDeaths.deaths (hs : s.SameDeaths s') (h : s.Deaths l) (hqueue : s'.queue = s.queue) : s'.Deaths l :=
  h.congr hs (by rw [hqueue]; exact h.notices)

/-- No barrier begins, and the clients neither arrive nor are told anything. -/
structure SameClients (s s' : Coordinators) : Prop where
  episodes : s'.episodes = s.episodes
  arrived : s'.arrived = s.arrived
  released : s'.released = s.released
  queue : s'.queue = s.queue

structure SameEpisode (s s' : Coordinators) : Prop where
  episodes : s'.episodes = s.episodes
  arrived : s'.arrived = s.arrived
  reports : s'.reports = s.reports
  given : s'.given = s.given
  counted : s'.counted = s.counted
  struck : s'.struck = s.struck

namespace SameEpisode

theorem node (hs : s.SameEpisode s') : s.SameNode l s' v where
  given w _ _ := by rw [hs.given]
  reported := by rw [Reported, Reported, hs.given, hs.reports]
  counted r _ _ := by
    rw [hs.counted, hs.struck]
    exact ⟨rfl, rfl⟩

theorem main (hs : s.SameEpisode s') (hnoticed : s'.noticed = s.noticed) : s.SameMain l s' where
  noticed r _ := by rw [hnoticed]
  given v _ := by rw [hs.given]
  counted r _ _ := by rw [hs.counted]

end SameEpisode

theorem Mail.congr (h : s.Mail l) (hreports : s'.reports = s.reports) (hgiven : s'.given = s.given)
    (hcounted : ∀ m ∈ s.reports, ∀ r < l.size, l.inUnit m.nid r = true → s'.counted r = s.counted r)
    (hstruck : ∀ r < l.size, s.struck r = true → s'.struck r = true) : s'.Mail l where
  nodup := by rw [hreports]; exact h.nodup
  sender := by rw [hreports, hgiven]; exact h.sender
  bcount m hm := by
    rw [hreports] at hm
    obtain ⟨hb, hpos⟩ := h.bcount m hm
    refine ⟨hb.trans (tally_congr ?_), hpos⟩
    intro r hr
    cases hunit : l.inUnit m.nid r
    · rfl
    · rw [hcounted m hm r hr hunit]
  fprb m hm := by
    rw [hreports] at hm
    refine (h.fprb m hm).trans (tally_mono ?_)
    intro r hr hand
    rw [Bool.and_eq_true] at hand ⊢
    exact ⟨hand.1, hstruck r hr hand.2⟩
  given_zero := by rw [hgiven]; exact h.given_zero

theorem SameEpisode.mail (hs : s.SameEpisode s') (h : s.Mail l) : s'.Mail l :=
  h.congr hs.reports hs.given (fun _ _ _ _ _ => by rw [hs.counted]) fun _ _ hr => by rwa [hs.struck]

theorem Counted.mono (h : s.Counted l) (hcounted : s'.counted = s.counted) (hstruck : s'.struck = s.struck)
    (harrived : s'.arrived = s.arrived) (hepisodes : s'.episodes = s.episodes)
    (hgrow : ∀ r < l.size, s.dead l r = true → s'.dead l r = true) (hnoticed : s'.noticed = s.noticed)
    (hopen : s.IsOpen 0 → s'.IsOpen 0)
    (hlate : ∀ r < l.size, s.counted r = true → s'.dead l r = true → l.nodeOf r ≠ 0 →
      s'.IsOpen 0 ∧ (s'.IsOpen (l.nodeOf r) ∨ (s'.node 0).reached = -1 ∧
        ∀ r' < l.size, s'.dead l r' = true → s.noticed r' = false → r' = r)) : s'.Counted l := by
  refine ⟨?_, ?_, ?_, ?_⟩
  · rw [hcounted, harrived, hepisodes, hnoticed]
    exact h.counted
  · rw [hcounted, harrived, hepisodes]
    intro r hr hlive
    refine h.live r hr ?_
    by_contra hdead
    rw [hgrow r hr (by simpa using hdead)] at hlive
    contradiction
  · rw [hstruck, hcounted, hnoticed]
    intro r hr hr'
    obtain ⟨hdead, hrest⟩ := h.struck r hr hr'
    exact ⟨hgrow r hr hdead, hrest.imp_right fun hrest => hrest.imp_right hopen⟩
  · rw [hcounted, hnoticed]
    exact hlate

theorem Counted.congr (h : s.Counted l) (hcounted : s'.counted = s.counted) (hstruck : s'.struck = s.struck)
    (harrived : s'.arrived = s.arrived) (hepisodes : s'.episodes = s.episodes) (hdead : s'.dead l = s.dead l)
    (hnoticed : s'.noticed = s.noticed) (hopen : ∀ v, s.IsOpen v → s'.IsOpen v)
    (hreached : ∀ r < l.size, s.counted r = true → s.IsOpen 0 → (s.node 0).reached = -1 →
      (∀ r' < l.size, s.dead l r' = true → s.noticed r' = false → r' = r) → (s'.node 0).reached = -1) :
    s'.Counted l := by
  refine h.mono hcounted hstruck harrived hepisodes (fun r _ hr => by rwa [hdead]) hnoticed (hopen 0) ?_
  rw [hdead]
  intro r hr hcount hr' hzero
  obtain ⟨hmain, hor⟩ := h.late r hr hcount hr' hzero
  exact ⟨hopen 0 hmain, hor.imp (hopen _) fun halone => ⟨hreached r hr hcount hmain halone.1 halone.2, halone.2⟩⟩

theorem BarrierInv.frame (h : s.BarrierInv l) (hs : s.SameEpisode s')
    (hnode : ∀ v, SameCounts (s.node v) (s'.node v)) (hlock : (s'.node 0).informLock = (s.node 0).informLock)
    (hdead : s'.dead l = s.dead l) (hnoticed : s'.noticed = s.noticed) (hdeaths : s'.Deaths l)
    (hclients : s'.Clients l) (hwaiting : ∀ v, Waiting l v (s'.node v)) : s'.BarrierInv l where
  deaths := hdeaths
  clients := hclients
  counts := h.counts.congr hs.counted hs.struck hs.arrived hs.episodes hdead hnoticed
    (fun v hv hidle => hv ((hnode v).phase.mp hidle)) fun _ _ _ _ hr _ => (hnode 0).reached.trans hr
  waiting := hwaiting
  nodes v hv := (h.nodes v hv).congr (hnode v) hs.node fun r _ _ => by rw [hdead]
  mail := hs.mail h.mail
  main := h.main.congr (hnode 0) hlock (hs.main hnoticed) fun r _ => by rw [hdead]

end

end Coordinators

end ParepMpi
