import ParepMpi.Coordinator.Release

/-!
# Episodes of the barrier

The main coordinator releases everybody only when everybody who lives is there, each process is released once for each
release of the main coordinator, no assertion fails, and the coordinators do not come to rest while all processes that
live are waiting. The condition on the runs names, on the state before an event, the failures that the source counts
wrongly; the run at the end is one of them.
-/

namespace ParepMpi

open Nodes

namespace BarrierPhase

def isChecking : BarrierPhase → Bool
  | checking _ => true
  | _ => false

theorem ne_checking {p : BarrierPhase} (h : p.isChecking = false) (n : Int) : p ≠ .checking n := by
  intro heq
  rw [heq] at h
  contradiction

end BarrierPhase

namespace Coordinators

variable {l : Nodes} {s s' : Coordinators} {r v : Nat}

structure Quiet (l : Nodes) (s : Coordinators) : Prop where
  deliver : ∀ i, s.step l (.deliver i) = none
  update : ∀ i, s.step l (.update i) = none
  poll : ∀ v, s.step l (.poll v) = none
  read : ∀ v, s.step l (.read v) = none
  check : ∀ v, s.step l (.check v) = none

namespace Quiet

variable (h : s.BarrierInv l) (hq : s.Quiet l)

include hq in
theorem updates_eq_nil : s.updates = [] := by
  cases hu : s.updates with
  | nil => rfl
  | cons r rs =>
    have := hq.update 0
    simp [step, Coordinators.update, hu] at this

include h hq in
theorem phase_cases (v : Nat) : (s.node v).phase = .idle ∨ (s.node v).phase = .waiting false := by
  have hw := h.waiting v
  cases hp : (s.node v).phase with
  | idle => exact .inl rfl
  | fresh =>
    have := hq.read v
    simp [step, Coordinators.read, hp] at this
  | checking n =>
    have := hq.check v
    simp [step, Coordinators.check, hp] at this
  | waiting b =>
    cases b with
    | false => exact .inr rfl
    | true =>
      have := hq.read v
      simp [step, Coordinators.read, hp] at this
  | blocked => exact absurd hp hw.not_blocked
  | aborted => exact absurd hp hw.not_aborted

include h hq in
theorem free (v : Nat) : (s.node v).free = true := by
  unfold Coordinator.free
  rcases hq.phase_cases h v with hp | hp
  all_goals rw [hp]

include h hq in
theorem reports_eq_nil : s.reports = [] := by
  cases hr : s.reports with
  | nil => rfl
  | cons m ms =>
    have := hq.deliver 0
    simp [step, Coordinators.handleRemoteBarrier, hr, hq.free h] at this

end Quiet

namespace BarrierInv

variable (h : s.BarrierInv l)

include h

theorem coming_of_counted (hr : r < l.size) (hcounted : s.counted r = true) (hlive : s.dead l r = false) :
    s.coming l DaemonMsg.isBarrier (l.nodeOf r) = 0 := by
  have harrived := (h.counts.counted r hr hcounted).1
  have hreleased := h.clients.released r hr
  have hpassing := h.clients.passing r hr hlive
  omega

theorem no_barrier_of_open (hv : v ≠ 0) (hopen : s.IsOpen v) : (s.queue v).countP DaemonMsg.isBarrier = 0 := by
  obtain ⟨r, hr, hheard⟩ := (h.nodes v hv).heard hopen
  rcases hheard with ⟨hnode, hcounted, hlive⟩ | ⟨hleads, hgroup, hne, hgiven⟩
  · have hzero := h.coming_of_counted hr hcounted hlive
    rw [hnode, coming, if_neg hv] at hzero
    omega
  · obtain ⟨r', hr', hnode', hlive'⟩ := h.deaths.alive r hr
    have hzero : l.nodeOf r ≠ 0 := nodeOf_ne_zero_of_leader (by rwa [hgroup])
    have hcounted := ((h.nodes _ hzero).full (.inl hgiven)).1 r' hr' hnode' hlive'
    have hcoming := h.coming_of_counted hr' hcounted hlive'
    have hfollows : l.follows (l.nodeOf r) = true := by
      unfold Nodes.follows
      rw [hgroup]
      simp [hv, Ne.symm hne]
    rw [hnode', coming, if_neg hzero, if_pos hfollows, hgroup] at hcoming
    omega

theorem no_barrier_of_quiet (hq : s.Quiet l) (hv : v ≠ 0) (hlt : v < l.nodeNum) :
    (s.queue v).countP DaemonMsg.isBarrier = 0 := by
  rcases hq.phase_cases h v with hidle | hwaiting
  swap
  · exact h.no_barrier_of_open hv (by simp [IsOpen, hwaiting])
  have hlock := ((h.waiting v).idle hidle).2.2
  have hpoll := hq.poll v
  change s.poll l v = none at hpoll
  unfold Coordinators.poll at hpoll
  rw [if_neg (by omega)] at hpoll
  cases hqueue : s.queue v with
  | nil => rfl
  | cons m q =>
    rw [hqueue] at hpoll
    cases m with
    | barrier failReady => simp [hlock] at hpoll
    | notice ranks =>
      dsimp only at hpoll
      split at hpoll
      · contradiction
      · rw [hlock, if_neg (by decide)] at hpoll
        split at hpoll
        · -- Only a notice that nothing follows waits for the release.
          cases q with
          | nil => rfl
          | cons m' q =>
            cases m'
            all_goals contradiction
        · contradiction

theorem released_of_quiet (hq : s.Quiet l) (hr : r < l.size) (hlive : s.dead l r = false) :
    s.released r = s.episodes := by
  have hpassing := h.clients.passing r hr hlive
  have hnone : s.coming l DaemonMsg.isBarrier (l.nodeOf r) = 0 := by
    unfold coming
    split
    · rfl
    · rename_i hv
      have hlt := l.rank_lt r hr
      rw [h.no_barrier_of_quiet hq hv hlt]
      split
      · rename_i hfollows
        simp only [Nodes.follows, decide_eq_true_eq] at hfollows
        rw [h.no_barrier_of_quiet hq hfollows.2 (l.leader_lt _ hlt)]
      · rfl
  omega

theorem exists_missing (hq : s.Quiet l) (hv : v ≠ 0) (hopen : s.IsOpen v) :
    ∃ r < l.size, s.awaited l v r = true ∧ s.gathered l v r = false := by
  have hwaiting := (hq.phase_cases h v).resolve_left hopen
  have hlt := (h.waiting v).waiting hwaiting
  rw [← h.tally_awaited hv, ((h.nodes v hv).tallied hopen).count] at hlt
  exact exists_of_tally_lt hlt

section Progress

variable (hq : s.Quiet l) (hall : ∀ r < l.size, s.dead l r = false → s.arrived r = s.episodes + 1)

include hq hall

theorem given_of_counted (hr : r < l.size) (hv : l.nodeOf r ≠ 0) (hleads : l.leads (l.nodeOf r) = false) :
    s.given (l.nodeOf r) = true := by
  obtain ⟨r', hr', hnode, hlive⟩ := h.deaths.alive r hr
  have hcounted := h.counts.live r' hr' hlive (hall r' hr' hlive)
  have hrep : s.Reported (l.nodeOf r) := by
    by_contra hunrep
    by_cases hidle : (s.node (l.nodeOf r)).phase = .idle
    · rw [(((h.nodes _ hv).untouched hidle hunrep).1 r' hr' hnode).1] at hcounted
      contradiction
    · obtain ⟨w, hw, hawaited, hmissing⟩ := h.exists_missing hq hv hidle
      simp only [awaited, inUnit_of_not_leads hv hleads, Bool.and_eq_true, decide_eq_true_eq,
        Bool.not_eq_true', Bool.and_eq_false_iff, decide_eq_false_iff_not] at hawaited
      have hlive' : s.dead l w = false := hawaited.2.resolve_left fun hne => hne hawaited.1
      simp [gathered, hawaited.1, h.counts.live w hw hlive' (hall w hw hlive')] at hmissing
  exact hrep.resolve_right (by rw [hq.reports_eq_nil h]; simp)

theorem given_top (hr : r < l.size) (hv : l.nodeOf r ≠ 0) : s.given (l.top r) = true := by
  have hmember : ∀ w < l.size, l.leads (l.top r) = true → l.leader (l.nodeOf w) = l.top r → l.nodeOf w ≠ l.top r →
      s.given (l.nodeOf w) = true := by
    intro w hw hleads hgroup hne
    refine h.given_of_counted hq hall hw (nodeOf_ne_zero_of_leader ?_) ?_
    · rw [hgroup]
      exact (leads_iff.mp hleads).1
    · by_contra hl
      exact hne ((leads_iff.mp (by simpa using hl)).2.symm.trans hgroup)
  cases hleads : l.leads (l.top r)
  · rcases l.top_cases (r := r) with ⟨htop, -⟩ | ⟨hl, -, -⟩
    · rw [htop] at hleads ⊢
      exact h.given_of_counted hq hall hr hv hleads
    · rw [hl] at hleads
      contradiction
  · obtain ⟨hzero, hself⟩ := leads_iff.mp hleads
    have hgroup : l.leader (l.nodeOf r) = l.top r := by
      rcases l.top_cases (r := r) with ⟨htop, -⟩ | ⟨-, hg, -⟩
      · rw [← htop, hself]
      · exact hg
    have hrep : s.Reported (l.top r) := by
      by_contra hunrep
      by_cases hidle : (s.node (l.top r)).phase = .idle
      · obtain ⟨hcounted, hgiven⟩ := (h.nodes _ hzero).untouched hidle hunrep
        by_cases hnode : l.nodeOf r = l.top r
        · obtain ⟨r', hr', hnode', hlive⟩ := h.deaths.alive r hr
          have hc := h.counts.live r' hr' hlive (hall r' hr' hlive)
          rw [(hcounted r' hr' (hnode'.trans hnode)).1] at hc
          contradiction
        · have hg := hgiven r hr hleads hgroup hnode
          rw [hmember r hr hleads hgroup hnode] at hg
          contradiction
      · obtain ⟨w, hw, hawaited, hmissing⟩ := h.exists_missing hq hzero hidle
        simp only [awaited, inUnit_of_leads hleads, Bool.and_eq_true, decide_eq_true_eq, Bool.not_eq_true',
          Bool.and_eq_false_iff, decide_eq_false_iff_not] at hawaited
        by_cases hnode : l.nodeOf w = l.top r
        · have hlive' : s.dead l w = false := hawaited.2.resolve_left fun hne => hne hnode
          simp [gathered, hnode, h.counts.live w hw hlive' (hall w hw hlive')] at hmissing
        · simp [gathered, hnode, hleads, hawaited.1, hmember w hw hleads hawaited.1 hnode] at hmissing
    exact hrep.resolve_right (by rw [hq.reports_eq_nil h]; simp)

theorem not_quiet (hr : r < l.size) (hlive : s.dead l r = false) : False := by
  have hhere : ∀ w < l.size, s.dead l w = false → s.here l w = true := by
    intro w hw hl
    have hcounted := h.counts.live w hw hl (hall w hw hl)
    by_cases hv : l.nodeOf w = 0
    · simp [here, hcounted, hv]
    · simp [here, hcounted, h.given_top hq hall hw hv]
  have hopen : s.IsOpen 0 := by
    intro hidle
    obtain ⟨hown, hgiven⟩ := h.main.idle hidle
    by_cases hv : l.nodeOf r = 0
    · have := h.counts.live r hr hlive (hall r hr hlive)
      rw [hown r hr hv] at this
      contradiction
    · have htop : l.top r ≠ 0 := by
        unfold Nodes.top
        split
        · exact hv
        · assumption
      have := h.given_top hq hall hr hv
      rw [hgiven _ htop dest_top] at this
      contradiction
  have hlt := (h.waiting 0).waiting ((hq.phase_cases h 0).resolve_left hopen)
  have hsize : l.barrierSize 0 = l.size := rfl
  rw [hsize, ← h.tally_not_known, (h.main.tallied hopen).count] at hlt
  obtain ⟨w, hw, hunknown, hmissing⟩ := exists_of_tally_lt hlt
  have hl : s.dead l w = false := by
    by_contra hd
    rcases h.deaths.heard w hw (by simpa using hd) with hk | hmem
    · simp [hk] at hunknown
    · rw [hq.updates_eq_nil] at hmem
      contradiction
  rw [hhere w hw hl] at hmissing
  contradiction

end Progress

end BarrierInv

structure Safe (l : Nodes) (s : Coordinators) : Prop where
  /-- Everybody who lives has come to every barrier that has been released. -/
  arrived : ∀ r < l.size, s.dead l r = false → s.episodes ≤ s.arrived r
  released : ∀ r < l.size, s.released r ≤ s.arrived r ∧ s.released r ≤ s.episodes
  assertions : ∀ v, (s.node v).phase ≠ .aborted
  /-- When the coordinators are at rest, everybody who lives has been released as often as the main coordinator has
  released, and somebody who lives has not come to the next barrier. -/
  rest : s.Quiet l → ∀ r < l.size, s.dead l r = false →
    s.released r = s.episodes ∧ ∃ r' < l.size, s.dead l r' = false ∧ s.arrived r' = s.episodes

theorem BarrierInv.safe (h : s.BarrierInv l) : s.Safe l where
  arrived := h.clients.arrived
  released r hr := ⟨(h.clients.released r hr).1, (h.clients.released r hr).2.2⟩
  assertions v := (h.waiting v).not_aborted
  rest hq r hr hlive := by
    refine ⟨h.released_of_quiet hq hr hlive, ?_⟩
    by_contra hnone
    refine h.not_quiet hq ?_ hr hlive
    intro w hw hl
    have hle := h.clients.arrived w hw hl
    have hup := h.clients.released w hw
    have hne : s.arrived w ≠ s.episodes := fun heq => hnone ⟨w, hw, hl, heq⟩
    omega

theorem BarrierInv.init : ({} : Coordinators).BarrierInv l where
  deaths := by
    refine ⟨by simp [known], by simp [dead], by simp, by simp [noticed], by simp, by simp, ?_, ?_, ?_, ?_,
      fun r hr => ⟨r, hr, rfl, rfl⟩⟩
    all_goals
      intro v
      exact (tally_eq_zero fun r _ => Bool.and_false _).symm
  clients := by
    refine ⟨fun _ _ => ⟨le_rfl, Nat.zero_le _, le_rfl⟩, fun _ _ _ => le_rfl, ?_, ?_⟩
    all_goals
      simp [coming]
  counts := ⟨by simp, by simp, by simp, by simp⟩
  waiting v := Waiting.of_idle rfl ⟨rfl, rfl, rfl⟩
  nodes v hv := by
    refine ⟨fun _ => (by decide : (-1 : Int) ≤ 0), fun _ _ => ⟨fun _ _ _ => ⟨rfl, rfl⟩, fun _ _ _ _ _ => rfl⟩,
      absurd rfl, absurd rfl, fun hopen => absurd rfl hopen, ?_⟩
    intro hrep
    simp [Reported] at hrep
  mail := ⟨List.nodup_nil, by simp, by simp, by simp, rfl⟩
  main := ⟨fun _ => ⟨fun _ _ _ => rfl, fun _ _ _ => rfl⟩, absurd rfl, absurd rfl, absurd rfl⟩

/-- A failure that the coordinators can cope with: the thread of the node is not between reading the number of failed
processes and going to sleep, a process of the node goes on, no failure on another node is waiting for the main
coordinator to take it out of its count, and a process of another node that has arrived fails while the main
coordinator is in the barrier, and before its node reports or as the only failure without a notice. -/
def FailsInOrder (l : Nodes) (s : Coordinators) (r : Nat) : Prop :=
  (s.node (l.nodeOf r)).phase.isChecking = false ∧
    (∃ r' < l.size, r' ≠ r ∧ l.nodeOf r' = l.nodeOf r ∧ s.dead l r' = false ∧
      (s.arrived r = s.episodes + 1 → s.arrived r' = s.episodes + 1)) ∧
    (∀ r' < l.size, s.counted r' = true → s.dead l r' = true → l.nodeOf r' ≠ 0 → s.IsOpen (l.nodeOf r')) ∧
    (s.arrived r = s.episodes + 1 → l.nodeOf r ≠ 0 →
      s.IsOpen 0 ∧ (s.IsOpen (l.nodeOf r) ∨ ∀ r' < l.size, s.dead l r' = true → s.noticed r' = true))

/-- Moreover a coordinator does not hear first of a process that is gone, the thread of the main coordinator is not
about to go to sleep when it hears of a failure, and the daemons have read one notice before the next is sent. -/
def Orderly (l : Nodes) (s : Coordinators) : CoordEvent → Prop
  | .arrive r => s.dead l r = true → (s.node (l.nodeOf r)).count ≠ 0
  | .terminate r => s.FailsInOrder l r
  | .update _ => (s.node 0).phase.isChecking = false
  | .announce _ => ∀ v < l.nodeNum, ∀ m ∈ s.queue v, m.isNotice = false
  | _ => True

theorem BarrierInv.step {e : CoordEvent} (h : s.BarrierInv l) (hguard : s.Orderly l e) (hs : s.step l e = some s') :
    s'.BarrierInv l := by
  cases e with
  | arrive r => exact h.handleBarrier hs hguard
  | deliver i =>
    obtain ⟨m, hm, hs⟩ := Option.bind_eq_some_iff.mp hs
    exact h.handleRemoteBarrier hm hs
  | terminate r =>
    obtain ⟨hcheck, hother, hlate, harrived⟩ := hguard
    exact h.terminate hs (BarrierPhase.ne_checking hcheck) hother hlate harrived
  | update i => exact h.update hs (BarrierPhase.ne_checking hguard)
  | announce ranks => exact h.announce hs hguard
  | inform i => exact h.inform hs
  | poll v => exact h.poll hs
  | read v => exact h.read hs
  | check v => exact h.check hs
  | wake v => exact h.wake hs

/-- For every layout of the nodes and their groups and every interleaving, as long as the failures come in order. -/
theorem barrier_safe {l : Nodes} {es : List CoordEvent} {s : Coordinators} (hguard : Guarded (step l) (Orderly l) {} es)
    (hrun : runEvents (step l) {} es = some s) : s.Safe l := by
  have hinv : s.BarrierInv l := hguard.invariant hrun BarrierInv.init fun hu => hu.step
  exact hinv.safe

instance (v : Nat) : Decidable (s.IsOpen v) := inferInstanceAs (Decidable (_ ≠ _))

instance (r : Nat) : Decidable (s.FailsInOrder l r) :=
  @instDecidableAnd _ _ inferInstance (@instDecidableAnd _ _ inferInstance inferInstance)

instance Orderly.decidable (l : Nodes) (s : Coordinators) : ∀ e, Decidable (s.Orderly l e)
  | .arrive _ => inferInstanceAs (Decidable (_ → _))
  | .terminate r => inferInstanceAs (Decidable (s.FailsInOrder l r))
  | .update _ => inferInstanceAs (Decidable (_ = _))
  | .announce _ => inferInstanceAs (Decidable (∀ v < l.nodeNum, ∀ m ∈ s.queue v, m.isNotice = false))
  | .deliver _ | .inform _ | .poll _ | .read _ | .check _ | .wake _ => instDecidableTrue

def twoNodes : Nodes := ⟨4, 2, 2, fun _ => 0, by decide, by decide, rfl, fun _ => rfl⟩

def failureBeforeReport : List CoordEvent :=
  [.arrive 0, .read 0, .check 0, .arrive 2, .read 1, .check 1, .arrive 3, .terminate 2, .read 1, .check 1, .update 0,
    .deliver 0, .read 0, .check 0, .arrive 1, .read 0, .check 0, .poll 1, .announce [2], .poll 1]

theorem failureBeforeReport_safe : Guarded (step twoNodes) (Orderly twoNodes) {} failureBeforeReport ∧
    ∃ s, runEvents (step twoNodes) {} failureBeforeReport = some s ∧ s.episodes = 1 ∧ s.Safe twoNodes := by
  have hguard : Guarded (step twoNodes) (Orderly twoNodes) {} failureBeforeReport := by decide +kernel
  refine ⟨hguard, exists_run_imp (P := fun s => s.episodes = 1) (by decide +kernel) ?_⟩
  exact fun s hs hepisodes => ⟨hepisodes, barrier_safe hguard hs⟩

def failuresAfterReport : List CoordEvent :=
  [.arrive 2, .read 1, .check 1, .arrive 3, .read 1, .check 1, .deliver 0, .read 0, .check 0, .terminate 2, .update 0,
    .read 0, .check 0, .terminate 3, .update 0, .read 0, .check 0, .arrive 0, .read 0, .check 0]

/-- The main coordinator has taken only the first of them out of its count. With the arrival of process 0 the count
is complete, and everybody is released, although process 1 lives and has not come. -/
theorem released_without_arrival : ∃ s, runEvents (step twoNodes) {} failuresAfterReport = some s ∧
    s.dead twoNodes 1 = false ∧ s.arrived 1 = 0 ∧ s.episodes = 1 ∧ ¬ s.Safe twoNodes := by
  refine exists_run_imp (P := fun s => s.dead twoNodes 1 = false ∧ s.arrived 1 = 0 ∧ s.episodes = 1)
    (by decide +kernel) ?_
  intro s _ hfields
  obtain ⟨hlive, harrived, hepisodes⟩ := hfields
  refine ⟨hlive, harrived, hepisodes, ?_⟩
  intro hsafe
  have := hsafe.arrived 1 (by decide) hlive
  omega

end Coordinators

end ParepMpi
