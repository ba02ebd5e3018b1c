import ParepMpi.Coordinator.Barrier

/-!
# Commands down the tree

The main coordinator sends `CMD_CREATE_CKPT` and `CMD_REM_RECV` to the nodes of its own group and to the leaders of the
other groups. A leader passes a command on to its group, and every coordinator to the processes of its node. The command
is lost at a node that has reached `MPI_Finalize`, and at one that has handled a notice or a prediction in a barrier: it
reads the next command itself and asserts that it is `CMD_BARRIER`.
-/

namespace ParepMpi

open List Function

namespace Nodes

variable (l : Nodes)

/-- The coordinators that the one of node `v` sends a command to. -/
def children (v : Nat) : List Nat :=
  if v = 0 then (range l.nodeNum).filter fun j => 1 ≤ j ∧ (l.leader j = 0 ∨ l.leader j = j)
  else if l.leader v = v then (range l.nodeNum).filter fun j => j ≠ v ∧ l.leader j = v
  else []

/-- The coordinators that a command goes through on its way to the processes of node `v`. -/
def path (v : Nat) : List Nat := [v, l.dest v, 0]

variable {l} {v w : Nat}

theorem mem_children : w ∈ l.children v ↔ w < l.nodeNum ∧ w ≠ 0 ∧ l.dest w = v := by
  have h0 := l.leader_zero
  have hw := l.leader_leader w
  unfold children dest
  split_ifs with hv hleads <;> simp only [mem_filter, mem_range, decide_eq_true_iff, not_mem_nil] <;> grind

theorem dest_dest (w : Nat) : l.dest (l.dest w) = 0 := by
  by_cases h : l.leader w = w
  · simp [dest, h, l.leader_zero]
  · simp [dest, h, l.leader_leader w]

theorem dest_lt (hw : w < l.nodeNum) : l.dest w < l.nodeNum := by
  have hlt := l.leader_lt w hw
  unfold dest
  split <;> omega

theorem dest_eq_self_iff : l.dest w = w ↔ w = 0 := by
  have h0 := l.leader_zero
  unfold dest
  split <;> grind

/-- A coordinator on the way to node `w` sends to the next one on the way, and no other coordinator does. -/
theorem countP_children (hw : w < l.nodeNum) :
    (l.children v).countP (· ∈ l.path w) = if v ∈ l.path w ∧ v ≠ w then 1 else 0 := by
  have hdd := l.dest_dest w
  have hself := dest_eq_self_iff (l := l) (w := w)
  have hnodup : (l.children v).Nodup := by
    unfold children
    split_ifs <;> simp [nodup_range.filter]
  have hone : ∀ c ∈ l.children v, (∀ j ∈ l.children v, j ∈ l.path w ↔ j = c) →
      (l.children v).countP (· ∈ l.path w) = 1 := by
    intro c hc hiff
    rw [← count_eq_one_of_mem hnodup hc, count]
    exact countP_congr fun j hj => by simpa using hiff j hj
  simp only [path, mem_cons, not_mem_nil, or_false, mem_children] at hone ⊢
  split
  next hv =>
    -- The next one is node `w` itself or the leader of its group.
    by_cases hdest : l.dest w = v
    · refine hone w ⟨hw, by omega, hdest⟩ fun j hj => ⟨?_, .inl⟩
      rintro (rfl | rfl | rfl) <;> omega
    · refine hone (l.dest w) ⟨dest_lt hw, by omega, by omega⟩ fun j hj => ⟨?_, fun h => .inr (.inl h)⟩
      rintro (rfl | rfl | rfl) <;> omega
  next hv =>
    rw [countP_eq_zero]
    intro j hj
    obtain ⟨_, hj0, hdest⟩ := mem_children.mp hj
    rw [decide_eq_true_iff]
    rintro (rfl | rfl | rfl) <;> omega

end Nodes

/-- A command on its way. -/
structure Relay where
  /-- The coordinators that are about to get it. -/
  inFlight : List Nat
  /-- How many times each process has got it. -/
  got : Nat → Nat
  terminated : Nat → Bool
  /-- `parep_mpi_finalize_reached` on each node. -/
  finalizeReached : Nat → Bool
  /-- Whether the next command is taken for the barrier. -/
  awaitsBarrier : Nat → Bool

inductive RelayEvent where
  | take (v : Nat)
  | dies (r : Nat)
  | finalizes (v : Nat)
  /-- A notice or a prediction is handled while `parep_mpi_performing_barrier` is set. -/
  | announced (v : Nat)
  | barrier (v : Nat)

namespace Relay

variable (l : Nodes)

/-- The coordinator of node `v` passes the command on. -/
def passOn (s : Relay) (v : Nat) : Relay :=
  { s with
    inFlight := s.inFlight.erase v ++ l.children v
    got := fun r => if l.nodeOf r = v ∧ s.terminated r = false then s.got r + 1 else s.got r }

def step (s : Relay) : RelayEvent → Option Relay
  | .take v =>
    if v ∉ s.inFlight then none
    else if s.finalizeReached v || s.awaitsBarrier v then some { s with inFlight := s.inFlight.erase v }
    else some (s.passOn l v)
  | .dies r => some { s with terminated := update s.terminated r true }
  | .finalizes v => some { s with finalizeReached := update s.finalizeReached v true }
  | .announced v => if v = 0 then none else some { s with awaitsBarrier := update s.awaitsBarrier v true }
  | .barrier v => some { s with awaitsBarrier := update s.awaitsBarrier v false }

/-- The command does not come to a node at `MPI_Finalize`, nor before the barrier that is awaited. -/
def Welcome (s : Relay) : RelayEvent → Prop
  | .take v => (s.finalizeReached v || s.awaitsBarrier v) = false
  | _ => True

instance (s : Relay) : (e : RelayEvent) → Decidable (s.Welcome e)
  | .take v => inferInstanceAs (Decidable ((s.finalizeReached v || s.awaitsBarrier v) = false))
  | .dies _ | .finalizes _ | .announced _ | .barrier _ => instDecidableTrue

/-- How many times process `r` has got the command or will get it. -/
def due (s : Relay) (r : Nat) : Nat := s.got r + s.inFlight.countP (· ∈ l.path (l.nodeOf r))

def start : Relay := ⟨[0], fun _ => 0, fun _ => false, fun _ => false, fun _ => false⟩

variable {l} {s s' : Relay}

theorem due_start (r : Nat) : start.due l r = 1 := by
  simp [due, start, Nodes.path]

theorem countP_inFlight {v r : Nat} (hv : v ∈ s.inFlight) : s.inFlight.countP (· ∈ l.path (l.nodeOf r)) =
    (s.inFlight.erase v).countP (· ∈ l.path (l.nodeOf r)) + if v ∈ l.path (l.nodeOf r) then 1 else 0 := by
  rw [(perm_cons_erase hv).countP_eq, countP_cons]
  simp

/-- What a coordinator has passed on is due from the next ones on the way. -/
theorem due_passOn {v r : Nat} (hr : r < l.size) (hv : v ∈ s.inFlight) :
    (s.passOn l v).due l r + (if l.nodeOf r = v ∧ s.terminated r = true then 1 else 0) = s.due l r := by
  have hnodes : l.nodeOf r < l.nodeNum := l.rank_lt r hr
  rw [due, due, countP_inFlight hv, passOn, countP_append, Nodes.countP_children hnodes]
  by_cases hnode : l.nodeOf r = v
  · cases hlive : s.terminated r <;> simp [hnode, hlive, Nodes.path] <;> omega
  · by_cases hpath : v ∈ l.path (l.nodeOf r) <;> simp [hnode, hpath, Ne.symm hnode]

variable {e : RelayEvent} {es : List RelayEvent}

/-- Whatever is not taken up leaves what is due as it is. -/
theorem due_step (h : s.step l e = some s') : (∃ v ∈ s.inFlight, e = .take v) ∨
    (∀ r, s'.due l r = s.due l r) ∧ ∀ r, s'.terminated r = false → s.terminated r = false := by
  cases e with
  | take v =>
    rw [step] at h
    split at h
    · cases h
    · exact .inl ⟨v, not_not.mp ‹_›, rfl⟩
  | dies r =>
    cases h
    refine .inr ⟨fun _ => rfl, fun r' hlive => ?_⟩
    by_cases heq : r' = r
    · simp [heq] at hlive
    · simpa [heq] using hlive
  | announced v =>
    rw [step] at h
    split at h
    · cases h
    · cases h
      exact .inr ⟨fun _ => rfl, fun _ => id⟩
  | finalizes v | barrier v =>
    cases h
    exact .inr ⟨fun _ => rfl, fun _ => id⟩

theorem step_le (hle : ∀ r < l.size, s.due l r ≤ 1) (h : s.step l e = some s') : ∀ r < l.size, s'.due l r ≤ 1 := by
  intro r hr
  have hr' := hle r hr
  obtain ⟨v, hv, rfl⟩ | ⟨hsame, -⟩ := due_step h
  · rw [step, if_neg (not_not.mpr hv)] at h
    split at h <;> cases h
    · have hsplit := countP_inFlight (l := l) (r := r) hv
      simp only [due] at hr' ⊢
      omega
    · have := due_passOn hr hv
      omega
  · rwa [hsame]

theorem step_eq (heq : ∀ r < l.size, s.terminated r = false → s.due l r = 1) (hwelcome : s.Welcome e)
    (h : s.step l e = some s') : ∀ r < l.size, s'.terminated r = false → s'.due l r = 1 := by
  intro r hr hlive
  obtain ⟨v, hv, rfl⟩ | ⟨hsame, hback⟩ := due_step h
  · rw [step, if_neg (not_not.mpr hv), if_neg (by rw [show _ = false from hwelcome]; decide)] at h
    cases h
    have hlive : s.terminated r = false := hlive
    simpa [hlive, heq r hr hlive] using due_passOn hr hv
  · rw [hsame, heq r hr (hback r hlive)]

/-- Whatever the groups, the order in which the coordinators take the command up and who fails meanwhile, no process gets
it twice; and where it is welcome it comes to every live process before it comes to rest. -/
theorem command_reaches_once (es : List RelayEvent) (hrun : runEvents (step l) start es = some s) :
    (∀ r < l.size, s.got r ≤ 1) ∧ (Guarded (step l) Welcome start es → s.inFlight = [] →
      ∀ r < l.size, s.terminated r = false → s.got r = 1) := by
  have hall : Guarded (step l) (fun _ _ => True) start es := guarded_of_forall fun _ _ _ => trivial
  have hle : ∀ r < l.size, s.due l r ≤ 1 := hall.invariant (P := fun u => ∀ r < l.size, u.due l r ≤ 1) hrun
    (fun r _ => (due_start r).le) fun hu _ => step_le hu
  refine ⟨fun r hr => (Nat.le_add_right _ _).trans (hle r hr), fun hwelcome hempty r hr hlive => ?_⟩
  have heq := hwelcome.invariant (P := fun u => ∀ r < l.size, u.terminated r = false → u.due l r = 1) hrun
    (fun r _ _ => due_start r) step_eq r hr hlive
  rwa [due, hempty] at heq

/-- One rank on each of four nodes, in two groups. -/
def fourNodes : Nodes := ⟨4, 4, 1, fun v => if v < 2 then 0 else 2, by decide, by decide, rfl, fun v => by split <;> rfl⟩

/-- The leader of the second group is in a barrier when the command leaves the main coordinator. -/
def afterBarrier : List RelayEvent := [.take 0, .announced 2, .barrier 2, .take 2, .take 3, .take 1]

theorem fourNodes_reached :
    ∃ s, runEvents (step fourNodes) start afterBarrier = some s ∧ ∀ r < 4, s.got r = 1 := by
  refine ⟨_, rfl, fun r hr => ?_⟩
  exact (command_reaches_once (l := fourNodes) afterBarrier rfl).2 (by decide +kernel) rfl r hr rfl

end Relay

end ParepMpi
