import ParepMpi.Lib.Run
import ParepMpi.Lib.Tally

/-!
# The barrier of the coordinators

Every node has a coordinator; the one on node 0 is the main coordinator. The processes report to the coordinator of
their node, the coordinators to the leader of their group and the leaders to the main one, which releases everybody.
Failed processes are taken out of the counts, by the coordinator of their node or by the main one.

The state is that of all coordinators with the messages between them, and an event is what one thread does until others
may come in, so that every interleaving is a run. Connections do not break and nodes stay up: the loss of a node is
detected by timeouts, which this model does not have.
-/

namespace ParepMpi

open Function

/-- The nodes, with `nodeSize` ranks on each but the last, and for each node the leader of its group. -/
structure Nodes where
  size : Nat
  nodeNum : Nat
  nodeSize : Nat
  leader : Nat → Nat
  rank_lt : ∀ r < size, r / nodeSize < nodeNum
  leader_lt : ∀ v < nodeNum, leader v < nodeNum
  leader_zero : leader 0 = 0
  leader_leader : ∀ v, leader (leader v) = leader v

namespace Nodes

variable (l : Nodes)

def nodeOf (r : Nat) : Nat := r / l.nodeSize

def leads (v : Nat) : Bool := v ≠ 0 ∧ l.leader v = v

def follows (v : Nat) : Bool := l.leader v ≠ v ∧ l.leader v ≠ 0

def inUnit (v r : Nat) : Bool := if l.leader v = v then l.leader (l.nodeOf r) = v else l.nodeOf r = v

def sizeOf (v : Nat) : Int := tally (fun r => l.nodeOf r = v) l.size

def unitSize (v : Nat) : Int := tally (l.inUnit v) l.size

/-- How many processes a coordinator waits for when none has failed. -/
def barrierSize (v : Nat) : Int := if v = 0 then l.size else l.unitSize v

def dest (v : Nat) : Nat := if l.leader v = v then 0 else l.leader v

def ranksOf (v : Nat) : List Nat := (List.range l.size).filter fun r => l.nodeOf r = v

def otherRanks : List Nat := (List.range l.size).filter fun r => l.nodeOf r ≠ 0

end Nodes

inductive BarrierPhase where
  | idle
  /-- It has the arrival and is about to read the number of failed processes. -/
  | fresh
  | checking (nfailed : Int)
  | waiting (signalled : Bool)
  /-- A second thread takes itself for the first one and waits for the lock of the notices. -/
  | blocked
  /-- An assertion failed. -/
  | aborted
  deriving DecidableEq, Repr

def BarrierPhase.signalled : BarrierPhase → BarrierPhase
  | .waiting _ => .waiting true
  | p => p

structure Coordinator where
  phase : BarrierPhase := .idle
  /-- `parep_mpi_barrier_count` and `parep_mpi_group_barrier_count`. -/
  count : Int := 0
  groupCount : Int := 0
  /-- `global_failed_proc_reached_barrier`. -/
  reached : Int := -1
  /-- `failed_proc_reached_barrier` of the waiting thread. -/
  localReached : Int := 0
  recvRank : Nat → Bool := fun _ => false
  /-- The processes in state `PROC_TERMINATED`: those of the node, at the main coordinator those of all nodes. -/
  terminated : Nat → Bool := fun _ => false
  informCheck : Nat → Bool := fun _ => false
  numFailed : Int := 0
  numInformFailed : Int := 0
  barrierRunning : Bool := false
  performingBarrier : Bool := false
  /-- `parep_mpi_inform_failed_mutex` is held. -/
  informLock : Bool := false

namespace Coordinator

def free (c : Coordinator) : Bool :=
  match c.phase with
  | .idle | .waiting _ => true
  | _ => false

def signal (c : Coordinator) : Coordinator := { c with phase := c.phase.signalled }

def signalFrom (size : Int) (c : Coordinator) : Coordinator :=
  { c with phase := if size - c.numFailed ≤ c.count then c.phase.signalled else c.phase }

def begin (c : Coordinator) (reached : Int) : Coordinator :=
  { c with phase := .fresh, reached := reached, localReached := 0, recvRank := fun _ => false, informLock := true }

def arrive (leads : Bool) (r : Nat) (c : Coordinator) : Coordinator :=
  if c.terminated r then c
  else { c with
    recvRank := update c.recvRank r true
    count := c.count + 1
    groupCount := if leads then c.groupCount + 1 else c.groupCount }

def strike (leads : Bool) (c : Coordinator) (i : Nat) : Coordinator :=
  if c.recvRank i && c.terminated i then
    { c with
      recvRank := update c.recvRank i false
      localReached := c.localReached + 1
      reached := if leads then c.reached + 1 else c.reached
      count := c.count - 1
      groupCount := if leads then c.groupCount - 1 else c.groupCount }
  else c

def localScan (l : Nodes) (v : Nat) (c : Coordinator) : Coordinator := (l.ranksOf v).foldl (strike (l.leads v)) c

/-- One pass of the main coordinator's loop over its own node, with `fail_found` and `found`. -/
def strikeOwn (x : Coordinator × Bool × Bool) (i : Nat) : Coordinator × Bool × Bool :=
  if !x.1.informCheck i && x.1.recvRank i && x.1.terminated i then
    ({ x.1 with
        recvRank := update x.1.recvRank i false
        reached := if x.1.reached ≠ 0 then 1 else x.1.reached
        count := x.1.count - 1 }, true, x.2.2)
  else if !x.1.informCheck i && x.1.terminated i then (x.1, true, true)
  else x

/-- One pass of its loop over the other nodes: only the first failure it comes to is taken out of the count. -/
def strikeOther (c : Coordinator) (i : Nat) : Coordinator :=
  if !c.informCheck i && c.terminated i && c.recvRank i && c.reached = -1 then
    { c with
      recvRank := update c.recvRank i false
      reached := 1
      count := c.count - 1 }
  else c

def mainScan (l : Nodes) (c : Coordinator) : Coordinator :=
  let own := (l.ranksOf 0).foldl strikeOwn (c, false, false)
  let c := if own.2.1 then own.1 else l.otherRanks.foldl strikeOther own.1
  if own.2.2 then { c with reached := 0 } else c

/-- What the thread does about failures that have not been announced. -/
def scan (l : Nodes) (v : Nat) (nfailed : Int) (c : Coordinator) : Coordinator :=
  if c.numInformFailed < nfailed then if v = 0 then c.mainScan l else c.localScan l v else c

end Coordinator

structure Report where
  nid : Nat
  bcount : Int
  fprb : Int
  deriving DecidableEq, Repr

namespace Coordinator

/-- A report at the main coordinator; `lfail` are the processes it does not account for. -/
def takeReport (l : Nodes) (m : Report) (lfail : Int) (c : Coordinator) : Coordinator :=
  { c with
    phase := if lfail < m.fprb then .aborted else c.phase
    count := c.count + m.bcount
    recvRank := fun r => c.recvRank r || l.inUnit m.nid r
    reached :=
      if 0 < lfail then if lfail = m.fprb then if c.reached ≠ 0 then 1 else c.reached else 0 else c.reached }

def gather (l : Nodes) (m : Report) (c : Coordinator) : Coordinator :=
  { c with
    count := c.count + l.sizeOf m.nid
    groupCount := c.groupCount + m.bcount
    reached := c.reached + m.fprb }

/-- The first arrival at a leader is a report: here the lock of the notices is released and not taken. -/
def beginRemote (c : Coordinator) : Coordinator :=
  { c with phase := .fresh, localReached := 0, recvRank := fun _ => false, informLock := false }

def terminate (r : Nat) (c : Coordinator) : Coordinator :=
  if c.terminated r then c
  else signal { c with terminated := update c.terminated r true, numFailed := c.numFailed + 1 }

def announce (r : Nat) (c : Coordinator) : Coordinator :=
  if c.informCheck r then c
  else { c with informCheck := update c.informCheck r true, numInformFailed := c.numInformFailed + 1 }

/-- The values a coordinator sends up: a leader sends those of its group. -/
def report (l : Nodes) (v : Nat) (c : Coordinator) : Report :=
  if l.leads v then ⟨v, c.groupCount, c.reached⟩ else ⟨v, c.count, c.localReached⟩

def reported (c : Coordinator) : Coordinator :=
  { c with phase := .idle, count := 0, groupCount := 0, reached := 0, performingBarrier := true, informLock := false }

def released (c : Coordinator) : Coordinator :=
  { c with phase := .idle, count := 0, groupCount := 0, reached := -1, barrierRunning := false, informLock := false }

end Coordinator

inductive DaemonMsg where
  | barrier (failReady : Bool)
  | notice (ranks : List Nat)
  deriving DecidableEq, Repr

/-- The coordinators and what is on the way between them. -/
structure Coordinators where
  node : Nat → Coordinator := fun _ => {}
  informNode : Nat → Int := fun _ => 0
  informGroup : Nat → Int := fun _ => 0
  failReady : Bool := false
  reports : List Report := []
  /-- `CMD_PROC_STATE_UPDATE`. -/
  updates : List Nat := []
  /-- Where `CMD_INFORM_BARRIER_RUNNING` goes. -/
  runnings : List Nat := []
  queue : Nat → List DaemonMsg := fun _ => []
  episodes : Nat := 0
  arrived : Nat → Nat := fun _ => 0
  released : Nat → Nat := fun _ => 0
  counted : Nat → Bool := fun _ => false
  struck : Nat → Bool := fun _ => false
  given : Nat → Bool := fun _ => false

inductive CoordEvent where
  /-- `handle_barrier` for rank `r`. -/
  | arrive (r : Nat)
  /-- `handle_remote_barrier` for the `i`-th report on the way. -/
  | deliver (i : Nat)
  /-- The coordinator of its node sees that process `r` is gone. -/
  | terminate (r : Nat)
  /-- The main coordinator hears of this. -/
  | update (i : Nat)
  /-- `CMD_INFORM_PROC_FAILED`. -/
  | announce (ranks : List Nat)
  /-- `handle_inform_barrier_running`. -/
  | inform (i : Nat)
  /-- `polling_server` of node `v` reads from its socket. -/
  | poll (v : Nat)
  /-- The thread of node `v` that waits for the others reads the number of failed processes. -/
  | read (v : Nat)
  /-- It looks through the failures and waits or goes on. -/
  | check (v : Nat)
  /-- A wake-up without a signal. -/
  | wake (v : Nat)
  deriving DecidableEq, Repr

namespace Coordinators

variable (l : Nodes) (s : Coordinators)

def setNode (v : Nat) (c : Coordinator) : Coordinators := { s with node := update s.node v c }

/-- `CMD_INFORM_BARRIER_RUNNING` from a node with a first arrival. -/
def tellRunning (v : Nat) : Coordinators :=
  if v = 0 then s
  else if l.leads v then
    if (s.node v).barrierRunning then s
    else { s.setNode v { s.node v with barrierRunning := true } with runnings := s.runnings ++ [0] }
  else { s with runnings := s.runnings ++ [l.leader v] }

def handleBarrier (r : Nat) : Option Coordinators :=
  let v := l.nodeOf r
  let c := s.node v
  if r < l.size ∧ s.arrived r = s.released r ∧ c.free then
    let s := { s with arrived := update s.arrived r (s.arrived r + 1) }
    let counted := if c.terminated r then s.counted else update s.counted r true
    if c.count = 0 then
      let s := s.tellRunning l v
      let c := s.node v
      some <| if c.informLock then s.setNode v { c with phase := .blocked }
        else { s.setNode v ((c.begin (if v = 0 then -1 else 0)).arrive (l.leads v) r) with counted := counted }
    else
      let c := c.arrive (l.leads v) r
      some { s.setNode v (if c.terminated r then c else c.signalFrom (l.barrierSize v)) with counted := counted }
  else none

/-- The processes of a unit that a report does not account for, and of which there was no notice. -/
def lfail (m : Report) : Int :=
  l.unitSize m.nid - m.bcount - if l.leader m.nid = m.nid then s.informGroup m.nid else s.informNode m.nid

def handleRemoteBarrier (m : Report) : Option Coordinators :=
  let d := l.dest m.nid
  let c := s.node d
  if c.free then
    let s := { s with given := update s.given m.nid true }
    some <|
      if d = 0 then
        if c.count = 0 then
          s.setNode 0 <| if c.informLock then { c with phase := .blocked }
            else (c.begin (-1)).takeReport l m (s.lfail l m)
        else s.setNode 0 ((c.takeReport l m (s.lfail l m)).signalFrom l.size)
      else
        if c.count = 0 then
          let s := s.tellRunning l d
          let c := s.node d
          s.setNode d (if c.phase = .idle then c.beginRemote.gather l m else { c with phase := .blocked })
        else s.setNode d ((c.gather l m).signalFrom (l.barrierSize d))
  else none

def terminate (r : Nat) : Option Coordinators :=
  let v := l.nodeOf r
  if r < l.size ∧ ¬ (s.node v).terminated r then
    let s := s.setNode v ((s.node v).terminate r)
    some <| if v = 0 then { s with failReady := true } else { s with updates := s.updates ++ [r] }
  else none

def update (i : Nat) : Option Coordinators := do
  let r ← s.updates[i]?
  some { s.setNode 0 ((s.node 0).terminate r) with updates := s.updates.eraseIdx i, failReady := true }

def markInformed (s : Coordinators) (r : Nat) : Coordinators :=
  if (s.node 0).informCheck r then s
  else { s.setNode 0 ((s.node 0).announce r) with
    informNode := Function.update s.informNode (l.nodeOf r) (s.informNode (l.nodeOf r) + 1)
    informGroup := Function.update s.informGroup (l.leader (l.nodeOf r)) (s.informGroup (l.leader (l.nodeOf r)) + 1) }

/-- To the daemons of the first group and the leaders of the others. -/
def sendDaemons (m : DaemonMsg) : Coordinators :=
  { s with queue := fun j =>
      if j ≠ 0 ∧ j < l.nodeNum ∧ (l.leader j = 0 ∨ l.leader j = j) then s.queue j ++ [m] else s.queue j }

/-- Node `v` has read a message, which leaves `q`; a leader passes it on to its group. -/
def sendGroup (v : Nat) (m : DaemonMsg) (q : List DaemonMsg) : Coordinators :=
  { s with queue := fun j =>
      if j = v then q else if l.leads v ∧ j < l.nodeNum ∧ l.leader j = v then s.queue j ++ [m] else s.queue j }

def announce (ranks : List Nat) : Option Coordinators :=
  let c := s.node 0
  if ranks ≠ [] ∧ (∀ r ∈ ranks, r < l.size ∧ c.terminated r ∧ ¬ c.informCheck r) ∧ ¬ c.informLock ∧
      ¬ c.barrierRunning then
    some { (ranks.foldl (markInformed l) s).sendDaemons l (.notice ranks) with failReady := false }
  else none

def inform (i : Nat) : Option Coordinators := do
  let d ← s.runnings[i]?
  let s := { s with runnings := s.runnings.eraseIdx i }
  if (s.node d).barrierRunning then some s
  else
    let s := s.setNode d { s.node d with barrierRunning := true }
    some (if d = 0 then s else { s with runnings := s.runnings ++ [0] })

def releaseClients (v : Nat) : Coordinators :=
  { s with released := fun r =>
      if r < l.size ∧ l.nodeOf r = v ∧ ¬ (s.node v).terminated r then s.released r + 1 else s.released r }

def passBarrier (v : Nat) (failReady : Bool) (q : List DaemonMsg) : Coordinators :=
  let s := s.setNode v { s.node v with performingBarrier := false, barrierRunning := false }
  (s.sendGroup l v (.barrier failReady) q).releaseClients l v

def passNotice (v : Nat) (ranks : List Nat) (q : List DaemonMsg) : Coordinators :=
  let s := s.sendGroup l v (.notice ranks) q
  s.setNode v ((ranks.filter fun r => l.nodeOf r = v).foldl (fun c r => c.announce r) (s.node v))

def poll (v : Nat) : Option Coordinators :=
  let c := s.node v
  if v = 0 ∨ l.nodeNum ≤ v then none
  else match s.queue v with
    | [] => none
    | .barrier failReady :: q => if c.informLock then none else some (s.passBarrier l v failReady q)
    | .notice ranks :: q =>
      -- A node without processes does not pass on notices.
      if (l.ranksOf v).all c.terminated then some { s with queue := Function.update s.queue v q }
      else if c.informLock then none
      else if c.performingBarrier then
        -- The node has reported: the release that must follow is passed on before the notice.
        match q with
        | [] => none
        | .barrier failReady :: q => some ((s.passBarrier l v failReady (.notice ranks :: q)).passNotice l v ranks q)
        | .notice _ :: _ => some (s.setNode v { c with phase := .aborted })
      else some (s.passNotice l v ranks q)

def read (v : Nat) : Option Coordinators :=
  let c := s.node v
  match c.phase with
  | .fresh | .waiting true => some (s.setNode v { c with phase := .checking c.numFailed })
  | _ => none

def release (c : Coordinator) : Coordinators :=
  let reached := if c.reached = -1 then 0 else c.reached
  let s := (s.sendDaemons l (.barrier (s.failReady && reached = 0))).releaseClients l 0
  { s.setNode 0 c.released with
    episodes := s.episodes + 1
    counted := fun _ => false
    struck := fun _ => false
    given := fun _ => false }

def check (v : Nat) : Option Coordinators :=
  let c := s.node v
  match c.phase with
  | .checking nfailed =>
    let c' := c.scan l v nfailed
    let out (r : Nat) : Bool := c.recvRank r && !c'.recvRank r
    let s := { s with
      counted := fun r => s.counted r && !out r
      struck := fun r => s.struck r || v ≠ 0 && out r }
    some <|
      if c'.count < l.barrierSize v - nfailed then s.setNode v { c' with phase := .waiting false }
      else if c'.count ≠ l.barrierSize v - nfailed then s.setNode v { c' with phase := .aborted }
      else if v = 0 then s.release l c'
      else { s.setNode v c'.reported with reports := s.reports ++ [c'.report l v] }
  | _ => none

def wake (v : Nat) : Option Coordinators :=
  match (s.node v).phase with
  | .waiting _ => some (s.setNode v (s.node v).signal)
  | _ => none

def step : CoordEvent → Option Coordinators
  | .arrive r => s.handleBarrier l r
  | .deliver i => do
      let m ← s.reports[i]?
      { s with reports := s.reports.eraseIdx i }.handleRemoteBarrier l m
  | .terminate r => s.terminate l r
  | .update i => s.update i
  | .announce ranks => s.announce l ranks
  | .inform i => s.inform i
  | .poll v => s.poll l v
  | .read v => s.read v
  | .check v => s.check l v
  | .wake v => s.wake v

end Coordinators

end ParepMpi
