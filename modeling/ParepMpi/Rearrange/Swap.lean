import ParepMpi.Rearrange.PlanSpec

/-!
# Plans and the communicator they are applied to

`polling_daemon` computes a plan when a prediction comes and sets `parep_mpi_swap_replicas`. The signal handler of the
main thread sees the flag, clears it, and calls `MPI_Replica_rearrange`, which installs the plan. In between failures
may be reported and the communicator may shrink, and both threads reach for the same arrays; an access to one that is
not allocated, or outside of it, is a fault.
-/

namespace ParepMpi

/-- The part of a process that predictions, failures and rearrangements change. -/
structure Rearranger where
  proc : Survivor
  /-- `parep_mpi_pred_list`, allocated at the first prediction. -/
  predList : Option (CArray Int) := none
  swapReplicas : Bool := false
  /-- The signal handler has cleared the flag and is about to call `MPI_Replica_rearrange`. -/
  applying : Bool := false
  /-- What `ctrmap` and `rtcmap` point to, if it is allocated. -/
  plan : Option Plan := none
  deriving DecidableEq, Repr

inductive RearrangeEvent
  | procFailed (failed : List Int)
  | commCreated
  | shrinkerExits
  | shrinkPerformed
  | predict (recvrank : Int) (curtimestamp : Int)
  | predictNode (recvranks : List Int) (curtimestamp : Int)
  /-- The signal handler finds `parep_mpi_swap_replicas` set. -/
  | swapSeen
  | rearrange
  deriving DecidableEq, Repr

namespace Rearranger

def start (m : ProcMaps) (me : Int) : Rearranger := { proc := .start m me }

/-- What a prediction reads, once `parep_mpi_pred_list` is brought up to date. -/
def planInput (s : Rearranger) (recvranks : List Int) (now : Int) : Option PlanInput := do
  let predList ← markPredicted now recvranks (refreshed s.proc.size now s.predList)
  some { maps := s.proc.maps, world := s.proc.world, predList := predList }

def predictNode (s : Rearranger) (recvranks : List Int) (now : Int) : Option Rearranger := do
  let x ← s.planInput recvranks now
  let plan ← copyMaps x.maps.nC x.maps.nR s.proc.size
    { ctrmap := x.maps.cmpToRepMap, rtcmap := x.maps.repToCmpMap }
    { ctrmap := List.replicate x.maps.nC.toNat 0, rtcmap := List.replicate x.maps.nR.toNat 0 }
  let st ← x.planAll { plan := plan, usedreps := List.replicate x.maps.nR.toNat false }
    (recvranks.map (ProcGroup.rank x.world))
  if st.swapReplicas then
    some { s with predList := some x.predList, plan := some st.plan, swapReplicas := true }
  else some { s with predList := some x.predList, plan := none }

def predict (s : Rearranger) (recvrank now : Int) : Option Rearranger := s.predictNode [recvrank] now

/-- `MPI_Replica_rearrange` with the arrays that `ctrmap` and `rtcmap` point to, which are then freed. -/
def rearrange (s : Rearranger) : Option Rearranger := do
  let plan ← s.plan
  let p ← copyMaps s.proc.maps.nC s.proc.maps.nR s.proc.maps.nC plan
    { ctrmap := s.proc.maps.cmpToRepMap, rtcmap := s.proc.maps.repToCmpMap }
  some { s with proc := { s.proc with maps := p.toMaps s.proc.maps }, plan := none, applying := false }

def daemon (s : Rearranger) (e : NoticeEvent) : Option (Except NoticeFault Rearranger) :=
  (Survivor.step (.ok s.proc) e).map fun r => r.map fun p => { s with proc := p }

/-- An access outside an array, or to one that is not allocated, is a fault. -/
def orFault : Option Rearranger → Except NoticeFault Rearranger
  | none => .error .access
  | some s => .ok s

/-- One event. -/
def step : Except NoticeFault Rearranger → RearrangeEvent → Option (Except NoticeFault Rearranger)
  | .error _, _ => none
  | .ok s, .procFailed failed => s.daemon (.procFailed failed)
  | .ok s, .commCreated => s.daemon .commCreated
  | .ok s, .shrinkerExits => s.daemon .shrinkerExits
  | .ok s, .shrinkPerformed => s.daemon .shrinkPerformed
  | .ok s, .predict recvrank now =>
    if s.proc.stopped then none else some (orFault (s.predict recvrank now))
  | .ok s, .predictNode recvranks now =>
    if s.proc.stopped then none else some (orFault (s.predictNode recvranks now))
  | .ok s, .swapSeen =>
    if s.swapReplicas && !s.applying && !s.proc.reqListLock then
      some (.ok { s with swapReplicas := false, applying := true })
    else none
  | .ok s, .rearrange => if s.applying then some (orFault s.rearrange) else none

end Rearranger

end ParepMpi
