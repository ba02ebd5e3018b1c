import ParepMpi.Failure.Config
import ParepMpi.Lib.Run

/-!
# Notices of failed processes

A surviving process learns of failures by `CMD_INFORM_PROC_FAILED`, which lists original ranks. `polling_daemon`
translates them, renumbers the maps, and starts a thread that creates the new communicator; `CMD_SHRINK_PERFORMED`
installs it. A notice that comes in between starts the thread again. The locks that the daemon holds are part of the
state, because it can wait for one of its own; the agreement inside the creation is not.
-/

namespace ParepMpi

open ProcGroup

inductive NoticeFault
  /-- An access outside an array, or a group made of ranks that are not valid and distinct. -/
  | access
  /-- The daemon waits for a lock that it holds. -/
  | selfBlock
  deriving DecidableEq, Repr

structure CkptShrink where
  absFailedRanks : CArray Int
  group : List Int
  aborting : Bool
  deriving DecidableEq, Repr

/-- The part of a surviving process that notices and shrinks change. -/
structure Survivor where
  me : Int
  /-- The size of `parep_mpi_original_group`. -/
  size : Nat
  maps : ProcMaps
  /-- The members of `eworldComm`. -/
  world : List Int
  failedGroup : List Int := []
  aborting : Bool := false
  replicaLost : Bool := false
  /-- `reqListLock` is held by `polling_daemon`. -/
  reqListLock : Bool := false
  /-- `commLock` is held for writing by `polling_daemon`. -/
  commLock : Bool := false
  threadActive : Bool := false
  performingShrink : Bool := false
  /-- The group that `comm_shrink` was started with. -/
  shrinkGroup : List Int := []
  /-- The members of `parep_mpi_new_comm`. -/
  newComm : List Int := []
  waitingForResp : Bool := false
  /-- How many `CMD_SHRINK_PERFORMED` are to come for communicators created. -/
  responses : Nat := 0
  ckpt : Option CkptShrink := none
  /-- The process has installed its last communicator and spins until it is killed. -/
  stopped : Bool := false
  deriving DecidableEq, Repr

def originalGroup (n : Nat) : List Int := (List.range n).map fun k : Nat => (k : Int)

structure Translated where
  failedGroup : List Int
  absFailedRanks : CArray Int
  currentFailedGroup : List Int
  failedRanks : List Int
  deriving DecidableEq, Repr

namespace Survivor

def start (m : ProcMaps) (me : Int) : Survivor where
  me := me
  size := (m.nC + m.nR).toNat
  maps := m
  world := originalGroup (m.nC + m.nR).toNat

def numberRanks (n : Int) (a : CArray Int) : Option (CArray Int) :=
  forRange 0 n (fun j a => a.write j j) a

variable (s : Survivor)

def addFailed (absFailedRanks : CArray Int) : Option (List Int) := do
  let g ← incl (originalGroup s.size) absFailedRanks
  some (if s.failedGroup = [] then g else union s.failedGroup g)

/-- From the original ranks of the notice to the current ranks of all failed members. -/
def translate (absFailedRanks : CArray Int) : Option Translated := do
  let failedGroup ← s.addFailed absFailedRanks
  let current := inter s.world failedGroup
  let numbered ← numberRanks current.length absFailedRanks
  let ranks ← translateRanks current (numbered.take current.length) s.world
  if ranks.length ≤ absFailedRanks.length then
    some { failedGroup := failedGroup, absFailedRanks := numbered, currentFailedGroup := current,
           failedRanks := ranks }
  else none

def renumber (aborting : Bool) (t : Translated) : Option (Remapped × List Int) := do
  let out ← remap s.maps (rank s.world s.me) aborting s.replicaLost t.failedRanks
  let group ← if out.aborting then some (diff s.world t.currentFailedGroup)
    else incl s.world (out.worldCommRanks.take (out.maps.nR + out.maps.nC).toNat)
  some (out, group)

def noted (t : Translated) (out : Remapped) : Survivor :=
  { s with failedGroup := t.failedGroup, maps := out.maps, replicaLost := out.replicaLost }

/-- Starting `comm_shrink`, or starting it again: a thread still creating its communicator is cancelled,
and one that has created it is waited for and its communicator installed. -/
def startShrink (group : List Int) : Except NoticeFault Survivor :=
  if !s.threadActive then
    if s.commLock then .error .selfBlock
    else .ok { s with commLock := true, threadActive := true, performingShrink := true,
                      shrinkGroup := group }
  else if s.performingShrink then .ok { s with shrinkGroup := group }
  else .ok { s with world := s.newComm, waitingForResp := true, performingShrink := true,
                    shrinkGroup := group }

def procFailed (failed : List Int) : Except NoticeFault Survivor :=
  match s.translate failed with
  | none => .error .access
  | some t =>
    -- `pthread_mutex_lock (&reqListLock)` and, around the probing, `pthread_rwlock_rdlock (&commLock)`.
    if s.reqListLock || s.commLock then .error .selfBlock
    else match s.renumber s.aborting t with
      | none => .error .access
      | some (out, group) =>
        startShrink { s.noted t out with aborting := out.aborting, reqListLock := true } group

def shrinkPerformed : Survivor :=
  if s.waitingForResp then { s with waitingForResp := false, responses := s.responses - 1 }
  else if s.aborting then { s with world := s.newComm, responses := s.responses - 1, stopped := true }
  else { s with world := s.newComm, responses := s.responses - 1, threadActive := false,
                commLock := false, reqListLock := false }

/-- `CMD_INFORM_PROC_FAILED` in `parep_mpi_checkpoint_init`, where `aborting` is a local variable. -/
def ckptProcFailed (failed : List Int) : Except NoticeFault Survivor :=
  let absFailedRanks := match s.ckpt with
    | none => failed
    | some c => c.absFailedRanks ++ failed
  match s.translate absFailedRanks with
  | none => .error .access
  | some t => match s.renumber false t with
    | none => .error .access
    | some (out, group) =>
      .ok { s.noted t out with
        ckpt := some { absFailedRanks := t.absFailedRanks, group := group, aborting := out.aborting } }

end Survivor

inductive NoticeEvent
  | procFailed (failed : List Int)
  /-- `EMPI_Comm_create_group` returns in `comm_shrink`, which reports it. -/
  | commCreated
  | shrinkerExits
  | shrinkPerformed
  | ckptProcFailed (failed : List Int)
  /-- `shrink_caller` reports the communicator to `parep_mpi_checkpoint_init`. -/
  | ckptShrunk
  deriving DecidableEq, Repr

namespace Survivor

/-- One event. -/
def step : Except NoticeFault Survivor → NoticeEvent → Option (Except NoticeFault Survivor)
  | .error _, _ => none
  | .ok s, e =>
    if s.stopped then none
    else match e with
      | .procFailed failed => if s.ckpt.isSome then none else some (s.procFailed failed)
      | .commCreated =>
        if s.threadActive && s.performingShrink then
          some (.ok { s with performingShrink := false, newComm := s.shrinkGroup,
                             responses := s.responses + 1 })
        else none
      | .shrinkerExits =>
        if s.threadActive && !s.performingShrink then some (.ok { s with threadActive := false })
        else none
      | .shrinkPerformed => if 0 < s.responses then some (.ok s.shrinkPerformed) else none
      | .ckptProcFailed failed => if s.reqListLock then none else some (s.ckptProcFailed failed)
      | .ckptShrunk => s.ckpt.map fun c =>
        .ok { s with world := c.group, ckpt := none, stopped := c.aborting }

end Survivor

def noticed (events : List NoticeEvent) : List Int :=
  events.flatMap fun
    | .procFailed failed => failed
    | .ckptProcFailed failed => failed
    | _ => []

end ParepMpi
