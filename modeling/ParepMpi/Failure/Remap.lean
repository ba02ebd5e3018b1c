import ParepMpi.Failure.Maps

/-!
# Renumbering after a failure notice

The branch of `polling_daemon` for `CMD_INFORM_PROC_FAILED` takes the current ranks that failed and renumbers the
rest: a failed compute process with a replica gives its position to that replica, a failed replica leaves the
communicator, and the positions freed among the replicas are closed up.
-/

namespace ParepMpi

structure RemapState where
  worldCommRanks : CArray Int
  rankadj : CArray Int
  rankadjrep : CArray Int
  nRdiff : Int
  nCdiff : Int
  cmpToRepMap : CArray Int
  repToCmpMap : CArray Int
  switchingToCmp : Bool
  aborting : Bool
  deriving DecidableEq, Repr

namespace RemapState

/-- The arrays as the first loop finds them; `aborting` is a global and keeps its value. -/
def start (m : ProcMaps) (aborting : Bool) : RemapState where
  worldCommRanks := List.ofFn fun i : Fin (m.nC + m.nR).toNat => (i.val : Int)
  rankadj := List.ofFn fun _ : Fin (m.nC + m.nR).toNat => 0
  rankadjrep := List.ofFn fun _ : Fin (m.nC + m.nR).toNat => 0
  nRdiff := 0
  nCdiff := 0
  cmpToRepMap := m.cmpToRepMap
  repToCmpMap := m.repToCmpMap
  switchingToCmp := false
  aborting := aborting

def incrFrom (lo hi : Int) (a : CArray Int) : Option (CArray Int) :=
  forRange lo hi (fun i a => do a.write i ((← a.read i) + 1)) a

/-- A replica whose compute process is the failed rank `f` is to take its place. -/
def noteSwitching (nC myrank f : Int) (st : RemapState) : Option RemapState :=
  if nC ≤ myrank then do
    let c ← st.repToCmpMap.read (myrank - nC)
    some { st with switchingToCmp := st.switchingToCmp || c == f }
  else some st

/-- The compute process `f` failed and its replica `r` takes its position. -/
def promoteReplica (nC nR f r : Int) (st : RemapState) : Option RemapState := do
  let q ← st.worldCommRanks.read (r + nC)
  let ranks ← st.worldCommRanks.write f q
  let ranks ← ranks.write (r + nC) (-1)
  let adj ← incrFrom (r + nC + 1) (nC + nR) st.rankadjrep
  let rtc ← st.repToCmpMap.write r (-1)
  let ctr ← st.cmpToRepMap.write f (-1)
  some { st with nRdiff := st.nRdiff + 1, worldCommRanks := ranks, rankadjrep := adj,
                 repToCmpMap := rtc, cmpToRepMap := ctr }

def dropReplica (nC nR f : Int) (st : RemapState) : Option RemapState := do
  let ranks ← st.worldCommRanks.write f (-1)
  let adj ← incrFrom (f + 1) (nC + nR) st.rankadjrep
  let c ← st.repToCmpMap.read (f - nC)
  let ctr ← st.cmpToRepMap.write c (-1)
  let rtc ← st.repToCmpMap.write (f - nC) (-1)
  some { st with nRdiff := st.nRdiff + 1, worldCommRanks := ranks, rankadjrep := adj,
                 cmpToRepMap := ctr, repToCmpMap := rtc }

/-- The first loop. -/
def removeFailed (nC nR myrank : Int) : List Int → RemapState → Option RemapState
  | [], st => some st
  | f :: rest, st => do
      let st ← st.noteSwitching nC myrank f
      if f < nC then
        let r ← st.cmpToRepMap.read f
        if r = -1 then some { st with aborting := true }
        else
          let st ← st.promoteReplica nC nR f r
          removeFailed nC nR myrank rest st
      else
        let st ← st.dropReplica nC nR f
        removeFailed nC nR myrank rest st

def moveRank (i : Int) (st : RemapState) : Option RemapState := do
  let q ← st.worldCommRanks.read i
  if q = -1 then some st
  else
    let ranks ← st.worldCommRanks.write (i - (← st.rankadj.read i) - (← st.rankadjrep.read i)) q
    some { st with worldCommRanks := ranks }

def moveCmp (nC i : Int) (st : RemapState) : Option RemapState :=
  if i < nC then do
    let r ← st.cmpToRepMap.read i
    if r = -1 then some st
    else
      let ctr ← st.cmpToRepMap.write (i - (← st.rankadj.read i)) (r - (← st.rankadjrep.read (r + nC)))
      some { st with cmpToRepMap := ctr }
  else some st

def moveRep (nC nR i : Int) (st : RemapState) : Option RemapState :=
  if i < nR then do
    let c ← st.repToCmpMap.read i
    if c = -1 then some st
    else
      let rtc ← st.repToCmpMap.write (i - (← st.rankadjrep.read (i + nC))) (c - (← st.rankadj.read c))
      some { st with repToCmpMap := rtc }
  else some st

def closeUpEntry (nC nR i : Int) (st : RemapState) : Option RemapState := do
  let st ← st.moveRank i
  let st ← st.moveCmp nC i
  st.moveRep nC nR i

def closeUp (nC nR : Int) (st : RemapState) : Option RemapState :=
  forRange 0 (nC + nR) (closeUpEntry nC nR) st

end RemapState

/-- The globals the renumbering leaves, and the old ranks in the order of the new communicator. -/
structure Remapped where
  maps : ProcMaps
  worldCommRanks : CArray Int
  aborting : Bool
  replicaLost : Bool
  deriving DecidableEq, Repr

def lostCand (m : ProcMaps) (myrank : Int) : Option Bool :=
  if m.nC ≤ myrank then some true
  else do some ((← m.cmpToRepMap.read myrank) != -1)

/-- Whether `replica_lost` is set, from the maps after the renumbering. -/
def noteReplicaLost (m : ProcMaps) (myrank : Int) (lostCand switchingToCmp replicaLost : Bool) : Option Bool :=
  if lostCand then
    if m.nC ≤ myrank then some (replicaLost || switchingToCmp)
    else do some (replicaLost || (← m.cmpToRepMap.read myrank) == -1)
  else some replicaLost

/-- The renumbering at the process `myrank`. -/
def remap (m : ProcMaps) (myrank : Int) (aborting replicaLost : Bool) (failedRanks : List Int) : Option Remapped := do
  let cand ← lostCand m myrank
  let st ← RemapState.removeFailed m.nC m.nR myrank failedRanks (RemapState.start m aborting)
  let st' ← if st.aborting then some st else st.closeUp m.nC m.nR
  let maps : ProcMaps := {
    nC := if st.aborting then m.nC else m.nC - st.nCdiff
    nR := if st.aborting then m.nR else m.nR - st.nRdiff
    cmpToRepMap := st'.cmpToRepMap
    repToCmpMap := st'.repToCmpMap }
  let lost ← noteReplicaLost maps myrank cand st.switchingToCmp replicaLost
  some { maps := maps, worldCommRanks := st'.worldCommRanks, aborting := st.aborting,
         replicaLost := lost }

end ParepMpi
