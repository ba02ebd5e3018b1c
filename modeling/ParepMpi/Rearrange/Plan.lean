import ParepMpi.Failure.Compose

/-!
# Rearrangement plans

`CMD_INFORM_PREDICT` and `CMD_INFORM_PREDICT_NODE` name processes that are expected to fail. For each of them that
leaves its logical rank without a healthy copy the planning looks for a spare replica, one whose compute process is
healthy too, and exchanges it in copies of the two maps. The list of predictions with their times is part of the input;
the communicator and the maps themselves stay as they are until the plan is applied.
-/

namespace ParepMpi

structure Plan where
  ctrmap : CArray Int
  rtcmap : CArray Int
  deriving DecidableEq, Repr

structure Planning where
  plan : Plan
  usedreps : CArray Bool
  swapReplicas : Bool := false
  deriving DecidableEq, Repr

/-- What the planning reads: the maps, the members of `eworldComm` and `parep_mpi_pred_list`, in which
`-1` stands for a process that is not expected to fail. -/
structure PlanInput where
  maps : ProcMaps
  world : CArray Int
  predList : CArray Int
  deriving DecidableEq, Repr

namespace PlanInput

/-- The process at the position of the communicator is not expected to fail. -/
def healthyAt (x : PlanInput) (pos : Int) : Option Bool := do
  let q ← x.world.read pos
  let t ← x.predList.read q
  some (t == -1)

/-- The loop over the replicas: the first one not given away that is healthy, as is its compute process,
and that `allowed` does not rule out; `newreprank` and `oldcmprank`. -/
def findSpare (x : PlanInput) (usedreps : CArray Bool) (allowed : Int → Int → Bool) :
    List Int → Option (Option (Int × Int))
  | [] => some none
  | k :: ks => do
      if ← usedreps.read k then x.findSpare usedreps allowed ks
      else
        let cmprank ← x.maps.repToCmpMap.read k
        let rep ← x.healthyAt (k + x.maps.nC)
        let cmp ← x.healthyAt cmprank
        if rep && cmp && allowed (k + x.maps.nC) cmprank then some (some (k, cmprank))
        else x.findSpare usedreps allowed ks

def replicaRanks (x : PlanInput) : List Int :=
  (List.range x.maps.nR.toNat).map fun k : Nat => (k : Int)

end PlanInput

namespace Plan

/-- `c` gets the replica `k` of `o`; when `c` had the replica `r`, that one goes to `o`. -/
def exchange (p : Plan) (c k o : Int) : Option Int → Option Plan
  | none => do
      let ctr ← p.ctrmap.write c k
      let rtc ← p.rtcmap.write k c
      let ctr ← ctr.write o (-1)
      some { ctrmap := ctr, rtcmap := rtc }
  | some r => do
      let ctr ← p.ctrmap.write c k
      let rtc ← p.rtcmap.write k c
      let ctr ← ctr.write o r
      let rtc ← rtc.write r o
      some { ctrmap := ctr, rtcmap := rtc }

end Plan

/-- Giving the replica `k` of `o`, which `findSpare` found, to the logical rank `c`. -/
def Planning.give (st : Planning) (c k o : Int) (r : Option Int) : Option Planning := do
  let used ← st.usedreps.write k true
  if 0 ≤ k ∧ 0 ≤ o then
    some { plan := ← st.plan.exchange c k o r, usedreps := used, swapReplicas := true }
  else some { st with usedreps := used }

namespace PlanInput

def replicaIsHealthy (x : PlanInput) (r : Int) : Option Bool :=
  if r = -1 then some false else x.healthyAt (r + x.maps.nC)

/-- A predicted compute process, at the position `c` of the communicator. -/
def planForCompute (x : PlanInput) (st : Planning) (c : Int) : Option Planning := do
  let r ← x.maps.cmpToRepMap.read c
  let healthy ← x.replicaIsHealthy r
  if healthy then some st
  else match ← x.findSpare st.usedreps (fun _ cmprank => cmprank != c) x.replicaRanks with
    | none => some st
    | some (k, o) => st.give c k o (if r = -1 then none else some r)

/-- A predicted replica, at the position `reprank` of the communicator. -/
def planForReplica (x : PlanInput) (st : Planning) (reprank : Int) : Option Planning := do
  let c ← x.maps.repToCmpMap.read (reprank - x.maps.nC)
  let healthy ← x.healthyAt c
  if healthy then some st
  else match ← x.findSpare st.usedreps (fun rank _ => rank != reprank) x.replicaRanks with
    | none => some st
    | some (k, o) => do st.give c k o (some (← x.maps.cmpToRepMap.read c))

def planFor (x : PlanInput) (st : Planning) (currank : Int) : Option Planning :=
  if currank < x.maps.nC then x.planForCompute st currank else x.planForReplica st currank

def planAll (x : PlanInput) : Planning → List Int → Option Planning
  | st, [] => some st
  | st, currank :: rest => do x.planAll (← x.planFor st currank) rest

end PlanInput

def copyCell (n i : Int) (src dst : CArray Int) : Option (CArray Int) :=
  if i < n then do dst.write i (← src.read i) else some dst

/-- The loop `for (i = 0; i < hi; i++)` that copies the entries below `nC` of the one array and those
below `nR` of the other. -/
def copyMaps (nC nR hi : Int) (src dst : Plan) : Option Plan :=
  forRange 0 hi (fun i p => do
      let ctr ← copyCell nC i src.ctrmap p.ctrmap
      let rtc ← copyCell nR i src.rtcmap p.rtcmap
      some { ctrmap := ctr, rtcmap := rtc }) dst

/-- `parep_mpi_pred_list` when a prediction comes: allocated at the first one, and later freed of the
predictions that are older than 1800 seconds. -/
def refreshed (size : Nat) (now : Int) : Option (CArray Int) → CArray Int
  | none => List.replicate size (-1)
  | some l => l.map fun t => if t ≠ -1 ∧ 1800 < now - t then -1 else t

/-- `parep_mpi_pred_list[recvrank] = curtimestamp` for the processes of the prediction. -/
def markPredicted (now : Int) : List Int → CArray Int → Option (CArray Int)
  | [], l => some l
  | q :: rest, l => do markPredicted now rest (← l.write q now)

end ParepMpi
