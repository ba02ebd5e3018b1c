import ParepMpi.Collective.Reduce

/-!
# Issuing the collectives again

After a failure `parep_mpi_restore_messages` gathers the newest collective each process has completed, takes the least
over the compute processes and over the replicas, and issues every record above it again on the side concerned. A
record stands for the operations on each communicator and its flags; the bytes that they move are in `Collective.Data`,
and whether a reduction may be left out in `Collective.Reduce`.
-/

namespace ParepMpi

open CollRecord

inductive EComm where
  | world | cmp | rep | cmpRep | cmpNoRep
  deriving DecidableEq, Repr

/-- The operations issued for a record and the flags it is left with. -/
structure ReplayEffect where
  ops : List EComm
  completecmp : Bool
  completerep : Bool
  completecolls : List Bool
  deriving DecidableEq, Repr

structure RetryIds where
  cmpid : Int
  repid : Int
  minid : Int
  deriving DecidableEq, Repr

def reissue (threshold id : Int) : Bool := decide (id > threshold) && decide (threshold ≥ 0)

/-- A new array of `n` requests. -/
def resetRequests (n : Int) : Option (List Bool) := if 0 < n then none else some []

/-- `MPI_FT_BCAST` and `MPI_FT_SCATTER`: a root without a replica serves the replicas across. -/
def replayFromRoot (m : ProcMaps) (t : RetryIds) (i : Int) (r : CollRecord) : Option ReplayEffect := do
  let rootRep ← m.cmpToRepMap.read r.root
  if m.nC ≤ i then
    if reissue t.repid r.id then
      some ⟨[if rootRep = -1 then .cmpRep else .rep], true, false, []⟩
    else some ⟨[], true, true, []⟩
  else
    let onCmp := reissue t.cmpid r.id
    let across := reissue t.repid r.id && rootRep == -1 && decide (m.nR > 0)
    some ⟨(if onCmp then [.cmp] else []) ++ (if across then [.cmpRep] else []), !onCmp, !across, []⟩

/-- The loop of a gather that fills an array of `n` counts, one for each replicated logical rank. -/
def fillCounts (m : ProcMaps) (n : Int) : Option Unit := do
  let filled ← forRange 0 m.nC
    (fun c j => do if (← m.cmpToRepMap.read c) = -1 then some j else some (j + 1)) (0 : Int)
  if filled ≤ n then some () else none

/-- `MPI_FT_GATHER`: only a root with a replica has the replicas take part. -/
def replayGather (m : ProcMaps) (t : RetryIds) (i : Int) (r : CollRecord) : Option ReplayEffect := do
  let rootRep ← m.cmpToRepMap.read r.root
  if m.nC ≤ i then
    if rootRep ≠ -1 ∧ reissue t.repid r.id then
      if m.nC > m.nR ∧ m.nR > 0 then some ⟨[.cmpNoRep, .rep], false, false, []⟩
      else some ⟨[.rep], true, false, []⟩
    else some ⟨[], true, true, []⟩
  else
    let myrep ← m.cmpToRepMap.read i
    let onCmp := reissue t.cmpid r.id
    let across := reissue t.repid r.id && rootRep != -1 && myrep == -1
    if across then fillCounts m (m.nC - m.nR)
    some ⟨(if onCmp then [.cmp] else []) ++ (if across then [.cmpRep] else []), !onCmp, !across, []⟩

/-- `MPI_FT_ALLGATHER`, `MPI_FT_ALLTOALL` and `MPI_FT_ALLTOALLV`, with `n` operations between the compute
processes without a replica and the replicas. -/
def replayToAll (m : ProcMaps) (t : RetryIds) (i : Int) (r : CollRecord) (n : Int) : Option ReplayEffect :=
  if m.nC ≤ i then
    if reissue t.repid r.id then do
      let colls ← if m.nC > m.nR ∧ m.nR > 0 then resetRequests n else some []
      some ⟨(if m.nC > m.nR ∧ m.nR > 0 then List.replicate n.toNat .cmpNoRep else []) ++ [.rep], true, false, colls⟩
    else some ⟨[], true, true, r.completecolls.map fun _ => true⟩
  else do
    let onCmp := reissue t.cmpid r.id
    if reissue t.repid r.id then
      let myrep ← m.cmpToRepMap.read i
      let between := decide (m.nR > 0) && myrep == -1
      let colls ← if between then resetRequests n else some []
      some ⟨(if onCmp then [.cmp] else []) ++
        (if between then List.replicate n.toNat .cmpNoRep else []), !onCmp, true, colls⟩
    else some ⟨if onCmp then [.cmp] else [], !onCmp, true, r.completecolls.map fun _ => true⟩

/-- `myrepid`, the entry of this compute process's replica, or `-1`. -/
def myRepId (m : ProcMaps) (tables : ReduceTables) (i : Int) : Option Int := do
  let myrep ← m.cmpToRepMap.read i
  if myrep = -1 then some (-1) else tables.collids.read (myrep + m.nC)

/-- `MPI_FT_REDUCE` and `MPI_FT_ALLREDUCE`: a replica waits for the result from its compute process. -/
def replayReducing (m : ProcMaps) (tables : ReduceTables) (t : RetryIds) (i : Int)
    (r : CollRecord) : Option ReplayEffect :=
  if m.nC ≤ i then some ⟨if r.completerep then [] else [.cmpRep], true, r.completerep, []⟩
  else do
    let d ← replayReductionRecord m tables t.cmpid (← myRepId m tables i) i r
    some ⟨(if d.reduces then [.cmp] else []) ++ (if d.forwards then [.cmpRep] else []),
      d.completecmp, d.completerep, []⟩

/-- One round of the loop of `mpi_ft_collective_from_args` at the rank `i`. -/
def replayRecord (m : ProcMaps) (tables : ReduceTables) (t : RetryIds) (i : Int) (r : CollRecord) :
    Option ReplayEffect :=
  match r.type with
  | .barrier => some ⟨[.world], false, true, []⟩
  | .bcast | .scatter => replayFromRoot m t i r
  | .gather => replayGather m t i r
  | .allgather => replayToAll m t i r m.nR
  | .alltoall | .alltoallv => replayToAll m t i r (m.nC - m.nR)
  | .reduce | .allreduce => replayReducing m tables t i r
  | .reduceTemp | .allreduceTemp => some ⟨[], false, false, r.completecolls⟩

def replayRecords (m : ProcMaps) (tables : ReduceTables) (t : RetryIds) (i : Int) :
    List CollRecord → Option (List (CollRecord × ReplayEffect))
  | [] => some []
  | r :: newer => do
      let e ← replayRecord m tables t i r
      let rest ← replayRecords m tables t i newer
      some ((r, e) :: rest)

structure CollWorld where
  maps : ProcMaps
  procs : List CollProc
  deriving DecidableEq, Repr

namespace CollWorld

def computes (w : CollWorld) : List CollProc := w.procs.take w.maps.nC.toNat

def replicas (w : CollWorld) : List CollProc := w.procs.drop w.maps.nC.toNat

/-- The ids of temporary records from the newest completed record on, the oldest first; none when no
record is completed. -/
def heldTempIds (log : List CollRecord) : List Int :=
  match log.find? completed with
  | none => []
  | some last =>
    ((last :: (log.takeWhile fun r => !r.completed).reverse).filter fun r =>
      r.type == .reduceTemp || r.type == .allreduceTemp).map CollRecord.id

/-- `collids`, `redids` and `reddataids`, the same on every process. -/
def tables (w : CollWorld) : ReduceTables :=
  .gathered (w.procs.map fun p => newestId completed p.log) (w.procs.map fun p => heldTempIds p.log)

def retryIds (w : CollWorld) : RetryIds :=
  let cmpid := newestByAll completed w.computes
  let repid := if w.maps.nR > 0 then newestByAll completed w.replicas else -1
  { cmpid := cmpid
    repid := repid
    minid := if w.maps.nR > 0 ∧ repid < cmpid ∧ repid ≥ 0 then repid else cmpid }

/-- What the process at rank `i` issues: the records newer than `minid`, the oldest first. -/
def retry (w : CollWorld) (i : Int) : Option (List (CollRecord × ReplayEffect)) := do
  let p ← CArray.read w.procs i
  replayRecords w.maps w.tables w.retryIds i (p.log.takeWhile fun r => decide (w.retryIds.minid < r.id)).reverse

end CollWorld

end ParepMpi
