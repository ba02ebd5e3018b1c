import ParepMpi.Collective.Retry
import ParepMpi.Lib.Exchange
import ParepMpi.Messages.World

/-!
# The bytes of a collective, in the call and in its replay

`MPI_Ibcast` and its siblings issue operations on `EMPI_COMM_CMP` for the compute processes and on `EMPI_COMM_REP`,
`EMPI_CMP_REP_INTERCOMM` or `EMPI_CMP_NO_REP_INTERCOMM` for the replicas, and they log a copy of the bytes that the
process sends.
-/

namespace ParepMpi

open Exchange

namespace ProcMaps

variable (m : ProcMaps)

def computes : List Int := (List.range m.nC.toNat).map Int.ofNat

def replicas : List Int := (List.range m.nR.toNat).map fun k : Nat => m.nC + k

/-- The ranks `i` with `cmpToRepMap[i] != -1`, in the order in which the loops fill their arrays. -/
def replicated : List Int := m.computes.filter fun c => m.ctr c ≠ -1

/-- The ranks `i` with `cmpToRepMap[i] == -1`, which are `intermapping` and the members of
`EMPI_CMP_NO_REP`. -/
def unreplicated : List Int := m.computes.filter fun c => m.ctr c = -1

/-- The processes on the other side of a communicator, by rank; none when the process is not in it. -/
def peers : EComm → Int → List Int
  | .world, _ => m.positions
  | .cmp, i => if i < m.nC then m.computes else []
  | .rep, i => if i < m.nC then [] else m.replicas
  | .cmpRep, i => if i < m.nC then m.replicas else m.computes
  | .cmpNoRep, i =>
    if i < m.nC then if m.ctr i = -1 then m.replicas else [] else m.unreplicated

/-- Whether the process takes part in the operations between the compute processes without a replica and
the replicas. -/
def between (i : Int) : Bool :=
  if m.nC ≤ i then decide (m.nC > m.nR ∧ m.nR > 0) else decide (m.nR > 0 ∧ m.ctr i = -1)

end ProcMaps

abbrev CollOp := Op EComm UInt8

/-- The bytes that each logical rank sends. -/
abbrev SendData := Int → Int → UInt8

def SendData.app (d : SendData) (l : Int) : Int → Option UInt8 := fun o => some (d l o)

/-- A datatype of the application: where the bytes of an element are, and how far it is to the next element. -/
structure Datatype where
  size : Nat
  extent : Int
  offset : Nat → Int

namespace Datatype

/-- `count` elements, the first of them at `start`. -/
def run (t : Datatype) (start : Int) (count : Nat) : Region :=
  ⟨start, count * t.size, fun o => (o / t.size : Nat) * t.extent + t.offset (o % t.size)⟩

def bytes (n : Nat) : Datatype := ⟨n, n, fun o => o⟩

/-- The bytes of the elements come one after the other. -/
def Dense (t : Datatype) : Prop := t = bytes t.size

variable {t : Datatype}

theorem Dense.extent (h : t.Dense) : t.extent = t.size := congrArg Datatype.extent h

theorem Dense.run (h : t.Dense) (start : Int) (count : Nat) : t.run start count = .bytes start (count * t.size) := by
  have hshape : (bytes t.size |>.run start count) = .bytes start (count * t.size) := by
    simp only [Datatype.run, bytes, Region.bytes, Region.mk.injEq, true_and]
    funext o
    rw [← Nat.cast_mul, ← Nat.cast_add, Nat.div_add_mod']
  rwa [← h] at hshape

end Datatype

/-- The arguments of a call that moves blocks of one size. -/
structure Blocks where
  sendcount : Nat
  sendtype : Datatype
  recvcount : Nat
  recvtype : Datatype
  agree : sendcount * sendtype.size = recvcount * recvtype.size

namespace Blocks

def sent (b : Blocks) : Nat := b.sendcount * b.sendtype.size

def received (b : Blocks) : Nat := b.recvcount * b.recvtype.size

-- EMPI counts the displacements `i*sendcount` and `i*recvcount` in extents; the block 0 is at the buffer's start
def sblock (b : Blocks) (c : Int) : Region := b.sendtype.run (c * b.sendcount * b.sendtype.extent) b.sendcount

def rblock (b : Blocks) (c : Int) : Region := b.recvtype.run (c * b.recvcount * b.recvtype.extent) b.recvcount

/-- The block from `c` at `recvbuf + intermapping[i]*recvcount*rsize`. -/
def across (b : Blocks) (c : Int) : Region := b.recvtype.run (c * b.recvcount * b.recvtype.size) b.recvcount

end Blocks

/-- The arguments of `MPI_Ialltoallv` at every logical rank. -/
structure VBlocks where
  sendtype : Datatype
  recvtype : Datatype
  sendcounts : Int → Int → Nat
  sdispls : Int → Int → Int
  recvcounts : Int → Int → Nat
  rdispls : Int → Int → Int
  agree : ∀ a b, sendcounts a b * sendtype.size = recvcounts b a * recvtype.size

/-- `snumcounts` and `rnumcounts`: the sum of the counts before the rank `c`. -/
def packedDispl (counts : Int → Nat) (c : Int) : Nat :=
  ((List.range c.toNat).map fun k : Nat => counts k).sum

namespace VBlocks

def sblock (v : VBlocks) (l c : Int) : Region :=
  v.sendtype.run (v.sdispls l c * v.sendtype.extent) (v.sendcounts l c)

def rblock (v : VBlocks) (l c : Int) : Region :=
  v.recvtype.run (v.rdispls l c * v.recvtype.extent) (v.recvcounts l c)

/-- The block from `c` at `recvbuf + rdispls[intermapping[i]]*rsize`. -/
def across (v : VBlocks) (l c : Int) : Region :=
  v.recvtype.run (v.rdispls l c * v.recvtype.size) (v.recvcounts l c)

/-- The block for `c` in the log of `l`, which has the blocks one after the other. -/
def packedSblock (v : VBlocks) (l c : Int) : Region :=
  v.sendtype.run (packedDispl (v.sendcounts l) c * v.sendtype.extent) (v.sendcounts l c)

/-- The block from `c` when the blocks of the receive buffer come one after the other. -/
def packedRblock (v : VBlocks) (l c : Int) : Region :=
  v.recvtype.run (packedDispl (v.recvcounts l) c * v.recvtype.extent) (v.recvcounts l c)

/-- The log has `sendcounts[i]*ssize` bytes from `sendbuf + sdispls[i]*ssize` on. -/
def logged (v : VBlocks) (m : ProcMaps) (d : SendData) (l : Int) : Int → Option UInt8 :=
  filled (m.computes.flatMap fun c =>
    contents (d.app l) (.bytes (v.sdispls l c * v.sendtype.size) (v.sendcounts l c * v.sendtype.size)))

end VBlocks

inductive CollArgs where
  | bcast (count : Nat) (datatype : Datatype) (root : Int)
  | scatter (b : Blocks) (root : Int)
  | gather (b : Blocks) (root : Int)
  | allgather (b : Blocks)
  | alltoall (b : Blocks)
  | alltoallv (v : VBlocks)

namespace ProcMaps

variable (m : ProcMaps)

/-- The operations from a root: it serves the replicas across when it has none of its own. -/
def fromRootOps (root i : Int) (op : EComm → Option Int → RootArg → CollOp) : List CollOp :=
  if m.nC ≤ i then
    if m.ctr root = -1 then [op .cmpRep none (.rank root)]
    else [op .rep (some (i - m.nC)) (.rank (m.ctr root))]
  else
    op .cmp (some i) (.rank root) ::
      if m.ctr root = -1 ∧ i = root ∧ m.nR > 0 then [op .cmpRep none .root]
      else if m.ctr root = -1 ∧ m.nR > 0 then [op .cmpRep none .procNull]
      else []

variable (buf : Int → Option UInt8)

def bcastOps (r : Region) (dest : Option Region) (root i : Int) : List CollOp :=
  m.fromRootOps root i fun comm me arg => bcast comm me buf r dest arg

def scatterOps (b : Blocks) (root i : Int) : List CollOp :=
  m.fromRootOps root i fun comm me arg =>
    scatterv comm me buf ((if comm = .cmp then m.computes else m.replicated).map b.sblock) (b.rblock 0) arg

/-- The operations of a gather; `across` is what a compute process without a replica issues for a root
with one. -/
def gatherOps (b : Blocks) (root : Int) (across : CollOp) (i : Int) : List CollOp :=
  if m.nC ≤ i then
    if m.ctr root ≠ -1 then
      (if m.nC > m.nR ∧ m.nR > 0 then
        [gatherv .cmpNoRep none buf (b.sblock 0) (m.unreplicated.map b.rblock)
          (if m.logical i = root then .root else .procNull)]
      else []) ++
      [gatherv .rep (some (i - m.nC)) buf (b.sblock 0) (m.replicated.map b.rblock) (.rank (m.ctr root))]
    else []
  else
    gatherv .cmp (some i) buf (b.sblock 0) (m.computes.map b.rblock) (.rank root) ::
      if m.ctr root ≠ -1 ∧ m.ctr i = -1 then [across] else []

/-- A gather to each replica brings it the blocks of the ranks without one. -/
def allgatherOps (b : Blocks) (i : Int) : List CollOp :=
  let toReplica (arg : Nat → RootArg) : List CollOp :=
    (List.range m.nR.toNat).map fun k =>
      gatherv .cmpNoRep none buf (b.sblock 0) (m.unreplicated.map b.rblock) (arg k)
  if m.nC ≤ i then
    (if m.between i then toReplica fun k => if m.ctr (m.logical i) = k then .root else .procNull else []) ++
      [allgatherv .rep buf (b.sblock 0) (m.replicated.map b.rblock)]
  else
    allgatherv .cmp buf (b.sblock 0) (m.computes.map b.rblock) ::
      if m.between i then toReplica fun k => .rank k else []

/-- A scatter from each rank without a replica brings the replicas its blocks. -/
def alltoallOps (sblock rblock across : Int → Region) (i : Int) : List CollOp :=
  let fromCompute (arg : Nat → RootArg) : List CollOp :=
    (List.range (m.nC - m.nR).toNat).map fun k =>
      scatterv .cmpNoRep none buf (m.replicated.map sblock) (across (m.unreplicated.getD k 0)) (arg k)
  if m.nC ≤ i then
    (if m.between i then fromCompute fun k => .rank k else []) ++
      [alltoallv .rep buf (m.replicated.map sblock) (m.replicated.map rblock)]
  else
    alltoallv .cmp buf (m.computes.map sblock) (m.computes.map rblock) ::
      if m.between i then
        fromCompute fun k => if m.unreplicated.idxOf i = k then .root else .procNull
      else []

end ProcMaps

namespace CollArgs

def issue (m : ProcMaps) (d : SendData) (i : Int) : CollArgs → List CollOp
  | .bcast count t root => m.bcastOps (d.app (m.logical i)) (t.run 0 count) (some (t.run 0 count)) root i
  | .scatter b root => m.scatterOps (d.app (m.logical i)) b root i
  | .gather b root =>
    m.gatherOps (d.app (m.logical i)) b root (gatherv .cmpNoRep none (d.app (m.logical i)) (b.sblock 0)
        (m.unreplicated.map b.rblock) (.rank (m.ctr root))) i
  | .allgather b => m.allgatherOps (d.app (m.logical i)) b i
  | .alltoall b => m.alltoallOps (d.app (m.logical i)) b.sblock b.rblock b.across i
  | .alltoallv v =>
    m.alltoallOps (d.app (m.logical i)) (v.sblock (m.logical i)) (v.rblock (m.logical i)) (v.across (m.logical i)) i

def resetColls (m : ProcMaps) (i n : Int) : Option Unit :=
  if m.between i then (resetRequests n).map fun _ => () else some ()

/-- What `mpi_ft_collective_from_args` issues at rank `i` for a record with a pending request. -/
def replay (m : ProcMaps) (d : SendData) (i : Int) : CollArgs → Option (List CollOp)
  | .bcast count t root =>
    -- the buffer is `send_src` on every process, never the one of the application
    some (m.bcastOps freed (t.run 0 count) none root i)
  | .scatter b root => some (m.scatterOps freed b root i)
  | .gather b root => do
      let buf := copied (d.app (m.logical i)) b.sent
      if i < m.nC ∧ m.ctr root ≠ -1 ∧ m.ctr i = -1 then fillCounts m (m.nC - m.nR)
      some (m.gatherOps buf b root
        (gatherv .cmpRep none buf (b.sblock 0) (m.replicated.map b.rblock) (.rank (m.ctr root))) i)
  | .allgather b => do
      resetColls m i m.nR
      some (m.allgatherOps (copied (d.app (m.logical i)) b.sent) b i)
  | .alltoall b => do
      resetColls m i (m.nC - m.nR)
      some (m.alltoallOps (copied (d.app (m.logical i)) (m.nC.toNat * b.sent)) b.sblock b.rblock b.across i)
  | .alltoallv v => do
      resetColls m i (m.nC - m.nR)
      -- the displacements are counted up anew, also those of the receive buffer
      some (m.alltoallOps (v.logged m d (m.logical i)) (v.packedSblock (m.logical i))
        (v.packedRblock (m.logical i)) (fun c => v.recvtype.run 0 (v.recvcounts (m.logical i) c)) i)

def type : CollArgs → CollType
  | .bcast .. => .bcast
  | .scatter .. => .scatter
  | .gather .. => .gather
  | .allgather .. => .allgather
  | .alltoall .. => .alltoall
  | .alltoallv .. => .alltoallv

def RootIn (m : ProcMaps) : CollArgs → Prop
  | .bcast _ _ root | .scatter _ root | .gather _ root => 0 ≤ root ∧ root < m.nC
  | _ => True

/-- Bounds of the counts, displacements and byte numbers that the code computes in `int`s. -/
def products (m : ProcMaps) : CollArgs → List Int
  | .bcast count t _ => [count, count * t.size]
  | .scatter b _ | .gather b _ | .allgather b | .alltoall b =>
    [m.nC * b.sendcount, m.nC * b.sent, m.nC * b.recvcount, m.nC * b.received]
  | .alltoallv v =>
    m.computes.flatMap fun l =>
      let ssum := packedDispl (v.sendcounts l) m.nC
      let rsum := packedDispl (v.recvcounts l) m.nC
      [(ssum : Int), ssum * v.sendtype.size, (rsum : Int), rsum * v.recvtype.size] ++
        m.computes.flatMap fun c => [v.sdispls l c * v.sendtype.size, v.rdispls l c * v.recvtype.size]

/-- The root is a rank, and nothing overflows. -/
structure InRange (m : ProcMaps) (args : CollArgs) : Prop where
  root : args.RootIn m
  products : ∀ n ∈ args.products m, n.natAbs < 0x80000000

/-- What the log copies, `count*size` bytes of the buffer, is the elements. -/
def LoggedWhole : CollArgs → Prop
  | .bcast .. | .scatter .. => True
  | .gather b _ | .allgather b | .alltoall b => b.sendtype.Dense
  | .alltoallv v => v.sendtype.Dense ∧ v.recvtype.Dense

/-- The replay goes through, all its operations complete, and it writes into the receive buffer of every
process the bytes that the call would write, and no others. -/
def Reproduces (m : ProcMaps) (args : CollArgs) : Prop :=
  ∀ d : SendData, (∀ i ∈ m.positions, (args.replay m d i).isSome) ∧
    Matched m.peers (fun i => (args.replay m d i).getD []) m.positions ∧
    ∀ i ∈ m.positions, ∀ w, w ∈ landings m.peers (fun i => (args.replay m d i).getD []) i ↔
        w ∈ landings m.peers (fun i => args.issue m d i) i

/-- Nothing is to be moved by a broadcast or a scatter; a gather has a root without a replica or every rank
has one; the other collectives run without replicas or with a replica for every rank, and an `alltoallv`
receives its blocks one after the other. -/
def Replayable (m : ProcMaps) : CollArgs → Prop
  | .bcast count t _ => count * t.size = 0 ∨ m.nC = 1
  | .scatter b _ => b.sent = 0
  | .gather _ root => m.ctr root = -1 ∨ m.nR = m.nC
  | .allgather _ | .alltoall _ => m.nR = 0 ∨ m.nR = m.nC
  | .alltoallv v =>
    (m.nR = 0 ∨ m.nR = m.nC) ∧ ∀ a b, 0 ≤ a → a < m.nC → 0 ≤ b → b < m.nC →
      0 < v.recvcounts b a * v.recvtype.size → v.rdispls b a = packedDispl (v.recvcounts b) a

end CollArgs

end ParepMpi
