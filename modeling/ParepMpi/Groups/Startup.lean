import ParepMpi.Groups.Layout
import ParepMpi.Groups.Leader
import ParepMpi.Lib.CArray
import ParepMpi.Lib.Loop

/-!
# The start of the coordinators

`parep_mpi_ckpt_coordinator_init`: the other coordinators come to the main one in any order and say which node they
are, how many processes they have and where they stand in their group; the main coordinator sums up the groups, gives
every node its range of ranks, and reads the processes of a group from its leader.

The arrays have the lengths that the source allocates, so that a table that is too short makes a fault and not a wrong
entry. Addresses, names and client sockets are left out, since no table depends on them, and a read takes whole words:
what becomes of words that come in pieces is in `Framing`.
-/

namespace ParepMpi

open List CArray

structure StartUp where
  nodeNum : Nat
  nodeSize : Nat → Nat
  pid : Nat → Nat → Nat
  nodeNum_pos : 0 < nodeNum

structure RankLims where
  start : Int
  last : Int
  deriving DecidableEq, Repr

def RankLims.count (l : RankLims) : Nat := (l.last - l.start + 1).toNat

/-- What the main coordinator notes of the others. -/
structure MainTables where
  daemonSocket : CArray (Option Nat)
  nodeSizes : CArray Nat
  groupIds : CArray Nat
  groupNodeids : CArray Nat
  groupSizes : CArray Nat
  groupNodesizes : CArray Nat

/-- The tables of the processes, and what has not been read of the words that the other coordinators have sent. -/
structure Registration where
  globalPids : CArray Nat
  allRanks : CArray Nat
  procState : CArray DaemonState
  unread : Nat → List Nat

/-- The first `n` words, and the words that are left; a read waits until there are as many. -/
def takeWords (n : Nat) (ws : List Nat) : Option (List Nat × List Nat) :=
  if n ≤ ws.length then some (ws.take n, ws.drop n) else none

namespace StartUp

variable (cfg : StartUp)

def size : Nat := ((range cfg.nodeNum).map cfg.nodeSize).sum

/-! ### The main coordinator accepts the others

They come in any order; each one sends its node, the number of its processes and its place in its group. -/

def addTo (a : CArray Nat) (i : Nat) (d : Nat) : Option (CArray Nat) := do
  let v ← a.read i
  a.write i (v + d)

/-- The tables before the first connection. -/
def tables : Option MainTables := do
  let n := cfg.nodeNum
  let daemonSocket ← write (replicate n none) 0 none
  let nodeSizes ← write (replicate n 0) 0 (cfg.nodeSize 0)
  let groupIds ← write (replicate n 0) 0 0
  let groupNodeids ← write (replicate n 0) 0 0
  let groupSizes ← addTo (replicate (groupNum n) 0) 0 1
  let groupNodesizes ← addTo (replicate (groupNum n) 0) 0 (cfg.nodeSize 0)
  some ⟨daemonSocket, nodeSizes, groupIds, groupNodeids, groupSizes, groupNodesizes⟩

/-- The four numbers a coordinator sends. -/
def registration (v : Nat) : Option (CArray Nat) := do
  let buffer ← write (replicate 2 0) 0 v
  let buffer ← buffer.write 1 (cfg.nodeSize v)
  let buffer ← buffer.write 2 (groupId cfg.nodeNum v)
  buffer.write 3 (groupNodeid cfg.nodeNum v)

def accept (t : MainTables) (v : Nat) : Option MainTables := do
  let gid := groupId cfg.nodeNum v
  let daemonSocket ← t.daemonSocket.write v (some v)
  let nodeSizes ← t.nodeSizes.write v (cfg.nodeSize v)
  let groupIds ← t.groupIds.write v gid
  let groupNodeids ← t.groupNodeids.write v (groupNodeid cfg.nodeNum v)
  let groupSizes ← addTo t.groupSizes gid 1
  let groupNodesizes ← addTo t.groupNodesizes gid (cfg.nodeSize v)
  some ⟨daemonSocket, nodeSizes, groupIds, groupNodeids, groupSizes, groupNodesizes⟩

def acceptAll (order : List Nat) : Option MainTables := do
  order.foldlM cfg.accept (← cfg.tables)

def nextLims (nodeSizes : CArray Nat) (lims : CArray RankLims) (i : Nat) : Option (CArray RankLims) := do
  let before ← lims.read ((i : Int) - 1)
  let n ← nodeSizes.read i
  lims.write i ⟨before.last + 1, before.last + 1 + n - 1⟩

def rankLimsAll (nodeSizes : CArray Nat) : Option (CArray RankLims) := do
  let lims ← write (replicate cfg.nodeNum ⟨0, 0⟩) 0 ⟨0, cfg.nodeSize 0 - 1⟩
  (range' 1 (cfg.nodeNum - 1)).foldlM (nextLims nodeSizes) lims

/-! ### What the other coordinators send

A leader reads the words of its members before it sends them on after its own. -/

variable (lims : CArray RankLims) (t : MainTables)

/-- A coordinator sends that its processes run, their ids and their ranks, which count from the start of its range. -/
def daemonStream (v : Nat) : Option (List Nat) := do
  let l ← lims.read v
  some (1 :: (range (cfg.nodeSize v)).map (cfg.pid v) ++
    (range (cfg.nodeSize v)).map fun (k : Nat) => (l.start + k).toNat)

/-- The sizes that the leader at node `i` gets of its group: as many are written as the main coordinator has counted,
and as many are read as the leader has computed. -/
def leaderSizes (i : Nat) : Option (CArray Nat) := do
  let n ← t.groupSizes.read (groupId cfg.nodeNum i)
  let ws ← (range n).mapM fun j => t.nodeSizes.read ((i + j : Nat) : Int)
  let (sizes, _) ← takeWords (groupSize cfg.nodeNum i) ws
  some sizes

/-- The sockets of the leader at node `i`, when its members have come in the given order. -/
def leaderSockets (i : Nat) (order : List Nat) : Option (CArray (Option Nat)) :=
  order.foldlM (fun socks (j : Nat) => write socks j (some (i + j))) (replicate (groupSize cfg.nodeNum i) none)

/-- A leader reads the words of its member `j` and sends the ids and the ranks on. -/
def sendOn (sizes : CArray Nat) (socks : CArray (Option Nat)) (out : List Nat) (j : Nat) :
    Option (List Nat) := do
  let sock ← (← socks.read j)
  let (started, ws) ← takeWords 1 (← cfg.daemonStream lims sock)
  let n ← sizes.read j
  let (pidbuf, ws) ← takeWords n ws
  let (rankbuf, _) ← takeWords n ws
  if started = [1] then some (out ++ (pidbuf ++ rankbuf)) else none

/-- What a leader sends: its own processes, then those of its members one after the other. -/
def leaderStream (i : Nat) (order : List Nat) : Option (List Nat) := do
  let sizes ← cfg.leaderSizes t i
  let socks ← cfg.leaderSockets i order
  let own ← cfg.daemonStream lims i
  (range' 1 (groupSize cfg.nodeNum i - 1)).foldlM (cfg.sendOn lims sizes socks) own

/-- What comes from the coordinator at node `v`. -/
def stream (orders : Nat → List Nat) (v : Nat) : Option (List Nat) :=
  if groupId cfg.nodeNum v ≠ 0 ∧ groupNodeid cfg.nodeNum v = 0 then cfg.leaderStream lims t v (orders v)
  else cfg.daemonStream lims v

/-! ### The main coordinator reads

It reads from the sockets of its own group and of the leaders, and finds the members of a leader with the group
ids of the first nodes. -/

def readNode (sock : Nat) (l : RankLims) (r : Registration) : Option Registration := do
  let (pids, ws) ← takeWords l.count (r.unread sock)
  let globalPids ← r.globalPids.writeAll l.start pids
  let (ranks, ws) ← takeWords l.count ws
  let allRanks ← r.allRanks.writeAll l.start ranks
  some { r with globalPids := globalPids, allRanks := allRanks, unread := Function.update r.unread sock ws }

/-- `for (j = 1; i + j < node_num && group_nodeids[j] != 0; j++)`: the members of the leader at node `i`. -/
def readMembers (sock i : Nat) : Nat → Nat → Registration → Option Registration
  | 0, _, _ => none
  | fuel + 1, j, r =>
    if i + j < cfg.nodeNum then do
      if (← t.groupNodeids.read j) ≠ 0 then
        let r ← readNode sock (← lims.read ((i + j : Nat) : Int)) r
        readMembers sock i fuel (j + 1) r
      else some r
    else some r

def markNode (l : RankLims) (r : Registration) : Option Registration := do
  let procState ← r.procState.writeAll l.start (replicate l.count .running)
  some { r with procState := procState }

def markMembers (i : Nat) : Nat → Nat → Registration → Option Registration
  | 0, _, _ => none
  | fuel + 1, k, r =>
    if k < cfg.nodeNum then do
      if (← t.groupNodeids.read k) ≠ 0 then
        let r ← markNode (← lims.read ((i + k : Nat) : Int)) r
        markMembers i fuel (k + 1) r
      else some r
    else some r

def registerNode (r : Registration) (i : Nat) : Option Registration := do
  let gid ← t.groupIds.read i
  let gnid ← t.groupNodeids.read i
  if gid = 0 ∨ gnid = 0 then
    let sock ← (← t.daemonSocket.read i)
    let (started, ws) ← takeWords 1 (r.unread sock)
    let l ← lims.read i
    if started = [1] then
      let r ← readNode sock l { r with unread := Function.update r.unread sock ws }
      let r ← if gnid = 0 then cfg.readMembers lims t sock i cfg.nodeNum 1 r else some r
      let r ← markNode l r
      if gnid = 0 then cfg.markMembers lims t i cfg.nodeNum 1 r else some r
    else none
  else some r

/-- The processes of node 0 are entered, then the other nodes are read. -/
def registerAll (unread : Nat → List Nat) : Option Registration := do
  let l ← lims.read 0
  let n := cfg.size
  let globalPids ← writeAll (replicate n 0) l.start ((range (cfg.nodeSize 0)).map (cfg.pid 0))
  let allRanks ← writeAll (replicate n 0) l.start (range (cfg.nodeSize 0))
  let procState ← writeAll (replicate n .uninitialized) l.start (replicate (cfg.nodeSize 0) .running)
  (range' 1 (cfg.nodeNum - 1)).foldlM (cfg.registerNode lims t) ⟨globalPids, allRanks, procState, unread⟩

/-- `parep_mpi_ckpt_coordinator_init` at the main coordinator, for the order in which the others come and those in which
the members of the groups come to their leaders. -/
def init (order : List Nat) (orders : Nat → List Nat) : Option (MainTables × CArray RankLims × Registration) := do
  let t ← cfg.acceptAll order
  let lims ← cfg.rankLimsAll t.nodeSizes
  let streams ← (range cfg.nodeNum).mapM (cfg.stream lims t orders)
  let r ← cfg.registerAll lims t fun v => streams.getD v []
  some (t, lims, r)

/-- The groups are consecutive blocks of nodes, of the sizes that the main coordinator has counted. -/
def InBlocks : Prop :=
  (∀ v < cfg.nodeNum, groupId cfg.nodeNum v < groupNum cfg.nodeNum) ∧
    ∀ g < groupNum cfg.nodeNum, ∃ first n, t.groupSizes.read g = some n ∧
      ∀ v < cfg.nodeNum, (groupId cfg.nodeNum v = g ↔ first ≤ v ∧ v < first + n) ∧
        (groupId cfg.nodeNum v = g → groupNodeid cfg.nodeNum v = v - first ∧ groupSize cfg.nodeNum v = n)

/-- Every rank is in the range of one node, and the ranges have nothing else. -/
def RanksPartitioned : Prop :=
  (∀ k : Int, 0 ≤ k ∧ k < cfg.size ↔ ∃ v < cfg.nodeNum, ∃ l, lims.read v = some l ∧ l.start ≤ k ∧ k ≤ l.last) ∧
    ∀ v w : Nat, ∀ l m, lims.read v = some l → lims.read w = some m → v ≠ w →
      ∀ k, ¬ (l.start ≤ k ∧ k ≤ l.last ∧ m.start ≤ k ∧ k ≤ m.last)

/-- Every process runs, and has the id and the rank that its own node reports. -/
def AllRegistered (r : Registration) : Prop :=
  ∀ v < cfg.nodeNum, ∃ l, lims.read v = some l ∧ l.last + 1 - l.start = cfg.nodeSize v ∧ ∀ k < cfg.nodeSize v,
    r.procState.read (l.start + k) = some .running ∧ r.globalPids.read (l.start + k) = some (cfg.pid v k) ∧
      r.allRanks.read (l.start + k) = some (l.start + k).toNat

/-- The main coordinator gets to the end without an access outside its arrays, with all processes registered and
everything read that the coordinators have sent it. -/
def Registered (order : List Nat) (orders : Nat → List Nat) : Prop :=
  ∃ t lims r, cfg.init order orders = some (t, lims, r) ∧ cfg.InBlocks t ∧ cfg.RanksPartitioned lims ∧
    cfg.AllRegistered lims r ∧
    ∀ v < cfg.nodeNum, v ≠ 0 → groupId cfg.nodeNum v = 0 ∨ groupNodeid cfg.nodeNum v = 0 → r.unread v = []

/-- No coordinator writes outside the buffer of its registration. -/
def BuffersHold : Prop := ∀ v < cfg.nodeNum, v ≠ 0 → (cfg.registration v).isSome

end StartUp

end ParepMpi
