import ParepMpi.Failure.Renumbered
import ParepMpi.Lib.Run

/-!
# Messages, their logs and their recovery

Every process logs what it sends and what it receives. When processes have failed, the others move to their new
positions, report the ids in their logs to each other, send again what has not arrived, and put on their skip lists
what the process whose place they take has sent before them.

A message is its source, its destination and its id: its bytes are in `Messages.Encoding`, and the wait for room is in
`Buffered.Throttle`. The ids are natural numbers here, and `Messages.Ids` says when those of the source run out. A
failure that takes both copies of a rank is no step, because the renumbering has no result then.
-/

namespace ParepMpi

namespace ProcMaps

def positions (m : ProcMaps) : List Int := (List.range (m.nC + m.nR).toNat).map Int.ofNat

def logical (m : ProcMaps) (i : Int) : Int := if i < m.nC then i else m.rtc (i - m.nC)

/-- The positions to which the process at position `q` sends a message for the logical rank `t`. -/
def recipients (m : ProcMaps) (q t : Int) : List Int :=
  if q < m.nC then
    t :: if m.ctr t ≠ -1 ∧ m.ctr q = -1 then [m.nC + m.ctr t] else []
  else if m.ctr t ≠ -1 then [m.nC + m.ctr t] else []

end ProcMaps

/-- A SEND record. -/
structure SendRec where
  id : Nat
  target : Int
  released : Bool := false
  markdelcmp : Bool := false
  markdelrep : Bool := false
  deriving DecidableEq, Repr

structure RecvRec where
  id : Nat
  source : Int
  released : Bool := false
  markdelcmp : Bool := false
  markdelrep : Bool := false
  deriving DecidableEq, Repr

def firstSendid : Nat := 0x70000000

structure Proc where
  sendid : Nat := firstSendid
  sends : List SendRec := []
  recvs : List RecvRec := []
  skipcmplist : List Nat := []
  skipreplist : List Nat := []
  /-- Every message delivered to the application image of this process, pruned records included. -/
  received : List (Int × Nat) := []
  deriving DecidableEq, Repr

namespace Proc

def skipsTo (p : Proc) (nC j : Int) : List Nat := if j < nC then p.skipcmplist else p.skipreplist

/-- The process after it issued its next send, to the logical rank `t`. -/
def issue (p : Proc) (t : Int) : Proc :=
  { p with sendid := p.sendid + 1
           sends := p.sends ++ [{ id := p.sendid, target := t }]
           skipcmplist := p.skipcmplist.erase p.sendid
           skipreplist := p.skipreplist.erase p.sendid }

def accept (p : Proc) (source : Int) (id : Nat) : Proc :=
  { p with recvs := p.recvs ++ [{ id := id, source := source }]
           received := p.received ++ [(source, id)] }

end Proc

/-- A message in flight: the position it goes to, the logical rank it is from and its id. -/
structure Message where
  dst : Int
  source : Int
  id : Nat
  deriving DecidableEq, Repr

/-- The maps that the survivors of a failure agree on, and where the process at each position was before. -/
def regroup (m : ProcMaps) (failed : List Int) : Option (ProcMaps × (Int → Int)) :=
  if failed.Pairwise (· < ·) ∧ ∀ f ∈ failed, f ∈ m.positions then do
    let me ← m.positions.find? (· ∉ failed)
    let out ← remap m me false false failed
    if out.aborting then none
    else some (out.maps, fun i => (out.worldCommRanks.read i).getD (-1))
  else none

structure MsgWorld where
  maps : ProcMaps
  procs : Int → Proc
  net : List Message

namespace MsgWorld

def start (m : ProcMaps) : MsgWorld := { maps := m, procs := fun _ => {}, net := [] }

variable (w : MsgWorld)

/-- What the next `MPI_Isend` of the process at position `i` puts on the network. -/
def outgoing (i t : Int) : List Message :=
  let p := w.procs i
  ((w.maps.recipients i t).filter fun j => p.sendid ∉ p.skipsTo w.maps.nC j).map
    fun j => ⟨j, w.maps.logical i, p.sendid⟩

def isend (dest : Int → Nat → Int) (w : MsgWorld) (i : Int) : Option MsgWorld :=
  if i ∈ w.maps.positions then
    let t := dest (w.maps.logical i) (w.procs i).sendid
    some { w with procs := Function.update w.procs i ((w.procs i).issue t)
                  net := w.net ++ w.outgoing i t }
  else none

def receive (k : Nat) : Option MsgWorld := do
  let msg ← w.net[k]?
  some { w with procs := Function.update w.procs msg.dst ((w.procs msg.dst).accept msg.source msg.id)
                net := w.net.eraseIdx k }

/-! ### `parep_mpi_restore_messages`

Every process reports the ids that it has received. Whoever sent them resends the others, and skips later what the
copy that it replaces has sent already. -/

/-- The ids that the process at position `j` reports to the one at position `q`. -/
def report (q j : Int) : List Nat :=
  ((w.procs j).recvs.filter fun r => r.source = w.maps.logical q).map (·.id)

def resends (q : Int) : List Message :=
  (w.procs q).sends.flatMap fun r =>
    ((w.maps.recipients q r.target).filter fun j => r.id ∉ w.report q j).map fun j => ⟨j, w.maps.logical q, r.id⟩

/-- The positions whose reports lead the process at position `q` to skip a later send. -/
def heeds (m : ProcMaps) (q j : Int) : Bool :=
  if q < m.nC then
    j ≠ q ∧ (m.ctr q = -1 ∨ j ≠ m.ctr q + m.nC) ∧ (j < m.nC ∨ m.ctr q = -1)
  else j ≠ m.rtc (q - m.nC) ∧ j ≠ q ∧ m.nC ≤ j

/-- The ids in the report of `j` that no SEND record of `q` accounts for and that `q` has yet to reach. -/
def ahead (q j : Int) : List Nat :=
  (w.report q j).filter fun id =>
    (∀ r ∈ (w.procs q).sends, ¬ (j ∈ w.maps.recipients q r.target ∧ r.id = id)) ∧ (w.procs q).sendid ≤ id

/-- The ids that the reports of the positions in `js` add to a skip list. -/
def skipItems (q : Int) (js : List Int) : List Nat :=
  ((js.filter (heeds w.maps q)).flatMap (w.ahead q)).reverse

def restore : MsgWorld :=
  { w with
    procs := fun q =>
      { w.procs q with
        skipcmplist := w.skipItems q (w.maps.positions.filter (· < w.maps.nC)) ++ (w.procs q).skipcmplist
        skipreplist := w.skipItems q (w.maps.positions.filter (w.maps.nC ≤ ·)) ++ (w.procs q).skipreplist }
    net := w.net ++ w.maps.positions.flatMap w.resends }

/-! ### Failures and rearrangements

Both give the processes new positions on new communicators. -/

/-- New maps; position `i` is now held by the process that was at `old i`, and the messages on the old
communicator are gone. -/
def moved (maps : ProcMaps) (old : Int → Int) : MsgWorld :=
  { maps := maps, procs := fun i => w.procs (old i), net := [] }

/-- The processes at the positions in `failed` fail and the others agree on new maps. -/
def shrink (failed : List Int) : Option MsgWorld :=
  (regroup w.maps failed).map fun x => w.moved x.1 x.2

/-- `MPI_Replica_rearrange`: new maps, and every replica becomes a copy of its compute process. -/
def recopy (maps : ProcMaps) : MsgWorld := w.moved maps maps.logical

end MsgWorld

end ParepMpi
