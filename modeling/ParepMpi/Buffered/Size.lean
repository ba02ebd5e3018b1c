import Mathlib.Algebra.Order.Group.Multiset
import ParepMpi.Collective.Log
import ParepMpi.Lib.Ledger
import ParepMpi.Messages.Encoding

/-!
# The size of the buffered messages

A process keeps a copy of what it sends with every `SEND` record, and the operands and the result with every
`ALLREDUCE` record. `parep_mpi_store_buf_sz` is to be the bytes of these copies. A buffer is a number that is used
once, so that it can be said which have been freed and how often; sizes are products of `int`s. Records of other
collectives have no part in the account.
-/

namespace ParepMpi

open Ledger

def sendBytes (size count : Nat) : Int := int32 (int32 (count + extracount size) * size)

def allreduceBytes (size count : Nat) : Int := int32 (int32 (2 * count) * size)

structure StoredSend where
  size : Nat
  count : Nat
  buf : Option Nat
  completecmp : Bool := false
  completerep : Bool := false
  released : Bool := false
  markdelcmp : Bool := false
  markdelrep : Bool := false

/-- A record of the log of collectives, with the buffers of an allreduction. -/
structure StoredCollective where
  type : CollType
  id : Int
  size : Nat := 0
  count : Nat := 0
  sendbuf : Option Nat := none
  recvbuf : Option Nat := none
  allocRecvbuf : Bool := false

namespace StoredSend

def deletable (r : StoredSend) : Bool :=
  r.completecmp && r.completerep && r.released && r.markdelcmp && r.markdelrep

def buffers (r : StoredSend) : List Nat := r.buf.toList

def worth (r : StoredSend) : Int := if r.buf.isSome then (r.count + extracount r.size) * r.size else 0

end StoredSend

namespace StoredCollective

def buffers (r : StoredCollective) : List Nat := r.sendbuf.toList ++ if r.allocRecvbuf then r.recvbuf.toList else []

def worth (r : StoredCollective) : Int := if r.type = .allreduce then 2 * r.count * r.size else 0

end StoredCollective

/-- `parep_mpi_store_buf_sz`, the buffers that have been freed, and the records that were deleted without freeing
theirs. -/
structure BufferAccount where
  storeBufSz : Int
  freed : List Nat
  dropped : List StoredCollective

/-- The logs of a process, in the order of the lists. -/
structure BufferLog where
  account : BufferAccount
  sends : List StoredSend
  collectives : List StoredCollective
  collectiveId : BitVec 32
  fresh : Nat

/-- What happens at one process: the two calls, another collective call, a result that is received before its call,
operations and marks of a `SEND` record, a mark of a collective record, and a clean-up. -/
inductive BufferEvent where
  | isend (size count : Nat)
  | iallreduce (size count : Nat)
  | collective (t : CollType)
  | probe (id : BitVec 32)
  | sendFlags (i : Nat) (completecmp completerep released markdelcmp markdelrep : Bool)
  | mark (i : Nat)
  | cleanup

/-- What happens in the system: something at a process, or a transfer to a replica. -/
inductive BufferSystemEvent where
  | proc (p : Nat) (e : BufferEvent)
  | transfer (src dst : Nat)

namespace BufferAccount

def deleteSend (a : BufferAccount) (r : StoredSend) : BufferAccount :=
  match r.buf with
  | some b => { a with storeBufSz := a.storeBufSz - sendBytes r.size r.count, freed := b :: a.freed }
  | none => a

def deleteCollective (a : BufferAccount) (r : StoredCollective) : BufferAccount :=
  if r.type = .allreduce then
    { a with storeBufSz := a.storeBufSz - allreduceBytes r.size r.count, freed := r.buffers ++ a.freed }
  else { a with dropped := r :: a.dropped }

end BufferAccount

namespace BufferLog

def initial : BufferLog := ⟨⟨0, [], []⟩, [], [], 0x70000000#32, 0⟩

variable (s : BufferLog)

/-- The loops of `cleanup_marked_logs`, which stand at the other places too. -/
def cleanupMarkedLogs : BufferLog :=
  let (sends, account) := sweep StoredSend.deletable BufferAccount.deleteSend s.sends s.account
  let (collectives, account) := sweep (fun r => r.id == -1) BufferAccount.deleteCollective s.collectives account
  { s with account, sends, collectives }

def insertCollective (r : StoredCollective) : List StoredCollective → List StoredCollective
  | [] => [r]
  | t :: l => if t.id < r.id then r :: t :: l else t :: insertCollective r l

def isend (size count : Nat) : Option BufferLog :=
  if size = 0 ∨ 0x80000000 ≤ s.account.storeBufSz + sendBytes size count then none
  else
    some { s with
      account := { s.account with storeBufSz := s.account.storeBufSz + sendBytes size count }
      sends := s.sends ++ [{ size, count, buf := some s.fresh }]
      fresh := s.fresh + 1 }

def iallreduce (size count : Nat) : Option BufferLog :=
  if size = 0 ∨ 0x80000000 ≤ s.account.storeBufSz + allreduceBytes size count then none
  else
    let account := { s.account with storeBufSz := s.account.storeBufSz + allreduceBytes size count }
    let stored := s.collectives.findIdx? fun r => r.id == s.collectiveId.toInt && r.type == .allreduceTemp
    match stored.bind fun i => s.collectives[i]?.map fun r => (i, r) with
    | some (i, r) =>
      -- The record has its result, and gets the operands.
      some { s with
        account
        collectives := s.collectives.set i { r with type := .allreduce, size, count, sendbuf := some s.fresh }
        collectiveId := s.collectiveId + 1
        fresh := s.fresh + 1 }
    | none =>
      some { s with
        account
        collectives := insertCollective
          { type := .allreduce, id := s.collectiveId.toInt, size, count, sendbuf := some (s.fresh + 1),
            recvbuf := some s.fresh, allocRecvbuf := true } s.collectives
        collectiveId := s.collectiveId + 1
        fresh := s.fresh + 2 }

/-- The reception of a result; one whose id is not of the class of ids is thrown away. -/
def probe (id : BitVec 32) : Option BufferLog :=
  if id &&& 0xF0000000#32 ≠ 0x70000000#32 then
    some { s with account := { s.account with freed := s.fresh :: s.account.freed }, fresh := s.fresh + 1 }
  else if id.toInt < s.collectiveId.toInt then none
  else
    some { s with
      collectives := insertCollective
        { type := .allreduceTemp, id := id.toInt, recvbuf := some s.fresh, allocRecvbuf := true } s.collectives
      fresh := s.fresh + 1 }

def step : BufferEvent → Option BufferLog
  | .isend size count => s.isend size count
  | .iallreduce size count => s.iallreduce size count
  | .collective t =>
    if t = .allreduce ∨ t = .allreduceTemp then none
    else
      some { s with
        collectives := insertCollective { type := t, id := s.collectiveId.toInt } s.collectives
        collectiveId := s.collectiveId + 1 }
  | .probe id => s.probe id
  | .sendFlags i completecmp completerep released markdelcmp markdelrep =>
    s.sends[i]?.map fun r =>
      { s with sends := s.sends.set i { r with completecmp, completerep, released, markdelcmp, markdelrep } }
  | .mark i => s.collectives[i]?.map fun r => { s with collectives := s.collectives.set i { r with id := -1 } }
  | .cleanup => some s.cleanupMarkedLogs

def Fits : BufferEvent → Prop
  | .isend size count => (count + extracount size) * size < 2 ^ 31
  | .iallreduce size count => 2 * count * size < 2 ^ 31
  | _ => True

instance : (e : BufferEvent) → Decidable (Fits e)
  | .isend _ _ | .iallreduce _ _ => inferInstanceAs (Decidable (_ < _))
  | .collective _ | .probe _ | .sendFlags _ _ _ _ _ _ | .mark _ | .cleanup => isTrue trivial

def held : Multiset Nat :=
  total (fun r => (r.buffers : Multiset Nat)) s.sends + total (fun r => (r.buffers : Multiset Nat)) s.collectives

/-- The buffers of the `SEND` and `ALLREDUCE` records that a clean-up deletes. -/
def doomed : Multiset Nat :=
  total (fun r => (r.buffers : Multiset Nat)) (s.sends.filter StoredSend.deletable)
    + total (fun r => (r.buffers : Multiset Nat)) (s.collectives.filter fun r => r.type == .allreduce && r.id == -1)

/-- The number is the size of what is buffered. Every buffer that was allocated is held by one record of the log, or was
freed once, or belonged to a result that was deleted before a call took it, never to a `SEND` or `ALLREDUCE` record: a
clean-up frees the buffers of those that it deletes, each for the first time and once. -/
structure Exact : Prop where
  size : s.account.storeBufSz = total StoredSend.worth s.sends + total StoredCollective.worth s.collectives
  nonneg : 0 ≤ s.account.storeBufSz
  zero : (∀ r ∈ s.sends, r.buf = none) → (∀ r ∈ s.collectives, r.type ≠ .allreduce) → s.account.storeBufSz = 0
  once : (s.account.freed : Multiset Nat) + total (fun r => (r.buffers : Multiset Nat)) s.account.dropped + s.held
    = Multiset.range s.fresh
  dropped : ∀ r ∈ s.account.dropped, r.type ≠ .allreduce
  frees : ∀ b ∈ s.doomed, s.account.freed.count b = 0 ∧ s.cleanupMarkedLogs.account.freed.count b = 1

end BufferLog

abbrev BufferSystem := Nat → BufferLog

namespace BufferSystem

def initial : BufferSystem := fun _ => BufferLog.initial

/-- One event. -/
def step (s : BufferSystem) : BufferSystemEvent → Option BufferSystem
  | .proc p e => ((s p).step e).map fun t => Function.update s p t
  | .transfer src dst => some (Function.update s dst (s src))

def Fits (_ : BufferSystem) : BufferSystemEvent → Prop
  | .proc _ e => BufferLog.Fits e
  | .transfer _ _ => True

instance (s : BufferSystem) : (e : BufferSystemEvent) → Decidable (s.Fits e)
  | .proc _ e => inferInstanceAs (Decidable (BufferLog.Fits e))
  | .transfer _ _ => isTrue trivial

end BufferSystem

end ParepMpi
