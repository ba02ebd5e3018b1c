import ParepMpi.Heap.Live

/-!
# The image of a process

A process is copied to its replica, or to a file and back, as a sequence of buffers: variables of the library and of
the program, the heap, the stack, and then the heads of the lists that live in the heap. `full_context.c` has skip
lists of its own, which are not those that `MPI_Isend` uses, and a variable each. A process describes an address that
lies in a mapped file by the file and an offset; what else a mapping has is left out, since no side reads it.
-/

namespace ParepMpi

open Bytewise

/-- The variables that are handed over, and those which the other side takes buffers in with. -/
inductive Var where
  | fsbasekey
  | processContext
  | replicationInitializer
  | numRegVals
  | mapname
  | offset
  | initDataSegSize
  | uinitDataSegSize
  | dataSegment
  | reqarr
  | reqinuse
  | bss
  | hpsize
  | stksize
  | stack
  | reqNull
  | firstPeertopeer
  | lastPeertopeer
  | lastCollective
  | commbufBins
  | recvDataHead
  | recvDataTail
  | recvDataRedHead
  | recvDataRedTail
  | skipcmplist
  | skipreplist
  | skipredlist
  -- The header defines the lists of skipped messages `static`, so `full_context.c` has variables of its own.
  | ckptSkipcmplist
  | ckptSkipreplist
  | ckptSkipredlist
  | reqHead
  | reqTail
  | openFileHead
  | openFileTail
  | argvp
  | storeBufSz
  | sendid
  | collectiveId
  deriving DecidableEq, Repr

structure Locus where
  name : Fin 256 → Nat
  offset : Nat

/-- What a process knows about its mappings: the place of an address, for a register and for another pointer, and the
address of a place when it has a file of this name. -/
structure Mappings where
  describeReg : Nat → Locus
  describe : Nat → Locus
  placeReg : Locus → Option Nat
  place : Locus → Option Nat
  reqNull : Nat

def Locus.buffers (l : Locus) : List Buffer :=
  [⟨256, fun o => if ho : o < 256 then l.name ⟨o, ho⟩ else 0⟩, Buffer.word l.offset]

structure Image where
  heap : Heap
  var : Var → Nat → Nat
  regVals : Nat → Nat → Nat

namespace Heap

/-- The array of the heads of the bins, and that of the fastbins. -/
def binBytes (bins : Nat → Nat) (o : Nat) : Nat := byte (bins (o / 8)) (o % 8)

def binWords (b bins : Nat → Nat) (i : Nat) : Nat := if i < 9 then ofBytes (fun j => b (8 * i + j)) 8 else bins i

/-- Where the vtable pointer of the file of an `openFileNode` is. -/
def vtableSlot (load : Nat → Option Nat) (onode : Nat) : Option Nat := do
  let file ← load (onode + 272)
  let w ← load (file + 128)
  let offset := if byte w 2 < 128 then byte w 2 else 2 ^ 64 - 256 + byte w 2
  some (add64 (add64 file offset) 216)

def vtables (load : Nat → Option Nat) : Nat → Nat → Option (List Nat)
  | 0, _ => none
  | fuel + 1, onode =>
    if onode = 0 then some []
    else do
      let slot ← vtableSlot load onode
      let vtableptr ← load slot
      let next ← load (onode + 288)
      let rest ← vtables load fuel next
      some (vtableptr :: rest)

def requests (load : Nat → Option Nat) (link req : Nat) : Nat → Nat → Option (List Nat)
  | 0, _ => none
  | fuel + 1, node =>
    if node = 0 then some []
    else do
      let r ← load (node + req)
      let next ← load (node + link)
      let rest ← requests load link req fuel next
      some (r :: rest)

/-- The walk along a log that puts `null'` where a logged request is `null`. -/
def fixRequests (link req null null' : Nat) : Nat → Nat → Heap → Option Heap
  | 0, _, _ => none
  | fuel + 1, node, h =>
    if node = 0 then some h
    else do
      let r ← h.load (node + req)
      let h := if r ≠ 0 ∧ h.Mapped r ∧ h.mem r = null then h.put r null' else h
      let next ← h.load (node + link)
      fixRequests link req null null' fuel next h

/-- `first_peertopeer` and its predecessors, then `last_collective` and its successors. -/
def fixLogs (null null' first last : Nat) (h : Heap) : Option Heap := do
  let h ← h.fixRequests 72 56 null null' h.nodeLimit first
  h.fixRequests 112 32 null null' h.nodeLimit last

end Heap

namespace Image

variable (im : Image)

def int (v : Var) : Nat := ofBytes (im.var v) 4

def ptr (v : Var) : Nat := ofBytes (im.var v) 8

def size : Var → Nat
  | .processContext => 24
  | .replicationInitializer => 200
  | .numRegVals | .initDataSegSize | .uinitDataSegSize | .sendid | .collectiveId => 4
  | .mapname => 256
  | .dataSegment => im.int .initDataSegSize
  | .reqarr => 1024 * 8
  | .reqinuse => 1024
  | .bss => im.int .uinitDataSegSize
  | .stack => 256 * 1024
  | .commbufBins => 9 * 16
  | _ => 8

def buffer (v : Var) : Buffer := ⟨im.size v, im.var v⟩

def setVar (v : Var) (b : Nat → Nat) : Image := { im with var := Function.update im.var v b }

def locus : Locus := ⟨fun i => im.var .mapname i, im.ptr .offset⟩

def regs : List (Nat × Nat) :=
  (List.range (im.int .numRegVals)).flatMap fun i => (List.range 15).map fun k => (i, k)

def regBuffers (p : Mappings) (im : Image) : List Buffer :=
  im.regs.flatMap fun ik => (p.describeReg (im.regVals ik.1 ik.2)).buffers

def openFiles : Option (List Nat) := Heap.vtables im.heap.load im.heap.nodeLimit (im.ptr .openFileHead)

def fileBuffers (p : Mappings) (vs : List Nat) : List Buffer := vs.flatMap fun v => (p.describe v).buffers

def setReg (p : Mappings) (i k : Nat) (im : Image) : Image :=
  match p.placeReg im.locus with
  | none => im
  | some v => { im with regVals := Function.update im.regVals i (Function.update (im.regVals i) k v) }

def setVtable (p : Mappings) (slot : Nat) (im : Image) : Option Image :=
  match p.place im.locus with
  | none => some im
  | some v => (im.heap.store slot v).map fun heap => { im with heap := heap }

section Take

variable {τ : Type} (fetch : Source τ)

def takeVar (v : Var) (im : Image) (t : τ) : Option (Image × τ) := do
  let (b, t) ← fetch (im.var v) (im.size v) t
  some (im.setVar v b, t)

def takeVars : List Var → Image → τ → Option (Image × τ)
  | [], im, t => some (im, t)
  | v :: vs, im, t => do
      let (im, t) ← im.takeVar fetch v t
      takeVars vs im t

def takeRegs (p : Mappings) : List (Nat × Nat) → Image → τ → Option (Image × τ)
  | [], im, t => some (im, t)
  | (i, k) :: iks, im, t => do
      let (im, t) ← im.takeVars fetch [.mapname, .offset] t
      takeRegs p iks (im.setReg p i k) t

def takeBins (im : Image) (t : τ) : Option (Image × τ) := do
  let (b, t) ← fetch (Heap.binBytes im.heap.bins) (9 * 8) t
  some ({ im with heap := { im.heap with bins := Heap.binWords b im.heap.bins } }, t)

def takeFastbins (im : Image) (t : τ) : Option (Image × τ) := do
  let (b, t) ← fetch (Heap.binBytes im.heap.fastbins) (9 * 8) t
  some ({ im with heap := { im.heap with fastbins := Heap.binWords b im.heap.fastbins } }, t)

def takeHeap (a n : Nat) (im : Image) (t : τ) : Option (Image × τ) :=
  if im.heap.start ≤ a ∧ a + n ≤ im.heap.mapEnd then do
    let (b, t) ← fetch (im.heap.window a) n t
    some ({ im with heap := im.heap.setWindow a b }, t)
  else none

/-- The walk along the open files that puts the vtable pointers of this process. -/
def takeFiles (p : Mappings) : Nat → Nat → Image → τ → Option (Image × τ)
  | 0, _, _, _ => none
  | fuel + 1, onode, im, t =>
    if onode = 0 then some (im, t)
    else do
      let slot ← Heap.vtableSlot im.heap.load onode
      let (im, t) ← im.takeVars fetch [.mapname, .offset] t
      let im ← im.setVtable p slot
      let next ← im.heap.load (onode + 288)
      takeFiles p fuel next im t

end Take

/-- The first variables, the sizes of the segments of the program, the segments, the heads of the lists in the heap,
and the last variables. -/
def contextVars : List Var := [.fsbasekey, .processContext, .replicationInitializer, .numRegVals]

def sizeVars : List Var := [.initDataSegSize, .uinitDataSegSize]

def segmentVars (fortran : Bool) : List Var :=
  [.dataSegment, .reqarr, .reqinuse] ++ if fortran then [.bss] else []

def skipVars : List Var := [.skipcmplist, .skipreplist, .skipredlist]

def listVars (skips : List Var) : List Var :=
  [.reqNull, .firstPeertopeer, .lastPeertopeer, .lastCollective, .commbufBins, .recvDataHead, .recvDataTail,
    .recvDataRedHead, .recvDataRedTail] ++ skips ++ [.reqHead, .reqTail, .openFileHead, .openFileTail]

def counterVars : List Var := [.storeBufSz, .sendid, .collectiveId]

/-- What goes before the heap, up to its size. -/
def frontBuffers (p : Mappings) (fortran : Bool) (im : Image) : List Buffer :=
  contextVars.map im.buffer ++ im.regBuffers p ++ sizeVars.map im.buffer ++ (segmentVars fortran).map im.buffer ++
    [Buffer.word im.heap.extHeapSize]

/-- What goes after the heads of the lists, with the vtable pointers of the open files. -/
def tailBuffers (p : Mappings) (vs : List Nat) (im : Image) : List Buffer :=
  fileBuffers p vs ++ counterVars.map im.buffer

section

variable {τ : Type} (fetch : Source τ)

def takeFront (p : Mappings) (fortran : Bool) (im : Image) (t : τ) : Option (Image × τ) := do
  let (im, t) ← im.takeVars fetch contextVars t
  let (im, t) ← im.takeRegs fetch p im.regs t
  let (im, t) ← im.takeVars fetch sizeVars t
  let (im, t) ← im.takeVars fetch (segmentVars fortran) t
  im.takeVars fetch [.hpsize] t

def takeTail (p : Mappings) (im : Image) (t : τ) : Option (Image × τ) := do
  let (im, t) ← im.takeFiles fetch p im.heap.nodeLimit (im.ptr .openFileHead) t
  let (im, t) ← im.takeVars fetch counterVars t
  let heap ← im.heap.fixLogs (im.ptr .reqNull) p.reqNull (im.ptr .firstPeertopeer) (im.ptr .lastCollective)
  some ({ im with heap := heap }, t)

end

end Image

end ParepMpi
