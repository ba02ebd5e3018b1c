import Mathlib.Data.List.Basic
import Mathlib.Algebra.Group.Nat.Defs
import ParepMpi.Lib.Buffer

/-!
# The heap of a process

A process that can be replicated or restored keeps what it allocates in one range of memory at a fixed address. The
memory is one of words, whose bytes a `window` reads. Nodes have a header, links and a footer in it, bins and fastbins
hold their first nodes, and every function is that of `heap_allocator.c` word by word, with arithmetic modulo `2 ^ 64`;
an access outside of the mapping is a fault. The lock is left out: one call is one step.
-/

namespace ParepMpi

def getHole (x : Nat) : Nat := x / 2 ^ 63 % 2

def getFast (x : Nat) : Nat := x / 2 ^ 62 % 2

def getSize (x : Nat) : Nat := x % 2 ^ 62

def setHole (x value : Nat) : Nat := x % 2 ^ 63 + value % 2 * 2 ^ 63

def setFast (x value : Nat) : Nat := x / 2 ^ 63 * 2 ^ 63 + value % 2 * 2 ^ 62 + x % 2 ^ 62

def setSize (x value : Nat) : Nat := x / 2 ^ 62 * 2 ^ 62 + value % 2 ^ 62

def add64 (a b : Nat) : Nat := (a + b) % 2 ^ 64

def sub64 (a b : Nat) : Nat := (a + (2 ^ 64 - b)) % 2 ^ 64

def heapSize : Nat := 0x40000

def heapMaxSize : Nat := 0x400000000

def alignedSize : Nat := 256 * 1024

def addressLimit : Nat := 2 ^ 47

/-- The heap, the heads of its bins and `parep_mpi_ext_heap_size`. -/
structure Heap where
  mem : Nat → Nat
  start : Nat
  stop : Nat
  mapEnd : Nat
  bins : Nat → Nat
  fastbins : Nat → Nat
  extHeapSize : Nat

namespace Heap

def Mapped (h : Heap) (a : Nat) : Prop := 8 ∣ a ∧ h.start ≤ a ∧ a + 8 ≤ h.mapEnd

instance (h : Heap) (a : Nat) : Decidable (h.Mapped a) := instDecidableAnd

variable (h : Heap)

def put (a v : Nat) : Heap := { h with mem := Function.update h.mem a v }

def load (a : Nat) : Option Nat := if h.Mapped a then some (h.mem a) else none

def store (a v : Nat) : Option Heap := if h.Mapped a then some (h.put a v) else none

def modify (a : Nat) (f : Nat → Nat) : Option Heap := do
  let w ← h.load a
  h.store a (f w)

def setBin (i node : Nat) : Heap := { h with bins := Function.update h.bins i node }

def setFastbin (i node : Nat) : Heap := { h with fastbins := Function.update h.fastbins i node }

/-- The new value of `parep_mpi_heap.end`, and with it that of `parep_mpi_ext_heap_size`. -/
def setEnd (stop : Nat) : Heap := { h with stop := stop, extHeapSize := stop - h.start }

def nodeLimit : Nat := (h.stop - h.start) / 32 + 1

def createFoot (head : Nat) : Option Heap := do
  let w ← h.load head
  h.store (head + 24 + getSize w) head

end Heap

/-- The loop of `get_bin_index`. -/
def binIndexLoop : Nat → Nat → Nat → Nat
  | 0, _, index => index
  | fuel + 1, sz, index => if sz / 2 = 0 then index else binIndexLoop fuel (sz / 2) (index + 1)

def getBinIndex (sz : Nat) : Nat := min (binIndexLoop 64 (if sz < 4 then 4 else sz) 0 - 2) 8

namespace Heap

def addNode (h : Heap) (i node : Nat) : Option Heap := do
  let h ← h.store (node + 8) 0
  let h ← h.store (node + 16) 0
  if h.bins i = 0 then some (h.setBin i node)
  else
    let h ← h.store (node + 8) (h.bins i)
    let h ← h.store (h.bins i + 16) node
    some (h.setBin i node)

def removeNode (h : Heap) (i node : Nat) : Option Heap :=
  if h.bins i = 0 then some h
  else if h.bins i = node then do
    let next ← h.load (node + 8)
    let h := h.setBin i next
    if next ≠ 0 then h.store (next + 16) 0 else some h
  else do
    let next ← h.load (node + 8)
    let prev ← h.load (node + 16)
    if next = 0 then h.store (prev + 8) 0
    else
      let h ← h.store (prev + 8) next
      h.store (next + 16) prev

def bestFit (h : Heap) (size : Nat) : Nat → Nat → Option Nat
  | 0, _ => none
  | fuel + 1, temp =>
    if temp = 0 then some 0
    else do
      let w ← h.load temp
      if getSize w ≥ size then some temp
      else
        let next ← h.load (temp + 8)
        bestFit h size fuel next

/-- `get_best_fit`, in `bins[i]`; `0` when no node is large enough. -/
def getBestFit (h : Heap) (i size : Nat) : Option Nat := h.bestFit size h.nodeLimit (h.bins i)

/-- `parep_mpi_init_heap`, in a mapping of `PAREP_MPI_HEAP_SIZE` bytes. -/
def initHeap (mem : Nat → Nat) (start : Nat) : Option Heap := do
  let h : Heap :=
    { mem := mem, start := start, stop := start + heapSize, mapEnd := start + heapSize,
      bins := fun _ => 0, fastbins := fun _ => 0, extHeapSize := heapSize }
  let h ← h.modify start fun w => setSize (setFast (setHole w 1) 0) (heapSize - 24 - 8)
  let h ← h.createFoot start
  let w ← h.load start
  h.addNode (getBinIndex (getSize w)) start

def growLast (h : Heap) (last sz : Nat) : Option Heap := do
  let w ← h.load last
  let h ← h.removeNode (getBinIndex (getSize w)) last
  let h ← h.modify last fun w => setSize w (getSize w + sz)
  let h ← h.createFoot last
  let w ← h.load last
  h.addNode (getBinIndex (getSize w)) last

def appendLast (h : Heap) (sz : Nat) : Option Heap := do
  let h ← h.modify h.stop fun w => setSize (setFast (setHole w 1) 0) (sub64 sz 32)
  let h ← h.createFoot h.stop
  let w ← h.load h.stop
  h.addNode (getBinIndex (getSize w)) h.stop

/-- `expand_heap`, with what it returns. -/
def expandHeap (mremap : Nat → Bool) (h : Heap) (sz : Nat) : Option (Heap × Bool) :=
  if sz = 0 then some (h, true)
  else
    let length := add64 (h.stop - h.start) sz
    if mremap length = false ∨ h.start + length > addressLimit then some (h, false)
    else do
      let h := { h with mapEnd := h.start + length }
      let last ← h.load (h.stop - 8)
      let w ← h.load last
      let h ← if getHole w = 1 then h.growLast last sz else h.appendLast sz
      some (h.setEnd (h.stop + sz), true)

def coalescePrev (h : Heap) (head : Nat) : Option (Heap × Nat) :=
  if head ≠ h.start then do
    let prev ← h.load (head - 8)
    let w ← h.load prev
    if getHole w = 1 then
      let h ← h.removeNode (getBinIndex (getSize w)) prev
      let headsize ← h.load head
      let h ← h.modify prev fun w => setSize w (getSize w + 32 + getSize headsize)
      let h ← h.createFoot prev
      some (h, prev)
    else some (h, head)
  else some (h, head)

/-- `head` takes in the hole at `next`, whose header and footer are cleared. -/
def coalesceNext (h : Heap) (head next : Nat) : Option Heap :=
  if next ≠ h.stop then do
    let w ← h.load next
    if getHole w = 1 then
      let h ← h.removeNode (getBinIndex (getSize w)) next
      let nextsize ← h.load next
      let h ← h.modify head fun w => setSize w (getSize w + 32 + getSize nextsize)
      let h ← h.store (next + 24 + getSize nextsize) 0
      let h ← h.modify next fun w => setFast (setHole (setSize w 0) 0) 0
      h.createFoot head
    else some h
  else some h

/-- The part that `parep_mpi_free` and `parep_mpi_malloc_consolidate` share: a node becomes a hole, together with the
holes on both sides. -/
def release (h : Heap) (head : Nat) : Option (Heap × Nat) := do
  let w ← h.load head
  let next := head + 24 + getSize w + 8
  let (h, head) ← h.coalescePrev head
  let h ← h.coalesceNext head next
  let h ← h.modify head fun w => setFast (setHole w 1) 0
  let w ← h.load head
  let h ← h.addNode (getBinIndex (getSize w)) head
  some (h, head)

def consolidateBin (i : Nat) : Nat → Heap → Option Heap
  | 0, _ => none
  | fuel + 1, h =>
    if h.fastbins i = 0 then some h
    else do
      let head := h.fastbins i
      let next ← h.load (head + 8)
      let (h, _) ← (h.setFastbin i next).release head
      consolidateBin i fuel h

def mallocConsolidate (h : Heap) : Option Heap :=
  (List.range 9).foldlM (fun h i => consolidateBin i h.nodeLimit h) h

def expansion (h : Heap) : Nat := if h.stop - h.start < 0x80000000 then h.stop - h.start else 0x40000000

/-- The loop of `parep_mpi_malloc` that looks for a node: it climbs the bins, consolidates once, and then expands the
heap. -/
def searchLoop (mremap : Nat → Bool) (searchSize baseIndex : Nat) :
    Nat → Heap → Nat → Nat → Bool → Option (Heap × Nat × Nat)
  | 0, _, _, _, _ => none
  | fuel + 1, h, index, found, consolidateAttempted =>
    if found ≠ 0 then some (h, index, found)
    else if index + 1 ≥ 9 then
      if consolidateAttempted = false then do
        let h ← h.mallocConsolidate
        let index := getBinIndex searchSize
        let found ← h.getBestFit index searchSize
        searchLoop mremap searchSize baseIndex fuel h index found true
      else if h.stop - h.start ≥ heapMaxSize then some (h, index, 0)
      else do
        let (h, success) ← h.expandHeap mremap h.expansion
        if success = false then some (h, index, 0)
        else
          let found ← h.getBestFit baseIndex searchSize
          searchLoop mremap searchSize baseIndex fuel h baseIndex found consolidateAttempted
    else do
      let found ← h.getBestFit (index + 1) searchSize
      searchLoop mremap searchSize baseIndex fuel h (index + 1) found consolidateAttempted

/-- An expansion adds `PAREP_MPI_HEAP_SIZE` bytes at least, and between two of them the loop climbs nine bins. -/
def searchLimit : Nat := 10 * (heapMaxSize / heapSize + 2)

def aligned (found : Nat) : Nat := (found + 8 + 31) / 32 * 32

/-- A large block whose payload is not aligned leaves a hole before it, if one fits. -/
def splitLead (h : Heap) (index found size : Nat) : Option (Heap × Nat × Nat) :=
  if size ≥ alignedSize ∧ aligned found ≠ found + 8 then
    let lead := aligned found - (found + 8)
    if lead ≥ 32 + 8 then do
      let payload ← h.load found
      let h ← h.removeNode index found
      let h ← h.store (found + 8) 0
      let h ← h.store (found + 16) 0
      let h ← h.modify found fun w => setFast (setHole (setSize w (lead - 32)) 1) 0
      let h ← h.createFoot found
      let w ← h.load found
      let h ← h.addNode (getBinIndex (getSize w)) found
      let node := aligned found - 8
      let h ← h.modify node fun w => setFast (setHole (setSize w (getSize payload - lead)) 1) 0
      let h ← h.store (node + 8) 0
      let h ← h.store (node + 16) 0
      let h ← h.createFoot node
      let w ← h.load node
      let h ← h.addNode (getBinIndex (getSize w)) node
      some (h, getBinIndex (getSize w), node)
    else some (h, index, found)
  else some (h, index, found)

def splitPointSize (found size : Nat) : Nat :=
  if size ≥ alignedSize ∧ aligned found ≠ found + 8 then add64 size (aligned found - (found + 8)) else size

/-- What the request leaves of the node becomes a hole of its own. -/
def splitTail (h : Heap) (found size : Nat) : Option Heap := do
  let w ← h.load found
  if sub64 (getSize w) size > 32 + 8 then
    let splitpointsize := splitPointSize found size
    if sub64 (getSize w) splitpointsize > 32 + 8 then
      let split := add64 (found + 32) splitpointsize
      let h ← h.modify split fun v =>
        setFast (setHole (setSize v (sub64 (sub64 (getSize w) splitpointsize) 32)) 1) 0
      let h ← h.createFoot split
      let v ← h.load split
      let h ← h.addNode (getBinIndex (getSize v)) split
      let h ← h.modify found fun w => setSize w splitpointsize
      h.createFoot found
    else some h
  else some h

/-- The node is taken out of its bin. -/
def handOut (h : Heap) (index found size : Nat) : Option (Heap × Nat) := do
  let h ← h.modify found fun w => setFast (setHole w 0) 0
  let h ← h.removeNode index found
  let h ← h.store (found + 16) 0
  let h ← h.store (found + 8) 0
  if size ≥ alignedSize ∧ aligned found ≠ found + 8 then
    let h ← h.store (aligned found - 8) (found + 8)
    some (h, aligned found)
  else some (h, found + 8)

def takeFast (h : Heap) (i : Nat) : Option (Heap × Nat) := do
  let found := h.fastbins i
  let h ← h.modify found fun w => setFast w 0
  let next ← h.load (found + 8)
  let h := h.setFastbin i next
  let h ← h.store (found + 16) 0
  let h ← h.store (found + 8) 0
  some (h, found + 8)

/-- A request is rounded down to a multiple of 8: the links of the node make up for it. -/
def roundedSize (n : Nat) : Nat := n / 8 * 8

def searchSize (n : Nat) : Nat :=
  if roundedSize n ≥ alignedSize then add64 (roundedSize n) 32 else roundedSize n

/-- A node for a request that no fastbin serves, with its bin; `0` when there is none. -/
def findNode (mremap : Nat → Bool) (h : Heap) (n : Nat) : Option (Heap × Nat × Nat) := do
  let h ← if roundedSize n ≥ 512 then h.mallocConsolidate else some h
  let index := getBinIndex (searchSize n)
  let found ← h.getBestFit index (searchSize n)
  searchLoop mremap (searchSize n) index searchLimit h index found false

def carve (h : Heap) (index found size : Nat) : Option (Heap × Nat) := do
  let (h, index, found) ← h.splitLead index found size
  let h ← h.splitTail found size
  h.handOut index found size

def malloc (mremap : Nat → Bool) (h : Heap) (n : Nat) : Option (Heap × Nat) :=
  if n = 0 then some (h, 0)
  else
    let size := roundedSize n
    if size ≤ 64 ∧ h.fastbins (size / 8) ≠ 0 then h.takeFast (size / 8)
    else do
      let (h, index, found) ← h.findNode mremap n
      if found = 0 then some (h, 0) else h.carve index found size

/-- The node pointer that `parep_mpi_free` takes `p` for: the word before `p` is a header or leads to the
payload. -/
def owner (h : Heap) (p : Nat) : Option Nat := do
  let candidate ← h.load (p - 8)
  some (if h.start ≤ candidate ∧ candidate < h.stop then candidate - 8 else p - 8)

def free (h : Heap) (p : Nat) : Option Heap :=
  if p = 0 then some h
  else do
    let head ← h.owner p
    let w ← h.load head
    if getSize w ≤ 64 then
      let i := getSize w / 8
      let h ← h.store head (setFast w 1)
      let h ← h.store (head + 8) (h.fastbins i)
      some (h.setFastbin i head)
    else
      let (h, head) ← h.release head
      let w ← h.load head
      if getSize w ≥ 65536 then h.mallocConsolidate else some h

inductive MemalignResult where
  | einval
  | enomem
  | ok (memptr : Nat)
  deriving DecidableEq, Repr

def posixMemalign (mremap : Nat → Bool) (h : Heap) (alignment size : Nat) : Option (Heap × MemalignResult) :=
  if alignment = 0 ∨ alignment &&& (alignment - 1) ≠ 0 ∨ alignment < 8 then some (h, .einval)
  else if size = 0 then some (h, .ok 0)
  else do
    let (h, orig) ← h.malloc mremap (add64 (add64 size (alignment - 1)) 8)
    if orig = 0 then some (h, .enomem)
    else
      let up := (orig + (alignment - 1)) / alignment * alignment
      if up ≠ orig then
        let up := (orig + 8 + (alignment - 1)) / alignment * alignment
        let h ← h.store (up - 8) orig
        some (h, .ok up)
      else some (h, .ok orig)

section

open Bytewise

variable {h : Heap} {a n o w : Nat} {b : Nat → Nat}

def window (h : Heap) (a o : Nat) : Nat := byte (h.mem (add64 a o / 8 * 8)) (add64 a o % 8)

def setWindow (h : Heap) (a : Nat) (b : Nat → Nat) : Heap :=
  { h with mem := fun w => ofBytes (fun i => b (sub64 (w + i) a)) 8 }

def fill (h : Heap) (a n : Nat) (b : Nat → Nat) : Heap :=
  { h with mem := fun w =>
      if 8 ∣ w ∧ a < w + 8 ∧ w < a + n then
        ofBytes (fun i => if a ≤ w + i ∧ w + i < a + n then b (w + i - a) else byte (h.mem w) i) 8
      else h.mem w }

theorem window_lt (h : Heap) (a o : Nat) : h.window a o < 256 := Nat.mod_lt _ (by decide)

theorem window_congr {h' : Heap} (hmem : h'.mem ((a + o) / 8 * 8) = h.mem ((a + o) / 8 * 8)) (hlt : a + o < 2 ^ 64) :
    h'.window a o = h.window a o := by
  rw [window, window, add64, Nat.mod_eq_of_lt hlt, hmem]

theorem fill_mem_outside (ha : 8 ∣ a) (hw : w < a ∨ a + n ≤ w) : (h.fill a n b).mem w = h.mem w := by
  apply if_neg
  omega

theorem window_fill (ho : o < n) (hlt : a + n ≤ 2 ^ 64) (hb : ∀ o, b o < 256) : (h.fill a n b).window a o = b o := by
  have hbytes : ∀ i, (if a ≤ (a + o) / 8 * 8 + i ∧ (a + o) / 8 * 8 + i < a + n then b ((a + o) / 8 * 8 + i - a)
      else byte (h.mem ((a + o) / 8 * 8)) i) < 256 := by
    intro i
    split
    · exact hb _
    · exact byte_lt _ _
  have hword : (h.fill a n b).mem ((a + o) / 8 * 8) = ofBytes (fun i =>
      if a ≤ (a + o) / 8 * 8 + i ∧ (a + o) / 8 * 8 + i < a + n then b ((a + o) / 8 * 8 + i - a)
      else byte (h.mem ((a + o) / 8 * 8)) i) 8 := by
    apply if_pos
    omega
  rw [window, add64, Nat.mod_eq_of_lt (by omega), hword, byte_ofBytes hbytes (by omega), if_pos (by omega)]
  congr 1
  omega

end

end Heap

end ParepMpi
