import ParepMpi.Lib.Bins
import ParepMpi.Lib.Run

/-!
# The cache of communication buffers

A call that sends or receives takes a node with a buffer, from the bin for its size if one there is large enough, and
gives it back later; at the limit a node of some bin is evicted. A node is an address, and its buffer lies in the heap
that a replica takes over or in an allocator that it does not. The allocators' answers, NULL among them, are arguments
of the call; what the buffers contain is left out.
-/

namespace ParepMpi

open LinkedList Function

/-- A buffer: in the library's heap, or of the external allocator of a process. -/
inductive Buf where
  | heap (a : Nat)
  | ext (proc a : Nat)
  deriving DecidableEq, Repr

def Buf.isNull : Buf → Bool
  | .heap a => a == 0
  | .ext _ a => a == 0

def COMMBUF_CACHE_ENTRIES : Int := 10240
def COMMBUF_CACHE_ENTRIES_MAX : Int := 16384
def COMMBUF_BIN_COUNT : Nat := 9
def COMMBUF_BIN_MAX_IDX : Nat := COMMBUF_BIN_COUNT - 1

/-- One process. -/
structure Commbufs where
  proc : Nat
  ext : Bool
  bins : Bins Nat
  num : Int
  size : Nat → Nat
  commbuf : Nat → Buf
  nodes : List Nat
  heapLive : Nat → Option Nat
  extLive : Nat → Option Nat
  out : List (Nat × Nat)

/-- The loop of `get_commbuf_bin_index` from `index` on, for as many bins as are left. -/
def commbufBinIndexLoop (sz : Nat) : Nat → Nat → Nat → Nat
  | 0, _, _ => COMMBUF_BIN_MAX_IDX
  | n + 1, lower, index =>
    if lower < sz ∧ sz ≤ 4 * lower then index else commbufBinIndexLoop sz n (4 * lower) (index + 1)

def getCommbufBinIndex (sz : Nat) : Nat := if sz ≤ 8 then 0 else commbufBinIndexLoop sz (COMMBUF_BIN_COUNT - 1) 8 1

namespace Commbufs

variable (c : Commbufs)

def live : Buf → Option Nat
  | .heap a => if c.ext then none else c.heapLive a
  | .ext proc a => if c.ext ∧ proc = c.proc then c.extLive a else none

def setLive (b : Buf) (size : Option Nat) : Commbufs :=
  match b with
  | .heap a => { c with heapLive := update c.heapLive a size }
  | .ext _ a => { c with extLive := update c.extLive a size }

/-- The buffer at `a` of the allocator that `new_commbuf_node` calls. -/
def bufAt (a : Nat) : Buf := if c.ext then .ext c.proc a else .heap a

/-- `new_commbuf_node`, when the allocators give the node `node` and the buffer at `a`, which is 0 when there is no
memory for it: the node has this address all the same. -/
def newCommbufNode (size node a : Nat) : Option Commbufs :=
  if node = 0 ∨ node ∈ c.nodes ∨ c.live (c.bufAt a) ≠ none then none
  else
    let c := if a = 0 then c else c.setLive (c.bufAt a) (some size)
    some { c with
      nodes := node :: c.nodes
      size := update c.size node size
      commbuf := update c.commbuf node (c.bufAt a)
      bins := { c.bins with next := update c.bins.next node 0, prev := update c.bins.prev node 0 } }

def deleteCommbufNode (node : Nat) : Option Commbufs :=
  if c.live (c.commbuf node) ≠ none then
    let c := c.setLive (c.commbuf node) none
    some { c with nodes := c.nodes.erase node }
  else if (c.commbuf node).isNull then some { c with nodes := c.nodes.erase node }
  else none

/-- A node at the head of a bin: `commbuf_node_insert` and `commbuf_node_reinsert` below their limits. -/
def push (node i : Nat) : Commbufs := { c with bins := c.bins.push 0 i node, num := c.num + 1 }

def commbufNodeRemove (node i : Nat) : Commbufs :=
  { c with bins := c.bins.delete 0 i node, num := c.num - 1 }

/-- The first node in the bin for the size that is large enough, or 0. -/
def commbufNodeFind (size : Nat) : Option Nat :=
  let q := c.bins.queue (getCommbufBinIndex size)
  q.find 0 (fun n => decide (size ≤ c.size n)) (c.nodes.length + 1) q.head

def commbufNodeEvict (i : Nat) : Nat × Commbufs :=
  let ret := c.bins.tail i
  if ret = 0 then (0, c)
  else
    (ret, { c with
      bins :=
        if c.bins.prev ret ≠ 0 then
          { c.bins with
            next := update c.bins.next (c.bins.prev ret) (c.bins.next ret)
            tail := update c.bins.tail i (c.bins.prev ret) }
        else
          { c.bins with
            head := update c.bins.head i (c.bins.next ret)
            tail := update c.bins.tail i (c.bins.prev ret) }
      num := c.num - 1 })

/-- `while(insert(node,bin) < 0)` with the eviction in it. -/
def insertEvicting (limit : Int) (node bin : Nat) : Nat → Commbufs → Nat → Option Commbufs
  | 0, _, _ => none
  | fuel + 1, c, i =>
    if c.num < limit then some (c.push node bin)
    else
      let evicted := c.commbufNodeEvict i
      if evicted.1 = 0 then insertEvicting limit node bin fuel c (if i = 0 then COMMBUF_BIN_MAX_IDX else i - 1)
      else (evicted.2.deleteCommbufNode evicted.1).bind fun c => insertEvicting limit node bin fuel c i

/-- Enough rounds to empty every bin and to look at each once more. -/
def rounds : Nat := c.nodes.length + COMMBUF_BIN_COUNT + 1

def unlink (node : Nat) : Commbufs :=
  { c with bins := { c.bins with next := update c.bins.next node 0, prev := update c.bins.prev node 0 } }

/-- `get_commbuf_node`, when the allocators give `node` and the buffer at `a` if a new node is made. -/
def getCommbufNode (size node a : Nat) : Option Commbufs :=
  (c.commbufNodeFind size).bind fun ret =>
    if ret = 0 then
      (c.newCommbufNode size node a).bind fun c =>
        let i := getCommbufBinIndex (c.size node)
        (insertEvicting COMMBUF_CACHE_ENTRIES node i c.rounds c i).bind fun c =>
          let c := (c.commbufNodeRemove node i).unlink node
          some { c with out := (node, size) :: c.out }
    else
      let c := (c.commbufNodeRemove ret (getCommbufBinIndex (c.size ret))).unlink ret
      some { c with out := (ret, size) :: c.out }

/-- `return_commbuf_node` of a node in use. -/
def returnCommbufNode (node : Nat) : Option Commbufs :=
  if c.live (c.commbuf node) = none ∧ 0 < c.size node then none
  else
    let i := getCommbufBinIndex (c.size node)
    insertEvicting COMMBUF_CACHE_ENTRIES_MAX node i c.rounds { c with out := c.out.filter fun p => p.1 ≠ node } i

/-- The heap and the bins of `src` in place of this process's own. -/
def replaced (src : Commbufs) : Commbufs :=
  { c with
    bins := src.bins
    size := src.size
    commbuf := src.commbuf
    nodes := src.nodes
    heapLive := src.heapLive
    out := src.out }

def initial (proc : Nat) (ext : Bool) : Commbufs where
  proc := proc
  ext := ext
  bins := ⟨fun _ => 0, fun _ => 0, fun _ => 0, fun _ => 0⟩
  num := 0
  size _ := 0
  commbuf _ := .heap 0
  nodes := []
  heapLive _ := none
  extLive _ := none
  out := []

end Commbufs

inductive CommbufCall where
  | get (size node a : Nat)
  | ret (node : Nat)
  deriving DecidableEq, Repr

def Commbufs.call (c : Commbufs) : CommbufCall → Option Commbufs
  | .get size node a => c.getCommbufNode size node a
  | .ret node => if ∃ p ∈ c.out, p.1 = node then c.returnCommbufNode node else none

structure CommbufPair where
  cmp : Commbufs
  rep : Commbufs
  file : Option Commbufs

inductive CommbufEvent where
  | cmp (e : CommbufCall)
  | rep (e : CommbufCall)
  | replicate
  | checkpoint
  | restart
  deriving DecidableEq, Repr

namespace CommbufPair

def step (s : CommbufPair) : CommbufEvent → Option CommbufPair
  | .cmp e => (s.cmp.call e).map fun c => { s with cmp := c }
  | .rep e => (s.rep.call e).map fun c => { s with rep := c }
  | .replicate => some { s with rep := s.rep.replaced s.cmp }
  | .checkpoint => some { s with file := some s.cmp }
  | .restart => s.file.map fun f => { s with rep := s.rep.replaced f }

def initial (ext : Bool) : CommbufPair := ⟨.initial 0 ext, .initial 1 ext, none⟩

end CommbufPair

namespace Commbufs

def cached (ls : Nat → List Nat) : List Nat := linked ls COMMBUF_BIN_COUNT

/-- What is asked of the cache: the counter counts the linked nodes and stays within the limit, each list is linked both
ways and holds its own sizes, what is in use is in no bin and has a buffer of this process that is large enough, and the
calls come to an end. -/
structure Sound (c : Commbufs) : Prop where
  cache : ∃ ls, c.bins.Holds 0 ls ∧ (∀ i n, n ∈ ls i → getCommbufBinIndex (c.size n) = i)
    ∧ c.num = (cached ls).length ∧ c.num ≤ COMMBUF_CACHE_ENTRIES_MAX
    ∧ ∀ p ∈ c.out, (∀ i, p.1 ∉ ls i) ∧ ∃ size, c.live (c.commbuf p.1) = some size ∧ p.2 ≤ size
  gets : ∀ size node a, node ≠ 0 → a ≠ 0 → node ∉ c.nodes → c.live (c.bufAt a) = none →
    (c.getCommbufNode size node a).isSome
  returns : ∀ p ∈ c.out, (c.returnCommbufNode p.1).isSome

/-- The heap can be taken over: as many nodes are linked in it as the process has counted for itself, and every node in
it has a buffer that is in it too, with no external allocator. -/
def TakenOver (c src : Commbufs) : Prop :=
  c.num = src.num ∧ (src.nodes = [] ∨ (c.ext = false ∧ src.ext = false))

instance (c src : Commbufs) : Decidable (c.TakenOver src) :=
  inferInstanceAs (Decidable (c.num = src.num ∧ (src.nodes = [] ∨ (c.ext = false ∧ src.ext = false))))

/-- A new node that the call asks for gets its buffer. -/
def Granted (c : Commbufs) : CommbufCall → Prop
  | .get size _ a => c.commbufNodeFind size = some 0 → a ≠ 0
  | .ret _ => True

instance (c : Commbufs) : ∀ e, Decidable (c.Granted e)
  | .get size _ a => inferInstanceAs (Decidable (c.commbufNodeFind size = some 0 → a ≠ 0))
  | .ret _ => instDecidableTrue

end Commbufs

namespace CommbufPair

/-- There is memory for the buffers, and a heap is taken over only where it fits. -/
def Matching (s : CommbufPair) : CommbufEvent → Prop
  | .cmp e => s.cmp.Granted e
  | .rep e => s.rep.Granted e
  | .replicate => s.rep.TakenOver s.cmp
  | .restart => ∀ f ∈ s.file, s.rep.TakenOver f
  | _ => True

instance (s : CommbufPair) (e : CommbufEvent) : Decidable (s.Matching e) :=
  match e with
  | .cmp e => inferInstanceAs (Decidable (s.cmp.Granted e))
  | .rep e => inferInstanceAs (Decidable (s.rep.Granted e))
  | .replicate => inferInstanceAs (Decidable (s.rep.TakenOver s.cmp))
  | .checkpoint => instDecidableTrue
  | .restart => inferInstanceAs (Decidable (∀ f ∈ s.file, s.rep.TakenOver f))

end CommbufPair

end ParepMpi
