import ParepMpi.Heap.Extent

/-!
# The interposed allocation calls

`malloc` and its relatives are interposed: a call goes to libc, to the allocator that the library has loaded for
itself, to the heap of the process or, for an early `calloc`, to a static buffer, and a block must go back to where it
came from. Which one is taken depends on flags, on the thread, and for a block on its address.

What the libraries return is an argument of the event, since nothing is known of them but that they hand out memory of
their own. Loading their functions is one step.
-/

namespace ParepMpi

inductive Library where
  | libc
  | ext
  deriving DecidableEq, Repr

/-- Where a block comes from. -/
inductive Allocator where
  | library (l : Library)
  | parep
  | buffer
  deriving DecidableEq, Repr

/-- What the system and the libraries answer to a call: whether the heap can be mapped longer, the pointer, and the memory
outside of the heap after the call. -/
structure Answer where
  mremap : Nat → Bool
  ptr : Nat
  bytes : Nat → Nat

/-- The heap once it is set up; the live blocks of the libraries; `calloc_buf` and the blocks in it; the memory outside
of the heap; the flags that the calls look at; and the pointer that the last call has returned. -/
structure Interposer where
  session : Option Session
  lent : Library → List Alloc
  callocBuf : Nat
  buffered : List Alloc
  bytes : Nat → Nat
  extLoaded : Bool
  internalCall : Bool
  initialized : Bool
  completed : Bool
  ret : Nat
  broken : Bool

/-- The calls, with whether the main thread makes them, and what else happens. -/
inductive InterposerEvent where
  | enter
  | leave
  | loadExt
  | setupHeap (mem : Nat → Nat) (start : Nat)
  | finishInit
  | complete
  | expand (mremap : Nat → Bool) (sz : Nat)
  | write (a v : Nat)
  | writeOutside (bytes : Nat → Nat)
  | malloc (main : Bool) (n : Nat) (ans : Answer)
  | calloc (main : Bool) (nmemb size : Nat) (ans : Answer)
  | nestedCalloc (nmemb size : Nat)
  | strdup (main : Bool) (str : List Nat) (ans : Answer)
  | memalign (main : Bool) (alignment n : Nat) (ans : Answer)
  | realloc (main : Bool) (block : Option (Allocator × Alloc)) (n : Nat) (ans : Answer)
  | free (main : Bool) (a : Allocator) (b : Alloc)

def Heap.strdup (mremap : Nat → Bool) (h : Heap) (str : List Nat) : Option (Heap × Nat) := do
  let (h, copy) ← h.malloc mremap (str.length + 1)
  if copy = 0 then some (h, 0)
  else if h.Accessible copy (str.length + 1) then
    some (h.fill copy (str.length + 1) fun o => (str ++ [0]).getD o 0 % 256, copy)
  else none

namespace Session

variable (t : Session)

/-- The session and the returned pointer after a request of `n` bytes. -/
def answer (n : Nat) (result : Option (Heap × Nat)) : Session × Nat :=
  (t.granted n result, (result.map Prod.snd).getD 0)

def mallocCall (mremap : Nat → Bool) (n : Nat) : Option (Session × Nat) :=
  t.heap.bind fun h => if n < 2 ^ 64 then some (t.answer n (h.malloc mremap n)) else none

def callocCall (mremap : Nat → Bool) (nmemb size : Nat) : Option (Session × Nat) :=
  t.heap.bind fun h =>
    if nmemb < 2 ^ 64 ∧ size < 2 ^ 64 then some (t.answer (nmemb * size) (h.calloc mremap nmemb size)) else none

def strdupCall (mremap : Nat → Bool) (str : List Nat) : Option (Session × Nat) :=
  t.heap.bind fun h =>
    if str.length + 1 < 2 ^ 64 then some (t.answer (str.length + 1) (h.strdup mremap str)) else none

def memalignCall (mremap : Nat → Bool) (alignment n : Nat) : Option (Session × Nat) :=
  t.heap.bind fun h =>
    if alignment < 2 ^ 64 ∧ n < 2 ^ 64 then
      some (t.answer n ((h.posixMemalign mremap alignment n).map fun r =>
        (r.1, match r.2 with
          | .ok p => p
          | _ => 0)))
    else none

def reallocCall (mremap : Nat → Bool) (b : Alloc) (n : Nat) : Option (Session × Nat) :=
  t.heap.bind fun h =>
    if n < 2 ^ 64 then
      some (match h.realloc mremap b.ptr n with
        | some (h', p, _) => (⟨some h', if p = 0 then t.live.erase b else ⟨p, n⟩ :: t.live.erase b⟩, p)
        | none => (⟨none, t.live⟩, 0))
    else none

def freeCall (b : Alloc) : Option (Session × Nat) :=
  t.heap.bind fun h => some (⟨h.free b.ptr, t.live.erase b⟩, 0)

end Session

namespace Interposer

def useCommonHeap : Bool := false

def initial (callocBuf : Nat) : Interposer :=
  { session := none, lent := fun _ => [], callocBuf := callocBuf, buffered := [], bytes := fun _ => 0, extLoaded := false,
    internalCall := true, initialized := false, completed := false, ret := 0, broken := false }

variable (s : Interposer)

def heap : Option Heap := s.session.bind Session.heap

def live : Allocator → List Alloc
  | .library l => s.lent l
  | .parep => match s.session with
    | some t => t.live
    | none => []
  | .buffer => s.buffered

def byteAt : Allocator → Nat → Nat → Nat
  | .parep, p, o => match s.heap with
    | some h => h.window p o
    | none => 0
  | _, p, o => s.bytes (p + o)

def extHeap : Nat × Nat :=
  match s.heap with
  | some h => (h.start, h.extHeapSize)
  | none => (0, 0)

def outsideHeap (p : Nat) : Bool := p < s.extHeap.1 || s.extHeap.1 + s.extHeap.2 ≤ p

def library : Library := if s.extLoaded then .ext else .libc

def toLibrary (main : Bool) : Bool := (s.internalCall || !main) && !useCommonHeap

/-- Where `free` sends a pointer. -/
def freeTarget (main : Bool) (p : Nat) : Option Allocator :=
  if s.completed then none
  else if ((s.outsideHeap p && s.initialized) || ((s.internalCall || !main || s.outsideHeap p) && !s.initialized))
      && !useCommonHeap then
    some (.library s.library)
  else some .parep

def reallocTarget (main : Bool) (p : Nat) : Allocator :=
  if (s.internalCall || !main || s.outsideHeap p) && !useCommonHeap then .library s.library else .parep

/-- The pointer and the `n` bytes at it are outside of the mapping of the heap. -/
def Clear (p n : Nat) : Prop :=
  match s.heap with
  | some h => (p < h.start ∧ p + n ≤ h.start) ∨ h.mapEnd ≤ p
  | none => True

instance (p n : Nat) : Decidable (s.Clear p n) :=
  match hs : s.heap with
  | some h => decidable_of_iff ((p < h.start ∧ p + n ≤ h.start) ∨ h.mapEnd ≤ p) (by rw [Clear, hs])
  | none => isTrue (by rw [Clear, hs]; trivial)

/-- The heap and the libraries have handed out different addresses. -/
def Apart : Prop :=
  (∀ b ∈ s.lent .libc, s.Clear b.ptr b.len) ∧ ∀ b ∈ s.lent .ext, s.Clear b.ptr b.len

instance : Decidable s.Apart := instDecidableAnd

/-- A call of the heap. -/
def heapCall (call : Session → Option (Session × Nat)) : Option Interposer :=
  match s.session with
  | none => some { s with broken := true }
  | some t => (call t).bind fun r =>
    if Apart { s with session := some r.1, ret := r.2 } then some { s with session := some r.1, ret := r.2 } else none

def lend (l : Library) (n : Nat) (ans : Answer) : Option Interposer :=
  if ans.ptr = 0 then some { s with ret := 0 }
  else if s.Clear ans.ptr n then
    some { s with
      lent := Function.update s.lent l (⟨ans.ptr, n⟩ :: s.lent l), bytes := ans.bytes, ret := ans.ptr }
  else none

def giveBack (l : Library) (b : Alloc) : Interposer :=
  { s with lent := Function.update s.lent l ((s.lent l).erase b), ret := 0 }

/-- A library answers a `realloc` of one of its blocks. -/
def relend (l : Library) (b : Alloc) (n : Nat) (ans : Answer) : Option Interposer :=
  if ans.ptr = 0 then some (if n = 0 then s.giveBack l b else { s with ret := 0 })
  else if s.Clear ans.ptr n ∧ ∀ o < min b.len n, ans.bytes (ans.ptr + o) = s.bytes (b.ptr + o) then
    some { s with
      lent := Function.update s.lent l (⟨ans.ptr, n⟩ :: (s.lent l).erase b), bytes := ans.bytes, ret := ans.ptr }
  else none

def reallocAt (target a : Allocator) (b : Alloc) (n : Nat) (ans : Answer) : Option Interposer :=
  if target ≠ a then some { s with broken := true }
  else match target with
    | .library l => s.relend l b n ans
    | .parep => s.heapCall fun t => t.reallocCall ans.mremap b n
    | .buffer => none

def freeAt (target a : Allocator) (b : Alloc) : Option Interposer :=
  if target ≠ a then some { s with broken := true }
  else match target with
    | .library l => some (s.giveBack l b)
    | .parep => s.heapCall fun t => t.freeCall b
    | .buffer => none

def step (e : InterposerEvent) : Option Interposer :=
  if s.broken then none
  else match e with
    | .enter => some { s with internalCall := true }
    | .leave => some { s with internalCall := false }
    | .loadExt => some { s with extLoaded := true }
    | .setupHeap mem start =>
      if s.session.isNone ∧ 0 < start ∧ 8 ∣ start ∧ start + heapSize ≤ addressLimit ∧
          Apart { s with session := some (Session.start mem start) } then
        some { s with session := some (Session.start mem start) }
      else none
    | .finishInit => some { s with initialized := true }
    | .complete => some { s with completed := true }
    | .expand mremap sz => s.heapCall fun t => (t.step (.expand mremap sz)).map fun t' => (t', 0)
    | .write a v => s.session.bind fun _ => s.heapCall fun t => (t.step (.write a v)).map fun t' => (t', 0)
    | .writeOutside bytes => some { s with bytes := bytes }
    | .malloc main n ans =>
      if s.toLibrary main then s.lend s.library n ans else s.heapCall fun t => t.mallocCall ans.mremap n
    | .calloc main nmemb size ans =>
      if s.toLibrary main then s.lend s.library (nmemb * size) ans
      else s.heapCall fun t => t.callocCall ans.mremap nmemb size
    | .nestedCalloc nmemb size =>
      some { s with buffered := ⟨s.callocBuf, nmemb * size⟩ :: s.buffered, ret := s.callocBuf }
    | .strdup main str ans =>
      if s.toLibrary main then s.lend .libc (str.length + 1) ans else s.heapCall fun t => t.strdupCall ans.mremap str
    | .memalign main alignment n ans =>
      if s.toLibrary main then s.lend .libc n ans else s.heapCall fun t => t.memalignCall ans.mremap alignment n
    | .realloc main none n ans =>
      match s.reallocTarget main 0 with
      | .library l => s.lend l n ans
      | _ => s.heapCall fun t => t.mallocCall ans.mremap n
    | .realloc main (some (a, b)) n ans =>
      if b ∈ s.live a then s.reallocAt (s.reallocTarget main b.ptr) a b n ans else none
    | .free main a b =>
      if b ∈ s.live a then
        match s.freeTarget main b.ptr with
        | some target => s.freeAt target a b
        | none => some s
      else none

end Interposer

end ParepMpi
