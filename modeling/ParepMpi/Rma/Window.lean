import ParepMpi.Lib.Run

/-!
# Gets from a window

A compute process and its replica make the same calls of `MPI_Rget` on a window. Whoever swaps the status word of the
replica's cache first leads and fetches the data from both copies of the target; the other follows and gets them from
the leader. A copy of the process is its status word, its pool of eight slots and its requests.

The word has any value until the end of `MPI_Win_create` resets it. Data are named by the get that they belong to:
windows, counts and datatypes enter only in whether the data fit the buffers of the slot.
-/

namespace ParepMpi

open Function

inductive DualCopy where
  | cmp | rep
  deriving DecidableEq, Repr

def DualCopy.dual : DualCopy → DualCopy
  | cmp => rep
  | rep => cmp

theorem DualCopy.dual_ne (p : DualCopy) : p.dual ≠ p := by
  cases p with
  | cmp | rep => decide

theorem DualCopy.dual_dual (p : DualCopy) : p.dual.dual = p := by
  cases p with
  | cmp | rep => rfl

theorem DualCopy.eq_dual_of_ne {p q : DualCopy} (h : q ≠ p) : q = p.dual := by
  cases p with
  | cmp =>
    cases q with
    | cmp => exact absurd rfl h
    | rep => rfl
  | rep =>
    cases q with
    | cmp => rfl
    | rep => exact absurd rfl h

/-- The request of an `MPI_Rget`: for each copy of the target, whether the transfer from there is on its way or complete;
whether a follower has seen the status 2; and the data in the user's buffer. -/
structure RgetRequest where
  isLeader : Bool := false
  slot : Nat := 0
  flying : DualCopy → Bool := fun _ => false
  landed : DualCopy → Bool := fun _ => false
  seen : Bool := false
  complete : Bool := false
  user : Option Nat := none

/-- The part of one copy: whether its `MPI_Win_create` has reset the status word, its cache with that word, its pool with
`shadow_A` for the compute process of a target and `shadow_B` for the replica, and its requests in the order of the
calls. -/
structure RmaCopy where
  created : Bool
  word : Nat
  cache : Option Nat
  bufferStatus : Nat → Bool
  shadow : DualCopy → Nat → Option Nat
  count : Nat
  req : Nat → RgetRequest

/-- Whether the process has a replica, whether the target of each get has one, and whether the data of each get are
consecutive bytes that fit into the buffers, whose size is that of the caller's own window. -/
structure RmaConfig where
  replicated : Bool
  mirrored : Nat → Bool
  fits : Nat → Bool

/-- A process that has a replica and makes gets that fit. -/
abbrev RmaConfig.paired (mirrored : Nat → Bool) : RmaConfig := ⟨true, mirrored, fun _ => true⟩

abbrev RmaWindow := DualCopy → RmaCopy

/-- What happens: the reset of the status word at the end of `MPI_Win_create`, a call, the end of a transfer from a copy of
the target, a test of a leader that finds a transfer complete, a poll of a follower that finds the status 2, and the rest
of that test. -/
inductive RmaEvent where
  | create (p : DualCopy)
  | rget (p : DualCopy)
  | land (p : DualCopy) (k : Nat) (t : DualCopy)
  | test (p : DualCopy) (k : Nat)
  | poll (p : DualCopy) (k : Nat)
  | take (p : DualCopy) (k : Nat)

namespace RmaWindow

def poolSize : Nat := 8

/-- The window after `EMPI_Win_create` of the caches, whose words are what the memory had. -/
def initial (word : DualCopy → Nat) : RmaWindow := fun p =>
  { created := false, word := word p, cache := none, bufferStatus := fun _ => false, shadow := fun _ _ => none, count := 0
    req := fun _ => {} }

def firstFree (bufferStatus : Nat → Bool) : Option Nat := (List.range poolSize).find? fun i => !bufferStatus i

variable (c : RmaConfig) (s : RmaWindow) (p : DualCopy) (k : Nat)

def issue (x : RmaCopy) (i : Nat) (leads : Bool) : RmaCopy :=
  { x with
    bufferStatus := update x.bufferStatus i true
    count := x.count + 1
    req := update x.req x.count
      { isLeader := leads, slot := i, flying := fun t => leads && (t == .cmp || c.mirrored x.count) } }

def put (x : RmaCopy) : RmaWindow := fun q => if q = p then x else s q

def create : Option RmaWindow :=
  if (s p).created then none else some (s.put p { s p with word := 0, created := true })

/-- The swap of the status word of the replica's cache, from 0 to 1. -/
def compareAndSwap : RmaWindow :=
  if (s .rep).word = 0 then s.put .rep { s .rep with word := 1 } else s

def rget : Option RmaWindow :=
  if (s p).created then
    (firstFree (s p).bufferStatus).bind fun i =>
      if c.replicated then some (s.compareAndSwap.put p (issue c (s.compareAndSwap p) i ((s .rep).word == 0)))
      else if p = .rep then none
      else some (s.put p (issue c (s p) i true))
  else none

def landRequest (r : RgetRequest) (t : DualCopy) : RgetRequest :=
  { r with flying := update r.flying t false, landed := update r.landed t true }

/-- A copy after the transfer of its request `k` from `t`, which has filled the buffer of the slot. -/
def landCopy (x : RmaCopy) (k : Nat) (t : DualCopy) : RmaCopy :=
  { x with
    shadow := update x.shadow t (update (x.shadow t) (x.req k).slot (some k))
    req := update x.req k (landRequest (x.req k) t) }

/-- A transfer that does not fit runs over the memory behind the buffer, and nothing is said of what follows. -/
def land (t : DualCopy) : Option RmaWindow :=
  if k < (s p).count ∧ ((s p).req k).flying t ∧ c.fits k then some (s.put p (landCopy (s p) k t)) else none

def winning (x : RmaCopy) (r : RgetRequest) : Option Nat :=
  if r.landed .cmp then x.shadow .cmp r.slot else x.shadow .rep r.slot

def test : Option RmaWindow :=
  let x := s p
  let r := x.req k
  if k < x.count ∧ r.isLeader ∧ r.complete = false ∧ (r.landed .cmp || r.landed .rep) then
    let released :=
      { x with
        bufferStatus := update x.bufferStatus r.slot false
        req := update x.req k { r with user := winning x r, complete := true } }
    if c.replicated then some ((s.put p released).put p.dual { s p.dual with cache := winning x r, word := 2 })
    else some (s.put p released)
  else none

def poll : Option RmaWindow :=
  let x := s p
  let r := x.req k
  if k < x.count ∧ r.isLeader = false ∧ r.complete = false ∧ x.word = 2 then
    some (s.put p { x with req := update x.req k { r with seen := true } })
  else none

/-- The follower that has seen the status 2 takes the data and resets the status. -/
def take : Option RmaWindow :=
  let x := s p
  let r := x.req k
  if k < x.count ∧ r.isLeader = false ∧ r.complete = false ∧ r.seen then
    some (s.put p { x with word := 0, req := update x.req k { r with user := x.cache, complete := true } })
  else none

def step : RmaEvent → Option RmaWindow
  | .create p => s.create p
  | .rget p => s.rget c p
  | .land p k t => s.land c p k t
  | .test p k => s.test c p k
  | .poll p k => s.poll p k
  | .take p k => s.take p k

variable {s : RmaWindow} {p q : DualCopy} {i : Nat}

theorem put_self (x : RmaCopy) : s.put p x p = x := if_pos rfl

theorem put_of_ne {x : RmaCopy} (h : q ≠ p) : s.put p x q = s q := if_neg h

theorem firstFree_spec {bufferStatus : Nat → Bool} (h : firstFree bufferStatus = some i) :
    i < poolSize ∧ bufferStatus i = false := by
  have hmem := List.mem_of_find?_eq_some h
  have hfree := List.find?_some h
  exact ⟨List.mem_range.mp hmem, Bool.not_eq_true' _ ▸ hfree⟩

theorem compareAndSwap_eq (q : DualCopy) :
    s.compareAndSwap q = { s q with word := if (s .rep).word = 0 ∧ q = .rep then 1 else (s q).word } := by
  unfold compareAndSwap
  by_cases hword : (s .rep).word = 0
  · rw [if_pos hword]
    by_cases hq : q = .rep
    · rw [hq, put_self, if_pos ⟨hword, rfl⟩]
    · rw [put_of_ne hq, if_neg fun h => hq h.2]
  · rw [if_neg hword, if_neg fun h => hword h.1]

@[simp] theorem compareAndSwap_bufferStatus (q : DualCopy) :
    (s.compareAndSwap q).bufferStatus = (s q).bufferStatus := by
  rw [compareAndSwap_eq]

@[simp] theorem compareAndSwap_count (q : DualCopy) : (s.compareAndSwap q).count = (s q).count := by
  rw [compareAndSwap_eq]

theorem compareAndSwap_created (q : DualCopy) : (s.compareAndSwap q).created = (s q).created := by
  rw [compareAndSwap_eq]

@[simp] theorem compareAndSwap_req (q : DualCopy) : (s.compareAndSwap q).req = (s q).req := by
  rw [compareAndSwap_eq]

theorem compareAndSwap_of_ne (h : (s .rep).word ≠ 0) : s.compareAndSwap = s := if_neg h

end RmaWindow

end ParepMpi
