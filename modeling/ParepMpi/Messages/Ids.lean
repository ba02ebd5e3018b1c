import Mathlib.Algebra.Group.Nat.Defs
import Mathlib.Data.List.Induction

/-!
# The numbers of messages and collectives

`parep_mpi_sendid` and `parep_mpi_collective_id` are of type `int` and start at `0x70000000`, whose upper bits mark a
number as an id. Messages are told apart, put in order and skipped by these numbers, which is sound as long as fewer
than `2 ^ 28` have been given out; then the counter is negative and has no marker.
-/

namespace ParepMpi

open List

def HasMarker (id : BitVec 32) : Prop := id &&& 0xF0000000#32 = 0x70000000#32

instance (id : BitVec 32) : Decidable (HasMarker id) := inferInstanceAs (Decidable (_ = _))

/-- The comparison of the skip lists: `id` is a number that has yet to be given out. -/
def Upcoming (counter id : BitVec 32) : Prop := counter.toInt ≤ id.toInt

/-- What a process does with its two counters: `MPI_Isend` stamps a message, a collective gets its number. -/
inductive IdEvent where
  | send
  | collective
  deriving DecidableEq, Repr

/-- The counters, and the numbers that have been given out, in order. -/
structure IdState where
  sendid : BitVec 32 := 0x70000000#32
  collectiveId : BitVec 32 := 0x70000000#32
  stamped : List (BitVec 32) := []
  numbered : List (BitVec 32) := []
  deriving DecidableEq, Repr

namespace IdState

def step (s : IdState) : IdEvent → IdState
  | .send => { s with sendid := s.sendid + 1, stamped := s.stamped ++ [s.sendid] }
  | .collective => { s with collectiveId := s.collectiveId + 1, numbered := s.numbered ++ [s.collectiveId] }

def run (s : IdState) (es : List IdEvent) : IdState := es.foldl step s

end IdState

/-- The numbers carry the marker, no two are the same, a later one is the greater, and the counter is greater than all of
them. -/
structure InOrder (counter : BitVec 32) (ids : List (BitVec 32)) : Prop where
  marked : ∀ id ∈ ids, HasMarker id
  distinct : ids.Nodup
  increasing : ids.Pairwise fun a b => a.toInt < b.toInt
  given : ∀ id ∈ ids, ¬ Upcoming counter id

def idAt (k : Nat) : BitVec 32 := BitVec.ofNat 32 (0x70000000 + k)

theorem idAt_succ (k : Nat) : idAt (k + 1) = idAt k + 1 := by
  unfold idAt
  rw [← add_assoc, BitVec.ofNat_add]
  rfl

variable {k n : Nat}

theorem toInt_idAt (hk : k < 2 ^ 28) : (idAt k).toInt = 0x70000000 + k := by
  unfold idAt
  rw [BitVec.toInt_ofNat', Int.bmod_eq_of_le (by omega) (by omega)]
  omega

theorem land_mask (hn : n < 2 ^ 32) : n &&& 0xF0000000 = n / 2 ^ 28 * 2 ^ 28 := by
  apply Nat.eq_of_testBit_eq
  intro i
  have hmask : (0xF0000000 : Nat) = 15 * 2 ^ 28 := by decide
  rw [Nat.testBit_and, hmask, Nat.testBit_mul_two_pow, Nat.testBit_mul_two_pow, Nat.testBit_div_two_pow]
  by_cases hlow : 28 ≤ i
  · rw [Nat.sub_add_cancel hlow]
    by_cases hhigh : i < 32
    · have hones : Nat.testBit 15 (i - 28) = true := by
        obtain h | h | h | h : i = 28 ∨ i = 29 ∨ i = 30 ∨ i = 31 := by omega
        all_goals
          subst h
          decide
      simp [hlow, hones]
    · have hzero : n.testBit i = false :=
        Nat.testBit_lt_two_pow (Nat.lt_of_lt_of_le hn (Nat.pow_le_pow_right (by decide) (by omega)))
      simp [hzero]
  · simp [hlow]

theorem hasMarker_iff (id : BitVec 32) : HasMarker id ↔ id.toNat / 2 ^ 28 = 7 := by
  rw [HasMarker, ← BitVec.toNat_inj, BitVec.toNat_and]
  rw [show (0xF0000000#32).toNat = 0xF0000000 from rfl, show (0x70000000#32).toNat = 0x70000000 from rfl,
    land_mask id.isLt]
  omega

theorem hasMarker_idAt (hk : k < 2 ^ 28) : HasMarker (idAt k) := by
  rw [hasMarker_iff, idAt, BitVec.toNat_ofNat]
  omega

theorem inOrder_idAt (hn : n < 2 ^ 28) : InOrder (idAt n) ((range n).map idAt) := by
  have hlt : ∀ {i j : Nat}, i < j → j ≤ n → (idAt i).toInt < (idAt j).toInt := by
    intro i j hij hj
    rw [toInt_idAt (by omega), toInt_idAt (by omega)]
    omega
  have hpair : ((range n).map idAt).Pairwise fun a b => a.toInt < b.toInt := by
    rw [pairwise_map]
    apply pairwise_lt_range.imp_of_mem
    intro i j _ hj hij
    exact hlt hij (Nat.le_of_lt (mem_range.mp hj))
  refine ⟨?_, hpair.imp fun hab heq => ?_, hpair, ?_⟩
  · intro id hid
    obtain ⟨k, hk, rfl⟩ := mem_map.mp hid
    exact hasMarker_idAt (Nat.lt_trans (mem_range.mp hk) hn)
  · rw [heq] at hab
    omega
  · intro id hid hnext
    obtain ⟨k, hk, rfl⟩ := mem_map.mp hid
    have := hlt (mem_range.mp hk) (Nat.le_refl n)
    unfold Upcoming at hnext
    omega

/-- From `2 ^ 28` numbers on they are not: the counter is negative then, or a negative number has been given out. -/
theorem not_inOrder_idAt (hn : 2 ^ 28 ≤ n) : ¬ InOrder (idAt n) ((range n).map idAt) := by
  intro h
  rcases Nat.lt_or_ge (2 ^ 28) n with hlt | hge
  · have hmark := h.marked (idAt (2 ^ 28)) (mem_map.mpr ⟨2 ^ 28, mem_range.mpr hlt, rfl⟩)
    exact absurd hmark (by decide)
  · obtain rfl : n = 2 ^ 28 := by omega
    have hgiven := h.given (idAt 0) (mem_map.mpr ⟨0, mem_range.mpr (by decide), rfl⟩)
    exact hgiven (show (idAt (2 ^ 28)).toInt ≤ (idAt 0).toInt by decide)

namespace IdState

theorem run_eq (es : List IdEvent) : run {} es =
    { sendid := idAt (es.count .send), collectiveId := idAt (es.count .collective),
      stamped := (range (es.count .send)).map idAt,
      numbered := (range (es.count .collective)).map idAt } := by
  induction es using reverseRecOn with
  | nil => rfl
  | append_singleton es e ih =>
    have hlast : run {} (es ++ [e]) = (run {} es).step e := foldl_append
    rw [hlast, ih]
    cases e with
    | send => simp [step, idAt_succ, range_succ]
    | collective => simp [step, idAt_succ, range_succ]

/-- After any run the numbers of the messages and those of the collectives are in order exactly when there have been
fewer than `2 ^ 28` of each. -/
theorem ids_in_order_iff (es : List IdEvent) :
    InOrder (run {} es).sendid (run {} es).stamped ∧ InOrder (run {} es).collectiveId (run {} es).numbered ↔
      es.count .send < 2 ^ 28 ∧ es.count .collective < 2 ^ 28 := by
  have hiff : ∀ n, InOrder (idAt n) ((range n).map idAt) ↔ n < 2 ^ 28 := by
    intro n
    constructor
    · intro h
      by_contra hge
      exact not_inOrder_idAt (Nat.not_lt.mp hge) h
    · exact inOrder_idAt
  rw [run_eq]
  exact and_congr (hiff _) (hiff _)

theorem sends_not_in_order {n : Nat} (hn : 2 ^ 28 ≤ n) :
    ¬ InOrder (run {} (replicate n .send)).sendid (run {} (replicate n .send)).stamped := by
  rw [run_eq, count_replicate_self]
  exact not_inOrder_idAt hn

/-- A process that sends one message more than there are numbers. -/
theorem ids_run_out :
    ¬ InOrder (run {} (replicate (2 ^ 28 + 1) .send)).sendid (run {} (replicate (2 ^ 28 + 1) .send)).stamped :=
  sends_not_in_order (Nat.le_succ _)

end IdState

end ParepMpi
