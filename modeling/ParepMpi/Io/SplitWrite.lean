import Mathlib.Algebra.Group.Int.Defs
import ParepMpi.Lib.Run

/-!
# Collective writes, split between a process and its replica

`MPI_File_iwrite_all` has the compute process write the first part of the buffer and its replica the second part, each
in chunks that are issued one after the other: the first by the call itself, the others when a test finds the chunk
before complete.
-/

namespace ParepMpi

open List

/-- What one collective write is asked for: its size in bytes, an `int`, and `MPI_FT_MAX_IO_CHUNK_SIZE`. -/
structure WriteJob where
  totalio : Int
  maxChunk : Int
  totalio_nonneg : 0 ≤ totalio
  totalio_lt : totalio < 2 ^ 31
  two_le : 2 ≤ maxChunk

/-- A call of `EMPI_File_iwrite_at_all`: `len` bytes from `buf + src` on, to the file from `offset` on. -/
structure WriteCall where
  offset : Int
  src : Int
  len : Int
  deriving DecidableEq, Repr

/-- The side of the pair a process is on. -/
inductive IoRole where
  | compute (mirrored : Bool)
  | replica
  deriving DecidableEq, Repr

/-- A request of `MPI_File_iwrite_all`. -/
structure IoRequest where
  count : Int
  reqcmp : Option WriteCall
  written : List WriteCall
  deriving DecidableEq, Repr

namespace WriteCall

def Covers (w : WriteCall) (o : Int) : Prop := w.offset ≤ o ∧ o < w.offset + w.len

instance (w : WriteCall) (o : Int) : Decidable (w.Covers o) := instDecidableAnd

def Apart (w v : WriteCall) : Prop := ∀ o, ¬ (w.Covers o ∧ v.Covers o)

def Written (l : List WriteCall) (o : Int) : Prop := ∃ w ∈ l, w.Covers o

instance (l : List WriteCall) (o : Int) : Decidable (Written l o) := inferInstanceAs (Decidable (∃ w ∈ l, w.Covers o))

def InPlace (l : List WriteCall) : Prop := ∀ w ∈ l, w.src = w.offset

/-- The calls write the first `n` bytes, each of them once and from its own place in the buffer. -/
structure Partition (n : Int) (l : List WriteCall) : Prop where
  apart : l.Pairwise Apart
  written : ∀ o, Written l o ↔ 0 ≤ o ∧ o < n
  inPlace : InPlace l

variable {w : WriteCall} {l l' : List WriteCall} {o : Int}

theorem not_written_nil : ¬ Written [] o := by simp [Written]

theorem written_append : Written (l ++ l') o ↔ Written l o ∨ Written l' o := by
  simp only [Written, mem_append, or_and_right, exists_or]

theorem written_singleton : Written [w] o ↔ w.Covers o := by simp [Written]

theorem InPlace.append (h : InPlace l) (h' : InPlace l') : InPlace (l ++ l') := by
  intro w hw
  rcases mem_append.mp hw with hw | hw
  · exact h w hw
  · exact h' w hw

theorem pairwise_append_of_written (h : l.Pairwise Apart) (h' : l'.Pairwise Apart)
    (hsep : ∀ o, ¬ (Written l o ∧ Written l' o)) : (l ++ l').Pairwise Apart := by
  refine pairwise_append.mpr ⟨h, h', ?_⟩
  intro w hw v hv o hwv
  exact hsep o ⟨⟨w, hw, hwv.1⟩, v, hv, hwv.2⟩

end WriteCall

open WriteCall

namespace WriteJob

variable (j : WriteJob)

def iosize : IoRole → Int
  | .compute true => j.totalio - j.totalio / 2
  | .compute false => j.totalio
  | .replica => j.totalio / 2

def partStart : IoRole → Int
  | .compute _ => 0
  | .replica => j.totalio - j.iosize .replica

def chunk : IoRole → Int
  | .compute false => j.maxChunk
  | _ => j.maxChunk / 2

def iwriteAt (role : IoRole) (count : Int) : WriteCall :=
  let remain := j.iosize role - count
  ⟨j.partStart role + count, j.partStart role + count, if remain > j.chunk role then j.chunk role else remain⟩

def iwriteAll (role : IoRole) : IoRequest := ⟨0, some (j.iwriteAt role 0), []⟩

def testWrite (role : IoRole) (r : IoRequest) : Option IoRequest := do
  let w ← r.reqcmp
  let count := r.count + w.len
  some ⟨count, if j.iosize role - count > 0 then some (j.iwriteAt role count) else none, r.written ++ [w]⟩

/-- How far a request is that began with `a` bytes behind it, when the calls `before` had been made. -/
structure Progress (role : IoRole) (a : Int) (before : List WriteCall) (r : IoRequest) : Prop where
  le : a ≤ r.count
  ge : r.count ≤ j.iosize role
  next : ∀ w, r.reqcmp = some w → w = j.iwriteAt role r.count ∧ (r.count = j.iosize role → r.count = a ∧ r.written = before)
  done : r.reqcmp = none → r.count = j.iosize role
  written : ∀ o, Written r.written o ↔ Written before o ∨ j.partStart role + a ≤ o ∧ o < j.partStart role + r.count
  inPlace : InPlace r.written
  apart : before = [] → r.written.Pairwise Apart
  calls : (r.written.length : Int) ≤ before.length + (r.count - a) + (if r.reqcmp = none then 1 else 0)

variable {j} {role : IoRole} {a : Int} {before : List WriteCall} {r r' : IoRequest}

theorem chunk_pos (j : WriteJob) (role : IoRole) : 0 < j.chunk role := by
  have := j.two_le
  match role with
  | .compute true | .compute false | .replica =>
    simp only [chunk]
    omega

theorem iosize_nonneg (j : WriteJob) (role : IoRole) : 0 ≤ j.iosize role := by
  have := j.totalio_nonneg
  match role with
  | .compute true | .compute false | .replica =>
    simp only [iosize]
    omega

theorem progress_begin (ha : a ≤ j.iosize role) (hplace : InPlace before)
    (hapart : before.Pairwise Apart) : j.Progress role a before ⟨a, some (j.iwriteAt role a), before⟩ where
  le := Int.le_refl a
  ge := ha
  next := by
    intro w hw
    exact ⟨(Option.some_inj.mp hw).symm, fun _ => ⟨rfl, rfl⟩⟩
  done := by
    intro h
    cases h
  written := by
    intro o
    have : ¬ (j.partStart role + a ≤ o ∧ o < j.partStart role + a) := by omega
    simp only [this, or_false]
  inPlace := hplace
  apart _ := hapart
  calls := by simp

theorem iwriteAt_len_le (role : IoRole) {c : Int} (hc : c ≤ j.iosize role) :
    0 ≤ (j.iwriteAt role c).len ∧ c + (j.iwriteAt role c).len ≤ j.iosize role ∧
      (c < j.iosize role → 0 < (j.iwriteAt role c).len) := by
  have := j.chunk_pos role
  simp only [iwriteAt]
  all_goals omega

theorem testWrite_eq_some : j.testWrite role r = some r' ↔ ∃ w, r.reqcmp = some w ∧
    r' = ⟨r.count + w.len, if j.iosize role - (r.count + w.len) > 0 then some (j.iwriteAt role (r.count + w.len)) else none,
      r.written ++ [w]⟩ := by
  rw [testWrite, Option.bind_eq_bind, Option.bind_eq_some_iff]
  simp only [Option.some_inj, eq_comm (a := r')]

section

variable (h : j.Progress role a before r)

include h

theorem Progress.test (hr : j.testWrite role r = some r') : j.Progress role a before r' := by
  obtain ⟨w, hw, rfl⟩ := testWrite_eq_some.mp hr
  obtain ⟨rfl, hlast⟩ := h.next w hw
  obtain ⟨hnonneg, hle, hpos⟩ := iwriteAt_len_le role h.ge
  have hstart := h.le
  have hcalls := h.calls
  have hcovers : ∀ o, (j.iwriteAt role r.count).Covers o ↔ j.partStart role + r.count ≤ o ∧
      o < j.partStart role + r.count + (j.iwriteAt role r.count).len := fun o => Iff.rfl
  rw [hw, if_neg (by simp)] at hcalls
  generalize (j.iwriteAt role r.count).len = n at *
  refine ⟨by dsimp only; omega, hle, ?_, ?_, ?_, ?_, ?_, ?_⟩
  · intro v hv
    dsimp only at hv ⊢
    split at hv
    · exact ⟨(Option.some_inj.mp hv).symm, by omega⟩
    · cases hv
  · intro hnone
    dsimp only at hnone ⊢
    split at hnone
    · cases hnone
    · omega
  · intro o
    rw [written_append, written_singleton, h.written o, hcovers, or_assoc]
    refine or_congr_right ?_
    dsimp only
    omega
  · refine h.inPlace.append ?_
    intro v hv
    rw [mem_singleton.mp hv]
    rfl
  · intro hbefore
    refine pairwise_append_of_written (h.apart hbefore) (pairwise_singleton _ _) ?_
    intro o ho
    rw [written_singleton, h.written o, hcovers, hbefore, or_iff_right not_written_nil] at ho
    omega
  · simp only [length_append, length_singleton]
    by_cases hlt : r.count < j.iosize role
    · all_goals omega
    · have hremain : ¬ (j.iosize role - (r.count + n) > 0) := by omega
      rw [if_neg hremain, if_pos rfl]
      omega

theorem Progress.exists_test (hr : r.reqcmp ≠ none) :
    ∃ r', j.testWrite role r = some r' ∧ r.count ≤ r'.count ∧ (r'.reqcmp = none ∨ r.count < r'.count) := by
  obtain ⟨w, hw⟩ := Option.ne_none_iff_exists'.mp hr
  refine ⟨_, testWrite_eq_some.mpr ⟨w, hw, rfl⟩, ?_⟩
  obtain ⟨rfl, -⟩ := h.next w hw
  obtain ⟨hnonneg, -, hpos⟩ := iwriteAt_len_le role h.ge
  refine ⟨by dsimp only; omega, ?_⟩
  by_cases hlt : r.count < j.iosize role
  · dsimp only
    omega
  · left
    exact if_neg (by omega)

theorem Progress.issued_le :
    ((r.written ++ r.reqcmp.toList).length : Int) ≤ before.length + (j.iosize role - a) + 1 := by
  have hge := h.ge
  have hcalls := h.calls
  cases hr : r.reqcmp with
  | none =>
    simp only [Option.toList_none, append_nil]
    omega
  | some w =>
    rw [if_neg (by simp [hr])] at hcalls
    simp only [Option.toList_some, length_append, length_singleton]
    omega

end

theorem progress_iwriteAll (j : WriteJob) (role : IoRole) : j.Progress role 0 [] (j.iwriteAll role) := by
  apply progress_begin (j.iosize_nonneg role)
  · intro w hw
    cases hw
  · exact Pairwise.nil

end WriteJob

/-- The requests of a compute process and of its replica, when it has one. -/
structure WritePair where
  compute : IoRequest
  replica : Option IoRequest
  deriving DecidableEq, Repr

inductive IoSide where
  | compute
  | replica
  deriving DecidableEq, Repr

namespace WritePair

def role (s : WritePair) : IoSide → IoRole
  | .compute => .compute s.replica.isSome
  | .replica => .replica

def written (s : WritePair) : List WriteCall := s.compute.written ++ s.replica.elim [] IoRequest.written

/-- The calls that were issued: those found complete and those under way. -/
def issued (s : WritePair) : List WriteCall :=
  s.written ++ (s.compute.reqcmp.toList ++ s.replica.elim [] fun r => r.reqcmp.toList)

def count (s : WritePair) : Int := s.compute.count + s.replica.elim 0 IoRequest.count

def Complete (s : WritePair) : Prop := s.compute.reqcmp = none ∧ ∀ r, s.replica = some r → r.reqcmp = none

end WritePair

namespace WriteJob

variable (j : WriteJob)

def startPair (mirrored : Bool) : WritePair :=
  ⟨j.iwriteAll (.compute mirrored), if mirrored then some (j.iwriteAll .replica) else none⟩

def stepPair (s : WritePair) : IoSide → Option WritePair
  | .compute => (j.testWrite (s.role .compute) s.compute).map fun r => { s with compute := r }
  | .replica => do
      let r ← s.replica
      let r' ← j.testWrite .replica r
      some { s with replica := some r' }

structure PairProgress (s : WritePair) : Prop where
  compute : j.Progress (s.role .compute) 0 [] s.compute
  replica : ∀ r, s.replica = some r → j.Progress .replica 0 [] r

variable {j} {s s' : WritePair} {mirrored : Bool}

theorem pairProgress_start (j : WriteJob) (mirrored : Bool) : j.PairProgress (j.startPair mirrored) := by
  refine ⟨?_, ?_⟩
  · have hrole : (j.startPair mirrored).role .compute = .compute mirrored := by cases mirrored <;> rfl
    rw [hrole]
    exact j.progress_iwriteAll _
  · intro r hr
    simp only [startPair, Option.ite_none_right_eq_some, Option.some_inj] at hr
    rw [← hr.2]
    exact j.progress_iwriteAll _

theorem stepPair_compute : j.stepPair s .compute = some s' ↔
    ∃ r, j.testWrite (s.role .compute) s.compute = some r ∧ s' = { s with compute := r } := by
  rw [stepPair, Option.map_eq_some_iff]
  simp only [eq_comm (a := s')]

theorem stepPair_replica : j.stepPair s .replica = some s' ↔
    ∃ r r', s.replica = some r ∧ j.testWrite .replica r = some r' ∧ s' = { s with replica := some r' } := by
  simp only [stepPair, Option.bind_eq_bind, Option.bind_eq_some_iff, Option.some_inj, eq_comm (a := s'),
    exists_and_left]

variable {e : IoSide}

theorem PairProgress.step (h : j.PairProgress s) (hs : j.stepPair s e = some s') : j.PairProgress s' := by
  cases e with
  | compute =>
    obtain ⟨r, hr, rfl⟩ := stepPair_compute.mp hs
    exact ⟨h.compute.test hr, h.replica⟩
  | replica =>
    obtain ⟨r, r', hr, htest, rfl⟩ := stepPair_replica.mp hs
    refine ⟨?_, ?_⟩
    · have hrole : { s with replica := some r' }.role .compute = s.role .compute := by
        simp only [WritePair.role, hr, Option.isSome_some]
      rw [hrole]
      exact h.compute
    · intro q hq
      rw [← Option.some_inj.mp hq]
      exact (h.replica r hr).test htest

theorem length_written_step (hs : j.stepPair s e = some s') : s'.written.length = s.written.length + 1 := by
  cases e with
  | compute =>
    obtain ⟨r, hr, rfl⟩ := stepPair_compute.mp hs
    obtain ⟨w, -, rfl⟩ := testWrite_eq_some.mp hr
    simp only [WritePair.written, length_append, length_singleton]
    omega
  | replica =>
    obtain ⟨r, r', hr, htest, rfl⟩ := stepPair_replica.mp hs
    obtain ⟨w, -, rfl⟩ := testWrite_eq_some.mp htest
    simp only [WritePair.written, hr, Option.elim_some, length_append, length_singleton]
    omega

theorem PairProgress.run {es : List IoSide} (hrun : runEvents j.stepPair (j.startPair mirrored) es = some s) :
    j.PairProgress s ∧ s.written.length = es.length := by
  have hguard : Guarded j.stepPair (fun _ _ => True) (j.startPair mirrored) es := guarded_of_forall fun _ _ _ => trivial
  refine guarded_run_invariant (P := fun past (t : WritePair) => j.PairProgress t ∧ t.written.length = past.length)
    ?_ es [] ⟨j.pairProgress_start mirrored, ?_⟩ hguard hrun
  · intro past t e t' h _ ht
    rw [length_written_step ht, h.2, length_append]
    exact ⟨h.1.step ht, rfl⟩
  · cases mirrored <;> rfl

theorem PairProgress.issued_le (h : j.PairProgress s) : (s.issued.length : Int) ≤ j.totalio + 2 := by
  have hc := h.compute.issued_le
  simp only [length_append, length_nil] at hc
  cases hr : s.replica with
  | none =>
    simp only [WritePair.role, hr, Option.isSome_none, iosize] at hc
    simp only [WritePair.issued, WritePair.written, hr, Option.elim_none, length_append, length_nil]
    omega
  | some r =>
    have hrep := (h.replica r hr).issued_le
    simp only [WritePair.role, hr, Option.isSome_some, iosize] at hc
    simp only [length_append, length_nil, iosize] at hrep
    simp only [WritePair.issued, WritePair.written, hr, Option.elim_some, length_append]
    omega

theorem PairProgress.exists_step (h : j.PairProgress s) (hs : ¬ s.Complete) : ∃ e s', j.stepPair s e = some s' := by
  by_cases hc : s.compute.reqcmp = none
  · obtain ⟨r, hr, hne⟩ : ∃ r, s.replica = some r ∧ r.reqcmp ≠ none := by
      by_contra hnone
      exact hs ⟨hc, fun r hr => by_contra fun hne => hnone ⟨r, hr, hne⟩⟩
    obtain ⟨r', htest, -⟩ := (h.replica r hr).exists_test hne
    exact ⟨.replica, _, stepPair_replica.mpr ⟨r, r', hr, htest, rfl⟩⟩
  · obtain ⟨r', htest, -⟩ := h.compute.exists_test hc
    exact ⟨.compute, _, stepPair_compute.mpr ⟨r', htest, rfl⟩⟩

theorem Progress.written_of_done (h : j.Progress role 0 [] r) (hr : r.reqcmp = none) (o : Int) :
    Written r.written o ↔ j.partStart role ≤ o ∧ o < j.partStart role + j.iosize role := by
  rw [h.written o, or_iff_right not_written_nil, h.done hr, Int.add_zero]

theorem PairProgress.partition (h : j.PairProgress s) (hs : s.Complete) :
    Partition j.totalio s.written ∧ s.count = j.totalio := by
  have hcount := h.compute.done hs.1
  have hwritten := h.compute.written_of_done hs.1
  have hapart := h.compute.apart rfl
  cases hr : s.replica with
  | none =>
    simp only [WritePair.role, hr, Option.isSome_none, iosize, partStart, Int.zero_add] at hcount hwritten
    simp only [WritePair.written, WritePair.count, hr, Option.elim_none, append_nil]
    exact ⟨⟨hapart, hwritten, h.compute.inPlace⟩, by omega⟩
  | some r =>
    have hrep := h.replica r hr
    have hrcount := hrep.done (hs.2 r hr)
    have hrwritten := hrep.written_of_done (hs.2 r hr)
    simp only [WritePair.role, hr, Option.isSome_some, iosize, partStart] at hcount hwritten
    simp only [iosize, partStart] at hrcount hrwritten
    simp only [WritePair.written, WritePair.count, hr, Option.elim_some]
    refine ⟨⟨?_, ?_, h.compute.inPlace.append hrep.inPlace⟩, by omega⟩
    · refine pairwise_append_of_written hapart (hrep.apart rfl) ?_
      intro o ho
      rw [hwritten, hrwritten] at ho
      omega
    · intro o
      rw [written_append, hwritten, hrwritten]
      omega

/-- Whatever the order in which the chunks of the two sides complete, there are only finitely many calls, some call is
under way until both requests are complete, and then the calls have written every byte once. -/
theorem split_write_partition (j : WriteJob) (mirrored : Bool) (es : List IoSide) (s : WritePair)
    (hrun : runEvents j.stepPair (j.startPair mirrored) es = some s) :
    es.length ≤ s.issued.length ∧ (s.issued.length : Int) ≤ j.totalio + 2 ∧
      (s.Complete ∨ ∃ e s', j.stepPair s e = some s') ∧
      (s.Complete → Partition j.totalio s.written ∧ s.count = j.totalio) := by
  obtain ⟨hs, hlen⟩ := PairProgress.run hrun
  refine ⟨?_, hs.issued_le, ?_, hs.partition⟩
  · rw [WritePair.issued, length_append]
    omega
  · by_cases hcomplete : s.Complete
    · exact .inl hcomplete
    · exact .inr (hs.exists_step hcomplete)

def fiveBytes : WriteJob := ⟨5, 2, by decide, by decide, by decide⟩

/-- Five bytes in chunks of one byte: three calls of the compute process and two of the replica. -/
theorem five_bytes_written : ∃ s, runEvents fiveBytes.stepPair (fiveBytes.startPair true)
    [.compute, .replica, .compute, .compute, .replica] = some s ∧ s.Complete ∧ Partition 5 s.written ∧ s.count = 5 := by
  obtain ⟨s, hs⟩ := Option.isSome_iff_exists.mp (show (runEvents fiveBytes.stepPair (fiveBytes.startPair true)
    [.compute, .replica, .compute, .compute, .replica]).isSome by decide)
  have hdone : (runEvents fiveBytes.stepPair (fiveBytes.startPair true)
      [.compute, .replica, .compute, .compute, .replica]).map
      (fun s => (s.compute.reqcmp, s.replica.bind IoRequest.reqcmp)) = some (none, none) := by decide
  rw [hs, Option.map_some, Option.some_inj, Prod.mk.injEq] at hdone
  have hcomplete : s.Complete := ⟨hdone.1, fun r hr => by rw [hr] at hdone; exact hdone.2⟩
  exact ⟨s, hs, hcomplete, (split_write_partition fiveBytes true _ s hs).2.2.2 hcomplete⟩

end WriteJob

end ParepMpi
