import Mathlib.Tactic.Common

/-!
# The log of collectives

Every process logs its collective calls in a list that starts with the newest, `last_collective`, and is ordered by
`id`; the ids count the calls, from the same number on every process.
-/

namespace ParepMpi

open List

inductive CollType where
  | barrier | bcast | scatter | gather | reduce | allgather | alltoall | allreduce | alltoallv
  | reduceTemp | allreduceTemp
  deriving DecidableEq, Repr

structure CollRecord where
  type : CollType
  id : Int
  root : Int := 0
  completecmp : Bool
  completerep : Bool
  completecolls : List Bool := []
  released : Bool := false
  deriving DecidableEq, Repr

namespace CollRecord

def completed (r : CollRecord) : Bool := r.completecmp && r.completerep && r.completecolls.all (fun done => done)

def finished (r : CollRecord) : Bool :=
  r.completecmp && r.completerep && r.released && r.completecolls.all (fun done => done)

theorem completed_of_finished {r : CollRecord} (h : r.finished = true) : r.completed = true := by
  simp only [finished, completed, Bool.and_eq_true] at h ⊢
  exact ⟨h.1.1, h.2⟩

end CollRecord

/-- A process: the number of its next collective call, `parep_mpi_collective_id`, and its log. -/
structure CollProc where
  called : Int
  log : List CollRecord
  deriving DecidableEq, Repr

/-- A log is ordered by id, and what it has completed has been called. -/
structure CollProc.WellFormed (p : CollProc) : Prop where
  sorted : p.log.Pairwise (fun r s => s.id < r.id)
  id_nonneg : ∀ r ∈ p.log, 0 ≤ r.id
  completed_called : ∀ r ∈ p.log, r.completed = true → r.id < p.called

/-- The walk from `last_collective` to the first record that passes the test: its id, or `-1`. -/
def newestId (test : CollRecord → Bool) : List CollRecord → Int
  | [] => -1
  | r :: older => if test r then r.id else newestId test older

def minFrom (minid : Int) : List Int → Int
  | [] => minid
  | x :: xs => minFrom (if x < minid then x else minid) xs

section Newest

variable {test : CollRecord → Bool} {log : List CollRecord}

theorem le_newestId_iff (hsorted : log.Pairwise (fun r s => s.id < r.id)) {k : Int} (hk : 0 ≤ k) :
    k ≤ newestId test log ↔ ∃ r ∈ log, test r = true ∧ k ≤ r.id := by
  induction log with
  | nil => simp [newestId]; omega
  | cons r older ih =>
    obtain ⟨hnewer, holder⟩ := pairwise_cons.mp hsorted
    rw [newestId]
    by_cases htest : test r = true
    · rw [if_pos htest]
      constructor
      · intro h
        exact ⟨r, by simp, htest, h⟩
      · rintro ⟨s, hs, _, hle⟩
        rcases mem_cons.mp hs with rfl | hs
        · exact hle
        · have := hnewer s hs
          omega
    · rw [if_neg htest, ih holder]
      constructor
      · rintro ⟨s, hs, hpass, hle⟩
        exact ⟨s, mem_cons_of_mem _ hs, hpass, hle⟩
      · rintro ⟨s, hs, hpass, hle⟩
        rcases mem_cons.mp hs with rfl | hs
        · exact absurd hpass htest
        · exact ⟨s, hs, hpass, hle⟩

end Newest

theorem le_minFrom_iff {k minid : Int} {xs : List Int} : k ≤ minFrom minid xs ↔ k ≤ minid ∧ ∀ x ∈ xs, k ≤ x := by
  induction xs generalizing minid with
  | nil => simp [minFrom]
  | cons x xs ih =>
    rw [minFrom, ih]
    simp only [mem_cons, forall_eq_or_imp]
    by_cases hlt : x < minid
    · rw [if_pos hlt]
      exact ⟨fun ⟨hx, hxs⟩ => ⟨by omega, hx, hxs⟩, fun ⟨_, hx, hxs⟩ => ⟨hx, hxs⟩⟩
    · rw [if_neg hlt]
      exact ⟨fun ⟨hm, hxs⟩ => ⟨hm, by omega, hxs⟩, fun ⟨hm, _, hxs⟩ => ⟨hm, hxs⟩⟩

/-- The ids gathered from the processes, `minid` set to the first and then to the least of all. -/
def newestByAll (test : CollRecord → Bool) (procs : List CollProc) : Int :=
  match procs.map fun p => newestId test p.log with
  | [] => -1
  | x :: xs => minFrom x (x :: xs)

theorem le_newestByAll_iff {test : CollRecord → Bool} {procs : List CollProc} (hne : procs ≠ [])
    (hwf : ∀ p ∈ procs, p.WellFormed) {k : Int} (hk : 0 ≤ k) :
    k ≤ newestByAll test procs ↔ ∀ p ∈ procs, ∃ r ∈ p.log, test r = true ∧ k ≤ r.id := by
  obtain ⟨p, rest, rfl⟩ := exists_cons_of_ne_nil hne
  have hmin : k ≤ newestByAll test (p :: rest) ↔ ∀ x ∈ (p :: rest).map fun p => newestId test p.log, k ≤ x := by
    simp [newestByAll, le_minFrom_iff]
  rw [hmin, forall_mem_map]
  exact forall₂_congr fun q hq => le_newestId_iff (hwf q hq).sorted hk

end ParepMpi
