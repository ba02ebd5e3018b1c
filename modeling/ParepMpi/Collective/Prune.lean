import ParepMpi.Collective.Log

/-!
# Deleting collective records

Records are marked for deletion at two points: in a round of `CMD_REM_RECV`, up to the least of the newest ids that the
processes have finished, and by a process that completes a barrier, for whatever it has finished itself. A record may
only go when its collective is finished everywhere, since the recovery of another process may need it.
-/

namespace ParepMpi

open List Option

def markUpTo (minid : Int) (log : List CollRecord) : List CollRecord :=
  log.map fun r => if r.id ≤ minid then { r with id := -1 } else r

/-- The loop of a completed barrier that marks the finished records. -/
def markFinished (log : List CollRecord) : List CollRecord :=
  log.map fun r => if r.finished then { r with id := -1 } else r

def finishedByAll (procs : List CollProc) : Int := newestByAll CollRecord.finished procs

inductive PruneEvent where
  /-- A round of `handle_rem_recv` on all processes. -/
  | remRecv
  /-- The process at this rank completes a barrier. -/
  | barrier (rank : Nat)
  deriving DecidableEq, Repr

def prune (procs : List CollProc) : PruneEvent → List CollProc
  | .remRecv => procs.map fun p => { p with log := markUpTo (finishedByAll procs) p.log }
  | .barrier rank => procs.modify rank fun p => { p with log := markFinished p.log }

def recordAt (procs : List CollProc) (i j : Nat) : Option CollRecord :=
  procs[i]?.bind fun p => p.log[j]?

/-- The process has yet to call the collective `k`, or has a record of it that is not finished. -/
def CollProc.Unfinished (p : CollProc) (k : Int) : Prop :=
  p.called ≤ k ∨ ∃ r ∈ p.log, r.id = k ∧ r.finished = false

instance (p : CollProc) (k : Int) : Decidable (p.Unfinished k) :=
  inferInstanceAs (Decidable (p.called ≤ k ∨ ∃ r ∈ p.log, r.id = k ∧ r.finished = false))

/-- A record is marked only if its collective is finished on every process. -/
def MarksOnlyFinished (procs : List CollProc) (e : PruneEvent) : Prop :=
  ∀ i j r r', recordAt procs i j = some r → recordAt (prune procs e) i j = some r' → r'.id = -1 →
    ∀ q ∈ procs, ¬ q.Unfinished r.id

/-- The condition under which the marking is safe. -/
def PruneSafe (procs : List CollProc) : PruneEvent → Prop
  | .remRecv => ∀ p ∈ procs, ∀ r ∈ p.log, r.finished = false →
      ∃ q ∈ procs, ∀ s ∈ q.log, s.finished = true → s.id < r.id
  | .barrier rank => ∀ p, procs[rank]? = some p → ∀ r ∈ p.log, r.finished = true →
      ∀ q ∈ procs, r.id < q.called ∧ ∀ s ∈ q.log, s.id = r.id → s.finished = true

section Marks

variable {procs : List CollProc} {i j : Nat} {r : CollRecord}

theorem recordAt_mem (h : recordAt procs i j = some r) :
    ∃ p, procs[i]? = some p ∧ p ∈ procs ∧ p.log[j]? = some r ∧ r ∈ p.log := by
  obtain ⟨p, hp, hr⟩ := bind_eq_some_iff.mp h
  exact ⟨p, hp, mem_of_getElem? hp, hr, mem_of_getElem? hr⟩

theorem recordAt_of_mem {p : CollProc} (hp : p ∈ procs) (hr : r ∈ p.log) : ∃ i j, recordAt procs i j = some r := by
  obtain ⟨i, hi⟩ := mem_iff_getElem?.mp hp
  obtain ⟨j, hj⟩ := mem_iff_getElem?.mp hr
  exact ⟨i, j, by rw [recordAt, hi, bind_some, hj]⟩

theorem recordAt_remRecv (h : recordAt procs i j = some r) : recordAt (prune procs .remRecv) i j =
      some (if r.id ≤ finishedByAll procs then { r with id := -1 } else r) := by
  obtain ⟨p, hp, _, hr, _⟩ := recordAt_mem h
  simp [recordAt, prune, markUpTo, hp, hr]

theorem recordAt_barrier (rank : Nat) (h : recordAt procs i j = some r) : recordAt (prune procs (.barrier rank)) i j =
      some (if i = rank ∧ r.finished = true then { r with id := -1 } else r) := by
  obtain ⟨p, hp, _, hr, _⟩ := recordAt_mem h
  by_cases hi : rank = i
  · subst hi
    simp [recordAt, prune, markFinished, hp, hr]
  · have hne : i ≠ rank := fun heq => hi heq.symm
    simp [recordAt, prune, hp, hr, hi, hne]

theorem id_ne_of_recordAt (hwf : ∀ p ∈ procs, p.WellFormed) (h : recordAt procs i j = some r) : r.id ≠ -1 := by
  obtain ⟨p, _, hp, _, hr⟩ := recordAt_mem h
  have := (hwf p hp).id_nonneg r hr
  omega

end Marks

/-- The two rules keep what is needed under the stated condition and only then. -/
theorem marksOnlyFinished_iff {procs : List CollProc} (hne : procs ≠ [])
    (hwf : ∀ p ∈ procs, p.WellFormed) (e : PruneEvent) :
    MarksOnlyFinished procs e ↔ PruneSafe procs e := by
  cases e with
  | remRecv =>
    constructor
    · intro h p hp r hr hpending
      by_contra hsafe
      have hle : r.id ≤ finishedByAll procs := by
        refine (le_newestByAll_iff hne hwf ((hwf p hp).id_nonneg r hr)).mpr fun q hq => ?_
        by_contra hnone
        refine hsafe ⟨q, hq, fun s hs hfin => Int.not_le.mp fun hid => hnone ⟨s, hs, hfin, hid⟩⟩
      obtain ⟨i, j, hat⟩ := recordAt_of_mem hp hr
      have hmark := recordAt_remRecv hat
      rw [if_pos hle] at hmark
      exact h i j r _ hat hmark rfl p hp (.inr ⟨r, hr, rfl, hpending⟩)
    · intro hsafe i j r r' hat hat' hmarked q hq hunfinished
      obtain ⟨p, _, hp, _, hr⟩ := recordAt_mem hat
      have hnonneg := (hwf p hp).id_nonneg r hr
      rw [recordAt_remRecv hat, some_inj] at hat'
      have hle : r.id ≤ finishedByAll procs := by
        by_contra hgt
        rw [if_neg hgt] at hat'
        exact id_ne_of_recordAt hwf hat (hat' ▸ hmarked)
      have hall := (le_newestByAll_iff hne hwf hnonneg).mp hle
      rcases hunfinished with hcalled | ⟨s, hs, hid, hpending⟩
      · obtain ⟨t, ht, hfin, hge⟩ := hall q hq
        have := (hwf q hq).completed_called t ht (CollRecord.completed_of_finished hfin)
        omega
      · obtain ⟨q', hq', hbelow⟩ := hsafe q hq s hs hpending
        obtain ⟨t, ht, hfin, hge⟩ := hall q' hq'
        have := hbelow t ht hfin
        omega
  | barrier rank =>
    constructor
    · intro h p hp r hr hfin q hq
      obtain ⟨j, hj⟩ := mem_iff_getElem?.mp hr
      have hat : recordAt procs rank j = some r := by
        rw [recordAt, hp, bind_some, hj]
      have hmark := recordAt_barrier rank hat
      rw [if_pos ⟨rfl, hfin⟩] at hmark
      have hdone := h rank j r _ hat hmark rfl q hq
      simp only [CollProc.Unfinished, not_or, not_exists, not_and] at hdone
      refine ⟨by omega, fun s hs hid => ?_⟩
      simpa using hdone.2 s hs hid
    · intro hsafe i j r r' hat hat' hmarked q hq hunfinished
      rw [recordAt_barrier rank hat, some_inj] at hat'
      obtain ⟨p, hp, _, _, hr⟩ := recordAt_mem hat
      have hdone : i = rank ∧ r.finished = true := by
        by_contra hnot
        rw [if_neg hnot] at hat'
        exact id_ne_of_recordAt hwf hat (hat' ▸ hmarked)
      obtain ⟨hcalled, hfin⟩ := hsafe p (hdone.1 ▸ hp) r hr hdone.2 q hq
      rcases hunfinished with hle | ⟨s, hs, hid, hpending⟩
      · omega
      · rw [hfin s hs hid] at hpending
        cases hpending

/-- Two processes that have finished the collective `1` while `0` is pending on the second, and then
both have finished `0`. -/
def pendingBehind (finished : Bool) : List CollProc :=
  [{ called := 2
     log := [{ type := .bcast, id := 1, completecmp := true, completerep := true, released := true },
             { type := .bcast, id := 0, completecmp := true, completerep := true, released := true }] },
   { called := 2
     log := [{ type := .bcast, id := 1, completecmp := true, completerep := true, released := true },
             { type := .bcast, id := 0, completecmp := finished, completerep := true,
               released := finished }] }]

theorem pendingBehind_wellFormed (finished : Bool) : ∀ p ∈ pendingBehind finished, p.WellFormed := by
  intro p hp
  simp only [pendingBehind, mem_cons, not_mem_nil, or_false] at hp
  rcases hp with rfl | rfl <;> constructor <;> simp

/-- A round marks the record of a collective that is pending, on the process that waits for it too. -/
theorem remRecv_marks_pending : recordAt (prune (pendingBehind false) .remRecv) 1 1 =
        some { type := .bcast, id := -1, completecmp := false, completerep := true } ∧
      ¬ MarksOnlyFinished (pendingBehind false) .remRecv := by
  refine ⟨by decide, fun h => ?_⟩
  refine h 1 1 _ _ rfl rfl rfl _ (mem_cons_of_mem _ (mem_singleton.mpr rfl)) ?_
  decide

theorem marksOnlyFinished_all_finished : MarksOnlyFinished (pendingBehind true) .remRecv ∧
      MarksOnlyFinished (pendingBehind true) (.barrier 0) := by
  constructor
  · exact (marksOnlyFinished_iff (by simp [pendingBehind]) (pendingBehind_wellFormed true) _).mpr
      (by simp [PruneSafe, pendingBehind, CollRecord.finished])
  · exact (marksOnlyFinished_iff (by simp [pendingBehind]) (pendingBehind_wellFormed true) _).mpr
      (by simp [PruneSafe, pendingBehind])

end ParepMpi
