import ParepMpi.Io.SplitWrite

/-!
# A split write after the loss of one side

When one side of a pair is lost, `parep_mpi_restore_messages` issues the write of the survivor anew, as that of a
compute process without replica.
-/

namespace ParepMpi

open WriteCall

namespace WriteJob

variable (j : WriteJob)

/-- A request in `parep_mpi_restore_messages`. -/
def restoreWrite (role : IoRole) (replicaLost : Bool) (r : IoRequest) : IoRequest :=
  match r.reqcmp with
  | none => r
  | some _ =>
    let count := match role with
      | .compute _ => if replicaLost then r.count * 2 else r.count
      | .replica => r.count
    ⟨count, some (j.iwriteAt role count), r.written⟩

/-- The request of the side that is left, and that of the side that is lost. -/
def survivor (compute replica : IoRequest) : IoSide → IoRequest
  | .compute => replica
  | .replica => compute

def lostRequest (compute replica : IoRequest) : IoSide → IoRequest
  | .compute => compute
  | .replica => replica

/-- The survivor is a compute process without replica from now on, also when it was the replica. -/
def failover (compute replica : IoRequest) (lost : IoSide) : IoRequest :=
  j.restoreWrite (.compute false) true (survivor compute replica lost)

def stepAlone (r : IoRequest) (_ : Unit) : Option IoRequest := j.testWrite (.compute false) r

/-- The survivor's request can complete, and when it is complete every byte has been written from its place in the
buffer, whatever became of the calls that were under way at the loss. -/
def NoHole (compute replica : IoRequest) (lost : IoSide) : Prop :=
  (∃ es r, runEvents j.stepAlone (j.failover compute replica lost) es = some r ∧ r.reqcmp = none) ∧
    ∀ landed es r, (∀ w ∈ landed, compute.reqcmp = some w ∨ replica.reqcmp = some w) →
      runEvents j.stepAlone (j.failover compute replica lost) es = some r → r.reqcmp = none →
      ∀ o, 0 ≤ o → o < j.totalio →
        ∃ w ∈ (lostRequest compute replica lost).written ++ landed ++ r.written, w.Covers o ∧ w.src = w.offset

/-- When nothing is left out: a survivor that was complete needs a lost side that had written its whole part; a
compute process that was not complete must not have a chunk behind it; and what a promoted replica leaves out must
have been written by the compute process. -/
def Resumable (compute replica : IoRequest) : IoSide → Prop
  | .replica =>
    if compute.reqcmp = none then replica.count = j.iosize .replica else compute.count = 0
  | .compute =>
    compute.count = j.iosize (.compute true) ∨ replica.reqcmp ≠ none ∧ 2 * replica.count ≤ compute.count

def resumeAt (r : IoRequest) : Int := if r.reqcmp = none then j.totalio else r.count * 2

variable {j} {role : IoRole} {c r r' : IoRequest}

variable {a : Int} {before : List WriteCall} {es : List Unit}

theorem Progress.run (h : j.Progress (.compute false) a before r)
    (hrun : runEvents j.stepAlone r es = some r') : j.Progress (.compute false) a before r' := by
  have hguard : Guarded j.stepAlone (fun _ _ => True) r es := guarded_of_forall fun _ _ _ => trivial
  exact hguard.invariant hrun h fun ht _ => ht.test

theorem Progress.exists_run (h : j.Progress (.compute false) a before r) :
    ∃ es r', runEvents j.stepAlone r es = some r' ∧ r'.reqcmp = none := by
  let μ (t : IoRequest) : Nat := (j.iosize (.compute false) - t.count).toNat + if t.reqcmp = none then 0 else 1
  have hstep : ∀ t, j.Progress (.compute false) a before t → ¬ (t.reqcmp = none) →
      ∃ e t', j.stepAlone t e = some t' ∧ j.Progress (.compute false) a before t' ∧ μ t' < μ t := by
    intro t ht hne
    obtain ⟨t', htest, hle, hlt⟩ := ht.exists_test hne
    have hge := (ht.test htest).ge
    refine ⟨(), t', htest, ht.test htest, ?_⟩
    dsimp only [μ]
    split
    · omega
    · rename_i hne'
      have := hlt.resolve_left hne'
      omega
  obtain ⟨es, r', hrun, -, hdone⟩ := exists_run_of_decreasing μ hstep r h
  exact ⟨es, r', hrun, hdone⟩

theorem runEvents_stepAlone_of_done (hr : r.reqcmp = none) (hrun : runEvents j.stepAlone r es = some r') : r' = r := by
  cases es with
  | nil => exact (Option.some_inj.mp hrun).symm
  | cons e es =>
    obtain ⟨t, ht, -⟩ := runEvents_cons.mp hrun
    obtain ⟨w, hw, -⟩ := testWrite_eq_some.mp ht
    rw [hr] at hw
    cases hw

theorem Progress.two_mul_le (h : j.Progress role 0 [] r) (hr : r.reqcmp ≠ none) (hrole : role ≠ .compute false) :
    r.count * 2 ≤ j.totalio := by
  obtain ⟨w, hw⟩ := Option.ne_none_iff_exists'.mp hr
  obtain ⟨-, hlast⟩ := h.next w hw
  have hge := h.ge
  have hnonneg := j.totalio_nonneg
  match role with
  | .compute false => exact absurd rfl hrole
  | .compute true | .replica =>
    simp only [iosize] at hge hlast
    omega

/-- The request of the survivor when it is complete: what it had written, and what follows from where it went on. -/
theorem Progress.restored (h : j.Progress role 0 [] r) (hrole : role ≠ .compute false) :
    (∃ es r', runEvents j.stepAlone (j.restoreWrite (.compute false) true r) es = some r' ∧ r'.reqcmp = none) ∧
      ∀ es r', runEvents j.stepAlone (j.restoreWrite (.compute false) true r) es = some r' → r'.reqcmp = none →
        InPlace r'.written ∧ ∀ o, Written r'.written o ↔ Written r.written o ∨ j.resumeAt r ≤ o ∧ o < j.totalio := by
  cases hr : r.reqcmp with
  | none =>
    have hrestore : j.restoreWrite (.compute false) true r = r := by simp only [restoreWrite, hr]
    rw [hrestore]
    refine ⟨⟨[], r, rfl, hr⟩, ?_⟩
    intro es r' hrun _
    obtain rfl := runEvents_stepAlone_of_done hr hrun
    refine ⟨h.inPlace, fun o => ?_⟩
    rw [resumeAt, if_pos hr, or_iff_left]
    omega
  | some w =>
    have hne : r.reqcmp ≠ none := by simp [hr]
    have hrestore : j.restoreWrite (.compute false) true r =
        ⟨r.count * 2, some (j.iwriteAt (.compute false) (r.count * 2)), r.written⟩ := by
      simp only [restoreWrite, hr, if_true]
    have hbegin : j.Progress (.compute false) (r.count * 2) r.written (j.restoreWrite (.compute false) true r) := by
      rw [hrestore]
      exact progress_begin (h.two_mul_le hne hrole) h.inPlace (h.apart rfl)
    refine ⟨hbegin.exists_run, ?_⟩
    intro es r' hrun hdone
    have hfinal := hbegin.run hrun
    refine ⟨hfinal.inPlace, fun o => ?_⟩
    rw [hfinal.written o, hfinal.done hdone, resumeAt, if_neg hne]
    simp only [partStart, iosize, Int.zero_add]

/-- Nothing is missing when every byte is on one of the sides or behind the place where the survivor goes on. -/
theorem noHole_iff (hc : j.Progress (.compute true) 0 [] c) (hr : j.Progress .replica 0 [] r) (lost : IoSide) :
    j.NoHole c r lost ↔ ∀ o, 0 ≤ o → o < j.totalio →
      o < c.count ∨ j.iosize (.compute true) ≤ o ∧ o < j.iosize (.compute true) + r.count ∨
        j.resumeAt (survivor c r lost) ≤ o := by
  obtain ⟨role, hrole, hs⟩ : ∃ role, role ≠ .compute false ∧ j.Progress role 0 [] (survivor c r lost) := by
    cases lost with
    | compute => exact ⟨.replica, by simp, hr⟩
    | replica => exact ⟨.compute true, by simp, hc⟩
  have hlostPlace : InPlace (lostRequest c r lost).written := by
    cases lost with
    | compute => exact hc.inPlace
    | replica => exact hr.inPlace
  have hparts : ∀ o, 0 ≤ o → ((Written (lostRequest c r lost).written o ∨ Written (survivor c r lost).written o) ↔
      (o < c.count ∨ j.iosize (.compute true) ≤ o ∧ o < j.iosize (.compute true) + r.count)) := by
    intro o ho
    have hcw := hc.written o
    have hrw := hr.written o
    rw [or_iff_right not_written_nil] at hcw hrw
    simp only [partStart, iosize] at hcw hrw ⊢
    cases lost with
    | compute | replica =>
      rw [lostRequest, survivor, hcw, hrw]
      omega
  obtain ⟨hex, hall⟩ := hs.restored hrole
  constructor
  · intro h o ho hlt
    obtain ⟨es, r', hrun, hdone⟩ := hex
    obtain ⟨-, hwritten⟩ := hall es r' hrun hdone
    have hnone : ∀ w ∈ ([] : List WriteCall), c.reqcmp = some w ∨ r.reqcmp = some w := fun w hw => by cases hw
    obtain ⟨w, hw, hcovers, -⟩ := h.2 [] es r' hnone hrun hdone o ho hlt
    rw [List.append_nil] at hw
    have hany := written_append.mp ⟨w, hw, hcovers⟩
    rw [hwritten o, ← or_assoc, hparts o ho] at hany
    omega
  · intro h
    refine ⟨hex, ?_⟩
    intro landed es r' _ hrun hdone o ho hlt
    obtain ⟨hplace, hwritten⟩ := hall es r' hrun hdone
    have hany : Written (lostRequest c r lost).written o ∨ Written r'.written o := by
      rw [hwritten o, ← or_assoc, hparts o ho]
      have := h o ho hlt
      omega
    rcases hany with ⟨w, hw, hcovers⟩ | ⟨w, hw, hcovers⟩
    · exact ⟨w, List.mem_append_left _ (List.mem_append_left _ hw), hcovers, hlostPlace w hw⟩
    · exact ⟨w, List.mem_append_right _ hw, hcovers, hplace w hw⟩

theorem Progress.count_bounds (h : j.Progress role 0 [] r) :
    0 ≤ r.count ∧ r.count ≤ j.iosize role ∧ (r.reqcmp = none → r.count = j.iosize role) ∧
      (r.reqcmp ≠ none → r.count < j.iosize role ∨ r.count = 0) := by
  refine ⟨h.le, h.ge, h.done, ?_⟩
  intro hr
  obtain ⟨w, hw⟩ := Option.ne_none_iff_exists'.mp hr
  have hlast := (h.next w hw).2
  have hge := h.ge
  omega

/-- The first byte behind the chunks of the compute process shows whether anything is left out, or the first one
behind those of the replica when the compute process was complete. -/
theorem resumable_iff (hc : j.Progress (.compute true) 0 [] c) (hr : j.Progress .replica 0 [] r) (lost : IoSide) :
    (∀ o, 0 ≤ o → o < j.totalio → o < c.count ∨ j.iosize (.compute true) ≤ o ∧ o < j.iosize (.compute true) + r.count ∨
        j.resumeAt (survivor c r lost) ≤ o) ↔ j.Resumable c r lost := by
  obtain ⟨hcnonneg, hcle, hcdone, hcopen⟩ := hc.count_bounds
  obtain ⟨hrnonneg, hrle, hrdone, hropen⟩ := hr.count_bounds
  simp only [iosize] at *
  cases lost with
  | replica =>
    by_cases hdone : c.reqcmp = none
    · have := hcdone hdone
      rw [survivor, resumeAt, if_pos hdone, Resumable, if_pos hdone, iosize]
      constructor
      · intro h
        have := h (c.count + r.count)
        omega
      · omega
    · have := hcopen hdone
      rw [survivor, resumeAt, if_neg hdone, Resumable, if_neg hdone]
      constructor
      · intro h
        have := h c.count
        omega
      · intro h o _ _
        omega
  | compute =>
    by_cases hdone : r.reqcmp = none
    · have := hrdone hdone
      rw [survivor, resumeAt, if_pos hdone, Resumable, iosize, or_iff_left fun h => h.1 hdone]
      constructor
      · intro h
        have := h c.count
        omega
      · omega
    · rw [survivor, resumeAt, if_neg hdone, Resumable, iosize, and_iff_right hdone]
      constructor
      · intro h
        have := h c.count
        omega
      · omega

/-- After the loss of one side at any point of a split write, the survivor leaves no hole exactly when nothing it
passes over was missing. -/
theorem failover_no_hole_iff (j : WriteJob) (es : List IoSide) (s : WritePair) (r : IoRequest) (lost : IoSide)
    (hrun : runEvents j.stepPair (j.startPair true) es = some s) (hr : s.replica = some r) :
    j.NoHole s.compute r lost ↔ j.Resumable s.compute r lost := by
  obtain ⟨hs, -⟩ := PairProgress.run hrun
  have hc := hs.compute
  rw [WritePair.role, hr] at hc
  rw [noHole_iff hc (hs.replica r hr) lost, resumable_iff hc (hs.replica r hr) lost]

def twelveBytes : WriteJob := ⟨12, 3, by decide, by decide, by decide⟩

/-- The compute process is lost four bytes on, the replica one byte on: it takes up at byte two. -/
theorem promoted_replica_no_hole : ∃ s r, runEvents twelveBytes.stepPair (twelveBytes.startPair true)
    [.compute, .compute, .replica, .compute, .compute] = some s ∧ s.replica = some r ∧
      twelveBytes.NoHole s.compute r .compute := by
  refine ⟨_, _, rfl, rfl, ?_⟩
  exact (failover_no_hole_iff twelveBytes [.compute, .compute, .replica, .compute, .compute] _ _ .compute rfl rfl).mpr
    (.inr (by decide))

/-- Each side is two bytes on when the replica is lost. The compute process takes up at byte four, and nobody has
written byte three, not even the calls that were under way. -/
theorem lost_replica_leaves_hole : ∃ s r, runEvents twelveBytes.stepPair (twelveBytes.startPair true)
    [.compute, .replica, .compute, .replica] = some s ∧ s.replica = some r ∧
      ¬ twelveBytes.NoHole s.compute r .replica := by
  refine ⟨_, _, rfl, rfl, ?_⟩
  intro h
  have hmissing := h.2 [⟨2, 2, 1⟩, ⟨8, 8, 1⟩] [(), (), ()] _ (by decide) rfl rfl 3 (by decide) (by decide)
  revert hmissing
  decide

end WriteJob

end ParepMpi
