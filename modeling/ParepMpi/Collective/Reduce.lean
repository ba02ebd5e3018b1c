import ParepMpi.Collective.Log
import ParepMpi.Failure.Maps

/-!
# Skipping a reduction in recovery

A reduction is issued again on the compute processes only if one of them lacks its result. A process may have received
the result before its call, in a temporary record, so that the loop looks through the ids that each process holds. It
overwrites its flag with every rank that lags behind, and what it finds is therefore the answer for the last one.
-/

namespace ParepMpi

open CArray List Option

/-- The test `reddataids[index+j] == id` for `j < n`, up to the first hit. -/
def scanSegment (reddataids : CArray Int) (id : Int) : Nat → Int → Option Bool
  | 0, _ => some false
  | n + 1, index => do
      if (← reddataids.read index) = id then some true
      else scanSegment reddataids id n (index + 1)

structure ReduceScan where
  completedInAllCmps : Bool
  completedInMyRep : Bool
  index : Int
  deriving DecidableEq, Repr

structure ReduceTables where
  collids : CArray Int
  redids : CArray Int
  reddataids : CArray Int
  deriving DecidableEq, Repr

/-- What `EMPI_Allgather` and `EMPI_Allgatherv` make of the entries and the ids held by each process. -/
def ReduceTables.gathered (collids : List Int) (held : List (List Int)) : ReduceTables where
  collids := collids
  redids := held.map fun ids => (ids.length : Int)
  reddataids := held.flatten

/-- One rank of the loop. -/
def reduceRound (m : ProcMaps) (t : ReduceTables) (concerned : Bool) (myrep id : Int) (i : Int)
    (s : ReduceScan) : Option ReduceScan := do
  let len ← t.redids.read i
  let s ← if i < m.nC then do
      if id > (← t.collids.read i) then
        some { s with completedInAllCmps := ← scanSegment t.reddataids id len.toNat s.index }
      else some s
    else if myrep ≠ -1 ∧ i = myrep + m.nC ∧ concerned then do
      let hit ← scanSegment t.reddataids id len.toNat s.index
      some { s with completedInMyRep := s.completedInMyRep || hit }
    else some s
  some { s with index := s.index + len }

def reduceScanStart (m : ProcMaps) (t : ReduceTables) (concerned : Bool) (myrep id : Int) : Option ReduceScan := do
  let inMyRep ← if myrep = -1 then some true
    else do some (decide (id ≤ (← t.collids.read (myrep + m.nC))) || !concerned)
  some { completedInAllCmps := true, completedInMyRep := inMyRep, index := 0 }

structure ReduceDecision where
  reduces : Bool
  forwards : Bool
  completecmp : Bool
  completerep : Bool
  deriving DecidableEq, Repr

/-- The operations issued for the record and the flags set instead. -/
def reduceDecision (concerned : Bool) (cmpid myrepid myrep : Int) (r : CollRecord) (s : ReduceScan) :
    ReduceDecision :=
  let reduces := decide (r.id > cmpid) && !s.completedInAllCmps
  let forwards := decide (r.id > myrepid) && myrep != -1 && concerned && r.completecmp &&
    !s.completedInMyRep
  { reduces := reduces
    forwards := forwards
    completecmp := !reduces
    completerep := !forwards &&
      (myrep == -1 || decide (r.id ≤ myrepid) || r.completerep || !concerned || s.completedInMyRep) }

/-- The compute branch of `mpi_ft_collective_from_args` for a reduction. -/
def replayReduction (m : ProcMaps) (t : ReduceTables) (concerned : Bool) (cmpid myrepid myrank : Int)
    (r : CollRecord) : Option ReduceDecision := do
  let myrep ← m.cmpToRepMap.read myrank
  let start ← reduceScanStart m t concerned myrep r.id
  let s ← forRange 0 (m.nC + m.nR) (reduceRound m t concerned myrep r.id) start
  some (reduceDecision concerned cmpid myrepid myrep r s)

def replayReduce (m : ProcMaps) (t : ReduceTables) (cmpid myrepid myrank : Int) (r : CollRecord) :
    Option ReduceDecision :=
  replayReduction m t (myrank == r.root) cmpid myrepid myrank r

def replayAllreduce (m : ProcMaps) (t : ReduceTables) (cmpid myrepid myrank : Int)
    (r : CollRecord) : Option ReduceDecision :=
  replayReduction m t true cmpid myrepid myrank r

def Lagging (collids : List Int) (k i : Int) : Prop := ∃ x, CArray.read collids i = some x ∧ x < k

/-- The process `i` holds the result of `k` in a temporary record. -/
def HoldsResult (held : List (List Int)) (k i : Int) : Prop :=
  ∃ ids, CArray.read held i = some ids ∧ k ∈ ids

/-- Of the ranks below `n` whose entry is older than `k`, the last one is `i`. -/
def LastLagging (collids : List Int) (k n i : Int) : Prop :=
  0 ≤ i ∧ i < n ∧ Lagging collids k i ∧ ∀ j, i < j → j < n → ¬ Lagging collids k j

section Lagging

variable {collids : List Int} {k n i : Int}

theorem lastLagging_succ_of_lagging (hn : 0 ≤ n) (h : Lagging collids k n) :
    LastLagging collids k (n + 1) i ↔ i = n := by
  constructor
  · rintro ⟨_, hlt, _, hlast⟩
    by_contra hne
    exact hlast n (by omega) (by omega) h
  · rintro rfl
    exact ⟨hn, by omega, h, fun j _ _ => by omega⟩

theorem lastLagging_succ_of_not (h : ¬ Lagging collids k n) :
    LastLagging collids k (n + 1) i ↔ LastLagging collids k n i := by
  constructor
  · rintro ⟨h0, hlt, hlag, hlast⟩
    have hne : i ≠ n := fun heq => h (heq ▸ hlag)
    exact ⟨h0, by omega, hlag, fun j hj hjn => hlast j hj (by omega)⟩
  · rintro ⟨h0, hlt, hlag, hlast⟩
    refine ⟨h0, by omega, hlag, fun j hj hjn => ?_⟩
    by_cases hne : j = n
    · exact hne ▸ h
    · exact hlast j hj (by omega)

end Lagging

theorem scanSegment_eq (pre seg post : List Int) (id : Int) :
    scanSegment (pre ++ seg ++ post) id seg.length pre.length = some (decide (id ∈ seg)) := by
  induction seg generalizing pre with
  | nil => simp [scanSegment]
  | cons x seg ih =>
    have hread : CArray.read (pre ++ (x :: seg) ++ post) (pre.length : Int) = some x := by
      rw [read_natCast]
      simp
    have hrest := ih (pre ++ [x])
    rw [length_cons, scanSegment, hread, bind_eq_bind, bind_some]
    by_cases hx : x = id
    · simp [hx]
    · rw [if_neg hx]
      simp only [append_assoc, nil_append, cons_append, length_append,
        length_singleton, Nat.cast_add, Nat.cast_one] at hrest
      simp only [append_assoc, cons_append, hrest, mem_cons, show ¬ id = x from fun h => hx h.symm, false_or]

variable {held : List (List Int)} {collids : List Int} {m : ProcMaps} {myrank : Int}

theorem flatten_split {n : Nat} {ids : List Int} (h : held[n]? = some ids) :
    held.flatten = (held.take n).flatten ++ ids ++ (held.drop (n + 1)).flatten ∧
      (held.take (n + 1)).flatten.length = (held.take n).flatten.length + ids.length := by
  obtain ⟨hlt, rfl⟩ := List.getElem?_eq_some_iff.mp h
  constructor
  · have hdec : held = held.take n ++ held.get ⟨n, hlt⟩ :: held.drop (n + 1) := by
      rw [get_eq_getElem, ← drop_eq_getElem_cons hlt, take_append_drop]
    conv_lhs => rw [hdec]
    rw [flatten_append, flatten_cons, append_assoc]
    rfl
  · rw [take_succ_eq_append_getElem hlt, flatten_append, length_append, flatten_cons, flatten_nil, append_nil]

structure ReduceScanned (m : ProcMaps) (collids : List Int) (held : List (List Int))
    (concerned : Bool) (myrep k i : Int) (s : ReduceScan) : Prop where
  all : s.completedInAllCmps = true ↔ ∀ c, LastLagging collids k (min i m.nC) c → HoldsResult held k c
  rep : s.completedInMyRep = true ↔ myrep = -1 ∨ concerned = false ∨
    ¬ Lagging collids k (myrep + m.nC) ∨ myrep + m.nC < i ∧ HoldsResult held k (myrep + m.nC)
  index : s.index = ((held.take i.toNat).flatten.length : Nat)

section Scan

variable {m : ProcMaps} {collids : List Int} {held : List (List Int)} {concerned : Bool}
  {myrep k : Int}

variable {i : Int} {s : ReduceScan}

theorem lagging_iff (collids : List Int) (k : Int) (h0 : 0 ≤ i) (hlt : i < collids.length) :
    ∃ x, CArray.read collids i = some x ∧ (Lagging collids k i ↔ x < k) := by
  obtain ⟨x, hx⟩ := exists_read h0 hlt
  refine ⟨x, hx, ?_⟩
  simp [Lagging, hx]

theorem reduceScanStart_spec (held : List (List Int)) (concerned : Bool) (k : Int)
    (hlen : (collids.length : Int) = m.nC + m.nR) (hC : 0 ≤ m.nC) (hrep : myrep = -1 ∨ 0 ≤ myrep ∧ myrep < m.nR) :
    ∃ s, reduceScanStart m (.gathered collids held) concerned myrep k = some s ∧
      ReduceScanned m collids held concerned myrep k 0 s := by
  have hall : ∀ c, ¬ LastLagging collids k (min 0 m.nC) c := by
    rintro c ⟨h0, hlt, _⟩
    omega
  unfold reduceScanStart
  by_cases hnone : myrep = -1
  · refine ⟨⟨true, true, 0⟩, by simp [hnone], by simp [hall], by simp [hnone], by simp⟩
  · obtain ⟨h0, h1⟩ := hrep.resolve_left hnone
    obtain ⟨x, hx, hlag⟩ := lagging_iff collids k (show 0 ≤ myrep + m.nC by omega) (by omega)
    refine ⟨⟨true, decide (k ≤ x) || !concerned, 0⟩, ?_, by simp [hall], ?_, by simp⟩
    · simp [hnone, ReduceTables.gathered, hx]
    · simp only [hlag, hnone, false_or, show ¬ myrep + m.nC < 0 by omega, false_and, or_false,
        Bool.or_eq_true, decide_eq_true_eq, Bool.not_eq_true', Int.not_lt]
      exact or_comm

theorem rep_unchanged (hrange : myrep = -1 ∨ 0 ≤ myrep ∧ myrep < m.nR)
    (hne : i < m.nC ∨ myrep = -1 ∨ concerned = false ∨ i ≠ myrep + m.nC) :
    (myrep = -1 ∨ concerned = false ∨ ¬ Lagging collids k (myrep + m.nC) ∨
        myrep + m.nC < i ∧ HoldsResult held k (myrep + m.nC)) ↔
      (myrep = -1 ∨ concerned = false ∨ ¬ Lagging collids k (myrep + m.nC) ∨
        myrep + m.nC < i + 1 ∧ HoldsResult held k (myrep + m.nC)) := by
  by_cases hnone : myrep = -1
  · exact iff_of_true (.inl hnone) (.inl hnone)
  by_cases hcon : concerned = false
  · exact iff_of_true (.inr (.inl hcon)) (.inr (.inl hcon))
  have hiff : myrep + m.nC < i ↔ myrep + m.nC < i + 1 := by
    rcases hne with h | h | h | h
    · omega
    · exact absurd h hnone
    · exact absurd h hcon
    · omega
  rw [hiff]

theorem reduceRound_reads (hheld : (held.length : Int) = m.nC + m.nR) (h0 : 0 ≤ i) (hlt : i < m.nC + m.nR)
    (hs : ReduceScanned m collids held concerned myrep k i s) :
    ∃ ids : List Int, (ReduceTables.gathered collids held).redids.read i = some (ids.length : Int) ∧
      scanSegment (ReduceTables.gathered collids held).reddataids k ids.length s.index = some (decide (k ∈ ids)) ∧
      (HoldsResult held k i ↔ k ∈ ids) ∧
      s.index + (ids.length : Int) = ((held.take (i + 1).toNat).flatten.length : Nat) := by
  obtain ⟨n, rfl⟩ := Int.eq_ofNat_of_zero_le h0
  obtain ⟨ids, hids⟩ := exists_read h0 (show (n : Int) < held.length by omega)
  rw [read_natCast] at hids
  obtain ⟨hsplit, htake⟩ := flatten_split hids
  refine ⟨ids, ?_, ?_, ?_, ?_⟩
  · simp [ReduceTables.gathered, read_natCast, hids]
  · rw [hs.index, Int.toNat_natCast, ReduceTables.gathered, hsplit]
    exact scanSegment_eq _ _ _ _
  · simp [HoldsResult, read_natCast, hids]
  · rw [show ((n : Int) + 1).toNat = n + 1 by omega, htake, hs.index, Int.toNat_natCast]
    omega

theorem reduceRound_spec (hlen : (collids.length : Int) = m.nC + m.nR) (hheld : (held.length : Int) = m.nC + m.nR)
    (hrange : myrep = -1 ∨ 0 ≤ myrep ∧ myrep < m.nR) (h0 : 0 ≤ i)
    (hlt : i < m.nC + m.nR)
    (hs : ReduceScanned m collids held concerned myrep k i s) :
    ∃ s', reduceRound m (.gathered collids held) concerned myrep k i s = some s' ∧
      ReduceScanned m collids held concerned myrep k (i + 1) s' := by
  obtain ⟨ids, hlenread, hscan, hholds, hindex⟩ := reduceRound_reads hheld h0 hlt hs
  unfold reduceRound
  rw [hlenread, bind_eq_bind, bind_some, Int.toNat_natCast]
  by_cases hcmp : i < m.nC
  · have hrep := hs.rep.trans (rep_unchanged hrange (.inl hcmp))
    obtain ⟨x, hx, hlag⟩ := lagging_iff collids k h0 (by omega)
    have hread : (ReduceTables.gathered collids held).collids.read i = some x := hx
    have hall := hs.all
    rw [min_eq_left (by omega)] at hall
    rw [if_pos hcmp, hread]
    by_cases hxk : x < k
    · refine ⟨⟨decide (k ∈ ids), s.completedInMyRep, s.index + ids.length⟩, ?_, ?_, hrep, hindex⟩
      · simp [hxk, hscan]
      · rw [min_eq_left (by omega)]
        simp only [lastLagging_succ_of_lagging h0 (hlag.mpr hxk), forall_eq, hholds, decide_eq_true_eq]
    · refine ⟨⟨s.completedInAllCmps, s.completedInMyRep, s.index + ids.length⟩, ?_, ?_, hrep, hindex⟩
      · simp [hxk]
      · rw [min_eq_left (by omega)]
        simp only [lastLagging_succ_of_not (mt hlag.mp hxk), hall]
  · have hall := hs.all
    rw [min_eq_right (by omega)] at hall
    rw [if_neg hcmp]
    by_cases hmine : myrep ≠ -1 ∧ i = myrep + m.nC ∧ concerned = true
    · obtain ⟨hne, rfl, hcon⟩ := hmine
      refine ⟨⟨s.completedInAllCmps, s.completedInMyRep || decide (k ∈ ids), s.index + ids.length⟩, ?_, ?_, ?_, hindex⟩
      · simp [hne, hcon, hscan]
      · rwa [min_eq_right (by omega)]
      · have hrep := hs.rep
        simp [hne, hcon, hrep, hholds]
    · have hrep := hs.rep.trans (rep_unchanged hrange (.inr (by
        by_cases hnone : myrep = -1
        · exact .inl hnone
        · cases hcon : concerned
          · exact .inr (.inl rfl)
          · exact .inr (.inr fun heq => hmine ⟨hnone, heq, hcon⟩))))
      refine ⟨⟨s.completedInAllCmps, s.completedInMyRep, s.index + ids.length⟩, ?_, ?_, hrep, hindex⟩
      · rw [if_neg hmine]
        rfl
      · rwa [min_eq_right (by omega)]

end Scan

def replayReductionRecord (m : ProcMaps) (t : ReduceTables) (cmpid myrepid myrank : Int)
    (r : CollRecord) : Option ReduceDecision :=
  match r.type with
  | .reduce => replayReduce m t cmpid myrepid myrank r
  | .allreduce => replayAllreduce m t cmpid myrepid myrank r
  | _ => none

theorem replayReduction_spec (hm : m.MutuallyInverse) (hC : 0 ≤ m.nC) (hR : 0 ≤ m.nR)
    (hlen : (collids.length : Int) = m.nC + m.nR) (hheld : (held.length : Int) = m.nC + m.nR)
    (concerned : Bool) (cmpid myrepid : Int) (h0 : 0 ≤ myrank) (hlt : myrank < m.nC)
    (r : CollRecord) :
    ∃ d, replayReduction m (.gathered collids held) concerned cmpid myrepid myrank r = some d ∧
      (cmpid < r.id → (d.reduces = false ↔ ∀ c, LastLagging collids r.id m.nC c → HoldsResult held r.id c)) ∧
      (d.forwards = true → m.ctr myrank ≠ -1 ∧ Lagging collids r.id (m.ctr myrank + m.nC) ∧
        ¬ HoldsResult held r.id (m.ctr myrank + m.nC)) := by
  have hrange := hm.ctr_range h0 hlt
  obtain ⟨start, hstart, hinit⟩ := reduceScanStart_spec held concerned r.id hlen hC hrange
  obtain ⟨s, hs, hscanned⟩ : ∃ s, forRange 0 (m.nC + m.nR)
      (reduceRound m (.gathered collids held) concerned (m.ctr myrank) r.id) start = some s ∧
      ReduceScanned m collids held concerned (m.ctr myrank) r.id (m.nC + m.nR) s :=
    forRange_spec (P := ReduceScanned m collids held concerned (m.ctr myrank) r.id) (by omega) hinit
      (fun i s hi hilt hP => reduceRound_spec hlen hheld hrange hi hilt hP)
  have hall := hscanned.all
  rw [min_eq_right (by omega)] at hall
  refine ⟨reduceDecision concerned cmpid myrepid (m.ctr myrank) r s, ?_, ?_, ?_⟩
  · simp only [replayReduction, hm.ctr_holds myrank h0 hlt, hstart, hs, bind_eq_bind, bind_some]
  · intro hid
    rw [← hall]
    simp [reduceDecision, hid]
  · intro hforwards
    simp only [reduceDecision, Bool.and_eq_true, bne_iff_ne, Bool.not_eq_true'] at hforwards
    obtain ⟨⟨⟨⟨_, hne⟩, hcon⟩, _⟩, hrep⟩ := hforwards
    have hnot := mt hscanned.rep.mpr (by simp [hrep])
    simp only [hne, hcon, Bool.true_eq_false, false_or, not_or, not_and, not_not] at hnot
    exact ⟨hne, hnot.1, hnot.2 (by omega)⟩

theorem replayReductionRecord_isSome (hm : m.MutuallyInverse) (hC : 0 ≤ m.nC) (hR : 0 ≤ m.nR)
    (hlen : (collids.length : Int) = m.nC + m.nR) (hheld : (held.length : Int) = m.nC + m.nR)
    (cmpid myrepid : Int) (h0 : 0 ≤ myrank) (hlt : myrank < m.nC) (r : CollRecord)
    (htype : r.type = .reduce ∨ r.type = .allreduce) :
    ∃ d, replayReductionRecord m (.gathered collids held) cmpid myrepid myrank r = some d := by
  unfold replayReductionRecord
  rcases htype with h | h <;> simp only [h]
  · obtain ⟨d, hd, _⟩ := replayReduction_spec hm hC hR hlen hheld (myrank == r.root) cmpid myrepid h0 hlt r
    exact ⟨d, hd⟩
  · obtain ⟨d, hd, _⟩ := replayReduction_spec hm hC hR hlen hheld true cmpid myrepid h0 hlt r
    exact ⟨d, hd⟩

/-- A compute process skips the reduction exactly when all compute processes have the result, and
forwards it only to a replica that lacks it. -/
def SkipsExactly (m : ProcMaps) (collids : List Int) (held : List (List Int))
    (cmpid myrepid myrank : Int) (r : CollRecord) : Prop :=
  ∃ d, replayReductionRecord m (.gathered collids held) cmpid myrepid myrank r = some d ∧ (d.reduces = false ↔
      ∀ c, 0 ≤ c → c < m.nC → ¬ Lagging collids r.id c ∨ HoldsResult held r.id c) ∧
    (d.forwards = true → Lagging collids r.id (m.ctr myrank + m.nC) ∧ ¬ HoldsResult held r.id (m.ctr myrank + m.nC))

/-- The decision is right when all lagging ranks hold the result or the last of them does not. -/
theorem skipsExactly_iff {m : ProcMaps} {collids : List Int} {held : List (List Int)}
    (hm : m.MutuallyInverse) (hC : 1 ≤ m.nC) (hR : 0 ≤ m.nR)
    (hlen : (collids.length : Int) = m.nC + m.nR) (hheld : (held.length : Int) = m.nC + m.nR)
    (cmpid myrepid : Int) {myrank : Int} (h0 : 0 ≤ myrank) (hlt : myrank < m.nC) (r : CollRecord)
    (htype : r.type = .reduce ∨ r.type = .allreduce) (hid : cmpid < r.id) :
    SkipsExactly m collids held cmpid myrepid myrank r ↔
      (∀ c, 0 ≤ c → c < m.nC → Lagging collids r.id c → HoldsResult held r.id c) ∨
        ∃ c, LastLagging collids r.id m.nC c ∧ ¬ HoldsResult held r.id c := by
  obtain ⟨concerned, hrec⟩ : ∃ concerned, replayReductionRecord m (.gathered collids held) cmpid myrepid myrank r =
        replayReduction m (.gathered collids held) concerned cmpid myrepid myrank r := by
    rcases htype with h | h
    · exact ⟨myrank == r.root, by rw [replayReductionRecord, h, replayReduce]⟩
    · exact ⟨true, by rw [replayReductionRecord, h, replayAllreduce]⟩
  obtain ⟨d, hd, hreduces, hforwards⟩ := replayReduction_spec hm (by omega) hR hlen hheld concerned
    cmpid myrepid h0 hlt r
  replace hreduces := hreduces hid
  constructor
  · rintro ⟨d', hd', hskip, _⟩
    rw [hrec, hd, some_inj] at hd'
    subst hd'
    by_cases hlast : ∀ c, LastLagging collids r.id m.nC c → HoldsResult held r.id c
    · refine .inl fun c hc hclt hlag => ?_
      exact (hskip.mp (hreduces.mpr hlast) c hc hclt).resolve_left (not_not.mpr hlag)
    · push Not at hlast
      exact .inr hlast
  · intro hcond
    refine ⟨d, by rw [hrec, hd], ?_, fun hf => (hforwards hf).2⟩
    rw [hreduces]
    constructor
    · intro hlast c hc hclt
      rcases hcond with hall | ⟨e, he, hno⟩
      · by_cases hlag : Lagging collids r.id c
        · exact .inr (hall c hc hclt hlag)
        · exact .inl hlag
      · exact absurd (hlast e he) hno
    · intro hall c hlast
      exact (hall c hlast.1 hlast.2.1).resolve_left (not_not.mpr hlast.2.2.1)

/-- Two compute processes: the first lacks the result, the second holds it in a temporary record. Both
skip the reduction. -/
theorem reduction_skipped_while_lacking : (replayAllreduce (.initial 2 0) (.gathered [3, 3] [[], [5]]) 3 (-1) 0
        { type := .allreduce, id := 5, completecmp := false, completerep := false }).map (·.reduces) = some false ∧
      ¬ SkipsExactly (.initial 2 0) [3, 3] [[], [5]] 3 (-1) 0
        { type := .allreduce, id := 5, completecmp := false, completerep := false } := by
  have hdecision : (replayAllreduce (.initial 2 0) (.gathered [3, 3] [[], [5]]) 3 (-1) 0
      { type := .allreduce, id := 5, completecmp := false, completerep := false }).map
        (·.reduces) = some false := by decide
  refine ⟨hdecision, ?_⟩
  rintro ⟨d, hd, hskip, _⟩
  have hreduces : d.reduces = false := by
    change replayAllreduce _ _ _ _ _ _ = some d at hd
    rw [hd, map_some] at hdecision
    exact some.inj hdecision
  rcases hskip.mp hreduces 0 (by decide) (by decide) with hlag | ⟨ids, hids, hmem⟩
  · exact hlag ⟨3, by decide, by decide⟩
  · have hnil : ids = [] := by
      simpa [CArray.read] using hids.symm
    simp [hnil] at hmem

/-- The first compute process holds the result and the second does not: the reduction is issued. -/
theorem skipsExactly_last_lacks : SkipsExactly (ProcMaps.initial 2 1) [3, 3, 5] [[5], [], []] 3 5 0
      { type := .allreduce, id := 5, completecmp := true, completerep := false } := by
  refine (skipsExactly_iff (ProcMaps.initial_mutuallyInverse (by decide)) (by decide) (by decide)
    (by decide) (by decide) 3 5 (by decide) (by decide) _ (.inr rfl) (by decide)).mpr
    (.inr ⟨1, ⟨by decide, by decide, ⟨3, by decide, by decide⟩, ?_⟩, ?_⟩)
  · intro j hj hlt
    have : (ProcMaps.initial 2 1).nC = 2 := rfl
    omega
  · rintro ⟨ids, hids, hmem⟩
    have hnil : ids = [] := by simpa [CArray.read] using hids.symm
    simp [hnil] at hmem

end ParepMpi
