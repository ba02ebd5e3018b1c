import ParepMpi.Buffered.Size

/-!
# The number is the size

Every step changes `parep_mpi_store_buf_sz` by the worth of the records that come and go, and what is freed by their
buffers. The lists of records and of buffers are weighed by the library's ledger, once with bytes and once with
multisets, so that the account and the single release of every buffer are two instances of one argument.
-/

namespace ParepMpi

open Ledger List Option Function StoredCollective BufferAccount

theorem int32_mul {m size : Nat} (hsize : 0 < size) (hfit : m * size < 2 ^ 31) : int32 (int32 m * size) = m * size := by
  have hle : m ≤ m * size := Nat.le_mul_of_pos_right m hsize
  rw [int32_of_lt (n := m) (by omega) (by omega)]
  apply int32_of_lt
  · exact Int.mul_nonneg (Int.natCast_nonneg m) (Int.natCast_nonneg size)
  · exact_mod_cast hfit

theorem sendBytes_eq {size count : Nat} (hsize : 0 < size) (hfit : (count + extracount size) * size < 2 ^ 31) :
    sendBytes size count = (count + extracount size) * size := by
  have h := int32_mul hsize hfit
  exact h

theorem allreduceBytes_eq {size count : Nat} (hsize : 0 < size) (hfit : 2 * count * size < 2 ^ 31) :
    allreduceBytes size count = 2 * count * size := by
  have h := int32_mul hsize hfit
  exact h

namespace StoredSend

theorem worth_nonneg (r : StoredSend) : 0 ≤ r.worth := by
  unfold worth
  split
  · exact Int.mul_nonneg (by omega) (Int.natCast_nonneg _)
  · exact Int.le_refl 0

theorem worth_eq_zero (r : StoredSend) (h : r.buf = none) : r.worth = 0 := if_neg (by rw [h]; decide)

end StoredSend

theorem StoredCollective.worth_nonneg (r : StoredCollective) : 0 ≤ r.worth := by
  unfold worth
  split
  · exact Int.mul_nonneg (by omega) (Int.natCast_nonneg _)
  · exact Int.le_refl 0

namespace BufferAccount

def gone (a : BufferAccount) : Multiset Nat :=
  (a.freed : Multiset Nat) + total (fun r => (buffers r : Multiset Nat)) a.dropped

theorem deleteSend_size {r : StoredSend} (hsize : 0 < r.size) (hfit : (r.count + extracount r.size) * r.size < 2 ^ 31)
    (a : BufferAccount) : (a.deleteSend r).storeBufSz + r.worth = a.storeBufSz := by
  unfold deleteSend StoredSend.worth
  cases hbuf : r.buf with
  | none => exact Int.add_zero _
  | some b =>
    simp only [isSome_some, if_true]
    rw [sendBytes_eq hsize hfit]
    omega

theorem deleteCollective_size {r : StoredCollective}
    (hfit : r.type = .allreduce → 0 < r.size ∧ 2 * r.count * r.size < 2 ^ 31) (a : BufferAccount) :
    (a.deleteCollective r).storeBufSz + r.worth = a.storeBufSz := by
  unfold deleteCollective worth
  by_cases htype : r.type = .allreduce
  · rw [if_pos htype, if_pos htype, allreduceBytes_eq (hfit htype).1 (hfit htype).2]
    exact Int.sub_add_cancel _ _
  · rw [if_neg htype, if_neg htype]
    exact Int.add_zero _

theorem deleteSend_freed (a : BufferAccount) (r : StoredSend) :
    ((a.deleteSend r).freed : Multiset Nat) = a.freed + (r.buffers : Multiset Nat) := by
  unfold deleteSend StoredSend.buffers
  cases r.buf with
  | none => exact (add_zero _).symm
  | some b =>
    rw [toList_some, add_comm]
    rfl

theorem deleteSend_dropped (a : BufferAccount) (r : StoredSend) : (a.deleteSend r).dropped = a.dropped := by
  unfold deleteSend
  split <;> rfl

theorem deleteSend_gone (a : BufferAccount) (r : StoredSend) : (a.deleteSend r).gone = a.gone + (r.buffers : Multiset Nat) := by
  rw [gone, deleteSend_freed, deleteSend_dropped, gone, add_right_comm]

theorem deleteCollective_gone (a : BufferAccount) (r : StoredCollective) :
    (a.deleteCollective r).gone = a.gone + (r.buffers : Multiset Nat) := by
  unfold deleteCollective gone
  split
  · rw [← Multiset.coe_add]
    ac_rfl
  · rw [total_cons]
    ac_rfl

theorem deleteCollective_freed (a : BufferAccount) (r : StoredCollective) : ((a.deleteCollective r).freed : Multiset Nat)
      = a.freed + if r.type == .allreduce then (r.buffers : Multiset Nat) else 0 := by
  unfold deleteCollective
  by_cases htype : r.type = .allreduce
  · rw [if_pos htype, if_pos (beq_iff_eq.mpr htype), ← Multiset.coe_add, add_comm]
  · rw [if_neg htype, if_neg (mt beq_iff_eq.mp htype), add_zero]

theorem foldl_deleteSend_dropped (l : List StoredSend) (a : BufferAccount) : (l.foldl deleteSend a).dropped = a.dropped := by
  induction l generalizing a with
  | nil => rfl
  | cons r l ih =>
    rw [foldl_cons, ih, deleteSend_dropped]

theorem foldl_deleteCollective_dropped {l : List StoredCollective} {a : BufferAccount}
    (h : ∀ r ∈ a.dropped, r.type ≠ .allreduce) : ∀ r ∈ (l.foldl deleteCollective a).dropped, r.type ≠ .allreduce := by
  induction l generalizing a with
  | nil => exact h
  | cons r l ih =>
    refine ih fun t ht => ?_
    unfold deleteCollective at ht
    split at ht
    · exact h t ht
    · rename_i htype
      obtain rfl | ht := mem_cons.mp ht
      · exact htype
      · exact h t ht

end BufferAccount

namespace BufferLog

variable {s s' : BufferLog} {size count i : Nat}

theorem insertCollective_perm (r : StoredCollective) (l : List StoredCollective) : (insertCollective r l).Perm (r :: l) := by
  induction l with
  | nil => exact Perm.refl _
  | cons t l ih =>
    rw [insertCollective]
    split
    · exact Perm.refl _
    · exact (ih.cons t).trans (Perm.swap r t l)

theorem cleanupMarkedLogs_eq (s : BufferLog) : s.cleanupMarkedLogs =
      { s with
        account := (s.collectives.filter fun r => r.id == -1).foldl deleteCollective
          ((s.sends.filter StoredSend.deletable).foldl deleteSend s.account)
        sends := s.sends.filter fun r => !r.deletable
        collectives := s.collectives.filter fun r => !(r.id == -1) } := by
  unfold cleanupMarkedLogs
  rw [sweep_eq]
  dsimp only
  rw [sweep_eq]

theorem cleanupMarkedLogs_freed (s : BufferLog) :
    (s.cleanupMarkedLogs.account.freed : Multiset Nat) = s.account.freed + s.doomed := by
  rw [cleanupMarkedLogs_eq]
  dsimp only
  rw [foldl_add (g := fun a => (freed a : Multiset Nat)) deleteCollective_freed,
    foldl_add (g := fun a => (freed a : Multiset Nat)) deleteSend_freed, total_ite, List.filter_filter, add_assoc]
  rfl

/-- The number and the buffers agree with the logs, whose sizes fit; a result has no operands yet. -/
structure Inv (s : BufferLog) : Prop where
  size : s.account.storeBufSz = total StoredSend.worth s.sends + total worth s.collectives
  once : s.account.gone + s.held = Multiset.range s.fresh
  sends : ∀ r ∈ s.sends, 0 < r.size ∧ (r.count + extracount r.size) * r.size < 2 ^ 31
  allreduces : ∀ r ∈ s.collectives, r.type = .allreduce → 0 < r.size ∧ 2 * r.count * r.size < 2 ^ 31
  results : ∀ r ∈ s.collectives, r.type = .allreduceTemp → r.sendbuf = none
  dropped : ∀ r ∈ s.account.dropped, r.type ≠ .allreduce

theorem inv_initial : Inv initial where
  size := rfl
  once := rfl
  sends := fun _ hr => absurd hr not_mem_nil
  allreduces := fun _ hr => absurd hr not_mem_nil
  results := fun _ hr => absurd hr not_mem_nil
  dropped := fun _ hr => absurd hr not_mem_nil

variable (h : Inv s)

include h

theorem Inv.isend (hfit : (count + extracount size) * size < 2 ^ 31) (hstep : s.isend size count = some s') :
    Inv s' := by
  obtain ⟨hroom, hstep⟩ := ite_none_left_eq_some.mp hstep
  have hsize : 0 < size := pos_of_ne_zero fun h0 => hroom (.inl h0)
  obtain rfl := some.inj hstep
  refine ⟨?_, ?_, ?_, h.allreduces, h.results, h.dropped⟩
  · have hworth : StoredSend.worth { size, count, buf := some s.fresh } = (count + extracount size) * size := rfl
    rw [total_append, total_cons, total_nil, sendBytes_eq hsize hfit, h.size]
    dsimp only
    omega
  · have honce := h.once
    unfold held at honce ⊢
    dsimp only
    rw [total_append, total_cons, Multiset.range_succ, ← honce, ← Multiset.singleton_add]
    show s.account.gone + (_ + (({s.fresh} : Multiset Nat) + 0) + _) = _
    ac_rfl
  · intro r hr
    obtain hr | hr := mem_append.mp hr
    · exact h.sends r hr
    · obtain rfl := mem_singleton.mp hr
      exact ⟨hsize, hfit⟩

variable {r : StoredCollective}

theorem Inv.insertCollective {n : Int} {k : Nat} (hworth : n = r.worth)
    (hbuffers : (r.buffers : Multiset Nat) + Multiset.range s.fresh = Multiset.range (s.fresh + k))
    (hfit : r.type = .allreduce → 0 < r.size ∧ 2 * r.count * r.size < 2 ^ 31)
    (hresult : r.type = .allreduceTemp → r.sendbuf = none) (id : BitVec 32) :
    Inv { s with
      account := { s.account with storeBufSz := s.account.storeBufSz + n }
      collectives := BufferLog.insertCollective r s.collectives
      collectiveId := id
      fresh := s.fresh + k } := by
  have hperm := insertCollective_perm r s.collectives
  refine ⟨?_, ?_, h.sends, ?_, ?_, h.dropped⟩
  · rw [total_perm hperm, total_cons, h.size]
    dsimp only
    omega
  · have honce := h.once
    unfold held at honce ⊢
    rw [total_perm hperm, total_cons, ← hbuffers, ← honce]
    ac_rfl
  · intro t ht
    obtain rfl | ht := mem_cons.mp (hperm.subset ht)
    · exact hfit
    · exact h.allreduces t ht
  · intro t ht
    obtain rfl | ht := mem_cons.mp (hperm.subset ht)
    · exact hresult
    · exact h.results t ht

theorem Inv.takeResult (hr : s.collectives[i]? = some r) (htype : r.type = .allreduceTemp)
    (hsize : 0 < size) (hfit : 2 * count * size < 2 ^ 31) (id : BitVec 32) :
    Inv { s with
      account := { s.account with storeBufSz := s.account.storeBufSz + allreduceBytes size count }
      collectives := s.collectives.set i { r with type := .allreduce, size, count, sendbuf := some s.fresh }
      collectiveId := id
      fresh := s.fresh + 1 } := by
  have hmem : r ∈ s.collectives := mem_of_getElem? hr
  have hworth : r.worth = 0 := if_neg (by rw [htype]; decide)
  have hworth' : worth { r with type := .allreduce, size, count, sendbuf := some s.fresh }
      = 2 * count * size := if_pos rfl
  refine ⟨?_, ?_, h.sends, ?_, ?_, h.dropped⟩
  · have htotal := total_set (v := worth) (b := { r with type := .allreduce, size, count, sendbuf := some s.fresh }) hr
    rw [allreduceBytes_eq hsize hfit, h.size]
    dsimp only
    omega
  · have hbuffers : (buffers { r with type := .allreduce, size, count, sendbuf := some s.fresh } : Multiset Nat)
        = {s.fresh} + (r.buffers : Multiset Nat) := by
      unfold buffers
      rw [h.results r hmem htype]
      rfl
    have htotal := total_set (v := fun t => (buffers t : Multiset Nat))
      (b := { r with type := .allreduce, size, count, sendbuf := some s.fresh }) hr
    rw [hbuffers, ← add_assoc] at htotal
    have honce := h.once
    unfold held at honce ⊢
    rw [add_right_cancel htotal, Multiset.range_succ, ← honce, ← Multiset.singleton_add]
    ac_rfl
  · intro t ht
    obtain ht | rfl := mem_or_eq_of_mem_set ht
    · exact h.allreduces t ht
    · exact fun _ => ⟨hsize, hfit⟩
  · intro t ht
    obtain ht | rfl := mem_or_eq_of_mem_set ht
    · exact h.results t ht
    · exact fun htemp => by cases htemp

theorem Inv.iallreduce (hfit : 2 * count * size < 2 ^ 31) (hstep : s.iallreduce size count = some s') : Inv s' := by
  obtain ⟨hroom, hstep⟩ := ite_none_left_eq_some.mp hstep
  have hsize : 0 < size := pos_of_ne_zero fun h0 => hroom (Or.inl h0)
  dsimp only at hstep
  split at hstep
  · rename_i i r hfound
    obtain rfl := Option.some.inj hstep
    obtain ⟨j, hj, hmap⟩ := bind_eq_some_iff.mp hfound
    obtain ⟨t, ht, heq⟩ := map_eq_some_iff.mp hmap
    obtain ⟨rfl, rfl⟩ := Prod.mk.inj heq
    obtain ⟨hlt, hmatch, -⟩ := findIdx?_eq_some_iff_getElem.mp hj
    obtain ⟨_, hget⟩ := List.getElem?_eq_some_iff.mp ht
    rw [hget, Bool.and_eq_true, beq_iff_eq, beq_iff_eq] at hmatch
    exact h.takeResult ht hmatch.2 hsize hfit _
  · obtain rfl := Option.some.inj hstep
    refine h.insertCollective (k := 2) ?_ ?_ (fun _ => ⟨hsize, hfit⟩) (fun htemp => by cases htemp) _
    · rw [allreduceBytes_eq hsize hfit]
      rfl
    · rw [Multiset.range_succ, Multiset.range_succ]
      rfl

theorem Inv.probe {id : BitVec 32} (hstep : s.probe id = some s') : Inv s' := by
  unfold BufferLog.probe at hstep
  split at hstep
  · obtain rfl := some.inj hstep
    refine ⟨h.size, ?_, h.sends, h.allreduces, h.results, h.dropped⟩
    have honce := h.once
    unfold gone at honce ⊢
    rw [← Multiset.cons_coe, Multiset.cons_add, Multiset.cons_add, Multiset.range_succ, ← honce]
    rfl
  · split at hstep
    · cases hstep
    · obtain rfl := some.inj hstep
      have hins := h.insertCollective (n := 0) (k := 1)
        (r := { type := .allreduceTemp, id := id.toInt, recvbuf := some s.fresh, allocRecvbuf := true }) rfl
        (Multiset.range_succ s.fresh).symm (fun htype => by cases htype) (fun _ => rfl) s.collectiveId
      rw [Int.add_zero] at hins
      exact hins

theorem Inv.sendFlags {r r' : StoredSend} (hr : s.sends[i]? = some r) (hsize : r'.size = r.size)
    (hcount : r'.count = r.count) (hbuf : r'.buf = r.buf) : Inv { s with sends := s.sends.set i r' } := by
  have hworth : r'.worth = r.worth := by rw [StoredSend.worth, StoredSend.worth, hsize, hcount, hbuf]
  have hbuffers : r'.buffers = r.buffers := by rw [StoredSend.buffers, StoredSend.buffers, hbuf]
  refine ⟨?_, ?_, ?_, h.allreduces, h.results, h.dropped⟩
  · have htotal := total_set (v := StoredSend.worth) (b := r') hr
    rw [hworth] at htotal
    rw [add_right_cancel htotal]
    exact h.size
  · have htotal := total_set (v := fun t => (StoredSend.buffers t : Multiset Nat)) (b := r') hr
    rw [hbuffers] at htotal
    unfold held
    rw [add_right_cancel htotal]
    exact h.once
  · intro t ht
    obtain ht | rfl := mem_or_eq_of_mem_set ht
    · exact h.sends t ht
    · rw [hsize, hcount]
      exact h.sends r (mem_of_getElem? hr)

theorem Inv.mark (hr : s.collectives[i]? = some r) :
    Inv { s with collectives := s.collectives.set i { r with id := -1 } } := by
  have hmem : r ∈ s.collectives := mem_of_getElem? hr
  refine ⟨?_, ?_, h.sends, ?_, ?_, h.dropped⟩
  · have htotal := total_set (v := worth) (b := { r with id := -1 }) hr
    rw [add_right_cancel htotal]
    exact h.size
  · have htotal := total_set (v := fun t => (buffers t : Multiset Nat)) (b := { r with id := -1 }) hr
    unfold held
    rw [add_right_cancel htotal]
    exact h.once
  · intro t ht
    obtain ht | rfl := mem_or_eq_of_mem_set ht
    · exact h.allreduces t ht
    · exact h.allreduces r hmem
  · intro t ht
    obtain ht | rfl := mem_or_eq_of_mem_set ht
    · exact h.results t ht
    · exact h.results r hmem

theorem Inv.cleanupMarkedLogs : Inv s.cleanupMarkedLogs := by
  rw [cleanupMarkedLogs_eq]
  refine ⟨?_, ?_, fun r hr => h.sends r (mem_of_mem_filter hr), fun r hr => h.allreduces r (mem_of_mem_filter hr),
    fun r hr => h.results r (mem_of_mem_filter hr), foldl_deleteCollective_dropped ?_⟩
  · have hsends := foldl_sub (g := storeBufSz) (l := s.sends.filter StoredSend.deletable)
      (fun a r hr => deleteSend_size (h.sends r (mem_of_mem_filter hr)).1
        (h.sends r (mem_of_mem_filter hr)).2 a) s.account
    have hcolls := foldl_sub (g := storeBufSz) (l := s.collectives.filter fun r => r.id == -1)
      (fun a r hr => deleteCollective_size (h.allreduces r (mem_of_mem_filter hr)) a)
      ((s.sends.filter StoredSend.deletable).foldl deleteSend s.account)
    have hsplitS := total_filter_add (v := StoredSend.worth) (l := s.sends) StoredSend.deletable
    have hsplitC := total_filter_add (v := worth) (l := s.collectives) fun r => r.id == -1
    have hsize := h.size
    dsimp only
    omega
  · have hsplitS := total_filter_add (v := fun t => (StoredSend.buffers t : Multiset Nat)) (l := s.sends) StoredSend.deletable
    have hsplitC := total_filter_add (v := fun t => (buffers t : Multiset Nat)) (l := s.collectives) fun r => r.id == -1
    have honce := h.once
    unfold held at honce ⊢
    dsimp only
    rw [foldl_add deleteCollective_gone, foldl_add deleteSend_gone, ← honce, ← hsplitS, ← hsplitC]
    ac_rfl
  · rw [foldl_deleteSend_dropped]
    exact h.dropped

theorem Inv.step {e : BufferEvent} (hfit : Fits e) (hstep : s.step e = some s') : Inv s' := by
  cases e with
  | isend size count => exact h.isend hfit hstep
  | iallreduce size count => exact h.iallreduce hfit hstep
  | collective t =>
    obtain ⟨hother, hstep⟩ := ite_none_left_eq_some.mp hstep
    obtain ⟨hne, hneTemp⟩ := not_or.mp hother
    obtain rfl := some.inj hstep
    have hins := h.insertCollective (n := 0) (k := 0) (r := { type := t, id := s.collectiveId.toInt })
      (if_neg hne).symm (Multiset.zero_add _) (fun htype => absurd htype hne) (fun htype => absurd htype hneTemp)
      (s.collectiveId + 1)
    rw [Int.add_zero] at hins
    exact hins
  | probe id => exact h.probe hstep
  | sendFlags i completecmp completerep released markdelcmp markdelrep =>
    obtain ⟨r, hr, rfl⟩ := map_eq_some_iff.mp hstep
    exact h.sendFlags hr rfl rfl rfl
  | mark i =>
    obtain ⟨r, hr, rfl⟩ := map_eq_some_iff.mp hstep
    exact h.mark hr
  | cleanup =>
    obtain rfl := some.inj hstep
    exact h.cleanupMarkedLogs

theorem Inv.freed_nodup : s.account.freed.Nodup := by
  refine Multiset.coe_nodup.mp (Multiset.nodup_of_le ?_ (Multiset.nodup_range s.fresh))
  rw [← h.once, gone, add_assoc]
  exact Multiset.le_add_right _ _

theorem Inv.exact : s.Exact where
  size := h.size
  nonneg := by
    have hsends := total_nonneg (l := s.sends) fun r _ => r.worth_nonneg
    have hcolls := total_nonneg (l := s.collectives) fun r _ => r.worth_nonneg
    have hsize := h.size
    omega
  zero := by
    intro hsends hcolls
    have hzeroS : total StoredSend.worth s.sends = 0 := total_eq_zero fun r hr => r.worth_eq_zero (hsends r hr)
    have hzeroC : total worth s.collectives = 0 := total_eq_zero fun r hr => if_neg (hcolls r hr)
    rw [h.size, hzeroS, hzeroC]
    rfl
  once := h.once
  dropped := h.dropped
  frees := by
    intro b hb
    -- The clean-up's own list has no repetition: it is what was freed before, and what it frees.
    have hcount := congrArg (Multiset.count b) s.cleanupMarkedLogs_freed
    have honce := nodup_iff_count_le_one.mp h.cleanupMarkedLogs.freed_nodup b
    have hpos : 0 < s.doomed.count b := Multiset.count_pos.mpr hb
    rw [Multiset.count_add, Multiset.coe_count, Multiset.coe_count] at hcount
    omega

end BufferLog

namespace BufferSystem

theorem inv_step {s s' : BufferSystem} {e : BufferSystemEvent} (h : ∀ p, (s p).Inv) (hfit : s.Fits e)
    (hstep : s.step e = some s') (p : Nat) : (s' p).Inv := by
  cases e with
  | proc q e =>
    obtain ⟨t, ht, rfl⟩ := map_eq_some_iff.mp hstep
    by_cases hp : p = q
    · subst hp
      rw [update_self]
      exact (h p).step hfit ht
    · rw [update_of_ne hp]
      exact h p
  | transfer src dst =>
    obtain rfl := some.inj hstep
    by_cases hp : p = dst
    · subst hp
      rw [update_self]
      exact h src
    · rw [update_of_ne hp]
      exact h p

/-- A send, an allreduction and one whose result came first; the replica takes them over, and deletes the send and the
first of the others. -/
def takenOver : List BufferSystemEvent :=
  [.proc 0 (.isend 1 10), .proc 0 (.iallreduce 8 4), .proc 0 (.probe 0x70000001#32), .proc 0 (.iallreduce 4 2),
    .transfer 0 1, .proc 1 (.sendFlags 0 true true true true true), .proc 1 (.mark 1), .proc 1 .cleanup]

end BufferSystem

end ParepMpi
