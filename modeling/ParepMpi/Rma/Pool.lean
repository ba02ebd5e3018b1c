import ParepMpi.Rma.Window

/-!
# The pool of a window

`MPI_Rget` takes a slot, and the test that completes a leader gives it back. A slot is free exactly if no request that
is under way has it, provided that requests end in the way that gives their slot back: a follower's do not, and a
leader's slot is free while a second transfer still goes into it.
-/

namespace ParepMpi

open Function Option

namespace RmaCopy

open RmaWindow

def Uses (x : RmaCopy) (i k : Nat) : Prop := k < x.count ∧ (x.req k).complete = false ∧ (x.req k).slot = i

/-- A slot is taken as long as the request that took it is not complete, and only by that one, and no transfer goes on
into a slot that is free. -/
structure PoolKept (x : RmaCopy) : Prop where
  released : ∀ i, x.bufferStatus i = true ↔ ∃ k, x.Uses i k
  one : ∀ i j k, x.Uses i j → x.Uses i k → j = k
  landed : ∀ k < x.count, ∀ t, (x.req k).flying t = true → x.bufferStatus (x.req k).slot = true
  free : (∀ k < x.count, (x.req k).complete = true) →
    (∀ i, x.bufferStatus i = false) ∧ firstFree x.bufferStatus = some 0

structure PoolInv (x : RmaCopy) : Prop where
  released : ∀ i, x.bufferStatus i = true ↔ ∃ k, x.Uses i k
  one : ∀ i j k, x.Uses i j → x.Uses i k → j = k
  flying : ∀ k < x.count, ∀ t, (x.req k).flying t = true → (x.req k).complete = false

variable {x y : RmaCopy} {c : RmaConfig} {i j k : Nat}

variable (h : PoolInv x)

include h

theorem PoolInv.kept : x.PoolKept where
  released := h.released
  one := h.one
  landed := fun k hk t ht => (h.released _).mpr ⟨k, hk, h.flying k hk t ht, rfl⟩
  free := by
    intro hall
    have hfree : ∀ i, x.bufferStatus i = false := by
      intro i
      cases hi : x.bufferStatus i with
      | false => rfl
      | true =>
        obtain ⟨k, hk, hpending, -⟩ := (h.released i).mp hi
        exact absurd (hpending.symm.trans (hall k hk)) Bool.false_ne_true
    refine ⟨hfree, ?_⟩
    exact List.find?_eq_some_iff_append.mpr ⟨by rw [hfree 0]; rfl, [], (List.range 7).map (· + 1), rfl, fun _ hmem =>
      absurd hmem List.not_mem_nil⟩

theorem PoolInv.congr (hstatus : y.bufferStatus = x.bufferStatus) (hcount : y.count = x.count)
    (hreq : ∀ k, (y.req k).complete = (x.req k).complete ∧ (y.req k).slot = (x.req k).slot
      ∧ ∀ t, (y.req k).flying t = true → (x.req k).flying t = true) : PoolInv y := by
  have huses : ∀ i k, y.Uses i k ↔ x.Uses i k := by
    intro i k
    unfold Uses
    rw [hcount, (hreq k).1, (hreq k).2.1]
  refine ⟨fun i => ?_, fun i j k hj hk => h.one i j k ((huses i j).mp hj) ((huses i k).mp hk), fun k hk t ht => ?_⟩
  · rw [hstatus, h.released]
    simp only [huses]
  · rw [(hreq k).1]
    exact h.flying k (hcount ▸ hk) t ((hreq k).2.2 t ht)

theorem PoolInv.update {r : RgetRequest} (hcomplete : r.complete = (x.req k).complete)
    (hslot : r.slot = (x.req k).slot) (hflying : ∀ t, r.flying t = true → (x.req k).flying t = true) :
    PoolInv { x with req := Function.update x.req k r } := by
  refine h.congr rfl rfl fun j => ?_
  show (Function.update x.req k r j).complete = _ ∧ (Function.update x.req k r j).slot = _
    ∧ ∀ t, (Function.update x.req k r j).flying t = true → _
  by_cases hj : j = k
  · rw [hj, update_self]
    exact ⟨hcomplete, hslot, hflying⟩
  · rw [update_of_ne hj]
    exact ⟨rfl, rfl, fun _ => id⟩

theorem PoolInv.issue (hi : x.bufferStatus i = false) (leads : Bool) : PoolInv (issue c x i leads) := by
  have hold : ∀ j, j < x.count → (RmaWindow.issue c x i leads).req j = x.req j := fun j hj =>
    update_of_ne (Nat.ne_of_lt hj) _ _
  have hnew : (RmaWindow.issue c x i leads).req x.count =
      { isLeader := leads, slot := i, flying := fun t => leads && (t == .cmp || c.mirrored x.count) } :=
    update_self ..
  have huses : ∀ m k, (RmaWindow.issue c x i leads).Uses m k ↔ x.Uses m k ∨ (k = x.count ∧ m = i) := by
    intro m k
    unfold Uses
    show k < x.count + 1 ∧ _ ↔ _
    obtain hk | rfl | hk := Nat.lt_trichotomy k x.count
    · rw [hold k hk]
      constructor
      · exact fun hu => Or.inl ⟨hk, hu.2⟩
      · intro hu
        obtain hu | ⟨heq, -⟩ := hu
        · exact ⟨Nat.lt_succ_of_lt hk, hu.2⟩
        · exact absurd heq (Nat.ne_of_lt hk)
    · rw [hnew]
      constructor
      · exact fun hu => Or.inr ⟨rfl, hu.2.2.symm⟩
      · intro hu
        obtain hu | ⟨-, rfl⟩ := hu
        · exact absurd hu.1 (Nat.lt_irrefl _)
        · exact ⟨Nat.lt_succ_self _, rfl, rfl⟩
    · constructor
      · omega
      · intro hu
        obtain hu | ⟨heq, -⟩ := hu
        · omega
        · omega
  have hfree : ∀ k, ¬ x.Uses i k := fun k hk => Bool.false_ne_true (hi.symm.trans ((h.released i).mpr ⟨k, hk⟩))
  refine ⟨fun m => ?_, fun m j k hj hk => ?_, fun k hk t ht => ?_⟩
  · show Function.update x.bufferStatus i true m = true ↔ _
    by_cases hm : m = i
    · rw [hm, update_self]
      exact ⟨fun _ => ⟨x.count, (huses i _).mpr (Or.inr ⟨rfl, rfl⟩)⟩, fun _ => rfl⟩
    · rw [update_of_ne hm, h.released]
      simp only [huses, hm, and_false, or_false]
  · obtain hj' | ⟨hj', hm⟩ := (huses m j).mp hj
    · obtain hk' | ⟨-, hm⟩ := (huses m k).mp hk
      · exact h.one m j k hj' hk'
      · exact absurd (hm ▸ hj') (hfree j)
    · obtain hk' | ⟨hk', -⟩ := (huses m k).mp hk
      · exact absurd (hm ▸ hk') (hfree k)
      · exact hj'.trans hk'.symm
  · obtain hk' | rfl := Nat.lt_succ_iff_lt_or_eq.mp hk
    · rw [hold k hk'] at ht ⊢
      exact h.flying k hk' t ht
    · rw [hnew]

theorem PoolInv.release (hk : k < x.count) (hpending : (x.req k).complete = false)
    (hlanded : ∀ t, (x.req k).flying t = false) (user : Option Nat) :
    PoolInv { x with
      bufferStatus := Function.update x.bufferStatus (x.req k).slot false
      req := Function.update x.req k { x.req k with user := user, complete := true } } := by
  let y : RmaCopy := { x with
    bufferStatus := Function.update x.bufferStatus (x.req k).slot false
    req := Function.update x.req k { x.req k with user := user, complete := true } }
  have hold : ∀ j, j ≠ k → y.req j = x.req j := fun j hj => update_of_ne hj _ _
  have hself : y.req k = { x.req k with user := user, complete := true } := update_self ..
  have huses : ∀ m j, y.Uses m j ↔ x.Uses m j ∧ j ≠ k := by
    intro m j
    unfold Uses
    by_cases hj : j = k
    · rw [hj, hself]
      constructor
      · exact fun hu => absurd hu.2.1.symm Bool.false_ne_true
      · exact fun hu => absurd rfl hu.2
    · rw [hold j hj]
      exact ⟨fun hu => ⟨hu, hj⟩, fun hu => hu.1⟩
  have huse : x.Uses (x.req k).slot k := ⟨hk, hpending, rfl⟩
  show PoolInv y
  refine ⟨fun m => ?_, fun m i j hi hj => h.one m i j ((huses m i).mp hi).1 ((huses m j).mp hj).1, fun j hj t ht => ?_⟩
  · show Function.update x.bufferStatus (x.req k).slot false m = true ↔ _
    simp only [huses]
    by_cases hm : m = (x.req k).slot
    · rw [hm, update_self]
      constructor
      · exact fun hfalse => absurd hfalse Bool.false_ne_true
      · intro hused
        obtain ⟨j, hj, hne⟩ := hused
        exact absurd (h.one _ j k hj huse) hne
    · rw [update_of_ne hm, h.released]
      constructor
      · intro hused
        obtain ⟨j, hj⟩ := hused
        refine ⟨j, hj, fun heq => hm ?_⟩
        rw [← hj.2.2, heq]
      · intro hused
        obtain ⟨j, hj, -⟩ := hused
        exact ⟨j, hj⟩
  · by_cases hjk : j = k
    · rw [hjk, hself] at ht
      exact absurd ((hlanded t).symm.trans ht) Bool.false_ne_true
    · rw [hold j hjk] at ht ⊢
      exact h.flying j hj t ht

end RmaCopy

namespace RmaWindow

open RmaCopy

/-- A request completes as a leader, when all its transfers are complete. -/
def Returned (s : RmaWindow) : RmaEvent → Prop
  | .test p k => ((s p).req k).flying .cmp = false ∧ ((s p).req k).flying .rep = false
  | .take _ _ => False
  | _ => True

instance (s : RmaWindow) : (e : RmaEvent) → Decidable (s.Returned e)
  | .create _ | .rget _ | .land _ _ _ | .poll _ _ => isTrue trivial
  | .test _ _ => instDecidableAnd
  | .take _ _ => isFalse id

variable {c : RmaConfig} {s s' : RmaWindow} {p q : DualCopy} {k : Nat} {x : RmaCopy} {e : RmaEvent}

section

variable (h : ∀ q, PoolInv (s q))

include h

theorem poolInv_put (hx : PoolInv x) (q : DualCopy) : PoolInv (s.put p x q) := by
  by_cases hq : q = p
  · rw [hq, put_self]
    exact hx
  · rw [put_of_ne hq]
    exact h q

theorem poolInv_compareAndSwap (q : DualCopy) : PoolInv (s.compareAndSwap q) := by
  rw [compareAndSwap_eq]
  exact (h q).congr rfl rfl fun _ => ⟨rfl, rfl, fun _ => id⟩

theorem poolInv_create (hstep : s.create p = some s') : ∀ q, PoolInv (s' q) := by
  unfold create at hstep
  split at hstep
  · cases hstep
  · obtain rfl := some.inj hstep
    exact poolInv_put h ((h p).congr rfl rfl fun _ => ⟨rfl, rfl, fun _ => id⟩)

theorem poolInv_rget (hstep : s.rget c p = some s') : ∀ q, PoolInv (s' q) := by
  obtain ⟨-, hstep⟩ := ite_none_right_eq_some.mp hstep
  obtain ⟨i, hi, hs'⟩ := bind_eq_some_iff.mp hstep
  obtain ⟨-, hfree⟩ := firstFree_spec hi
  split at hs'
  · obtain rfl := some.inj hs'
    refine poolInv_put (poolInv_compareAndSwap h) ((poolInv_compareAndSwap h p).issue ?_ _)
    rw [compareAndSwap_eq]
    exact hfree
  · split at hs'
    · cases hs'
    · obtain rfl := some.inj hs'
      exact poolInv_put h ((h p).issue hfree true)

theorem poolInv_land {t : DualCopy} (hstep : s.land c p k t = some s') : ∀ q, PoolInv (s' q) := by
  obtain ⟨-, rfl⟩ := ite_some_none_eq_some.mp hstep
  have hflying : ∀ u, (landRequest ((s p).req k) t).flying u = true → ((s p).req k).flying u = true := by
    intro u hu
    unfold landRequest at hu
    dsimp only at hu
    by_cases hut : u = t
    · rw [hut, update_self] at hu
      cases hu
    · rwa [update_of_ne hut] at hu
  have hupdate := (h p).update (k := k) (r := landRequest ((s p).req k) t) rfl rfl hflying
  exact poolInv_put h (hupdate.congr rfl rfl fun _ => ⟨rfl, rfl, fun _ => id⟩)

theorem poolInv_test (hguard : s.Returned (.test p k)) (hstep : s.test c p k = some s') :
    ∀ q, PoolInv (s' q) := by
  unfold test at hstep
  obtain ⟨⟨hk, -, hpending, -⟩, hstep⟩ := ite_none_right_eq_some.mp hstep
  have hlanded : ∀ t, ((s p).req k).flying t = false := by
    intro t
    cases t with
    | cmp => exact hguard.1
    | rep => exact hguard.2
  have hreleased := (h p).release hk hpending hlanded (winning (s p) ((s p).req k))
  split at hstep
  · obtain rfl := some.inj hstep
    refine poolInv_put (poolInv_put h hreleased) ?_
    exact (h p.dual).congr rfl rfl fun _ => ⟨rfl, rfl, fun _ => id⟩
  · obtain rfl := some.inj hstep
    exact poolInv_put h hreleased

theorem poolInv_poll (hstep : s.poll p k = some s') : ∀ q, PoolInv (s' q) := by
  obtain ⟨-, rfl⟩ := ite_some_none_eq_some.mp hstep
  exact poolInv_put h ((h p).update rfl rfl fun _ => id)

theorem poolInv_step (hguard : s.Returned e) (hstep : step c s e = some s') :
    ∀ q, PoolInv (s' q) := by
  cases e with
  | create p => exact poolInv_create h hstep
  | rget p => exact poolInv_rget h hstep
  | land p k t => exact poolInv_land h hstep
  | test p k => exact poolInv_test h hguard hstep
  | poll p k => exact poolInv_poll h hstep
  | take p k => exact hguard.elim

end

theorem poolInv_initial (word : DualCopy → Nat) (q : DualCopy) : PoolInv (initial word q) := by
  have hnone : ∀ i k, ¬ (initial word q).Uses i k := fun i k hu => Nat.not_lt_zero k hu.1
  refine ⟨fun i => ?_, fun i j k hj _ => absurd hj (hnone i j), fun k hk _ _ => absurd hk (Nat.not_lt_zero k)⟩
  exact ⟨fun htaken => absurd htaken Bool.false_ne_true, fun hused => hused.elim fun k hk => absurd hk (hnone i k)⟩

/-- In every run in which requests complete as leaders after all their transfers, every slot is taken exactly as long as
one request that is not complete uses it. -/
theorem pool_kept (c : RmaConfig) (word : DualCopy → Nat) (es : List RmaEvent)
    (hguard : Guarded (step c) Returned (initial word) es) (hrun : runEvents (step c) (initial word) es = some s)
    (p : DualCopy) : (s p).PoolKept :=
  (hguard.invariant (P := fun u => ∀ q, PoolInv (u q)) hrun (poolInv_initial word) poolInv_step p).kept

/-- Nine gets of a process without a replica, each complete before the next one. -/
def nineGets : List RmaEvent :=
  .create .cmp :: (List.range 9).flatMap fun k => [.rget .cmp, .land .cmp k .cmp, .land .cmp k .rep, .test .cmp k]

theorem nineGets_kept : ∃ s, runEvents (step ⟨false, fun _ => true, fun _ => true⟩) (initial fun _ => 1) nineGets = some s
    ∧ (s .cmp).count = 9 ∧ (s .cmp).PoolKept := by
  refine exists_run_imp (P := fun s => (s .cmp).count = 9) (by decide +kernel) ?_
  exact fun s hs hcount => ⟨hcount, pool_kept _ _ nineGets (by decide +kernel) hs .cmp⟩

/-- Eight gets that the compute process leads and that both copies complete. -/
def eightFollowed : List RmaEvent :=
  .create .cmp :: .create .rep :: (List.range 8).flatMap fun k =>
    [.rget .cmp, .rget .rep, .land .cmp k .cmp, .land .cmp k .rep, .test .cmp k, .poll .rep k, .take .rep k]

/-- The slots of the follower stay taken, so that its ninth call never returns. And a leader's slot is free after the
first of its two transfers, so that the next get transfers into the buffer into which the second one still goes. -/
theorem follower_slots_leak_and_leader_slot_early :
    (∃ s, runEvents (step (.paired fun _ => true)) (initial fun _ => 1) eightFollowed = some s
      ∧ (∀ k < (s .rep).count, ((s .rep).req k).complete = true) ∧ (s .rep).bufferStatus 0 = true
      ∧ (s.rget (.paired fun _ => true) .rep).isNone ∧ ¬ (s .rep).PoolKept)
    ∧ ∃ s, runEvents (step ⟨false, fun _ => true, fun _ => true⟩) (initial fun _ => 1)
        [.create .cmp, .rget .cmp, .land .cmp 0 .cmp, .test .cmp 0, .rget .cmp] = some s
      ∧ ((s .cmp).req 0).slot = ((s .cmp).req 1).slot ∧ ((s .cmp).req 0).flying .rep = true
      ∧ ((s .cmp).req 1).flying .rep = true := by
  constructor
  · obtain ⟨s, hs, hcomplete, htaken, hblocked⟩ : ∃ s,
        runEvents (step (.paired fun _ => true)) (initial fun _ => 1) eightFollowed = some s
        ∧ (∀ k < (s .rep).count, ((s .rep).req k).complete = true) ∧ (s .rep).bufferStatus 0 = true
        ∧ (s.rget (.paired fun _ => true) .rep).isNone := by
      decide +kernel
    exact ⟨s, hs, hcomplete, htaken, hblocked, fun h =>
      Bool.false_ne_true (((h.free hcomplete).1 0).symm.trans htaken)⟩
  · decide +kernel

end RmaWindow

end ParepMpi
