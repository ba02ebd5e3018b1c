import ParepMpi.Rma.Window

/-!
# The election of a leader

One status word serves the election, the hand-over and the reset of all gets. In a run in which both copies have left
`MPI_Win_create` before the first call, and nobody begins a get before the word is reset and the slots are at rest,
each get is idle, open with one leader, or done by both copies with the same data. The invariant follows one get at a
time; earlier ones are done and stay so.
-/

namespace ParepMpi

open Option Function DualCopy

namespace RmaCopy

def Keeps (x y : RmaCopy) : Prop :=
  x.count ≤ y.count ∧ ∀ k < x.count, (x.req k).complete = true →
    (y.req k).complete = true ∧ (y.req k).isLeader = (x.req k).isLeader ∧ (y.req k).user = (x.req k).user

theorem Keeps.of_eq {x y : RmaCopy} (hcount : y.count = x.count) (hreq : y.req = x.req) : x.Keeps y := by
  refine ⟨Nat.le_of_eq hcount.symm, fun k _ hcomplete => ?_⟩
  rw [hreq]
  exact ⟨hcomplete, rfl, rfl⟩

theorem Keeps.of_update {x y : RmaCopy} {k : Nat} {r : RgetRequest} (hcount : y.count = x.count)
    (hreq : y.req = update x.req k r)
    (hr : (x.req k).complete = true →
      r.complete = true ∧ r.isLeader = (x.req k).isLeader ∧ r.user = (x.req k).user) : x.Keeps y := by
  refine ⟨Nat.le_of_eq hcount.symm, fun j _ hcomplete => ?_⟩
  rw [hreq]
  by_cases hj : j = k
  · rw [hj, update_self]
    exact hr (hj ▸ hcomplete)
  · rw [update_of_ne hj]
    exact ⟨hcomplete, rfl, rfl⟩

end RmaCopy

namespace RmaWindow

open RmaCopy

variable {c : RmaConfig} {s s' : RmaWindow} {p q : DualCopy} {k i : Nat} {t : DualCopy} {mirrored : Nat → Bool}

variable {leads : Bool} {x : RmaCopy} {e : RmaEvent} {j : Nat}

theorem issue_req_of_lt (hk : k < x.count) : (issue c x i leads).req k = x.req k := update_of_ne (Nat.ne_of_lt hk) _ _

theorem issue_req_self : (issue c x i leads).req x.count =
    { isLeader := leads, slot := i, flying := fun t => leads && (t == .cmp || c.mirrored x.count) } :=
  update_self ..

theorem forall_copy {P : DualCopy → Prop} (p : DualCopy) (h : P p) (hdual : P p.dual) (q : DualCopy) : P q := by
  by_cases hq : q = p
  · exact hq ▸ h
  · exact eq_dual_of_ne hq ▸ hdual

theorem create_cases (h : s.create p = some s') :
    (s p).created = false ∧ s' p = { s p with word := 0, created := true } ∧ s' p.dual = s p.dual := by
  obtain ⟨hcreated, h⟩ := ite_none_left_eq_some.mp h
  obtain rfl := some.inj h
  exact ⟨Bool.eq_false_iff.mpr hcreated, put_self _, put_of_ne p.dual_ne⟩

theorem rget_cases (h : s.rget (.paired mirrored) p = some s') :
    (s p).created = true ∧ ∃ i, firstFree (s p).bufferStatus = some i
      ∧ s' p = issue (.paired mirrored) (s.compareAndSwap p) i ((s .rep).word == 0)
      ∧ s' p.dual = s.compareAndSwap p.dual := by
  obtain ⟨hcreated, h⟩ := ite_none_right_eq_some.mp h
  obtain ⟨i, hi, hs'⟩ := bind_eq_some_iff.mp h
  obtain rfl := some.inj hs'
  exact ⟨hcreated, i, hi, put_self _, put_of_ne p.dual_ne⟩

theorem land_cases (h : s.land c p k t = some s') :
    k < (s p).count ∧ ((s p).req k).flying t = true ∧ s' p = landCopy (s p) k t ∧ s' p.dual = s p.dual := by
  obtain ⟨hcan, rfl⟩ := ite_some_none_eq_some.mp h
  exact ⟨hcan.1, hcan.2.1, put_self _, put_of_ne p.dual_ne⟩

theorem test_cases (h : s.test (.paired mirrored) p k = some s') :
    (k < (s p).count ∧ ((s p).req k).isLeader = true ∧ ((s p).req k).complete = false
        ∧ (((s p).req k).landed .cmp || ((s p).req k).landed .rep) = true)
      ∧ s' p = { s p with
          bufferStatus := update (s p).bufferStatus ((s p).req k).slot false
          req := update (s p).req k
            { (s p).req k with user := winning (s p) ((s p).req k), complete := true } }
      ∧ s' p.dual = { s p.dual with cache := winning (s p) ((s p).req k), word := 2 } := by
  obtain ⟨hcan, rfl⟩ := ite_some_none_eq_some.mp h
  exact ⟨hcan, (put_of_ne p.dual_ne.symm).trans (put_self _), put_self _⟩

theorem poll_cases (h : s.poll p k = some s') :
    (k < (s p).count ∧ ((s p).req k).isLeader = false ∧ ((s p).req k).complete = false ∧ (s p).word = 2)
      ∧ s' p = { s p with req := update (s p).req k { (s p).req k with seen := true } }
      ∧ s' p.dual = s p.dual := by
  obtain ⟨hcan, rfl⟩ := ite_some_none_eq_some.mp h
  exact ⟨hcan, put_self _, put_of_ne p.dual_ne⟩

theorem take_cases (h : s.take p k = some s') :
    (k < (s p).count ∧ ((s p).req k).isLeader = false ∧ ((s p).req k).complete = false ∧ ((s p).req k).seen = true)
      ∧ s' p = { s p with
          word := 0
          req := update (s p).req k { (s p).req k with user := (s p).cache, complete := true } }
      ∧ s' p.dual = s p.dual := by
  obtain ⟨hcan, rfl⟩ := ite_some_none_eq_some.mp h
  exact ⟨hcan, put_self _, put_of_ne p.dual_ne⟩

theorem keeps_step (hstep : step (.paired mirrored) s e = some s') (q : DualCopy) : (s q).Keeps (s' q) := by
  suffices hboth : ∃ p, (s p).Keeps (s' p) ∧ (s p.dual).Keeps (s' p.dual) by
    obtain ⟨p, hself, hdual⟩ := hboth
    exact forall_copy (P := fun q => (s q).Keeps (s' q)) p hself hdual q
  cases e with
  | create p =>
    obtain ⟨-, hself, hdual⟩ := create_cases hstep
    exact ⟨p, hself ▸ Keeps.of_eq rfl rfl, hdual ▸ Keeps.of_eq rfl rfl⟩
  | rget p =>
    obtain ⟨-, i, -, hself, hdual⟩ := rget_cases hstep
    refine ⟨p, ?_, ?_⟩
    · rw [hself]
      refine ⟨compareAndSwap_count (s := s) p ▸ Nat.le_succ _, fun k hk hcomplete => ?_⟩
      rw [issue_req_of_lt (by rwa [compareAndSwap_count]), compareAndSwap_req]
      exact ⟨hcomplete, rfl, rfl⟩
    · rw [hdual]
      exact Keeps.of_eq (compareAndSwap_count _) (compareAndSwap_req _)
  | land p k t =>
    obtain ⟨-, -, hself, hdual⟩ := land_cases hstep
    refine ⟨p, ?_, hdual ▸ Keeps.of_eq rfl rfl⟩
    rw [hself]
    exact Keeps.of_update rfl rfl fun hcomplete => ⟨hcomplete, rfl, rfl⟩
  | test p k =>
    obtain ⟨⟨-, -, hpending, -⟩, hself, hdual⟩ := test_cases hstep
    refine ⟨p, ?_, hdual ▸ Keeps.of_eq rfl rfl⟩
    rw [hself]
    exact Keeps.of_update rfl rfl fun hcomplete => absurd (hpending.symm.trans hcomplete) Bool.false_ne_true
  | poll p k =>
    obtain ⟨-, hself, hdual⟩ := poll_cases hstep
    refine ⟨p, ?_, hdual ▸ Keeps.of_eq rfl rfl⟩
    rw [hself]
    exact Keeps.of_update rfl rfl fun hcomplete => ⟨hcomplete, rfl, rfl⟩
  | take p k =>
    obtain ⟨⟨-, -, hpending, -⟩, hself, hdual⟩ := take_cases hstep
    refine ⟨p, ?_, hdual ▸ Keeps.of_eq rfl rfl⟩
    rw [hself]
    exact Keeps.of_update rfl rfl fun hcomplete => absurd (hpending.symm.trans hcomplete) Bool.false_ne_true

/-! ## The states of a get

A get is idle, open with one leader, or done by both copies. -/

/-- The first of the two calls of a get comes when the other copy has left `MPI_Win_create` too, when the replica's status
word is 0, when the other copy has a free slot for its call, and when no transfer of an earlier get still goes into the
slot that the call takes. -/
def Orderly (s : RmaWindow) : RmaEvent → Prop
  | .rget p => (s p.dual).count ≤ (s p).count →
      (s p.dual).created = true ∧ (s .rep).word = 0 ∧ (firstFree (s p.dual).bufferStatus).isSome = true
        ∧ ∀ j < (s p).count, firstFree (s p).bufferStatus = some ((s p).req j).slot →
          ((s p).req j).flying .cmp = false ∧ ((s p).req j).flying .rep = false
  | _ => True

instance (s : RmaWindow) : (e : RmaEvent) → Decidable (s.Orderly e)
  | .create _ | .land _ _ _ | .test _ _ | .poll _ _ | .take _ _ => isTrue trivial
  | .rget _ => inferInstanceAs (Decidable (_ → _))

/-- Both copies have completed the get, one of them as the leader, with the data of the get. -/
structure Done (s : RmaWindow) (k : Nat) : Prop where
  issued : ∀ q, k < (s q).count
  complete : ∀ q, ((s q).req k).complete = true
  user : ∀ q, ((s q).req k).user = some k
  one : ((s .rep).req k).isLeader = !((s .cmp).req k).isLeader

structure Idle (s : RmaWindow) (k : Nat) : Prop where
  count : ∀ q, (s q).count = k
  word : (s .cmp).created = true → (s .cmp).word = 0

/-- The side of the leader, whose transfers are the only ones into its slot. -/
structure Leads (x : RmaCopy) (k : Nat) : Prop where
  count : x.count = k + 1
  leads : (x.req k).isLeader = true
  transfer : (x.req k).flying .cmp = true ∨ (x.req k).landed .cmp = true
  alone : ∀ j < k, (x.req j).slot = (x.req k).slot → ∀ t, (x.req j).flying t = false
  data : ∀ t, (x.req k).landed t = true → x.shadow t (x.req k).slot = some k
  user : (x.req k).complete = true → (x.req k).user = some k

structure Follows (y : RmaCopy) (k : Nat) (ready : Bool) : Prop where
  word : y.word = 2 ↔ ready = true
  cache : ready = true → y.cache = some k
  call : (y.count = k ∧ (firstFree y.bufferStatus).isSome = true)
    ∨ (y.count = k + 1 ∧ (y.req k).isLeader = false ∧ (y.req k).complete = false ∧ ((y.req k).seen = true → ready = true))

/-- The copy `p` leads the get, and the other one has not completed it. -/
structure Open (s : RmaWindow) (k : Nat) (p : DualCopy) : Prop where
  created : ∀ q, (s q).created = true
  leader : Leads (s p) k
  follower : Follows (s p.dual) k ((s p).req k).complete
  word : (s .rep).word ≠ 0
  own : p = .cmp → (s .cmp).word = 0

/-- What the events preserve: all gets but the last one are done. -/
def ElectionInv (s : RmaWindow) : Prop := ∃ k, (∀ j < k, s.Done j) ∧ (s.Idle k ∨ ∃ p, s.Open k p)

theorem Done.step (h : s.Done k) (hstep : step (.paired mirrored) s e = some s') : s'.Done k := by
  have hkeeps := fun q => (keeps_step hstep q).2 k (h.issued q) (h.complete q)
  refine ⟨fun q => Nat.lt_of_lt_of_le (h.issued q) (keeps_step hstep q).1, fun q => (hkeeps q).1, fun q => ?_, ?_⟩
  · rw [(hkeeps q).2.2, h.user q]
  · rw [(hkeeps .rep).2.1, (hkeeps .cmp).2.1, h.one]

theorem Idle.create (h : s.Idle k) (hstep : s.create p = some s') : s'.Idle k := by
  obtain ⟨-, hself, hdual⟩ := create_cases hstep
  refine ⟨forall_copy p ?_ ?_, fun hcreated => ?_⟩
  · rw [hself]
    exact h.count p
  · rw [hdual]
    exact h.count p.dual
  · cases p with
    | cmp => rw [hself]
    | rep =>
      rw [show s' .cmp = s .cmp from hdual] at hcreated ⊢
      exact h.word hcreated

theorem Idle.rget (h : s.Idle k) (hguard : s.Orderly (.rget p)) (hstep : s.rget (.paired mirrored) p = some s') :
    s'.Open k p := by
  obtain ⟨hcreated, i, hi, hself, hdual⟩ := rget_cases hstep
  obtain ⟨hcreated', hword, hfree, halone⟩ := hguard (Nat.le_of_eq ((h.count p.dual).trans (h.count p).symm))
  have hcount : (s.compareAndSwap p).count = k := (compareAndSwap_count p).trans (h.count p)
  have hreq : (s' p).req k = { isLeader := true, slot := i, flying := fun t => t == .cmp || mirrored k } := by
    rw [hself, hword, ← hcount]
    exact issue_req_self
  have hold : ∀ j < k, (s' p).req j = (s p).req j := by
    intro j hj
    rw [hself, issue_req_of_lt (hcount.symm ▸ hj), compareAndSwap_req]
  have hrep : (s' .rep).word = 1 := by
    have hswap : (s.compareAndSwap .rep).word = 1 := by
      rw [compareAndSwap_eq]
      exact if_pos ⟨hword, rfl⟩
    cases p with
    | cmp => exact (congrArg RmaCopy.word hdual).trans hswap
    | rep => exact (congrArg RmaCopy.word hself).trans hswap
  have hcmp : (s' .cmp).word = 0 := by
    have hswap : (s.compareAndSwap .cmp).word = 0 := by
      rw [compareAndSwap_eq]
      exact (if_neg fun hfalse => absurd hfalse.2 (by decide)).trans
        (h.word (forall_copy (P := fun q => (s q).created = true) p hcreated hcreated' .cmp))
    cases p with
    | cmp => exact (congrArg RmaCopy.word hself).trans hswap
    | rep => exact (congrArg RmaCopy.word hdual).trans hswap
  refine ⟨forall_copy p ?_ ?_, ⟨?_, ?_, ?_, fun j hj hslot t => ?_, fun t ht => ?_, fun hc => ?_⟩,
    ⟨?_, fun hc => ?_, .inl ?_⟩, hrep ▸ Nat.one_ne_zero, fun _ => hcmp⟩
  · rw [hself]
    exact (compareAndSwap_created p).trans hcreated
  · rw [hdual]
    exact (compareAndSwap_created p.dual).trans hcreated'
  · rw [hself, ← hcount]
    rfl
  · rw [hreq]
  · rw [hreq]
    exact .inl rfl
  · rw [hold j hj, hreq] at hslot
    rw [hold j hj]
    obtain ⟨hflying, hflying'⟩ := halone j (h.count p ▸ hj) (hslot ▸ hi)
    exact forall_copy (P := fun t => ((s p).req j).flying t = false) .cmp hflying hflying' t
  · rw [hreq] at ht
    cases ht
  · rw [hreq] at hc
    cases hc
  · rw [hreq]
    have hdualword : (s' p.dual).word ≠ 2 := by
      cases p with
      | cmp => exact hrep ▸ by decide
      | rep => exact hcmp ▸ by decide
    exact ⟨fun heq => absurd heq hdualword, fun hc => absurd hc Bool.false_ne_true⟩
  · rw [hreq] at hc
    cases hc
  · rw [hdual, compareAndSwap_count, compareAndSwap_bufferStatus]
    exact ⟨h.count p.dual, hfree⟩

theorem Open.congr (h : s.Open k p) (hleader : Leads (s' p) k)
    (hfollower : Follows (s' p.dual) k ((s' p).req k).complete)
    (hsame : ∀ q, (s' q).word = (s q).word ∧ (s' q).created = (s q).created) : s'.Open k p := by
  refine ⟨fun q => (hsame q).2.trans (h.created q), hleader, hfollower, ?_, fun hp => ?_⟩
  · rw [(hsame .rep).1]
    exact h.word
  · rw [(hsame .cmp).1]
    exact h.own hp

theorem Open.rget (h : s.Open k p) (hguard : s.Orderly (.rget q)) (hstep : s.rget (.paired mirrored) q = some s') :
    s'.Open k p ∧ s' p = s p ∧ (s' p.dual).count = k + 1 := by
  obtain ⟨-, i, -, hself, hdual⟩ := rget_cases hstep
  rw [compareAndSwap_of_ne h.word] at hself hdual
  have hfirst : ¬ (s q.dual).count ≤ (s q).count := fun hle => h.word (hguard hle).2.1
  by_cases hq : q = p
  · -- the leader's next call would be the first one of the next get
    rw [hq, h.leader.count] at hfirst
    have hcount := h.follower.call
    omega
  · obtain rfl := eq_dual_of_ne hq
    rw [dual_dual] at hdual hfirst
    rw [h.leader.count] at hfirst
    obtain ⟨hcount, -⟩ | ⟨hcount, -⟩ := h.follower.call
    · have hleads : ((s .rep).word == 0) = false := beq_eq_false_iff_ne.mpr h.word
      have hreq : (s' p.dual).req k = { isLeader := false, slot := i, flying := fun _ => false } := by
        rw [hself, hleads, ← hcount]
        exact issue_req_self
      have hcount' : (s' p.dual).count = k + 1 := by
        rw [hself, ← hcount]
        rfl
      have hsame : (s' p.dual).word = (s p.dual).word ∧ (s' p.dual).created = (s p.dual).created := by
        rw [hself]
        exact ⟨rfl, rfl⟩
      refine ⟨h.congr (hdual ▸ h.leader) ⟨?_, fun hready => ?_, .inr ⟨hcount', ?_⟩⟩ ?_, hdual, hcount'⟩
      · rw [hsame.1, hdual]
        exact h.follower.word
      · rw [hself]
        exact h.follower.cache (hdual ▸ hready)
      · rw [hreq]
        exact ⟨rfl, rfl, fun hseen => absurd hseen Bool.false_ne_true⟩
      · exact forall_copy p (hdual ▸ ⟨rfl, rfl⟩) hsame
    · exact absurd (Nat.le_of_eq hcount.symm) hfirst

theorem landCopy_req {j m : Nat} : (landCopy x j t).req m = if m = j then landRequest (x.req j) t else x.req m :=
  update_apply ..

theorem landCopy_shadow {u : DualCopy} {m : Nat} : (landCopy x j t).shadow u m =
    if u = t ∧ m = (x.req j).slot then some j else x.shadow u m := by
  unfold landCopy
  dsimp only
  by_cases hu : u = t
  · rw [hu, update_self, update_apply]
    simp only [true_and]
  · rw [update_of_ne hu, if_neg fun h => hu h.1]

theorem Leads.land_self (h : Leads x k) : Leads (landCopy x k t) k := by
  have hreq : (landCopy x k t).req k = landRequest (x.req k) t := landCopy_req.trans (if_pos rfl)
  have hold : ∀ m < k, (landCopy x k t).req m = x.req m := fun m hm => landCopy_req.trans (if_neg (Nat.ne_of_lt hm))
  refine ⟨h.count, hreq ▸ h.leads, ?_, fun m hm hslot u => ?_, fun u hu => ?_, hreq ▸ h.user⟩
  · rw [hreq]
    unfold landRequest
    dsimp only
    by_cases ht : cmp = t
    · rw [ht, update_self, update_self]
      exact .inr rfl
    · rw [update_of_ne ht, update_of_ne ht]
      exact h.transfer
  · rw [hold m hm, hreq] at hslot
    rw [hold m hm]
    exact h.alone m hm hslot u
  · rw [hreq] at hu ⊢
    rw [landCopy_shadow]
    by_cases hut : u = t
    · exact if_pos ⟨hut, rfl⟩
    · rw [if_neg fun hfalse => hut hfalse.1]
      unfold landRequest at hu
      dsimp only at hu
      rw [update_of_ne hut] at hu
      exact h.data u hu

theorem Leads.land_earlier (h : Leads x k) (hj : j < k) (hflying : (x.req j).flying t = true) :
    Leads (landCopy x j t) k := by
  have hslot : (x.req k).slot ≠ (x.req j).slot := fun heq =>
    Bool.false_ne_true ((h.alone j hj heq.symm t).symm.trans hflying)
  have hreq : (landCopy x j t).req k = x.req k := landCopy_req.trans (if_neg (Nat.ne_of_gt hj))
  refine ⟨h.count, hreq ▸ h.leads, hreq ▸ h.transfer, fun m hm hslot' u => ?_, fun u hu => ?_, hreq ▸ h.user⟩
  · rw [hreq, landCopy_req] at hslot'
    rw [landCopy_req]
    by_cases hmj : m = j
    · rw [if_pos hmj] at hslot'
      exact absurd hslot'.symm hslot
    · rw [if_neg hmj] at hslot' ⊢
      exact h.alone m hm hslot' u
  · rw [hreq] at hu ⊢
    rw [landCopy_shadow, if_neg fun hfalse => hslot hfalse.2]
    exact h.data u hu

theorem Follows.congr {x y : RmaCopy} {ready : Bool} (h : Follows x k ready) (hword : y.word = x.word)
    (hcache : y.cache = x.cache) (hstatus : y.bufferStatus = x.bufferStatus) (hcount : y.count = x.count)
    (hleads : (y.req k).isLeader = (x.req k).isLeader) (hcomplete : (y.req k).complete = (x.req k).complete)
    (hseen : (y.req k).seen = true → (x.req k).seen = true ∨ ready = true) : Follows y k ready := by
  refine ⟨hword ▸ h.word, hcache ▸ h.cache, ?_⟩
  rw [hcount, hstatus, hleads, hcomplete]
  obtain hbefore | ⟨hafter, hleader, hpending, hready⟩ := h.call
  · exact .inl hbefore
  · exact .inr ⟨hafter, hleader, hpending, fun hs => (hseen hs).elim hready id⟩

theorem Open.land (h : s.Open k p) (hstep : s.land c q j t = some s') : s'.Open k p := by
  obtain ⟨hj, hflying, hself, hdual⟩ := land_cases hstep
  have hreq : ∀ m, (s' q).req m = if m = j then landRequest ((s q).req j) t else (s q).req m := fun m =>
    hself ▸ landCopy_req
  have hsame : (s' q).word = (s q).word ∧ (s' q).created = (s q).created := by
    rw [hself]
    exact ⟨rfl, rfl⟩
  have hboth := forall_copy (P := fun q => (s' q).word = (s q).word ∧ (s' q).created = (s q).created) q hsame
    (hdual ▸ ⟨rfl, rfl⟩)
  by_cases hq : q = p
  · subst hq
    have hcomplete : ((s' q).req k).complete = ((s q).req k).complete := by
      rw [hreq]
      split
      · rename_i hk
        rw [hk]
        rfl
      · rfl
    refine h.congr ?_ (hdual ▸ hcomplete ▸ h.follower) hboth
    rw [hself]
    by_cases hjk : j = k
    · exact hjk ▸ h.leader.land_self
    · rw [h.leader.count] at hj
      exact h.leader.land_earlier (by omega) hflying
  · obtain rfl := eq_dual_of_ne hq
    rw [dual_dual] at hdual
    refine h.congr (hdual ▸ h.leader) ?_ hboth
    have hfields : ((s' p.dual).req k).isLeader = ((s p.dual).req k).isLeader
        ∧ ((s' p.dual).req k).complete = ((s p.dual).req k).complete
        ∧ ((s' p.dual).req k).seen = ((s p.dual).req k).seen := by
      rw [hreq]
      split
      · rename_i hk
        rw [hk]
        exact ⟨rfl, rfl, rfl⟩
      · exact ⟨rfl, rfl, rfl⟩
    rw [hdual]
    refine h.follower.congr hsame.1 ?_ ?_ ?_ hfields.1 hfields.2.1 fun hseen => .inl (hfields.2.2 ▸ hseen)
    all_goals
      rw [hself]
      rfl

theorem Open.eq_of_pending (h : s.Open k p) (hdone : ∀ j < k, s.Done j) (hj : j < (s q).count)
    (hpending : ((s q).req j).complete = false) : j = k := by
  have hle : (s q).count ≤ k + 1 := by
    refine forall_copy (P := fun q => (s q).count ≤ k + 1) p (Nat.le_of_eq h.leader.count) ?_ q
    have hcall := h.follower.call
    omega
  have hge : ¬ j < k := fun hlt => Bool.false_ne_true (hpending.symm.trans ((hdone j hlt).complete q))
  omega

theorem Open.eq_dual (h : s.Open k p) (hfollows : ((s q).req k).isLeader = false) : q = p.dual :=
  eq_dual_of_ne fun hq => Bool.false_ne_true (hfollows.symm.trans (hq ▸ h.leader.leads))

theorem Leads.winning (h : Leads x k)
    (hlanded : ((x.req k).landed .cmp || (x.req k).landed .rep) = true) : winning x (x.req k) = some k := by
  unfold RmaWindow.winning
  split
  · rename_i hcmp
    exact h.data .cmp hcmp
  · rename_i hcmp
    exact h.data .rep ((Bool.or_eq_true _ _ ▸ hlanded).resolve_left hcmp)

theorem Open.test (h : s.Open k p) (hdone : ∀ j < k, s.Done j) (hstep : s.test (.paired mirrored) q j = some s') :
    s'.Open k p ∧ ((s' p).req k).complete = true := by
  obtain ⟨⟨hj, hleads, hpending, hlanded⟩, hself, hdual⟩ := test_cases hstep
  obtain rfl := h.eq_of_pending hdone hj hpending
  have hq : q = p := by
    by_contra hne
    obtain rfl := eq_dual_of_ne hne
    obtain ⟨hcount, -⟩ | ⟨-, hfollows, -⟩ := h.follower.call
    · omega
    · exact Bool.false_ne_true (hfollows.symm.trans hleads)
  subst hq
  rw [h.leader.winning hlanded] at hself hdual
  have hreq : (s' q).req j = { (s q).req j with user := some j, complete := true } := by
    rw [hself]
    exact update_self ..
  have hold : ∀ m < j, (s' q).req m = (s q).req m := by
    intro m hm
    rw [hself]
    exact update_of_ne (Nat.ne_of_lt hm) _ _
  refine ⟨⟨forall_copy q ?_ ?_, ⟨?_, ?_, ?_, fun m hm hslot t => ?_, fun t ht => ?_, fun _ => ?_⟩,
    ⟨?_, fun _ => ?_, ?_⟩, ?_, fun hp => ?_⟩, ?_⟩
  · rw [hself]
    exact h.created q
  · rw [hdual]
    exact h.created q.dual
  · rw [hself]
    exact h.leader.count
  · rw [hreq]
    exact h.leader.leads
  · rw [hreq]
    exact h.leader.transfer
  · rw [hold m hm, hreq] at hslot
    rw [hold m hm]
    exact h.leader.alone m hm hslot t
  · rw [hreq] at ht ⊢
    rw [hself]
    exact h.leader.data t ht
  · rw [hreq]
  · rw [hreq, hdual]
    exact ⟨fun _ => rfl, fun _ => rfl⟩
  · rw [hdual]
  · rw [hreq, hdual]
    obtain hbefore | ⟨hcount, hfollows, hpending', -⟩ := h.follower.call
    · exact .inl hbefore
    · exact .inr ⟨hcount, hfollows, hpending', fun _ => rfl⟩
  · cases q with
    | cmp =>
      rw [show (s' .rep).word = 2 from congrArg RmaCopy.word hdual]
      decide
    | rep =>
      rw [hself]
      exact h.word
  · subst hp
    rw [hself]
    exact h.own rfl
  · rw [hreq]

theorem Open.poll (h : s.Open k p) (hdone : ∀ j < k, s.Done j) (hstep : s.poll q j = some s') :
    s'.Open k p ∧ ((s' p.dual).req k).seen = true := by
  obtain ⟨⟨hj, hfollows, hpending, hword⟩, hself, hdual⟩ := poll_cases hstep
  obtain rfl := h.eq_of_pending hdone hj hpending
  obtain rfl := h.eq_dual hfollows
  rw [dual_dual] at hdual
  have hreq : (s' p.dual).req j = { (s p.dual).req j with seen := true } := by
    rw [hself]
    exact update_self ..
  have hsame : (s' p.dual).word = (s p.dual).word ∧ (s' p.dual).created = (s p.dual).created := by
    rw [hself]
    exact ⟨rfl, rfl⟩
  refine ⟨h.congr (hdual ▸ h.leader) ?_ (forall_copy p (hdual ▸ ⟨rfl, rfl⟩) hsame), by rw [hreq]⟩
  rw [hdual]
  refine h.follower.congr hsame.1 ?_ ?_ ?_ ?_ ?_ fun _ => .inr (h.follower.word.mp hword)
  · rw [hself]
  · rw [hself]
  · rw [hself]
  · rw [hreq]
  · rw [hreq]

theorem Open.take (h : s.Open k p) (hdone : ∀ j < k, s.Done j) (hstep : s.take q j = some s') :
    s'.Done k ∧ s'.Idle (k + 1) := by
  obtain ⟨⟨hj, hfollows, hpending, hseen⟩, hself, hdual⟩ := take_cases hstep
  obtain rfl := h.eq_of_pending hdone hj hpending
  obtain rfl := h.eq_dual hfollows
  rw [dual_dual] at hdual
  obtain ⟨hcount, -⟩ | ⟨hcount, -, -, hready⟩ := h.follower.call
  · omega
  have hcomplete := hready hseen
  have hreq : (s' p.dual).req j = { (s p.dual).req j with user := some j, complete := true } := by
    rw [hself, h.follower.cache hcomplete]
    exact update_self ..
  have hcounts : ∀ q, (s' q).count = j + 1 := by
    refine forall_copy p ?_ ?_
    · rw [hdual]
      exact h.leader.count
    · rw [hself]
      exact hcount
  have hleads : ((s' p).req j).isLeader = true := by
    rw [hdual]
    exact h.leader.leads
  have hfollows' : ((s' p.dual).req j).isLeader = false := by
    rw [hreq]
    exact hfollows
  refine ⟨⟨fun q => ?_, ?_, ?_, ?_⟩, ⟨hcounts, fun _ => ?_⟩⟩
  · rw [hcounts]
    exact Nat.lt_succ_self j
  · refine forall_copy p ?_ ?_
    · rw [hdual]
      exact hcomplete
    · rw [hreq]
  · refine forall_copy p ?_ ?_
    · rw [hdual]
      exact h.leader.user hcomplete
    · rw [hreq]
  · cases p with
    | cmp => rw [hleads, show ((s' .rep).req j).isLeader = false from hfollows']; rfl
    | rep => rw [hleads, show ((s' .cmp).req j).isLeader = false from hfollows']; rfl
  · cases p with
    | cmp =>
      rw [hdual]
      exact h.own rfl
    | rep => exact congrArg RmaCopy.word hself

theorem Idle.land (h : s.Idle k) (hstep : s.land c q j t = some s') : s'.Idle k := by
  obtain ⟨-, -, hself, hdual⟩ := land_cases hstep
  have hsame : ∀ q, (s' q).count = (s q).count ∧ (s' q).word = (s q).word ∧ (s' q).created = (s q).created := by
    refine forall_copy q ?_ ?_
    · rw [hself]
      exact ⟨rfl, rfl, rfl⟩
    · rw [hdual]
      exact ⟨rfl, rfl, rfl⟩
  exact ⟨fun q => (hsame q).1.trans (h.count q), fun hcreated =>
    (hsame .cmp).2.1.trans (h.word ((hsame .cmp).2.2 ▸ hcreated))⟩

theorem Idle.not_pending (h : s.Idle k) (hdone : ∀ j < k, s.Done j) (hj : j < (s q).count) :
    ((s q).req j).complete ≠ false := by
  rw [h.count] at hj
  rw [(hdone j hj).complete]
  decide

theorem ElectionInv.step (h : s.ElectionInv) (hguard : s.Orderly e)
    (hstep : step (.paired mirrored) s e = some s') : s'.ElectionInv := by
  obtain ⟨k, hdone, hstate⟩ := h
  have hdone' : ∀ j < k, s'.Done j := fun j hj => (hdone j hj).step hstep
  obtain hidle | ⟨p, hopen⟩ := hstate
  · cases e with
    | create q => exact ⟨k, hdone', .inl (hidle.create hstep)⟩
    | rget q => exact ⟨k, hdone', .inr ⟨q, hidle.rget hguard hstep⟩⟩
    | land q j t => exact ⟨k, hdone', .inl (hidle.land hstep)⟩
    | test q j =>
      obtain ⟨⟨hj, -, hpending, -⟩, -⟩ := test_cases hstep
      exact absurd hpending (hidle.not_pending hdone hj)
    | poll q j =>
      obtain ⟨⟨hj, -, hpending, -⟩, -⟩ := poll_cases hstep
      exact absurd hpending (hidle.not_pending hdone hj)
    | take q j =>
      obtain ⟨⟨hj, -, hpending, -⟩, -⟩ := take_cases hstep
      exact absurd hpending (hidle.not_pending hdone hj)
  · cases e with
    | create q => exact absurd ((create_cases hstep).1.symm.trans (hopen.created q)) Bool.false_ne_true
    | rget q => exact ⟨k, hdone', .inr ⟨p, (hopen.rget hguard hstep).1⟩⟩
    | land q j t => exact ⟨k, hdone', .inr ⟨p, hopen.land hstep⟩⟩
    | test q j => exact ⟨k, hdone', .inr ⟨p, (hopen.test hdone hstep).1⟩⟩
    | poll q j => exact ⟨k, hdone', .inr ⟨p, (hopen.poll hdone hstep).1⟩⟩
    | take q j =>
      obtain ⟨hlast, hidle⟩ := hopen.take hdone hstep
      refine ⟨k + 1, fun j hj => ?_, .inl hidle⟩
      obtain hj | rfl := Nat.lt_succ_iff_lt_or_eq.mp hj
      · exact hdone' j hj
      · exact hlast

def Completes (c : RmaConfig) (s : RmaWindow) (k : Nat) : Prop :=
  ∃ es s', runEvents (step c) s es = some s' ∧ ∀ q, k < (s' q).count ∧ ((s' q).req k).complete = true

theorem Completes.cons (hstep : step c s e = some s') (h : Completes c s' k) : Completes c s k := by
  obtain ⟨es, s'', hrun, hcomplete⟩ := h
  exact ⟨e :: es, s'', runEvents_cons.mpr ⟨s', hstep, hrun⟩, hcomplete⟩

theorem Done.completes (h : s.Done k) : Completes c s k := ⟨[], s, rfl, fun q => ⟨h.issued q, h.complete q⟩⟩

section

variable (h : s.Open k p) (hdone : ∀ j < k, s.Done j)

include h hdone

theorem Open.completes_of_called
    (hready : ((s p).req k).complete = true) (hcount : (s p.dual).count = k + 1) :
    Completes (.paired mirrored) s k := by
  have hk : k < (s p.dual).count := hcount ▸ Nat.lt_succ_self k
  obtain ⟨hbefore, -⟩ | ⟨-, hfollows, hpending, -⟩ := h.follower.call
  · omega
  obtain ⟨s₁, hpoll⟩ : ∃ s₁, s.poll p.dual k = some s₁ :=
    ⟨_, if_pos ⟨hk, hfollows, hpending, h.follower.word.mpr hready⟩⟩
  obtain ⟨hopen, hseen⟩ := h.poll hdone hpoll
  have hreq : (s₁ p.dual).req k = { (s p.dual).req k with seen := true } := by
    rw [(poll_cases hpoll).2.1]
    exact update_self ..
  have hcount' : (s₁ p.dual).count = k + 1 := by
    rw [(poll_cases hpoll).2.1]
    exact hcount
  obtain ⟨s₂, htake⟩ : ∃ s₂, s₁.take p.dual k = some s₂ := by
    refine ⟨_, if_pos ⟨hcount' ▸ Nat.lt_succ_self k, ?_, ?_, hseen⟩⟩
    · rw [hreq]
      exact hfollows
    · rw [hreq]
      exact hpending
  have hstep : step (.paired mirrored) s (.poll p.dual k) = some s₁ := hpoll
  have hdone' : ∀ j < k, s₁.Done j := fun j hj => (hdone j hj).step hstep
  exact Completes.cons hstep (Completes.cons (e := .take p.dual k) htake (hopen.take hdone' htake).1.completes)

theorem Open.completes_of_ready
    (hready : ((s p).req k).complete = true) : Completes (.paired mirrored) s k := by
  obtain ⟨hcount, hfree⟩ | ⟨hcount, -⟩ := h.follower.call
  · obtain ⟨i, hi⟩ := isSome_iff_exists.mp hfree
    obtain ⟨s₁, hrget⟩ : ∃ s₁, s.rget (.paired mirrored) p.dual = some s₁ :=
      ⟨_, (if_pos (h.created p.dual)).trans (bind_eq_some_iff.mpr ⟨i, hi, if_pos rfl⟩)⟩
    have hguard : s.Orderly (.rget p.dual) := by
      intro hle
      rw [dual_dual, h.leader.count, hcount] at hle
      omega
    obtain ⟨hopen, hsame, hcount'⟩ := h.rget hguard hrget
    have hdone' : ∀ j < k, s₁.Done j := fun j hj => (hdone j hj).step (e := .rget p.dual) hrget
    exact Completes.cons (e := .rget p.dual) hrget (hopen.completes_of_called hdone' (hsame ▸ hready) hcount')
  · exact h.completes_of_called hdone hready hcount

theorem Open.completes_of_landed
    (hlanded : ((s p).req k).landed .cmp = true) : Completes (.paired mirrored) s k := by
  cases hready : ((s p).req k).complete with
  | true => exact h.completes_of_ready hdone hready
  | false =>
    have hcan : k < (s p).count ∧ ((s p).req k).isLeader = true ∧ ((s p).req k).complete = false
        ∧ (((s p).req k).landed .cmp || ((s p).req k).landed .rep) = true :=
      ⟨h.leader.count ▸ Nat.lt_succ_self k, h.leader.leads, hready, by rw [hlanded, Bool.true_or]⟩
    obtain ⟨s₁, htest⟩ : ∃ s₁, s.test (.paired mirrored) p k = some s₁ := ⟨_, (if_pos hcan).trans (if_pos rfl)⟩
    obtain ⟨hopen, hready'⟩ := h.test hdone htest
    have hdone' : ∀ j < k, s₁.Done j := fun j hj => (hdone j hj).step (e := .test p k) htest
    exact Completes.cons (e := .test p k) htest (hopen.completes_of_ready hdone' hready')

theorem Open.completes : Completes (.paired mirrored) s k := by
  obtain hflying | hlanded := h.leader.transfer
  · obtain ⟨s₁, hland⟩ : ∃ s₁, s.land (.paired mirrored) p k .cmp = some s₁ :=
      ⟨_, if_pos ⟨h.leader.count ▸ Nat.lt_succ_self k, hflying, rfl⟩⟩
    have hlanded : ((s₁ p).req k).landed .cmp = true := by
      rw [(land_cases hland).2.2.1, landCopy_req, if_pos rfl]
      exact update_self cmp true ((s p).req k).landed
    have hstep : step (.paired mirrored) s (.land p k .cmp) = some s₁ := hland
    have hdone' : ∀ j < k, s₁.Done j := fun j hj => (hdone j hj).step hstep
    exact Completes.cons hstep ((h.land hland).completes_of_landed hdone' hlanded)
  · exact h.completes_of_landed hdone hlanded

end

/-- Of the two requests of a get exactly one leads; a get that was called for can be completed at both copies; and a
request that is complete has the data of its get. -/
structure Elected (c : RmaConfig) (s : RmaWindow) : Prop where
  one : ∀ k, k < (s .cmp).count → k < (s .rep).count → ((s .rep).req k).isLeader = !((s .cmp).req k).isLeader
  completes : ∀ p k, k < (s p).count → Completes c s k
  data : ∀ p k, k < (s p).count → ((s p).req k).complete = true → ((s p).req k).user = some k

theorem ElectionInv.elected (h : s.ElectionInv) : Elected (.paired mirrored) s := by
  obtain ⟨k, hdone, hidle | ⟨p, hopen⟩⟩ := h
  · have hcalled : ∀ q j, j < (s q).count → s.Done j := fun q j hj => hdone j (hidle.count q ▸ hj)
    exact ⟨fun j hj _ => (hcalled .cmp j hj).one, fun q j hj => (hcalled q j hj).completes,
      fun q j hj _ => (hcalled q j hj).user q⟩
  · have hcalled : ∀ q j, j < (s q).count → s.Done j ∨ j = k := by
      intro q j hj
      have hle : (s q).count ≤ k + 1 := by
        refine forall_copy (P := fun q => (s q).count ≤ k + 1) p (Nat.le_of_eq hopen.leader.count) ?_ q
        have hcall := hopen.follower.call
        omega
      obtain hlt | hge := Nat.lt_or_ge j k
      · exact .inl (hdone j hlt)
      · exact .inr (by omega)
    have hfollows : k < (s p.dual).count →
        ((s p.dual).req k).isLeader = false ∧ ((s p.dual).req k).complete = false := by
      intro hk
      obtain ⟨hcount, -⟩ | ⟨-, hfollows, hpending, -⟩ := hopen.follower.call
      · omega
      · exact ⟨hfollows, hpending⟩
    refine ⟨fun j hcmp hrep => ?_, fun q j hj => ?_, fun q j hj hcomplete => ?_⟩
    · obtain hj | rfl := hcalled .cmp j hcmp
      · exact hj.one
      · have hleads := hopen.leader.leads
        cases p with
        | cmp =>
          rw [hleads]
          exact (hfollows hrep).1
        | rep =>
          rw [hleads, show ((s .cmp).req j).isLeader = false from (hfollows hcmp).1]
          rfl
    · obtain hj | rfl := hcalled q j hj
      · exact hj.completes
      · exact hopen.completes hdone
    · obtain hj | rfl := hcalled q j hj
      · exact hj.user q
      · by_cases hq : q = p
        · subst hq
          exact hopen.leader.user hcomplete
        · obtain rfl := eq_dual_of_ne hq
          exact absurd ((hfollows hj).2.symm.trans hcomplete) Bool.false_ne_true

theorem electionInv_initial (word : DualCopy → Nat) : (initial word).ElectionInv :=
  ⟨0, fun j hj => absurd hj (Nat.not_lt_zero j), .inl ⟨fun _ => rfl, fun hcreated => absurd hcreated Bool.false_ne_true⟩⟩

/-- In every run in which the gets are made one at a time, from a status word that is 0, each of them has one leader, can
be completed at both copies, and brings its own data. -/
theorem leader_elected (mirrored : Nat → Bool) (word : DualCopy → Nat) (es : List RmaEvent)
    (hguard : Guarded (step (.paired mirrored)) Orderly (initial word) es)
    (hrun : runEvents (step (.paired mirrored)) (initial word) es = some s) :
    Elected (.paired mirrored) s :=
  (hguard.invariant hrun (electionInv_initial word) fun h hm hstep => h.step hm hstep).elected

/-- Two gets that the compute process leads, and one that the replica leads. -/
def threeGets : List RmaEvent :=
  [.create .rep, .create .cmp, .rget .cmp, .land .cmp 0 .rep, .test .cmp 0, .rget .rep, .poll .rep 0, .land .cmp 0 .cmp,
    .take .rep 0, .rget .cmp, .rget .rep, .land .cmp 1 .cmp, .land .cmp 1 .rep, .test .cmp 1, .poll .rep 1, .take .rep 1,
    .rget .rep, .rget .cmp, .land .rep 2 .cmp, .test .rep 2, .poll .cmp 2, .take .cmp 2]

theorem threeGets_elected : ∃ s, runEvents (step (.paired fun _ => true)) (initial fun _ => 1) threeGets = some s
    ∧ ((s .rep).req 1).user = some 1 ∧ ((s .cmp).req 2).user = some 2 ∧ Elected (.paired fun _ => true) s := by
  refine exists_run_imp (P := fun s => ((s .rep).req 1).user = some 1 ∧ ((s .cmp).req 2).user = some 2)
    (by decide +kernel) ?_
  exact fun s hs husers => ⟨husers.1, husers.2, leader_elected _ _ threeGets (by decide +kernel) hs⟩

def replicaLeads : List RmaEvent :=
  [.create .cmp, .create .rep, .rget .rep, .rget .cmp, .land .rep 0 .cmp, .test .rep 0, .poll .cmp 0, .take .cmp 0,
    .rget .cmp, .rget .rep]

/-- The replica leads a get, and its status word stays 1, so that both requests of the next get follow. -/
theorem replicaLeads_then_no_leader : ∃ s, runEvents (step (.paired fun _ => true)) (initial fun _ => 1) replicaLeads = some s
    ∧ ((s .cmp).req 1).isLeader = false ∧ ((s .rep).req 1).isLeader = false ∧ ¬ Elected (.paired fun _ => true) s := by
  refine exists_run_imp (P := fun s => ((s .cmp).req 1).isLeader = false ∧ ((s .rep).req 1).isLeader = false ∧
    1 < (s .cmp).count ∧ 1 < (s .rep).count) (by decide +kernel) ?_
  intro s _ hfacts
  obtain ⟨hcmp, hrep, hcount, hcount'⟩ := hfacts
  refine ⟨hcmp, hrep, fun h => ?_⟩
  have hone := h.one 1 hcount hcount'
  rw [hcmp, hrep] at hone
  cases hone

end RmaWindow

end ParepMpi
