import ParepMpi.Coordinator.Barrier

/-!
# What a coordinator does about failures it meets in a barrier

The loops over the ranks as one equation each.
-/

namespace ParepMpi

open List

theorem foldl_filter_range_succ {σ : Type*} {p : Nat → Bool} {n : Nat} (f : σ → Nat → σ) (x : σ) :
    ((range (n + 1)).filter p).foldl f x =
      if p n then f (((range n).filter p).foldl f x) n else ((range n).filter p).foldl f x := by
  rw [range_succ, filter_append]
  cases hp : p n
  all_goals simp [hp]

namespace Coordinator

variable {l : Nodes} {c : Coordinator} {p q out : Nat → Bool} {n v i : Nat} {b : Bool} {k : Int}

/-- The coordinator after `k` processes have been taken out of its count. -/
def strikeOff (b : Bool) (out : Nat → Bool) (k : Int) (c : Coordinator) : Coordinator :=
  { c with
    recvRank := fun r => c.recvRank r && !out r
    localReached := c.localReached + k
    reached := if b then c.reached + k else c.reached
    count := c.count - k
    groupCount := if b then c.groupCount - k else c.groupCount }

theorem strikeOff_congr (h : ∀ r, c.recvRank r = true → out r = q r) : c.strikeOff b out k = c.strikeOff b q k := by
  have hrecv : (fun r => c.recvRank r && !out r) = fun r => c.recvRank r && !q r := by
    funext r
    cases hr : c.recvRank r
    · rfl
    · rw [h r hr]
  rw [strikeOff, strikeOff, hrecv]

theorem strikeOff_zero (h : ∀ r, c.recvRank r = true → out r = false) : c.strikeOff b out 0 = c := by
  rw [strikeOff_congr (q := fun _ => false) h]
  simp [strikeOff]

theorem strike_strikeOff (hrecv : c.recvRank i = true) (hterm : c.terminated i = true) (hi : out i = false) :
    strike b (c.strikeOff b out k) i = c.strikeOff b (fun r => out r || r == i) (k + 1) := by
  have hout : (Function.update (fun r => c.recvRank r && !out r) i false) =
      fun r => c.recvRank r && !(out r || r == i) := by
    funext r
    by_cases hr : r = i
    · simp [hr]
    · simp [hr, beq_false_of_ne hr]
  rw [strike, if_pos (by simp [strikeOff, hrecv, hterm, hi])]
  simp only [strikeOff, hout]
  cases b
  · simp only [Bool.false_eq_true, if_false, mk.injEq, and_true, true_and]
    omega
  · simp only [if_true, mk.injEq, and_true, true_and]
    omega

theorem strike_of_not (h : (c.recvRank i && c.terminated i) = false) : strike b c i = c := by
  rw [strike, if_neg (by simp [h])]

/-- The ranks below a bound which are looked at and are to be taken out of the count. -/
def leaving (p : Nat → Bool) (c : Coordinator) (r : Nat) : Bool := p r && c.recvRank r && c.terminated r

theorem below_succ (q : Nat → Bool) (r : Nat) :
    (decide (r < n + 1) && q r) = (decide (r < n) && q r || r == n && q n) := by
  rcases lt_trichotomy r n with h | rfl | h
  · simp [h, beq_false_of_ne h.ne, Nat.lt_succ_of_lt h]
  · simp
  · simp [not_lt.mpr h.le, not_lt.mpr (Nat.succ_le_of_lt h), beq_false_of_ne h.ne']

theorem foldl_strike : ((range n).filter p).foldl (strike b) c =
    c.strikeOff b (fun r => r < n && leaving p c r) (tally (leaving p c) n) := by
  induction n with
  | zero => exact (strikeOff_zero fun r _ => by simp).symm
  | succ n ih =>
    rw [foldl_filter_range_succ, ih, tally_succ, strikeOff_congr fun r _ => below_succ (leaving p c) r]
    cases hn : leaving p c n
    · have hstop : (if p n then strike b (c.strikeOff b (fun r => r < n && leaving p c r) (tally (leaving p c) n)) n
          else c.strikeOff b (fun r => r < n && leaving p c r) (tally (leaving p c) n)) =
          c.strikeOff b (fun r => r < n && leaving p c r) (tally (leaving p c) n) := by
        split
        · rename_i hp
          apply strike_of_not
          simpa [leaving, hp, strikeOff] using hn
        · rfl
      rw [hstop]
      simp
    · have hall : p n = true ∧ c.recvRank n = true ∧ c.terminated n = true := by
        simpa [leaving, and_assoc] using hn
      rw [if_pos hall.1, strike_strikeOff hall.2.1 hall.2.2 (by simp)]
      simp

theorem localScan_eq : c.localScan l v =
    c.strikeOff (l.leads v) (fun r => r < l.size && leaving (fun r => l.nodeOf r = v) c r)
      (tally (leaving (fun r => l.nodeOf r = v) c) l.size) :=
  foldl_strike

def unannounced (c : Coordinator) (r : Nat) : Bool := !c.informCheck r && c.terminated r

/-- The main coordinator after `k` processes have been taken out of its count. -/
def takeOff (out : Nat → Bool) (k reached : Int) (c : Coordinator) : Coordinator :=
  { c with recvRank := fun r => c.recvRank r && !out r, count := c.count - k, reached := reached }

def leavingMain (p : Nat → Bool) (c : Coordinator) (r : Nat) : Bool := p r && c.unannounced r && c.recvRank r

theorem takeOff_congr {reached : Int} (h : ∀ r, c.recvRank r = true → out r = q r) :
    c.takeOff out k reached = c.takeOff q k reached := by
  have hrecv : (fun r => c.recvRank r && !out r) = fun r => c.recvRank r && !q r := by
    funext r
    cases hr : c.recvRank r
    · rfl
    · rw [h r hr]
  rw [takeOff, takeOff, hrecv]

theorem takeOff_zero (h : ∀ r, c.recvRank r = true → out r = false) : c.takeOff out 0 c.reached = c := by
  rw [takeOff_congr (q := fun _ => false) h]
  simp [takeOff]

theorem takeOff_takeOff (c : Coordinator) (out : Nat → Bool) (i : Nat) (k reached reached' : Int) :
    { c.takeOff out k reached with
      recvRank := Function.update (c.takeOff out k reached).recvRank i false
      count := (c.takeOff out k reached).count - 1
      reached := reached' } = c.takeOff (fun r => out r || r == i) (k + 1) reached' := by
  have hout : (Function.update (fun r => c.recvRank r && !out r) i false) =
      fun r => c.recvRank r && !(out r || r == i) := by
    funext r
    by_cases hr : r = i
    · simp [hr]
    · simp [hr, beq_false_of_ne hr]
  simp only [takeOff, hout, mk.injEq, and_true, true_and]
  omega

section

variable {reached : Int} {failFound found : Bool}

theorem strikeOwn_leaving (hun : c.unannounced i = true) (hrecv : c.recvRank i = true) (hi : out i = false) :
    strikeOwn (c.takeOff out k reached, failFound, found) i =
      (c.takeOff (fun r => out r || r == i) (k + 1) (if reached ≠ 0 then 1 else reached), true, found) := by
  have hcond : (!(c.takeOff out k reached).informCheck i && (c.takeOff out k reached).recvRank i &&
      (c.takeOff out k reached).terminated i) = true := by
    simpa [takeOff, hrecv, hi, unannounced] using hun
  rw [strikeOwn, if_pos hcond, takeOff_takeOff]
  rfl

theorem strikeOwn_absent (hun : c.unannounced i = true) (hrecv : c.recvRank i = false) :
    strikeOwn (c.takeOff out k reached, failFound, found) i = (c.takeOff out k reached, true, true) := by
  rw [strikeOwn, if_neg (by simp [takeOff, hrecv])]
  exact if_pos hun

theorem strikeOwn_of_not (hun : c.unannounced i = false) :
    strikeOwn (c.takeOff out k reached, failFound, found) i = (c.takeOff out k reached, failFound, found) := by
  have hun' : ¬ c.unannounced i = true := by simp [hun]
  have hrecv : ¬ (!(c.takeOff out k reached).informCheck i && (c.takeOff out k reached).recvRank i &&
      (c.takeOff out k reached).terminated i) = true := by
    intro h
    apply hun'
    simp only [takeOff, Bool.and_eq_true] at h
    simp [unannounced, h.1.1, h.2]
  rw [strikeOwn, if_neg hrecv]
  exact if_neg hun'

end

theorem foldl_strikeOwn (x : Coordinator × Bool × Bool)
    (hx : ((range n).filter p).foldl strikeOwn (c, false, false) = x) :
    (∃ reached, x.1 = c.takeOff (fun r => r < n && leavingMain p c r) (tally (leavingMain p c) n) reached ∧
        (x.2.1 = true → x.2.2 = true ∨ reached ≠ -1)) ∧
      (x.2.1 = true → ∃ i < n, p i = true ∧ c.unannounced i = true) ∧
      (x.2.1 = false → x = (c, false, false) ∧ ∀ i < n, p i = true → c.unannounced i = false) := by
  induction n generalizing x with
  | zero =>
    obtain rfl := hx
    refine ⟨⟨c.reached, (takeOff_zero fun r _ => by simp).symm, by simp⟩, by simp, fun _ => ⟨rfl, by omega⟩⟩
  | succ n ih =>
    rw [foldl_filter_range_succ] at hx
    obtain ⟨⟨reached, hy, hreached⟩, hfound, hnone⟩ := ih _ rfl
    generalize ((range n).filter p).foldl strikeOwn (c, false, false) = y at *
    obtain ⟨d, failFound, found⟩ := y
    obtain rfl : d = _ := hy
    simp only [takeOff_congr fun r _ => below_succ (leavingMain p c) r, tally_succ]
    have hfound' : failFound = true → ∃ i < n + 1, p i = true ∧ c.unannounced i = true := by
      intro h
      obtain ⟨i, hi, hi'⟩ := hfound h
      exact ⟨i, Nat.lt_succ_of_lt hi, hi'⟩
    -- A rank that is looked at and has failed is found; it is taken out when its arrival was counted.
    by_cases hn : p n = true ∧ c.unannounced n = true
    · rw [if_pos hn.1] at hx
      cases hrecv : c.recvRank n
      · rw [strikeOwn_absent hn.2 hrecv] at hx
        obtain rfl := hx
        refine ⟨⟨reached, ?_, fun _ => .inl rfl⟩, fun _ => ⟨n, Nat.lt_succ_self n, hn⟩, by simp⟩
        simp [leavingMain, hrecv]
      · rw [strikeOwn_leaving hn.2 hrecv (by simp)] at hx
        obtain rfl := hx
        refine ⟨⟨if reached ≠ 0 then 1 else reached, ?_, fun _ => .inr ?_⟩, fun _ => ⟨n, Nat.lt_succ_self n, hn⟩,
          by simp⟩
        · simp [leavingMain, hn.1, hn.2, hrecv]
        · split
          · decide
          · omega
    · have hstay : x = (c.takeOff (fun r => r < n && leavingMain p c r) (tally (leavingMain p c) n) reached,
          failFound, found) := by
        rw [← hx]
        split
        · rename_i hp
          apply strikeOwn_of_not
          simpa [hp] using hn
        · rfl
      have hleave : leavingMain p c n = false := by
        simp only [leavingMain]
        cases hp : p n
        · rfl
        · simp [show c.unannounced n = false by simpa [hp] using hn]
      subst hstay
      refine ⟨⟨reached, by simp [hleave], hreached⟩, hfound', ?_⟩
      intro h
      obtain ⟨heq, hnot⟩ := hnone h
      refine ⟨heq, ?_⟩
      intro i hi hpi
      rcases Nat.lt_succ_iff_lt_or_eq.mp hi with hlt | rfl
      · exact hnot i hlt hpi
      · simpa [hpi] using hn

theorem foldl_strikeOther : (((range n).filter p).foldl strikeOther c = c ∧
        (c.reached = -1 → ∀ r < n, p r = true → c.unannounced r = true → c.recvRank r = false)) ∨
      c.reached = -1 ∧ ∃ i < n, p i = true ∧ c.unannounced i = true ∧ c.recvRank i = true ∧
        ((range n).filter p).foldl strikeOther c = c.takeOff (fun r => r == i) 1 1 := by
  induction n with
  | zero => exact .inl ⟨rfl, by omega⟩
  | succ n ih =>
    rw [foldl_filter_range_succ]
    rcases ih with ⟨heq, hnone⟩ | ⟨hreached, i, hi, hp, hun, hrecv, heq⟩
    · rw [heq]
      by_cases hn : p n = true ∧ (!c.informCheck n && c.terminated n && c.recvRank n && c.reached = -1) = true
      · obtain ⟨hp, hcond⟩ := hn
        have hall := hcond
        simp only [Bool.and_eq_true, decide_eq_true_eq] at hall
        refine .inr ⟨hall.2, n, Nat.lt_succ_self n, hp, by simp [unannounced, hall.1.1], hall.1.2, ?_⟩
        have htake := takeOff_takeOff c (fun _ => false) n 0 c.reached 1
        rw [takeOff_zero fun _ _ => rfl] at htake
        rw [if_pos hp, strikeOther, if_pos hcond, htake]
        simp
      · refine .inl ⟨?_, ?_⟩
        · split
          · rename_i hp
            rw [strikeOther, if_neg fun h => hn ⟨hp, h⟩]
          · rfl
        · intro hreached r hr hp hun
          rcases Nat.lt_succ_iff_lt_or_eq.mp hr with hlt | rfl
          · exact hnone hreached r hlt hp hun
          · by_contra hrecv
            apply hn
            simp only [unannounced, Bool.and_eq_true] at hun
            simpa [hp, hun.1, hun.2, hreached] using hrecv
    · refine .inr ⟨hreached, i, Nat.lt_succ_of_lt hi, hp, hun, hrecv, ?_⟩
      rw [heq]
      split
      · rw [strikeOther, if_neg (by simp [takeOff])]
      · rfl

inductive MainScan (l : Nodes) (c : Coordinator) : Coordinator → Prop
  /-- There are failures on its node. -/
  | own (i : Nat) (reached : Int) (hi : i < l.size) (hown : l.nodeOf i = 0) (hun : c.unannounced i = true)
      (hreached : reached ≠ -1) :
      MainScan l c (c.takeOff (fun r => r < l.size && leavingMain (fun r => l.nodeOf r = 0) c r)
        (tally (leavingMain (fun r => l.nodeOf r = 0) c) l.size) reached)
  /-- There are none, and the first one on another node is taken out. -/
  | other (i : Nat) (hi : i < l.size) (hother : l.nodeOf i ≠ 0) (hun : c.unannounced i = true)
      (hrecv : c.recvRank i = true) (hreached : c.reached = -1)
      (hown : ∀ r < l.size, l.nodeOf r = 0 → c.unannounced r = false) :
      MainScan l c (c.takeOff (fun r => r == i) 1 1)
  /-- There are none, and none on another node is to be taken out. -/
  | rest (hown : ∀ r < l.size, l.nodeOf r = 0 → c.unannounced r = false)
      (hother : c.reached = -1 → ∀ r < l.size, l.nodeOf r ≠ 0 → c.unannounced r = true → c.recvRank r = false) :
      MainScan l c c

theorem mainScan_cases : MainScan l c (c.mainScan l) := by
  obtain ⟨⟨reached, hfst, hreached⟩, hfound, hnone⟩ :=
    foldl_strikeOwn (n := l.size) (p := fun r => l.nodeOf r = 0) (c := c) _ rfl
  unfold mainScan Nodes.ranksOf
  generalize ((range l.size).filter fun r => decide (l.nodeOf r = 0)).foldl strikeOwn (c, false, false) = x at *
  obtain ⟨d, failFound, found⟩ := x
  cases failFound
  · obtain ⟨heq, hown⟩ := hnone rfl
    obtain ⟨rfl, rfl⟩ : d = c ∧ found = false := by simpa using heq
    have hown' : ∀ r < l.size, l.nodeOf r = 0 → d.unannounced r = false := by simpa using hown
    change MainScan l d (l.otherRanks.foldl strikeOther d)
    unfold Nodes.otherRanks
    rcases foldl_strikeOther (n := l.size) (p := fun r => l.nodeOf r ≠ 0) (c := d) with
      ⟨hall, hother⟩ | ⟨hneg, i, hi, hp, hun, hrecv, hall⟩
    · rw [hall]
      exact MainScan.rest hown' (by simpa using hother)
    · rw [hall]
      exact MainScan.other i hi (by simpa using hp) hun hrecv hneg hown'
  · obtain ⟨i, hi, hp, hun⟩ := hfound rfl
    obtain rfl : d = _ := hfst
    cases found
    · have hne : reached ≠ -1 := by simpa using hreached rfl
      exact MainScan.own i reached hi (by simpa using hp) hun hne
    · exact MainScan.own i 0 hi (by simpa using hp) hun (by decide)

end Coordinator

end ParepMpi
