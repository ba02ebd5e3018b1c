import ParepMpi.Store.Maps

/-!
# The counters of new ids

The coordinators give out new ids from counters of their own. Those of rkeys, queue pairs and protection domains run
through disjoint ranges of 32-bit numbers, those of lids through the residues of the number of nodes; in both cases an
id belongs to one node, and the counter of that node is past every id of its own that is in use.
-/

namespace ParepMpi

open Function IdStores

section Owned

variable {α : Type} {val : α → Nat} {owns : Nat → Nat → Prop} {n v : Nat} {cur cur' : Nat → α} {used used' : List α}
  {key : α}

/-- Every used number lies behind the counter of the one who owns it. -/
def Owned (val : α → Nat) (owns : Nat → Nat → Prop) (n : Nat) (cur : Nat → α) (used : List α) : Prop :=
  ∀ u < n, ∀ x ∈ used, owns u (val x) → val x < val (cur u)

theorem Owned.empty : Owned val owns n cur [] := by
  intro u _ x hx
  contradiction

theorem Owned.fresh (h : Owned val owns n cur used) (hv : v < n) (hown : owns v (val (cur v))) : cur v ∉ used := by
  intro hmem
  exact absurd (h v hv _ hmem hown) (Nat.lt_irrefl _)

theorem Owned.mono (h : Owned val owns n cur used) (hused : ∀ x ∈ used', x ∈ used) : Owned val owns n cur used' :=
  fun u hu x hx => h u hu x (hused x hx)

theorem Owned.insert (h : Owned val owns n cur used) (hcur : ∀ u < n, val (cur u) ≤ val (cur' u))
    (hkey : ∀ u < n, owns u (val key) → val key < val (cur' u)) (hused : ∀ x ∈ used', x ∈ used ∨ x = key) :
    Owned val owns n cur' used' := by
  intro u hu x hx hown
  rcases hused x hx with hold | rfl
  · exact Nat.lt_of_lt_of_le (h u hu x hold hown) (hcur u hu)
  · exact hkey u hu hown

theorem le_update {c : α} (hle : val (cur v) ≤ val c) (u : Nat) : val (cur u) ≤ val (update cur v c u) := by
  by_cases huv : u = v
  · subst huv
    rwa [update_self]
  · exact Nat.le_of_eq (by rw [update_of_ne huv])

end Owned

section Lims

theorem bitLength_spec {fuel temp : Nat} (h : temp ≤ fuel) : temp < 2 ^ bitLength fuel temp := by
  induction fuel generalizing temp with
  | zero =>
    rw [bitLength]
    omega
  | succ fuel ih =>
    rw [bitLength]
    split
    · omega
    · have := ih (show temp / 2 ≤ fuel by omega)
      omega

theorem bitLength_le {fuel temp b : Nat} (h : temp < 2 ^ b) : bitLength fuel temp ≤ b := by
  induction fuel generalizing temp b with
  | zero => exact Nat.zero_le b
  | succ fuel ih =>
    rw [bitLength]
    split
    · exact Nat.zero_le b
    · cases b with
      | zero => omega
      | succ b =>
        have := ih (show temp / 2 < 2 ^ b by omega)
        omega

variable {n u width : Nat}

theorem lt_reserveBits (hu : u < n) : u < 2 ^ reserveBits n := by
  unfold reserveBits
  split
  · omega
  · have := bitLength_spec (show n - 1 ≤ n by omega)
    omega

theorem reserveBits_le (hn : n ≤ 2 ^ width) (hwidth : 0 < width) : reserveBits n ≤ width := by
  unfold reserveBits
  split
  · exact hwidth
  · apply bitLength_le
    have := Nat.two_pow_pos width
    omega

structure Fits (width n : Nat) : Prop where
  le : n ≤ 2 ^ width
  pos : 0 < width
  wide : width ≤ 32

def rangeSize (width n : Nat) : Nat := 2 ^ (width - reserveBits n)

theorem rangeSize_pos (width n : Nat) : 0 < rangeSize width n := Nat.two_pow_pos _

theorem idLims_spec (hu : u < n) (hfit : Fits width n) : (idLims width n u).1.toNat = u * rangeSize width n ∧
      (idLims width n u).2.toNat = u * rangeSize width n + (rangeSize width n - 1) := by
  have hbits := reserveBits_le hfit.le hfit.pos
  have hsplit : 2 ^ width = 2 ^ reserveBits n * rangeSize width n := by
    rw [rangeSize, ← Nat.pow_add]
    congr 1
    omega
  have hle : (u + 1) * rangeSize width n ≤ 2 ^ width := by
    rw [hsplit]
    exact Nat.mul_le_mul_right _ (lt_reserveBits hu)
  have hmax : 2 ^ width ≤ 2 ^ 32 := Nat.pow_le_pow_right (by decide) hfit.wide
  have hsize := rangeSize_pos width n
  have hmul : (u + 1) * rangeSize width n = u * rangeSize width n + rangeSize width n := Nat.succ_mul _ _
  have hlow : (UInt32.ofNat (u <<< (width - reserveBits n))).toNat = u * rangeSize width n := by
    rw [Nat.shiftLeft_eq]
    exact Nat.mod_eq_of_lt (by change u * rangeSize width n < 2 ^ 32; omega)
  have hmask : (2 ^ width - 1) >>> reserveBits n = rangeSize width n - 1 := by
    rw [Nat.shiftRight_eq_div_pow, hsplit]
    have hp := Nat.two_pow_pos (reserveBits n)
    have heq : 2 ^ reserveBits n * rangeSize width n - 1 =
        (2 ^ reserveBits n - 1) + 2 ^ reserveBits n * (rangeSize width n - 1) := by
      have := Nat.mul_sub_one (2 ^ reserveBits n) (rangeSize width n)
      have := Nat.le_mul_of_pos_right (2 ^ reserveBits n) hsize
      omega
    rw [heq, Nat.add_mul_div_left _ _ hp, Nat.div_eq_of_lt (by omega), zero_add]
  refine ⟨hlow, ?_⟩
  change (UInt32.ofNat (u <<< (width - reserveBits n)) ||| _).toNat = _
  rw [UInt32.toNat_or, hlow, hmask, UInt32.toNat_ofNat', Nat.mod_eq_of_lt (by omega)]
  have hor := Nat.shiftLeft_add_eq_or_of_lt (i := width - reserveBits n) (b := rangeSize width n - 1)
    (by change _ < rangeSize width n; omega) u
  rw [Nat.shiftLeft_eq] at hor
  exact hor.symm

def inBlock (size u k : Nat) : Prop := u * size ≤ k ∧ k < (u + 1) * size

theorem inBlock_unique {size u v k : Nat} (hu : inBlock size u k) (hv : inBlock size v k) : u = v := by
  have h1 := Nat.lt_of_mul_lt_mul_right (Nat.lt_of_le_of_lt hu.1 hv.2)
  have h2 := Nat.lt_of_mul_lt_mul_right (Nat.lt_of_le_of_lt hv.1 hu.2)
  omega

variable {k : UInt32}

theorem inBlock_iff (hu : u < n) (hfit : Fits width n) :
    inBlock (rangeSize width n) u k.toNat ↔ (idLims width n u).1 ≤ k ∧ k ≤ (idLims width n u).2 := by
  obtain ⟨hlow, hhigh⟩ := idLims_spec hu hfit
  have hsize := rangeSize_pos width n
  have hmul : (u + 1) * rangeSize width n = u * rangeSize width n + rangeSize width n := Nat.succ_mul _ _
  rw [inBlock, UInt32.le_iff_toNat_le, UInt32.le_iff_toNat_le]
  omega

theorem toNat_add_one (h : k ≠ -1) : (k + 1).toNat = k.toNat + 1 := by
  have hne : k.toNat ≠ 2 ^ 32 - 1 := fun heq => h (UInt32.toNat_inj.mp (by rw [heq]; rfl))
  have hlt := k.toNat_lt
  exact Nat.mod_eq_of_lt (by change k.toNat + 1 < _; omega)

theorem bump_spec {key current : UInt32} (hu : u < n) (hfit : Fits width n) (hreal : key ≠ -1)
    (hcur : u * rangeSize width n ≤ current.toNat ∧ current.toNat ≤ (u + 1) * rangeSize width n) :
    current.toNat ≤ (bump (idLims width n u) key current).toNat ∧
      (inBlock (rangeSize width n) u key.toNat → key.toNat < (bump (idLims width n u) key current).toNat) ∧
      u * rangeSize width n ≤ (bump (idLims width n u) key current).toNat ∧
      (bump (idLims width n u) key current).toNat ≤ (u + 1) * rangeSize width n := by
  have hblock := inBlock_iff (k := key) hu hfit
  unfold bump
  split
  · rename_i hin
    have hlt := hblock.mpr hin.2
    rw [toNat_add_one hreal]
    have hle := UInt32.le_iff_toNat_le.mp hin.1
    unfold inBlock at hlt ⊢
    omega
  · rename_i hout
    refine ⟨Nat.le_refl _, ?_, hcur⟩
    intro hin
    by_contra hle
    exact hout ⟨UInt32.le_iff_toNat_le.mpr (by omega), hblock.mp hin⟩

end Lims

section Counters

/-- The counters of the ids that come from ranges: each is in its range or right behind it, and past every used id of
the range. -/
structure Counters (width n : Nat) (current : Nat → UInt32) (used : List UInt32) : Prop where
  range : ∀ u < n, u * rangeSize width n ≤ (current u).toNat ∧ (current u).toNat ≤ (u + 1) * rangeSize width n
  owned : Owned UInt32.toNat (inBlock (rangeSize width n)) n current used

def Within (lims : UInt32 × UInt32) (current : UInt32) : Prop := current ≤ lims.2 ∧ current ≠ -1

variable {width n v : Nat} {current : Nat → UInt32} {used used' : List UInt32} {key c : UInt32}

theorem Counters.init (hfit : Fits width n) : Counters width n (fun u => (idLims width n u).1) [] where
  range := by
    intro u hu
    rw [(idLims_spec hu hfit).1, Nat.succ_mul]
    omega
  owned := .empty

namespace Counters

variable (h : Counters width n current used) (hv : v < n)

include h

theorem move (hrange : v * rangeSize width n ≤ c.toNat ∧ c.toNat ≤ (v + 1) * rangeSize width n)
    (hle : (current v).toNat ≤ c.toNat)
    (hpast : ∀ u < n, inBlock (rangeSize width n) u key.toNat → key.toNat < (update current v c u).toNat)
    (hused : ∀ x ∈ used', x ∈ used ∨ x = key) : Counters width n (update current v c) used' where
  range := by
    intro u hu
    by_cases huv : u = v
    · subst huv
      rwa [update_self]
    · rw [update_of_ne huv]
      exact h.range u hu
  owned := h.owned.insert (fun u _ => le_update hle u) hpast hused

theorem keep (hc : c = current v) (hused : ∀ x ∈ used', x ∈ used) : Counters width n (update current v c) used' := by
  rw [hc, update_eq_self]
  exact ⟨h.range, h.owned.mono hused⟩

theorem use (hv : v < n) (hc : c = current v) (hfit : Fits width n)
    (hpast : ∀ u < n, (idLims width n u).1 ≤ key → key ≤ (idLims width n u).2 → key < current u)
    (hused : ∀ x ∈ used', x ∈ used ∨ x = key) : Counters width n (update current v c) used' := by
  refine h.move ?_ (Nat.le_of_eq (by rw [hc])) ?_ hused
  · rw [hc]
    exact h.range v hv
  · intro u hu hin
    rw [hc, update_eq_self]
    have hlims := (inBlock_iff hu hfit).mp hin
    exact UInt32.lt_iff_toNat_lt.mp (hpast u hu hlims.1 hlims.2)

variable (hfit : Fits width n)

include hv hfit

section

variable (hwithin : Within (idLims width n v) (current v))

include hwithin

theorem inBlock_current : inBlock (rangeSize width n) v (current v).toNat := by
  rw [inBlock_iff hv hfit, UInt32.le_iff_toNat_le, (idLims_spec hv hfit).1]
  exact ⟨(h.range v hv).1, hwithin.1⟩

theorem fresh :
    (idLims width n v).1 ≤ current v ∧ current v ≤ (idLims width n v).2 ∧ current v ∉ used ∧ current v ≠ -1 := by
  have hin := h.inBlock_current hv hfit hwithin
  exact ⟨((inBlock_iff hv hfit).mp hin).1, hwithin.1, h.owned.fresh hv hin, hwithin.2⟩

theorem alloc (hused : ∀ x ∈ used', x ∈ used ∨ x = current v) :
    Counters width n (update current v (current v + 1)) used' := by
  have hin := h.inBlock_current hv hfit hwithin
  have hnext := toNat_add_one hwithin.2
  unfold inBlock at hin
  refine h.move (by omega) (by omega) ?_ hused
  intro u hu hu'
  rw [inBlock_unique hu' hin, update_self]
  omega

end

theorem store (hreal : key ≠ -1)
    (hpast : ∀ u < n, u ≠ v → (idLims width n u).1 ≤ key → key ≤ (idLims width n u).2 → key < current u)
    (hused : ∀ x ∈ used', x ∈ used ∨ x = key) :
    Counters width n (update current v (bump (idLims width n v) key (current v))) used' := by
  obtain ⟨hle, hown, hlow, hhigh⟩ := bump_spec hv hfit hreal (h.range v hv)
  refine h.move ⟨hlow, hhigh⟩ hle ?_ hused
  intro u hu hin
  by_cases huv : u = v
  · subst huv
    rw [update_self]
    exact hown hin
  · rw [update_of_ne huv]
    have hlims := (inBlock_iff hu hfit).mp hin
    exact UInt32.lt_iff_toNat_lt.mp (hpast u hu huv hlims.1 hlims.2)

theorem hear (hreal : key ≠ -1) (hused : ∀ x ∈ used', x ∈ used) (hmem : key ∈ used) :
    Counters width n (update current v (bump (idLims width n v) key (current v))) used' := by
  refine h.store hv hfit hreal ?_ fun x hx => .inl (hused x hx)
  intro u hu _ hlow hhigh
  exact h.owned u hu key hmem ((inBlock_iff hu hfit).mpr ⟨hlow, hhigh⟩)

end Counters

end Counters

section LidCounters

/-- The counters of the lids, as long as there are not as many nodes as lids. -/
structure LidCounters (n : Nat) (current : Nat → UInt16) (used : List UInt16) : Prop where
  rest : ∀ u < n, (current u).toNat % n = (u + 1) % n
  owned : Owned UInt16.toNat (fun u k => k % n = (u + 1) % n) n current used

variable {n v : Nat} {current : Nat → UInt16} {used used' : List UInt16} {key c : UInt16}

theorem LidCounters.init (hn : n < 2 ^ 16) : LidCounters n (fun u => UInt16.ofNat u + 1) [] where
  rest := by
    intro u hu
    have heq : (UInt16.ofNat u + 1).toNat = u + 1 := by
      rw [UInt16.toNat_add, UInt16.toNat_ofNat', Nat.mod_eq_of_lt (show u < 2 ^ 16 by omega)]
      exact Nat.mod_eq_of_lt (show u + 1 < 2 ^ 16 by omega)
    rw [heq]
  owned := .empty

theorem remainder_unique {u v : Nat} (hu : u < n) (hv : v < n) (h : (u + 1) % n = (v + 1) % n) : u = v := by
  rcases Nat.lt_or_eq_of_le (Nat.succ_le_of_lt hu) with hu' | hu' <;>
    rcases Nat.lt_or_eq_of_le (Nat.succ_le_of_lt hv) with hv' | hv'
  · rw [Nat.mod_eq_of_lt hu', Nat.mod_eq_of_lt hv'] at h
    omega
  · rw [Nat.mod_eq_of_lt hu', show v + 1 = n from hv', Nat.mod_self] at h
    omega
  · rw [Nat.mod_eq_of_lt hv', show u + 1 = n from hu', Nat.mod_self] at h
    omega
  · omega

namespace LidCounters

variable (h : LidCounters n current used)

include h

theorem keep (hc : c = current v) (hused : ∀ x ∈ used', x ∈ used) : LidCounters n (update current v c) used' := by
  rw [hc, update_eq_self]
  exact ⟨h.rest, h.owned.mono hused⟩

theorem use (hc : c = current v) (hpast : ∀ u < n, key.toNat % n = (u + 1) % n → key < current u)
    (hused : ∀ x ∈ used', x ∈ used ∨ x = key) : LidCounters n (update current v c) used' := by
  rw [hc, update_eq_self]
  refine ⟨h.rest, h.owned.insert (fun _ _ => Nat.le_refl _) ?_ hused⟩
  intro u hu hown
  exact UInt16.lt_iff_toNat_lt.mp (hpast u hu hown)

theorem fresh (hv : v < n) : current v ∉ used := h.owned.fresh hv (h.rest v hv)

theorem alloc (hv : v < n) (hroom : (current v).toNat + n < 2 ^ 16) (hused : ∀ x ∈ used', x ∈ used ∨ x = current v) :
    LidCounters n (update current v (current v + UInt16.ofNat n)) used' := by
  have hnext : (current v + UInt16.ofNat n).toNat = (current v).toNat + n := by
    rw [UInt16.toNat_add, UInt16.toNat_ofNat', Nat.mod_eq_of_lt (show n < 2 ^ 16 by omega)]
    exact Nat.mod_eq_of_lt hroom
  refine ⟨?_, h.owned.insert (fun u _ => le_update (by omega) u) ?_ hused⟩
  · intro u hu
    by_cases huv : u = v
    · subst huv
      rw [update_self, hnext, Nat.add_mod_right]
      exact h.rest u hu
    · rw [update_of_ne huv]
      exact h.rest u hu
  · intro u hu hown
    rw [h.rest v hv] at hown
    rw [remainder_unique hu hv hown.symm, update_self]
    omega

end LidCounters

end LidCounters

end ParepMpi
