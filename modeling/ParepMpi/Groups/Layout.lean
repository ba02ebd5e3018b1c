import Mathlib.Algebra.Group.Nat.Defs
import Mathlib.Tactic.Common

/-!
# Groups of nodes

The nodes are cut into groups of one size, a power of two, with a shorter group at the end.
-/

namespace ParepMpi

def nextPower (nodeNum : Nat) : Nat :=
  let n := nodeNum - 1
  let n := n ||| n >>> 1
  let n := n ||| n >>> 2
  let n := n ||| n >>> 4
  let n := n ||| n >>> 8
  let n := n ||| n >>> 16
  n + 1

def halvings : Nat → Nat → Nat
  | 0, _ => 0
  | fuel + 1, n => if n >>> 1 = 0 then 0 else halvings fuel (n >>> 1) + 1

def groupSizeMax (nodeNum : Nat) : Nat :=
  if 4 ≤ nodeNum ∧ nodeNum ≤ 1024 then
    let power := halvings nodeNum (nextPower nodeNum)
    1 <<< (if power % 2 = 0 then power / 2 else power / 2 + 1)
  else 32

def groupNum (nodeNum : Nat) : Nat :=
  let max := groupSizeMax nodeNum
  if nodeNum % max = 0 then nodeNum / max else 1 + (nodeNum - nodeNum % max) / max

def groupId (nodeNum nodeId : Nat) : Nat := nodeId / groupSizeMax nodeNum

def groupNodeid (nodeNum nodeId : Nat) : Nat := nodeId % groupSizeMax nodeNum

def groupSize (nodeNum nodeId : Nat) : Nat :=
  let max := groupSizeMax nodeNum
  if groupId nodeNum nodeId = groupNum nodeNum - 1 ∧ nodeNum < max * groupNum nodeNum then
    max - (max * groupNum nodeNum - nodeNum)
  else max

example : [1, 3, 4, 5, 9, 16, 17, 1024, 1025].map groupSizeMax = [32, 32, 2, 4, 4, 4, 8, 32, 32] := by decide +kernel

theorem groupSizeMax_pos (n : Nat) : 0 < groupSizeMax n := by
  unfold groupSizeMax
  split
  · rw [Nat.one_shiftLeft]
    exact Nat.two_pow_pos _
  · decide

section Blocks

variable {n v g : Nat}

theorem div_eq_iff_block {max : Nat} (hmax : 0 < max) : v / max = g ↔ g * max ≤ v ∧ v < (g + 1) * max := by
  rw [Nat.div_eq_iff hmax, Nat.succ_mul]
  omega

theorem groupNum_spec : groupNum n * groupSizeMax n < n + groupSizeMax n ∧ n ≤ groupNum n * groupSizeMax n := by
  have hmax := groupSizeMax_pos n
  have hdiv := Nat.div_add_mod n (groupSizeMax n)
  have hmod := Nat.mod_lt n hmax
  have hcomm := mul_comm (groupSizeMax n) (n / groupSizeMax n)
  unfold groupNum
  dsimp only
  split
  · omega
  · have hsub : (n - n % groupSizeMax n) / groupSizeMax n = n / groupSizeMax n := by
      rw [show n - n % groupSizeMax n = groupSizeMax n * (n / groupSizeMax n) by omega, Nat.mul_div_cancel_left _ hmax]
    rw [hsub, Nat.add_mul]
    omega

theorem groupId_lt (hv : v < n) : groupId n v < groupNum n := by
  have hspec := (groupNum_spec (n := n)).2
  exact (Nat.div_lt_iff_lt_mul (groupSizeMax_pos n)).mpr (by omega)

theorem groupId_mul_add (v : Nat) : groupId n v * groupSizeMax n + groupNodeid n v = v := by
  rw [mul_comm]
  exact Nat.div_add_mod v _

theorem groupNodeid_lt : groupNodeid n v < groupSizeMax n := Nat.mod_lt _ (groupSizeMax_pos n)

theorem groupSize_eq (hv : v < n) : groupSize n v = min (groupSizeMax n) (n - groupId n v * groupSizeMax n) := by
  have hspec := groupNum_spec (n := n)
  have hlt := groupId_lt hv
  have hcomm := mul_comm (groupSizeMax n) (groupNum n)
  unfold groupSize
  dsimp only
  split
  · have hmul : groupNum n * groupSizeMax n = groupId n v * groupSizeMax n + groupSizeMax n := by
      rw [← Nat.succ_mul]
      congr 1
      omega
    omega
  · rename_i hfull
    have hle : (groupId n v + 1) * groupSizeMax n ≤ n := by
      by_cases hlast : groupId n v = groupNum n - 1
      · rw [show groupId n v + 1 = groupNum n by omega]
        by_contra hshort
        exact hfull ⟨hlast, by omega⟩
      · have := Nat.mul_le_mul_right (groupSizeMax n) (show groupId n v + 2 ≤ groupNum n by omega)
        rw [Nat.add_mul] at this ⊢
        omega
    rw [Nat.succ_mul] at hle
    omega

theorem countP_groupId (g k : Nat) :
    (List.range k).countP (fun v => groupId n v = g) = min (groupSizeMax n) (k - g * groupSizeMax n) := by
  have hmax := groupSizeMax_pos n
  induction k with
  | zero => simp
  | succ k ih =>
    have hblock := div_eq_iff_block (v := k) (g := g) hmax
    rw [Nat.succ_mul] at hblock
    rw [List.range_succ, List.countP_append, ih, List.countP_singleton]
    unfold groupId
    by_cases hk : k / groupSizeMax n = g
    · rw [if_pos (by simpa using hk)]
      omega
    · rw [if_neg (by simpa using hk)]
      omega

end Blocks

end ParepMpi
