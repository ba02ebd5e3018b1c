import ParepMpi.Heap.Live

/-!
# Aligned allocations

`parep_mpi_posix_memalign` asks `parep_mpi_malloc` for more than the size and rounds the pointer up; the word before
the rounded pointer leads back to the one that was rounded.
-/

namespace ParepMpi

open Tiling

theorem exists_two_pow_of_land {a : Nat} (ha : a ≠ 0) (hland : a &&& (a - 1) = 0) : ∃ k, a = 2 ^ k := by
  induction a using Nat.strongRecOn with
  | ind a ih =>
    have hhalf : a / 2 &&& (a - 1) / 2 = 0 := by
      rw [← Nat.and_div_two, hland]
    rcases Nat.mod_two_eq_zero_or_one a with heven | hodd
    · have hpred : (a - 1) / 2 = a / 2 - 1 := by omega
      rw [hpred] at hhalf
      obtain ⟨k, hk⟩ := ih (a / 2) (by omega) (by omega) hhalf
      exact ⟨k + 1, by omega⟩
    · have hpred : (a - 1) / 2 = a / 2 := by omega
      rw [hpred] at hhalf
      have : a / 2 = 0 := (Nat.and_self _).symm.trans hhalf
      exact ⟨0, by omega⟩

namespace Heap

variable {h h' : Heap} {g g' : Layout} {x : Tile} {n p alignment : Nat} {mremap : Nat → Bool}

def ValidAlignment (alignment : Nat) : Prop :=
  alignment ≠ 0 ∧ alignment &&& (alignment - 1) = 0 ∧ 8 ≤ alignment

instance : Decidable (ValidAlignment alignment) := instDecidableAnd

theorem ValidAlignment.dvd (hv : ValidAlignment alignment) : 8 ∣ alignment ∧ (alignment ≤ 32 → alignment ∣ 32) := by
  obtain ⟨hne, hland, hge⟩ := hv
  obtain ⟨k, rfl⟩ := exists_two_pow_of_land hne hland
  have hk : 3 ≤ k := (Nat.pow_le_pow_iff_right (by omega)).mp (show 2 ^ 3 ≤ 2 ^ k from hge)
  refine ⟨Nat.pow_dvd_pow 2 hk, fun hle => ?_⟩
  have hk' : k ≤ 5 := (Nat.pow_le_pow_iff_right (by omega)).mp hle
  exact Nat.pow_dvd_pow 2 hk'

/-- The request does not wrap around, and the pointer is not moved twice. -/
def MovedOnce (alignment n : Nat) : Prop :=
  n + alignment + 7 < 2 ^ 64 - 32 ∧ (alignment ≤ 32 ∨ roundedSize (n + alignment + 7) < alignedSize)

instance : Decidable (MovedOnce alignment n) := instDecidableAnd

theorem roundUp_bounds {a m : Nat} (ha : 0 < a) : m ≤ (m + (a - 1)) / a * a ∧ (m + (a - 1)) / a * a ≤ m + (a - 1) := by
  refine ⟨?_, Nat.div_mul_le_self _ _⟩
  have := Nat.lt_div_mul_add (a := m + (a - 1)) ha
  omega

/-- `parep_mpi_posix_memalign` gives an aligned pointer into one node, from which `parep_mpi_free` finds it. -/
theorem Rest.posixMemalign (hr : Rest h g ∅) (mremap : Nat → Bool) (hv : ValidAlignment alignment) (hpos : 0 < n)
    (honce : MovedOnce alignment n) : ∃ h' g' r, h.posixMemalign mremap alignment n = some (h', r) ∧
      (r = .enomem ∧ Denied mremap h g (n + alignment + 7) h' g' ∨
        ∃ p x, r = .ok p ∧ alignment ∣ p ∧ Allocated h g h' g' x p n) := by
  obtain ⟨h8, h32⟩ := hv.dvd
  obtain ⟨hne, hland, hge⟩ := hv
  obtain ⟨hlt, hsmall⟩ := honce
  have hsum : add64 (add64 n (alignment - 1)) 8 = n + alignment + 7 := by
    rw [add64_of_lt (a := n) (by omega), add64_of_lt (by omega)]
    omega
  have hcheck : ¬ (alignment = 0 ∨ alignment &&& (alignment - 1) ≠ 0 ∨ alignment < 8) := by
    omega
  obtain ⟨h₁, g₁, orig, hrun, hcase⟩ := hr.malloc mremap (n := n + alignment + 7) (by omega) hlt
  rcases hcase with ⟨rfl, hd⟩ | ⟨horig, x, ha, hptr⟩
  · refine ⟨h₁, g₁, .enomem, ?_, .inl ⟨rfl, hd⟩⟩
    rw [Heap.posixMemalign, if_neg hcheck, if_neg hpos.ne']
    simp [hsum, hrun]
  · obtain ⟨hlo, hhi, ho8, hback⟩ := ha.holds
    by_cases hup : (orig + (alignment - 1)) / alignment * alignment = orig
    · refine ⟨h₁, g₁, .ok orig, ?_, .inr ⟨orig, x, rfl, ⟨_, by rw [mul_comm]; exact hup.symm⟩, ha.rest, ha.used,
        ha.kept, hlo, by omega, ho8, hback⟩⟩
      rw [Heap.posixMemalign, if_neg hcheck, if_neg hpos.ne']
      simp [hsum, hrun, horig, hup]
    · -- The pointer is not aligned, so it is the payload of its node.
      have hndvd : ¬ alignment ∣ orig := by
        rintro ⟨q, rfl⟩
        apply hup
        rw [Nat.mul_add_div (by omega), Nat.div_eq_of_lt (by omega), add_zero, mul_comm]
      have hpayload : orig = x.addr + 8 := by
        split at hptr
        next hbig =>
          have hle : alignment ≤ 32 := hsmall.resolve_right (not_lt.mpr hbig)
          exact absurd (Nat.dvd_trans (h32 hle) hptr) hndvd
        next => exact hptr
      let up := (orig + 8 + (alignment - 1)) / alignment * alignment
      obtain ⟨hup₁, hup₂⟩ := roundUp_bounds (a := alignment) (m := orig + 8) (by omega)
      have hdvd : alignment ∣ up := ⟨_, mul_comm _ _⟩
      have hup8 : 8 ∣ up := Nat.dvd_trans h8 hdvd
      have hs₁ := ha.rest.shape
      have hk := ha.kept.trans (Kept.put (w := up - 8) (v := orig) (E := {x.addr}) hs₁ ha.used.1 rfl (by omega)
        (by omega))
      refine ⟨h₁.put (up - 8) orig, g₁, .ok up, ?_, .inr ⟨up, x, rfl, hdvd,
        ha.rest.putInside ha.used.1 ha.used.2 (by omega) (by omega), ha.used, hk, by omega, by omega, hup8,
        .inr ⟨by omega, ?_⟩⟩⟩
      · have hstore : h₁.store (up - 8) orig = some (h₁.put (up - 8) orig) :=
          store_eq (hs₁.mapped_word ha.used.1 (by omega) (by omega) (by omega))
        rw [Heap.posixMemalign, if_neg hcheck, if_neg hpos.ne']
        simp [hsum, hrun, horig, hup, up, hstore]
      · rw [put_mem_self, hpayload]

end Heap

end ParepMpi
