import Mathlib.Algebra.Group.Int.Defs
import ParepMpi.Heap.Memory
import ParepMpi.Lib.Buffer

/-!
# Reading and writing a file

A call of `write` or `read` moves as many bytes as it likes, up to the number asked for, and returns the number; a
negative result is an error code.
-/

namespace ParepMpi

open Bytewise List

/-- What the calls return, one after the other; a positive result is cut down to the bytes that there are. -/
structure Calls where
  result : Nat → Int
  patience : Nat

def Calls.Progress (io : Calls) : Prop := ∀ k, 1 ≤ io.result k

def performWrite (io : Calls) (b : Buffer) : Nat → Nat → Nat → List Nat → Option (List Nat × Nat)
  | 0, _, _, _ => none
  | fuel + 1, k, numWritten, file =>
    let rc := min (io.result k) (sub64 b.size numWritten)
    let file := file ++ (range rc.toNat).map fun i => b.byte (add64 numWritten i)
    let numWritten := ((numWritten + rc) % 2 ^ 64).toNat
    if numWritten = b.size then some (file, k + 1) else performWrite io b fuel (k + 1) numWritten file

def writeAll (io : Calls) : List Buffer → List Nat → Nat → Option (List Nat × Nat)
  | [], file, k => some (file, k)
  | b :: bs, file, k => do
      let (file, k) ← performWrite io b (b.size + 1 + io.patience) k 0 file
      writeAll io bs file k

/-- The loop of `parep_mpi_perform_read`, at call `k`. -/
def performRead (io : Calls) (size : Nat) : Nat → Nat → Nat → (Nat → Nat) → List Nat →
    Option ((Nat → Nat) × List Nat × Nat)
  | 0, _, _, _, _ => none
  | fuel + 1, k, ar, buf, file =>
    if ar = size then some (buf, file, k)
    else
      let rc := min (io.result k) (min (sub64 size ar) file.length : Nat)
      if rc = 0 then some (buf, file, k + 1)
      else
        performRead io size fuel (k + 1) ((ar + rc) % 2 ^ 64).toNat
          (fun o => if o < 2 ^ 64 ∧ sub64 o ar < rc.toNat then file.getD (sub64 o ar) 0 else buf o)
          (file.drop rc.toNat)

def readFile (io : Calls) : Source (List Nat × Nat) := fun old n t =>
  performRead io n (n + 1 + io.patience) t.2 0 old t.1

section Io

variable {io : Calls} {b : Buffer} {fuel k n : Nat} {file rest : List Nat}

def bytesFrom (b : Buffer) (n : Nat) : List Nat := (range' n (b.size - n)).map b.byte

theorem bytesFrom_split {m : Nat} (hm : n + m ≤ b.size) :
    bytesFrom b n = (range' n m).map b.byte ++ bytesFrom b (n + m) := by
  rw [bytesFrom, bytesFrom, ← map_append, range'_append_1, show m + (b.size - (n + m)) = b.size - n by omega]

theorem getD_bytesFrom {o : Nat} (hlo : n ≤ o) (hhi : o < b.size) : (bytesFrom b n ++ rest).getD (o - n) 0 = b.byte o := by
  have hlen : o - n < ((range' n (b.size - n)).map b.byte).length := by
    simp only [length_map, length_range']
    omega
  rw [bytesFrom, getD_eq_getElem?_getD, getElem?_append_left hlen, getElem?_map,
    getElem?_range' (by omega), Option.map_some, Option.getD_some]
  congr 1
  omega

/-- Whatever lies behind the offset, which may have wrapped around, is written up to the end of the buffer. -/
theorem performWrite_from (hp : ∀ j, k ≤ j → 1 ≤ io.result j) {o r : Nat} (hr : sub64 b.size o = r)
    (hsize : b.size < 2 ^ 63) (ho : o < 2 ^ 64) (fuel : Nat) (file : List Nat) (hfuel : r < fuel) :
    ∃ k', performWrite io b fuel k o file = some (file ++ (range r).map (fun i => b.byte (add64 o i)), k') := by
  induction fuel generalizing k o r file with
  | zero => omega
  | succ fuel ih =>
    have hres := hp k (Nat.le_refl _)
    obtain ⟨m, hm, hm0, hle⟩ : ∃ m : Nat, min (io.result k) (r : Int) = m ∧ (0 < r → 0 < m) ∧ m ≤ r :=
      ⟨(min (io.result k) (r : Int)).toNat, by omega, by omega, by omega⟩
    have hnext : (((o : Int) + m) % 2 ^ 64).toNat = add64 o m := by unfold add64; omega
    rw [performWrite, hr, hm]
    simp only [Int.toNat_natCast, hnext]
    split
    next hend =>
      have hmr : m = r := by unfold sub64 at hr; unfold add64 at hend; omega
      exact ⟨_, by rw [hmr]⟩
    next hend =>
      have hrest : sub64 b.size (add64 o m) = r - m := by unfold sub64 add64 at *; omega
      have hr0 : 0 < r := by unfold sub64 add64 at *; omega
      obtain ⟨k', hrun⟩ := ih (k := k + 1) (fun j hj => hp j (by omega)) hrest (Nat.mod_lt _ (by decide))
        (file ++ (range m).map fun i => b.byte (add64 o i)) (by omega)
      have hcut : range r = range m ++ (range (r - m)).map (m + ·) := by rw [← range_add, Nat.add_sub_cancel' hle]
      have hshift : ∀ i, add64 (add64 o m) i = add64 o (m + i) := fun i => by unfold add64; omega
      simp only [hshift] at hrun
      exact ⟨k', by rw [hrun, hcut, map_append, map_map, append_assoc]; rfl⟩

theorem performWrite_spec (hp : ∀ j, k ≤ j → 1 ≤ io.result j) (hsize : b.size < 2 ^ 63) (fuel : Nat) (file : List Nat)
    (hn : n ≤ b.size) (hfuel : b.size - n < fuel) :
    ∃ k', performWrite io b fuel k n file = some (file ++ bytesFrom b n, k') := by
  obtain ⟨k', hrun⟩ := performWrite_from hp (show sub64 b.size n = b.size - n by unfold sub64; omega) hsize (by omega)
    fuel file hfuel
  have hbytes : (range (b.size - n)).map (fun i => b.byte (add64 n i)) = bytesFrom b n := by
    rw [bytesFrom, range'_eq_map_range, map_map]
    apply map_congr_left
    intro i hi
    have := mem_range.mp hi
    rw [Function.comp_apply, add64, Nat.mod_eq_of_lt (by omega)]
  exact ⟨k', hbytes ▸ hrun⟩

/-- A failed call counts as one that takes back as many bytes as its error code says: they are written again, or what
lies before the buffer is, and the rest of the file moves up. -/
theorem write_error_repeats {e : Nat} (he : 1 ≤ e) (hlt : e < 2 ^ 62) (hk : io.result k = -e)
    (hp : ∀ j, k + 1 ≤ j → 1 ≤ io.result j) (hsize : b.size < 2 ^ 62) (hn : n ≤ b.size) (fuel : Nat) (file : List Nat)
    (hfuel : b.size - n + e < fuel) : ∃ k', performWrite io b (fuel + 1) k n file =
      some (file ++ (range (b.size - n + e)).map (fun i => b.byte (add64 (sub64 n e) i)), k') := by
  have hrc : min (io.result k) (sub64 b.size n : Int) = -e := by omega
  have hback : (((n : Int) + -e) % 2 ^ 64).toNat = sub64 n e := by unfold sub64; omega
  have hrest : sub64 b.size (sub64 n e) = b.size - n + e := by unfold sub64; omega
  have hne : sub64 n e ≠ b.size := by unfold sub64; omega
  rw [performWrite, hrc]
  simp only [hback, if_neg hne, show (-(e : Int)).toNat = 0 by omega, range_zero, map_nil, append_nil]
  exact performWrite_from (fun j hj => hp j hj) hrest (by omega) (Nat.mod_lt _ (by decide)) fuel file hfuel

/-- `EINTR` at the first call. -/
theorem interrupted_write_repeats : ∃ k', performWrite ⟨fun k => if k = 0 then -4 else 1, 0⟩ ⟨2, fun o => o⟩ 8 0 0 [] =
    some ((range 6).map (fun i => add64 (sub64 0 4) i), k') :=
  write_error_repeats (b := ⟨2, fun o => o⟩) (e := 4) (n := 0) (by decide) (by decide) rfl
    (fun j hj => by simp [show j ≠ 0 by omega]) (by decide) (by decide) 7 [] (by decide)

theorem performRead_spec (hp : io.Progress) (hsize : b.size < 2 ^ 63) (fuel k : Nat) (rest : List Nat)
    (hn : n ≤ b.size) (hfuel : b.size - n < fuel) :
    ∃ k', ∀ buf, performRead io b.size fuel k n buf (bytesFrom b n ++ rest) =
      some (fun o => if n ≤ o ∧ o < b.size then b.byte o else buf o, rest, k') := by
  induction fuel generalizing k n with
  | zero => omega
  | succ fuel ih =>
    by_cases hend : n = b.size
    · refine ⟨k, fun buf => ?_⟩
      have hnone : (fun o => if n ≤ o ∧ o < b.size then b.byte o else buf o) = buf := by
        funext o
        exact if_neg (by omega)
      rw [performRead, if_pos hend, hnone, bytesFrom, hend, Nat.sub_self]
      rfl
    · have hres := hp k
      have hsub : sub64 b.size n = b.size - n := by
        unfold sub64
        omega
      have hlen : (bytesFrom b n ++ rest).length = b.size - n + rest.length := by simp [bytesFrom]
      obtain ⟨m, hm, hle, hpos⟩ : ∃ m : Nat,
          min (io.result k) (min (sub64 b.size n) (bytesFrom b n ++ rest).length : Nat) = m ∧ n + m ≤ b.size ∧
          0 < m := by
        refine ⟨(min (io.result k) (min (sub64 b.size n) (bytesFrom b n ++ rest).length : Nat)).toNat, ?_, ?_, ?_⟩ <;>
          rw [hlen] <;> omega
      have hnext : (((n : Int) + m) % 2 ^ 64).toNat = n + m := by omega
      have hdrop : (bytesFrom b n ++ rest).drop m = bytesFrom b (n + m) ++ rest := by
        rw [bytesFrom_split hle, append_assoc]
        exact drop_left' (by simp)
      obtain ⟨k', hrun⟩ := ih (n := n + m) (k + 1) hle (by omega)
      refine ⟨k', fun buf => ?_⟩
      rw [performRead, if_neg hend, hm]
      simp only [Int.toNat_natCast, hnext, hdrop]
      rw [if_neg (by omega), hrun]
      congr 2
      funext o
      by_cases hlater : n + m ≤ o ∧ o < b.size
      · rw [if_pos hlater, if_pos (by omega)]
      · rw [if_neg hlater]
        by_cases hnow : n ≤ o ∧ o < n + m
        · have hoff : sub64 o n = o - n := by
            unfold sub64
            omega
          rw [if_pos (by omega), if_pos (by omega), hoff, getD_bytesFrom hnow.1 (by omega)]
        · have hoff : ¬ (o < 2 ^ 64 ∧ sub64 o n < m) := by
            unfold sub64
            omega
          rw [if_neg hoff, if_neg (by omega)]

def fileOf (bs : List Buffer) : List Nat := bs.flatMap fun b => bytesFrom b 0

theorem fileOf_append (bs cs : List Buffer) : fileOf (bs ++ cs) = fileOf bs ++ fileOf cs := flatMap_append

variable {bs : List Buffer}

theorem writeAll_spec (hp : io.Progress) (k : Nat) (file : List Nat) (hsize : ∀ b ∈ bs, b.size < 2 ^ 63) :
    ∃ k', writeAll io bs file k = some (file ++ fileOf bs, k') := by
  induction bs generalizing k file with
  | nil => exact ⟨k, by simp [writeAll, fileOf]⟩
  | cons b bs ih =>
    obtain ⟨k₁, hrun₁⟩ := performWrite_spec (k := k) (fun j _ => hp j) (hsize b mem_cons_self)
      (b.size + 1 + io.patience) file (Nat.zero_le _) (by omega)
    obtain ⟨k', hrun⟩ := ih k₁ (file ++ bytesFrom b 0) fun b hb => hsize b (mem_cons_of_mem _ hb)
    exact ⟨k', by simp [writeAll, hrun₁, hrun, fileOf]⟩

theorem feeds_readFile (rest : List Nat) (hp : io.Progress) (hsize : ∀ b ∈ bs, b.size < 2 ^ 63) :
    ∃ k', Feeds (readFile io) (fileOf bs ++ rest, k) bs (rest, k') := by
  induction bs generalizing k with
  | nil => exact ⟨k, rfl⟩
  | cons b bs ih =>
    obtain ⟨k₁, hrun₁⟩ := performRead_spec hp (hsize b mem_cons_self) (b.size + 1 + io.patience) k
      (fileOf bs ++ rest) (Nat.zero_le _) (by omega)
    obtain ⟨k', hfeed⟩ := ih (k := k₁) fun b hb => hsize b (mem_cons_of_mem _ hb)
    refine ⟨k', (fileOf bs ++ rest, k₁), fun old => ?_, hfeed⟩
    have hfile : fileOf (b :: bs) ++ rest = bytesFrom b 0 ++ (fileOf bs ++ rest) := by simp [fileOf]
    rw [readFile, hfile, hrun₁]
    congr 2
    funext o
    simp [Buffer.overlay]

end Io

end ParepMpi
