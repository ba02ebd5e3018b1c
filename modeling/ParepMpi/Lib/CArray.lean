import Mathlib.Data.List.Nodup
import Mathlib.Data.Int.Basic

/-!
# Arrays with a bound on every access

A C array is its list of cells, and reading or writing outside of it has no result. `Holds` says that the first cells
are the values of a function, which is how the loops that fill an array are specified.
-/

abbrev CArray (α : Type*) := List α

namespace CArray

open List

variable {α : Type*}

def read (a : CArray α) (i : Int) : Option α :=
  if 0 ≤ i then a[i.toNat]? else none

/-- The array after `a[i] = v`, when `i` is an index of the array. -/
def write (a : CArray α) (i : Int) (v : α) : Option (CArray α) :=
  if 0 ≤ i ∧ i.toNat < a.length then some (a.set i.toNat v) else none

/-- The array after values have been copied to the cells from `i` on. -/
def writeAll (a : CArray α) (i : Int) : List α → Option (CArray α)
  | [] => some a
  | v :: vs => (a.write i v).bind fun b => writeAll b (i + 1) vs

def Holds (a : CArray α) (n : Int) (f : Int → α) : Prop :=
  ∀ i, 0 ≤ i → i < n → a.read i = some (f i)

theorem read_natCast (a : CArray α) (n : Nat) : a.read (n : Int) = a[n]? := by
  rw [read, if_pos (by omega), Int.toNat_natCast]

variable {i : Int} {a : CArray α} {v : α}

theorem write_of_neg (a : CArray α) (hi : i < 0) (v : α) : a.write i v = none := by
  rw [write, if_neg (by omega)]

theorem read_eq_some_bounds (h : a.read i = some v) : 0 ≤ i ∧ i < a.length := by
  unfold read at h
  split at h
  · have hlt := (List.getElem?_eq_some_iff.mp h).1
    omega
  · cases h

theorem exists_read (hi : 0 ≤ i) (hlt : i < a.length) : ∃ v, a.read i = some v := by
  have hlen : i.toNat < a.length := by omega
  refine ⟨a.get ⟨i.toNat, hlen⟩, ?_⟩
  rw [read, if_pos hi, getElem?_eq_getElem hlen]
  rfl

theorem exists_write (hi : 0 ≤ i) (hlt : i < a.length) (v : α) : ∃ b, a.write i v = some b := by
  refine ⟨a.set i.toNat v, ?_⟩
  rw [write, if_pos ⟨hi, by omega⟩]

theorem length_write {a b : CArray α} (h : a.write i v = some b) : b.length = a.length := by
  unfold write at h
  split at h
  · rw [← Option.some.inj h, length_set]
  · cases h

theorem read_write {a b : CArray α} (h : a.write i v = some b) (j : Int) :
    b.read j = if j = i then some v else a.read j := by
  obtain ⟨hi, h⟩ := Option.ite_none_right_eq_some.mp h
  rw [← Option.some.inj h]
  unfold read
  by_cases hj : j = i
  · subst hj
    rw [if_pos hi.1, if_pos rfl, getElem?_set_self hi.2]
  · split
    · rw [getElem?_set_ne (by omega)]
    · rfl

theorem read_write_self {a b : CArray α} (h : a.write i v = some b) : b.read i = some v := by
  rw [read_write h, if_pos rfl]

theorem read_write_ne {a b : CArray α} {i j : Int} (h : a.write i v = some b) (hne : j ≠ i) : b.read j = a.read j := by
  rw [read_write h, if_neg hne]

theorem writeAll_spec {vs : List α} (hi : 0 ≤ i) (hlen : i + vs.length ≤ a.length) :
    ∃ b, a.writeAll i vs = some b ∧ b.length = a.length ∧
      (∀ k : Nat, k < vs.length → b.read (i + k) = vs[k]?) ∧ ∀ j, j < i ∨ i + vs.length ≤ j → b.read j = a.read j := by
  induction vs generalizing a i with
  | nil => exact ⟨a, rfl, rfl, by simp, fun _ _ => rfl⟩
  | cons v vs ih =>
    rw [length_cons] at hlen ⊢
    obtain ⟨b, hb⟩ := exists_write hi (show i < a.length by omega) v
    have hblen := length_write hb
    obtain ⟨c, hc, hclen, hin, hout⟩ := ih (show 0 ≤ i + 1 by omega) (show i + 1 + vs.length ≤ b.length by omega)
    refine ⟨c, ?_, hclen.trans hblen, ?_, ?_⟩
    · rw [writeAll, hb, Option.bind_some, hc]
    · intro k hk
      cases k with
      | zero =>
        rw [Int.natCast_zero, Int.add_zero, hout i (.inl (by omega)), read_write_self hb]
        rfl
      | succ k =>
        rw [show i + ((k + 1 : Nat) : Int) = i + 1 + k by omega, hin k (by omega)]
        rfl
    · intro j hj
      rw [hout j (by omega), read_write_ne hb (by omega)]

theorem mem_iff_read : v ∈ a ↔ ∃ i, a.read i = some v := by
  constructor
  · intro h
    obtain ⟨n, hn⟩ := mem_iff_getElem?.mp h
    exact ⟨n, by rw [read_natCast, hn]⟩
  · rintro ⟨i, hi⟩
    obtain ⟨n, rfl⟩ := Int.eq_ofNat_of_zero_le (read_eq_some_bounds hi).1
    exact mem_of_getElem? hi

theorem nodup_iff_read : a.Nodup ↔ ∀ i j v, a.read i = some v → a.read j = some v → i = j := by
  rw [nodup_iff_getElem?_ne_getElem?]
  constructor
  · intro h i j v hi hj
    obtain ⟨hi0, hilt⟩ := read_eq_some_bounds hi
    obtain ⟨hj0, hjlt⟩ := read_eq_some_bounds hj
    rw [read, if_pos hi0] at hi
    rw [read, if_pos hj0] at hj
    rcases Int.lt_trichotomy i j with hlt | heq | hgt
    · exact absurd (hi.trans hj.symm) (h i.toNat j.toNat (by omega) (by omega))
    · exact heq
    · exact absurd (hj.trans hi.symm) (h j.toNat i.toNat (by omega) (by omega))
  · intro h i j hij hjlt heq
    have hget := getElem?_eq_getElem hjlt
    have := h i j _ (by rw [read_natCast, heq, hget]) (by rw [read_natCast, hget])
    omega

namespace Holds

variable {a b : CArray α} {n : Int} {f g : Int → α}

theorem le_length (h : Holds a n f) : n ≤ a.length := by
  by_contra hlt
  have hread := h (a.length : Int) (by omega) (by omega)
  have := (read_eq_some_bounds hread).2
  omega

theorem congr (h : Holds a n f) (hfg : ∀ i, 0 ≤ i → i < n → f i = g i) : Holds a n g := by
  intro i hi hlt
  rw [h i hi hlt, hfg i hi hlt]

theorem take_eq {n : Nat} (h : Holds a n f) : a.take n = (range n).map fun k : Nat => f k := by
  apply ext_getElem?
  intro k
  by_cases hk : k < n
  · rw [getElem?_take_of_lt hk, ← read_natCast, h k (by omega) (by omega), getElem?_map,
      getElem?_range hk, Option.map_some]
  · rw [getElem?_eq_none (by rw [length_take]; omega), getElem?_eq_none (by rw [length_map, length_range]; omega)]

theorem write (h : Holds a n f) {i : Int} (hi : 0 ≤ i) (hlt : i < n) (v : α) :
    ∃ b, a.write i v = some b ∧ Holds b n (Function.update f i v) ∧ b.length = a.length := by
  have hlen := h.le_length
  obtain ⟨b, hb⟩ := exists_write hi (by omega : i < (a.length : Int)) v
  refine ⟨b, hb, ?_, length_write hb⟩
  intro j hj hjlt
  rw [read_write hb]
  by_cases hji : j = i
  · rw [if_pos hji, hji, Function.update_self]
  · rw [if_neg hji, Function.update_of_ne hji]
    exact h j hj hjlt

end Holds

theorem holds_ofFn (n : Nat) (f : Int → α) : Holds (List.ofFn fun i : Fin n => f (i.val : Int)) n f := by
  intro i hi hlt
  obtain ⟨k, rfl⟩ := Int.eq_ofNat_of_zero_le hi
  have hk : k < n := by omega
  rw [read_natCast, List.getElem?_ofFn, dif_pos hk]

/-- An array of `n` cells whose first cells hold `l`; the others have not been written. -/
def Filled (l : List α) (n : Nat) (a : CArray (Option α)) : Prop :=
  a = l.map some ++ replicate (n - l.length) none

namespace Filled

variable {l : List α} {n : Nat} {a : CArray (Option α)}

theorem nil (n : Nat) : Filled ([] : List α) n (replicate n none) := rfl

theorem push (h : Filled l n a) (hlt : l.length < n) (v : α) :
    ∃ b, a.write l.length (some v) = some b ∧ Filled (l ++ [v]) n b := by
  obtain ⟨k, hk⟩ : ∃ k, n - l.length = k + 1 := ⟨n - l.length - 1, by omega⟩
  have hlen : a.length = n := by
    rw [h, length_append, length_map, length_replicate]
    omega
  refine ⟨a.set l.length (some v), ?_, ?_⟩
  · rw [write, if_pos ⟨by omega, by omega⟩, Int.toNat_natCast]
  · rw [Filled, h, hk, set_append_right _ _ (by rw [length_map]), length_map, Nat.sub_self,
      replicate_succ, map_append, append_assoc, length_append,
      length_singleton, show n - (l.length + 1) = k by omega]
    rfl

theorem eq_map (h : Filled l n a) (hlen : n ≤ l.length) : a = l.map some := by
  rw [h, Nat.sub_eq_zero_of_le hlen, replicate_zero, append_nil]

end Filled

end CArray
