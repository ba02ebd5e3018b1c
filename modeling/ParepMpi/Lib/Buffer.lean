import Mathlib.Algebra.Group.Nat.Defs
import Mathlib.Data.List.Basic
import Mathlib.Tactic.Common

/-!
# Buffers and what fills them

A number has bytes, from the lowest on. What one side of a connection writes, the other side takes from the front of the
stream in pieces of a size that it knows.
-/

namespace Bytewise

variable {τ : Type*} {b c : Nat → Nat} {n v : Nat}

def byte (v i : Nat) : Nat := v / 256 ^ i % 256

def ofBytes (b : Nat → Nat) : Nat → Nat
  | 0 => 0
  | n + 1 => b 0 + 256 * ofBytes (fun i => b (i + 1)) n

theorem ofBytes_congr (h : ∀ i < n, b i = c i) : ofBytes b n = ofBytes c n := by
  induction n generalizing b c with
  | zero => rfl
  | succ n ih =>
    rw [ofBytes, h 0 (by omega)]
    congr 2
    apply ih
    intro i hi
    exact h (i + 1) (by omega)

theorem ofBytes_byte : ofBytes (byte v) n = v % 256 ^ n := by
  induction n generalizing v with
  | zero => simp [ofBytes, Nat.mod_one]
  | succ n ih =>
    have hshift : (fun i => byte v (i + 1)) = byte (v / 256) := by
      funext i
      rw [byte, byte, Nat.pow_succ', Nat.div_div_eq_div_mul]
    rw [ofBytes, hshift, ih, Nat.pow_succ', Nat.mod_mul, byte, Nat.pow_zero, Nat.div_one]

theorem ofBytes_lt (h : ∀ i, b i < 256) (n : Nat) : ofBytes b n < 256 ^ n := by
  induction n generalizing b with
  | zero => simp [ofBytes]
  | succ n ih =>
    have hhead := h 0
    have htail := ih (b := fun i => b (i + 1)) fun i => h (i + 1)
    rw [ofBytes]
    omega

theorem byte_lt (v i : Nat) : byte v i < 256 := Nat.mod_lt _ (by decide)

theorem byte_ofBytes {i : Nat} (h : ∀ i, b i < 256) (hi : i < n) : byte (ofBytes b n) i = b i := by
  induction n generalizing b i with
  | zero => omega
  | succ n ih =>
    have hhead := h 0
    cases i with
    | zero =>
      rw [byte, ofBytes, Nat.pow_zero]
      omega
    | succ i =>
      have hdiv : ofBytes b (n + 1) / 256 = ofBytes (fun i => b (i + 1)) n := by
        rw [ofBytes]
        omega
      rw [byte, Nat.pow_succ', ← Nat.div_div_eq_div_mul, hdiv]
      exact ih (fun i => h (i + 1)) (by omega)

structure Buffer where
  size : Nat
  byte : Nat → Nat

namespace Buffer

def word (v : Nat) : Buffer := ⟨8, Bytewise.byte v⟩

/-- Memory, from the address of the buffer on, after the buffer has been put there. -/
def overlay (p : Buffer) (old : Nat → Nat) (o : Nat) : Nat := if o < p.size then p.byte o else old o

variable {o : Nat} {old : Nat → Nat} {p : Buffer}

theorem overlay_of_lt (ho : o < p.size) : p.overlay old o = p.byte o := if_pos ho

theorem overlay_of_le (ho : p.size ≤ o) : p.overlay old o = old o := if_neg (by omega)

theorem ofBytes_overlay (hn : n ≤ p.size) : ofBytes (p.overlay old) n = ofBytes p.byte n := by
  apply ofBytes_congr
  intro i hi
  exact overlay_of_lt (by omega)

def overlayAt (p : Buffer) (d : Nat) (old : Nat → Nat) (o : Nat) : Nat :=
  if d ≤ o then p.overlay (fun i => old (d + i)) (o - d) else old o

theorem overlayAt_of_lt {d o : Nat} (ho : o < d) : p.overlayAt d old o = old o := if_neg (by omega)

theorem overlayAt_add {d i : Nat} (hi : i < p.size) : p.overlayAt d old (d + i) = p.byte i := by
  rw [overlayAt, if_pos (Nat.le_add_right d i), Nat.add_sub_cancel_left, overlay_of_lt hi]

theorem ofBytes_word (hv : v < 2 ^ 64) : ofBytes ((word v).overlay old) 8 = v := by
  rw [ofBytes_overlay (Nat.le_refl 8), word, ofBytes_byte]
  exact Nat.mod_eq_of_lt hv

end Buffer

/-- What fills memory: from its old contents and the number of bytes asked for to its new contents. -/
def Source (τ : Type*) := (Nat → Nat) → Nat → τ → Option ((Nat → Nat) × τ)

def Feeds (fetch : Source τ) : τ → List Buffer → τ → Prop
  | t, [], t' => t = t'
  | t, p :: ps, t' => ∃ t₁, (∀ old, fetch old p.size t = some (p.overlay old, t₁)) ∧ Feeds fetch t₁ ps t'

section

variable {fetch : Source τ} {t t' : τ} {ps qs : List Buffer}

theorem feeds_append : Feeds fetch t (ps ++ qs) t' ↔ ∃ t₁, Feeds fetch t ps t₁ ∧ Feeds fetch t₁ qs t' := by
  induction ps generalizing t with
  | nil =>
    constructor
    · intro h
      exact ⟨t, rfl, h⟩
    · intro h
      obtain ⟨t₁, rfl, h⟩ := h
      exact h
  | cons p ps ih =>
    constructor
    · intro h
      obtain ⟨t₁, hp, hrest⟩ := h
      obtain ⟨t₂, hps, hqs⟩ := ih.mp hrest
      exact ⟨t₂, ⟨t₁, hp, hps⟩, hqs⟩
    · intro h
      obtain ⟨t₂, ⟨t₁, hp, hps⟩, hqs⟩ := h
      exact ⟨t₁, hp, ih.mpr ⟨t₂, hps, hqs⟩⟩

end

end Bytewise

namespace Wire

open Bytewise List

def encode (w v : Nat) : List Nat := (range w).map (byte v)

def decode (bs : List Nat) : Nat := ofBytes (fun i => bs.getD i 0) bs.length

def take (n : Nat) (s : List Nat) : Option (List Nat × List Nat) :=
  if n ≤ s.length then some (s.take n, s.drop n) else none

variable {w v n : Nat} {bs s : List Nat}

theorem length_encode (w v : Nat) : (encode w v).length = w := by
  rw [encode, length_map, length_range]

theorem decode_encode (hv : v < 256 ^ w) : decode (encode w v) = v := by
  have hbyte : ofBytes (fun i => (encode w v).getD i 0) w = ofBytes (byte v) w := by
    apply ofBytes_congr
    intro i hi
    rw [encode, getD_eq_getElem?_getD, getElem?_map, getElem?_range hi, Option.map_some, Option.getD_some]
  rw [decode, length_encode, hbyte, ofBytes_byte]
  exact Nat.mod_eq_of_lt hv

theorem take_append (h : bs.length = n) : take n (bs ++ s) = some (bs, s) := by
  subst h
  rw [take, if_pos (by rw [length_append]; omega), take_left, drop_left]

theorem length_flatMap_range {f : Nat → List Nat} (h : ∀ j, (f j).length = w) (n : Nat) :
    ((range n).flatMap f).length = n * w := by
  induction n with
  | zero => rw [Nat.zero_mul]; rfl
  | succ n ih =>
    rw [range_succ, flatMap_append, length_append, ih, flatMap_singleton, h, Nat.succ_mul]

end Wire
