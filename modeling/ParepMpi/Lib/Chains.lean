import Mathlib.Data.List.Nodup

/-!
# Hash chains

A table of chains of key-value pairs stands for a finite map when every key is in the chain of its hash and no key is
twice in a chain.
-/

namespace Chains

open List Function

variable {κ ν : Type*} {hash : κ → Nat} {m : Nat → List (κ × ν)} {n : Nat} {k : κ} {v : ν}

structure WellHashed (hash : κ → Nat) (m : Nat → List (κ × ν)) : Prop where
  hashed : ∀ i, ∀ p ∈ m i, hash p.1 = i
  nodup : ∀ i, ((m i).map Prod.fst).Nodup

def get [DecidableEq κ] (hash : κ → Nat) (m : Nat → List (κ × ν)) (k : κ) : Option ν := (m (hash k)).lookup k

def pairs (n : Nat) (m : Nat → List (κ × ν)) : List (κ × ν) := (range n).flatMap m

section

variable [DecidableEq κ]

variable {c : List (κ × ν)}

theorem lookup_eq_some_of_mem (h : (c.map Prod.fst).Nodup) (hmem : (k, v) ∈ c) : c.lookup k = some v := by
  induction c with
  | nil => contradiction
  | cons p c ih =>
    obtain ⟨k', v'⟩ := p
    rw [map_cons, nodup_cons] at h
    rcases mem_cons.mp hmem with heq | hmem
    · injection heq with hk hv
      rw [lookup_cons, hk, hv, beq_self_eq_true]
    · have hne : k ≠ k' := fun heq => h.1 (mem_map.mpr ⟨(k, v), hmem, heq⟩)
      rw [lookup_cons, beq_false_of_ne hne]
      exact ih h.2 hmem

theorem mem_of_lookup_eq_some (h : c.lookup k = some v) : (k, v) ∈ c := by
  induction c with
  | nil => contradiction
  | cons p c ih =>
    obtain ⟨k', v'⟩ := p
    rw [lookup_cons] at h
    split at h
    · rename_i heq
      rw [beq_iff_eq.mp heq, Option.some_inj.mp h]
      exact mem_cons_self
    · exact mem_cons_of_mem _ (ih h)

end

namespace WellHashed

theorem empty : WellHashed hash (fun _ => ([] : List (κ × ν))) := ⟨by simp, by simp⟩

variable (h : WellHashed hash m)

include h

theorem mem_pairs_iff [DecidableEq κ] (hn : ∀ k, hash k < n) : (k, v) ∈ pairs n m ↔ get hash m k = some v := by
  rw [pairs, mem_flatMap, get]
  constructor
  · intro hmem
    obtain ⟨i, -, hmem⟩ := hmem
    rw [h.hashed i _ hmem]
    exact lookup_eq_some_of_mem (h.nodup i) hmem
  · intro hget
    exact ⟨hash k, mem_range.mpr (hn k), mem_of_lookup_eq_some hget⟩

theorem nodup_pairs : ((pairs n m).map Prod.fst).Nodup := by
  rw [pairs, map_flatMap, nodup_flatMap]
  refine ⟨fun i _ => h.nodup i, ?_⟩
  refine (nodup_range (n := n)).imp ?_
  intro i j hne k hi hj
  obtain ⟨p, hp, rfl⟩ := mem_map.mp hi
  obtain ⟨q, hq, heq⟩ := mem_map.mp hj
  apply hne
  rw [← h.hashed i p hp, ← h.hashed j q hq, heq]

theorem update {c : List (κ × ν)} (hkeys : ∀ p ∈ c, p.1 = k ∨ p ∈ m (hash k)) (hnodup : (c.map Prod.fst).Nodup) :
    WellHashed hash (update m (hash k) c) := by
  refine ⟨?_, ?_⟩
  · intro i p hp
    by_cases hi : i = hash k
    · subst hi
      rw [update_self] at hp
      rcases hkeys p hp with heq | hmem
      · rw [heq]
      · exact h.hashed _ p hmem
    · rw [update_of_ne hi] at hp
      exact h.hashed i p hp
  · intro i
    by_cases hi : i = hash k
    · subst hi
      rwa [update_self]
    · rw [update_of_ne hi]
      exact h.nodup i

end WellHashed

theorem get_update [DecidableEq κ] {c : List (κ × ν)} (hself : c.lookup k = some v)
    (hother : ∀ k' ≠ k, c.lookup k' = (m (hash k)).lookup k') :
    get hash (update m (hash k) c) = update (get hash m) k (some v) := by
  funext k'
  unfold get
  by_cases hk : k' = k
  · subst hk
    rw [update_self, update_self, hself]
  · rw [update_of_ne hk]
    by_cases hhash : hash k' = hash k
    · rw [hhash, update_self, hother k' hk]
    · rw [update_of_ne hhash]

end Chains
