import Mathlib.Data.Finset.Card
import ParepMpi.Lib.Compact
import ParepMpi.Lib.Loop

/-!
# The process maps

The communicator lists `nC` compute processes and then `nR` replicas. `cmpToRepMap` has for each compute process the
number of its replica or -1, and `repToCmpMap` leads back. They are arrays with bounds, because the renumbering can go
outside of them, and the functions `ctr` and `rtc` say what they hold where they are defined.
-/

namespace ParepMpi

open Finset Int

structure ProcMaps where
  nC : Int
  nR : Int
  cmpToRepMap : CArray Int
  repToCmpMap : CArray Int
  deriving DecidableEq, Repr

namespace ProcMaps

/-- The maps `empi_comm_creation` starts with: the first `nR` logical ranks are replicated. -/
def initial (nC nR : Nat) : ProcMaps where
  nC := nC
  nR := nR
  cmpToRepMap := List.ofFn fun i : Fin nC => if i.val < nR then (i.val : Int) else -1
  repToCmpMap := List.ofFn fun i : Fin nR => (i.val : Int)

def ctr (m : ProcMaps) (c : Int) : Int := (m.cmpToRepMap.read c).getD (-1)

def rtc (m : ProcMaps) (r : Int) : Int := (m.repToCmpMap.read r).getD (-1)

/-- The two maps are inverse to each other on the ranks of the communicator. -/
structure MutuallyInverse (m : ProcMaps) : Prop where
  cmp : ∀ c, 0 ≤ c → c < m.nC → ∃ r, m.cmpToRepMap.read c = some r ∧ (r = -1 ∨ 0 ≤ r ∧ r < m.nR)
  rep : ∀ r, 0 ≤ r → r < m.nR → ∃ c, m.repToCmpMap.read r = some c ∧ 0 ≤ c ∧ c < m.nC
  inverse : ∀ c r, 0 ≤ c → c < m.nC → 0 ≤ r → r < m.nR → (m.cmpToRepMap.read c = some r ↔ m.repToCmpMap.read r = some c)

namespace MutuallyInverse

variable {m : ProcMaps}

section

variable (h : m.MutuallyInverse)

include h

theorem ctr_holds : m.cmpToRepMap.Holds m.nC m.ctr := by
  intro c hc hlt
  obtain ⟨r, hr, _⟩ := h.cmp c hc hlt
  rw [ctr, hr, Option.getD_some]

theorem rtc_holds : m.repToCmpMap.Holds m.nR m.rtc := by
  intro r hr hlt
  obtain ⟨c, hc, _⟩ := h.rep r hr hlt
  rw [rtc, hc, Option.getD_some]

variable {c r : Int}

theorem ctr_range (hc : 0 ≤ c) (hlt : c < m.nC) : m.ctr c = -1 ∨ 0 ≤ m.ctr c ∧ m.ctr c < m.nR := by
  obtain ⟨r, hr, hrange⟩ := h.cmp c hc hlt
  rwa [ctr, hr]

theorem ctr_bounds (hc : 0 ≤ c) (hlt : c < m.nC) (hne : m.ctr c ≠ -1) : 0 ≤ m.ctr c ∧ m.ctr c < m.nR :=
  (h.ctr_range hc hlt).resolve_left hne

theorem rtc_bounds (hr : 0 ≤ r) (hlt : r < m.nR) : 0 ≤ m.rtc r ∧ m.rtc r < m.nC := by
  obtain ⟨c, hc, hrange⟩ := h.rep r hr hlt
  rwa [rtc, hc]

theorem ctr_eq_iff {c r : Int} (hc : 0 ≤ c) (hclt : c < m.nC) (hr : 0 ≤ r)
    (hrlt : r < m.nR) : m.ctr c = r ↔ m.rtc r = c := by
  have hinv := h.inverse c r hc hclt hr hrlt
  rw [h.ctr_holds c hc hclt, h.rtc_holds r hr hrlt] at hinv
  simpa using hinv

theorem rtc_ctr (hc : 0 ≤ c) (hlt : c < m.nC) (hne : m.ctr c ≠ -1) : m.rtc (m.ctr c) = c := by
  obtain ⟨h0, h1⟩ := h.ctr_bounds hc hlt hne
  exact (h.ctr_eq_iff hc hlt h0 h1).mp rfl

theorem ctr_rtc (hr : 0 ≤ r) (hlt : r < m.nR) : m.ctr (m.rtc r) = r := by
  obtain ⟨h0, h1⟩ := h.rtc_bounds hr hlt
  exact (h.ctr_eq_iff h0 h1 hr hlt).mpr rfl

theorem ctr_injective {c d : Int} (hc : 0 ≤ c) (hclt : c < m.nC)
    (hd : 0 ≤ d) (hdlt : d < m.nC) (hne : m.ctr c ≠ -1) (heq : m.ctr c = m.ctr d) : c = d := by
  rw [← h.rtc_ctr hc hclt hne, heq, h.rtc_ctr hd hdlt (heq ▸ hne)]

theorem card_replicated : ((Finset.range m.nC.toNat).filter fun k : Nat => m.ctr k ≠ -1).card = m.nR.toNat := by
  rw [← card_range m.nR.toNat]
  refine card_nbij' (fun k => (m.ctr k).toNat) (fun k => (m.rtc k).toNat) ?_ ?_ ?_ ?_
  · intro c hc
    obtain ⟨hlt, hne⟩ := mem_filter.mp hc
    have hbounds := h.ctr_bounds (natCast_nonneg c) (by have := mem_range.mp hlt; omega) hne
    have himage : (m.ctr c).toNat < m.nR.toNat := by omega
    exact mem_coe.mpr (mem_range.mpr himage)
  · intro r hr
    have hlt := mem_range.mp hr
    have hbounds := h.rtc_bounds (natCast_nonneg r) (by omega)
    have hback := h.ctr_rtc (natCast_nonneg r) (by omega)
    have himage : (m.rtc r).toNat < m.nC.toNat := by omega
    refine mem_filter.mpr ⟨mem_range.mpr himage, ?_⟩
    rw [toNat_of_nonneg hbounds.1]
    omega
  · intro c hc
    obtain ⟨hlt, hne⟩ := mem_filter.mp hc
    have hclt : (c : Int) < m.nC := by have := mem_range.mp hlt; omega
    have hbounds := h.ctr_bounds (natCast_nonneg c) hclt hne
    have hback := h.rtc_ctr (natCast_nonneg c) hclt hne
    show (m.rtc ((m.ctr c).toNat : Nat)).toNat = c
    rw [toNat_of_nonneg hbounds.1, hback, toNat_natCast]
  · intro r hr
    have hrlt : (r : Int) < m.nR := by have := mem_range.mp hr; omega
    have hbounds := h.rtc_bounds (natCast_nonneg r) hrlt
    show (m.ctr ((m.rtc r).toNat : Nat)).toNat = r
    rw [toNat_of_nonneg hbounds.1, h.ctr_rtc (natCast_nonneg r) hrlt, toNat_natCast]

theorem nR_le_nC (hC : 0 ≤ m.nC) : m.nR ≤ m.nC := by
  have hcard := card_filter_le (Finset.range m.nC.toNat) fun k : Nat => m.ctr k ≠ -1
  rw [h.card_replicated, card_range] at hcard
  omega

theorem nR_lt_nC (hc : 0 ≤ c) (hlt : c < m.nC) (hnone : m.ctr c = -1) : m.nR < m.nC := by
  have hsub : ((Finset.range m.nC.toNat).filter fun k : Nat => m.ctr k ≠ -1) ⊂ Finset.range m.nC.toNat := by
    rw [filter_ssubset]
    refine ⟨c.toNat, mem_range.mpr (by omega), ?_⟩
    rw [toNat_of_nonneg hc]
    exact not_not.mpr hnone
  have hcard := card_lt_card hsub
  rw [h.card_replicated, card_range] at hcard
  omega

theorem exists_unreplicated (hR : 0 ≤ m.nR) (hlt : m.nR < m.nC) : ∃ c, 0 ≤ c ∧ c < m.nC ∧ m.ctr c = -1 := by
  by_contra hall
  have hreplicated : ∀ k ∈ Finset.range m.nC.toNat, m.ctr (k : Nat) ≠ -1 := by
    intro k hk hnone
    exact hall ⟨k, natCast_nonneg k, by have := mem_range.mp hk; omega, hnone⟩
  have hcard := h.card_replicated
  rw [filter_true_of_mem hreplicated, card_range] at hcard
  omega

end

theorem of_holds (ctr rtc : Int → Int) (hctr : m.cmpToRepMap.Holds m.nC ctr) (hrtc : m.repToCmpMap.Holds m.nR rtc)
    (hcrange : ∀ c, 0 ≤ c → c < m.nC → ctr c = -1 ∨ 0 ≤ ctr c ∧ ctr c < m.nR)
    (hrrange : ∀ r, 0 ≤ r → r < m.nR → 0 ≤ rtc r ∧ rtc r < m.nC)
    (hinv : ∀ c r, 0 ≤ c → c < m.nC → 0 ≤ r → r < m.nR → (ctr c = r ↔ rtc r = c)) :
    m.MutuallyInverse where
  cmp := fun c hc hlt => ⟨ctr c, hctr c hc hlt, hcrange c hc hlt⟩
  rep := fun r hr hlt => ⟨rtc r, hrtc r hr hlt, hrrange r hr hlt⟩
  inverse := by
    intro c r hc hclt hr hrlt
    rw [hctr c hc hclt, hrtc r hr hrlt]
    simpa using hinv c r hc hclt hr hrlt

end MutuallyInverse

theorem initial_mutuallyInverse {nC nR : Nat} (hle : nR ≤ nC) : (initial nC nR).MutuallyInverse := by
  refine MutuallyInverse.of_holds (fun c => if c < nR then c else -1) (fun r => r) ?_ ?_ ?_ ?_ ?_
  · have hholds := CArray.holds_ofFn nC (fun c : Int => if c < (nR : Int) then c else -1)
    simpa [initial] using hholds
  · exact CArray.holds_ofFn nR (fun r => r)
  · intro c hc hlt
    split
    · exact .inr ⟨hc, by simpa [initial] using ‹c < (nR : Int)›⟩
    · exact .inl rfl
  · intro r hr hlt
    simp only [initial] at hlt ⊢
    omega
  · intro c r hc hclt hr hrlt
    simp only [initial] at hclt hrlt
    split <;> omega

end ProcMaps

end ParepMpi
