import ParepMpi.Lib.CArray

/-!
# Process groups

A group of the message passing standard is an ordered set of processes, here a list of them; the rank of a process is
its position.
-/

namespace ProcGroup

open List CArray

variable {α : Type*}

def undefinedRank : Int := -32766

/-- The processes of the given ranks, in that order; ranks must be valid and distinct. -/
def incl (g : List α) (ranks : List Int) : Option (List α) :=
  if ranks.Nodup then ranks.mapM (CArray.read g) else none

private theorem mapM_read (g : List α) (ranks : List Int) (hvalid : ∀ i ∈ ranks, ∃ p, CArray.read g i = some p) :
    ∃ l, ranks.mapM (CArray.read g) = some l ∧ l.length = ranks.length ∧
      ∀ k : Nat, l[k]? = (ranks[k]?).bind (CArray.read g) := by
  induction ranks with
  | nil => exact ⟨[], rfl, rfl, fun k => rfl⟩
  | cons i ranks ih =>
    obtain ⟨p, hp⟩ := hvalid i mem_cons_self
    obtain ⟨l, hl, hlen, hget⟩ := ih fun j hj => hvalid j (mem_cons_of_mem i hj)
    refine ⟨p :: l, ?_, by simp [hlen], ?_⟩
    · rw [mapM_cons, hp, hl]
      rfl
    · intro k
      cases k with
      | zero => simp [hp]
      | succ k => simpa using hget k

variable {g : List α} {p : α}

theorem incl_spec {ranks : CArray Int} {n : Int} (hn : n ≤ ranks.length)
    (hvalid : ∀ k, 0 ≤ k → k < n → ∃ i p, ranks.read k = some i ∧ CArray.read g i = some p)
    (hdistinct : ∀ j k, 0 ≤ j → j < n → 0 ≤ k → k < n → ranks.read j = ranks.read k → j = k) :
    ∃ l, incl g (ranks.take n.toNat) = some l ∧ l.length = n.toNat ∧
      ∀ k, 0 ≤ k → k < n → CArray.read l k = (ranks.read k).bind (CArray.read g) := by
  have hlen : (ranks.take n.toNat).length = n.toNat := by
    rw [length_take]
    omega
  have hread : ∀ k : Int, 0 ≤ k → k < n → CArray.read (ranks.take n.toNat) k = ranks.read k := by
    intro k hk hlt
    rw [CArray.read, CArray.read, if_pos hk, if_pos hk, getElem?_take_of_lt (by omega)]
  have hnodup : (ranks.take n.toNat).Nodup := by
    rw [nodup_iff_read]
    intro j k v hj hk
    obtain ⟨hj0, hjlt⟩ := read_eq_some_bounds hj
    obtain ⟨hk0, hklt⟩ := read_eq_some_bounds hk
    apply hdistinct j k hj0 (by omega) hk0 (by omega)
    rw [hread j hj0 (by omega)] at hj
    rw [hread k hk0 (by omega)] at hk
    rw [hj, hk]
  obtain ⟨l, hl, hll, hget⟩ := mapM_read g (ranks.take n.toNat) (by
    intro i hi
    obtain ⟨k, hk⟩ := mem_iff_read.mp hi
    obtain ⟨hk0, hklt⟩ := read_eq_some_bounds hk
    obtain ⟨i', p, hi', hp⟩ := hvalid k hk0 (by omega)
    rw [← hread k hk0 (by omega), hk, Option.some_inj] at hi'
    exact ⟨p, by rw [hi', hp]⟩)
  refine ⟨l, by rw [incl, if_pos hnodup, hl], by omega, ?_⟩
  intro k hk hlt
  rw [← hread k hk hlt, CArray.read, if_pos hk, hget, CArray.read, if_pos hk]

variable [DecidableEq α]

def union (g h : List α) : List α := g ++ h.filter (· ∉ g)

def inter (g h : List α) : List α := g.filter (· ∈ h)

def diff (g h : List α) : List α := g.filter (· ∉ h)

def rank (g : List α) (p : α) : Int := if p ∈ g then g.idxOf p else undefinedRank

/-- The ranks in `h` of the processes that have the given ranks in `g`. -/
def translateRanks (g : List α) (ranks : List Int) (h : List α) : Option (List Int) :=
  ranks.mapM fun i => (CArray.read g i).map (rank h)

theorem mem_union {g h : List α} : p ∈ union g h ↔ p ∈ g ∨ p ∈ h := by
  rw [union, mem_append]
  by_cases hp : p ∈ g <;> simp [hp]

theorem mem_inter {g h : List α} : p ∈ inter g h ↔ p ∈ g ∧ p ∈ h := by
  simp [inter]

theorem inter_congr {g h k : List α} (heq : ∀ p ∈ g, p ∈ h ↔ p ∈ k) : inter g h = inter g k := by
  apply filter_congr
  intro p hp
  simp [heq p hp]

theorem rank_of_read (hg : g.Nodup) {i : Int} (h : CArray.read g i = some p) : rank g p = i := by
  obtain ⟨h0, hlt⟩ := read_eq_some_bounds h
  obtain ⟨n, rfl⟩ := Int.eq_ofNat_of_zero_le h0
  rw [read_natCast] at h
  obtain ⟨hn, hget⟩ := List.getElem?_eq_some_iff.mp h
  rw [rank, if_pos (mem_of_getElem? h), ← hget, hg.idxOf_getElem]

theorem read_rank (hp : p ∈ g) : CArray.read g (rank g p) = some p := by
  rw [rank, if_pos hp]
  exact getElem?_idxOf hp

theorem rank_bounds (hp : p ∈ g) : 0 ≤ rank g p ∧ rank g p < g.length := read_eq_some_bounds (read_rank hp)

theorem ranks_ascend {g l : List α} (hg : g.Nodup) (hl : l.Sublist g) : (l.map (rank g)).Pairwise (· < ·) := by
  have hall : g.map (rank g) = (range g.length).map (fun n : Nat => (n : Int)) := by
    apply ext_getElem?
    intro n
    by_cases hn : n < g.length
    · rw [getElem?_map, getElem?_map, getElem?_range hn, getElem?_eq_getElem hn]
      have hread : CArray.read g (n : Int) = some g[n] := by
        rw [read_natCast, getElem?_eq_getElem hn]
      rw [Option.map_some, Option.map_some, rank_of_read hg hread]
    · rw [getElem?_eq_none (by simpa using hn), getElem?_eq_none (by simpa using hn)]
  have hsub := hl.map (rank g)
  rw [hall] at hsub
  refine Pairwise.sublist hsub ?_
  rw [pairwise_map]
  exact pairwise_lt_range.imp (fun h => by omega)

private theorem translateRanks_take (g h : List α) (n : Nat) (hn : n ≤ g.length) :
    translateRanks g ((range n).map (fun k : Nat => (k : Int))) h = some ((g.take n).map (rank h)) := by
  induction n with
  | zero => rfl
  | succ n ih =>
    have hlt : n < g.length := by omega
    have hread : CArray.read g (n : Int) = some g[n] := by
      rw [read_natCast, getElem?_eq_getElem hlt]
    unfold translateRanks at ih ⊢
    rw [range_succ, map_append, mapM_append, ih (by omega), take_succ_eq_append_getElem hlt, map_append]
    simp [hread]

theorem translateRanks_all (g h : List α) :
    translateRanks g ((range g.length).map (fun k : Nat => (k : Int))) h = some (g.map (rank h)) := by
  rw [translateRanks_take g h g.length le_rfl, take_length]

/-- The processes with the colour of `p`, in their order, when every process passes the same key. -/
def split (g : List α) (color : α → Int) (p : α) : List α := g.filter fun q => color q = color p

section Halves

variable {g : List α} (hg : g.Nodup) (n : Nat) {p : α}

include hg

theorem rank_take (hp : p ∈ g) (hlt : rank g p < n) : p ∈ g.take n ∧ rank (g.take n) p = rank g p := by
  obtain ⟨h0, _⟩ := rank_bounds hp
  have hread : CArray.read (g.take n) (rank g p) = some p := by
    rw [← read_rank hp, CArray.read, CArray.read, if_pos h0, if_pos h0, getElem?_take_of_lt (by omega)]
  exact ⟨mem_iff_read.mpr ⟨_, hread⟩, rank_of_read (hg.sublist (take_sublist n g)) hread⟩

theorem rank_drop (hp : p ∈ g) (hle : n ≤ rank g p) : p ∈ g.drop n ∧ rank (g.drop n) p = rank g p - n := by
  have hread : CArray.read (g.drop n) (rank g p - n) = some p := by
    rw [← read_rank hp, CArray.read, CArray.read, if_pos (by omega), if_pos (by omega), getElem?_drop]
    congr 1
    omega
  exact ⟨mem_iff_read.mpr ⟨_, hread⟩, rank_of_read (hg.sublist (drop_sublist n g)) hread⟩

theorem rank_lt_iff (hp : p ∈ g) : rank g p < n ↔ p ∈ g.take n := by
  refine ⟨fun hlt => (rank_take hg n hp hlt).1, fun hmem => ?_⟩
  by_contra hge
  exact disjoint_take_drop hg le_rfl hmem (rank_drop hg n hp (by omega)).1

theorem split_half :
    split g (fun q => if rank g q < n then 0 else 1) p = if rank g p < n then g.take n else g.drop n := by
  have hlow : ∀ q ∈ g.take n, rank g q < n := fun q hq => (rank_lt_iff hg n (mem_of_mem_take hq)).mpr hq
  have hhigh : ∀ q ∈ g.drop n, ¬ rank g q < n := fun q hq hlt =>
    disjoint_take_drop hg le_rfl ((rank_lt_iff hg n (mem_of_mem_drop hq)).mp hlt) hq
  rw [split]
  conv_lhs => arg 2; rw [← take_append_drop n g]
  rw [filter_append]
  split
  · rw [filter_eq_self.mpr (fun q hq => by simp [hlow q hq]), filter_eq_nil_iff.mpr (fun q hq => by simp [hhigh q hq]),
      append_nil]
  · rw [filter_eq_nil_iff.mpr (fun q hq => by simp [hlow q hq]), filter_eq_self.mpr (fun q hq => by simp [hhigh q hq]),
      nil_append]

end Halves

end ProcGroup
