import ParepMpi.Heap.Malloc

/-!
# The representation invariant

`Invariant h live` is what the allocator keeps up between two calls: the heap is at rest, and its nodes outside of all
lists are the live allocations, one for each.
-/

namespace ParepMpi

open Tiling List

/-- A pointer that the application got and has not freed, with the number of bytes it asked for. -/
structure Alloc where
  ptr : Nat
  len : Nat
  deriving DecidableEq, Repr

namespace Heap

variable {h h' : Heap} {g g' : Layout} {E E' : Set Nat} {x y : Tile} {a n p v : Nat} {live : List Alloc} {e : Alloc}

structure Live (h : Heap) (g : Layout) (live : List Alloc) : Prop where
  nodup : live.Nodup
  held : ∀ e ∈ live, ∃ x, g.Used x ∧ Holds h x e.ptr e.len
  used : ∀ x, g.Used x → ∃ e ∈ live, Holds h x e.ptr e.len
  single : ∀ x, g.Used x → ∀ e ∈ live, ∀ e' ∈ live, x.addr ≤ e.ptr → e.ptr < x.addr + 32 + x.size →
    x.addr ≤ e'.ptr → e'.ptr < x.addr + 32 + x.size → e = e'

def Invariant (h : Heap) (live : List Alloc) : Prop := ∃ g, Rest h g ∅ ∧ Live h g live

theorem Holds.inside (hh : Holds h x p n) : x.addr + 8 ≤ p ∧ p < x.addr + 32 + x.size := by
  obtain ⟨hlo, hhi, _⟩ := hh
  omega

theorem Kept.holds (hk : Kept h g E h' g' E') (hu : g.Used x) (hE : x.addr ∉ E) (hh : Holds h x p n) :
    Holds h' x p n := by
  obtain ⟨hlo, hhi, h8, hback⟩ := hh
  refine ⟨hlo, hhi, h8, hback.imp_right fun hb => ⟨hb.1, ?_⟩⟩
  rw [hk.mem x hu hE _ (by omega) (by omega)]
  exact hb.2

theorem Shape.eq_of_inside {T : List Tile} (hs : Shape h T) (hx : x ∈ T) (hy : y ∈ T)
    (hpx : x.addr ≤ p ∧ p < x.addr + 32 + x.size) (hpy : y.addr ≤ p ∧ p < y.addr + 32 + y.size) : x = y := by
  rcases hs.disjoint hx hy with heq | hd | hd
  · exact heq
  · omega
  · omega

namespace Live

variable (hl : Live h g live)

include hl

theorem disjoint (hs : Shape h g.tiles) {e' : Alloc} (he : e ∈ live) (he' : e' ∈ live)
    (hne : e ≠ e') : e.ptr + e.len ≤ e'.ptr ∨ e'.ptr + e'.len ≤ e.ptr := by
  obtain ⟨x, hx, hhx⟩ := hl.held e he
  obtain ⟨y, hy, hhy⟩ := hl.held e' he'
  have hix := hhx.inside
  have hiy := hhy.inside
  rcases hs.disjoint hx.1 hy.1 with rfl | hd | hd
  · exact absurd (hl.single x hx e he e' he' (by omega) (by omega) (by omega) (by omega)) hne
  · have := hhx.2.1
    omega
  · have := hhy.2.1
    omega

theorem keep (hk : Kept h g ∅ h' g' ∅) : Live h' g' live := by
  have hused : ∀ x, g.Used x ↔ g'.Used x := by
    intro x
    simpa using hk.used x
  refine ⟨hl.nodup, ?_, ?_, ?_⟩
  · intro e he
    obtain ⟨x, hx, hh⟩ := hl.held e he
    exact ⟨x, (hused x).mp hx, hk.holds hx (Set.notMem_empty _) hh⟩
  · intro x hx
    obtain ⟨e, he, hh⟩ := hl.used x ((hused x).mpr hx)
    exact ⟨e, he, hk.holds ((hused x).mpr hx) (Set.notMem_empty _) hh⟩
  · intro x hx
    exact hl.single x ((hused x).mpr hx)

theorem alloc (ha : Allocated h g h' g' x p n) : Live h' g' (⟨p, n⟩ :: live) := by
  have hs' := ha.rest.shape
  have hold : ∀ y, g.Used y → g'.Used y ∧ y.addr ≠ x.addr := fun y hy =>
    (ha.kept.used y).mp ⟨hy, Set.notMem_empty _⟩
  have hnew : ∀ y, g'.Used y → y.addr ≠ x.addr → g.Used y := fun y hy hne =>
    ((ha.kept.used y).mpr ⟨hy, hne⟩).1
  have hip := ha.holds.inside
  -- No pointer that was live before points into the new node.
  have hfree : ∀ e ∈ live, ¬ (x.addr ≤ e.ptr ∧ e.ptr < x.addr + 32 + x.size) := by
    intro e he hin
    obtain ⟨y, hy, hh⟩ := hl.held e he
    have hie := hh.inside
    obtain ⟨hy', hne⟩ := hold y hy
    exact hne (congrArg _ (hs'.eq_of_inside hy'.1 ha.used.1 (by omega) hin))
  have hapart : ∀ y, g'.Used y → y.addr ≠ x.addr → ¬ (y.addr ≤ p ∧ p < y.addr + 32 + y.size) := by
    intro y hy hne hin
    exact hne (congrArg _ (hs'.eq_of_inside hy.1 ha.used.1 hin (by omega)))
  refine ⟨?_, ?_, ?_, ?_⟩
  · refine nodup_cons.mpr ⟨fun hmem => hfree _ hmem (by simp only; omega), hl.nodup⟩
  · intro e he
    rcases mem_cons.mp he with rfl | he
    · exact ⟨x, ha.used, ha.holds⟩
    · obtain ⟨y, hy, hh⟩ := hl.held e he
      exact ⟨y, (hold y hy).1, ha.kept.holds hy (Set.notMem_empty _) hh⟩
  · intro y hy
    by_cases hne : y.addr = x.addr
    · obtain rfl := hs'.eq_of_addr hy.1 ha.used.1 hne
      exact ⟨_, mem_cons_self, ha.holds⟩
    · obtain ⟨e, he, hh⟩ := hl.used y (hnew y hy hne)
      exact ⟨e, mem_cons_of_mem _ he, ha.kept.holds (hnew y hy hne) (Set.notMem_empty _) hh⟩
  · intro y hy e he e' he' hlo hhi hlo' hhi'
    by_cases hne : y.addr = x.addr
    · obtain rfl := hs'.eq_of_addr hy.1 ha.used.1 hne
      have hpick : ∀ f ∈ (⟨p, n⟩ : Alloc) :: live, y.addr ≤ f.ptr → f.ptr < y.addr + 32 + y.size → f = ⟨p, n⟩ := by
        intro f hf hflo hfhi
        rcases mem_cons.mp hf with rfl | hf
        · rfl
        · exact absurd ⟨hflo, hfhi⟩ (hfree f hf)
      rw [hpick e he hlo hhi, hpick e' he' hlo' hhi']
    · have hpick : ∀ f ∈ (⟨p, n⟩ : Alloc) :: live, y.addr ≤ f.ptr → f.ptr < y.addr + 32 + y.size → f ∈ live := by
        intro f hf hflo hfhi
        rcases mem_cons.mp hf with rfl | hf
        · exact absurd ⟨hflo, hfhi⟩ (hapart y hy hne)
        · exact hf
      exact hl.single y (hnew y hy hne) e (hpick e he hlo hhi) e' (hpick e' he' hlo' hhi') hlo hhi hlo' hhi'

theorem release (he : e ∈ live) (hu : g.Used x) (hh : Holds h x e.ptr e.len) (hk : Kept h g {x.addr} h' g' ∅)
    (hs : Shape h g.tiles) : Live h' g' (live.erase e) := by
  have hold : ∀ y, g.Used y → y.addr ≠ x.addr → g'.Used y := fun y hy hne => ((hk.used y).mp ⟨hy, hne⟩).1
  have hnew : ∀ y, g'.Used y → g.Used y ∧ y.addr ≠ x.addr := fun y hy =>
    (hk.used y).mpr ⟨hy, Set.notMem_empty _⟩
  have hie := hh.inside
  have hmem : ∀ f, f ∈ live.erase e ↔ f ≠ e ∧ f ∈ live := fun f => hl.nodup.mem_erase_iff
  refine ⟨hl.nodup.erase _, ?_, ?_, ?_⟩
  · intro f hf
    obtain ⟨hfe, hf⟩ := (hmem f).mp hf
    obtain ⟨y, hy, hhy⟩ := hl.held f hf
    have hif := hhy.inside
    have hne : y.addr ≠ x.addr := by
      intro heq
      obtain rfl := hs.eq_of_addr hy.1 hu.1 heq
      exact hfe (hl.single y hy f hf e he (by omega) (by omega) (by omega) (by omega))
    exact ⟨y, hold y hy hne, hk.holds hy hne hhy⟩
  · intro y hy
    obtain ⟨hy, hne⟩ := hnew y hy
    obtain ⟨f, hf, hhy⟩ := hl.used y hy
    have hif := hhy.inside
    refine ⟨f, (hmem f).mpr ⟨?_, hf⟩, hk.holds hy hne hhy⟩
    rintro rfl
    exact hne (congrArg _ (hs.eq_of_inside hy.1 hu.1 (p := f.ptr) (by omega) (by omega)))
  · intro y hy f hf f' hf'
    exact hl.single y (hnew y hy).1 f ((hmem f).mp hf).2 f' ((hmem f').mp hf').2

theorem overwrite (he : e ∈ live) (hr : Rest h g ∅) {b : Nat} (ho : Overwritten h a b h') (hlo : e.ptr ≤ a)
    (hhi : b ≤ e.ptr + e.len) : Rest h' g ∅ ∧ Live h' g live := by
  obtain ⟨x, hx, hh⟩ := hl.held e he
  have hie := hh.inside
  have hend := hh.2.1
  have hk : Kept h g {x.addr} h' g {x.addr} := Kept.overwrite hr.shape hx.1 rfl ho (by omega) (by omega)
  -- The back pointer of an allocation lies before its bytes.
  have hholds : ∀ y, g.Used y → ∀ f ∈ live, Holds h y f.ptr f.len → Holds h' y f.ptr f.len := by
    intro y hy f hf hhy
    by_cases hyx : y.addr = x.addr
    · obtain rfl := hr.shape.eq_of_addr hy.1 hx.1 hyx
      have hif := hhy.inside
      obtain rfl := hl.single y hy f hf e he (by omega) (by omega) (by omega) (by omega)
      obtain ⟨h1, h2, h3, hback⟩ := hhy
      refine ⟨h1, h2, h3, hback.imp_right fun hb => ⟨hb.1, ?_⟩⟩
      rw [ho.mem _ (by omega)]
      exact hb.2
    · exact hk.holds hy hyx hhy
  refine ⟨hr.overwrite hx.1 hx.2 ho (by omega) (by omega), hl.nodup, ?_, ?_, hl.single⟩
  · intro f hf
    obtain ⟨y, hy, hhy⟩ := hl.held f hf
    exact ⟨y, hy, hholds y hy f hf hhy⟩
  · intro y hy
    obtain ⟨f, hf, hhy⟩ := hl.used y hy
    exact ⟨f, hf, hholds y hy f hf hhy⟩

theorem write (he : e ∈ live) (hr : Rest h g ∅) (hlo : e.ptr ≤ a) (hhi : a < e.ptr + e.len) :
    Rest (h.put a v) g ∅ ∧ Live (h.put a v) g live :=
  hl.overwrite he hr (overwritten_put h a v) hlo hhi

end Live

theorem addNode_whole {S : Nat} (hpos : 0 < h.start) (h8 : 8 ∣ h.start) (hS : 8 ∣ S) (hroom : heapSize ≤ S + 32)
    (hstop : h.stop = h.start + 32 + S) (hmapped : h.stop ≤ h.mapEnd) (hlimit : h.stop ≤ addressLimit)
    (hbins : ∀ i, h.bins i = 0) (hfast : ∀ i, h.fastbins i = 0) (hhead : h.mem h.start = 2 * 2 ^ 62 + S)
    (hfoot : h.mem (h.start + 24 + S) = h.start) :
    ∃ h', h.addNode (getBinIndex S) h.start = some h' ∧ h'.start = h.start ∧ Invariant h' [] := by
  let x : Tile := ⟨h.start, S⟩
  let g : Layout := ⟨[x], fun _ => .out⟩
  have hshape : Shape h g.tiles := by
    refine ⟨hpos, by omega, hmapped, hlimit, ⟨rfl, ?_, ?_⟩, ?_, ?_, ?_⟩
    · simp only [Tile.stop]
      omega
    · exact hstop.symm
    · intro y hy
      obtain rfl := mem_singleton.mp hy
      exact ⟨h8, hS⟩
    · intro y hy
      obtain rfl := mem_singleton.mp hy
      exact ⟨2, by omega, hhead⟩
    · intro y hy
      obtain rfl := mem_singleton.mp hy
      exact hfoot
  have hrest : Rest h g {h.start} := by
    refine ⟨hshape, ⟨fun i => ⟨[], LinkedList.DList.nil_iff.mpr (hbins i), nodup_nil, by simp [g]⟩,
      fun i => ⟨[], hfast i, nodup_nil, by simp [g]⟩, fun a ha => absurd rfl ha⟩, ?_, ?_⟩
    · intro y hy hne
      obtain rfl := mem_singleton.mp hy
      exact absurd rfl hne
    · intro y _ _ i hi
      cases hi
  obtain ⟨h', g', hrun, hr', hk', _⟩ := hrest.addLast (x := x) (mem_singleton.mpr rfl) hstop.symm rfl hhead
    (fun y _ _ i hi => by cases hi)
  refine ⟨h', hrun, hk'.start, g', hr', nodup_nil, by simp, fun y hy => ?_, by simp⟩
  obtain ⟨hy, hne⟩ := (hk'.used y).mpr ⟨hy, Set.notMem_empty _⟩
  obtain rfl := mem_singleton.mp hy.1
  exact absurd rfl hne

theorem initHeap_spec (mem : Nat → Nat) {start : Nat} (hpos : 0 < start) (h8 : 8 ∣ start)
    (hlimit : start + heapSize ≤ addressLimit) :
    ∃ h, initHeap mem start = some h ∧ h.start = start ∧ Invariant h [] := by
  obtain ⟨S, hS, hS8, hlt⟩ : ∃ S, heapSize = S + 32 ∧ 8 ∣ S ∧ S < 2 ^ 62 := by
    refine ⟨262112, ?_, ?_, ?_⟩ <;> decide
  have hsize : heapSize - 24 - 8 = S := by omega
  let h₀ : Heap :=
    { mem := mem, start := start, stop := start + heapSize, mapEnd := start + heapSize,
      bins := fun _ => 0, fastbins := fun _ => 0, extHeapSize := heapSize }
  let h₁ := h₀.put start (2 * 2 ^ 62 + S)
  let h₂ := h₁.put (start + 24 + S) start
  have hmapped : h₀.Mapped start := ⟨h8, le_rfl, by simp only [h₀]; omega⟩
  have hfootMapped : h₁.Mapped (start + 24 + S) :=
    ⟨by omega, by simp only [h₁, h₀, put_start]; omega, by simp only [h₁, h₀, put_mapEnd]; omega⟩
  have hhead : h₂.mem start = 2 * 2 ^ 62 + S := by
    rw [put_mem_of_ne (by omega)]
    exact put_mem_self
  obtain ⟨h₃, hrun, hstart, hinv⟩ := addNode_whole (h := h₂) hpos h8 hS8 (by omega)
    (show start + heapSize = start + 32 + S by omega) le_rfl hlimit (fun _ => rfl) (fun _ => rfl) hhead
    put_mem_self
  refine ⟨h₃, ?_, hstart, hinv⟩
  have hmodify : h₀.modify start (fun w => setSize (setFast (setHole w 1) 0) (heapSize - 24 - 8)) = some h₁ := by
    rw [modify_eq hmapped, hsize, holeWord_size hlt]
  have hcreate : h₁.createFoot start = some h₂ := createFoot_word (put_mapped.mpr hmapped) put_mem_self hlt hfootMapped
  have hload : h₂.load start = some (2 * 2 ^ 62 + S) := by
    rw [load_eq (h := h₂) hmapped, hhead]
  simp only [initHeap, Option.bind_eq_bind]
  rw [hmodify, Option.bind_some, hcreate, Option.bind_some, hload, Option.bind_some, getSize_word hlt]
  exact hrun

end Heap

end ParepMpi
