import ParepMpi.Heap.Contract

/-!
# `parep_mpi_realloc` and `parep_mpi_calloc`

Both take a new block from `parep_mpi_malloc` and write all of it, without a look at the pointer: where there is no
block, they write to address 0.
-/

namespace ParepMpi

open Bytewise List Option

namespace Heap

variable {h h' : Heap} {g : Layout} {live : List Alloc} {mremap : Nat → Bool} {e : Alloc} {n p a nmemb size : Nat}
  {b : Nat → Nat}

def Accessible (h : Heap) (a n : Nat) : Prop := 0 < n → h.start ≤ a ∧ a + n ≤ h.mapEnd

instance (h : Heap) (a n : Nat) : Decidable (h.Accessible a n) := inferInstanceAs (Decidable (_ → _))

def memcpy (h : Heap) (dst src n : Nat) : Option Heap :=
  if h.Accessible dst n ∧ h.Accessible src n then some (h.fill dst n (h.window src)) else none

def memset (h : Heap) (a c n : Nat) : Option Heap := if h.Accessible a n then some (h.fill a n fun _ => c) else none

/-- `parep_mpi_realloc`, with the new pointer and the stretches of memory that it has copied from. -/
def realloc (mremap : Nat → Bool) (h : Heap) (oldPtr newSize : Nat) : Option (Heap × Nat × List (Nat × Nat)) :=
  if oldPtr = 0 then do
    let (h, p) ← h.malloc mremap newSize
    some (h, p, [])
  else if newSize = 0 then do
    let h ← h.free oldPtr
    some (h, 0, [])
  else do
    let (h, reallocated) ← h.malloc mremap newSize
    let h ← h.memcpy reallocated oldPtr newSize
    let h ← h.free oldPtr
    some (h, reallocated, [(oldPtr, newSize)])

def calloc (mremap : Nat → Bool) (h : Heap) (nmemb size : Nat) : Option (Heap × Nat) := do
  let (h, retval) ← h.malloc mremap (nmemb * size % 2 ^ 64)
  let h ← h.memset retval 0 (nmemb * size % 2 ^ 64)
  some (h, retval)

def ReallocContract (mremap : Nat → Bool) (h : Heap) (live : List Alloc) (e : Alloc) (n : Nat) : Prop :=
  ∃ h' p reads, h.realloc mremap e.ptr n = some (h', p, reads) ∧
    (∀ r ∈ reads, e.ptr ≤ r.1 ∧ r.1 + r.2 ≤ e.ptr + e.len) ∧
    (p = 0 ∧ h'.Invariant live ∧ (∀ o < e.len, h'.window e.ptr o = h.window e.ptr o) ∨
      p ≠ 0 ∧ h'.Invariant (⟨p, n⟩ :: live.erase e) ∧ ∀ o < min e.len n, h'.window p o = h.window e.ptr o)

def CallocContract (mremap : Nat → Bool) (h : Heap) (live : List Alloc) (nmemb size : Nat) : Prop :=
  ∃ h' p, h.calloc mremap nmemb size = some (h', p) ∧ (p = 0 ∧ h'.Invariant live ∨
      p ≠ 0 ∧ h'.Invariant (⟨p, nmemb * size⟩ :: live) ∧ ∀ o < nmemb * size, h'.window p o = 0)

def Granted (mremap : Nat → Bool) (h : Heap) (n : Nat) : Prop := ∃ h' p, h.malloc mremap n = some (h', p) ∧ p ≠ 0

theorem overwritten_fill (h : Heap) (n : Nat) (b : Nat → Nat) (ha : 8 ∣ a) : Overwritten h a (a + n) (h.fill a n b) :=
  ⟨rfl, rfl, rfl, rfl, rfl, fun _ => fill_mem_outside ha⟩

theorem Live.accessible (hl : Live h g live) (hr : Rest h g ∅) (he : e ∈ live) (hn : n ≤ e.len) :
    h.Accessible e.ptr n ∧ e.ptr + n ≤ addressLimit := by
  obtain ⟨x, hx, hh⟩ := hl.held e he
  have hb := hr.shape.bounds hx.1
  have hm := hr.shape.mapped
  have hlimit := hr.shape.limit
  obtain ⟨hlo, hhi, _⟩ := hh
  refine ⟨fun _ => ⟨by omega, by omega⟩, by omega⟩

theorem Kept.window_eq {x : Tile} {g' : Layout} {E E' : Set Nat} (hk : Kept h g E h' g' E') (hu : g.Used x)
    (hE : x.addr ∉ E) (hh : Holds h x p n) (hlimit : p + n ≤ addressLimit) {o : Nat} (ho : o < n) :
    h'.window p o = h.window p o := by
  obtain ⟨hlo, hhi, h8, _⟩ := hh
  unfold addressLimit at hlimit
  exact window_congr (hk.mem x hu hE _ (by omega) (by omega)) (by omega)

theorem realloc_eq (hp : e.ptr ≠ 0) (hn : n ≠ 0) : h.realloc mremap e.ptr n =
    (h.malloc mremap n).bind fun r => (r.1.memcpy r.2 e.ptr n).bind fun h₂ => (h₂.free e.ptr).map fun h₃ =>
      (h₃, r.2, [(e.ptr, n)]) := by
  rw [realloc, if_neg hp, if_neg hn]
  simp only [map_eq_bind]
  rfl

theorem Live.ptr_ne_zero (hl : Live h g live) (he : e ∈ live) : e.ptr ≠ 0 := by
  obtain ⟨x, _, hh⟩ := hl.held e he
  have := hh.1
  omega

theorem Rest.allocated (hr : Rest h g ∅) (hpos : 0 < n) (hlt : n < 2 ^ 64 - 32)
    (hmalloc : h.malloc mremap n = some (h', p)) (hp : p ≠ 0) : ∃ g' x, Allocated h g h' g' x p n := by
  obtain ⟨h₁, g', p₁, hrun, hcase⟩ := hr.malloc mremap hpos hlt
  obtain ⟨rfl, rfl⟩ := Prod.mk.inj (some_inj.mp (hmalloc.symm.trans hrun))
  obtain ⟨x, ha, _⟩ := (hcase.resolve_left fun hnull => hp hnull.1).2
  exact ⟨g', x, ha⟩

section

variable (hr : Rest h g ∅) (hl : Live h g live) (he : e ∈ live) (hpos : 0 < n)

include hr hl he hpos

theorem Rest.realloc_spec {h₁ : Heap}
    (hlt : n < 2 ^ 64 - 32) (hmalloc : h.malloc mremap n = some (h₁, p)) (hp : p ≠ 0) (hreach : e.ptr + n ≤ h₁.mapEnd)
    (hhigh : h₁.HighStart) :
    ∃ h₂ h₃, h₁.memcpy p e.ptr n = some h₂ ∧ h₂.free e.ptr = some h₃ ∧
      h.realloc mremap e.ptr n = some (h₃, p, [(e.ptr, n)]) ∧ h₃.Invariant (⟨p, n⟩ :: live.erase e) ∧
      ∀ o < min e.len n, h₃.window p o = h.window e.ptr o := by
  obtain ⟨g₁, x, ha⟩ := hr.allocated hpos hlt hmalloc hp
  have hl₁ : Live h₁ g₁ (⟨p, n⟩ :: live) := hl.alloc ha
  have he₁ : e ∈ (⟨p, n⟩ : Alloc) :: live := mem_cons_of_mem _ he
  have hnew : (⟨p, n⟩ : Alloc) ∈ (⟨p, n⟩ : Alloc) :: live := mem_cons_self
  have hne : e ≠ ⟨p, n⟩ := by
    rintro rfl
    exact (nodup_cons.mp hl₁.nodup).1 he
  have h8 : 8 ∣ p := ha.holds.2.2.1
  have hsource : h₁.Accessible e.ptr n := by
    obtain ⟨y, hy, hheld⟩ := hl₁.held e he₁
    have hbounds := ha.rest.shape.bounds hy.1
    have hlo := hheld.1
    exact fun _ => ⟨by omega, hreach⟩
  -- The copy stays inside the new block.
  obtain ⟨h₂, hh₂⟩ : ∃ h₂, h₂ = h₁.fill p n (h₁.window e.ptr) := ⟨_, rfl⟩
  have hcopy : h₁.memcpy p e.ptr n = some h₂ := by
    rw [hh₂]
    exact if_pos ⟨(hl₁.accessible (e := ⟨p, n⟩) ha.rest hnew le_rfl).1, hsource⟩
  have hplimit : p + n ≤ addressLimit := (hl₁.accessible (e := ⟨p, n⟩) ha.rest hnew le_rfl).2
  have ho : Overwritten h₁ p (p + n) h₂ := hh₂ ▸ overwritten_fill h₁ n _ h8
  obtain ⟨hr₂, hl₂⟩ := hl₁.overwrite hnew ha.rest ho le_rfl le_rfl
  obtain ⟨y, hy, hheld⟩ := hl₂.held e he₁
  have hhigh₂ : h₂.HighStart := by
    unfold HighStart at hhigh ⊢
    rw [ho.start, ho.stop]
    exact hhigh
  obtain ⟨h₃, g₃, hfree, hr₃, hk₃, _⟩ := hr₂.free hy hheld hhigh₂
  have hl₃ := hl₂.release he₁ hy hheld hk₃ hr₂.shape
  rw [erase_cons_tail (by simpa using hne.symm)] at hl₃
  refine ⟨h₂, h₃, hcopy, hfree, ?_, ⟨g₃, hr₃, hl₃⟩, ?_⟩
  · rw [realloc_eq (hl.ptr_ne_zero he) (Nat.ne_of_gt hpos), hmalloc, bind_some, hcopy, bind_some, hfree]
    rfl
  · intro o hlt
    obtain ⟨z, hz, hzheld⟩ := hl.held e he
    obtain ⟨x', hx', hxheld⟩ := hl₂.held ⟨p, n⟩ hnew
    have hapart : x'.addr ∉ ({y.addr} : Set Nat) := by
      intro hin
      obtain rfl := hr₂.shape.eq_of_addr hx'.1 hy.1 hin
      have hix := hxheld.inside
      have hie := hheld.inside
      exact hne (hl₂.single x' hy e he₁ ⟨p, n⟩ hnew (by omega) (by omega) (by omega) (by omega))
    calc h₃.window p o = h₂.window p o := hk₃.window_eq hx' hapart hxheld hplimit (show o < n by omega)
      _ = h₁.window e.ptr o := by
          rw [hh₂]
          unfold addressLimit at hplimit
          exact window_fill (by omega) (by omega) fun o => window_lt _ _ o
      _ = h.window e.ptr o :=
          ha.kept.window_eq (n := e.len) hz (Set.notMem_empty _) hzheld (hl.accessible hr he le_rfl).2 (by omega)

theorem Rest.realloc_contract (hn : n ≤ e.len)
    (hgrant : Granted mremap h n) (hhigh : ∀ h' p, h.malloc mremap n = some (h', p) → h'.HighStart) :
    ReallocContract mremap h live e n := by
  obtain ⟨h₁, p, hmalloc, hp⟩ := hgrant
  have hlimit : e.ptr + n ≤ addressLimit := (hl.accessible hr he hn).2
  have hlt : n < 2 ^ 64 - 32 := by
    unfold addressLimit at hlimit
    omega
  have hreach : e.ptr + n ≤ h₁.mapEnd := by
    obtain ⟨g₁, x, ha⟩ := hr.allocated hpos hlt hmalloc hp
    exact (((hl.alloc ha).accessible ha.rest (mem_cons_of_mem _ he) hn).1 hpos).2
  obtain ⟨h₂, h₃, _, _, hrun, hinv, hbytes⟩ := hr.realloc_spec hl he hpos hlt hmalloc hp hreach (hhigh h₁ p hmalloc)
  refine ⟨h₃, p, [(e.ptr, n)], hrun, ?_, .inr ⟨hp, hinv, hbytes⟩⟩
  intro r hmem
  obtain rfl := mem_singleton.mp hmem
  exact ⟨le_rfl, by omega⟩

theorem granted_of_realloc
    (hc : ReallocContract mremap h live e n) : n ≤ e.len ∧ Granted mremap h n := by
  obtain ⟨h', p, reads, hrun, hreads, _⟩ := hc
  rw [realloc_eq (hl.ptr_ne_zero he) (Nat.ne_of_gt hpos)] at hrun
  obtain ⟨⟨h₁, q⟩, hmalloc, hrun⟩ := bind_eq_some_iff.mp hrun
  obtain ⟨h₂, hcopy, hrun⟩ := bind_eq_some_iff.mp hrun
  obtain ⟨h₃, _, heq⟩ := map_eq_some_iff.mp hrun
  obtain ⟨rfl, rfl, rfl⟩ : h₃ = h' ∧ q = p ∧ [(e.ptr, n)] = reads := by simpa using heq
  have hn : n ≤ e.len := by
    have := (hreads _ (mem_singleton_self _)).2
    omega
  refine ⟨hn, h₁, q, hmalloc, ?_⟩
  rintro rfl
  have hlimit := (hl.accessible hr he hn).2
  unfold addressLimit at hlimit
  obtain ⟨h₁', g₁, p, hrun₁, hcase⟩ := hr.malloc mremap hpos (show n < 2 ^ 64 - 32 by omega)
  obtain ⟨rfl, rfl⟩ := Prod.mk.inj (some_inj.mp (hmalloc.symm.trans hrun₁))
  have hstart : 0 < h₁.start := by
    rcases hcase with ⟨_, hd⟩ | ⟨hne, _⟩
    · exact hd.rest.shape.pos
    · exact absurd rfl hne
  rw [memcpy] at hcopy
  split at hcopy
  next hacc =>
    have hle : h₁.start ≤ 0 := (hacc.1 hpos).1
    omega
  next => cases hcopy

end

theorem Rest.calloc_contract (hr : Rest h g ∅) (hl : Live h g live)
    (hcond : nmemb * size % 2 ^ 64 = 0 ∨ nmemb * size < 2 ^ 64 - 32 ∧ Granted mremap h (nmemb * size)) :
    CallocContract mremap h live nmemb size := by
  rcases Nat.eq_zero_or_pos (nmemb * size % 2 ^ 64) with h0 | hpos
  · refine ⟨h.fill 0 0 fun _ => 0, 0, ?_, .inl ⟨rfl, ?_⟩⟩
    · simp only [Heap.calloc, h0, memset]
      rfl
    · have hsame : h.fill 0 0 (fun _ => 0) = h := by
        unfold fill
        congr
        funext w
        exact if_neg (by omega)
      rw [hsame]
      exact ⟨g, hr, hl⟩
  · obtain ⟨hlt, h₁, p, hmalloc, hp⟩ := hcond.resolve_left (Nat.ne_of_gt hpos)
    have hmod : nmemb * size % 2 ^ 64 = nmemb * size := Nat.mod_eq_of_lt (by omega)
    rw [hmod] at hpos
    generalize hprod : nmemb * size = n at *
    obtain ⟨g₁, x, ha⟩ := hr.allocated hpos hlt hmalloc hp
    have hl₁ : Live h₁ g₁ (⟨p, n⟩ :: live) := hl.alloc ha
    have hnew : (⟨p, n⟩ : Alloc) ∈ (⟨p, n⟩ : Alloc) :: live := mem_cons_self
    obtain ⟨hacc, hplimit⟩ := hl₁.accessible (e := ⟨p, n⟩) ha.rest hnew le_rfl
    obtain ⟨hr₂, hl₂⟩ := hl₁.overwrite hnew ha.rest (overwritten_fill h₁ n (fun _ => 0) ha.holds.2.2.1) le_rfl le_rfl
    refine ⟨h₁.fill p n fun _ => 0, p, ?_, .inr ⟨hp, ⟨g₁, by rw [hprod]; exact ⟨hr₂, hl₂⟩⟩, ?_⟩⟩
    · simp only [Heap.calloc, hprod, hmod, hmalloc, bind_eq_bind, bind_some, memset]
      rw [if_pos hacc]
      rfl
    · intro o ho
      unfold addressLimit at hplimit
      exact window_fill (hprod ▸ ho) (by simp only at hplimit; omega) fun _ => by decide

theorem granted_of_calloc (hc : CallocContract mremap h live nmemb size) :
    nmemb * size % 2 ^ 64 = 0 ∨ nmemb * size < 2 ^ 64 - 32 ∧ Granted mremap h (nmemb * size) := by
  obtain ⟨h', p, hrun, hcase⟩ := hc
  rcases Nat.eq_zero_or_pos (nmemb * size % 2 ^ 64) with h0 | hpos
  · exact .inl h0
  · refine .inr ?_
    obtain ⟨⟨h₁, q⟩, hmalloc, hrun⟩ := bind_eq_some_iff.mp hrun
    obtain ⟨h₂, hset, heq⟩ := bind_eq_some_iff.mp hrun
    obtain ⟨rfl, rfl⟩ := Prod.mk.inj (some_inj.mp heq)
    rw [memset] at hset
    split at hset
    next hacc =>
      obtain rfl := some_inj.mp hset
      rcases hcase with ⟨rfl, g', hr', _⟩ | ⟨hp, ⟨g', hr', hl'⟩, _⟩
      · have hstart : 0 < h₁.start := hr'.shape.pos
        have hle : h₁.start ≤ 0 := (hacc hpos).1
        omega
      · have hlimit := (hl'.accessible (e := ⟨q, nmemb * size⟩) hr' mem_cons_self le_rfl).2
        unfold addressLimit at hlimit
        simp only at hlimit
        rw [Nat.mod_eq_of_lt (by omega)] at hmalloc
        exact ⟨by omega, h₁, q, hmalloc, hp⟩
    next => cases hset

/-- `parep_mpi_realloc` keeps its contract exactly when the block gets no longer and there is a new block;
`parep_mpi_calloc` does exactly when the product has not wrapped around and there is a block, or when nothing is left of
the product. -/
theorem realloc_calloc_contract_iff (mremap : Nat → Bool) (hinv : Invariant h live) :
    (∀ e ∈ live, ∀ n, 0 < n → (∀ h' p, h.malloc mremap n = some (h', p) → h'.HighStart) →
      (ReallocContract mremap h live e n ↔ n ≤ e.len ∧ Granted mremap h n)) ∧
    ∀ nmemb size, CallocContract mremap h live nmemb size ↔
      nmemb * size % 2 ^ 64 = 0 ∨ nmemb * size < 2 ^ 64 - 32 ∧ Granted mremap h (nmemb * size) := by
  obtain ⟨g, hr, hl⟩ := hinv
  constructor
  · intro e he n hpos hhigh
    constructor
    · exact granted_of_realloc hr hl he hpos
    · intro hcond
      exact hr.realloc_contract hl he hpos hcond.1 hcond.2 hhigh
  · intro nmemb size
    exact ⟨granted_of_calloc, hr.calloc_contract hl⟩

theorem heap_with_block {n q : Nat} (hpos : 0 < n) (hlt : n < 2 ^ 64 - 32) (hq : q ≠ 0)
    (hrun : ((initHeap (fun _ => 0) heapStart).bind fun h => (h.malloc (fun _ => true) n).map Prod.snd) = some q) :
    ∃ h₀ h, initHeap (fun _ => 0) heapStart = some h₀ ∧ h₀.malloc (fun _ => true) n = some (h, q) ∧
      h.Invariant [⟨q, n⟩] := by
  obtain ⟨h₀, hinit, g, hr, hl⟩ := fresh_heap
  rw [hinit, bind_some] at hrun
  obtain ⟨⟨h, p⟩, hmalloc, rfl⟩ := map_eq_some_iff.mp hrun
  obtain ⟨g', x, ha⟩ := hr.allocated hpos hlt hmalloc hq
  exact ⟨h₀, h, hinit, hmalloc, g', ha.rest, hl.alloc ha⟩

theorem fresh_heap_malloc_twice :
    ((initHeap (fun _ => 0) heapStart).bind fun h => (h.malloc (fun _ => true) 64).bind fun hp =>
      (hp.1.malloc (fun _ => true) 8).map fun hq => (hq.2, decide (hq.1.stop ≤ 2 * hq.1.start))) =
      some (heapStart + 104, true) := by
  decide +kernel

/-- A block of 64 bytes is made shorter, and an array of two words is taken. -/
theorem block_shrinks : ∃ h₀ h, initHeap (fun _ => 0) heapStart = some h₀ ∧
    h₀.malloc (fun _ => true) 64 = some (h, heapStart + 8) ∧
    ReallocContract (fun _ => true) h [⟨heapStart + 8, 64⟩] ⟨heapStart + 8, 64⟩ 8 ∧
    CallocContract (fun _ => true) h [⟨heapStart + 8, 64⟩] 2 4 := by
  obtain ⟨h₀, h, hinit, hmalloc, hinv⟩ := heap_with_block (n := 64) (q := heapStart + 8) (by decide) (by decide)
    (by decide) (by decide +kernel)
  have hrun := fresh_heap_malloc_twice
  rw [hinit, bind_some, hmalloc] at hrun
  obtain ⟨⟨h₁, q⟩, hagain, heq⟩ := map_eq_some_iff.mp hrun
  obtain ⟨rfl, hhigh⟩ := Prod.mk.inj heq
  have hgrant : Granted (fun _ => true) h 8 := ⟨h₁, _, hagain, by decide⟩
  obtain ⟨hrealloc, hcalloc⟩ := realloc_calloc_contract_iff (fun _ => true) hinv
  refine ⟨h₀, h, hinit, hmalloc, ?_, (hcalloc 2 4).mpr (.inr ⟨by decide, hgrant⟩)⟩
  refine (hrealloc _ mem_cons_self 8 (by decide) ?_).mpr ⟨by decide, hgrant⟩
  intro h' p hrun'
  obtain ⟨rfl, _⟩ := Prod.mk.inj (some_inj.mp (hagain.symm.trans hrun'))
  show h₁.stop ≤ 2 * h₁.start
  exact of_decide_eq_true hhigh

/-- A block of 8 bytes is to get 64, and an array is to have `2 ^ 63 + 4` members of two bytes. -/
theorem block_does_not_grow : ∃ h₀ h, initHeap (fun _ => 0) heapStart = some h₀ ∧
    h₀.malloc (fun _ => true) 8 = some (h, heapStart + 8) ∧ h.Invariant [⟨heapStart + 8, 8⟩] ∧
    ¬ ReallocContract (fun _ => true) h [⟨heapStart + 8, 8⟩] ⟨heapStart + 8, 8⟩ 64 ∧
    ¬ CallocContract (fun _ => true) h [⟨heapStart + 8, 8⟩] (2 ^ 63 + 4) 2 := by
  obtain ⟨h₀, h, hinit, hmalloc, hinv⟩ := heap_with_block (n := 8) (q := heapStart + 8) (by decide) (by decide)
    (by decide) (by decide +kernel)
  refine ⟨h₀, h, hinit, hmalloc, hinv, ?_, ?_⟩
  · intro hc
    obtain ⟨g, hr, hl⟩ := hinv
    exact absurd (granted_of_realloc hr hl mem_cons_self (by decide) hc).1 (by decide)
  · intro hc
    rcases granted_of_calloc hc with h0 | ⟨hlt, _⟩
    · exact absurd h0 (by decide)
    · exact absurd hlt (by decide)

end Heap

end ParepMpi
