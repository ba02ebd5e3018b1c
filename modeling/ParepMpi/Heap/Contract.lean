import ParepMpi.Heap.Live

/-!
# The contract of `parep_mpi_malloc`

A request of `n` bytes gets a pointer to `n` bytes of one node that no other allocation has, or NULL when the heap has
no room for it and cannot be expanded.
-/

namespace ParepMpi

open Option

namespace Heap

variable {h h' : Heap} {g : Layout} {live : List Alloc} {mremap : Nat → Bool} {i n p size found : Nat}

/-- No stretch without allocated nodes has room for a node of size `s`, and the heap cannot be expanded. -/
def Exhausted (mremap : Nat → Bool) (h : Heap) (live : List Alloc) (s : Nat) : Prop :=
  (∃ g, Rest h g ∅ ∧ Live h g live ∧ ∀ a b, h.start ≤ a → b ≤ h.stop → g.Gap a b → b < a + 32 + s) ∧
    (heapMaxSize ≤ h.stop - h.start ∨ Refused mremap h)

/-- The `n` bytes at `p` lie in one node, between header word and footer, and in no other allocation. -/
def Provided (h : Heap) (live : List Alloc) (p n : Nat) : Prop :=
  (∃ g x, Rest h g ∅ ∧ Live h g (⟨p, n⟩ :: live) ∧ g.Used x ∧ x.addr + 8 ≤ p ∧ p + n ≤ x.addr + 24 + x.size) ∧
    ∀ e ∈ live, e.ptr + e.len ≤ p ∨ p + n ≤ e.ptr

def MallocContract (mremap : Nat → Bool) (h : Heap) (live : List Alloc) (n : Nat) : Prop :=
  ∃ h' p, h.malloc mremap n = some (h', p) ∧ (p = 0 ∧ Exhausted mremap h' live (searchSize n) ∨
      8 ∣ p ∧ (alignedSize ≤ roundedSize n → 32 ∣ p) ∧ Provided h' live p n)

theorem Rest.malloc_contract (hr : Rest h g ∅) (hl : Live h g live) (hpos : 0 < n) (hlt : n < 2 ^ 64 - 32) :
    MallocContract mremap h live n := by
  obtain ⟨h', g', p, hrun, hcase⟩ := hr.malloc mremap hpos hlt
  refine ⟨h', p, hrun, ?_⟩
  rcases hcase with ⟨hp, hd⟩ | ⟨hp, x, ha, h32⟩
  · exact .inl ⟨hp, ⟨g', hd.rest, hl.keep hd.kept, hd.short⟩, hd.refused⟩
  · have hl' := hl.alloc ha
    obtain ⟨hlo, hhi, h8, _⟩ := ha.holds
    refine .inr ⟨h8, fun hbig => by rwa [if_pos hbig] at h32, ⟨g', x, ha.rest, hl', ha.used, hlo, hhi⟩, ?_⟩
    intro e he
    have hne : e ≠ ⟨p, n⟩ := by
      rintro rfl
      exact (List.nodup_cons.mp hl'.nodup).1 he
    exact hl'.disjoint ha.rest.shape (List.mem_cons_of_mem _ he) List.mem_cons_self hne

theorem carve_ne_zero (hrun : h.carve i found size = some (h', p)) : p ≠ 0 := by
  simp only [carve, splitLead_eq, bind_eq_bind, bind_some] at hrun
  obtain ⟨h₁, _, hrun⟩ := bind_eq_some_iff.mp hrun
  obtain ⟨h₂, _, hrun⟩ := bind_eq_some_iff.mp hrun
  obtain ⟨h₃, _, hrun⟩ := bind_eq_some_iff.mp hrun
  obtain ⟨h₄, _, hrun⟩ := bind_eq_some_iff.mp hrun
  obtain ⟨h₅, _, hrun⟩ := bind_eq_some_iff.mp hrun
  split at hrun
  · obtain ⟨h₆, _, hrun⟩ := bind_eq_some_iff.mp hrun
    cases hrun
    unfold aligned
    omega
  · cases hrun
    omega

section Wrapped

variable (hn : 2 ^ 64 - 32 ≤ n) (hlt : n < 2 ^ 64)

include hn hlt

theorem searchSize_wrapped : searchSize n ≤ 24 := by
  unfold searchSize roundedSize alignedSize add64
  split <;> omega

theorem malloc_wrapped {h₁ : Heap} {index : Nat} (hfind : h.findNode mremap n = some (h₁, index, found)) :
    h.malloc mremap n = if found = 0 then some (h₁, 0) else h₁.carve index found (roundedSize n) := by
  have hsize : ¬ (roundedSize n ≤ 64 ∧ h.fastbins (roundedSize n / 8) ≠ 0) := by
    unfold roundedSize
    omega
  rw [malloc, if_neg (by omega)]
  simp only [if_neg hsize, hfind, bind_eq_bind, bind_some]

theorem not_provided : ¬ Provided h live p n := by
  rintro ⟨⟨g, x, hr, _, hu, _, hhi⟩, _⟩
  have hb := hr.shape.bounds hu.1
  have hl := hr.shape.limit
  unfold addressLimit at hl
  omega

theorem exhausted_of_contract (hr : Rest h g ∅) (hl : Live h g live) (hc : MallocContract mremap h live n) :
    Exhausted mremap h live (searchSize n) := by
  obtain ⟨h', p, hrun, hc⟩ := hc
  have hsearch := searchSize_wrapped hn hlt
  obtain ⟨h₁, g₁, index, found, hfind, hs⟩ := hr.findNode mremap n
  rw [malloc_wrapped hn hlt hfind] at hrun
  rcases hc with ⟨rfl, _⟩ | ⟨_, _, hp⟩
  · have hfound : found = 0 := by
      by_contra hne
      rw [if_neg hne] at hrun
      exact carve_ne_zero hrun rfl
    -- A heap that was expanded would have had room for so small a node.
    have hstop : h₁.stop = h.stop := by
      rcases hs.grown with heq | ⟨_, a, b, ha, hb, hgap, hlen⟩
      · exact heq
      · have := hs.short hfound a b ha hb hgap
        unfold heapSize at hlen
        omega
    refine ⟨⟨g, hr, hl, fun a b ha hb hgap => ?_⟩, ?_⟩
    · exact hs.short hfound a b (by rw [hs.kept.start]; exact ha) (hstop ▸ hb) (hs.kept.gap.mp hgap)
    · have := hs.refused hfound
      simpa only [Refused, expansion, hstop, hs.kept.start] using this
  · exact absurd hp (not_provided hn hlt)

theorem contract_of_exhausted (he : Exhausted mremap h live (searchSize n)) : MallocContract mremap h live n := by
  obtain ⟨⟨g, hr, hl, hshort⟩, hstuck⟩ := he
  obtain ⟨h₁, g₁, index, found, hfind, hs⟩ := hr.findNode mremap n
  have hfound : found = 0 := by
    by_contra hne
    obtain ⟨x, hx, _, hp, hfit⟩ := hs.fit hne
    have hb := hs.rest.shape.bounds hx
    rcases hs.grown with hstop | ⟨hmore, _⟩
    · have hgap : g₁.Gap x.addr (x.addr + 32 + x.size) := by
        intro y hy
        rcases hs.rest.shape.disjoint hx hy.1 with rfl | hd | hd
        · rw [hy.2] at hp
          cases hp
        · exact .inr hd
        · exact .inl hd
      have := hshort x.addr (x.addr + 32 + x.size) (by rw [← hs.kept.start]; exact hb.1) (by omega)
        (hs.kept.gap.mpr hgap)
      omega
    · exact hmore hstuck
  subst hfound
  refine ⟨h₁, 0, by rw [malloc_wrapped hn hlt hfind, if_pos rfl], .inl ⟨rfl, ?_⟩⟩
  exact ⟨⟨g₁, hs.rest, hl.keep hs.kept, hs.short rfl⟩, hs.refused rfl⟩

end Wrapped

/-- `parep_mpi_malloc` keeps its contract for every request but the last 32 values of `size_t`; for those it does
when no node of the wrapped size can be had. -/
theorem malloc_contract_iff (hinv : Invariant h live) (hpos : 0 < n) (hn : n < 2 ^ 64) :
    MallocContract mremap h live n ↔ n < 2 ^ 64 - 32 ∨ Exhausted mremap h live (searchSize n) := by
  obtain ⟨g, hr, hl⟩ := hinv
  constructor
  · intro hc
    rcases lt_or_ge n (2 ^ 64 - 32) with hlt | hge
    · exact .inl hlt
    · exact .inr (exhausted_of_contract hge hn hr hl hc)
  · intro hcond
    rcases lt_or_ge n (2 ^ 64 - 32) with hlt | hge
    · exact hr.malloc_contract hl hpos hlt
    · exact contract_of_exhausted hge hn (hcond.resolve_left (not_lt.mpr hge))

def heapStart : Nat := 0x300000000000

theorem fresh_heap : ∃ h, initHeap (fun _ => 0) heapStart = some h ∧ Invariant h [] := by
  obtain ⟨h, hrun, _, hinv⟩ := initHeap_spec (fun _ => 0) (show 0 < heapStart by decide) (by decide) (by decide)
  exact ⟨h, hrun, hinv⟩

theorem fresh_heap_serves_page : ∃ h, initHeap (fun _ => 0) heapStart = some h ∧
    MallocContract (fun _ => true) h [] 4096 := by
  obtain ⟨h, hrun, hinv⟩ := fresh_heap
  exact ⟨h, hrun, (malloc_contract_iff hinv (by decide) (by decide)).mpr (.inl (by decide))⟩

theorem fresh_heap_malloc_max :
    ((initHeap (fun _ => 0) heapStart).bind fun h => (h.malloc (fun _ => true) (2 ^ 64 - 1)).map Prod.snd) =
      some (heapStart + 32) := by
  decide +kernel

/-- A request for all of memory gets a pointer into the fresh heap. -/
theorem fresh_heap_breaks_contract : ∃ h h', initHeap (fun _ => 0) heapStart = some h ∧ Invariant h [] ∧
    h.malloc (fun _ => true) (2 ^ 64 - 1) = some (h', heapStart + 32) ∧
      ¬ MallocContract (fun _ => true) h [] (2 ^ 64 - 1) := by
  obtain ⟨h, hrun, hinv⟩ := fresh_heap
  have hmalloc := fresh_heap_malloc_max
  rw [hrun] at hmalloc
  obtain ⟨⟨h', p⟩, hm, rfl⟩ := map_eq_some_iff.mp hmalloc
  refine ⟨h, h', hrun, hinv, hm, ?_⟩
  rintro ⟨h₁, p, hrun₁, hc⟩
  rw [hm] at hrun₁
  cases hrun₁
  rcases hc with ⟨hzero, _⟩ | ⟨_, _, hp⟩
  · exact absurd hzero (by decide)
  · exact not_provided (by decide) (by decide) hp

end Heap

end ParepMpi
