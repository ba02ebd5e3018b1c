import ParepMpi.Heap.Contract
import ParepMpi.Heap.Memalign
import ParepMpi.Lib.Run

/-!
# Runs of the allocator

The application calls the allocator in any order and writes into what it got. After every such run the heap is at rest
and the live allocations are disjoint, provided that sizes do not wrap around; and an aligned block, whose pointer was
moved, can be freed at any later time. The effect of an event is stated once, and both results follow from it.
-/

namespace ParepMpi

open Tiling Option

/-- A call of the allocator, with what `mremap` would do, or a word that the application writes. -/
inductive HeapEvent where
  | malloc (mremap : Nat → Bool) (n : Nat)
  | memalign (mremap : Nat → Bool) (alignment n : Nat)
  | free (p : Nat)
  | expand (mremap : Nat → Bool) (sz : Nat)
  | write (a v : Nat)

/-- The heap and the live allocations. -/
structure Session where
  heap : Option Heap
  live : List Alloc

namespace Session

variable {s s' : Session} {h : Heap} {e : HeapEvent}

/-- The session after a request of `n` bytes; a NULL pointer is no allocation. -/
def granted (s : Session) (n : Nat) (result : Option (Heap × Nat)) : Session :=
  { heap := result.map Prod.fst
    live := match result with
      | some (_, p) => if p = 0 then s.live else ⟨p, n⟩ :: s.live
      | none => s.live }

/-- The application frees live pointers and writes into its own bytes only. -/
def step (s : Session) (e : HeapEvent) : Option Session :=
  match s.heap with
  | none => none
  | some h =>
    match e with
    | .malloc mremap n => if n < 2 ^ 64 then some (s.granted n (h.malloc mremap n)) else none
    | .memalign mremap alignment n =>
      if alignment < 2 ^ 64 ∧ n < 2 ^ 64 then
        some (s.granted n ((h.posixMemalign mremap alignment n).map fun r =>
          (r.1, match r.2 with
            | .ok p => p
            | _ => 0)))
      else none
    | .free p =>
      match s.live.find? (fun a => a.ptr = p) with
      | some a => some ⟨h.free p, s.live.erase a⟩
      | none => none
    | .expand mremap sz => if sz < 2 ^ 64 then some ⟨(h.expandHeap mremap sz).map Prod.fst, s.live⟩ else none
    | .write a v =>
      if (∃ b ∈ s.live, b.ptr ≤ a ∧ a < b.ptr + b.len) ∧ 8 ∣ a ∧ v < 2 ^ 64 then some ⟨h.store a v, s.live⟩
      else none

end Session

namespace Heap

variable {h h' : Heap} {g g' : Layout} {x y : Tile} {live live' : List Alloc} {e : HeapEvent} {a : Alloc}

def Safe (h : Heap) : HeapEvent → Prop
  | .malloc _ n => n < 2 ^ 64 - 32
  | .memalign _ alignment n => ValidAlignment alignment → 0 < n → MovedOnce alignment n
  | .free _ => h.HighStart
  | .expand _ sz => sz = 0 ∨ 8 ∣ sz ∧ 32 ≤ sz ∧ h.stop - h.start + sz < 2 ^ 64
  | .write _ _ => True

instance : Decidable h.HighStart := inferInstanceAs (Decidable (_ ≤ _))

instance (h : Heap) : (e : HeapEvent) → Decidable (h.Safe e)
  | .malloc _ n => inferInstanceAs (Decidable (n < _))
  | .memalign _ alignment n =>
    inferInstanceAs (Decidable (ValidAlignment alignment → 0 < n → MovedOnce alignment n))
  | .free _ => inferInstanceAs (Decidable h.HighStart)
  | .expand _ _ => instDecidableOr
  | .write _ _ => instDecidableTrue

/-- What an event can do to the heap and to the live allocations. -/
inductive Effect (h : Heap) (g : Layout) (live : List Alloc) : HeapEvent → Heap → Layout → List Alloc → Prop
  | kept {e : HeapEvent} {h' : Heap} {g' : Layout} (hk : Kept h g ∅ h' g' ∅) : Effect h g live e h' g' live
  | alloc {e : HeapEvent} {h' : Heap} {g' : Layout} {x : Tile} {p n : Nat} (ha : Allocated h g h' g' x p n) :
      Effect h g live e h' g' (⟨p, n⟩ :: live)
  | freed {h' : Heap} {g' : Layout} {x : Tile} {a : Alloc} (ha : a ∈ live) (hu : g.Used x)
      (hh : Holds h x a.ptr a.len) (hk : Kept h g {x.addr} h' g' ∅) :
      Effect h g live (.free a.ptr) h' g' (live.erase a)
  | written {w v : Nat} {a : Alloc} (ha : a ∈ live) (hlo : a.ptr ≤ w) (hhi : w < a.ptr + a.len) :
      Effect h g live (.write w v) (h.put w v) g live

theorem Effect.live_after (hr : Rest h g ∅) (hl : Live h g live) (he : Effect h g live e h' g' live') :
    Live h' g' live' := by
  cases he with
  | kept hk => exact hl.keep hk
  | alloc ha => exact hl.alloc ha
  | freed ha hu hh hk => exact hl.release ha hu hh hk hr.shape
  | written ha hlo hhi => exact (hl.write ha hr hlo hhi).2

theorem Effect.persists (hr : Rest h g ∅) (hl : Live h g live) (he : Effect h g live e h' g' live')
    (ha : a ∈ live) (hu : g.Used x) (hh : Holds h x a.ptr a.len) (hne : e ≠ .free a.ptr) :
    a ∈ live' ∧ g'.Used x ∧ Holds h' x a.ptr a.len := by
  have hin := hh.inside
  cases he with
  | kept hk => exact ⟨ha, ((hk.used x).mp ⟨hu, Set.notMem_empty _⟩).1, hk.holds hu (Set.notMem_empty _) hh⟩
  | alloc hal =>
    exact ⟨List.mem_cons_of_mem _ ha, ((hal.kept.used x).mp ⟨hu, Set.notMem_empty _⟩).1,
      hal.kept.holds hu (Set.notMem_empty _) hh⟩
  | @freed h' g' y b hb hub hhb hk =>
    have hib := hhb.inside
    have hba : a ≠ b := by
      rintro rfl
      exact hne rfl
    have hxy : x.addr ≠ y.addr := by
      intro heq
      obtain rfl := hr.shape.eq_of_addr hu.1 hub.1 heq
      exact hba (hl.single x hu a ha b hb (by omega) (by omega) (by omega) (by omega))
    exact ⟨hl.nodup.mem_erase_iff.mpr ⟨hba, ha⟩, ((hk.used x).mp ⟨hu, hxy⟩).1, hk.holds hu hxy hh⟩
  | written hb hlo hhi =>
    refine ⟨ha, hu, ?_⟩
    obtain ⟨y, hy, hhy⟩ := (hl.write hb hr hlo hhi).2.held a ha
    obtain rfl := hr.shape.eq_of_inside hy.1 hu.1 (p := a.ptr) (by have := hhy.inside; omega) (by omega)
    exact hhy

end Heap

namespace Session

open Heap

variable {s s' : Session} {h : Heap} {g : Layout} {e : HeapEvent} {es : List HeapEvent} {n p : Nat} {x : Tile}

def Safe (s : Session) (e : HeapEvent) : Prop :=
  match s.heap with
  | some h => h.Safe e
  | none => True

instance (s : Session) (e : HeapEvent) : Decidable (s.Safe e) :=
  match hs : s.heap with
  | some h => decidable_of_iff (h.Safe e) (by rw [Safe, hs])
  | none => isTrue (by rw [Safe, hs]; trivial)

theorem step_effect (hheap : s.heap = some h) (hr : Rest h g ∅) (hl : Live h g s.live) (hsafe : h.Safe e)
    (hstep : s.step e = some s') : ∃ h' g', s'.heap = some h' ∧ Rest h' g' ∅ ∧ Effect h g s.live e h' g' s'.live := by
  obtain ⟨_, live⟩ := s
  obtain rfl : _ = some h := hheap
  cases e with
  | malloc mremap n =>
    simp only [step] at hstep
    split at hstep
    next hlt =>
      cases hstep
      rcases Nat.eq_zero_or_pos n with rfl | hpos
      · exact ⟨h, g, rfl, hr, .kept Kept.refl⟩
      · obtain ⟨h', g', p, hrun, hcase⟩ := hr.malloc mremap hpos hsafe
        simp only [granted, hrun]
        rcases hcase with ⟨rfl, hd⟩ | ⟨hp, x, ha, _⟩
        · exact ⟨h', g', rfl, hd.rest, .kept hd.kept⟩
        · rw [if_neg hp]
          exact ⟨h', g', rfl, ha.rest, .alloc ha⟩
    next => cases hstep
  | memalign mremap alignment n =>
    simp only [step] at hstep
    split at hstep
    next hlt =>
      cases hstep
      by_cases hv : ValidAlignment alignment
      · rcases Nat.eq_zero_or_pos n with rfl | hpos
        · have hcheck : ¬ (alignment = 0 ∨ alignment &&& (alignment - 1) ≠ 0 ∨ alignment < 8) := by
            obtain ⟨h1, h2, h3⟩ := hv
            omega
          simp only [posixMemalign, if_neg hcheck]
          exact ⟨h, g, rfl, hr, .kept Kept.refl⟩
        · obtain ⟨h', g', r, hrun, hcase⟩ := hr.posixMemalign mremap hv hpos (hsafe hv hpos)
          simp only [granted, hrun, map_some]
          rcases hcase with ⟨rfl, hd⟩ | ⟨p, x, rfl, _, ha⟩
          · exact ⟨h', g', rfl, hd.rest, .kept hd.kept⟩
          · have hp : p ≠ 0 := by
              have := ha.holds.inside
              omega
            simp only [if_neg hp]
            exact ⟨h', g', rfl, ha.rest, .alloc ha⟩
      · have hcheck : alignment = 0 ∨ alignment &&& (alignment - 1) ≠ 0 ∨ alignment < 8 := by
          by_contra hc
          simp only [not_or, not_not, Nat.not_lt] at hc
          exact hv hc
        simp only [posixMemalign, if_pos hcheck]
        exact ⟨h, g, rfl, hr, .kept Kept.refl⟩
    next => cases hstep
  | free p =>
    simp only [step] at hstep
    split at hstep
    next a hfind =>
      cases hstep
      have ha : a ∈ live := List.mem_of_find?_eq_some hfind
      obtain rfl : a.ptr = p := by simpa using List.find?_some hfind
      obtain ⟨x, hu, hh⟩ := hl.held a ha
      obtain ⟨h', g', hrun, hr', hk, _⟩ := hr.free hu hh hsafe
      exact ⟨h', g', hrun, hr', .freed ha hu hh hk⟩
    next => cases hstep
  | expand mremap sz =>
    simp only [step] at hstep
    split at hstep
    next hlt =>
      cases hstep
      rcases hsafe with rfl | ⟨h8, h32, hlen⟩
      · exact ⟨h, g, rfl, hr, .kept Kept.refl⟩
      · have hexp := hr.expandHeap mremap h8 h32 hlen
        split at hexp
        next =>
          simp only [hexp]
          exact ⟨h, g, rfl, hr, .kept Kept.refl⟩
        next =>
          obtain ⟨h', g', hrun, he⟩ := hexp
          simp only [hrun]
          exact ⟨h', g', rfl, he.rest, .kept he.kept⟩
    next => cases hstep
  | write w v =>
    simp only [step] at hstep
    split at hstep
    next hc =>
      cases hstep
      obtain ⟨⟨a, ha, hlo, hhi⟩, h8, _⟩ := hc
      obtain ⟨x, hu, hh⟩ := hl.held a ha
      have hin := hh.inside
      have hend := hh.2.1
      have hmapped := hr.shape.mapped_word hu.1 h8 (by omega) (by omega)
      refine ⟨h.put w v, g, ?_, (hl.write ha hr hlo hhi).1, .written ha hlo hhi⟩
      exact store_eq hmapped
    next => cases hstep

def Sound (s : Session) : Prop := ∃ h g, s.heap = some h ∧ Rest h g ∅ ∧ Live h g s.live

theorem Sound.step (hs : s.Sound) (hsafe : s.Safe e) (hstep : s.step e = some s') : s'.Sound := by
  obtain ⟨h, g, hheap, hr, hl⟩ := hs
  have hsafe : h.Safe e := by rwa [Safe, hheap] at hsafe
  obtain ⟨h', g', hheap', hr', he⟩ := step_effect hheap hr hl hsafe hstep
  exact ⟨h', g', hheap', hr', he.live_after hr hl⟩

def start (mem : Nat → Nat) (start : Nat) : Session := ⟨initHeap mem start, []⟩

/-- The calls of the allocator other than `parep_mpi_posix_memalign`. -/
def Plain : HeapEvent → Prop
  | .memalign _ _ _ => False
  | _ => True

instance : (e : HeapEvent) → Decidable (Plain e)
  | .memalign _ _ _ => inferInstanceAs (Decidable False)
  | .malloc _ _ | .free _ | .expand _ _ | .write _ _ => instDecidableTrue

/-- After any sequence of safe calls the heap is well formed and the live allocations are disjoint. -/
theorem run_represents (mem : Nat → Nat) {start : Nat} (hpos : 0 < start) (h8 : 8 ∣ start)
    (hlimit : start + heapSize ≤ addressLimit)
    (hguard : Guarded step (fun s e => Plain e ∧ s.Safe e) (Session.start mem start) es)
    (hrun : runEvents step (Session.start mem start) es = some s) :
    ∃ h, s.heap = some h ∧ Invariant h s.live ∧
      ∀ a ∈ s.live, ∀ b ∈ s.live, a ≠ b → a.ptr + a.len ≤ b.ptr ∨ b.ptr + b.len ≤ a.ptr := by
  have hsound : s.Sound := by
    refine hguard.invariant hrun ?_ fun hs hg hstep => hs.step hg.2 hstep
    obtain ⟨h, hinit, _, g, hr, hl⟩ := initHeap_spec mem hpos h8 hlimit
    exact ⟨h, g, hinit, hr, hl⟩
  obtain ⟨h, g, hheap, hr, hl⟩ := hsound
  exact ⟨h, hheap, ⟨g, hr, hl⟩, fun a ha b => hl.disjoint hr.shape ha⟩

/-- Calls on the heap of a fresh process: a block, a word in it, a large block that needs an expansion, and the
first block freed. -/
def plainCalls : List HeapEvent :=
  [.malloc (fun _ => true) 100, .write (heapStart + 8) 7, .malloc (fun _ => true) 300000,
    .free (heapStart + 8), .expand (fun _ => true) 4096]

theorem plainCalls_run :
    Guarded step (fun s e => Plain e ∧ s.Safe e) (Session.start (fun _ => 0) heapStart) plainCalls ∧
      (runEvents step (Session.start (fun _ => 0) heapStart) plainCalls).isSome := by
  decide +kernel

theorem plainCalls_represented : ∃ s h, runEvents step (Session.start (fun _ => 0) heapStart) plainCalls = some s ∧
    s.heap = some h ∧ Invariant h s.live := by
  obtain ⟨s, hs⟩ := isSome_iff_exists.mp plainCalls_run.2
  obtain ⟨h, hh, hinv, _⟩ := run_represents (fun _ => 0) (show 0 < heapStart by decide) (by decide) (by decide)
    plainCalls_run.1 hs
  exact ⟨s, h, hs, hh, hinv⟩

theorem wrappedCalls_run : (runEvents step (Session.start (fun _ => 0) heapStart)
      [.malloc (fun _ => true) 24, .malloc (fun _ => true) (2 ^ 64 - 1)]).map (fun s => s.heap.isNone) = some true := by
  decide +kernel

/-- A request that wraps around writes a footer far outside of the heap. -/
theorem wrappedCalls_fault : ∃ s, runEvents step (Session.start (fun _ => 0) heapStart)
    [.malloc (fun _ => true) 24, .malloc (fun _ => true) (2 ^ 64 - 1)] = some s ∧
      ¬ ∃ h, s.heap = some h ∧ Invariant h s.live := by
  obtain ⟨s, hs, hnone⟩ := map_eq_some_iff.mp wrappedCalls_run
  refine ⟨s, hs, ?_⟩
  rintro ⟨h, hh, _⟩
  rw [hh] at hnone
  cases hnone

section RoundTrip

theorem run_persists (hsound : ∃ h g, s.heap = some h ∧ Rest h g ∅ ∧ Live h g s.live ∧ ⟨p, n⟩ ∈ s.live ∧ g.Used x ∧
    Holds h x p n) (hguard : Guarded step (fun s e => s.Safe e ∧ e ≠ .free p) s es)
    (hrun : runEvents step s es = some s') : ∃ h g, s'.heap = some h ∧ Rest h g ∅ ∧ Live h g s'.live ∧
      ⟨p, n⟩ ∈ s'.live ∧ g.Used x ∧ Holds h x p n := by
  refine hguard.invariant (P := fun s => ∃ h g, s.heap = some h ∧ Rest h g ∅ ∧ Live h g s.live ∧
    ⟨p, n⟩ ∈ s.live ∧ g.Used x ∧ Holds h x p n) hrun hsound ?_
  rintro s e s' ⟨h, g, hheap, hr, hl, ha, hu, hh⟩ ⟨hsafe, hne⟩ hstep
  have hsafe : h.Safe e := by rwa [Safe, hheap] at hsafe
  obtain ⟨h', g', hheap', hr', he⟩ := step_effect hheap hr hl hsafe hstep
  obtain ⟨ha', hu', hh'⟩ := he.persists hr hl ha hu hh hne
  exact ⟨h', g', hheap', hr', he.live_after hr hl, ha', hu', hh'⟩

/-- In this session `parep_mpi_free` gives back the node of the pointer and no other. -/
def FreesExactly (s : Session) (p n : Nat) (x : Tile) : Prop :=
  ∃ h g h' g', s.heap = some h ∧ Rest h g ∅ ∧ Live h g s.live ∧ g.Used x ∧ h.free p = some h' ∧ Rest h' g' ∅ ∧
    Live h' g' (s.live.erase ⟨p, n⟩) ∧ ∀ y, g'.Used y ↔ g.Used y ∧ y ≠ x

/-- What an aligned allocation is promised, up to the call that frees it. -/
def AlignedRoundTrip (mremap : Nat → Bool) (h : Heap) (live : List Alloc) (alignment n : Nat) : Prop :=
  ∃ h' r, h.posixMemalign mremap alignment n = some (h', r) ∧ (2 ^ 64 ≤ n + alignment + 7 → r = .enomem) ∧
    ∀ p, r = .ok p → alignment ∣ p ∧ ∃ x, x.addr + 8 ≤ p ∧ p + n ≤ x.addr + 24 + x.size ∧
      ∀ es s, Guarded step (fun s e => s.Safe e ∧ e ≠ .free p) ⟨some h', ⟨p, n⟩ :: live⟩ es →
        runEvents step ⟨some h', ⟨p, n⟩ :: live⟩ es = some s → s.Safe (.free p) → s.FreesExactly p n x

/-- A pointer that is moved once is freed with its node, whatever happens in between. -/
theorem aligned_round_trip {mremap : Nat → Bool} {live : List Alloc} {alignment : Nat}
    (hinv : Invariant h live) (hv : ValidAlignment alignment) (hpos : 0 < n) (honce : MovedOnce alignment n) :
    AlignedRoundTrip mremap h live alignment n := by
  obtain ⟨g, hr, hl⟩ := hinv
  obtain ⟨h', g', r, hrun, hcase⟩ := hr.posixMemalign mremap hv hpos honce
  refine ⟨h', r, hrun, fun hover => ?_, ?_⟩
  · have := honce.1
    omega
  · rintro p rfl
    obtain ⟨hr0, _⟩ | ⟨q, x, heq, hdvd, ha⟩ := hcase
    · cases hr0
    · cases heq
      have hhold := ha.holds
      refine ⟨hdvd, x, hhold.1, hhold.2.1, fun es s hguard hes hfree => ?_⟩
      obtain ⟨h₁, g₁, hheap, hr₁, hl₁, ha₁, hu₁, hh₁⟩ := run_persists (s := ⟨some h', ⟨p, n⟩ :: live⟩)
        ⟨h', g', rfl, ha.rest, hl.alloc ha, List.mem_cons_self, ha.used, ha.holds⟩ hguard hes
      have hhigh : h₁.HighStart := by
        rw [Safe, hheap] at hfree
        exact hfree
      obtain ⟨h₂, g₂, hrun₂, hr₂, hk₂, _⟩ := hr₁.free hu₁ hh₁ hhigh
      refine ⟨h₁, g₁, h₂, g₂, hheap, hr₁, hl₁, hu₁, hrun₂, hr₂, hl₁.release ha₁ hu₁ hh₁ hk₂ hr₁.shape, fun y => ?_⟩
      have hused := hk₂.used y
      constructor
      · intro hy
        obtain ⟨hy, hne⟩ := hused.mpr ⟨hy, Set.notMem_empty _⟩
        exact ⟨hy, fun heq => hne (heq ▸ rfl)⟩
      · rintro ⟨hy, hne⟩
        exact (hused.mp ⟨hy, fun heq => hne (hr₁.shape.eq_of_addr hy.1 hu₁.1 heq)⟩).1

theorem page_round_trip : ∃ h, initHeap (fun _ => 0) heapStart = some h ∧
    AlignedRoundTrip (fun _ => true) h [] 4096 4096 := by
  obtain ⟨h, hrun, hinv⟩ := fresh_heap
  exact ⟨h, hrun, aligned_round_trip hinv (by decide) (by decide) (by decide)⟩

theorem large_memalign_run :
    ((initHeap (fun _ => 0) heapStart).bind fun h => (h.posixMemalign (fun _ => true) 64 262144).map fun r =>
      (r.2, decide r.1.HighStart, (r.1.free (heapStart + 64)).isNone)) = some (.ok (heapStart + 64), true, true) := by
  decide +kernel

theorem overflow_memalign_run :
    ((initHeap (fun _ => 0) heapStart).bind fun h => (h.posixMemalign (fun _ => true) 8 (2 ^ 64 - 1)).map Prod.snd) =
      some (.ok (heapStart + 8)) := by
  decide +kernel

/-- A large block that is aligned twice cannot be freed, and a size that overflows gets a small block. -/
theorem large_memalign_lost : ∃ h, initHeap (fun _ => 0) heapStart = some h ∧ Invariant h [] ∧
    ¬ AlignedRoundTrip (fun _ => true) h [] 64 262144 ∧ ¬ AlignedRoundTrip (fun _ => true) h [] 8 (2 ^ 64 - 1) := by
  obtain ⟨h, hinit, hinv⟩ := fresh_heap
  have hlarge := large_memalign_run
  have hover := overflow_memalign_run
  rw [hinit] at hlarge hover
  obtain ⟨⟨h₁, r₁⟩, hrun₁, heq₁⟩ := map_eq_some_iff.mp hlarge
  obtain ⟨⟨h₂, r₂⟩, hrun₂, heq₂⟩ := map_eq_some_iff.mp hover
  simp only [Prod.mk.injEq, decide_eq_true_eq] at heq₁
  obtain ⟨rfl, hhigh, hnone⟩ := heq₁
  refine ⟨h, hinit, hinv, ?_, ?_⟩
  · rintro ⟨h', r, hrun, _, hp⟩
    rw [hrun₁] at hrun
    cases hrun
    obtain ⟨_, x, _, _, hfree⟩ := hp _ rfl
    obtain ⟨h₃, _, h₄, _, hheap, _, _, _, hfreed, _⟩ := hfree [] _ trivial rfl hhigh
    cases hheap
    rw [hfreed] at hnone
    cases hnone
  · rintro ⟨h', r, hrun, henomem, _⟩
    rw [hrun₂] at hrun
    cases hrun
    obtain rfl : r₂ = .ok (heapStart + 8) := heq₂
    exact absurd (henomem (by decide)) (by simp)

end RoundTrip

end Session

end ParepMpi
