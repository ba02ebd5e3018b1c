import ParepMpi.Heap.Search

/-!
# Allocating and freeing a node

`parep_mpi_malloc` and `parep_mpi_free` keep the invariant of the heap: the first makes one node allocated, which
holds the bytes that were asked for, and the second gives back the node that holds the pointer.
-/

namespace ParepMpi

open LinkedList Tiling Option Function Set Heap

namespace Heap

variable {h h' : Heap} {g g' : Layout} {E E' : Set Nat} {x : Tile} {a b i n p size t v w : Nat}
  {mremap : Nat → Bool}

theorem Rest.mono (hr : Rest h g E) (hE : E ⊆ E') : Rest h g E' :=
  ⟨hr.shape, hr.lists, fun x hx he => hr.marks x hx fun h => he (hE h),
    fun x hx hxe i hi y hy hye => hr.apart x hx (fun h => hxe (hE h)) i hi y hy fun h => hye (hE h)⟩

theorem Rest.settle (hr : Rest h g {x.addr}) (hx : x ∈ g.tiles) (hm : Marked h g x)
    (hp : ∀ i, g.place x.addr ≠ .bin i) : Rest h g ∅ := by
  have hne : ∀ y ∈ g.tiles, ∀ i, g.place y.addr = .bin i → y.addr ∉ ({x.addr} : Set Nat) := by
    intro y hy i hi heq
    rw [heq] at hi
    exact hp i hi
  refine ⟨hr.shape, hr.lists, ?_, ?_⟩
  · intro y hy _
    by_cases hyx : y.addr = x.addr
    · obtain rfl := hr.shape.eq_of_addr hy hx hyx
      exact hm
    · exact hr.marks y hy hyx
  · intro y hy _ i hi z hz _ hyz j hj
    exact hr.apart y hy (hne y hy i hi) i hi z hz (hne z hz j hj) hyz j hj

structure Overwritten (h : Heap) (a b : Nat) (h' : Heap) : Prop where
  start : h'.start = h.start
  stop : h'.stop = h.stop
  mapEnd : h'.mapEnd = h.mapEnd
  bins : h'.bins = h.bins
  fastbins : h'.fastbins = h.fastbins
  mem : ∀ w, w < a ∨ b ≤ w → h'.mem w = h.mem w

theorem overwritten_put (h : Heap) (w v : Nat) : Overwritten h w (w + 1) (h.put w v) :=
  ⟨rfl, rfl, rfl, rfl, rfl, fun _ hu => put_mem_of_ne (by omega)⟩

theorem Rest.overwrite (hr : Rest h g E) (hx : x ∈ g.tiles) (hout : g.place x.addr = .out) {a b : Nat}
    (ho : Overwritten h a b h') (hlo : x.addr < a) (hhi : b ≤ x.addr + 24 + x.size) : Rest h' g E := by
  have hs := hr.shape
  have hne : ∀ y ∈ g.tiles, h'.mem y.addr = h.mem y.addr ∧
      h'.mem (y.addr + 24 + y.size) = h.mem (y.addr + 24 + y.size) := by
    intro y hy
    rcases hs.disjoint hy hx with rfl | hd | hd
    · exact ⟨ho.mem _ (by omega), ho.mem _ (by omega)⟩
    · exact ⟨ho.mem _ (by omega), ho.mem _ (by omega)⟩
    · exact ⟨ho.mem _ (by omega), ho.mem _ (by omega)⟩
  refine ⟨⟨?_, ?_, ?_, ?_, ?_, hs.aligned, ?_, ?_⟩, ?_, ?_, hr.apart⟩
  · exact ho.start ▸ hs.pos
  · rw [ho.start, ho.stop]
    exact hs.room
  · rw [ho.stop, ho.mapEnd]
    exact hs.mapped
  · exact ho.stop ▸ hs.limit
  · rw [ho.start, ho.stop]
    exact hs.tiles
  · intro y hy
    rw [(hne y hy).1]
    exact hs.head y hy
  · intro y hy
    rw [(hne y hy).2]
    exact hs.foot y hy
  · have hlink : ∀ c, g.place c ≠ .out → h'.mem (c + 8) = h.mem (c + 8) ∧ h'.mem (c + 16) = h.mem (c + 16) := by
      intro c hc
      obtain ⟨y, hy, rfl⟩ := hr.lists.tile c hc
      rcases hs.disjoint hy hx with rfl | hd | hd
      · exact absurd hout hc
      · exact ⟨ho.mem _ (by omega), ho.mem _ (by omega)⟩
      · exact ⟨ho.mem _ (by omega), ho.mem _ (by omega)⟩
    exact hr.lists.congr ho.bins ho.fastbins (fun c hc => (hlink c hc).1) (fun c hc => (hlink c hc).2) hr.lists.tile
  · intro y hy hyE
    rw [Marked, (hne y hy).1]
    exact hr.marks y hy hyE

theorem Kept.overwrite (hs : Shape h g.tiles) (hx : x ∈ g.tiles) (hE : x.addr ∈ E) {a b : Nat}
    (ho : Overwritten h a b h') (hlo : x.addr ≤ a) (hhi : b ≤ x.addr + 32 + x.size) : Kept h g E h' g E := by
  refine ⟨ho.start, fun _ => Iff.rfl, fun y hy hyE u hlo' hhi' => ho.mem u ?_⟩
  rcases hs.disjoint hy.1 hx with rfl | hd | hd
  · exact absurd hE hyE
  · omega
  · omega

theorem Rest.putInside (hr : Rest h g E) (hx : x ∈ g.tiles) (hout : g.place x.addr = .out)
    (hlo : x.addr < w) (hhi : w < x.addr + 24 + x.size) : Rest (h.put w v) g E :=
  hr.overwrite hx hout (overwritten_put h w v) hlo hhi

theorem Kept.put (hs : Shape h g.tiles) (hx : x ∈ g.tiles) (hE : x.addr ∈ E) (hlo : x.addr ≤ w)
    (hhi : w < x.addr + 32 + x.size) : Kept h g E (h.put w v) g E :=
  Kept.overwrite hs hx hE (overwritten_put h w v) hlo hhi

/-- The node contains the `n` bytes at `p`, and `parep_mpi_free` finds it from `p`. -/
def Holds (h : Heap) (x : Tile) (p n : Nat) : Prop :=
  x.addr + 8 ≤ p ∧ p + n ≤ x.addr + 24 + x.size ∧ 8 ∣ p ∧
    (p = x.addr + 8 ∨ x.addr + 16 ≤ p ∧ h.mem (p - 8) = x.addr + 8)

structure Allocated (h : Heap) (g : Layout) (h' : Heap) (g' : Layout) (x : Tile) (p n : Nat) : Prop where
  rest : Rest h' g' ∅
  used : g'.Used x
  kept : Kept h g ∅ h' g' {x.addr}
  holds : Holds h' x p n

section Fast

def clear (h : Heap) (a : Nat) : Heap := (h.put (a + 16) 0).put (a + 8) 0

theorem Loose.putHead (hl : Loose h g x) : Loose (h.put x.addr x.size) g x := by
  have := hl.rest.putHead hl.mem rfl (t := 0) (by omega)
  rw [Nat.zero_mul, zero_add] at this
  exact ⟨this, hl.mem, hl.out⟩

theorem Loose.clear (hl : Loose h g x) (hhead : h.mem x.addr = x.size) :
    Rest (h.clear x.addr) g ∅ ∧ Kept h g {x.addr} (h.clear x.addr) g {x.addr} := by
  obtain ⟨hr, hx, hout⟩ := hl
  have hr₁ := hr.putInside (w := x.addr + 16) (v := 0) hx hout (by omega) (by omega)
  have hr₂ := hr₁.putInside (w := x.addr + 8) (v := 0) hx hout (by omega) (by omega)
  refine ⟨hr₂.settle hx ⟨?_, by rw [hout]; trivial⟩ (by simp [hout]), ?_⟩
  · rw [hout, put_mem_of_ne (by omega), put_mem_of_ne (by omega), hhead]
    simp [Place.tag]
  · have hk₁ := Kept.put (E := {x.addr}) (w := x.addr + 16) (v := 0) hr.shape hx rfl (by omega) (by omega)
    have hk₂ := Kept.put (E := {x.addr}) (w := x.addr + 8) (v := 0) hr₁.shape hx rfl (by omega) (by omega)
    exact hk₁.trans hk₂

theorem clear_eq (hn : h.Mapped (a + 8)) (hp : h.Mapped (a + 16)) {α : Type} (f : Heap → Option α) :
    ((h.store (a + 16) 0).bind fun h => (h.store (a + 8) 0).bind f) = f (h.clear a) := by
  rw [store_eq hp, bind_some, store_eq (put_mapped.mpr hn), bind_some]
  rfl

theorem Rest.takeFast (hr : Rest h g ∅) (hne : h.fastbins (roundedSize n / 8) ≠ 0) :
    ∃ h' g' x, h.takeFast (roundedSize n / 8) = some (h', x.addr + 8) ∧ Allocated h g h' g' x (x.addr + 8) n := by
  have hs := hr.shape
  obtain ⟨x, hx, hfirst, hp, hl, hk⟩ := hr.popFast hne
  obtain ⟨hhead, hfits⟩ := hr.marks x hx (notMem_empty _)
  rw [hp] at hhead hfits
  have hk₁ := Kept.put (E := {x.addr}) (w := x.addr) (v := x.size) hl.rest.shape hx rfl (by omega) (by omega)
  obtain ⟨hr', hk'⟩ := hl.putHead.clear put_mem_self
  have hxsize := hs.size_lt hx
  have haligned := hs.aligned x hx
  refine ⟨_, _, x, ?_, hr', ⟨hx, g.move_place_self⟩, hk.trans (hk₁.trans hk'), ?_⟩
  · have hmodify : h.modify x.addr (fun w => setFast w 0) = some (h.put x.addr x.size) := by
      rw [modify_eq (hs.mapped_head hx), hhead, setFast_word (by omega)]
      simp [Place.tag]
    have hload : (h.put x.addr x.size).load (x.addr + 8) = some (h.mem (x.addr + 8)) := by
      rw [load_eq (put_mapped.mpr (hs.mapped_next hx)), put_mem_of_ne (by omega)]
    simp only [Heap.takeFast, ← hfirst, hmodify, hload, bind_eq_bind, bind_some]
    rw [clear_eq (h := (h.put x.addr x.size).setFastbin (roundedSize n / 8) (h.mem (x.addr + 8)))
      (hs.mapped_next hx) (hs.mapped_prev hx)]
    rfl
  · unfold roundedSize at hfits
    obtain ⟨hi, hle⟩ := hfits
    exact ⟨le_rfl, by omega, by omega, .inl rfl⟩

theorem Rest.pushFast (hr : Rest h g ∅) (hu : g.Used x) (hsize : x.size ≤ 64) :
    ∃ g', Rest (((h.put x.addr (1 * 2 ^ 62 + x.size)).put (x.addr + 8) (h.fastbins (x.size / 8))).setFastbin
        (x.size / 8) x.addr) g' ∅ ∧
      Kept h g {x.addr} (((h.put x.addr (1 * 2 ^ 62 + x.size)).put (x.addr + 8)
        (h.fastbins (x.size / 8))).setFastbin (x.size / 8) x.addr) g' ∅ := by
  obtain ⟨hx, hout⟩ := hu
  let i := x.size / 8
  have hr₁ := (hr.mono (empty_subset {x.addr})).putHead (t := 1) hx rfl (by omega)
  have hk₁ : Kept h g {x.addr} (h.put x.addr (1 * 2 ^ 62 + x.size)) g {x.addr} :=
    Kept.put hr.shape hx rfl (by omega) (by omega)
  have hr₂ := hr₁.putInside (w := x.addr + 8) (v := h.fastbins i) hx hout (by omega) (by omega)
  have hk₂ := Kept.put (w := x.addr + 8) (v := h.fastbins i) (E := {x.addr}) hr₁.shape hx rfl (by omega) (by omega)
  have hs₂ := hr₂.shape
  have hmove : ∀ c p, p ≠ .fast i → ((g.move x.addr (.fast i)).place c = p ↔ g.place c = p ∧ c ≠ x.addr) := by
    intro c p hp
    by_cases hc : c = x.addr
    · subst hc
      simp [hp.symm]
    · simp [g.move_place_of_ne hc, hc]
  have hlisted : ∀ c j, g.place c = .bin j → c ≠ x.addr := by
    rintro c j hc rfl
    rw [hout] at hc
    cases hc
  have hlistedFast : ∀ c j, g.place c = .fast j → c ≠ x.addr := by
    rintro c j hc rfl
    rw [hout] at hc
    cases hc
  refine ⟨g.move x.addr (.fast i), ⟨⟨hs₂.pos, hs₂.room, hs₂.mapped, hs₂.limit, hs₂.tiles, hs₂.aligned, hs₂.head,
    hs₂.foot⟩, ⟨?_, ?_, ?_⟩, ?_, ?_⟩, ?_⟩
  · intro j
    obtain ⟨l, hd, hn, hm⟩ := hr₂.lists.bin j
    refine ⟨l, hd, hn, fun c => (hm c).trans ?_⟩
    rw [hmove c _ (by simp)]
    exact ⟨fun hc => ⟨hc, hlisted c j hc⟩, And.left⟩
  · intro j
    obtain ⟨l, hd, hn, hm⟩ := hr₂.lists.fast j
    by_cases hj : j = i
    · subst hj
      have hxl : x.addr ∉ l := fun hxl => hlistedFast _ _ ((hm _).mp hxl) rfl
      refine ⟨x.addr :: l, ?_, List.nodup_cons.mpr ⟨hxl, hn⟩, fun c => ?_⟩
      · have hfb : fastbins (setFastbin ((h.put x.addr (1 * 2 ^ 62 + x.size)).put (x.addr + 8)
            (h.fastbins i)) i x.addr) i = x.addr := update_self ..
        rw [hfb]
        exact hd.push (hr.shape.addr_pos hx).ne' put_mem_self fun _ _ => rfl
      · by_cases hc : c = x.addr
        · simp [hc]
        · rw [List.mem_cons, hm c, g.move_place_of_ne hc]
          simp [hc]
    · have hfb : fastbins (setFastbin ((h.put x.addr (1 * 2 ^ 62 + x.size)).put (x.addr + 8)
          (h.fastbins i)) i x.addr) j = h.fastbins j := update_of_ne hj ..
      rw [hfb]
      refine ⟨l, hd, hn, fun c => (hm c).trans ?_⟩
      rw [hmove c _ (by simp [hj])]
      exact ⟨fun hc => ⟨hc, hlistedFast c j hc⟩, And.left⟩
  · intro c hc
    by_cases hcx : c = x.addr
    · exact ⟨x, hx, hcx.symm⟩
    · rw [g.move_place_of_ne hcx] at hc
      exact hr.lists.tile c hc
  · intro y hy _
    by_cases hyx : y.addr = x.addr
    · obtain rfl := hr.shape.eq_of_addr hy hx hyx
      refine ⟨?_, ?_⟩
      · rw [g.move_place_self, setFastbin_mem, put_mem_of_ne (by omega)]
        exact put_mem_self
      · rw [g.move_place_self]
        exact ⟨rfl, hsize⟩
    · rw [Marked, g.move_place_of_ne hyx]
      exact hr₂.marks y hy hyx
  · intro y hy _ j hj z hz _ hyz k hk
    have hj' := (hmove _ _ (by simp)).mp hj
    have hk' := (hmove _ _ (by simp)).mp hk
    exact hr₂.apart y hy hj'.2 j hj'.1 z hz hk'.2 hyz k hk'.1
  · refine ⟨rfl, fun y => ?_, (hk₁.trans hk₂).mem⟩
    by_cases hyx : y.addr = x.addr
    · simp [Layout.Used, hyx]
    · simp [Layout.Used, hyx, g.move_place_of_ne hyx]

end Fast

section Free

/-- The addresses of the heap are larger than the sizes of its nodes. -/
def HighStart (h : Heap) : Prop := h.stop ≤ 2 * h.start

theorem Rest.owner (hr : Rest h g ∅) (hu : g.Used x) (hh : Holds h x p n) (hhigh : h.HighStart) :
    h.owner p = some x.addr := by
  obtain ⟨hlo, hhi, h8, hback⟩ := hh
  have hs := hr.shape
  have hb := hs.bounds hu.1
  have hload : h.load (p - 8) = some (h.mem (p - 8)) := load_eq (hs.mapped_word hu.1 (by omega) (by omega) (by omega))
  rw [Heap.owner, hload, bind_eq_bind, bind_some]
  rcases hback with rfl | ⟨hge, hmem⟩
  · have hword : h.mem (x.addr + 8 - 8) = x.size := by
      have := (hr.marks x hu.1 (notMem_empty _)).1
      rw [hu.2] at this
      simpa [Place.tag] using this
    unfold HighStart at hhigh
    rw [hword, if_neg (by omega)]
    rfl
  · rw [hmem, if_pos (by omega)]
    rfl

theorem Rest.free (hr : Rest h g ∅) (hu : g.Used x) (hh : Holds h x p n) (hhigh : h.HighStart) :
    ∃ h' g', h.free p = some h' ∧ Rest h' g' ∅ ∧ Kept h g {x.addr} h' g' ∅ ∧ h'.stop = h.stop := by
  have hs := hr.shape
  have hp : p ≠ 0 := by
    have := hh.1
    omega
  have howner := hr.owner hu hh hhigh
  have hload := load_eq (hs.mapped_head hu.1)
  have hsize := hs.getSize_head hu.1
  have hxsize := hs.size_lt hu.1
  by_cases hsmall : x.size ≤ 64
  · obtain ⟨g', hr', hk'⟩ := hr.pushFast hu hsmall
    refine ⟨_, g', ?_, hr', hk', rfl⟩
    have hword : setFast (h.mem x.addr) 1 = 1 * 2 ^ 62 + x.size := by
      rw [(hr.marks x hu.1 (notMem_empty _)).1, hu.2, setFast_word (by omega)]
      rfl
    simp only [Heap.free, if_neg hp, howner, hload, hsize, if_pos hsmall, hword, bind_eq_bind,
      bind_some, store_eq (hs.mapped_head hu.1), put_fastbins]
    rw [store_eq (put_mapped.mpr (hs.mapped_next hu.1)), bind_some]
  · obtain ⟨h₁, g₁, a, hrun₁, hr₁, ⟨y, hy, rfl⟩, hk₁, hw₁⟩ :=
      (⟨hr.mono (empty_subset _), hu.1, hu.2⟩ : Loose h g x).release
    have hload₁ := load_eq (hr₁.shape.mapped_head hy)
    by_cases hbig : getSize (h₁.mem y.addr) ≥ 65536
    · obtain ⟨h₂, g₂, hrun₂, hr₂, _, hk₂, hstop₂⟩ := hr₁.mallocConsolidate
      refine ⟨h₂, g₂, ?_, hr₂, hk₁.trans hk₂, hstop₂.trans hw₁.stop⟩
      simp [Heap.free, hp, howner, hload, hsize, hsmall, hrun₁, hload₁, hbig, hrun₂]
    · refine ⟨h₁, g₁, ?_, hr₁, hk₁, hw₁.stop⟩
      simp [Heap.free, hp, howner, hload, hsize, hsmall, hrun₁, hload₁, hbig]

end Free

section Carve

theorem Lists.bins_tile {T : List Tile} {place : Nat → Place} (hl : Lists h T place) (hne : h.bins i ≠ 0) :
    ∃ y ∈ T, y.addr = h.bins i := by
  obtain ⟨l, hd, _, hm⟩ := hl.bin i
  exact hl.mem_tiles ((hm _).mp (hd.head_mem hne))

theorem addNode_of_put (hrun : (h.put w v).addNode i a = some h') (hnext : w ≠ a + 8) (hprev : w ≠ a + 16)
    (hhead : h.bins i ≠ 0 → w ≠ h.bins i + 16) :
    ∃ h₁, h.addNode i a = some h₁ ∧ h₁.put w v = h' ∧ h₁.mem w = h.mem w ∧ h₁.Mapped = h.Mapped := by
  obtain ⟨hn, hp, hb, rfl⟩ := addNode_eq_some_iff.mp hrun
  refine ⟨_, addNode_eq_some_iff.mpr ⟨hn, hp, hb, rfl⟩, ?_⟩
  unfold linked
  rw [put_bins]
  split_ifs with hz
  · refine ⟨?_, ?_, rfl⟩
    · simp only [put, setBin, update_comm hnext, update_comm hprev]
    · rw [setBin_mem, put_mem_of_ne hprev, put_mem_of_ne hnext]
  · have hh := hhead hz
    refine ⟨?_, ?_, rfl⟩
    · simp only [put, setBin, update_comm hnext, update_comm hprev, update_comm hh]
    · rw [setBin_mem, put_mem_of_ne hh, put_mem_of_ne hnext, put_mem_of_ne hprev, put_mem_of_ne hnext]

theorem splitLead_eq : h.splitLead i a size = some (h, i, a) := by
  unfold splitLead aligned
  split
  · rw [if_neg (by omega)]
  · rfl

theorem splitPointSize_bounds (ha : 8 ∣ a) (hsize : 8 ∣ size) (hlt : size < 2 ^ 64 - 32) :
    size ≤ splitPointSize a size ∧ 8 ∣ splitPointSize a size ∧
      (alignedSize ≤ size → aligned a + size = a + 8 + splitPointSize a size ∧ splitPointSize a size ≤ size + 24) ∧
      (¬ alignedSize ≤ size → splitPointSize a size = size) := by
  unfold splitPointSize aligned add64
  split <;> omega

/-- The words of a node that has been split, but for the links of its second half. -/
def splitAt (h : Heap) (x : Tile) (s : Nat) : Heap :=
  (((h.put (x.addr + 32 + s) (2 * 2 ^ 62 + (x.size - s - 32))).put (x.addr + 24 + x.size) (x.addr + 32 + s)).put
    x.addr (2 * 2 ^ 62 + s)).put (x.addr + 24 + s) x.addr

theorem Rest.splitAt {s : Nat} (hr : Rest h g ∅) (hx : x ∈ g.tiles) (h8 : 8 ∣ s) (hroom : s + 40 < x.size) :
    ∃ g', Rest (h.splitAt x s) g' {x.addr, x.addr + 32 + s} ∧ ⟨x.addr, s⟩ ∈ g'.tiles ∧
      ⟨x.addr + 32 + s, x.size - s - 32⟩ ∈ g'.tiles ∧ g'.place = g.place ∧ g.place (x.addr + 32 + s) = .out ∧
      (∀ w ∈ g'.tiles, w.addr ∈ ({x.addr, x.addr + 32 + s} : Set Nat) ∨ w ∈ g.tiles) ∧
      Kept h g {x.addr} (h.splitAt x s) g' {x.addr, x.addr + 32 + s} := by
  have hs := hr.shape
  have haligned := hs.aligned x hx
  obtain ⟨T, htiles, hT⟩ := hs.tiles.split hx (y := ⟨x.addr, s⟩) (z := ⟨x.addr + 32 + s, x.size - s - 32⟩) rfl
    (by simp only [Tile.stop]; omega) rfl (by simp only [Tile.stop]; omega) (by simp only [Tile.stop]; omega)
  have hinside : ∀ w ∈ g.tiles, w.addr ≠ x.addr + 32 + s := by
    intro w hw
    rcases hs.disjoint hw hx with rfl | hd | hd <;> omega
  have hold : ∀ w, w ∈ T ∧ w.addr ∉ ({x.addr, x.addr + 32 + s} : Set Nat) ↔
      w ∈ g.tiles ∧ w.addr ∉ ({x.addr} : Set Nat) := by
    intro w
    simp only [hT, mem_insert_iff, mem_singleton_iff, not_or]
    constructor
    · rintro ⟨rfl | rfl | ⟨hw, _⟩, hwx, hwz⟩
      · exact absurd rfl hwx
      · exact absurd rfl hwz
      · exact ⟨hw, hwx⟩
    · rintro ⟨hw, hwx⟩
      exact ⟨.inr (.inr ⟨hw, fun heq => hwx (heq ▸ rfl)⟩), hwx, hinside w hw⟩
  obtain ⟨hr', hk'⟩ := (hr.mono (empty_subset {x.addr})).retile (h.splitAt x s) T
    {x.addr, x.addr + 32 + s} x.addr (x.addr + 32 + x.size) ⟨rfl, rfl, rfl⟩
    ⟨le_rfl, hs.mapped, hs.limit⟩ htiles hold
    (by
      intro w hw hwE
      rcases hs.disjoint hw hx with rfl | hd
      · exact absurd rfl hwE
      · exact hd)
    (by
      intro w hw
      unfold Heap.splitAt
      rw [put_mem_of_ne (by omega), put_mem_of_ne (by omega), put_mem_of_ne (by omega), put_mem_of_ne (by omega)])
    (by
      intro w hw hwN
      rcases (hT w).mp hw with rfl | rfl | ⟨hw, hwx⟩
      · refine ⟨⟨haligned.1, h8⟩, ⟨2, by omega, ?_⟩, put_mem_self⟩
        show (h.splitAt x s).mem x.addr = _
        unfold Heap.splitAt
        rw [put_mem_of_ne (by omega)]
        exact put_mem_self
      · refine ⟨⟨show 8 ∣ x.addr + 32 + s by omega, show 8 ∣ x.size - s - 32 by omega⟩, ⟨2, by omega, ?_⟩, ?_⟩
        · show (h.splitAt x s).mem (x.addr + 32 + s) = _
          unfold Heap.splitAt
          rw [put_mem_of_ne (by omega), put_mem_of_ne (by omega), put_mem_of_ne (by omega)]
          exact put_mem_self
        · have hfoot : x.addr + 32 + s + 24 + (x.size - s - 32) = x.addr + 24 + x.size := by omega
          simp only [hfoot]
          unfold Heap.splitAt
          rw [put_mem_of_ne (by omega), put_mem_of_ne (by omega)]
          exact put_mem_self
      · rcases hwN with hwN | hwN
        · exact absurd (hs.eq_of_addr hw hx hwN) hwx
        · exact absurd hwN (hinside w hw))
    (by
      rintro a rfl _
      refine ⟨⟨_, (hT _).mpr (.inl rfl), rfl⟩, ?_, ?_⟩
      · unfold Heap.splitAt next
        rw [put_mem_of_ne (by omega), put_mem_of_ne (by omega), put_mem_of_ne (by omega), put_mem_of_ne (by omega)]
      · unfold Heap.splitAt prev
        rw [put_mem_of_ne (by omega), put_mem_of_ne (by omega), put_mem_of_ne (by omega), put_mem_of_ne (by omega)])
  refine ⟨_, hr', (hT _).mpr (.inl rfl), (hT _).mpr (.inr (.inl rfl)), rfl, ?_, fun w hw => ?_, hk'⟩
  · by_contra hne
    obtain ⟨w, hw, hwa⟩ := hr.lists.tile _ hne
    exact hinside w hw hwa
  · rcases (hT w).mp hw with rfl | rfl | ⟨hw, _⟩
    · exact .inl (.inl rfl)
    · exact .inl (.inr rfl)
    · exact .inr hw

theorem Rest.splitTail (hr : Rest h g ∅) (hx : x ∈ g.tiles) (hp : g.place x.addr = .bin i) (h8 : 8 ∣ size)
    (hlt : size < 2 ^ 64 - 32) (hfit : splitPointSize x.addr size ≤ x.size) :
    ∃ h' g' y, h.splitTail x.addr size = some h' ∧ Rest h' g' {x.addr} ∧ y ∈ g'.tiles ∧ y.addr = x.addr ∧
      g'.place x.addr = .bin i ∧ splitPointSize x.addr size ≤ y.size ∧ Kept h g {x.addr} h' g' {x.addr} := by
  have hs := hr.shape
  have hb := hs.bounds hx
  have hlimit := hs.limit
  unfold addressLimit at hlimit
  have haligned := hs.aligned x hx
  obtain ⟨hle, hs8, -, -⟩ := splitPointSize_bounds haligned.1 h8 hlt
  have hload := load_eq (hs.mapped_head hx)
  by_cases hroom : splitPointSize x.addr size + 40 < x.size
  · generalize hS : splitPointSize x.addr size = S at *
    obtain ⟨g₁, hr₁, hy₁, hz₁, hplace₁, hzout, hold₁, hk₁⟩ := hr.splitAt hx hs8 hroom
    let z := x.addr + 32 + S
    let R := x.size - S - 32
    have hz : z = x.addr + 32 + S := rfl
    have hR : R = x.size - S - 32 := rfl
    let h₁ := h.put z (2 * 2 ^ 62 + R)
    let h₂ := h₁.put (x.addr + 24 + x.size) z
    have hsplit : h.splitAt x S = (h₂.put x.addr (2 * 2 ^ 62 + S)).put (x.addr + 24 + S) x.addr := rfl
    have hzhead : (h.splitAt x S).mem z = 2 * 2 ^ 62 + R := by
      rw [hsplit, put_mem_of_ne (by omega), put_mem_of_ne (by omega), put_mem_of_ne (by omega)]
      exact put_mem_self
    obtain ⟨h₅, hrun₅, hr₅, _, hk₅, _⟩ := hr₁.addNode (x := ⟨z, R⟩) hz₁ (by rw [hplace₁]; exact hzout) hzhead (by
        intro w hw hwE hwz
        simp only at hwz
        rcases hr₁.shape.disjoint hw hy₁ with rfl | hd | hd
        · exact absurd (.inl rfl) hwE
        · simp only at hd
          omega
        · simp only at hd
          omega)
      (by
        intro w hw hwz k hk
        simp only at hwz
        have hwT : w ∈ g.tiles := by
          refine (hold₁ w hw).resolve_left ?_
          simp only [mem_insert_iff, mem_singleton_iff]
          omega
        rw [hplace₁] at hk
        exact hr.apart x hx (notMem_empty _) i hp w hwT (notMem_empty _) (by omega) k hk)
    -- In the code the first half is rewritten after the second half has gone into its bin.
    have hbins : ∀ j, h.bins j ≠ 0 → x.addr + 24 + S ≠ h.bins j + 16 ∧ x.addr ≠ h.bins j + 16 := by
      intro j hj
      obtain ⟨y, hy, hya⟩ := hr.lists.bins_tile hj
      rw [← hya]
      rcases hs.disjoint hy hx with rfl | hd | hd <;> omega
    rw [hsplit] at hrun₅
    obtain ⟨h₄, hrun₄, rfl, _, _⟩ := addNode_of_put hrun₅ (by simp only; omega) (by simp only; omega)
      fun hj => (hbins _ hj).1
    obtain ⟨h₃, hrun₃, rfl, hmem₃, hmapped₃⟩ := addNode_of_put hrun₄ (by simp only; omega) (by simp only; omega)
      fun hj => (hbins _ hj).2
    have hmapped : ∀ w, h.Mapped w → h₃.Mapped w := fun w hw => by
      rw [hmapped₃]
      exact hw
    have hdiff : ({x.addr, z} : Set Nat) \ {z} = {x.addr} := by
      rw [pair_comm, insert_sdiff_of_mem _ (mem_singleton _), sdiff_singleton_eq_self]
      rw [mem_singleton_iff]
      omega
    rw [hdiff] at hr₅
    refine ⟨_, g₁.move z (.bin (getBinIndex R)), ⟨x.addr, S⟩, ?_, hr₅, hy₁, rfl, ?_, le_rfl, ?_⟩
    · have hsub := sub64_of_le (a := x.size) (b := S) hfit (by omega)
      have hsub' := sub64_of_le (a := x.size - S) (b := 32) (by omega) (by omega)
      have hadd : add64 (x.addr + 32) S = z := add64_of_lt (by omega)
      have hmodify : h.modify z (fun v => setFast (setHole (setSize v R) 1) 0) = some h₁ := by
        rw [modify_eq (hs.mapped_word hx (by omega) (by omega) (by omega)), holeWord_marks (by omega)]
      have hfootAt : z + 24 + R = x.addr + 24 + x.size := by omega
      have hcreate : h₁.createFoot z = some h₂ := by
        rw [createFoot_word (h := h₁) (hs.mapped_word hx (by omega) (by omega) (by omega)) put_mem_self (by omega)
          (by rw [hfootAt]; exact hs.mapped_foot hx), hfootAt]
      have hloadz : h₂.load z = some (2 * 2 ^ 62 + R) := by
        rw [load_eq (h := h₂) (hs.mapped_word hx (by omega) (by omega) (by omega)), put_mem_of_ne (by omega)]
        exact congrArg some put_mem_self
      have hword₃ : h₃.mem x.addr = 2 * 2 ^ 62 + x.size := by
        rw [hmem₃, put_mem_of_ne (by omega), put_mem_of_ne (by omega), (hr.marks x hx (notMem_empty _)).1, hp]
        rfl
      have hmodify₃ : h₃.modify x.addr (fun w => setSize w S) = some (h₃.put x.addr (2 * 2 ^ 62 + S)) := by
        rw [modify_eq (hmapped _ (hs.mapped_head hx)), hword₃, setSize_word (by omega) (by omega)]
      have hcreate₃ : (h₃.put x.addr (2 * 2 ^ 62 + S)).createFoot x.addr =
          some ((h₃.put x.addr (2 * 2 ^ 62 + S)).put (x.addr + 24 + S) x.addr) :=
        createFoot_word (put_mapped.mpr (hmapped _ (hs.mapped_head hx))) put_mem_self (by omega)
          (put_mapped.mpr (hmapped _ (hs.mapped_word hx (by omega) (by omega) (by omega))))
      simp only [Heap.splitTail, hload, hs.getSize_head hx, hS, bind_eq_bind, bind_some, hsub, hsub',
        if_pos (show x.size - S > 32 + 8 by omega), hadd, ← hR, hmodify, hcreate, hloadz,
        getSize_word (show R < 2 ^ 62 by omega), hrun₃, hmodify₃, hcreate₃]
      exact if_pos (by rw [sub64_of_le (hle.trans hfit) (by omega)]; omega)
    · rw [Layout.move_place_of_ne _ (by omega), hplace₁]
      exact hp
    · rw [show insert z ({x.addr, z} : Set Nat) = {x.addr, z} from insert_eq_of_mem (.inr rfl), hdiff] at hk₅
      exact hk₁.trans hk₅
  · refine ⟨h, g, x, ?_, hr.mono (empty_subset _), hx, rfl, hp, hfit, Kept.refl⟩
    have hsub := sub64_of_le (a := x.size) (b := splitPointSize x.addr size) hfit (by omega)
    simp only [Heap.splitTail, hload, hs.getSize_head hx, bind_eq_bind, bind_some, hsub,
      if_neg (show ¬ x.size - splitPointSize x.addr size > 32 + 8 by omega), ite_self]

theorem Rest.handOut (hr : Rest h g {x.addr}) (hx : x ∈ g.tiles) (hp : g.place x.addr = .bin i)
    (hlt : roundedSize n < 2 ^ 64 - 32) (hfit : splitPointSize x.addr (roundedSize n) ≤ x.size) :
    ∃ h' g' p, h.handOut i x.addr (roundedSize n) = some (h', p) ∧ Rest h' g' ∅ ∧ g'.Used x ∧
      Kept h g {x.addr} h' g' {x.addr} ∧ Holds h' x p n ∧
      if alignedSize ≤ roundedSize n then 32 ∣ p else p = x.addr + 8 := by
  have hs := hr.shape
  have hxsize := hs.size_lt hx
  have haligned := hs.aligned x hx
  obtain ⟨t, ht, hword⟩ := hs.head x hx
  have hmodify : h.modify x.addr (fun w => setFast (setHole w 0) 0) = some (h.put x.addr x.size) := by
    rw [modify_eq (hs.mapped_head hx), hword, setHole_word (by omega), setFast_word (by omega)]
    have : (t % 2 + 0 % 2 * 2) / 2 * 2 + 0 % 2 = 0 := by omega
    rw [this, Nat.zero_mul, zero_add]
  have hr₁ := hr.putHead hx rfl (t := 0) (by omega)
  rw [Nat.zero_mul, zero_add] at hr₁
  have hk₁ := Kept.put (E := {x.addr}) (w := x.addr) (v := x.size) hs hx rfl (by omega) (by omega)
  obtain ⟨h₂, hrun₂, hr₂, hheads₂, hk₂, hw₂⟩ := hr₁.removeNode hp
  rw [insert_eq_of_mem (mem_singleton _)] at hr₂ hk₂
  have hl₂ : Loose h₂ (g.move x.addr .out) x := ⟨hr₂, hx, g.move_place_self⟩
  have hhead₂ : h₂.mem x.addr = x.size := (hheads₂ x hx).trans put_mem_self
  have hs₂ := hr₂.shape
  obtain ⟨hr₃, hk₃⟩ := hl₂.clear hhead₂
  have hk := hk₁.trans (hk₂.trans hk₃)
  have hround : n < roundedSize n + 8 ∧ 8 ∣ roundedSize n := by
    unfold roundedSize
    omega
  obtain ⟨hle, hs8, hlarge, hsmall⟩ := splitPointSize_bounds haligned.1 hround.2 hlt
  have hup : x.addr + 8 ≤ aligned x.addr ∧ aligned x.addr ≤ x.addr + 32 ∧ 32 ∣ aligned x.addr := by
    unfold aligned
    omega
  by_cases hshift : roundedSize n ≥ alignedSize ∧ aligned x.addr ≠ x.addr + 8
  · obtain ⟨hsum, hle'⟩ := hlarge hshift.1
    have hbig := hshift.1
    unfold alignedSize at hbig
    have hlo : x.addr < aligned x.addr - 8 := by omega
    have hhi : aligned x.addr - 8 < x.addr + 24 + x.size := by omega
    have hmapped : h₂.Mapped (aligned x.addr - 8) := hs₂.mapped_word hx (by omega) (by omega) (by omega)
    refine ⟨_, _, aligned x.addr, ?_, hr₃.putInside (v := x.addr + 8) hx g.move_place_self hlo hhi,
      ⟨hx, g.move_place_self⟩, hk.trans (Kept.put hr₃.shape hx rfl (by omega) (by omega)), ?_,
      by rw [if_pos hshift.1]; exact hup.2.2⟩
    · simp only [Heap.handOut, hmodify, hrun₂, bind_eq_bind, bind_some,
        clear_eq (hs₂.mapped_next hx) (hs₂.mapped_prev hx), if_pos hshift]
      rw [store_eq (h := h₂.clear x.addr) hmapped, bind_some]
    · exact ⟨by omega, by omega, by omega, .inr ⟨by omega, put_mem_self⟩⟩
  · refine ⟨_, _, x.addr + 8, ?_, hr₃, ⟨hx, g.move_place_self⟩, hk, ⟨le_rfl, by omega, by omega, .inl rfl⟩, ?_⟩
    · simp only [Heap.handOut, hmodify, hrun₂, bind_eq_bind, bind_some,
        clear_eq (hs₂.mapped_next hx) (hs₂.mapped_prev hx), if_neg hshift]
    · split
      next hbig =>
        rw [not_and, not_not] at hshift
        rw [← hshift hbig]
        exact hup.2.2
      next => rfl

theorem Kept.of_listed (hp : g.place a ≠ .out) : Kept h g ∅ h g {a} := by
  refine ⟨rfl, fun y => ⟨fun hy => ⟨hy.1, ?_⟩, fun hy => ⟨hy.1, notMem_empty _⟩⟩, fun _ _ _ _ _ _ => rfl⟩
  intro hya
  exact hp (hya ▸ hy.1.2)

theorem Rest.carve (hr : Rest h g ∅) (hx : x ∈ g.tiles) (hp : g.place x.addr = .bin i)
    (hlt : n < 2 ^ 64 - 32) (hfit : searchSize n ≤ x.size) :
    ∃ h' g' y p, h.carve i x.addr (roundedSize n) = some (h', p) ∧ Allocated h g h' g' y p n ∧
      if alignedSize ≤ roundedSize n then 32 ∣ p else p = y.addr + 8 := by
  have hround : roundedSize n ≤ n ∧ 8 ∣ roundedSize n := by
    unfold roundedSize
    omega
  obtain ⟨_, _, hlarge, hsmall⟩ := splitPointSize_bounds (hr.shape.aligned x hx).1 hround.2 (by omega)
  have hpoint : splitPointSize x.addr (roundedSize n) ≤ x.size := by
    unfold searchSize at hfit
    split at hfit
    next hbig =>
      rw [add64_of_lt (by omega)] at hfit
      omega
    next hbig => exact (hsmall hbig).trans_le hfit
  obtain ⟨h₁, g₁, y, hrun₁, hr₁, hy, hya, hp₁, hfit₁, hk₁⟩ := hr.splitTail hx hp hround.2 (by omega) hpoint
  rw [← hya] at hr₁ hp₁ hfit₁ hk₁
  obtain ⟨h₂, g₂, p, hrun₂, hr₂, hu, hk₂, hh, h32⟩ := hr₁.handOut hy hp₁ (by omega) hfit₁
  refine ⟨h₂, g₂, y, p, ?_, ⟨hr₂, hu, (Kept.of_listed ?_).trans (hk₁.trans hk₂), hh⟩, h32⟩
  · rw [hya] at hrun₂
    simp [Heap.carve, splitLead_eq, hrun₁, hrun₂]
  · rw [hya, hp]
    simp

end Carve

theorem Rest.findNode (hr : Rest h g ∅) (mremap : Nat → Bool) (n : Nat) : ∃ h' g' index found,
    h.findNode mremap n = some (h', index, found) ∧ Searched mremap h g (searchSize n) h' g' index found := by
  have hbody : ∀ {h₁ : Heap} {g₁ : Layout}, Rest h₁ g₁ ∅ → ∃ h' g' index found,
      ((h₁.getBestFit (getBinIndex (searchSize n)) (searchSize n)).bind fun found =>
        Heap.searchLoop mremap (searchSize n) (getBinIndex (searchSize n)) searchLimit h₁ (getBinIndex (searchSize n))
          found false) = some (h', index, found) ∧ Searched mremap h₁ g₁ (searchSize n) h' g' index found := by
    intro h₁ g₁ hr₁
    obtain ⟨found, hfit, hfitted⟩ := hr₁.getBestFit (getBinIndex (searchSize n)) (searchSize n)
    obtain ⟨h', g', index', found', hrun, hs⟩ := hr₁.searchLoop mremap searchLimit false
      (hr₁.scanned_base hfitted) (by simp) (by
        have hroom := hr₁.shape.room
        simp only [turnsLeft, searchLimit, heapMaxSize, heapSize] at hroom ⊢
        simp only [Bool.false_eq_true, if_false]
        omega)
    exact ⟨h', g', index', found', by rw [hfit, bind_some, hrun], hs⟩
  by_cases hlarge : roundedSize n ≥ 512
  · obtain ⟨h₁, g₁, hrun₁, hr₁, _, hk₁, hstop₁⟩ := hr.mallocConsolidate
    obtain ⟨h', g', index, found, hrun, hs⟩ := hbody hr₁
    refine ⟨h', g', index, found, ?_, hs.of_kept hk₁ hstop₁⟩
    simp only [Heap.findNode, if_pos hlarge, hrun₁, bind_eq_bind, bind_some]
    exact hrun
  · obtain ⟨h', g', index, found, hrun, hs⟩ := hbody hr
    refine ⟨h', g', index, found, ?_, hs⟩
    simp only [Heap.findNode, if_neg hlarge, bind_eq_bind, bind_some]
    exact hrun

/-- A request that fails leaves the allocated nodes alone, and the heap could not have served it. -/
structure Denied (mremap : Nat → Bool) (h : Heap) (g : Layout) (n : Nat) (h' : Heap) (g' : Layout) : Prop where
  rest : Rest h' g' ∅
  kept : Kept h g ∅ h' g' ∅
  short : ∀ a b, h'.start ≤ a → b ≤ h'.stop → g'.Gap a b → b < a + 32 + searchSize n
  refused : heapMaxSize ≤ h'.stop - h'.start ∨ Refused mremap h'

theorem Rest.malloc (hr : Rest h g ∅) (mremap : Nat → Bool) (hpos : 0 < n) (hlt : n < 2 ^ 64 - 32) : ∃ h' g' p,
    h.malloc mremap n = some (h', p) ∧ (p = 0 ∧ Denied mremap h g n h' g' ∨ p ≠ 0 ∧ ∃ x, Allocated h g h' g' x p n ∧
          if alignedSize ≤ roundedSize n then 32 ∣ p else p = x.addr + 8) := by
  have hptr : ∀ {h' : Heap} {g' : Layout} {x : Tile} {p : Nat}, Allocated h g h' g' x p n → p ≠ 0 := by
    intro h' g' x p ha
    have := ha.holds.1
    omega
  by_cases hfast : roundedSize n ≤ 64 ∧ h.fastbins (roundedSize n / 8) ≠ 0
  · obtain ⟨h', g', x, hrun, ha⟩ := hr.takeFast hfast.2
    refine ⟨h', g', x.addr + 8, ?_, .inr ⟨hptr ha, x, ha, ?_⟩⟩
    · rw [Heap.malloc, if_neg hpos.ne', if_pos hfast, hrun]
    · rw [if_neg]
      unfold alignedSize
      omega
  · obtain ⟨h₁, g₁, index, found, hrun₁, hs⟩ := hr.findNode mremap n
    by_cases hfound : found = 0
    · subst hfound
      refine ⟨h₁, g₁, 0, ?_, .inl ⟨rfl, hs.rest, hs.kept, hs.short rfl, hs.refused rfl⟩⟩
      simp only [Heap.malloc, if_neg hpos.ne', if_neg hfast, hrun₁, bind_eq_bind, bind_some, if_true]
    · obtain ⟨x, hx, rfl, hp, hfit⟩ := hs.fit hfound
      obtain ⟨h₂, g₂, y, p, hrun₂, ha, h32⟩ := hs.rest.carve hx hp hlt hfit
      have ha' : Allocated h g h₂ g₂ y p n := ⟨ha.rest, ha.used, hs.kept.trans ha.kept, ha.holds⟩
      refine ⟨h₂, g₂, p, ?_, .inr ⟨hptr ha', y, ha', h32⟩⟩
      simp only [Heap.malloc, if_neg hpos.ne', if_neg hfast, hrun₁, bind_eq_bind, bind_some, if_neg hfound, hrun₂]

end Heap

end ParepMpi
