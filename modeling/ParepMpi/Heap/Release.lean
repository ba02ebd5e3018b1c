import ParepMpi.Heap.Layout
import Mathlib.Data.List.Perm.Subperm
import Mathlib.Order.BooleanAlgebra.Set

/-!
# Freeing nodes

A node that is given back becomes a hole and takes in the holes on both sides of it.
-/

namespace ParepMpi

open LinkedList Tiling List Function Set

structure Layout where
  tiles : List Tile
  place : Nat → Place

namespace Layout

variable (g : Layout)

def Used (x : Tile) : Prop := x ∈ g.tiles ∧ g.place x.addr = .out

def move (a : Nat) (p : Place) : Layout := { g with place := update g.place a p }

variable {a : Nat} {p : Place}

@[simp] theorem move_tiles : (g.move a p).tiles = g.tiles := rfl

@[simp] theorem move_place_self : (g.move a p).place a = p := update_self ..

theorem move_place_of_ne {a b : Nat} (hb : b ≠ a) : (g.move a p).place b = g.place b := update_of_ne hb ..

def NoHoleBefore (a : Nat) : Prop :=
  ∀ y ∈ g.tiles, y.addr + 32 + y.size = a → ∀ i, g.place y.addr ≠ .bin i

def NoHoleAt (a : Nat) : Prop := ∀ y ∈ g.tiles, y.addr = a → ∀ i, g.place y.addr ≠ .bin i

end Layout

namespace Heap

def Marked (h : Heap) (g : Layout) (x : Tile) : Prop :=
  h.mem x.addr = (g.place x.addr).tag * 2 ^ 62 + x.size ∧ (g.place x.addr).Fits x.size

/-- The invariant of the heap, but for the marks of the nodes of `E` and for holes beside them. -/
structure Rest (h : Heap) (g : Layout) (E : Set Nat) : Prop where
  shape : Shape h g.tiles
  lists : Lists h g.tiles g.place
  marks : ∀ x ∈ g.tiles, x.addr ∉ E → Marked h g x
  apart : ∀ x ∈ g.tiles, x.addr ∉ E → ∀ i, g.place x.addr = .bin i → ∀ y ∈ g.tiles, y.addr ∉ E →
    y.addr = x.addr + 32 + x.size → ∀ j, g.place y.addr ≠ .bin j

/-- The allocated nodes outside `E` are those outside `E'` afterwards, and their bytes are the same. -/
structure Kept (h : Heap) (g : Layout) (E : Set Nat) (h' : Heap) (g' : Layout) (E' : Set Nat) : Prop where
  start : h'.start = h.start
  used : ∀ x, g.Used x ∧ x.addr ∉ E ↔ g'.Used x ∧ x.addr ∉ E'
  mem : ∀ x, g.Used x → x.addr ∉ E → ∀ w, x.addr ≤ w → w < x.addr + 32 + x.size → h'.mem w = h.mem w

structure Within (h : Heap) (g : Layout) (h' : Heap) (g' : Layout) : Prop where
  stop : h'.stop = h.stop
  mapEnd : h'.mapEnd = h.mapEnd
  extHeapSize : h'.extHeapSize = h.extHeapSize
  fast : ∀ a i, g'.place a = .fast i ↔ g.place a = .fast i

variable {h h' h'' : Heap} {g g' g'' : Layout} {E E' E'' : Set Nat} {x y : Tile} {a i t : Nat}

theorem Kept.refl : Kept h g E h g E := ⟨rfl, fun _ => Iff.rfl, fun _ _ _ _ _ _ => rfl⟩

theorem Kept.trans (hk : Kept h g E h' g' E') (hk' : Kept h' g' E' h'' g'' E'') : Kept h g E h'' g'' E'' where
  start := hk'.start.trans hk.start
  used x := (hk.used x).trans (hk'.used x)
  mem x hu he w hlo hhi := by
    obtain ⟨hu', he'⟩ := (hk.used x).mp ⟨hu, he⟩
    exact (hk'.mem x hu' he' w hlo hhi).trans (hk.mem x hu he w hlo hhi)

theorem Within.refl : Within h g h g := ⟨rfl, rfl, rfl, fun _ _ => Iff.rfl⟩

theorem Within.trans (hw : Within h g h' g') (hw' : Within h' g' h'' g'') : Within h g h'' g'' :=
  ⟨hw'.stop.trans hw.stop, hw'.mapEnd.trans hw.mapEnd, hw'.extHeapSize.trans hw.extHeapSize,
    fun a i => (hw'.fast a i).trans (hw.fast a i)⟩

namespace Rest

variable (hr : Rest h g E)

include hr

theorem getHole_head (hx : x ∈ g.tiles) (he : x.addr ∉ E) :
    getHole (h.mem x.addr) = 1 ↔ ∃ i, g.place x.addr = .bin i := by
  have hsize := hr.shape.size_lt hx
  rw [(hr.marks x hx he).1, getHole_word (Place.tag_lt _) (by omega), Place.tag_div_two]

theorem bin_eq (hx : x ∈ g.tiles) (he : x.addr ∉ E) (hp : g.place x.addr = .bin i) : i = getBinIndex x.size := by
  have hfits := (hr.marks x hx he).2
  rw [hp] at hfits
  exact hfits

theorem removeNode (hp : g.place x.addr = .bin i) :
    ∃ h', h.removeNode i x.addr = some h' ∧ Rest h' (g.move x.addr .out) (insert x.addr E) ∧
      (∀ y ∈ g.tiles, h'.mem y.addr = h.mem y.addr) ∧
      Kept h g E h' (g.move x.addr .out) (insert x.addr E) ∧ Within h g h' (g.move x.addr .out) := by
  obtain ⟨h', hrun, hrel, hl⟩ := removeNode_spec hr.shape hr.lists hp
  have hS : ∀ a, g.place a = .bin i → ∃ y ∈ g.tiles, y.addr = a := fun a => hr.lists.mem_tiles
  have hhead : ∀ y ∈ g.tiles, h'.mem y.addr = h.mem y.addr := fun y => hrel.mem_head hr.shape hS
  refine ⟨h', hrun, ⟨hrel.shape hr.shape hS, hl, ?_, ?_⟩, hhead, ⟨hrel.start, ?_, ?_⟩, ?_⟩
  · intro y hy hye
    rw [mem_insert_iff, not_or] at hye
    rw [Marked, hhead y hy, g.move_place_of_ne hye.1]
    exact hr.marks y hy hye.2
  · intro y hy hye j hj z hz hze hyz k hk
    rw [mem_insert_iff, not_or] at hye hze
    rw [g.move_place_of_ne hye.1] at hj
    rw [g.move_place_of_ne hze.1] at hk
    exact hr.apart y hy hye.2 j hj z hz hze.2 hyz k hk
  · intro y
    by_cases hyx : y.addr = x.addr
    · simp [Layout.Used, hyx, hp]
    · simp [Layout.Used, hyx, g.move_place_of_ne hyx]
  · intro y hy _ w hlo hhi
    apply hrel.mem_of_not hr.shape hS hy.1 ?_ hlo hhi
    rw [hy.2]
    simp
  · refine ⟨hrel.stop, hrel.mapEnd, hrel.extHeapSize, fun a j => ?_⟩
    by_cases ha : a = x.addr
    · subst ha
      simp [hp]
    · rw [g.move_place_of_ne ha]

theorem addNode (hx : x ∈ g.tiles) (hout : g.place x.addr = .out) (hhead : h.mem x.addr = 2 * 2 ^ 62 + x.size)
    (hbefore : ∀ y ∈ g.tiles, y.addr ∉ E → y.addr + 32 + y.size = x.addr → ∀ i, g.place y.addr ≠ .bin i)
    (hafter : g.NoHoleAt (x.addr + 32 + x.size)) :
    ∃ h', h.addNode (getBinIndex x.size) x.addr = some h' ∧
      Rest h' (g.move x.addr (.bin (getBinIndex x.size))) (E \ {x.addr}) ∧
      (∀ y ∈ g.tiles, h'.mem y.addr = h.mem y.addr) ∧
      Kept h g (insert x.addr E) h' (g.move x.addr (.bin (getBinIndex x.size))) (E \ {x.addr}) ∧
      Within h g h' (g.move x.addr (.bin (getBinIndex x.size))) := by
  obtain ⟨h', hrun, hrel, hl⟩ := addNode_spec (i := getBinIndex x.size) hr.shape hr.lists hx hout
  have hS : ∀ a, g.place a = .bin (getBinIndex x.size) ∨ a = x.addr → ∃ y ∈ g.tiles, y.addr = a := by
    rintro a (ha | rfl)
    · exact hr.lists.mem_tiles ha
    · exact ⟨x, hx, rfl⟩
  have hheads : ∀ y ∈ g.tiles, h'.mem y.addr = h.mem y.addr := fun y => hrel.mem_head hr.shape hS
  refine ⟨h', hrun, ⟨hrel.shape hr.shape hS, hl, ?_, ?_⟩, hheads, ⟨hrel.start, ?_, ?_⟩, ?_⟩
  · intro y hy hye
    by_cases hyx : y.addr = x.addr
    · obtain rfl := hr.shape.eq_of_addr hy hx hyx
      rw [Marked, hheads y hy, g.move_place_self, hhead]
      exact ⟨rfl, rfl⟩
    · rw [Marked, hheads y hy, g.move_place_of_ne hyx]
      exact hr.marks y hy fun he => hye ⟨he, hyx⟩
  · intro y hy hye j hj z hz hze hyz k hk
    by_cases hyx : y.addr = x.addr
    · obtain rfl := hr.shape.eq_of_addr hy hx hyx
      have hzy : z.addr ≠ y.addr := by omega
      rw [g.move_place_of_ne hzy] at hk
      exact hafter z hz hyz k hk
    · rw [g.move_place_of_ne hyx] at hj
      have hyE : y.addr ∉ E := fun he => hye ⟨he, hyx⟩
      by_cases hzx : z.addr = x.addr
      · exact hbefore y hy hyE (hyz.symm.trans hzx) j hj
      · rw [g.move_place_of_ne hzx] at hk
        exact hr.apart y hy hyE j hj z hz (fun he => hze ⟨he, hzx⟩) hyz k hk
  · intro y
    by_cases hyx : y.addr = x.addr
    · simp [Layout.Used, hyx]
    · simp [Layout.Used, hyx, g.move_place_of_ne hyx]
  · intro y hy hye w hlo hhi
    rw [mem_insert_iff, not_or] at hye
    apply hrel.mem_of_not hr.shape hS hy.1 ?_ hlo hhi
    rw [hy.2]
    simp [hye.1]
  · refine ⟨hrel.stop, hrel.mapEnd, hrel.extHeapSize, fun a j => ?_⟩
    by_cases ha : a = x.addr
    · subst ha
      simp [hout]
    · rw [g.move_place_of_ne ha]

end Rest

/-- Nodes at the addresses of `E` make way for nodes at those of `N`, and memory changes in `[lo, hi)` only. -/
theorem Rest.retile (hr : Rest h g E) (h' : Heap) (T : List Tile) (N : Set Nat) (lo hi : Nat)
    (hfix : h'.start = h.start ∧ h'.bins = h.bins ∧ h'.fastbins = h.fastbins)
    (hsize : h.stop ≤ h'.stop ∧ h'.stop ≤ h'.mapEnd ∧ h'.stop ≤ addressLimit)
    (htiles : Tiles Tile.addr Tile.stop h.start h'.stop T)
    (hold : ∀ x, x ∈ T ∧ x.addr ∉ N ↔ x ∈ g.tiles ∧ x.addr ∉ E)
    (hregion : ∀ x ∈ g.tiles, x.addr ∉ E → x.addr + 32 + x.size ≤ lo ∨ hi ≤ x.addr)
    (hmem : ∀ w, w < lo ∨ hi ≤ w → h'.mem w = h.mem w)
    (hnew : ∀ x ∈ T, x.addr ∈ N → (8 ∣ x.addr ∧ 8 ∣ x.size) ∧
      (∃ t < 4, h'.mem x.addr = t * 2 ^ 62 + x.size) ∧ h'.mem (x.addr + 24 + x.size) = x.addr)
    (hlisted : ∀ a ∈ E, g.place a ≠ .out → (∃ x ∈ T, x.addr = a) ∧ h'.next a = h.next a ∧ h'.prev a = h.prev a) :
    Rest h' ⟨T, g.place⟩ N ∧ Kept h g E h' ⟨T, g.place⟩ N := by
  have hs := hr.shape
  obtain ⟨hstart, hbins, hfast⟩ := hfix
  obtain ⟨hgrow, hmapped, hlimit⟩ := hsize
  have hsame : ∀ x ∈ g.tiles, x.addr ∉ E → ∀ w, x.addr ≤ w → w < x.addr + 32 + x.size → h'.mem w = h.mem w := by
    intro x hx hxE w hlo hhi
    have := hregion x hx hxE
    exact hmem w (by omega)
  have hlinks : ∀ a, g.place a ≠ .out → (∃ x ∈ T, x.addr = a) ∧ h'.next a = h.next a ∧ h'.prev a = h.prev a := by
    intro a ha
    by_cases haE : a ∈ E
    · exact hlisted a haE ha
    · obtain ⟨x, hx, rfl⟩ := hr.lists.tile a ha
      exact ⟨⟨x, ((hold x).mpr ⟨hx, haE⟩).1, rfl⟩, hsame x hx haE _ (by omega) (by omega),
        hsame x hx haE _ (by omega) (by omega)⟩
  refine ⟨⟨⟨hstart ▸ hs.pos, ?_, hmapped, hlimit, hstart ▸ htiles, ?_, ?_, ?_⟩, ?_, ?_, ?_⟩, hstart, ?_, ?_⟩
  · rw [hstart]
    exact hs.room.trans hgrow
  · intro x hx
    by_cases hxN : x.addr ∈ N
    · exact (hnew x hx hxN).1
    · exact hs.aligned x ((hold x).mp ⟨hx, hxN⟩).1
  · intro x hx
    by_cases hxN : x.addr ∈ N
    · exact (hnew x hx hxN).2.1
    · obtain ⟨hx, hxE⟩ := (hold x).mp ⟨hx, hxN⟩
      rw [hsame x hx hxE _ (by omega) (by omega)]
      exact hs.head x hx
  · intro x hx
    by_cases hxN : x.addr ∈ N
    · exact (hnew x hx hxN).2.2
    · obtain ⟨hx, hxE⟩ := (hold x).mp ⟨hx, hxN⟩
      rw [hsame x hx hxE _ (by omega) (by omega)]
      exact hs.foot x hx
  · exact hr.lists.congr hbins hfast (fun a ha => (hlinks a ha).2.1) (fun a ha => (hlinks a ha).2.2)
      fun a ha => (hlinks a ha).1
  · intro x hx hxN
    obtain ⟨hx, hxE⟩ := (hold x).mp ⟨hx, hxN⟩
    rw [Marked, hsame x hx hxE _ (by omega) (by omega)]
    exact hr.marks x hx hxE
  · intro x hx hxN i hi y hy hyN hyx j hj
    obtain ⟨hx, hxE⟩ := (hold x).mp ⟨hx, hxN⟩
    obtain ⟨hy, hyE⟩ := (hold y).mp ⟨hy, hyN⟩
    exact hr.apart x hx hxE i hi y hy hyE hyx j hj
  · intro x
    have := hold x
    simp only [Layout.Used]
    tauto
  · intro x hx hxE w hlo hhi
    exact hsame x hx.1 hxE w hlo hhi

theorem Rest.merge {z : Tile} (hr : Rest h g {x.addr, z.addr}) (h' : Heap) (hx : x ∈ g.tiles) (hz : z ∈ g.tiles)
    (hxz : x.addr + 32 + x.size = z.addr) (hpx : g.place x.addr = .out) (hpz : g.place z.addr = .out)
    (hsame : h' = { h with mem := h'.mem }) (ht : t < 4)
    (hhead : h'.mem x.addr = t * 2 ^ 62 + (x.size + 32 + z.size))
    (hfoot : h'.mem (z.addr + 24 + z.size) = x.addr)
    (hmem : ∀ w, w < x.addr ∨ z.addr + 32 + z.size ≤ w → h'.mem w = h.mem w) :
    ∃ g', Rest h' g' {x.addr} ∧ ⟨x.addr, x.size + 32 + z.size⟩ ∈ g'.tiles ∧ g'.place = g.place ∧
      (∀ w, w ∈ g'.tiles → w.addr = x.addr ∨ w ∈ g.tiles) ∧
      Kept h g {x.addr, z.addr} h' g' {x.addr} ∧ Within h g h' g' := by
  have hs := hr.shape
  have hstop : Tile.stop ⟨x.addr, x.size + 32 + z.size⟩ = Tile.stop z := by
    simp only [Tile.stop]
    omega
  obtain ⟨T, htiles, hT⟩ := hs.tiles.merge hx hz hxz (z := ⟨x.addr, x.size + 32 + z.size⟩) rfl hstop
  have hsame' : (h'.start = h.start ∧ h'.bins = h.bins ∧ h'.fastbins = h.fastbins) ∧ h'.stop = h.stop ∧
      h'.mapEnd = h.mapEnd ∧ h'.extHeapSize = h.extHeapSize := by
    rw [hsame]
    exact ⟨⟨rfl, rfl, rfl⟩, rfl, rfl, rfl⟩
  obtain ⟨hfix, hend, hmap, hext⟩ := hsame'
  have hout : ∀ a ∈ ({x.addr, z.addr} : Set Nat), g.place a = .out := by
    rintro a (rfl | rfl)
    · exact hpx
    · exact hpz
  have hne : ∀ w ∈ g.tiles, w.addr ∉ ({x.addr, z.addr} : Set Nat) ↔ w ≠ x ∧ w ≠ z := by
    intro w hw
    simp only [mem_insert_iff, mem_singleton_iff, not_or]
    exact and_congr (not_congr ⟨hs.eq_of_addr hw hx, congrArg _⟩) (not_congr ⟨hs.eq_of_addr hw hz, congrArg _⟩)
  have hold : ∀ w, w ∈ T ∧ w.addr ∉ ({x.addr} : Set Nat) ↔ w ∈ g.tiles ∧ w.addr ∉ ({x.addr, z.addr} : Set Nat) := by
    intro w
    rw [hT]
    constructor
    · intro hw
      obtain ⟨rfl | ⟨hw, hwx, hwz⟩, hwN⟩ := hw
      · exact absurd rfl hwN
      · exact ⟨hw, (hne w hw).mpr ⟨hwx, hwz⟩⟩
    · intro hw
      obtain ⟨hw, hwE⟩ := hw
      exact ⟨.inr ⟨hw, (hne w hw).mp hwE⟩, fun h => hwE (.inl h)⟩
  obtain ⟨hr', hk'⟩ := hr.retile h' T {x.addr} x.addr (z.addr + 32 + z.size) hfix
    (by rw [hend, hmap]; exact ⟨le_rfl, hs.mapped, hs.limit⟩) (hend ▸ htiles) hold
    (by
      intro w hw hwE
      obtain ⟨hwx, hwz⟩ := (hne w hw).mp hwE
      have hdx := hs.disjoint hw hx
      have hdz := hs.disjoint hw hz
      simp only [hwx, hwz, false_or] at hdx hdz
      omega)
    hmem
    (by
      intro w hw hwN
      have hax := hs.aligned x hx
      have haz := hs.aligned z hz
      rcases (hT w).mp hw with rfl | ⟨hw, hwx, _⟩
      · refine ⟨⟨hax.1, show 8 ∣ x.size + 32 + z.size by omega⟩, ⟨t, ht, hhead⟩, Eq.trans ?_ hfoot⟩
        congr 1
        show x.addr + 24 + (x.size + 32 + z.size) = _
        omega
      · exact absurd (hs.eq_of_addr hw hx hwN) hwx)
    (fun a haE => absurd (hout a haE))
  refine ⟨_, hr', (hT _).mpr (.inl rfl), rfl, ?_, hk', hend, hmap, hext, fun _ _ => Iff.rfl⟩
  intro w hw
  rcases (hT w).mp hw with rfl | ⟨hw, _, _⟩
  · exact .inl rfl
  · exact .inr hw

structure Loose (h : Heap) (g : Layout) (x : Tile) : Prop where
  rest : Rest h g {x.addr}
  mem : x ∈ g.tiles
  out : g.place x.addr = .out

namespace Loose

variable (hl : Loose h g x)

include hl

theorem coalescePrev : ∃ h' g' x', h.coalescePrev x.addr = some (h', x'.addr) ∧ Loose h' g' x' ∧
    x'.addr + 32 + x'.size = x.addr + 32 + x.size ∧ g'.NoHoleBefore x'.addr ∧
    Kept h g {x.addr} h' g' {x'.addr} ∧ Within h g h' g' := by
  obtain ⟨hr, hx, hout⟩ := hl
  have hs := hr.shape
  by_cases hstart : x.addr = h.start
  · refine ⟨h, g, x, by simp [Heap.coalescePrev, hstart], ⟨hr, hx, hout⟩, rfl, ?_, Kept.refl, Within.refl⟩
    intro y hy hyx
    have := hs.bounds hy
    omega
  · obtain ⟨y, hy, hyx⟩ := hs.tiles.prev hx hstart
    change y.addr + 32 + y.size = x.addr at hyx
    have hyE : y.addr ∉ ({x.addr} : Set Nat) := by
      rw [mem_singleton_iff]
      omega
    have hsub : x.addr - 8 = y.addr + 24 + y.size := by omega
    have hprev : h.load (x.addr - 8) = some y.addr := by
      rw [hsub, load_eq (hs.mapped_foot hy), hs.foot y hy]
    by_cases hhole : getHole (h.mem y.addr) = 1
    · obtain ⟨i, hp⟩ := (hr.getHole_head hy hyE).mp hhole
      obtain rfl := hr.bin_eq hy hyE hp
      obtain ⟨h₁, hrun, hr₁, hheads, hk₁, hw₁⟩ := hr.removeNode hp
      have hs₁ := hr₁.shape
      have hysize := hs.size_lt hy
      have hxsize := hs.size_lt hx
      have hhead : h₁.mem y.addr = 2 * 2 ^ 62 + y.size := by
        rw [hheads y hy, (hr.marks y hy hyE).1, hp]
        rfl
      let S := y.size + 32 + x.size
      let h₂ := h₁.put y.addr (2 * 2 ^ 62 + S)
      let h₃ := h₂.put (x.addr + 24 + x.size) y.addr
      have hmodify : h₁.modify y.addr (fun w => setSize w (getSize w + 32 + getSize (h.mem x.addr))) = some h₂ := by
        rw [modify_eq (hs₁.mapped_head hy), hhead, hs.getSize_head hx, getSize_word (by omega),
          setSize_word (by omega) (by omega)]
      have hfootAt : y.addr + 24 + S = x.addr + 24 + x.size := by
        omega
      have hcreate : h₂.createFoot y.addr = some h₃ := by
        rw [createFoot_word (h := h₂) (hs₁.mapped_head hy) put_mem_self (show S < 2 ^ 62 by omega)
          (by rw [hfootAt]; exact hs₁.mapped_foot hx), hfootAt]
      obtain ⟨g', hr', hmem', hplace, hold, hk', hw'⟩ := hr₁.merge (t := 2) h₃ hy hx hyx
        (g.move_place_self) (by rw [g.move_place_of_ne (by omega)]; exact hout) rfl (by omega)
        (by rw [put_mem_of_ne (by omega)]; exact put_mem_self) put_mem_self
        (fun w hw => by rw [put_mem_of_ne (by omega), put_mem_of_ne (by omega)])
      refine ⟨h₃, g', ⟨y.addr, S⟩, ?_, ⟨hr', hmem', ?_⟩, ?_, ?_, hk₁.trans hk', hw₁.trans hw'⟩
      · simp [Heap.coalescePrev, hstart, hprev, load_eq (hs.mapped_head hy), hhole, hs.getSize_head hy, hrun,
          load_eq (hs₁.mapped_head hx), hheads x hx, hmodify, hcreate]
      · rw [hplace]
        exact g.move_place_self
      · simp only [S]
        omega
      · intro w hw hwy j hj
        have hne : w.addr ≠ y.addr := by
          simp only at hwy
          omega
        have hwT : w ∈ g.tiles := (hold w hw).resolve_left hne
        rw [hplace, g.move_place_of_ne hne] at hj
        exact hr.apart w hwT (by simp only [mem_singleton_iff]; simp only at hwy; omega) j hj y hy hyE hwy.symm _ hp
    · refine ⟨h, g, x, ?_, ⟨hr, hx, hout⟩, rfl, ?_, Kept.refl, Within.refl⟩
      · simp [Heap.coalescePrev, hstart, hprev, load_eq (hs.mapped_head hy), hhole]
      · intro w hw hwx j hj
        have hwy : w = y := by
          rcases hs.disjoint hw hy with heq | hd | hd
          · exact heq
          · omega
          · omega
        subst hwy
        exact hhole ((hr.getHole_head hy hyE).mpr ⟨j, hj⟩)

theorem coalesceNext (hbefore : g.NoHoleBefore x.addr) :
    ∃ h' g' x', h.coalesceNext x.addr (x.addr + 32 + x.size) = some h' ∧ Loose h' g' x' ∧ x'.addr = x.addr ∧
      g'.NoHoleBefore x'.addr ∧ g'.NoHoleAt (x'.addr + 32 + x'.size) ∧
      Kept h g {x.addr} h' g' {x'.addr} ∧ Within h g h' g' := by
  obtain ⟨hr, hx, hout⟩ := hl
  have hs := hr.shape
  by_cases hstop : x.addr + 32 + x.size = h.stop
  · refine ⟨h, g, x, by simp [Heap.coalesceNext, hstop], ⟨hr, hx, hout⟩, rfl, hbefore, ?_, Kept.refl, Within.refl⟩
    intro y hy hyx
    have := hs.bounds hy
    omega
  · obtain ⟨y, hy, hyx⟩ := hs.tiles.next hx hstop
    change y.addr = x.addr + 32 + x.size at hyx
    have hyE : y.addr ∉ ({x.addr} : Set Nat) := by
      rw [mem_singleton_iff]
      omega
    by_cases hhole : getHole (h.mem y.addr) = 1
    · obtain ⟨i, hp⟩ := (hr.getHole_head hy hyE).mp hhole
      obtain rfl := hr.bin_eq hy hyE hp
      obtain ⟨h₁, hrun, hr₁, hheads, hk₁, hw₁⟩ := hr.removeNode hp
      have hs₁ := hr₁.shape
      have hysize := hs.size_lt hy
      have hxsize := hs.size_lt hx
      obtain ⟨t, ht, hhead⟩ := hs₁.head x hx
      let S := x.size + 32 + y.size
      let h₂ := h₁.put x.addr (t * 2 ^ 62 + S)
      let h₃ := h₂.put (y.addr + 24 + y.size) 0
      let h₄ := h₃.put y.addr (setFast (setHole (setSize (h₃.mem y.addr) 0) 0) 0)
      let h₅ := h₄.put (y.addr + 24 + y.size) x.addr
      have hmodify : h₁.modify x.addr (fun w => setSize w (getSize w + 32 + y.size)) = some h₂ := by
        rw [modify_eq (hs₁.mapped_head hx), hhead, getSize_word (by omega), setSize_word (by omega) (by omega)]
      have hstore : h₂.store (y.addr + 24 + y.size) 0 = some h₃ := store_eq (hs₁.mapped_foot hy)
      have hclear : h₃.modify y.addr (fun w => setFast (setHole (setSize w 0) 0) 0) = some h₄ :=
        modify_eq (hs₁.mapped_head hy)
      have hfootAt : x.addr + 24 + S = y.addr + 24 + y.size := by
        omega
      have hword : h₄.mem x.addr = t * 2 ^ 62 + S := by
        rw [put_mem_of_ne (by omega), put_mem_of_ne (by omega)]
        exact put_mem_self
      have hcreate : h₄.createFoot x.addr = some h₅ := by
        rw [createFoot_word (h := h₄) (hs₁.mapped_head hx) hword (show S < 2 ^ 62 by omega)
          (by rw [hfootAt]; exact hs₁.mapped_foot hy), hfootAt]
      rw [show insert y.addr ({x.addr} : Set Nat) = {x.addr, y.addr} from pair_comm ..] at hr₁ hk₁
      obtain ⟨g', hr', hmem', hplace, hold, hk', hw'⟩ := hr₁.merge h₅ hx hy hyx.symm
        (by rw [g.move_place_of_ne (by omega)]; exact hout) (g.move_place_self) rfl ht
        (by rw [put_mem_of_ne (by omega)]; exact hword) put_mem_self
        (fun w hw => by
          rw [put_mem_of_ne (by omega), put_mem_of_ne (by omega), put_mem_of_ne (by omega), put_mem_of_ne (by omega)])
      refine ⟨h₅, g', ⟨x.addr, S⟩, ?_, ⟨hr', hmem', ?_⟩, rfl, ?_, ?_, hk₁.trans hk', hw₁.trans hw'⟩
      · rw [← hyx] at hstop ⊢
        simp [Heap.coalesceNext, hstop, load_eq (hs.mapped_head hy), hhole, hs.getSize_head hy, hrun,
          load_eq (hs₁.mapped_head hy), hheads y hy, hmodify, hstore, hclear, hcreate]
      · rw [hplace, g.move_place_of_ne (by simp only; omega)]
        exact hout
      · intro w hw hwx j hj
        have hne : w.addr ≠ x.addr := by
          simp only at hwx
          omega
        have hwT : w ∈ g.tiles := (hold w hw).resolve_left hne
        rw [hplace, g.move_place_of_ne (by simp only at hwx; omega)] at hj
        exact hbefore w hwT hwx j hj
      · intro w hw hwx j hj
        simp only [S] at hwx
        have hwT : w ∈ g.tiles := (hold w hw).resolve_left (by omega)
        rw [hplace, g.move_place_of_ne (by omega)] at hj
        exact hr.apart y hy hyE _ hp w hwT (by rw [mem_singleton_iff]; omega) (by omega) j hj
    · refine ⟨h, g, x, ?_, ⟨hr, hx, hout⟩, rfl, hbefore, ?_, Kept.refl, Within.refl⟩
      · rw [← hyx] at hstop ⊢
        simp [Heap.coalesceNext, hstop, load_eq (hs.mapped_head hy), hhole]
      · intro w hw hwx j hj
        obtain rfl := hs.eq_of_addr hw hy (by omega)
        exact hhole ((hr.getHole_head hy hyE).mpr ⟨j, hj⟩)

end Loose

theorem Rest.putHead (hr : Rest h g E) (hx : x ∈ g.tiles) (hE : x.addr ∈ E) (ht : t < 4) :
    Rest (h.put x.addr (t * 2 ^ 62 + x.size)) g E := by
  have hs := hr.shape
  have hne : ∀ y ∈ g.tiles, y ≠ x → y.addr ≠ x.addr := fun y hy hyx heq => hyx (hs.eq_of_addr hy hx heq)
  refine ⟨⟨hs.pos, hs.room, hs.mapped, hs.limit, hs.tiles, hs.aligned, ?_, ?_⟩, ?_, ?_, hr.apart⟩
  · intro y hy
    by_cases hyx : y = x
    · subst hyx
      exact ⟨t, ht, put_mem_self⟩
    · rw [put_mem_of_ne (hne y hy hyx)]
      exact hs.head y hy
  · intro y hy
    rw [put_mem_of_ne (by rcases hs.disjoint hy hx with rfl | hd | hd <;> omega)]
    exact hs.foot y hy
  · have hlink : ∀ a, g.place a ≠ .out → a + 8 ≠ x.addr ∧ a + 16 ≠ x.addr := by
      intro a ha
      obtain ⟨y, hy, rfl⟩ := hr.lists.tile a ha
      rcases hs.disjoint hy hx with rfl | hd | hd <;> omega
    refine hr.lists.congr rfl rfl ?_ ?_ hr.lists.tile
    · intro a ha
      exact put_mem_of_ne (hlink a ha).1
    · intro a ha
      exact put_mem_of_ne (hlink a ha).2
  · intro y hy hyE
    rw [Marked, put_mem_of_ne fun heq : y.addr = x.addr => hyE (heq ▸ hE)]
    exact hr.marks y hy hyE

theorem Kept.putHead {v : Nat} (hs : Shape h g.tiles) (hx : x ∈ g.tiles) (hE : x.addr ∈ E) :
    Kept h g E (h.put x.addr v) g E := by
  refine ⟨rfl, fun _ => Iff.rfl, fun y hy hyE w hlo hhi => put_mem_of_ne ?_⟩
  rintro rfl
  rcases hs.disjoint hy.1 hx with rfl | hd | hd
  · exact hyE hE
  · omega
  · omega

theorem Loose.release (hl : Loose h g x) : ∃ h' g' a, h.release x.addr = some (h', a) ∧ Rest h' g' ∅ ∧
    (∃ y ∈ g'.tiles, y.addr = a) ∧ Kept h g {x.addr} h' g' ∅ ∧ Within h g h' g' := by
  have hs := hl.rest.shape
  obtain ⟨h₁, g₁, x₁, hrun₁, hl₁, hstop₁, hbefore₁, hk₁, hw₁⟩ := hl.coalescePrev
  obtain ⟨h₂, g₂, x₂, hrun₂, hl₂, haddr, hbefore₂, hafter₂, hk₂, hw₂⟩ := hl₁.coalesceNext hbefore₁
  have hs₂ := hl₂.rest.shape
  have hsize := hs₂.size_lt hl₂.mem
  obtain ⟨t, _, hword⟩ := hs₂.head x₂ hl₂.mem
  let h₃ := h₂.put x₂.addr (2 * 2 ^ 62 + x₂.size)
  have hmark : h₂.modify x₂.addr (fun w => setFast (setHole w 1) 0) = some h₃ := by
    rw [modify_eq (hs₂.mapped_head hl₂.mem), hword, setHole_word (by omega), setFast_word (by omega)]
    have : (t % 2 + 1 % 2 * 2) / 2 * 2 + 0 % 2 = 2 := by omega
    rw [this]
  have hr₃ : Rest h₃ g₂ {x₂.addr} := hl₂.rest.putHead hl₂.mem rfl (by omega)
  have hk₃ : Kept h₂ g₂ {x₂.addr} h₃ g₂ {x₂.addr} := Kept.putHead hs₂ hl₂.mem rfl
  have hw₃ : Within h₂ g₂ h₃ g₂ := ⟨rfl, rfl, rfl, fun _ _ => Iff.rfl⟩
  have hsizeAt : getSize (h₃.mem x₂.addr) = x₂.size := hr₃.shape.getSize_head hl₂.mem
  obtain ⟨h₄, hrun₄, hr₄, _, hk₄, hw₄⟩ := hr₃.addNode hl₂.mem hl₂.out put_mem_self (fun y hy _ => hbefore₂ y hy) hafter₂
  rw [sdiff_self] at hr₄ hk₄
  rw [insert_eq_of_mem (mem_singleton _)] at hk₄
  refine ⟨h₄, _, x₁.addr, ?_, hr₄, ⟨x₂, hl₂.mem, haddr⟩, ?_, ?_⟩
  · have hnext : x.addr + 24 + getSize (h.mem x.addr) + 8 = x₁.addr + 32 + x₁.size := by
      rw [hs.getSize_head hl.mem]
      omega
    rw [haddr] at hmark hsizeAt hrun₄
    have hmapped : h₃.Mapped x₁.addr := haddr ▸ hs₂.mapped_head hl₂.mem
    simp [Heap.release, load_eq (hs.mapped_head hl.mem), hrun₁, hnext, hrun₂, hmark, load_eq hmapped, hsizeAt, hrun₄]
  · exact hk₁.trans (hk₂.trans (hk₃.trans hk₄))
  · exact hw₁.trans (hw₂.trans (hw₃.trans hw₄))

theorem Shape.length_lt_nodeLimit {T : List Tile} {l : List Nat} (hs : Shape h T) (hn : l.Nodup)
    (hm : ∀ b ∈ l, ∃ y ∈ T, y.addr = b) : l.length < h.nodeLimit := by
  have hsub : l ⊆ T.map Tile.addr := fun b hb => mem_map.mpr (hm b hb)
  have hle := (Nodup.subperm hn hsub).length_le
  rw [length_map] at hle
  have hT := hs.tiles.length_mul_le (k := 32) fun x _ => by
    simp only [Tile.stop]
    omega
  unfold nodeLimit
  omega

section Consolidate

theorem Rest.popFast (hr : Rest h g ∅) (hne : h.fastbins i ≠ 0) :
    ∃ x ∈ g.tiles, x.addr = h.fastbins i ∧ g.place x.addr = .fast i ∧
      Loose (h.setFastbin i (h.mem (x.addr + 8))) (g.move x.addr .out) x ∧
      Kept h g ∅ (h.setFastbin i (h.mem (x.addr + 8))) (g.move x.addr .out) {x.addr} := by
  have hs := hr.shape
  obtain ⟨l, hd, hn, hm⟩ := hr.lists.fast i
  cases l with
  | nil => exact absurd hd hne
  | cons b l =>
    obtain ⟨hb, _, hd⟩ := hd
    have hp : g.place b = .fast i := (hm b).mp mem_cons_self
    obtain ⟨x, hx, rfl⟩ := hr.lists.tile b (by simp [hp])
    have hn' := nodup_cons.mp hn
    have hmove : ∀ c p, p ≠ .out → ((g.move x.addr .out).place c = p ↔ g.place c = p ∧ c ≠ x.addr) := by
      intro c p hpout
      by_cases hc : c = x.addr
      · subst hc
        simp [hpout.symm]
      · simp [g.move_place_of_ne hc, hc]
    refine ⟨x, hx, hb.symm, hp, ⟨⟨⟨hs.pos, hs.room, hs.mapped, hs.limit, hs.tiles, hs.aligned, hs.head,
      hs.foot⟩, ⟨?_, ?_, ?_⟩, ?_, ?_⟩, hx, g.move_place_self⟩, rfl, ?_, fun _ _ _ _ _ _ => rfl⟩
    · intro j
      obtain ⟨lj, hdj, hnj, hmj⟩ := hr.lists.bin j
      refine ⟨lj, hdj, hnj, fun c => (hmj c).trans ?_⟩
      rw [hmove c _ (by simp)]
      refine ⟨fun hc => ⟨hc, ?_⟩, And.left⟩
      rintro rfl
      simp [hp] at hc
    · intro j
      by_cases hj : j = i
      · subst hj
        refine ⟨l, ?_, hn'.2, fun c => ?_⟩
        · simp only [setFastbin, update_self]
          exact hd
        · rw [hmove c _ (by simp), ← hm c, mem_cons]
          have : c ∈ l → c ≠ x.addr := by
            rintro hc rfl
            exact hn'.1 hc
          tauto
      · obtain ⟨lj, hdj, hnj, hmj⟩ := hr.lists.fast j
        refine ⟨lj, ?_, hnj, fun c => (hmj c).trans ?_⟩
        · simp only [setFastbin, update_of_ne hj]
          exact hdj
        · rw [hmove c _ (by simp)]
          refine ⟨fun hc => ⟨hc, ?_⟩, And.left⟩
          rintro rfl
          rw [hp] at hc
          cases hc
          exact hj rfl
    · intro c hc
      exact hr.lists.tile c (by rw [((hmove c _ hc).mp rfl).1]; exact hc)
    · intro y hy hyx
      rw [Marked, g.move_place_of_ne hyx]
      exact hr.marks y hy (notMem_empty _)
    · intro y hy _ j hj z hz _ hyz k hk
      exact hr.apart y hy (notMem_empty _) j ((hmove _ _ (by simp)).mp hj).1 z hz (notMem_empty _) hyz k
        ((hmove _ _ (by simp)).mp hk).1
    · intro y
      by_cases hyx : y.addr = x.addr
      · simp [Layout.Used, hyx, hp]
      · simp [Layout.Used, hyx, g.move_place_of_ne hyx]

structure Emptied (h : Heap) (g : Layout) (h' : Heap) (g' : Layout) (I : Set Nat) : Prop where
  rest : Rest h' g' ∅
  kept : Kept h g ∅ h' g' ∅
  stop : h'.stop = h.stop
  fast : ∀ a i, g'.place a = .fast i → g.place a = .fast i ∧ i ∉ I

theorem Emptied.trans {I I' : Set Nat} (he : Emptied h g h' g' I) (he' : Emptied h' g' h'' g'' I') :
    Emptied h g h'' g'' (I ∪ I') := by
  refine ⟨he'.rest, he.kept.trans he'.kept, he'.stop.trans he.stop, fun a i hi => ?_⟩
  obtain ⟨hi', hiI'⟩ := he'.fast a i hi
  obtain ⟨hi'', hiI⟩ := he.fast a i hi'
  exact ⟨hi'', fun h => h.elim hiI hiI'⟩

theorem Rest.consolidateBin (hr : Rest h g ∅) {fuel : Nat}
    (hfuel : ∀ l : List Nat, l.Nodup → (∀ a ∈ l, g.place a = .fast i) → l.length < fuel) :
    ∃ h' g', consolidateBin i fuel h = some h' ∧ Emptied h g h' g' {i} := by
  induction fuel generalizing h g with
  | zero => exact absurd (hfuel [] nodup_nil (by simp)) (Nat.not_lt_zero _)
  | succ fuel ih =>
    rw [Heap.consolidateBin]
    by_cases hne : h.fastbins i = 0
    · refine ⟨h, g, if_pos hne, hr, Kept.refl, rfl, fun a j hj => ⟨hj, ?_⟩⟩
      rintro rfl
      obtain ⟨l, hd, _, hm⟩ := hr.lists.fast j
      cases l with
      | nil => exact not_mem_nil ((hm a).mpr hj)
      | cons b l => exact hd.2.1 (hd.1.symm.trans hne)
    · obtain ⟨x, hx, hfirst, hp, hl, hk⟩ := hr.popFast hne
      obtain ⟨h₁, g₁, a, hrun, hr₁, _, hk₁, hw₁⟩ := hl.release
      have hback : ∀ b j, g₁.place b = .fast j → g.place b = .fast j ∧ b ≠ x.addr := by
        intro b j hb
        have hb := (hw₁.fast b j).mp hb
        have hbx : b ≠ x.addr := by
          rintro rfl
          simp at hb
        rw [g.move_place_of_ne hbx] at hb
        exact ⟨hb, hbx⟩
      have hfuel₁ : ∀ l : List Nat, l.Nodup → (∀ a ∈ l, g₁.place a = .fast i) → l.length < fuel := by
        intro l hn hl
        have hcons := hfuel (x.addr :: l) (nodup_cons.mpr ⟨fun hxl => (hback _ _ (hl _ hxl)).2 rfl, hn⟩) (by
            intro b hb
            rcases mem_cons.mp hb with rfl | hb
            · exact hp
            · exact (hback b i (hl b hb)).1)
        rw [length_cons] at hcons
        omega
      obtain ⟨h₂, g₂, hrun₂, he⟩ := ih hr₁ hfuel₁
      refine ⟨h₂, g₂, ?_, he.rest, (hk.trans hk₁).trans he.kept, he.stop.trans hw₁.stop, ?_⟩
      · rw [if_neg hne, ← hfirst]
        simp [load_eq (hr.shape.mapped_next hx), hrun, hrun₂]
      · intro b j hb
        obtain ⟨hb, hj⟩ := he.fast b j hb
        exact ⟨(hback b j hb).1, hj⟩

theorem Rest.mallocConsolidate (hr : Rest h g ∅) : ∃ h' g', h.mallocConsolidate = some h' ∧ Rest h' g' ∅ ∧
    (∀ a i, g'.place a ≠ .fast i) ∧ Kept h g ∅ h' g' ∅ ∧ h'.stop = h.stop := by
  have hbins : ∀ (is : List Nat) {h : Heap} {g : Layout}, Rest h g ∅ → ∃ h' g',
      is.foldlM (fun h i => Heap.consolidateBin i h.nodeLimit h) h = some h' ∧ Emptied h g h' g' {i | i ∈ is} := by
    intro is
    induction is with
    | nil => exact fun {h g} hr => ⟨h, g, rfl, hr, Kept.refl, rfl, fun a i hi => ⟨hi, by simp⟩⟩
    | cons i is ih =>
      intro h g hr
      obtain ⟨h₁, g₁, hrun₁, he₁⟩ := hr.consolidateBin (i := i) fun l hn hl =>
        hr.shape.length_lt_nodeLimit hn fun b hb => hr.lists.tile b (by simp [hl b hb])
      obtain ⟨h₂, g₂, hrun₂, he₂⟩ := ih he₁.rest
      refine ⟨h₂, g₂, by simp [foldlM_cons, hrun₁, hrun₂], ?_⟩
      have hunion : ({j | j ∈ i :: is} : Set Nat) = {i} ∪ {j | j ∈ is} := by
        ext j
        simp
      rw [hunion]
      exact he₁.trans he₂
  obtain ⟨h', g', hrun, he⟩ := hbins (range 9) hr
  refine ⟨h', g', hrun, he.rest, fun a i hp => ?_, he.kept, he.stop⟩
  obtain ⟨x, hx, rfl⟩ := he.rest.lists.tile a (by simp [hp])
  have hfits := (he.rest.marks x hx (notMem_empty _)).2
  rw [hp] at hfits
  obtain ⟨hi, hsize⟩ := hfits
  exact (he.fast _ _ hp).2 (mem_range.mpr (by omega))

end Consolidate

end Heap

end ParepMpi
