import ParepMpi.Heap.Memory
import ParepMpi.Lib.Queue
import ParepMpi.Lib.Tiling
import Mathlib.Data.Nat.Log

/-!
# The nodes of a heap and its lists

What the words of a heap stand for: a list of tiles, one for each node, and for the address of a node whether it is in
a bin, in a fastbin or in no list.
-/

namespace ParepMpi

open LinkedList Tiling Option Function List

section Words

variable {t s v x : Nat}

theorem getSize_word (hs : s < 2 ^ 62) : getSize (t * 2 ^ 62 + s) = s := by
  unfold getSize
  omega

theorem getHole_word (ht : t < 4) (hs : s < 2 ^ 62) : getHole (t * 2 ^ 62 + s) = t / 2 := by
  unfold getHole
  omega

theorem setSize_word (hs : s < 2 ^ 62) (hv : v < 2 ^ 62) : setSize (t * 2 ^ 62 + s) v = t * 2 ^ 62 + v := by
  unfold setSize
  omega

theorem setFast_word (hs : s < 2 ^ 62) : setFast (t * 2 ^ 62 + s) v = (t / 2 * 2 + v % 2) * 2 ^ 62 + s := by
  unfold setFast
  omega

theorem setHole_word (hs : s < 2 ^ 62) : setHole (t * 2 ^ 62 + s) v = (t % 2 + v % 2 * 2) * 2 ^ 62 + s := by
  unfold setHole
  omega

theorem holeWord_size (hv : v < 2 ^ 62) : setSize (setFast (setHole x 1) 0) v = 2 * 2 ^ 62 + v := by
  unfold setSize setFast setHole
  omega

theorem holeWord_marks (hv : v < 2 ^ 62) : setFast (setHole (setSize x v) 1) 0 = 2 * 2 ^ 62 + v := by
  unfold setSize setFast setHole
  omega

theorem add64_of_lt {a b : Nat} (h : a + b < 2 ^ 64) : add64 a b = a + b := Nat.mod_eq_of_lt h

theorem sub64_of_le {a b : Nat} (h : b ≤ a) (ha : a < 2 ^ 64) : sub64 a b = a - b := by
  unfold sub64
  omega

end Words

section BinIndex

theorem binIndexLoop_eq_log (fuel : Nat) {sz : Nat} (hsz : sz < 2 ^ fuel) (index : Nat) :
    binIndexLoop fuel sz index = index + Nat.log 2 sz := by
  induction fuel generalizing sz index with
  | zero =>
    have : sz = 0 := by omega
    rw [binIndexLoop, this, Nat.log_zero_right, add_zero]
  | succ fuel ih =>
    rw [binIndexLoop]
    split
    · have : sz < 2 := by omega
      rw [Nat.log_of_lt this, add_zero]
    · have hlt : sz / 2 < 2 ^ fuel := by
        omega
      have hlog := Nat.log_of_one_lt_of_le (b := 2) (n := sz) (by omega) (by omega)
      rw [ih hlt, hlog]
      omega

theorem getBinIndex_le (sz : Nat) : getBinIndex sz ≤ 8 := Nat.min_le_right _ _

theorem getBinIndex_mono {a b : Nat} (hab : a ≤ b) (hb : b < 2 ^ 64) : getBinIndex a ≤ getBinIndex b := by
  have hle : (if a < 4 then 4 else a) ≤ if b < 4 then 4 else b := by
    split_ifs <;> omega
  have hlt : (if b < 4 then 4 else b) < 2 ^ 64 := by
    split_ifs <;> omega
  unfold getBinIndex
  rw [binIndexLoop_eq_log 64 hlt, binIndexLoop_eq_log 64 (hle.trans_lt hlt)]
  have hlog := Nat.log_mono_right (b := 2) hle
  omega

end BinIndex

structure Tile where
  addr : Nat
  size : Nat
  deriving DecidableEq, Repr

def Tile.stop (x : Tile) : Nat := x.addr + 32 + x.size

inductive Place where
  | bin (i : Nat)
  | fast (i : Nat)
  | out
  deriving DecidableEq, Repr

namespace Place

def tag : Place → Nat
  | bin _ => 2
  | fast _ => 1
  | out => 0

def Fits : Place → Nat → Prop
  | bin i, size => i = getBinIndex size
  | fast i, size => i = size / 8 ∧ size ≤ 64
  | out, _ => True

theorem tag_lt (p : Place) : p.tag < 4 := by
  cases p <;> simp [tag]

theorem tag_div_two {p : Place} : p.tag / 2 = 1 ↔ ∃ i, p = bin i := by
  cases p <;> simp [tag]

end Place

namespace Heap

variable {h h' : Heap} {T T' : List Tile} {place : Nat → Place} {x y : Tile} {a b i w v : Nat}

def next (h : Heap) (a : Nat) : Nat := h.mem (a + 8)

def prev (h : Heap) (a : Nat) : Nat := h.mem (a + 16)

structure Shape (h : Heap) (T : List Tile) : Prop where
  pos : 0 < h.start
  room : h.start + heapSize ≤ h.stop
  mapped : h.stop ≤ h.mapEnd
  limit : h.stop ≤ addressLimit
  tiles : Tiles Tile.addr Tile.stop h.start h.stop T
  aligned : ∀ x ∈ T, 8 ∣ x.addr ∧ 8 ∣ x.size
  head : ∀ x ∈ T, ∃ t < 4, h.mem x.addr = t * 2 ^ 62 + x.size
  foot : ∀ x ∈ T, h.mem (x.addr + 24 + x.size) = x.addr

structure Lists (h : Heap) (T : List Tile) (place : Nat → Place) : Prop where
  bin : ∀ i, ∃ l, DList h.next h.prev 0 (h.bins i) l ∧ l.Nodup ∧ ∀ a, a ∈ l ↔ place a = .bin i
  fast : ∀ i, ∃ l, SList h.next 0 (h.fastbins i) l ∧ l.Nodup ∧ ∀ a, a ∈ l ↔ place a = .fast i
  tile : ∀ a, place a ≠ .out → ∃ x ∈ T, x.addr = a

section Put

@[simp] theorem put_start : (h.put a v).start = h.start := rfl
@[simp] theorem put_stop : (h.put a v).stop = h.stop := rfl
@[simp] theorem put_mapEnd : (h.put a v).mapEnd = h.mapEnd := rfl
@[simp] theorem put_bins : (h.put a v).bins = h.bins := rfl
@[simp] theorem put_fastbins : (h.put a v).fastbins = h.fastbins := rfl
@[simp] theorem put_mem_self : (h.put a v).mem a = v := update_self ..

theorem put_mem_of_ne (hb : b ≠ a) : (h.put a v).mem b = h.mem b := update_of_ne hb ..

@[simp] theorem put_mapped : (h.put a v).Mapped b ↔ h.Mapped b := Iff.rfl
@[simp] theorem setBin_mapped : (h.setBin i v).Mapped b ↔ h.Mapped b := Iff.rfl
@[simp] theorem setBin_mem : (h.setBin i v).mem = h.mem := rfl
@[simp] theorem setFastbin_mem : (h.setFastbin i v).mem = h.mem := rfl
@[simp] theorem setBin_bins_self : (h.setBin i v).bins i = v := update_self ..

variable {f : Nat → Nat} (ha : h.Mapped a)

include ha

theorem load_eq : h.load a = some (h.mem a) := if_pos ha

theorem store_eq : h.store a v = some (h.put a v) := if_pos ha

theorem modify_eq : h.modify a f = some (h.put a (f (h.mem a))) := by
  simp [modify, load_eq ha, store_eq ha]

theorem createFoot_word {t s : Nat} (hw : h.mem a = t * 2 ^ 62 + s) (hs : s < 2 ^ 62)
    (hf : h.Mapped (a + 24 + s)) : h.createFoot a = some (h.put (a + 24 + s) a) := by
  rw [createFoot, load_eq ha, hw, bind_eq_bind, bind_some, getSize_word hs, store_eq hf]

end Put

namespace Shape

variable (hs : Shape h T)

include hs

variable (hx : x ∈ T)

include hx

theorem bounds : h.start ≤ x.addr ∧ x.addr + 32 + x.size ≤ h.stop := by
  have hb := hs.tiles.bounds hx
  exact ⟨hb.1, hb.2.2⟩

theorem disjoint (hy : y ∈ T) :
    x = y ∨ x.addr + 32 + x.size ≤ y.addr ∨ y.addr + 32 + y.size ≤ x.addr := hs.tiles.disjoint hx hy

theorem eq_of_addr (hy : y ∈ T) (hxy : x.addr = y.addr) : x = y := hs.tiles.eq_of_lo hx hy hxy

theorem addr_pos : 0 < x.addr := by
  have := hs.bounds hx
  have := hs.pos
  omega

theorem size_lt : x.size < 2 ^ 47 := by
  have hb := hs.bounds hx
  have hl := hs.limit
  unfold addressLimit at hl
  omega

theorem mapped_word (hw : 8 ∣ w) (hlo : x.addr ≤ w) (hhi : w + 8 ≤ x.addr + 32 + x.size) : h.Mapped w := by
  have := hs.bounds hx
  have := hs.mapped
  exact ⟨hw, by omega, by omega⟩

theorem mapped_head : h.Mapped x.addr := hs.mapped_word hx (hs.aligned x hx).1 le_rfl (by omega)

theorem mapped_next : h.Mapped (x.addr + 8) := by
  have := (hs.aligned x hx).1
  exact hs.mapped_word hx (by omega) (by omega) (by omega)

theorem mapped_prev : h.Mapped (x.addr + 16) := by
  have := (hs.aligned x hx).1
  exact hs.mapped_word hx (by omega) (by omega) (by omega)

theorem mapped_foot : h.Mapped (x.addr + 24 + x.size) := by
  have := hs.aligned x hx
  exact hs.mapped_word hx (by omega) (by omega) (by omega)

theorem getSize_head : getSize (h.mem x.addr) = x.size := by
  obtain ⟨t, _, ht⟩ := hs.head x hx
  have := hs.size_lt hx
  rw [ht, getSize_word (by omega)]

end Shape

/-- Two heaps that differ in the head of one bin and in the links of certain nodes. -/
structure Relinked (h h' : Heap) (i : Nat) (S : Nat → Prop) : Prop where
  start : h'.start = h.start
  stop : h'.stop = h.stop
  mapEnd : h'.mapEnd = h.mapEnd
  fastbins : h'.fastbins = h.fastbins
  extHeapSize : h'.extHeapSize = h.extHeapSize
  bins : ∀ j, j ≠ i → h'.bins j = h.bins j
  mem : ∀ w, (∀ a, S a → w ≠ a + 8 ∧ w ≠ a + 16) → h'.mem w = h.mem w

namespace Relinked

variable {S : Nat → Prop} (hr : Relinked h h' i S) (hs : Shape h T) (hS : ∀ a, S a → ∃ x ∈ T, x.addr = a)

include hr hs hS

theorem mem_of_not (hy : y ∈ T) (hyS : ¬ S y.addr) (hlo : y.addr ≤ w) (hhi : w < y.addr + 32 + y.size) :
    h'.mem w = h.mem w := by
  apply hr.mem
  intro a ha
  obtain ⟨x, hx, rfl⟩ := hS a ha
  rcases hs.disjoint hx hy with rfl | hd | hd
  · exact absurd ha hyS
  · omega
  · omega

theorem mem_head (hy : y ∈ T) : h'.mem y.addr = h.mem y.addr := by
  apply hr.mem
  intro a ha
  obtain ⟨x, hx, rfl⟩ := hS a ha
  rcases hs.disjoint hx hy with rfl | hd | hd <;> omega

theorem mem_foot (hy : y ∈ T) : h'.mem (y.addr + 24 + y.size) = h.mem (y.addr + 24 + y.size) := by
  apply hr.mem
  intro a ha
  obtain ⟨x, hx, rfl⟩ := hS a ha
  rcases hs.disjoint hx hy with rfl | hd | hd <;> omega

theorem shape : Shape h' T where
  pos := by rw [hr.start]; exact hs.pos
  room := by rw [hr.start, hr.stop]; exact hs.room
  mapped := by rw [hr.mapEnd, hr.stop]; exact hs.mapped
  limit := by rw [hr.stop]; exact hs.limit
  tiles := by rw [hr.start, hr.stop]; exact hs.tiles
  aligned := hs.aligned
  head x hx := by rw [hr.mem_head hs hS hx]; exact hs.head x hx
  foot x hx := by rw [hr.mem_foot hs hS hx]; exact hs.foot x hx

end Relinked

namespace Lists

variable (hl : Lists h T place)

include hl

theorem mem_tiles (ha : place a = .bin i) : ∃ x ∈ T, x.addr = a := hl.tile a (by simp [ha])

theorem congr (hbins : h'.bins = h.bins) (hfast : h'.fastbins = h.fastbins)
    (hnext : ∀ a, place a ≠ .out → h'.next a = h.next a) (hprev : ∀ a, place a ≠ .out → h'.prev a = h.prev a)
    (htile : ∀ a, place a ≠ .out → ∃ x ∈ T', x.addr = a) : Lists h' T' place where
  bin i := by
    obtain ⟨l, hd, hn, hm⟩ := hl.bin i
    have hout : ∀ a ∈ l, place a ≠ .out := fun a ha => by simp [(hm a).mp ha]
    rw [hbins]
    exact ⟨l, hd.congr (fun a ha => hnext a (hout a ha)) (fun a ha => hprev a (hout a ha)), hn, hm⟩
  fast i := by
    obtain ⟨l, hd, hn, hm⟩ := hl.fast i
    have hout : ∀ a ∈ l, place a ≠ .out := fun a ha => by simp [(hm a).mp ha]
    rw [hfast]
    exact ⟨l, hd.congr fun a ha => hnext a (hout a ha), hn, hm⟩
  tile := htile

theorem relinked {S : Nat → Prop} (hs : Shape h T) (hr : Relinked h h' i S) {place' : Nat → Place}
    (hS : ∀ a, S a → ∃ x ∈ T, x.addr = a)
    (hother : ∀ a p, p ≠ .bin i → p ≠ .out → (place' a = p ↔ place a = p))
    (hSout : ∀ a, place a ≠ .out → place a ≠ .bin i → ¬ S a)
    (htile : ∀ a, place' a = .bin i → ∃ x ∈ T, x.addr = a)
    (hbin : ∃ l, DList h'.next h'.prev 0 (h'.bins i) l ∧ l.Nodup ∧ ∀ a, a ∈ l ↔ place' a = .bin i) :
    Lists h' T place' where
  bin j := by
    by_cases hj : j = i
    · subst hj
      exact hbin
    · obtain ⟨l, hd, hn, hm⟩ := hl.bin j
      rw [hr.bins j hj]
      refine ⟨l, hd.congr ?_ ?_, hn, fun a => (hm a).trans (hother a _ (by simp [hj]) (by simp)).symm⟩
      · intro a ha
        have hp := (hm a).mp ha
        obtain ⟨x, hx, rfl⟩ := hl.mem_tiles hp
        exact hr.mem_of_not hs hS hx (hSout _ (by simp [hp]) (by simp [hp, hj])) (by omega) (by omega)
      · intro a ha
        have hp := (hm a).mp ha
        obtain ⟨x, hx, rfl⟩ := hl.mem_tiles hp
        exact hr.mem_of_not hs hS hx (hSout _ (by simp [hp]) (by simp [hp, hj])) (by omega) (by omega)
  fast j := by
    obtain ⟨l, hd, hn, hm⟩ := hl.fast j
    rw [hr.fastbins]
    refine ⟨l, hd.congr ?_, hn, fun a => (hm a).trans (hother a _ (by simp) (by simp)).symm⟩
    intro a ha
    have hp := (hm a).mp ha
    obtain ⟨x, hx, rfl⟩ := hl.tile a (by simp [hp])
    exact hr.mem_of_not hs hS hx (hSout _ (by simp [hp]) (by simp [hp])) (by omega) (by omega)
  tile a ha := by
    by_cases hp : place' a = .bin i
    · exact htile a hp
    · exact hl.tile a (by rw [(hother a (place' a) hp ha).mp rfl]; exact ha)

theorem removed {l : List Nat} (hs : Shape h T) (hr : Relinked h h' i (place · = .bin i))
    (ha : place a = .bin i) (hn : l.Nodup) (hm : ∀ b, b ∈ l ↔ place b = .bin i)
    (hd : DList h'.next h'.prev 0 (h'.bins i) (l.erase a)) : Lists h' T (update place a .out) := by
  have hbin : ∀ b, update place a .out b = .bin i ↔ b ≠ a ∧ place b = .bin i := by
    intro b
    by_cases hb : b = a
    · simp [hb]
    · simp [hb]
  refine hl.relinked hs hr (fun b => hl.mem_tiles) ?_ (fun b _ hb => hb) ?_ ⟨_, hd, hn.erase a, ?_⟩
  · intro b p hp hout
    by_cases hb : b = a
    · subst hb
      simp only [update_self, ha]
      exact ⟨fun h => absurd h.symm hout, fun h => absurd h.symm hp⟩
    · rw [update_of_ne hb]
  · intro b hb
    exact hl.mem_tiles ((hbin b).mp hb).2
  · intro b
    rw [hn.mem_erase_iff, hm, hbin]

end Lists

theorem Shape.next_ne_prev (hs : Shape h T) (hx : x ∈ T) (hy : y ∈ T) : x.addr + 8 ≠ y.addr + 16 := by
  rcases hs.disjoint hx hy with rfl | hd | hd <;> omega

section BinList

variable {l : List Nat} (hs : Shape h T) (hl : Lists h T place) (hm : ∀ b, b ∈ l ↔ place b = .bin i)

include hs hl hm

theorem bin_mapped_next (hb : b ∈ l) : h.Mapped (b + 8) := by
  obtain ⟨x, hx, rfl⟩ := hl.mem_tiles ((hm b).mp hb)
  exact hs.mapped_next hx

theorem bin_mapped_prev (hb : b ∈ l) : h.Mapped (b + 16) := by
  obtain ⟨x, hx, rfl⟩ := hl.mem_tiles ((hm b).mp hb)
  exact hs.mapped_prev hx

theorem bin_next_ne_prev {c : Nat} (hb : b ∈ l) (hc : c ∈ l) : b + 8 ≠ c + 16 := by
  obtain ⟨x, hx, rfl⟩ := hl.mem_tiles ((hm b).mp hb)
  obtain ⟨y, hy, rfl⟩ := hl.mem_tiles ((hm c).mp hc)
  exact hs.next_ne_prev hx hy

end BinList

section Remove

/-- The heap once `a` is out of its bin: what stands before it takes over the link to what stands after it. -/
def unlinked (h : Heap) (i a : Nat) : Heap :=
  let h₁ := if h.prev a ≠ 0 then h.put (h.prev a + 8) (h.next a) else h.setBin i (h.next a)
  if h.next a ≠ 0 then h₁.put (h.next a + 16) (h.prev a) else h₁

theorem unlinked_frame : h.unlinked i a = { h with mem := (h.unlinked i a).mem, bins := (h.unlinked i a).bins } := by
  unfold unlinked
  split_ifs <;> rfl

theorem unlinked_mem : (h.unlinked i a).mem w = if h.next a ≠ 0 ∧ w = h.next a + 16 then h.prev a
    else if h.prev a ≠ 0 ∧ w = h.prev a + 8 then h.next a else h.mem w := by
  unfold unlinked
  by_cases hp : h.prev a = 0 <;> by_cases hx : h.next a = 0 <;> simp [hp, hx, put, setBin, update_apply]

variable {l : List Nat} (hs : Shape h T) (hl : Lists h T place) (hm : ∀ b, b ∈ l ↔ place b = .bin i)
  (hd : DList h.next h.prev 0 (h.bins i) l) (hn : l.Nodup) (ha : a ∈ l)

include hm hd hn ha

theorem unlinked_relinked : Relinked h (h.unlinked i a) i (place · = .bin i) := by
  obtain ⟨-, -, hprev, hnext⟩ := hd.links hn ha
  have hbins : ∀ j, j ≠ i → (h.unlinked i a).bins j = h.bins j := by
    intro j hj
    unfold unlinked
    split_ifs <;> simp [setBin, hj]
  refine ⟨by rw [unlinked_frame], by rw [unlinked_frame], by rw [unlinked_frame], by rw [unlinked_frame],
    by rw [unlinked_frame], hbins, ?_⟩
  intro w hw
  rw [unlinked_mem, if_neg fun h => (hw _ ((hm _).mp (hnext h.1))).2 h.2,
    if_neg fun h => (hw _ ((hm _).mp (hprev h.1))).1 h.2]

include hs hl

theorem removeNode_eq : h.removeNode i a = some (h.unlinked i a) := by
  obtain ⟨hbins, hfirst, hprev, hnext⟩ := hd.links hn ha
  have hloadn : h.load (a + 8) = some (h.next a) := load_eq (bin_mapped_next hs hl hm ha)
  have hloadp : h.load (a + 16) = some (h.prev a) := load_eq (bin_mapped_prev hs hl hm ha)
  unfold removeNode unlinked
  rw [if_neg hbins]
  by_cases hp : h.prev a = 0
  · have hhead : h.bins i = a := by simpa [hp] using hfirst
    by_cases hx : h.next a = 0
    · simp [hhead, hloadn, hp, hx]
    · have hstore : (h.setBin i (h.next a)).store (h.next a + 16) 0 = some _ :=
        store_eq (setBin_mapped.mpr (bin_mapped_prev hs hl hm (hnext hx)))
      simp [hhead, hloadn, hp, hx, hstore]
  · have hstore : h.store (h.prev a + 8) (h.next a) = some _ := store_eq (bin_mapped_next hs hl hm (hprev hp))
    by_cases hx : h.next a = 0
    · rw [hx] at hstore
      simp [hfirst.mp hp, hloadn, hloadp, hp, hx, hstore]
    · have hstore' : (h.put (h.prev a + 8) (h.next a)).store (h.next a + 16) (h.prev a) = some _ :=
        store_eq (put_mapped.mpr (bin_mapped_prev hs hl hm (hnext hx)))
      simp [hfirst.mp hp, hloadn, hloadp, hp, hx, hstore, hstore']

theorem unlinked_links : DList (h.unlinked i a).next (h.unlinked i a).prev 0 ((h.unlinked i a).bins i) (l.erase a) := by
  obtain ⟨-, -, hprev, hnext⟩ := hd.links hn ha
  have hbins : (h.unlinked i a).bins i = if h.prev a ≠ 0 then h.bins i else h.next a := by
    unfold unlinked
    split_ifs <;> simp
  rw [hbins]
  apply hd.erase hn ha
  · intro b hb
    have hb0 := hd.ne_null b hb
    rw [next, unlinked_mem, if_neg fun h => bin_next_ne_prev hs hl hm hb (hnext h.1) h.2]
    exact if_congr ⟨fun h => by omega, fun h => ⟨by omega, by omega⟩⟩ rfl rfl
  · intro b hb
    have hb0 := hd.ne_null b hb
    have hnot : ¬ (h.prev a ≠ 0 ∧ b + 16 = h.prev a + 8) := fun h =>
      bin_next_ne_prev hs hl hm (hprev h.1) hb h.2.symm
    rw [prev, unlinked_mem, if_neg hnot]
    exact if_congr ⟨fun h => by omega, fun h => ⟨by omega, by omega⟩⟩ rfl rfl

omit hm hd hn ha in
theorem removeNode_spec (ha : place a = .bin i) :
    ∃ h', h.removeNode i a = some h' ∧ Relinked h h' i (place · = .bin i) ∧ Lists h' T (update place a .out) := by
  obtain ⟨l, hd, hn, hm⟩ := hl.bin i
  have hal := (hm a).mpr ha
  have hr := unlinked_relinked hm hd hn hal
  exact ⟨_, removeNode_eq hs hl hm hd hn hal, hr,
    hl.removed hs hr ha hn hm (unlinked_links hs hl hm hd hn hal)⟩

end Remove

namespace Lists

theorem added {l : List Nat} (hl : Lists h T place) (hs : Shape h T) (hx : x ∈ T) (hout : place x.addr = .out)
    (hr : Relinked h h' i fun a => place a = .bin i ∨ a = x.addr) (hn : l.Nodup)
    (hd : DList h'.next h'.prev 0 (h'.bins i) (x.addr :: l)) (hm : ∀ b, b ∈ l ↔ place b = .bin i) :
    Lists h' T (update place x.addr (.bin i)) := by
  have hS : ∀ a, place a = .bin i ∨ a = x.addr → ∃ y ∈ T, y.addr = a := by
    rintro a (ha | rfl)
    · exact hl.mem_tiles ha
    · exact ⟨x, hx, rfl⟩
  have hbin : ∀ b, update place x.addr (.bin i) b = .bin i ↔ b = x.addr ∨ place b = .bin i := by
    intro b
    by_cases hb : b = x.addr
    · simp [hb]
    · simp [hb]
  refine hl.relinked hs hr hS ?_ ?_ (fun a ha => hS a ((hbin a).mp ha).symm) ⟨_, hd, ?_, fun b => ?_⟩
  · intro b p hp hpout
    by_cases hb : b = x.addr
    · subst hb
      rw [update_self, hout]
      exact ⟨fun h => absurd h.symm hp, fun h => absurd h.symm hpout⟩
    · rw [update_of_ne hb]
  · rintro b hbout hbin (hb | rfl)
    · exact hbin hb
    · exact hbout hout
  · refine nodup_cons.mpr ⟨fun hmem => ?_, hn⟩
    rw [hm, hout] at hmem
    cases hmem
  · rw [hbin, mem_cons, hm]

end Lists

section Add

/-- The heap once `a` is the first node of its bin. -/
def linked (h : Heap) (i a : Nat) : Heap :=
  let h₁ := (h.put (a + 8) 0).put (a + 16) 0
  (if h.bins i = 0 then h₁ else (h₁.put (a + 8) (h.bins i)).put (h.bins i + 16) a).setBin i a

theorem linked_mem : (h.linked i a).mem w = if h.bins i ≠ 0 ∧ w = h.bins i + 16 then a
    else if w = a + 8 then h.bins i else if w = a + 16 then 0 else h.mem w := by
  unfold linked
  by_cases hb : h.bins i = 0 <;> by_cases hw : w = a + 8 <;> simp [hb, hw, put, setBin, update_apply]

theorem addNode_eq_some_iff : h.addNode i a = some h' ↔
    h.Mapped (a + 8) ∧ h.Mapped (a + 16) ∧ (h.bins i ≠ 0 → h.Mapped (h.bins i + 16)) ∧ h' = h.linked i a := by
  unfold linked
  by_cases hn : h.Mapped (a + 8)
  · by_cases hp : h.Mapped (a + 16)
    · by_cases hz : h.bins i = 0
      · simp [addNode, store_eq hn, store_eq (h := h.put (a + 8) 0) hp, hz, hn, hp, eq_comm]
      · by_cases hb : h.Mapped (h.bins i + 16)
        · have hn' := store_eq (h := (h.put (a + 8) 0).put (a + 16) 0) (v := h.bins i) hn
          have hb' := store_eq (h := ((h.put (a + 8) 0).put (a + 16) 0).put (a + 8) (h.bins i)) (v := a) hb
          simp only [addNode, store_eq hn, store_eq (h := h.put (a + 8) 0) hp, put_bins, hz, hn, hp, hn', hb', hb,
            bind_eq_bind, bind_some, if_false, some_inj, true_and, implies_true]
          exact eq_comm
        · have hn' := store_eq (h := (h.put (a + 8) 0).put (a + 16) 0) (v := h.bins i) hn
          have hb' : (((h.put (a + 8) 0).put (a + 16) 0).put (a + 8) (h.bins i)).store (h.bins i + 16) a = none :=
            if_neg hb
          simp [addNode, store_eq hn, store_eq (h := h.put (a + 8) 0) hp, hz, hn', hb', hb]
    · have hp' : (h.put (a + 8) 0).store (a + 16) 0 = none := if_neg hp
      simp [addNode, store_eq hn, hp', hp]
  · simp [addNode, show h.store (a + 8) 0 = none from if_neg hn, hn]

theorem addNode_spec (hs : Shape h T) (hl : Lists h T place) (hx : x ∈ T) (hout : place x.addr = .out) :
    ∃ h', h.addNode i x.addr = some h' ∧ Relinked h h' i (fun a => place a = .bin i ∨ a = x.addr) ∧
      Lists h' T (update place x.addr (.bin i)) := by
  obtain ⟨l, hd, hn, hm⟩ := hl.bin i
  have hhead : h.bins i ≠ 0 → h.bins i ∈ l := hd.head_mem
  have hxl : ∀ b ∈ l, b ≠ x.addr ∧ x.addr + 8 ≠ b + 16 ∧ x.addr + 16 ≠ b + 8 := by
    intro b hb
    obtain ⟨y, hy, rfl⟩ := hl.mem_tiles ((hm b).mp hb)
    refine ⟨?_, hs.next_ne_prev hx hy, (hs.next_ne_prev hy hx).symm⟩
    intro heq
    rw [hm, heq, hout] at hb
    cases hb
  have hr : Relinked h (h.linked i x.addr) i fun a => place a = .bin i ∨ a = x.addr := by
    have hframe : h.linked i x.addr =
        { h with mem := (h.linked i x.addr).mem, bins := (h.linked i x.addr).bins } := by
      unfold linked
      split_ifs <;> rfl
    refine ⟨by rw [hframe], by rw [hframe], by rw [hframe], by rw [hframe], by rw [hframe], ?_, ?_⟩
    · intro j hj
      unfold linked
      split_ifs <;> simp [setBin, hj]
    · intro w hw
      have hwx := hw x.addr (.inr rfl)
      rw [linked_mem, if_neg fun h => (hw _ (.inl ((hm _).mp (hhead h.1)))).2 h.2, if_neg hwx.1, if_neg hwx.2]
  refine ⟨_, addNode_eq_some_iff.mpr ⟨hs.mapped_next hx, hs.mapped_prev hx,
    fun hb => bin_mapped_prev hs hl hm (hhead hb), rfl⟩, hr, hl.added hs hx hout hr hn ?_ hm⟩
  rw [show (h.linked i x.addr).bins i = x.addr from setBin_bins_self]
  apply hd.push hn (hs.addr_pos hx).ne'
  · rw [next, linked_mem, if_neg fun h => (hxl _ (hhead h.1)).2.1 h.2, if_pos rfl]
  · rw [prev, linked_mem, if_neg fun h => (hxl _ (hhead h.1)).1 (by omega), if_neg (by omega), if_pos rfl]
  · intro b hb
    have hbx := hxl b hb
    rw [next, linked_mem, if_neg fun h => bin_next_ne_prev hs hl hm hb (hhead h.1) h.2, if_neg (by omega),
      if_neg hbx.2.2.symm]
    rfl
  · intro b hb
    have hb0 := hd.ne_null b hb
    have hbx := hxl b hb
    rw [prev, linked_mem, if_neg hbx.2.1.symm, if_neg (by omega : ¬ b + 16 = x.addr + 16)]
    exact if_congr ⟨fun h => by omega, fun h => ⟨by omega, by omega⟩⟩ rfl rfl

end Add

end Heap

end ParepMpi
