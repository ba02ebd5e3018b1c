import ParepMpi.Heap.Release

/-!
# Looking for a node

`get_best_fit` takes the first node of a bin that is large enough, the loop of `parep_mpi_malloc` tries the bin of the
size and all above it, then consolidates, then expands the heap until a node fits.
-/

namespace ParepMpi

open LinkedList Tiling List Option Set Heap

def Layout.Gap (g : Layout) (a b : Nat) : Prop := ∀ x, g.Used x → x.addr + 32 + x.size ≤ a ∨ b ≤ x.addr

namespace Heap

variable {h h' : Heap} {g g' : Layout} {E : Set Nat} {x : Tile} {a b i size sz : Nat} {mremap : Nat → Bool}

theorem Kept.gap (hk : Kept h g ∅ h' g' ∅) : g.Gap a b ↔ g'.Gap a b := by
  have hused : ∀ x, g.Used x ↔ g'.Used x := by
    intro x
    have := hk.used x
    simpa using this
  simp only [Layout.Gap, hused]

section BestFit

theorem bestFit_walk {T : List Tile} {l : List Nat} {fuel temp : Nat} (size : Nat) (hs : Shape h T)
    (hl : SList h.next 0 temp l) (htile : ∀ a ∈ l, ∃ x ∈ T, x.addr = a) (hfuel : l.length < fuel) :
    ∃ found, h.bestFit size fuel temp = some found ∧ ((found = 0 ∧ ∀ x ∈ T, x.addr ∈ l → x.size < size) ∨
        ∃ x ∈ T, x.addr ∈ l ∧ x.addr = found ∧ size ≤ x.size) := by
  induction l generalizing fuel temp with
  | nil =>
    obtain ⟨fuel, rfl⟩ := Nat.exists_eq_succ_of_ne_zero (Nat.ne_zero_of_lt hfuel)
    exact ⟨0, if_pos hl, .inl ⟨rfl, fun x _ hx => absurd hx not_mem_nil⟩⟩
  | cons a l ih =>
    obtain ⟨fuel, rfl⟩ := Nat.exists_eq_succ_of_ne_zero (Nat.ne_zero_of_lt hfuel)
    obtain ⟨rfl, hne, hl⟩ := hl
    obtain ⟨y, hy, rfl⟩ := htile temp mem_cons_self
    by_cases hfit : size ≤ y.size
    · refine ⟨y.addr, ?_, .inr ⟨y, hy, mem_cons_self, rfl, hfit⟩⟩
      simp [bestFit, hne, load_eq (hs.mapped_head hy), hs.getSize_head hy, hfit]
    · obtain ⟨found, hrun, hfound⟩ := ih hl (fun b hb => htile b (mem_cons_of_mem _ hb)) (Nat.lt_of_succ_lt_succ hfuel)
      refine ⟨found, ?_, ?_⟩
      · simp only [next] at hrun
        simp [bestFit, hne, load_eq (hs.mapped_head hy), hs.getSize_head hy, hfit, load_eq (hs.mapped_next hy), hrun]
      · rcases hfound with ⟨hzero, hsmall⟩ | ⟨z, hz, hzl, hzf, hzs⟩
        · refine .inl ⟨hzero, fun z hz hzl => ?_⟩
          rcases mem_cons.mp hzl with hzy | hzl
          · obtain rfl := hs.eq_of_addr hz hy hzy
            omega
          · exact hsmall z hz hzl
        · exact .inr ⟨z, hz, mem_cons_of_mem _ hzl, hzf, hzs⟩

def Fitted (g : Layout) (i size found : Nat) : Prop :=
  (found = 0 ∧ ∀ x ∈ g.tiles, g.place x.addr = .bin i → x.size < size) ∨
    ∃ x ∈ g.tiles, x.addr = found ∧ g.place x.addr = .bin i ∧ size ≤ x.size

theorem Rest.getBestFit (hr : Rest h g E) (i size : Nat) :
    ∃ found, h.getBestFit i size = some found ∧ Fitted g i size found := by
  obtain ⟨l, hd, hn, hm⟩ := hr.lists.bin i
  have htile : ∀ a ∈ l, ∃ x ∈ g.tiles, x.addr = a := fun a ha => hr.lists.mem_tiles ((hm a).mp ha)
  obtain ⟨found, hrun, hfound⟩ := bestFit_walk size hr.shape hd.slist htile (hr.shape.length_lt_nodeLimit hn htile)
  refine ⟨found, hrun, ?_⟩
  rcases hfound with ⟨hzero, hsmall⟩ | ⟨x, hx, hxl, hxf, hxs⟩
  · exact .inl ⟨hzero, fun x hx hp => hsmall x hx ((hm _).mpr hp)⟩
  · exact .inr ⟨x, hx, hxf, (hm _).mp hxl, hxs⟩

end BestFit

section Expand

theorem addNode_of_setEnd (hrun : (h.setEnd b).addNode i a = some h') :
    ∃ h₁, h.addNode i a = some h₁ ∧ h₁.stop = h.stop ∧ h₁.setEnd b = h' := by
  obtain ⟨hn, hp, hb, rfl⟩ := addNode_eq_some_iff.mp hrun
  refine ⟨_, addNode_eq_some_iff.mpr ⟨hn, hp, hb, rfl⟩, ?_⟩
  have hbins : (h.setEnd b).bins = h.bins := rfl
  unfold linked
  rw [hbins]
  split_ifs <;> exact ⟨rfl, rfl⟩

theorem Rest.setMapEnd (hr : Rest h g E) (hm : h.stop ≤ b) : Rest { h with mapEnd := b } g E := by
  obtain ⟨hs, hl, hmarks, hapart⟩ := hr
  exact ⟨⟨hs.pos, hs.room, hm, hs.limit, hs.tiles, hs.aligned, hs.head, hs.foot⟩,
    { hl with }, hmarks, hapart⟩

theorem Rest.grow {S t : Nat} (hr : Rest h g {x.addr}) (hx : x ∈ g.tiles) (hlast : x.addr + 32 + x.size = h.stop)
    (hout : g.place x.addr = .out) (hS : x.size ≤ S) (h8 : 8 ∣ S) (ht : t < 4)
    (hmap : x.addr + 32 + S ≤ h.mapEnd) (hlimit : x.addr + 32 + S ≤ addressLimit) {v : Nat} (hv : v = x.addr + 24 + S)
    (hend : b = x.addr + 32 + S) :
    ∃ g', Rest (((h.put x.addr (t * 2 ^ 62 + S)).put v x.addr).setEnd b) g' {x.addr} ∧ ⟨x.addr, S⟩ ∈ g'.tiles ∧
      g'.place = g.place ∧ (∀ w ∈ g'.tiles, w.addr = x.addr ∨ w ∈ g.tiles) ∧
      Kept h g {x.addr} (((h.put x.addr (t * 2 ^ 62 + S)).put v x.addr).setEnd b) g' {x.addr} := by
  subst hv hend
  have hs := hr.shape
  obtain ⟨T, htiles, hT⟩ := hs.tiles.grow hx hlast (y := ⟨x.addr, S⟩) rfl (by simp only [Tile.stop]; omega)
  have hne : ∀ w ∈ g.tiles, w.addr ∉ ({x.addr} : Set Nat) ↔ w ≠ x := by
    intro w hw
    exact not_congr ⟨hs.eq_of_addr hw hx, congrArg _⟩
  obtain ⟨hr', hk'⟩ := hr.retile
    (((h.put x.addr (t * 2 ^ 62 + S)).put (x.addr + 24 + S) x.addr).setEnd (x.addr + 32 + S))
    T {x.addr} x.addr (x.addr + 32 + S)
    ⟨rfl, rfl, rfl⟩ ⟨by simp only [setEnd]; omega, hmap, hlimit⟩ htiles
    (by
      intro w
      rw [hT]
      constructor
      · rintro ⟨rfl | ⟨hw, hwx⟩, hwN⟩
        · exact absurd rfl hwN
        · exact ⟨hw, hwN⟩
      · rintro ⟨hw, hwE⟩
        exact ⟨.inr ⟨hw, (hne w hw).mp hwE⟩, hwE⟩)
    (by
      intro w hw hwE
      have hb := hs.bounds hw
      rcases hs.disjoint hw hx with rfl | hd | hd
      · exact absurd rfl hwE
      · exact .inl hd
      · omega)
    (by
      intro w hw
      show mem (put _ _ _) w = _
      rw [put_mem_of_ne (by omega), put_mem_of_ne (by omega)])
    (by
      intro w hw hwN
      rcases (hT w).mp hw with rfl | ⟨hw, hwx⟩
      · refine ⟨⟨(hs.aligned x hx).1, h8⟩, ⟨t, ht, ?_⟩, ?_⟩
        · show mem (put _ _ _) x.addr = _
          rw [put_mem_of_ne (by omega)]
          exact put_mem_self
        · exact put_mem_self
      · exact absurd (hs.eq_of_addr hw hx hwN) hwx)
    (fun a ha => absurd (ha ▸ hout))
  refine ⟨_, hr', (hT _).mpr (.inl rfl), rfl, fun w hw => ?_, hk'⟩
  rcases (hT w).mp hw with rfl | ⟨hw, _⟩
  · exact .inl rfl
  · exact .inr hw

theorem Rest.append {S t : Nat} (hr : Rest h g ∅) (h8 : 8 ∣ S) (ht : t < 4)
    (hmap : h.stop + 32 + S ≤ h.mapEnd) (hlimit : h.stop + 32 + S ≤ addressLimit) :
    ∃ g', Rest (((h.put h.stop (t * 2 ^ 62 + S)).put (h.stop + 24 + S) h.stop).setEnd (h.stop + 32 + S)) g' {h.stop} ∧
      Tile.mk h.stop S ∈ g'.tiles ∧ g'.place = g.place ∧ g.place h.stop = .out ∧
      (∀ w ∈ g'.tiles, w.addr = h.stop ∨ w ∈ g.tiles) ∧
      Kept h g ∅ (((h.put h.stop (t * 2 ^ 62 + S)).put (h.stop + 24 + S) h.stop).setEnd (h.stop + 32 + S))
        g' {h.stop} := by
  have hs := hr.shape
  have hroom := hs.room
  unfold heapSize at hroom
  obtain ⟨x, hx, hlast⟩ := hs.tiles.last (by omega)
  change x.addr + 32 + x.size = h.stop at hlast
  have hax := hs.aligned x hx
  have hout : g.place h.stop = .out := by
    by_contra hne
    obtain ⟨y, hy, hya⟩ := hr.lists.tile _ hne
    have := hs.bounds hy
    omega
  have hT : ∀ w, w ∈ g.tiles ++ [Tile.mk h.stop S] ↔ w ∈ g.tiles ∨ w = Tile.mk h.stop S := by simp
  have htiles := hs.tiles.snoc (x := Tile.mk h.stop S) rfl (by simp only [Tile.stop]; omega)
  obtain ⟨hr', hk'⟩ := hr.retile
    (((h.put h.stop (t * 2 ^ 62 + S)).put (h.stop + 24 + S) h.stop).setEnd (h.stop + 32 + S))
    (g.tiles ++ [Tile.mk h.stop S]) {h.stop} h.stop (h.stop + 32 + S)
    ⟨rfl, rfl, rfl⟩ ⟨by simp only [setEnd]; omega, hmap, hlimit⟩ htiles
    (by
      intro w
      rw [hT]
      constructor
      · rintro ⟨hw | rfl, hwN⟩
        · exact ⟨hw, notMem_empty _⟩
        · exact absurd rfl hwN
      · rintro ⟨hw, _⟩
        refine ⟨.inl hw, ?_⟩
        have := hs.bounds hw
        rw [mem_singleton_iff]
        omega)
    (by
      intro w hw _
      have := hs.bounds hw
      omega)
    (by
      intro w hw
      show mem (put _ _ _) w = _
      rw [put_mem_of_ne (by omega), put_mem_of_ne (by omega)])
    (by
      intro w hw hwN
      rcases (hT w).mp hw with hw | rfl
      · have := hs.bounds hw
        have : w.addr = h.stop := hwN
        omega
      · refine ⟨⟨show 8 ∣ h.stop by omega, h8⟩, ⟨t, ht, ?_⟩, put_mem_self⟩
        show mem (put _ _ _) h.stop = _
        rw [put_mem_of_ne (by omega)]
        exact put_mem_self)
    (fun a ha => absurd ha (notMem_empty a))
  refine ⟨_, hr', (hT _).mpr (.inr rfl), rfl, hout, fun w hw => ?_, hk'⟩
  rcases (hT w).mp hw with hw | rfl
  · exact .inr hw
  · exact .inl rfl

theorem Rest.addLast (hr : Rest h g {x.addr}) (hx : x ∈ g.tiles) (hlast : x.addr + 32 + x.size = h.stop)
    (hout : g.place x.addr = .out) (hhead : h.mem x.addr = 2 * 2 ^ 62 + x.size) (hbefore : g.NoHoleBefore x.addr) :
    ∃ h' g', h.addNode (getBinIndex x.size) x.addr = some h' ∧ Rest h' g' ∅ ∧ Kept h g {x.addr} h' g' ∅ ∧
      Within h g h' g' ∧ ∃ i, g'.place x.addr = .bin i ∧ x ∈ g'.tiles := by
  have hafter : g.NoHoleAt (x.addr + 32 + x.size) := by
    intro y hy hyx
    have := hr.shape.bounds hy
    omega
  obtain ⟨h', hrun, hr', _, hk', hw'⟩ := hr.addNode hx hout hhead (fun y hy _ => hbefore y hy) hafter
  rw [sdiff_self] at hr' hk'
  rw [insert_eq_of_mem (mem_singleton _)] at hk'
  exact ⟨h', _, hrun, hr', hk', hw', _, g.move_place_self, hx⟩

structure Expanded (h : Heap) (g : Layout) (h' : Heap) (g' : Layout) (sz : Nat) : Prop where
  rest : Rest h' g' ∅
  kept : Kept h g ∅ h' g' ∅
  stop : h'.stop = h.stop + sz
  fast : ∀ a i, g'.place a = .fast i ↔ g.place a = .fast i
  hole : ∃ x ∈ g'.tiles, ∃ i, g'.place x.addr = .bin i ∧ sz ≤ x.size + 32

theorem Rest.growLast (hr : Rest h g ∅) (hx : x ∈ g.tiles) (hlast : x.addr + 32 + x.size = h.stop)
    (hp : g.place x.addr = .bin i) (h8 : 8 ∣ sz) (hlimit : h.stop + sz ≤ addressLimit)
    (hmap : h.stop + sz ≤ h.mapEnd) :
    ∃ h' g', h.growLast x.addr sz = some h' ∧ h'.stop = h.stop ∧ Expanded h g (h'.setEnd (h.stop + sz)) g' sz := by
  have hs := hr.shape
  have hlim := hlimit
  unfold addressLimit at hlim
  obtain rfl := hr.bin_eq hx (notMem_empty _) hp
  obtain ⟨h₁, hrun₁, hr₁, hheads, hk₁, hw₁⟩ := hr.removeNode hp
  rw [insert_empty_eq] at hr₁ hk₁
  have hs₁ := hr₁.shape
  have hstop₁ := hw₁.stop
  have hmapEnd := hw₁.mapEnd
  have haligned := hs.aligned x hx
  have hhead : h₁.mem x.addr = 2 * 2 ^ 62 + x.size := by
    rw [hheads x hx, (hr.marks x hx (notMem_empty _)).1, hp]
    rfl
  let h₂ := (h₁.put x.addr (2 * 2 ^ 62 + (x.size + sz))).put (x.addr + 24 + (x.size + sz)) x.addr
  obtain ⟨g₂, hr₂, hx₂, hplace₂, hold₂, hk₂⟩ := hr₁.grow (b := h.stop + sz) (S := x.size + sz) (t := 2) hx
    (hlast.trans hstop₁.symm) g.move_place_self (by omega) (by omega) (by omega) (by omega) (by omega)
    rfl (by omega)
  have hword : (h₂.setEnd (h.stop + sz)).mem x.addr = 2 * 2 ^ 62 + (x.size + sz) := by
    show mem (put _ _ _) x.addr = _
    rw [put_mem_of_ne (by omega)]
    exact put_mem_self
  obtain ⟨h₃, g₃, hrun₃, hr₃, hk₃, hw₃, j, hbin, hx₃⟩ := hr₂.addLast (x := ⟨x.addr, x.size + sz⟩) hx₂
    (by simp only [setEnd]; omega) (by rw [hplace₂]; exact g.move_place_self) hword (by
      intro w hw hwx k hk
      simp only at hwx
      have hne : w.addr ≠ x.addr := by omega
      rw [hplace₂, g.move_place_of_ne hne] at hk
      exact hr.apart w ((hold₂ w hw).resolve_left hne) (notMem_empty _) k hk x hx (notMem_empty _) hwx.symm _ hp)
  obtain ⟨h₄, hrun₄, hstop₄, rfl⟩ := addNode_of_setEnd hrun₃
  have hmodify : h₁.modify x.addr (fun w => setSize w (getSize w + sz)) =
      some (h₁.put x.addr (2 * 2 ^ 62 + (x.size + sz))) := by
    rw [modify_eq (hs₁.mapped_head hx), hhead, getSize_word (by omega), setSize_word (by omega) (by omega)]
  have hcreate : (h₁.put x.addr (2 * 2 ^ 62 + (x.size + sz))).createFoot x.addr = some h₂ := by
    have := hs₁.bounds hx
    exact createFoot_word (put_mapped.mpr (hs₁.mapped_head hx)) put_mem_self (by omega)
      ⟨by omega, by simp only [put_start]; omega, by simp only [put_mapEnd]; omega⟩
  have hload : h₂.load x.addr = some (2 * 2 ^ 62 + (x.size + sz)) := by
    rw [load_eq (put_mapped.mpr (put_mapped.mpr (hs₁.mapped_head hx)))]
    exact congrArg some hword
  refine ⟨h₄, g₃, ?_, hstop₄.trans hstop₁, hr₃, hk₁.trans (hk₂.trans hk₃), rfl, ?_,
    ⟨_, hx₃, j, hbin, by simp only; omega⟩⟩
  · simp only [growLast, load_eq (hs.mapped_head hx), hs.getSize_head hx, hrun₁, hmodify, hcreate, hload,
      getSize_word (show x.size + sz < 2 ^ 62 by omega), bind_eq_bind, bind_some]
    exact hrun₄
  · intro a k
    rw [hw₃.fast, hplace₂, hw₁.fast]

theorem Rest.appendLast (hr : Rest h g ∅) (hx : x ∈ g.tiles) (hlast : x.addr + 32 + x.size = h.stop)
    (hp : ∀ i, g.place x.addr ≠ .bin i) (h8 : 8 ∣ sz) (h32 : 32 ≤ sz) (hlimit : h.stop + sz ≤ addressLimit)
    (hmap : h.stop + sz ≤ h.mapEnd) :
    ∃ h' g', h.appendLast sz = some h' ∧ h'.stop = h.stop ∧ Expanded h g (h'.setEnd (h.stop + sz)) g' sz := by
  have hs := hr.shape
  have hlim := hlimit
  unfold addressLimit at hlim
  have haligned := hs.aligned x hx
  have hbounds := hs.bounds hx
  have hend : h.stop + 32 + (sz - 32) = h.stop + sz := by omega
  have hmapped : h.Mapped h.stop := ⟨by omega, by omega, by omega⟩
  obtain ⟨g₂, hr₂, hx₂, hplace₂, hout, hold₂, hk₂⟩ := hr.append (S := sz - 32) (t := 2) (by omega) (by omega)
    (by omega) (by omega)
  rw [hend] at hr₂ hk₂
  let h₂ := (h.put h.stop (2 * 2 ^ 62 + (sz - 32))).put (h.stop + 24 + (sz - 32)) h.stop
  have hword : (h₂.setEnd (h.stop + sz)).mem h.stop = 2 * 2 ^ 62 + (sz - 32) := by
    show mem (put _ _ _) h.stop = _
    rw [put_mem_of_ne (by omega)]
    exact put_mem_self
  obtain ⟨h₃, g₃, hrun₃, hr₃, hk₃, hw₃, j, hbin, hx₃⟩ := hr₂.addLast (x := ⟨h.stop, sz - 32⟩) hx₂
    (by simp only [setEnd]; omega) (by rw [hplace₂]; exact hout) hword (by
      intro w hw hwx k hk
      simp only at hwx
      have hwT : w ∈ g.tiles := (hold₂ w hw).resolve_left (by omega)
      obtain rfl : w = x := by
        rcases hs.disjoint hwT hx with heq | hd | hd
        · exact heq
        · omega
        · omega
      rw [hplace₂] at hk
      exact hp k hk)
  obtain ⟨h₄, hrun₄, hstop₄, rfl⟩ := addNode_of_setEnd hrun₃
  have hmodify : h.modify h.stop (fun w => setSize (setFast (setHole w 1) 0) (sub64 sz 32)) =
      some (h.put h.stop (2 * 2 ^ 62 + (sz - 32))) := by
    rw [sub64_of_le h32 (by omega), modify_eq hmapped, holeWord_size (by omega)]
  have hcreate : (h.put h.stop (2 * 2 ^ 62 + (sz - 32))).createFoot h.stop = some h₂ :=
    createFoot_word (put_mapped.mpr hmapped) put_mem_self (by omega)
      ⟨by omega, by simp only [put_start]; omega, by simp only [put_mapEnd]; omega⟩
  have hload : h₂.load h.stop = some (2 * 2 ^ 62 + (sz - 32)) := by
    rw [load_eq (put_mapped.mpr (put_mapped.mpr hmapped))]
    exact congrArg some hword
  refine ⟨h₄, g₃, ?_, hstop₄, hr₃, hk₂.trans hk₃, rfl, ?_, ⟨_, hx₃, j, hbin, by simp only; omega⟩⟩
  · simp only [Heap.appendLast, hmodify, put_stop, hcreate, show h₂.stop = h.stop from rfl, hload,
      getSize_word (show sz - 32 < 2 ^ 62 by omega), bind_eq_bind, bind_some]
    exact hrun₄
  · intro a k
    rw [hw₃.fast, hplace₂]

theorem Rest.expandHeap (hr : Rest h g ∅) (mremap : Nat → Bool) (h8 : 8 ∣ sz) (h32 : 32 ≤ sz)
    (hlen : h.stop - h.start + sz < 2 ^ 64) :
    if mremap (h.stop - h.start + sz) = false ∨ h.stop + sz > addressLimit then
      h.expandHeap mremap sz = some (h, false)
    else ∃ h' g', h.expandHeap mremap sz = some (h', true) ∧ Expanded h g h' g' sz := by
  have hs := hr.shape
  have hroom := hs.room
  unfold heapSize at hroom
  have hadd : add64 (h.stop - h.start) sz = h.stop - h.start + sz := add64_of_lt hlen
  have hsum : h.start + (h.stop - h.start + sz) = h.stop + sz := by omega
  split
  next hfail =>
    rw [Heap.expandHeap, if_neg (by omega)]
    simp only [hadd, hsum, if_pos hfail]
  next hok =>
    have hlimit : h.stop + sz ≤ addressLimit := by
      omega
    obtain ⟨x, hx, hlast⟩ := hs.tiles.last (by omega)
    change x.addr + 32 + x.size = h.stop at hlast
    let h₀ : Heap := { h with mapEnd := h.stop + sz }
    have hr₀ : Rest h₀ g ∅ := hr.setMapEnd (by omega)
    have hk₀ : Kept h g ∅ h₀ g ∅ := ⟨rfl, fun _ => Iff.rfl, fun _ _ _ _ _ _ => rfl⟩
    have hs₀ := hr₀.shape
    have hfootAt : h.stop - 8 = x.addr + 24 + x.size := by omega
    have hloadLast : h₀.load (h.stop - 8) = some x.addr := by
      rw [hfootAt, load_eq (hs₀.mapped_foot hx), hs₀.foot x hx]
    have hloadHead := load_eq (hs₀.mapped_head hx)
    rw [Heap.expandHeap, if_neg (by omega)]
    simp only [hadd, hsum, if_neg hok]
    by_cases hhole : getHole (h₀.mem x.addr) = 1
    · obtain ⟨i, hp⟩ := (hr₀.getHole_head hx (notMem_empty _)).mp hhole
      obtain ⟨h₁, g', hrun, hstop, hexp⟩ := hr₀.growLast hx hlast hp h8 hlimit le_rfl
      refine ⟨h₁.setEnd (h.stop + sz), g', ?_, ⟨hexp.rest, hk₀.trans hexp.kept, hexp.stop, hexp.fast, hexp.hole⟩⟩
      simp [h₀, hloadLast, hloadHead, hhole, hrun, hstop]
    · have hp : ∀ i, g.place x.addr ≠ .bin i := fun i hi =>
        hhole ((hr₀.getHole_head hx (notMem_empty _)).mpr ⟨i, hi⟩)
      obtain ⟨h₁, g', hrun, hstop, hexp⟩ := hr₀.appendLast hx hlast hp h8 h32 hlimit le_rfl
      refine ⟨h₁.setEnd (h.stop + sz), g', ?_, ⟨hexp.rest, hk₀.trans hexp.kept, hexp.stop, hexp.fast, hexp.hole⟩⟩
      simp [h₀, hloadLast, hloadHead, hhole, hrun, hstop]

end Expand

section SearchLoop

variable {search index found : Nat}

variable {T : List Tile} {g₁ : Layout} {h₁ : Heap}

theorem Shape.dvd_start (hs : Shape h T) : 8 ∣ h.start := by
  have hroom := hs.room
  unfold heapSize at hroom
  obtain ⟨x, hx, hlo, hhi⟩ := hs.tiles.cover (c := h.start) le_rfl (by omega)
  have := hs.bounds hx
  have := hs.aligned x hx
  omega

theorem Shape.dvd_stop (hs : Shape h T) : 8 ∣ h.stop := by
  have hroom := hs.room
  unfold heapSize at hroom
  obtain ⟨x, hx, hlast⟩ := hs.tiles.last (by omega)
  have := hs.aligned x hx
  simp only [Tile.stop] at hlast
  omega

/-- The outcome of the bins up to `index`: all their nodes are too small, or one of `bins[index]` is not. -/
def Scanned (g : Layout) (search index found : Nat) : Prop :=
  (found = 0 ∧ ∀ x ∈ g.tiles, ∀ i ≤ index, g.place x.addr = .bin i → x.size < search) ∨
    ∃ x ∈ g.tiles, x.addr = found ∧ g.place x.addr = .bin index ∧ search ≤ x.size

theorem Rest.scanned_base (hr : Rest h g ∅) (hf : Fitted g (getBinIndex search) search found) :
    Scanned g search (getBinIndex search) found := by
  refine hf.imp (fun hf => ⟨hf.1, fun x hx i hi hp => ?_⟩) id
  by_contra hsize
  -- The nodes of the lower bins are smaller.
  have hmono := getBinIndex_mono (not_lt.mp hsize) ((hr.shape.size_lt hx).trans (by decide))
  have hbin := hr.bin_eq hx (notMem_empty _) hp
  obtain rfl : i = getBinIndex search := by omega
  exact hsize (hf.2 x hx hp)

theorem Scanned.next (hsc : Scanned g search index 0) (hpos : ∀ x ∈ g.tiles, 0 < x.addr)
    (hf : Fitted g (index + 1) search found) : Scanned g search (index + 1) found := by
  refine hf.imp (fun hf => ⟨hf.1, fun x hx i hi hp => ?_⟩) id
  rcases hsc with ⟨_, hsmall⟩ | ⟨y, hy, hy0, _⟩
  · rcases Nat.lt_or_eq_of_le hi with hi | rfl
    · exact hsmall x hx i (by omega) hp
    · exact hf.2 x hx hp
  · have := hpos y hy
    omega

theorem Rest.gap_lt (hr : Rest h g ∅) (hfast : ∀ a i, g.place a ≠ .fast i) (hsmall : Scanned g search 8 0)
    (ha : h.start ≤ a) (hb : b ≤ h.stop) (hgap : g.Gap a b) : b < a + 32 + search := by
  have hs := hr.shape
  rcases lt_or_ge a b with hab | hab
  · have hole : ∀ x ∈ g.tiles, x.addr < b → a < x.addr + 32 + x.size → ∃ i, g.place x.addr = .bin i := by
      intro x hx hxb hax
      cases hp : g.place x.addr with
      | bin i => exact ⟨i, rfl⟩
      | fast i => exact absurd hp (hfast _ i)
      | out =>
        have := hgap x ⟨hx, hp⟩
        omega
    obtain ⟨x, hx, hlo, hhi⟩ := hs.tiles.cover ha (hab.trans_le hb)
    simp only [Tile.stop] at hhi
    obtain ⟨i, hp⟩ := hole x hx (by omega) hhi
    have hend : b ≤ x.addr + 32 + x.size := by
      by_contra hlt
      obtain ⟨y, hy, hyx⟩ := hs.tiles.next hx (by simp only [Tile.stop]; omega)
      simp only [Tile.stop] at hyx
      obtain ⟨j, hpy⟩ := hole y hy (by omega) (by omega)
      exact hr.apart x hx (notMem_empty _) i hp y hy (notMem_empty _) hyx j hpy
    rcases hsmall with ⟨_, hsmall⟩ | ⟨y, hy, hy0, _⟩
    · have hi : i ≤ 8 := (hr.bin_eq hx (notMem_empty _) hp) ▸ getBinIndex_le _
      have := hsmall x hx i hi hp
      omega
    · have := hs.addr_pos hy
      omega
  · omega

/-- The expansion that `parep_mpi_malloc` would ask for is refused. -/
def Refused (mremap : Nat → Bool) (h : Heap) : Prop :=
  mremap (h.stop - h.start + h.expansion) = false ∨ h.stop + h.expansion > addressLimit

structure Searched (mremap : Nat → Bool) (h : Heap) (g : Layout) (search : Nat) (h' : Heap) (g' : Layout)
    (index found : Nat) : Prop where
  rest : Rest h' g' ∅
  kept : Kept h g ∅ h' g' ∅
  fit : found ≠ 0 → ∃ x ∈ g'.tiles, x.addr = found ∧ g'.place x.addr = .bin index ∧ search ≤ x.size
  short : found = 0 → ∀ a b, h'.start ≤ a → b ≤ h'.stop → g'.Gap a b → b < a + 32 + search
  refused : found = 0 → heapMaxSize ≤ h'.stop - h'.start ∨ Refused mremap h'
  grown : h'.stop = h.stop ∨ ¬ (heapMaxSize ≤ h.stop - h.start ∨ Refused mremap h) ∧
      ∃ a b, h'.start ≤ a ∧ b ≤ h'.stop ∧ g'.Gap a b ∧ a + heapSize ≤ b

theorem Searched.of_kept (hk : Kept h g ∅ h₁ g₁ ∅) (hstop : h₁.stop = h.stop)
    (hs : Searched mremap h₁ g₁ search h' g' index found) : Searched mremap h g search h' g' index found := by
  have hgrown := hs.grown
  simp only [Refused, expansion, hstop, hk.start] at hgrown
  exact ⟨hs.rest, hk.trans hs.kept, hs.fit, hs.short, hs.refused, hgrown⟩

theorem Searched.of_expanded (he : Expanded h g h₁ g₁ sz) (hsz : heapSize ≤ sz)
    (hmore : ¬ (heapMaxSize ≤ h.stop - h.start ∨ Refused mremap h))
    (hs : Searched mremap h₁ g₁ search h' g' index found) : Searched mremap h g search h' g' index found := by
  refine ⟨hs.rest, he.kept.trans hs.kept, hs.fit, hs.short, hs.refused, .inr ⟨hmore, ?_⟩⟩
  rcases hs.grown with heq | ⟨_, hgap⟩
  · obtain ⟨x, hx, i, hp, hsize⟩ := he.hole
    have hb := he.rest.shape.bounds hx
    refine ⟨x.addr, x.addr + 32 + x.size, by rw [hs.kept.start]; exact hb.1, by omega, ?_, by omega⟩
    rw [← hs.kept.gap]
    intro y hy
    rcases he.rest.shape.disjoint hx hy.1 with rfl | hd | hd
    · rw [hy.2] at hp
      cases hp
    · exact .inr hd
    · exact .inl hd
  · exact hgap

theorem Rest.dvd_expansion (hr : Rest h g E) : 8 ∣ h.expansion ∧ heapSize ≤ h.expansion ∧
    h.stop - h.start + h.expansion < 2 ^ 64 := by
  have hroom := hr.shape.room
  have hlimit := hr.shape.limit
  have hstart := hr.shape.dvd_start
  have hstop := hr.shape.dvd_stop
  unfold expansion
  unfold heapSize at *
  unfold addressLimit at hlimit
  split <;> omega

def turnsLeft (h : Heap) (index : Nat) (consolidateAttempted : Bool) : Nat :=
  1 + (8 - index) + (if consolidateAttempted then 0 else 10) + 10 * ((heapMaxSize - (h.stop - h.start) + 0x3ffff) / heapSize)

theorem Rest.searchLoop (hr : Rest h g ∅) (mremap : Nat → Bool) (fuel : Nat) (att : Bool) (hsc : Scanned g search index found)
    (hatt : att = true → ∀ a i, g.place a ≠ .fast i) (hfuel : turnsLeft h index att ≤ fuel) :
    ∃ h' g' index' found',
      searchLoop mremap search (getBinIndex search) fuel h index found att = some (h', index', found') ∧
        Searched mremap h g search h' g' index' found' := by
  have hpos : ∀ x ∈ g.tiles, 0 < x.addr := fun x => hr.shape.addr_pos
  induction fuel generalizing h g index found att with
  | zero =>
    unfold turnsLeft at hfuel
    omega
  | succ fuel ih =>
    have hroom := hr.shape.room
    simp only [turnsLeft, heapSize, heapMaxSize] at hfuel hroom
    by_cases hfound : found = 0
    · subst hfound
      have hsmall := hsc
      by_cases hindex : index + 1 ≥ 9
      · cases att with
        | false =>
          obtain ⟨h₁, g₁, hrun₁, hr₁, hfast₁, hk₁, hstop₁⟩ := hr.mallocConsolidate
          obtain ⟨found₁, hfit₁, hfitted⟩ := hr₁.getBestFit (getBinIndex search) search
          obtain ⟨h', g', i', f', hrun', hs'⟩ := ih hr₁ true (hr₁.scanned_base hfitted) (fun _ => hfast₁) (by
              have hstart₁ := hk₁.start
              simp only [turnsLeft, heapSize, heapMaxSize, if_true]
              simp only [Bool.false_eq_true, if_false] at hfuel
              omega) fun x => hr₁.shape.addr_pos
          refine ⟨h', g', i', f', ?_, hs'.of_kept hk₁ hstop₁⟩
          simp [searchLoop, hindex, hrun₁, hfit₁, hrun']
        | true =>
          have hall : Scanned g search 8 0 := by
            refine hsmall.imp (fun hs => ⟨hs.1, fun x hx i hi => hs.2 x hx i (by omega)⟩) ?_
            rintro ⟨x, hx, hx0, _⟩
            exact absurd hx0 (hpos x hx).ne'
          have hshort : ∀ a b, h.start ≤ a → b ≤ h.stop → g.Gap a b → b < a + 32 + search :=
            fun a b => hr.gap_lt (hatt rfl) hall
          by_cases hmax : h.stop - h.start ≥ heapMaxSize
          · refine ⟨h, g, index, 0, by simp [searchLoop, hindex, hmax], hr, Kept.refl,
              absurd rfl, fun _ => hshort, fun _ => .inl hmax, .inl rfl⟩
          · obtain ⟨h8, hge, hlen⟩ := hr.dvd_expansion
            have hexp := hr.expandHeap mremap h8 (by unfold heapSize at hge; omega) hlen
            split at hexp
            next hrefused =>
              refine ⟨h, g, index, 0, by simp [searchLoop, hindex, hmax, hexp], hr, Kept.refl,
                absurd rfl, fun _ => hshort, fun _ => .inr hrefused, .inl rfl⟩
            next hmore =>
              obtain ⟨h₁, g₁, hrun₁, he⟩ := hexp
              obtain ⟨found₁, hfit₁, hfitted⟩ := he.rest.getBestFit (getBinIndex search) search
              obtain ⟨h', g', i', f', hrun', hs'⟩ := ih he.rest true (he.rest.scanned_base hfitted)
                (fun _ a i hi => hatt rfl a i ((he.fast a i).mp hi)) (by
                  have hstart₁ := he.kept.start
                  have hstop₁ := he.stop
                  simp only [turnsLeft, heapSize, heapMaxSize, if_true]
                  unfold heapSize at hge
                  unfold heapMaxSize at hmax
                  omega) fun x => he.rest.shape.addr_pos
              refine ⟨h', g', i', f', ?_, hs'.of_expanded he hge (not_or.mpr ⟨hmax, hmore⟩)⟩
              simp [searchLoop, hindex, hmax, hrun₁, hfit₁, hrun']
      · obtain ⟨found₁, hfit₁, hfitted⟩ := hr.getBestFit (index + 1) search
        obtain ⟨h', g', i', f', hrun', hs'⟩ := ih hr att (hsc.next hpos hfitted) hatt (by
          simp only [turnsLeft, heapSize, heapMaxSize]
          omega) hpos
        refine ⟨h', g', i', f', ?_, hs'⟩
        simp [searchLoop, hindex, hfit₁, hrun']
    · refine ⟨h, g, index, found, by simp [searchLoop, hfound], hr, Kept.refl, fun _ => ?_,
        fun h0 => absurd h0 hfound, fun h0 => absurd h0 hfound, .inl rfl⟩
      exact hsc.resolve_left fun hz => hfound hz.1

end SearchLoop

end Heap

end ParepMpi
