import Mathlib.Data.List.Perm.Subperm
import ParepMpi.Cache.Commbuf

/-!
# What the cache keeps

Each call keeps the lists, the counter and the buffers together, and its loop ends: as long as the counter says that
nodes are linked, one of the bins holds one.
-/

namespace ParepMpi

open LinkedList List Option Function Commbufs

namespace Commbufs

/-- The state of a process between calls, where `ls` are the nodes in the bins. -/
structure Inv (c : Commbufs) (ls : Nat → List Nat) : Prop where
  holds : c.bins.Holds 0 ls
  index : ∀ i n, n ∈ ls i → getCommbufBinIndex (c.size n) = i
  count : c.num = (cached ls).length
  le : c.num ≤ COMMBUF_CACHE_ENTRIES_MAX
  mem : ∀ i n, n ∈ ls i → n ∈ c.nodes
  nodup : c.nodes.Nodup
  live : ∀ n ∈ c.nodes, c.live (c.commbuf n) = some (c.size n)
  inj : ∀ m ∈ c.nodes, ∀ n ∈ c.nodes, c.commbuf m = c.commbuf n → m = n
  used : ∀ p ∈ c.out, p.1 ∈ c.nodes ∧ p.1 ≠ 0 ∧ (∀ i, p.1 ∉ ls i) ∧ c.bins.next p.1 = 0 ∧ c.bins.prev p.1 = 0
    ∧ p.2 ≤ c.size p.1
  once : (c.out.map Prod.fst).Nodup

structure Loose (c : Commbufs) (ls : Nat → List Nat) (n : Nat) : Prop where
  mem : n ∈ c.nodes
  ne : n ≠ 0
  bin : ∀ i, n ∉ ls i
  out : ∀ p ∈ c.out, p.1 ≠ n
  next : c.bins.next n = 0
  prev : c.bins.prev n = 0

variable {c : Commbufs} {ls : Nat → List Nat} {n i fuel size a : Nat} {l : Int}

theorem commbufBinIndexLoop_lt {sz k lower index : Nat} (h : index + k ≤ 9) (hk : 0 < index) :
    commbufBinIndexLoop sz k lower index < 9 := by
  induction k generalizing lower index with
  | zero =>
    show COMMBUF_BIN_MAX_IDX < 9
    decide
  | succ k ih =>
    rw [commbufBinIndexLoop]
    split
    · omega
    · exact ih (by omega) (by omega)

theorem getCommbufBinIndex_lt (sz : Nat) : getCommbufBinIndex sz < COMMBUF_BIN_COUNT := by
  rw [getCommbufBinIndex]
  split
  · decide
  · exact commbufBinIndexLoop_lt (by decide) (by decide)

theorem Inv.lt (h : Inv c ls) (hn : n ∈ ls i) : i < COMMBUF_BIN_COUNT := by
  rw [← h.index i n hn]
  exact getCommbufBinIndex_lt _

theorem Inv.length_le (h : Inv c ls) : (cached ls).length ≤ c.nodes.length := by
  have hnodup := nodup_linked (fun i => (h.holds.bin i).nodup) h.holds.apart COMMBUF_BIN_COUNT
  apply (hnodup.subperm _).length_le
  intro n hn
  obtain ⟨i, -, hi⟩ := mem_linked.mp hn
  exact h.mem i n hi

theorem Inv.length_bin (h : Inv c ls) (i : Nat) : (ls i).length ≤ c.nodes.length :=
  ((h.holds.bin i).nodup.subperm fun n hn => h.mem i n hn).length_le

theorem Inv.remove (h : Inv c ls) (hn : n ∈ ls i) : Inv (c.commbufNodeRemove n i) (update ls i ((ls i).erase n)) := by
  have hcount := length_linked_update ls (h.lt hn) ((ls i).erase n)
  have herase := length_erase_of_mem hn
  have hpos := length_pos_of_mem hn
  refine ⟨h.holds.delete hn, fun j k hk => h.index j k (Bins.mem_of_mem_update_erase hk), ?_, ?_,
    fun j k hk => h.mem j k (Bins.mem_of_mem_update_erase hk), h.nodup, h.live, h.inj, ?_, h.once⟩
  · show c.num - 1 = _
    rw [h.count, cached, cached]
    omega
  · have hle := h.le
    show c.num - 1 ≤ _
    omega
  · intro p hp
    obtain ⟨hmem, hne, hbin, hnext, hprev, hsize⟩ := h.used p hp
    obtain ⟨hn', hp'⟩ := h.holds.delete_links hn hbin
    exact ⟨hmem, hne, fun j hj => hbin j (Bins.mem_of_mem_update_erase hj), hn'.trans hnext, hp'.trans hprev, hsize⟩

theorem Inv.removed (h : Inv c ls) (hn : n ∈ ls i) (j : Nat) : n ∉ update ls i ((ls i).erase n) j := by
  intro hj
  by_cases hji : j = i
  · subst hji
    rw [update_self] at hj
    exact ((h.holds.bin j).nodup.not_mem_erase) hj
  · rw [update_of_ne hji] at hj
    exact hji (h.holds.apart j i n hj hn)

theorem Inv.not_used (h : Inv c ls) (hn : n ∈ ls i) : ∀ p ∈ c.out, p.1 ≠ n := by
  intro p hp heq
  exact (h.used p hp).2.2.1 i (heq ▸ hn)

theorem Inv.push (h : Inv c ls) (hl : Loose c ls n) (hroom : c.num < COMMBUF_CACHE_ENTRIES_MAX) :
    Inv (c.push n (getCommbufBinIndex (c.size n)))
      (update ls (getCommbufBinIndex (c.size n)) (n :: ls (getCommbufBinIndex (c.size n)))) := by
  have hcases : ∀ {j k}, k ∈ update ls (getCommbufBinIndex (c.size n)) (n :: ls (getCommbufBinIndex (c.size n))) j →
      k ∈ ls j ∨ (k = n ∧ j = getCommbufBinIndex (c.size n)) := by
    intro j k hk
    by_cases hj : j = getCommbufBinIndex (c.size n)
    · subst hj
      rw [update_self] at hk
      obtain rfl | hk := mem_cons.mp hk
      · exact .inr ⟨rfl, rfl⟩
      · exact .inl hk
    · rw [update_of_ne hj] at hk
      exact .inl hk
  have hcount := length_linked_update ls (getCommbufBinIndex_lt (c.size n)) (n :: ls (getCommbufBinIndex (c.size n)))
  rw [length_cons] at hcount
  refine ⟨h.holds.push hl.ne hl.bin hl.next hl.prev, ?_, ?_, ?_, ?_, h.nodup, h.live, h.inj, ?_, h.once⟩
  · intro j k hk
    obtain hk | ⟨rfl, rfl⟩ := hcases hk
    · exact h.index j k hk
    · rfl
  · show c.num + 1 = _
    rw [h.count, cached, cached]
    omega
  · show c.num + 1 ≤ _
    omega
  · intro j k hk
    obtain hk | ⟨rfl, -⟩ := hcases hk
    · exact h.mem j k hk
    · exact hl.mem
  · intro p hp
    obtain ⟨hmem, hne, hbin, hnext, hprev, hsize⟩ := h.used p hp
    obtain ⟨hn', hp'⟩ := h.holds.push_links (i := getCommbufBinIndex (c.size n)) (hl.out p hp) hbin
    refine ⟨hmem, hne, fun j hj => ?_, hn'.trans hnext, hp'.trans hprev, hsize⟩
    obtain hj | ⟨heq, -⟩ := hcases hj
    · exact hbin j hj
    · exact hl.out p hp heq

theorem Inv.unlink (h : Inv c ls) (hn : ∀ i, n ∉ ls i) : Inv (c.unlink n) ls := by
  have hne : ∀ {i k}, k ∈ ls i → k ≠ n := fun hk heq => hn _ (heq ▸ hk)
  refine ⟨⟨fun i => ?_, h.holds.apart⟩, h.index, h.count, h.le, h.mem, h.nodup, h.live, h.inj, ?_, h.once⟩
  · exact (h.holds.bin i).congr (fun k hk => update_of_ne (hne hk) _ _) fun k hk => update_of_ne (hne hk) _ _
  · intro p hp
    obtain ⟨hmem, hne, hbin, hnext, hprev, hsize⟩ := h.used p hp
    refine ⟨hmem, hne, hbin, ?_, ?_, hsize⟩
    · show update c.bins.next n 0 p.1 = 0
      rw [update_apply, hnext, ite_self]
    · show update c.bins.prev n 0 p.1 = 0
      rw [update_apply, hprev, ite_self]

theorem loose_unlink (hmem : n ∈ c.nodes) (hne : n ≠ 0) (hbin : ∀ i, n ∉ ls i) (hout : ∀ p ∈ c.out, p.1 ≠ n) :
    Loose (c.unlink n) ls n :=
  ⟨hmem, hne, hbin, hout, update_self .., update_self ..⟩

theorem Inv.give (h : Inv c ls) (hl : Loose c ls n) (hsize : size ≤ c.size n) :
    Inv { c with out := (n, size) :: c.out } ls := by
  refine ⟨h.holds, h.index, h.count, h.le, h.mem, h.nodup, h.live, h.inj, ?_, ?_⟩
  · rw [forall_mem_cons]
    exact ⟨⟨hl.mem, hl.ne, hl.bin, hl.next, hl.prev, hsize⟩, h.used⟩
  · rw [map_cons, nodup_cons]
    refine ⟨fun hmem => ?_, h.once⟩
    obtain ⟨p, hp, heq⟩ := mem_map.mp hmem
    exact hl.out p hp heq

theorem Inv.take (h : Inv c ls) {p : Nat × Nat} (hp : p ∈ c.out) :
    Inv { c with out := c.out.filter fun q => q.1 ≠ p.1 } ls
      ∧ Loose { c with out := c.out.filter fun q => q.1 ≠ p.1 } ls p.1 := by
  obtain ⟨hmem, hne, hbin, hnext, hprev, -⟩ := h.used p hp
  refine ⟨⟨h.holds, h.index, h.count, h.le, h.mem, h.nodup, h.live, h.inj, ?_, ?_⟩, hmem, hne, hbin, ?_, hnext, hprev⟩
  · intro q hq
    exact h.used q (mem_of_mem_filter hq)
  · exact (filter_sublist.map Prod.fst).nodup h.once
  · intro q hq
    exact of_decide_eq_true (mem_filter.mp hq).2

def Own (c : Commbufs) : Buf → Prop
  | .heap _ => c.ext = false
  | .ext proc _ => c.ext = true ∧ proc = c.proc

theorem own_of_live {b : Buf} (h : c.live b ≠ none) : c.Own b := by
  cases b with
  | heap a =>
    cases hext : c.ext with
    | false => exact hext
    | true => exact absurd (if_pos hext) h
  | ext proc a =>
    by_cases hown : c.ext = true ∧ proc = c.proc
    · exact hown
    · exact absurd (if_neg hown) h

theorem own_bufAt (c : Commbufs) (a : Nat) : c.Own (c.bufAt a) := by
  rw [bufAt]
  split
  next hext => exact ⟨hext, rfl⟩
  next hext => exact Bool.eq_false_iff.mpr hext

theorem live_setLive {b b' : Buf} {x : Option Nat} (hown : c.Own b) :
    (c.setLive b x).live b' = if b' = b then x else c.live b' := by
  cases b with
  | heap a =>
    have hext : ¬ c.ext = true := Bool.eq_false_iff.mp hown
    cases b' with
    | heap a' =>
      show (if c.ext then none else update c.heapLive a x a') = _
      rw [if_neg hext, live, if_neg hext, update_apply]
      simp only [Buf.heap.injEq]
    | ext proc a' =>
      rfl
  | ext proc a =>
    obtain ⟨hext, rfl⟩ := hown
    cases b' with
    | heap a' =>
      rfl
    | ext proc a' =>
      show (if c.ext = true ∧ proc = c.proc then update c.extLive a x a' else none) = _
      rw [live, update_apply]
      by_cases hp : proc = c.proc
      · simp [hp, hext]
      · simp [hp]

section

variable (b : Buf) (x : Option Nat)

@[simp] theorem setLive_bins : (c.setLive b x).bins = c.bins := by cases b <;> rfl

@[simp] theorem setLive_num : (c.setLive b x).num = c.num := by cases b <;> rfl

@[simp] theorem setLive_size : (c.setLive b x).size = c.size := by cases b <;> rfl

@[simp] theorem setLive_commbuf : (c.setLive b x).commbuf = c.commbuf := by cases b <;> rfl

@[simp] theorem setLive_nodes : (c.setLive b x).nodes = c.nodes := by cases b <;> rfl

@[simp] theorem setLive_out : (c.setLive b x).out = c.out := by cases b <;> rfl

end

theorem Inv.free (h : Inv c ls) (hmem : n ∈ c.nodes) (hbin : ∀ i, n ∉ ls i) (hout : ∀ p ∈ c.out, p.1 ≠ n) :
    ∃ c', c.deleteCommbufNode n = some c' ∧ Inv c' ls ∧ c'.num = c.num ∧ c'.bins = c.bins ∧ c'.out = c.out
      ∧ c'.size = c.size ∧ c'.nodes = c.nodes.erase n := by
  have hlive : ¬ c.live (c.commbuf n) = none := by
    rw [h.live n hmem]
    exact some_ne_none _
  have hkept : ∀ k ∈ c.nodes.erase n, k ∈ c.nodes ∧ k ≠ n := fun k hk =>
    ⟨mem_of_mem_erase hk, fun heq => h.nodup.not_mem_erase (heq ▸ hk)⟩
  have hother : ∀ k ∈ c.nodes, k ≠ n → k ∈ c.nodes.erase n := fun k hk hkn => (mem_erase_of_ne hkn).mpr hk
  have hfree : c.deleteCommbufNode n
      = some { c.setLive (c.commbuf n) none with nodes := (c.setLive (c.commbuf n) none).nodes.erase n } := if_pos hlive
  refine ⟨_, hfree, ⟨?_, ?_, ?_, ?_, ?_, ?_, ?_, ?_, ?_, ?_⟩, setLive_num _ _, setLive_bins _ _, setLive_out _ _,
    setLive_size _ _, congrArg (·.erase n) (setLive_nodes _ _)⟩
  all_goals simp only [setLive_bins, setLive_num, setLive_size, setLive_commbuf, setLive_nodes, setLive_out]
  · exact h.holds
  · exact h.index
  · exact h.count
  · exact h.le
  · intro i k hk
    exact hother k (h.mem i k hk) fun heq => hbin i (heq ▸ hk)
  · exact h.nodup.erase n
  · intro k hk
    obtain ⟨hk, hkn⟩ := hkept k hk
    show (c.setLive (c.commbuf n) none).live (c.commbuf k) = _
    rw [live_setLive (own_of_live hlive), if_neg fun heq => hkn (h.inj k hk n hmem heq)]
    exact h.live k hk
  · intro j hj k hk
    exact h.inj j (hkept j hj).1 k (hkept k hk).1
  · intro p hp
    obtain ⟨hm, hrest⟩ := h.used p hp
    exact ⟨hother p.1 hm (hout p hp), hrest⟩
  · exact h.once

theorem Inv.new (h : Inv c ls) (size : Nat) (hne : n ≠ 0) (ha : a ≠ 0) (hfresh : n ∉ c.nodes)
    (hbuf : c.live (c.bufAt a) = none) :
    ∃ c', c.newCommbufNode size n a = some c' ∧ Inv c' ls ∧ Loose c' ls n ∧ c'.size n = size ∧ c'.num = c.num := by
  have hbin : ∀ i, n ∉ ls i := fun i hi => hfresh (h.mem i n hi)
  have hout : ∀ p ∈ c.out, p.1 ≠ n := fun p hp heq => hfresh (heq ▸ (h.used p hp).1)
  have hother : ∀ k ∈ c.nodes, k ≠ n := fun k hk heq => hfresh (heq ▸ hk)
  have hnot : ∀ k ∈ c.nodes, c.commbuf k ≠ c.bufAt a := by
    intro k hk heq
    have hk := h.live k hk
    rw [heq, hbuf] at hk
    cases hk
  have hat : ∀ x, (c.setLive (c.bufAt a) x).bufAt a = c.bufAt a := by
    intro x
    cases hb : c.bufAt a <;> exact hb
  have hnew : c.newCommbufNode size n a = some
      { c.setLive (c.bufAt a) (some size) with
        nodes := n :: (c.setLive (c.bufAt a) (some size)).nodes
        size := update (c.setLive (c.bufAt a) (some size)).size n size
        commbuf := update (c.setLive (c.bufAt a) (some size)).commbuf n ((c.setLive (c.bufAt a) (some size)).bufAt a)
        bins := { (c.setLive (c.bufAt a) (some size)).bins with
          next := update (c.setLive (c.bufAt a) (some size)).bins.next n 0
          prev := update (c.setLive (c.bufAt a) (some size)).bins.prev n 0 } } := by
    rw [newCommbufNode, if_neg (by simp [hne, hfresh, hbuf]), if_neg ha]
  have hi := h.unlink hbin
  refine ⟨_, hnew, ⟨?_, ?_, ?_, ?_, ?_, ?_, ?_, ?_, ?_, ?_⟩, ⟨?_, hne, hbin, ?_, ?_, ?_⟩, ?_, ?_⟩
  all_goals simp only [setLive_bins, setLive_num, setLive_size, setLive_commbuf, setLive_nodes, setLive_out, hat,
    update_self, mem_cons_self]
  · exact hi.holds
  · intro i k hk
    rw [update_of_ne (hother k (h.mem i k hk))]
    exact h.index i k hk
  · exact h.count
  · exact h.le
  · intro i k hk
    exact mem_cons_of_mem n (h.mem i k hk)
  · exact nodup_cons.mpr ⟨hfresh, h.nodup⟩
  · rw [forall_mem_cons]
    refine ⟨?_, fun k hk => ?_⟩
    · show (c.setLive (c.bufAt a) (some size)).live (update c.commbuf n (c.bufAt a) n) = _
      rw [update_self, update_self, live_setLive (own_bufAt c a), if_pos rfl]
    · show (c.setLive (c.bufAt a) (some size)).live (update c.commbuf n (c.bufAt a) k) = _
      rw [update_of_ne (hother k hk), update_of_ne (hother k hk), live_setLive (own_bufAt c a), if_neg (hnot k hk)]
      exact h.live k hk
  · intro j hj k hk heq
    obtain hjn | hj := mem_cons.mp hj
    · obtain hkn | hk := mem_cons.mp hk
      · rw [hjn, hkn]
      · rw [hjn, update_self, update_of_ne (hother k hk)] at heq
        exact absurd heq.symm (hnot k hk)
    · obtain hkn | hk := mem_cons.mp hk
      · rw [hkn, update_self, update_of_ne (hother j hj)] at heq
        exact absurd heq (hnot j hj)
      · rw [update_of_ne (hother j hj), update_of_ne (hother k hk)] at heq
        exact h.inj j hj k hk heq
  · intro p hp
    obtain ⟨hm, hne, hb, hn, hp', hs⟩ := hi.used p hp
    refine ⟨mem_cons_of_mem n hm, hne, hb, hn, hp', ?_⟩
    rw [update_of_ne (hout p hp)]
    exact hs
  · exact h.once
  · exact hout

/-! ## The loop

A full cache evicts from the bin of the new node downwards until there is room. -/

theorem Inv.evict (h : Inv c ls) (i : Nat) : (ls i = [] ∧ c.commbufNodeEvict i = (0, c))
      ∨ ∃ n ∈ ls i, n ≠ 0 ∧ c.commbufNodeEvict i = (n, c.commbufNodeRemove n i) := by
  by_cases hl : ls i = []
  · left
    have hseg := (h.holds.bin i).seg
    rw [hl] at hseg
    exact ⟨hl, if_pos hseg.1⟩
  · right
    have htail : c.bins.tail i ≠ 0 := (h.holds.bin i).tail_ne hl
    have hmem : c.bins.tail i ∈ ls i := (h.holds.bin i).tail_mem htail
    have hnext : c.bins.next (c.bins.tail i) = 0 := (h.holds.bin i).seg.next_last hl
    refine ⟨c.bins.tail i, hmem, htail, ?_⟩
    have hdelete : c.bins.delete 0 i (c.bins.tail i) = if c.bins.prev (c.bins.tail i) ≠ 0 then
            { c.bins with
              next := update c.bins.next (c.bins.prev (c.bins.tail i)) (c.bins.next (c.bins.tail i))
              tail := update c.bins.tail i (c.bins.prev (c.bins.tail i)) }
          else
            { c.bins with
              head := update c.bins.head i (c.bins.next (c.bins.tail i))
              tail := update c.bins.tail i (c.bins.prev (c.bins.tail i)) } := by
      unfold Bins.delete Queue.delete Bins.set Bins.queue
      rw [if_neg (not_not.mpr hnext), if_neg (not_not.mpr hnext)]
      split
      · rw [update_eq_self]
      · rfl
    rw [commbufNodeEvict, if_neg htail, commbufNodeRemove, hdelete]

def after (start j : Nat) : Nat := (start + COMMBUF_BIN_COUNT - j) % COMMBUF_BIN_COUNT

theorem after_succ {start j : Nat} (hs : start < COMMBUF_BIN_COUNT) (hj : j < COMMBUF_BIN_COUNT) :
    (if after start j = 0 then COMMBUF_BIN_MAX_IDX else after start j - 1) = after start (j + 1) := by
  unfold after COMMBUF_BIN_MAX_IDX COMMBUF_BIN_COUNT at *
  split <;> omega

theorem Inv.exists_bin {start j : Nat} (h : Inv c ls) (hpos : 0 < c.num) (hs : start < COMMBUF_BIN_COUNT)
    (hempty : ∀ k < j, ls (after start k) = []) : j < COMMBUF_BIN_COUNT := by
  apply Nat.lt_of_not_le
  intro hj
  have hnil : cached ls = [] := by
    rw [cached, linked, flatMap_eq_nil_iff]
    intro i hi
    have hi : i < 9 := mem_range.mp hi
    have hk : after start ((start + 9 - i) % 9) = i := by
      unfold after COMMBUF_BIN_COUNT at *
      omega
    rw [← hk]
    apply hempty
    have hmod : (start + 9 - i) % 9 < 9 := Nat.mod_lt _ (by decide)
    exact Nat.lt_of_lt_of_le hmod hj
  have hcount := h.count
  rw [hnil] at hcount
  simp at hcount
  omega

theorem Inv.insertEvicting {start j : Nat} (h : Inv c ls) (hl : Loose c ls n) (hpos : 0 < l)
    (hs : start < COMMBUF_BIN_COUNT) (hempty : ∀ k < j, ls (after start k) = [])
    (hfuel : (c.num + 1 - l).toNat + (COMMBUF_BIN_COUNT - j) < fuel) (hj : j ≤ COMMBUF_BIN_COUNT) :
    ∃ c' ls', insertEvicting l n (getCommbufBinIndex (c.size n)) fuel c (after start j)
        = some (c'.push n (getCommbufBinIndex (c'.size n)))
      ∧ Inv c' ls' ∧ Loose c' ls' n ∧ c'.num < l ∧ c'.size = c.size ∧ c'.out = c.out := by
  induction fuel generalizing c ls j with
  | zero => exact absurd hfuel (Nat.not_lt_zero _)
  | succ fuel ih =>
    rw [insertEvicting]
    by_cases hroom : c.num < l
    · exact ⟨c, ls, if_pos hroom, h, hl, hroom, rfl, rfl⟩
    · rw [if_neg hroom]
      obtain ⟨hnil, hev⟩ | ⟨k, hk, hk0, hev⟩ := h.evict (after start j)
      · -- The bin is empty, and stays empty.
        have hempty' : ∀ k < j + 1, ls (after start k) = [] := by
          intro k hk
          obtain hk | rfl := Nat.lt_succ_iff_lt_or_eq.mp hk
          · exact hempty k hk
          · exact hnil
        have hjlt := h.exists_bin (by omega) hs hempty
        rw [hev, if_pos rfl, after_succ hs hjlt]
        exact ih h hl hempty' (by omega) (by omega)
      · -- A node is evicted: it is neither the one to insert nor one in use.
        have hrem := h.remove hk
        have hmem : k ∈ (c.commbufNodeRemove k (after start j)).nodes := h.mem _ k hk
        obtain ⟨c', hdel, hinv, hnum, hbins, hout, hsize, hnodes⟩ := hrem.free hmem (h.removed hk) (h.not_used hk)
        have hkn : n ≠ k := fun heq => hl.bin _ (heq ▸ hk)
        have hlinks := h.holds.delete_links hk hl.bin
        have hl' : Loose c' (update ls (after start j) ((ls (after start j)).erase k)) n := by
          refine ⟨?_, hl.ne, fun i hi => hl.bin i (Bins.mem_of_mem_update_erase hi), ?_, ?_, ?_⟩
          · rw [hnodes]
            exact (mem_erase_of_ne hkn).mpr hl.mem
          · rw [hout]
            exact hl.out
          · rw [hbins]
            exact hlinks.1.trans hl.next
          · rw [hbins]
            exact hlinks.2.trans hl.prev
        have hempty' : ∀ i < j, update ls (after start j) ((ls (after start j)).erase k) (after start i) = [] := by
          intro i hi
          rw [eq_nil_iff_forall_not_mem]
          intro q hq
          have hq := Bins.mem_of_mem_update_erase hq
          rw [hempty i hi] at hq
          cases hq
        have hnum' : c'.num = c.num - 1 := hnum
        obtain ⟨c₁, ls₁, hrun, hrest⟩ := ih hinv hl' hempty' (by omega) hj
        have hsize' : c'.size = c.size := hsize
        have hout' : c'.out = c.out := hout
        rw [hev, if_neg hk0, hdel, bind_some, ← hsize']
        rw [← hout']
        exact ⟨c₁, ls₁, hrun, hrest⟩

theorem Inv.rounds (h : Inv c ls) (hpos : 0 < l) : (c.num + 1 - l).toNat + COMMBUF_BIN_COUNT < c.rounds := by
  have hlen := h.length_le
  have hcount := h.count
  unfold Commbufs.rounds COMMBUF_BIN_COUNT
  omega

theorem Inv.insert (h : Inv c ls) (hl : Loose c ls n) (hpos : 0 < l) :
    ∃ c' ls', Commbufs.insertEvicting l n (getCommbufBinIndex (c.size n)) c.rounds c (getCommbufBinIndex (c.size n))
        = some (c'.push n (getCommbufBinIndex (c'.size n)))
      ∧ Inv c' ls' ∧ Loose c' ls' n ∧ c'.num < l ∧ c'.size = c.size ∧ c'.out = c.out := by
  have hs := getCommbufBinIndex_lt (c.size n)
  have hstart : after (getCommbufBinIndex (c.size n)) 0 = getCommbufBinIndex (c.size n) := by
    unfold after COMMBUF_BIN_COUNT at *
    omega
  have hrun := h.insertEvicting hl hpos hs (j := 0) (fun k hk => absurd hk (Nat.not_lt_zero k)) (h.rounds hpos)
    (Nat.zero_le _)
  rwa [hstart] at hrun

section

variable (h : Inv c ls)

include h

theorem Inv.push_remove (hl : Loose c ls n) (hroom : c.num < COMMBUF_CACHE_ENTRIES_MAX) (i : Nat)
    (hi : i = getCommbufBinIndex (c.size n)) :
    Inv (((c.push n i).commbufNodeRemove n i).unlink n) ls
      ∧ Loose (((c.push n i).commbufNodeRemove n i).unlink n) ls n := by
  subst hi
  have hmem : n ∈ update ls (getCommbufBinIndex (c.size n)) (n :: ls (getCommbufBinIndex (c.size n)))
      (getCommbufBinIndex (c.size n)) := by
    rw [update_self]
    exact mem_cons_self
  have hrem := (h.push hl hroom).remove hmem
  rw [update_self, erase_cons_head, update_idem, update_eq_self] at hrem
  exact ⟨hrem.unlink hl.bin, loose_unlink hl.mem hl.ne hl.bin hl.out⟩

theorem Inv.find (size : Nat) : c.commbufNodeFind size
      = some (((ls (getCommbufBinIndex size)).find? fun k => decide (size ≤ c.size k)).getD 0) :=
  (h.holds.bin (getCommbufBinIndex size)).find _ (Nat.lt_succ_of_le (h.length_bin _))

theorem Inv.get_hit {k : Nat}
    (hres : ((ls (getCommbufBinIndex size)).find? fun k => decide (size ≤ c.size k)) = some k) :
    ∃ c' ls', c.getCommbufNode size n a = some c' ∧ Inv c' ls' := by
  have hk : k ∈ ls (getCommbufBinIndex size) := mem_of_find?_eq_some hres
  have hle : size ≤ c.size k := of_decide_eq_true (find?_some (p := fun k => decide (size ≤ c.size k)) hres)
  have hk0 : k ≠ 0 := (h.holds.bin _).ne_null k hk
  have hl := loose_unlink (c := c.commbufNodeRemove k (getCommbufBinIndex size)) (h.mem _ k hk) hk0 (h.removed hk)
    (h.not_used hk)
  rw [getCommbufNode, h.find size, hres, bind_some, getD_some, if_neg hk0, h.index _ k hk]
  exact ⟨_, _, rfl, ((h.remove hk).unlink (h.removed hk)).give hl hle⟩

theorem Inv.get_miss
    (hres : ((ls (getCommbufBinIndex size)).find? fun k => decide (size ≤ c.size k)) = none) (hne : n ≠ 0)
    (ha : a ≠ 0) (hfresh : n ∉ c.nodes) (hbuf : c.live (c.bufAt a) = none) :
    ∃ c' ls', c.getCommbufNode size n a = some c' ∧ Inv c' ls' := by
  obtain ⟨c₁, hnew, hinv₁, hl₁, hsize₁, -⟩ := h.new size hne ha hfresh hbuf
  obtain ⟨c₂, ls₂, hins, hinv₂, hl₂, hnum₂, hsize₂, -⟩ := hinv₁.insert hl₁ (l := COMMBUF_CACHE_ENTRIES) (by decide)
  have hroom : c₂.num < COMMBUF_CACHE_ENTRIES_MAX := by
    unfold COMMBUF_CACHE_ENTRIES at hnum₂
    unfold COMMBUF_CACHE_ENTRIES_MAX
    omega
  obtain ⟨hinv₃, hl₃⟩ := hinv₂.push_remove hl₂ hroom (getCommbufBinIndex (c₁.size n)) (by rw [hsize₂])
  have hroomy : size ≤ c₂.size n := Nat.le_of_eq (by rw [hsize₂, hsize₁])
  rw [hsize₂] at hins
  rw [getCommbufNode, h.find size, hres, bind_some, getD_none, if_pos rfl, hnew, bind_some]
  dsimp only
  rw [hins, bind_some]
  exact ⟨_, ls₂, rfl, hinv₃.give hl₃ hroomy⟩

theorem Inv.get (size : Nat) (hne : n ≠ 0) (ha : a ≠ 0) (hfresh : n ∉ c.nodes) (hbuf : c.live (c.bufAt a) = none) :
    ∃ c' ls', c.getCommbufNode size n a = some c' ∧ Inv c' ls' := by
  cases hres : (ls (getCommbufBinIndex size)).find? fun k => decide (size ≤ c.size k) with
  | none => exact h.get_miss hres hne ha hfresh hbuf
  | some k => exact h.get_hit hres

theorem Inv.ret {p : Nat × Nat} (hp : p ∈ c.out) : ∃ c' ls', c.returnCommbufNode p.1 = some c' ∧ Inv c' ls' := by
  have hlive : ¬ c.live (c.commbuf p.1) = none := by
    rw [h.live p.1 (h.used p hp).1]
    exact some_ne_none _
  obtain ⟨hinv₁, hl₁⟩ := h.take hp
  obtain ⟨c₂, ls₂, hins, hinv₂, hl₂, hnum₂, -⟩ := hinv₁.insert hl₁ (l := COMMBUF_CACHE_ENTRIES_MAX) (by decide)
  refine ⟨_, _, ?_, hinv₂.push hl₂ hnum₂⟩
  rw [returnCommbufNode, if_neg fun hgone => hlive hgone.1]
  exact hins

theorem Inv.sound : Sound c where
  cache := by
    refine ⟨ls, h.holds, h.index, h.count, h.le, fun p hp => ?_⟩
    obtain ⟨hmem, -, hbin, -, -, hsize⟩ := h.used p hp
    exact ⟨hbin, c.size p.1, h.live p.1 hmem, hsize⟩
  gets := by
    intro size node a hne ha hfresh hbuf
    obtain ⟨c', -, hget, -⟩ := h.get size hne ha hfresh hbuf
    rw [hget]
    rfl
  returns := by
    intro p hp
    obtain ⟨c', -, hret, -⟩ := h.ret hp
    rw [hret]
    rfl

end

def Good (c : Commbufs) : Prop := ∃ ls, Inv c ls

theorem good_initial (proc : Nat) (ext : Bool) : Good (.initial proc ext) := by
  refine ⟨fun _ => [], ⟨fun i => Queue.holds_nil _ _, fun i j k hk => by cases hk⟩, ?_, rfl,
    (by decide : (0 : Int) ≤ COMMBUF_CACHE_ENTRIES_MAX), ?_, nodup_nil, ?_, ?_, ?_, nodup_nil⟩
  · intro i k hk
    cases hk
  · intro i k hk
    cases hk
  · intro k hk
    cases hk
  · intro k hk
    cases hk
  · intro p hp
    cases hp

theorem Good.call {c' : Commbufs} {e : CommbufCall} (h : Good c) (hm : c.Granted e) (hcall : c.call e = some c') :
    Good c' := by
  obtain ⟨ls, h⟩ := h
  cases e with
  | get size node a =>
    have hget : c.getCommbufNode size node a = some c' := hcall
    cases hres : (ls (getCommbufBinIndex size)).find? fun k => decide (size ≤ c.size k) with
    | some k =>
      obtain ⟨c₁, ls₁, hget₁, hinv⟩ := h.get_hit (n := node) (a := a) hres
      obtain rfl := some.inj (hget₁.symm.trans hget)
      exact ⟨ls₁, hinv⟩
    | none =>
      have hok : ¬ (node = 0 ∨ node ∈ c.nodes ∨ c.live (c.bufAt a) ≠ none) := by
        intro hbad
        rw [getCommbufNode, h.find size, hres, bind_some, getD_none, if_pos rfl, newCommbufNode, if_pos hbad] at hget
        cases hget
      simp only [not_or, not_not] at hok
      obtain ⟨c₁, ls₁, hget₁, hinv⟩ := h.get_miss hres hok.1 (hm (by rw [h.find size, hres]; rfl)) hok.2.1 hok.2.2
      obtain rfl := some.inj (hget₁.symm.trans hget)
      exact ⟨ls₁, hinv⟩
  | ret node =>
    rw [Commbufs.call] at hcall
    split at hcall
    next hin =>
      obtain ⟨p, hp, rfl⟩ := hin
      obtain ⟨c₁, ls₁, hret, hinv⟩ := h.ret hp
      obtain rfl := some.inj (hret.symm.trans hcall)
      exact ⟨ls₁, hinv⟩
    · cases hcall

theorem Good.replaced {src : Commbufs} (h : Good src) (ht : c.TakenOver src) : Good (c.replaced src) := by
  obtain ⟨ls, h⟩ := h
  obtain ⟨hnum, hbufs⟩ := ht
  refine ⟨ls, h.holds, h.index, hnum.trans h.count, hnum ▸ h.le, h.mem, h.nodup, ?_, h.inj, h.used, h.once⟩
  intro n hn
  obtain hnone | ⟨hext, hext'⟩ := hbufs
  · have hn : n ∈ src.nodes := hn
    rw [hnone] at hn
    cases hn
  · have hlive := h.live n hn
    have hown := own_of_live (hlive ▸ some_ne_none _)
    show (c.replaced src).live (src.commbuf n) = some (src.size n)
    cases hbuf : src.commbuf n with
    | heap a =>
      rw [hbuf] at hlive
      have hlive : (if src.ext = true then none else src.heapLive a) = some (src.size n) := hlive
      rw [hext', if_neg nofun] at hlive
      show (if c.ext = true then none else src.heapLive a) = some (src.size n)
      rw [hext, if_neg nofun, hlive]
    | ext p a =>
      rw [hbuf] at hown
      exact absurd (hext'.symm.trans hown.1) Bool.false_ne_true

end Commbufs

namespace CommbufPair

/-- Both processes, and what has been saved, are as calls leave them. -/
structure Inv (s : CommbufPair) : Prop where
  cmp : s.cmp.Good
  rep : s.rep.Good
  file : ∀ f ∈ s.file, f.Good

theorem Inv.step {s s' : CommbufPair} {e : CommbufEvent} (h : Inv s) (hm : s.Matching e) (hstep : s.step e = some s') :
    Inv s' := by
  cases e with
  | cmp e =>
    obtain ⟨c, hc, rfl⟩ := map_eq_some_iff.mp hstep
    exact ⟨h.cmp.call hm hc, h.rep, h.file⟩
  | rep e =>
    obtain ⟨c, hc, rfl⟩ := map_eq_some_iff.mp hstep
    exact ⟨h.cmp, h.rep.call hm hc, h.file⟩
  | replicate =>
    obtain rfl := some.inj hstep
    exact ⟨h.cmp, h.cmp.replaced hm, h.file⟩
  | checkpoint =>
    obtain rfl := some.inj hstep
    refine ⟨h.cmp, h.rep, fun f hf => ?_⟩
    obtain rfl := mem_some_iff.mp hf
    exact h.cmp
  | restart =>
    obtain ⟨f, hf, rfl⟩ := map_eq_some_iff.mp hstep
    exact ⟨h.cmp, (h.file f hf).replaced (hm f hf), h.file⟩

/-- In every run in which there is memory for the buffers, and heaps are taken over only where the counter and the buffers
fit, the cache is sound in both processes after every step. -/
theorem commbuf_cache_sound (ext : Bool) (es : List CommbufEvent) (s : CommbufPair)
    (hrun : runEvents step (initial ext) es = some s) (hguard : Guarded step Matching (initial ext) es) :
    s.cmp.Sound ∧ s.rep.Sound := by
  have hinit : Inv (initial ext) := ⟨good_initial 0 ext, good_initial 1 ext, fun f hf => by cases hf⟩
  have hinv : Inv s := hguard.invariant hrun hinit fun h hm hstep => h.step hm hstep
  obtain ⟨ls, hcmp⟩ := hinv.cmp
  obtain ⟨ls', hrep⟩ := hinv.rep
  exact ⟨hcmp.sound, hrep.sound⟩

/-- Both processes have used one buffer, which lies in the heap, when the replica takes the heap over. -/
def usedAlike : List CommbufEvent :=
  [.cmp (.get 8 1 100), .cmp (.ret 1), .rep (.get 40 2 200), .rep (.ret 2), .replicate, .rep (.get 8 3 300)]

theorem usedAlike_sound :
    ∃ s, runEvents step (initial false) usedAlike = some s ∧ s.rep.out = [(1, 8)] ∧ s.cmp.Sound ∧ s.rep.Sound := by
  refine exists_run_imp (P := fun s => s.rep.out = [(1, 8)]) (by decide +kernel) ?_
  exact fun s hs hout => ⟨hout, commbuf_cache_sound false usedAlike s hs (by decide +kernel)⟩

/-- Once the compute process has given back a buffer, a replica that has used none takes over one node and counts none;
and it hands out the node, whose buffer is in the other process. A node without a buffer is handed out too. -/
theorem replica_not_sound :
    (∃ s, runEvents step (initial true) [.cmp (.get 8 1 0)] = some s ∧ (1, 8) ∈ s.cmp.out ∧ s.cmp.live (s.cmp.commbuf 1) = none)
      ∧ (∃ s, runEvents step (initial true) [.cmp (.get 8 1 100), .cmp (.ret 1), .replicate] = some s ∧ ¬ s.rep.Sound)
      ∧ ∃ s, runEvents step (initial true) [.cmp (.get 8 1 100), .cmp (.ret 1), .replicate, .rep (.get 8 2 200)] = some s
        ∧ (1, 8) ∈ s.rep.out ∧ s.rep.live (s.rep.commbuf 1) = none := by
  refine ⟨by decide +kernel, ?_, by decide +kernel⟩
  refine exists_run_imp (P := fun s => s.rep.num = 0 ∧ s.rep.bins.head 0 = 1) (by decide +kernel) ?_
  intro s _ hlinked hsound
  obtain ⟨hnum, hhead⟩ := hlinked
  obtain ⟨ls, hholds, -, hcount, -⟩ := hsound.cache
  have hmem : s.rep.bins.head 0 ∈ ls 0 :=
    (hholds.bin 0).head_mem (by rw [show (s.rep.bins.queue 0).head = 1 from hhead]; decide)
  have hpos : 0 < (cached ls).length := length_pos_of_mem (mem_linked.mpr ⟨0, by decide, hmem⟩)
  omega

end CommbufPair

end ParepMpi
