import ParepMpi.Lib.Queue

/-!
# Bins of nodes

Several lists share the links of one set of nodes; each has its own ends.
-/

namespace LinkedList

open List Function

variable {α : Type*}

theorem Seg.next_last {next prev : α → α} {p hd last e : α} {l : List α} (h : Seg next prev p hd l last e) (hl : l ≠ []) :
    next last = e := by
  induction l generalizing p hd with
  | nil => exact absurd rfl hl
  | cons a l ih =>
    obtain ⟨rfl, -, h⟩ := h
    cases l with
    | nil =>
      rw [h.1]
      exact h.2
    | cons b l => exact ih h (cons_ne_nil b l)

namespace Queue

variable [DecidableEq α] {null : α} {q : Queue α} {l : List α} {a b : α}

/-- A node before the first. -/
def push (null : α) (q : Queue α) (a : α) : Queue α where
  next := if q.head = null then q.next else update q.next a q.head
  prev := if q.head = null then q.prev else update q.prev q.head a
  head := a
  tail := if q.head = null then a else q.tail

omit [DecidableEq α] in
theorem Holds.congr {next prev : α → α} (h : q.Holds null l) (hnext : ∀ a ∈ l, next a = q.next a)
    (hprev : ∀ a ∈ l, prev a = q.prev a) : Holds null ⟨next, prev, q.head, q.tail⟩ l :=
  ⟨h.seg.congr hnext hprev, h.ne_null, h.nodup⟩

omit [DecidableEq α] in
theorem Holds.head_mem (h : q.Holds null l) (hne : q.head ≠ null) : q.head ∈ l := by
  cases l with
  | nil => exact absurd h.seg.2 hne
  | cons a l =>
    rw [h.seg.1]
    exact mem_cons_self

omit [DecidableEq α] in
theorem Holds.tail_mem (h : q.Holds null l) (hne : q.tail ≠ null) : q.tail ∈ l := by
  by_cases hl : l = []
  · subst hl
    exact absurd h.seg.1 hne
  · exact h.seg.last_mem hl

omit [DecidableEq α] in
theorem Holds.tail_ne (h : q.Holds null l) (hl : l ≠ []) : q.tail ≠ null := h.ne_null _ (h.seg.last_mem hl)

theorem Holds.push (h : q.Holds null l) (hne : a ≠ null) (hnot : a ∉ l) (hnext : q.next a = null)
    (hprev : q.prev a = null) : (q.push null a).Holds null (a :: l) := by
  refine ⟨?_, forall_mem_cons.mpr ⟨hne, h.ne_null⟩, nodup_cons.mpr ⟨hnot, h.nodup⟩⟩
  cases l with
  | nil =>
    have hhead : q.head = null := h.seg.2
    have hn : (q.push null a).next = q.next := if_pos hhead
    have hp : (q.push null a).prev = q.prev := if_pos hhead
    have ht : (q.push null a).tail = a := if_pos hhead
    refine ⟨rfl, ?_, ht, ?_⟩
    · rw [hp]
      exact hprev
    · rw [hn]
      exact hnext
  | cons b l =>
    obtain ⟨hb, hpb, hseg⟩ := h.seg
    have hnull : q.head ≠ null := hb ▸ h.ne_null b mem_cons_self
    have hab : a ≠ b := fun heq => hnot (heq ▸ mem_cons_self)
    have hbl := (nodup_cons.mp h.nodup).1
    have hn : (q.push null a).next = update q.next a q.head := if_neg hnull
    have hp : (q.push null a).prev = update q.prev q.head a := if_neg hnull
    have ht : (q.push null a).tail = q.tail := if_neg hnull
    refine ⟨rfl, ?_, ?_, ?_, ?_⟩
    · rw [hp, update_of_ne (hb ▸ hab)]
      exact hprev
    · rw [hn, update_self]
      exact hb
    · rw [hp, hb, update_self]
    · rw [ht, hn, update_of_ne hab.symm]
      apply hseg.congr
      · intro c hc
        have hca : c ≠ a := fun heq => hnot (heq ▸ mem_cons_of_mem b hc)
        exact update_of_ne hca _ _
      · intro c hc
        have hcb : c ≠ b := fun heq => hbl (heq ▸ hc)
        rw [hp, hb]
        exact update_of_ne hcb _ _

theorem Holds.push_links (h : q.Holds null l) (hba : b ≠ a) (hb : b ∉ l) :
    (q.push null a).next b = q.next b ∧ (q.push null a).prev b = q.prev b := by
  unfold Queue.push
  split
  · exact ⟨rfl, rfl⟩
  next hne =>
    have hbh : b ≠ q.head := fun heq => hb (heq ▸ h.head_mem hne)
    exact ⟨update_of_ne hba _ _, update_of_ne hbh _ _⟩

theorem Holds.delete_links (h : q.Holds null l) (ha : a ∈ l) (hb : b ∉ l) :
    (q.delete null a).next b = q.next b ∧ (q.delete null a).prev b = q.prev b := by
  obtain ⟨l₁, l₂, rfl⟩ := append_of_mem ha
  obtain ⟨m, n, h₁, rfl, hpa, h₂⟩ := seg_append.mp h.seg
  constructor
  · apply delete_next_of_ne
    intro heq
    rw [hpa] at heq ⊢
    by_cases hl : l₁ = []
    · subst hl
      exact h₁.1
    · exact absurd (mem_append_left _ (h₁.last_mem hl)) (heq ▸ hb)
  · apply delete_prev_of_ne
    intro heq
    cases l₂ with
    | nil => exact h₂.2
    | cons c l₂ =>
      rw [heq, h₂.1] at hb
      exact absurd (mem_append_right _ (mem_cons_of_mem _ mem_cons_self)) hb

end Queue

structure Bins (α : Type*) where
  next : α → α
  prev : α → α
  head : Nat → α
  tail : Nat → α

namespace Bins

def queue (b : Bins α) (i : Nat) : Queue α := ⟨b.next, b.prev, b.head i, b.tail i⟩

def set (b : Bins α) (i : Nat) (q : Queue α) : Bins α where
  next := q.next
  prev := q.prev
  head := update b.head i q.head
  tail := update b.tail i q.tail

structure Holds (null : α) (b : Bins α) (ls : Nat → List α) : Prop where
  bin : ∀ i, (b.queue i).Holds null (ls i)
  apart : ∀ i j a, a ∈ ls i → a ∈ ls j → i = j

variable {null : α} {b : Bins α} {ls : Nat → List α} {a c : α} {i j : Nat}

theorem queue_set_self (b : Bins α) (i : Nat) (q : Queue α) : (b.set i q).queue i = q := by
  unfold queue set
  dsimp only
  rw [update_self, update_self]

theorem queue_set_of_ne (q : Queue α) (hj : j ≠ i) : (b.set i q).queue j = ⟨q.next, q.prev, b.head j, b.tail j⟩ := by
  unfold queue set
  dsimp only
  rw [update_of_ne hj, update_of_ne hj]

theorem Holds.set {q : Queue α} {l : List α} (h : b.Holds null ls) (hq : q.Holds null l)
    (hlinks : ∀ j, j ≠ i → ∀ a ∈ ls j, q.next a = b.next a ∧ q.prev a = b.prev a ∧ a ∉ l) :
    (b.set i q).Holds null (update ls i l) where
  bin := by
    intro j
    by_cases hj : j = i
    · subst hj
      rw [queue_set_self, update_self]
      exact hq
    · rw [queue_set_of_ne q hj, update_of_ne hj]
      exact (h.bin j).congr (fun a ha => (hlinks j hj a ha).1) fun a ha => (hlinks j hj a ha).2.1
  apart := by
    intro j k a hj hk
    by_cases hji : j = i
    · by_cases hki : k = i
      · rw [hji, hki]
      · rw [hji, update_self] at hj
        rw [update_of_ne hki] at hk
        exact absurd hj (hlinks k hki a hk).2.2
    · by_cases hki : k = i
      · rw [hki, update_self] at hk
        rw [update_of_ne hji] at hj
        exact absurd hk (hlinks j hji a hj).2.2
      · rw [update_of_ne hji] at hj
        rw [update_of_ne hki] at hk
        exact h.apart j k a hj hk

variable [DecidableEq α]

def push (null : α) (b : Bins α) (i : Nat) (a : α) : Bins α := b.set i ((b.queue i).push null a)

def delete (null : α) (b : Bins α) (i : Nat) (a : α) : Bins α := b.set i ((b.queue i).delete null a)

theorem Holds.push (h : b.Holds null ls) (hne : a ≠ null) (hnot : ∀ j, a ∉ ls j) (hnext : b.next a = null)
    (hprev : b.prev a = null) : (b.push null i a).Holds null (update ls i (a :: ls i)) := by
  apply h.set ((h.bin i).push hne (hnot i) hnext hprev)
  intro j hj c hc
  have hca : c ≠ a := fun heq => hnot j (heq ▸ hc)
  have hci : c ∉ ls i := fun hmem => hj (h.apart j i c hc hmem)
  obtain ⟨hn, hp⟩ := (h.bin i).push_links hca hci
  exact ⟨hn, hp, fun hmem => (mem_cons.mp hmem).elim hca hci⟩

theorem Holds.delete (h : b.Holds null ls) (ha : a ∈ ls i) :
    (b.delete null i a).Holds null (update ls i ((ls i).erase a)) := by
  apply h.set ((h.bin i).delete ha)
  intro j hj c hc
  have hci : c ∉ ls i := fun hmem => hj (h.apart j i c hc hmem)
  obtain ⟨hn, hp⟩ := (h.bin i).delete_links ha hci
  exact ⟨hn, hp, fun hmem => hci (mem_of_mem_erase hmem)⟩

theorem mem_of_mem_update_erase (h : c ∈ update ls i ((ls i).erase a) j) : c ∈ ls j := by
  by_cases hj : j = i
  · subst hj
    rw [update_self] at h
    exact mem_of_mem_erase h
  · rwa [update_of_ne hj] at h

theorem Holds.push_links (h : b.Holds null ls) (hca : c ≠ a) (hc : ∀ j, c ∉ ls j) :
    (b.push null i a).next c = b.next c ∧ (b.push null i a).prev c = b.prev c :=
  (h.bin i).push_links hca (hc i)

theorem Holds.delete_links (h : b.Holds null ls) (ha : a ∈ ls i) (hc : ∀ j, c ∉ ls j) :
    (b.delete null i a).next c = b.next c ∧ (b.delete null i a).prev c = b.prev c :=
  (h.bin i).delete_links ha (hc i)

end Bins

section

variable {ls : Nat → List α} {i n : Nat}

def linked (ls : Nat → List α) (n : Nat) : List α := (range n).flatMap ls

theorem linked_succ (ls : Nat → List α) (n : Nat) : linked ls (n + 1) = linked ls n ++ ls n := by
  rw [linked, range_succ, flatMap_append, flatMap_singleton]
  rfl

theorem mem_linked {a : α} : a ∈ linked ls n ↔ ∃ i < n, a ∈ ls i := by
  simp only [linked, mem_flatMap, mem_range]

theorem length_linked_update (ls : Nat → List α) (hi : i < n) (l : List α) :
    (linked (update ls i l) n).length + (ls i).length = (linked ls n).length + l.length := by
  induction n with
  | zero => exact absurd hi (Nat.not_lt_zero i)
  | succ n ih =>
    rw [linked_succ, linked_succ, length_append, length_append]
    by_cases hin : i = n
    · subst hin
      have hsame : linked (update ls i l) i = linked ls i := by
        apply flatMap_congr
        intro j hj
        exact update_of_ne (Nat.ne_of_lt (mem_range.mp hj)) _ _
      rw [hsame, update_self]
      omega
    · rw [update_of_ne (Ne.symm hin)]
      omega

theorem nodup_linked (hnodup : ∀ i, (ls i).Nodup) (hapart : ∀ i j a, a ∈ ls i → a ∈ ls j → i = j) (n : Nat) :
    (linked ls n).Nodup := by
  induction n with
  | zero => exact nodup_nil
  | succ n ih =>
    rw [linked_succ, nodup_append]
    refine ⟨ih, hnodup n, ?_⟩
    intro a ha b hb heq
    obtain ⟨i, hi, hai⟩ := mem_linked.mp ha
    exact Nat.ne_of_lt hi (hapart i n a hai (heq ▸ hb))

end

end LinkedList
