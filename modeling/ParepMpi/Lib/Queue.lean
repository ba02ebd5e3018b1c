import Mathlib.Data.List.Nodup
import ParepMpi.Lib.LinkedList

/-!
# Linked queues

A list with links both ways, a head and a tail. `Holds` says that the fields of the nodes are the links of a given
list, and each operation is one on that list, whatever the memory outside of it.
-/

namespace LinkedList

open List Function

variable {α : Type*}

section

variable {next prev next' prev' : α → α} {p q q' hd last a : α} {l : List α}

theorem Seg.last_mem (h : Seg next prev p hd l last q) (hl : l ≠ []) : last ∈ l := by
  induction l generalizing p hd with
  | nil => exact absurd rfl hl
  | cons a l ih =>
    obtain ⟨-, -, h⟩ := h
    cases l with
    | nil =>
      rw [h.1]
      exact mem_cons_self
    | cons b l => exact mem_cons_of_mem _ (ih h (cons_ne_nil b l))

theorem Seg.retarget (h : Seg next prev p hd l last q) (hl : l ≠ []) (hnodup : l.Nodup) (hlast : next' last = q')
    (hnext : ∀ a ∈ l, a ≠ last → next' a = next a) (hprev : ∀ a ∈ l, prev' a = prev a) :
    Seg next' prev' p hd l last q' := by
  induction l generalizing p hd with
  | nil => exact absurd rfl hl
  | cons a l ih =>
    obtain ⟨rfl, hp, h⟩ := h
    obtain ⟨hnot, hnodup⟩ := nodup_cons.mp hnodup
    refine ⟨rfl, (hprev hd mem_cons_self).trans hp, ?_⟩
    cases l with
    | nil =>
      obtain ⟨rfl, -⟩ := h
      exact ⟨rfl, hlast⟩
    | cons b l =>
      have hne : hd ≠ last := fun heq => hnot (heq ▸ h.last_mem (cons_ne_nil b l))
      rw [hnext hd mem_cons_self hne]
      exact ih h (cons_ne_nil b l) hnodup (fun a ha => hnext a (mem_cons_of_mem _ ha))
        fun a ha => hprev a (mem_cons_of_mem _ ha)

end

structure Queue (α : Type*) where
  next : α → α
  prev : α → α
  head : α
  tail : α

namespace Queue

structure Holds (null : α) (q : Queue α) (l : List α) : Prop where
  seg : Seg q.next q.prev null q.head l q.tail null
  ne_null : ∀ a ∈ l, a ≠ null
  nodup : l.Nodup

variable [DecidableEq α]

def insert (null : α) (q : Queue α) (a : α) : Queue α where
  next := if q.tail = null then update q.next a null else update (update q.next a null) q.tail a
  prev := update q.prev a q.tail
  head := if q.tail = null then a else q.head
  tail := a

def delete (null : α) (q : Queue α) (a : α) : Queue α where
  next := if q.prev a ≠ null then update q.next (q.prev a) (q.next a) else q.next
  prev := if q.next a ≠ null then update q.prev (q.next a) (q.prev a) else q.prev
  head := if q.prev a ≠ null then q.head else q.next a
  tail := if q.next a ≠ null then q.tail else q.prev a

def find (null : α) (q : Queue α) (p : α → Bool) : Nat → α → Option α
  | 0, _ => none
  | fuel + 1, a =>
    if a = null then some null
    else if p a then some a
    else find null q p fuel (q.next a)

variable {null : α} {q : Queue α} {l : List α} {a b : α}

omit [DecidableEq α] in
theorem holds_nil (next prev : α → α) : Holds null ⟨next, prev, null, null⟩ [] :=
  ⟨⟨rfl, rfl⟩, fun _ ha => absurd ha not_mem_nil, nodup_nil⟩

theorem insert_prev_of_ne (hb : b ≠ a) : (q.insert null a).prev b = q.prev b := update_of_ne hb _ _

theorem delete_next_of_ne (hb : b = q.prev a → q.prev a = null) : (q.delete null a).next b = q.next b := by
  unfold delete
  split
  · rename_i hne
    exact update_of_ne (fun heq => hne (hb heq)) _ _
  · rfl

theorem delete_prev_of_ne (hb : b = q.next a → q.next a = null) : (q.delete null a).prev b = q.prev b := by
  unfold delete
  dsimp only
  split
  · rename_i hne
    exact update_of_ne (fun heq => hne (hb heq)) _ _
  · rfl

theorem Holds.insert (h : q.Holds null l) (hne : a ≠ null) (hnot : a ∉ l) : (q.insert null a).Holds null (l ++ [a]) where
  seg := by
    have hself : (q.insert null a).prev a = q.tail := by
      exact update_self ..
    rw [seg_append]
    by_cases hl : l = []
    · subst hl
      obtain ⟨htail, -⟩ := h.seg
      refine ⟨null, a, ⟨rfl, if_pos htail⟩, rfl, hself.trans htail, rfl, ?_⟩
      rw [Queue.insert, if_pos htail]
      exact update_self ..
    · have hmem := h.seg.last_mem hl
      have htail : q.tail ≠ null := h.ne_null q.tail hmem
      have hat : a ≠ q.tail := fun heq => hnot (heq ▸ hmem)
      have hnext : (q.insert null a).next = update (update q.next a null) q.tail a := if_neg htail
      have hhead : (q.insert null a).head = q.head := if_neg htail
      refine ⟨q.tail, a, ?_, rfl, hself, rfl, ?_⟩
      · rw [hhead]
        apply h.seg.retarget hl h.nodup
        · rw [hnext, update_self]
        · intro b hb hbt
          have hba : b ≠ a := fun heq => hnot (heq ▸ hb)
          rw [hnext, update_of_ne hbt, update_of_ne hba]
        · intro b hb
          exact insert_prev_of_ne fun heq => hnot (heq ▸ hb)
      · rw [hnext, update_of_ne hat, update_self]
  ne_null := by
    intro b hb
    rcases mem_append.mp hb with hb | hb
    · exact h.ne_null b hb
    · rwa [mem_singleton.mp hb]
  nodup := by
    rw [nodup_append]
    refine ⟨h.nodup, nodup_singleton a, ?_⟩
    intro b hb c hc heq
    rw [heq, mem_singleton.mp hc] at hb
    exact hnot hb

theorem Holds.delete (h : q.Holds null l) (ha : a ∈ l) : (q.delete null a).Holds null (l.erase a) := by
  obtain ⟨l₁, l₂, rfl⟩ := append_of_mem ha
  obtain ⟨hnodup₁, hnodup, hdisj⟩ := nodup_append.mp h.nodup
  obtain ⟨hnot₂, hnodup₂⟩ := nodup_cons.mp hnodup
  have hnot₁ : a ∉ l₁ := fun hmem => hdisj a hmem a mem_cons_self rfl
  have herase : (l₁ ++ a :: l₂).erase a = l₁ ++ l₂ := by
    rw [erase_append_right _ hnot₁, erase_cons_head]
  have hsub : (l₁ ++ l₂).Sublist (l₁ ++ a :: l₂) := Sublist.append_left (sublist_cons_self a l₂) l₁
  rw [herase]
  obtain ⟨m, n, h₁, rfl, hpa, h₂⟩ := seg_append.mp h.seg
  -- What stands on both sides of the node.
  have hleft : ∀ b ∈ l₁, b ≠ null ∧ b ∉ l₂ := fun b hb =>
    ⟨h.ne_null b (mem_append_left _ hb), fun hb₂ => hdisj b hb b (mem_cons_of_mem _ hb₂) rfl⟩
  have hright : ∀ b ∈ l₂, b ≠ null ∧ b ∉ l₁ := fun b hb =>
    ⟨h.ne_null b (mem_append_right _ (mem_cons_of_mem _ hb)), fun hb₁ => (hleft b hb₁).2 hb⟩
  have hprevL : ∀ b ∈ l₁, (q.delete null n).prev b = q.prev b := by
    intro b hb
    apply delete_prev_of_ne
    intro heq
    cases l₂ with
    | nil => exact h₂.2
    | cons c l₂ =>
      rw [heq, h₂.1] at hb
      exact absurd mem_cons_self (hleft c hb).2
  have hnextR : ∀ b ∈ l₂, (q.delete null n).next b = q.next b := by
    intro b hb
    apply delete_next_of_ne
    intro heq
    rw [hpa] at heq ⊢
    by_cases hl : l₁ = []
    · subst hl
      exact h₁.1
    · exact absurd (heq ▸ h₁.last_mem hl) (hright b hb).2
  refine ⟨seg_append.mpr ⟨m, q.next n, ?_, ?_⟩, fun b hb => h.ne_null b (hsub.subset hb), hsub.nodup h.nodup⟩
  · by_cases hl : l₁ = []
    · subst hl
      obtain ⟨rfl, -⟩ := h₁
      exact ⟨rfl, if_neg (not_not.mpr hpa)⟩
    · have hm := h₁.last_mem hl
      have hne : q.prev n ≠ null := hpa ▸ (hleft m hm).1
      have hnext : (q.delete null n).next = update q.next (q.prev n) (q.next n) := if_pos hne
      have hhead : (q.delete null n).head = q.head := if_pos hne
      rw [hhead]
      apply h₁.retarget hl hnodup₁
      · rw [hnext, hpa, update_self]
      · intro b hb hbm
        rw [hnext, hpa, update_of_ne hbm]
      · exact hprevL
  · cases l₂ with
    | nil =>
      obtain ⟨-, hnull⟩ := h₂
      exact ⟨(if_neg (not_not.mpr hnull)).trans hpa, hnull⟩
    | cons c l₂ =>
      obtain ⟨hc, -, h₂⟩ := h₂
      have hne : q.next n ≠ null := hc ▸ (hright c mem_cons_self).1
      have hprev : (q.delete null n).prev = update q.prev (q.next n) (q.prev n) := if_pos hne
      have htail : (q.delete null n).tail = q.tail := if_pos hne
      have hnotc := (nodup_cons.mp hnodup₂).1
      refine ⟨hc, ?_, ?_⟩
      · rw [hprev, hc, update_self, hpa]
      · rw [hnextR c mem_cons_self, htail]
        apply h₂.congr
        · intro b hb
          exact hnextR b (mem_cons_of_mem _ hb)
        · intro b hb
          have hbc : b ≠ c := fun heq => hnotc (heq ▸ hb)
          rw [hprev, hc, update_of_ne hbc]

theorem Holds.find (h : q.Holds null l) (p : α → Bool) {fuel : Nat} (hfuel : l.length < fuel) :
    q.find null p fuel q.head = some ((l.find? p).getD null) := by
  suffices ∀ first hd fuel, Seg q.next q.prev first hd l q.tail null → l.length < fuel →
      q.find null p fuel hd = some ((l.find? p).getD null) from this null q.head fuel h.seg hfuel
  have hne := h.ne_null
  clear h hfuel
  -- The walk takes one node of the list at a time.
  induction l with
  | nil =>
    intro first hd fuel hseg hfuel
    obtain ⟨fuel, rfl⟩ : ∃ n, fuel = n + 1 := ⟨fuel - 1, by omega⟩
    rw [Queue.find, if_pos hseg.2]
    rfl
  | cons a l ih =>
    intro first hd fuel hseg hfuel
    obtain ⟨rfl, -, hseg⟩ := hseg
    obtain ⟨fuel, rfl⟩ : ∃ n, fuel = n + 1 := ⟨fuel - 1, by omega⟩
    rw [Queue.find, if_neg (hne hd mem_cons_self), find?_cons]
    cases hp : p hd with
    | true => rfl
    | false =>
      exact ih (fun b hb => hne b (mem_cons_of_mem _ hb)) hd _ fuel hseg (by simpa using hfuel)

end Queue

namespace DList

variable {next prev next' prev' : α → α} {null hd a : α} {l : List α} (h : DList next prev null hd l)
  (hnodup : l.Nodup) (ha : a ∈ l)

include h hnodup ha

theorem links : hd ≠ null ∧ (prev a ≠ null ↔ hd ≠ a) ∧ (prev a ≠ null → prev a ∈ l) ∧
    (next a ≠ null → next a ∈ l) := by
  obtain ⟨⟨last, hseg⟩, hne⟩ := h
  obtain ⟨l₁, l₂, rfl⟩ := append_of_mem ha
  obtain ⟨m, n, h₁, rfl, hpa, h₂⟩ := seg_append.mp hseg
  rw [hpa]
  have hnext : next n ≠ null → next n ∈ l₁ ++ n :: l₂ := by
    intro hnull
    cases l₂ with
    | nil => exact absurd h₂.2 hnull
    | cons c l₂ => simp [h₂.1]
  cases l₁ with
  | nil =>
    obtain ⟨rfl, rfl⟩ := h₁
    exact ⟨hne hd ha, by simp, by simp, hnext⟩
  | cons c l₁ =>
    have hm : m ∈ c :: l₁ := h₁.last_mem (cons_ne_nil c l₁)
    obtain ⟨rfl, -, -⟩ := h₁
    have hhd : hd ≠ n := (nodup_append.mp hnodup).2.2 hd mem_cons_self n mem_cons_self
    exact ⟨hne hd (by simp), by simp [hhd, hne m (mem_append_left _ hm)], fun _ => mem_append_left _ hm, hnext⟩

theorem erase [DecidableEq α] (hnext : ∀ b ∈ l, next' b = if b = prev a then next a else next b)
    (hprev : ∀ b ∈ l, prev' b = if b = next a then prev a else prev b) :
    DList next' prev' null (if prev a ≠ null then hd else next a) (l.erase a) := by
  obtain ⟨⟨last, hseg⟩, hne⟩ := h
  have hq := Queue.Holds.delete (q := ⟨next, prev, hd, last⟩) ⟨hseg, hne, hnodup⟩ ha
  refine ⟨⟨_, hq.seg.congr ?_ ?_⟩, hq.ne_null⟩
  · intro b hb
    have hbl := mem_of_mem_erase hb
    rw [hnext b hbl]
    split
    · rename_i heq
      simp [Queue.delete, ← heq, hne b hbl]
    · rename_i hnot
      symm
      apply Queue.delete_next_of_ne
      exact fun heq => absurd heq hnot
  · intro b hb
    have hbl := mem_of_mem_erase hb
    rw [hprev b hbl]
    split
    · rename_i heq
      simp [Queue.delete, ← heq, hne b hbl]
    · rename_i hnot
      symm
      apply Queue.delete_prev_of_ne
      exact fun heq => absurd heq hnot

end DList

end LinkedList
