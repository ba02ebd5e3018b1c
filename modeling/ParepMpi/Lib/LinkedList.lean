import Mathlib.Tactic.Common

/-!
# Linked lists in memory

The nodes of a linked list lie in memory and hold the links, so that a list is a property of the fields `next` and
`prev`.
-/

namespace LinkedList

open List

variable {α : Type*} {next prev next' prev' : α → α} {null hd p q last a b : α} {l l₁ l₂ : List α}

/-- Following `next` from `hd` visits the nodes of `l` and arrives at `q`, and `prev` leads back over them
from `last` to `p`. -/
def Seg (next prev : α → α) : α → α → List α → α → α → Prop
  | p, hd, [], last, q => last = p ∧ hd = q
  | p, hd, a :: l, last, q => hd = a ∧ prev a = p ∧ Seg next prev a (next a) l last q

structure DList (next prev : α → α) (null hd : α) (l : List α) : Prop where
  seg : ∃ last, Seg next prev null hd l last null
  ne_null : ∀ a ∈ l, a ≠ null

def SList (next : α → α) (null : α) : α → List α → Prop
  | hd, [] => hd = null
  | hd, a :: l => hd = a ∧ a ≠ null ∧ SList next null (next a) l

theorem seg_append : Seg next prev p hd (l₁ ++ l₂) last q ↔
    ∃ m n, Seg next prev p hd l₁ m n ∧ Seg next prev m n l₂ last q := by
  induction l₁ generalizing p hd with
  | nil =>
    constructor
    · intro h
      exact ⟨p, hd, ⟨rfl, rfl⟩, h⟩
    · intro h
      obtain ⟨m, n, ⟨rfl, rfl⟩, h⟩ := h
      exact h
  | cons a l₁ ih =>
    simp only [cons_append, Seg, ih]
    constructor
    · intro h
      obtain ⟨rfl, hprev, m, n, h₁, h₂⟩ := h
      exact ⟨m, n, ⟨rfl, hprev, h₁⟩, h₂⟩
    · intro h
      obtain ⟨m, n, ⟨rfl, hprev, h₁⟩, h₂⟩ := h
      exact ⟨rfl, hprev, m, n, h₁, h₂⟩

theorem Seg.congr (h : Seg next prev p hd l last q) (hnext : ∀ a ∈ l, next' a = next a)
    (hprev : ∀ a ∈ l, prev' a = prev a) : Seg next' prev' p hd l last q := by
  induction l generalizing p hd with
  | nil => exact h
  | cons a l ih =>
    obtain ⟨rfl, hp, h⟩ := h
    refine ⟨rfl, (hprev hd mem_cons_self).trans hp, ?_⟩
    rw [hnext hd mem_cons_self]
    exact ih h (fun a ha => hnext a (mem_cons_of_mem _ ha)) fun a ha => hprev a (mem_cons_of_mem _ ha)

namespace DList

variable (h : DList next prev null hd l)

theorem nil_iff : DList next prev null hd [] ↔ hd = null := by
  constructor
  · intro h
    obtain ⟨⟨_, _, hq⟩, _⟩ := h
    exact hq
  · intro h
    exact ⟨⟨null, rfl, h⟩, fun a ha => absurd ha not_mem_nil⟩

include h in
theorem congr (hnext : ∀ a ∈ l, next' a = next a) (hprev : ∀ a ∈ l, prev' a = prev a) :
    DList next' prev' null hd l := by
  obtain ⟨⟨last, hseg⟩, hne⟩ := h
  exact ⟨⟨last, hseg.congr hnext hprev⟩, hne⟩

include h in
theorem slist : SList next null hd l := by
  obtain ⟨⟨last, hseg⟩, hne⟩ := h
  suffices ∀ p hd, Seg next prev p hd l last null → SList next null hd l from this null hd hseg
  clear hseg
  induction l with
  | nil => exact fun p hd h => h.2
  | cons a l ih =>
    intro p hd h
    obtain ⟨rfl, _, h⟩ := h
    exact ⟨rfl, hne hd mem_cons_self, ih (fun b hb => hne b (mem_cons_of_mem _ hb)) _ _ h⟩

include h in
theorem head_mem (hne : hd ≠ null) : hd ∈ l := by
  obtain ⟨⟨last, hseg⟩, _⟩ := h
  cases l with
  | nil => exact absurd hseg.2 hne
  | cons a l => exact hseg.1 ▸ mem_cons_self

include h in
theorem push [DecidableEq α] (hnodup : l.Nodup) (ha : a ≠ null) (hnextA : next' a = hd) (hprevA : prev' a = null)
    (hnext : ∀ b ∈ l, next' b = next b) (hprev : ∀ b ∈ l, prev' b = if b = hd then a else prev b) :
    DList next' prev' null a (a :: l) := by
  obtain ⟨⟨last, hseg⟩, hne⟩ := h
  have hseg' : ∃ last', Seg next' prev' a hd l last' null := by
    cases l with
    | nil => exact ⟨a, rfl, hseg.2⟩
    | cons b l =>
      obtain ⟨rfl, _, hseg⟩ := hseg
      refine ⟨last, rfl, (hprev hd mem_cons_self).trans (if_pos rfl), ?_⟩
      rw [hnext hd mem_cons_self]
      refine hseg.congr (fun c hc => hnext c (mem_cons_of_mem _ hc)) ?_
      intro c hc
      rw [hprev c (mem_cons_of_mem _ hc), if_neg]
      rintro rfl
      exact (nodup_cons.mp hnodup).1 hc
  obtain ⟨last', hseg'⟩ := hseg'
  refine ⟨⟨last', rfl, hprevA, ?_⟩, ?_⟩
  · rw [hnextA]
    exact hseg'
  · intro b hb
    rcases mem_cons.mp hb with rfl | hb
    · exact ha
    · exact hne b hb

end DList

namespace SList

variable (h : SList next null hd l)

include h

theorem congr (hnext : ∀ a ∈ l, next' a = next a) : SList next' null hd l := by
  induction l generalizing hd with
  | nil => exact h
  | cons a l ih =>
    obtain ⟨rfl, hne, h⟩ := h
    refine ⟨rfl, hne, ?_⟩
    rw [hnext hd mem_cons_self]
    exact ih h fun a ha => hnext a (mem_cons_of_mem _ ha)

theorem push (ha : a ≠ null) (hnextA : next' a = hd)
    (hnext : ∀ b ∈ l, next' b = next b) : SList next' null a (a :: l) := by
  refine ⟨rfl, ha, ?_⟩
  rw [hnextA]
  exact h.congr hnext

end SList

end LinkedList
