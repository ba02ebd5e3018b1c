import Mathlib.Tactic.Common

/-!
# Tilings

A list of tiles that cover an interval of the natural numbers one after the other.
-/

namespace Tiling

open List

variable {α : Type*} {lo hi : α → Nat} {a b c : Nat} {x y z : α} {l l₁ l₂ : List α}

def Tiles (lo hi : α → Nat) : Nat → Nat → List α → Prop
  | a, b, [] => a = b
  | a, b, x :: l => lo x = a ∧ lo x < hi x ∧ Tiles lo hi (hi x) b l

namespace Tiles

theorem append : Tiles lo hi a c (l₁ ++ l₂) ↔ ∃ b, Tiles lo hi a b l₁ ∧ Tiles lo hi b c l₂ := by
  induction l₁ generalizing a with
  | nil =>
    constructor
    · intro h
      exact ⟨a, rfl, h⟩
    · intro h
      obtain ⟨b, rfl, h⟩ := h
      exact h
  | cons x l₁ ih =>
    simp only [cons_append, Tiles, ih]
    constructor
    · intro h
      obtain ⟨hlo, hlt, b, h₁, h₂⟩ := h
      exact ⟨b, ⟨hlo, hlt, h₁⟩, h₂⟩
    · intro h
      obtain ⟨b, ⟨hlo, hlt, h₁⟩, h₂⟩ := h
      exact ⟨hlo, hlt, b, h₁, h₂⟩

section

variable (h : Tiles lo hi a b l)

include h

theorem le : a ≤ b := by
  induction l generalizing a with
  | nil => exact Nat.le_of_eq h
  | cons x l ih =>
    obtain ⟨hlo, hlt, h⟩ := h
    have := ih h
    omega

theorem bounds (hx : x ∈ l) : a ≤ lo x ∧ lo x < hi x ∧ hi x ≤ b := by
  obtain ⟨l₁, l₂, rfl⟩ := append_of_mem hx
  obtain ⟨c, h₁, hlo, hlt, h₂⟩ := append.mp h
  have := h₁.le
  have := h₂.le
  omega

theorem disjoint (hx : x ∈ l) (hy : y ∈ l) : x = y ∨ hi x ≤ lo y ∨ hi y ≤ lo x := by
  obtain ⟨l₁, l₂, rfl⟩ := append_of_mem hx
  obtain ⟨c, h₁, hlo, hlt, h₂⟩ := append.mp h
  rcases mem_append.mp hy with hy | hy
  · have := h₁.bounds hy
    omega
  · rcases mem_cons.mp hy with rfl | hy
    · exact .inl rfl
    · have := h₂.bounds hy
      omega

theorem eq_of_meet (hx : x ∈ l) (hy : y ∈ l) (hcx : lo x ≤ c ∧ c < hi x) (hcy : lo y ≤ c ∧ c < hi y) : x = y := by
  rcases h.disjoint hx hy with rfl | h | h
  · rfl
  · omega
  · omega

theorem eq_of_lo (hx : x ∈ l) (hy : y ∈ l) (hlo : lo x = lo y) : x = y := by
  have hbx := h.bounds hx
  have hby := h.bounds hy
  exact h.eq_of_meet (c := lo x) hx hy (by omega) (by omega)

theorem cover (ha : a ≤ c) (hb : c < b) : ∃ x ∈ l, lo x ≤ c ∧ c < hi x := by
  induction l generalizing a with
  | nil =>
    have : a = b := h
    omega
  | cons x l ih =>
    obtain ⟨hlo, hlt, h⟩ := h
    rcases Nat.lt_or_ge c (hi x) with hc | hc
    · exact ⟨x, mem_cons_self, by omega, hc⟩
    · obtain ⟨y, hy, hc⟩ := ih h hc
      exact ⟨y, mem_cons_of_mem _ hy, hc⟩

theorem next (hx : x ∈ l) (hne : hi x ≠ b) : ∃ y ∈ l, lo y = hi x := by
  have hb := h.bounds hx
  obtain ⟨y, hy, hc⟩ := h.cover (c := hi x) (by omega) (by omega)
  refine ⟨y, hy, ?_⟩
  rcases h.disjoint hx hy with rfl | h | h
  · omega
  · omega
  · omega

theorem prev (hx : x ∈ l) (hne : lo x ≠ a) : ∃ y ∈ l, hi y = lo x := by
  have hb := h.bounds hx
  obtain ⟨y, hy, hc⟩ := h.cover (c := lo x - 1) (by omega) (by omega)
  refine ⟨y, hy, ?_⟩
  rcases h.disjoint hx hy with rfl | h | h
  · omega
  · omega
  · omega

theorem last (hne : a < b) : ∃ x ∈ l, hi x = b := by
  obtain ⟨x, hx, hc⟩ := h.cover (c := b - 1) (by omega) (by omega)
  have := h.bounds hx
  exact ⟨x, hx, by omega⟩

theorem length_mul_le {k : Nat} (hk : ∀ x ∈ l, lo x + k ≤ hi x) : l.length * k ≤ b - a := by
  induction l generalizing a with
  | nil => simp
  | cons x l ih =>
    obtain ⟨hlo, hlt, h⟩ := h
    have hrest := ih h fun y hy => hk y (mem_cons_of_mem _ hy)
    have hx := hk x mem_cons_self
    have := h.le
    rw [length_cons, Nat.succ_mul]
    omega

end

theorem replace (h : Tiles lo hi a b (l₁ ++ l ++ l₂)) {l' : List α}
    (hl : ∀ c d, Tiles lo hi c d l → Tiles lo hi c d l') : Tiles lo hi a b (l₁ ++ l' ++ l₂) := by
  obtain ⟨d, h, h₂⟩ := append.mp h
  obtain ⟨c, h₁, h⟩ := append.mp h
  exact append.mpr ⟨d, append.mpr ⟨c, h₁, hl c d h⟩, h₂⟩

theorem mem_middle (h : Tiles lo hi a b (l₁ ++ l ++ l₂)) : (x ∈ l₁ ∨ x ∈ l₂) ↔ x ∈ l₁ ++ l ++ l₂ ∧ x ∉ l := by
  obtain ⟨d, h', h₂⟩ := append.mp h
  obtain ⟨c, h₁, hl⟩ := append.mp h'
  constructor
  · intro hx
    refine ⟨by simp only [mem_append]; tauto, fun hm => ?_⟩
    have hm := hl.bounds hm
    rcases hx with hx | hx
    · have := h₁.bounds hx
      omega
    · have := h₂.bounds hx
      omega
  · intro hx
    simp only [mem_append] at hx
    tauto

variable (h : Tiles lo hi a b l)

include h

theorem merge (hx : x ∈ l) (hy : y ∈ l) (hxy : hi x = lo y) (hlo : lo z = lo x)
    (hhi : hi z = hi y) : ∃ l', Tiles lo hi a b l' ∧ ∀ w, w ∈ l' ↔ w = z ∨ w ∈ l ∧ w ≠ x ∧ w ≠ y := by
  obtain ⟨l₁, l₂, rfl⟩ := append_of_mem hx
  have hyne : y ≠ x := by
    rintro rfl
    have := h.bounds hx
    omega
  obtain ⟨c, h₁, hxlo, hxlt, h₂⟩ := append.mp h
  have hy₂ : y ∈ l₂ := by
    rcases mem_append.mp hy with hy | hy
    · have := h₁.bounds hy
      omega
    · exact (mem_cons.mp hy).resolve_left hyne
  obtain ⟨y', l₂, rfl⟩ : ∃ y' l', l₂ = y' :: l' := exists_cons_of_ne_nil (ne_nil_of_mem hy₂)
  obtain rfl : y' = y := h₂.eq_of_lo mem_cons_self hy₂ (h₂.1.trans hxy)
  have hsplit : l₁ ++ x :: y' :: l₂ = l₁ ++ [x, y'] ++ l₂ := by simp
  rw [hsplit] at h ⊢
  refine ⟨l₁ ++ [z] ++ l₂, h.replace fun c d hcd => ?_, fun w => ?_⟩
  · obtain ⟨hc, _, _, _, hd⟩ := hcd
    exact ⟨hlo.trans hc, by omega, hhi.trans hd⟩
  · have hmid := h.mem_middle (x := w)
    simp only [mem_cons, not_mem_nil, or_false, not_or] at hmid
    rw [← hmid]
    simp only [mem_append, mem_cons, not_mem_nil]
    tauto

theorem split (hx : x ∈ l) (hlo : lo y = lo x) (hlt : lo y < hi y) (hyz : hi y = lo z)
    (hlt' : lo z < hi z) (hhi : hi z = hi x) :
    ∃ l', Tiles lo hi a b l' ∧ ∀ w, w ∈ l' ↔ w = y ∨ w = z ∨ w ∈ l ∧ w ≠ x := by
  obtain ⟨l₁, l₂, rfl⟩ := append_of_mem hx
  have hsplit : l₁ ++ x :: l₂ = l₁ ++ [x] ++ l₂ := by simp
  rw [hsplit] at h ⊢
  refine ⟨l₁ ++ [y, z] ++ l₂, h.replace fun c d hcd => ?_, fun w => ?_⟩
  · obtain ⟨hc, _, hd⟩ := hcd
    exact ⟨hlo.trans hc, hlt, hyz.symm, hlt', hhi.trans hd⟩
  · have hmid := h.mem_middle (x := w)
    simp only [mem_cons] at hmid
    simp only [mem_append, mem_cons, not_mem_nil, or_false]
    tauto

theorem snoc (hlo : lo x = b) (hlt : lo x < hi x) : Tiles lo hi a (hi x) (l ++ [x]) := append.mpr ⟨b, h, hlo, hlt, rfl⟩

theorem grow (hx : x ∈ l) (hhi : hi x = b) (hlo : lo y = lo x) (hlt : lo y < hi y) :
    ∃ l', Tiles lo hi a (hi y) l' ∧ ∀ w, w ∈ l' ↔ w = y ∨ w ∈ l ∧ w ≠ x := by
  obtain ⟨l₁, l₂, rfl⟩ := append_of_mem hx
  obtain ⟨c, h₁, hxlo, hxlt, h₂⟩ := append.mp h
  obtain rfl : l₂ = [] := by
    rcases l₂ with _ | ⟨w, l₂⟩
    · rfl
    · have := h₂.bounds mem_cons_self
      omega
  refine ⟨l₁ ++ [y], append.mpr ⟨c, h₁, hlo.trans hxlo, hlt, rfl⟩, fun w => ?_⟩
  have hmid := (show Tiles lo hi a b (l₁ ++ [x] ++ []) by simpa using h).mem_middle (x := w)
  simp only [mem_append, mem_cons, not_mem_nil, or_false] at hmid ⊢
  tauto

end Tiles

end Tiling
