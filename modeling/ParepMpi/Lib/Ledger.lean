import Mathlib.Algebra.BigOperators.Group.List.Basic
import Mathlib.Algebra.Order.BigOperators.Group.List

/-!
# Lists of records and what they are worth

The worth of a list of records in a commutative monoid, such as a number of bytes or a multiset of things that the
records own, and how it changes when records come, go and are rewritten.
-/

namespace Ledger

open List

variable {α σ M : Type*}

/-- The walk over a list that takes out the records which meet `p`; `f` books each of them. -/
def sweep (p : α → Bool) (f : σ → α → σ) : List α → σ → List α × σ
  | [], s => ([], s)
  | a :: l, s => if p a then sweep p f l (f s a) else ((a :: (sweep p f l s).1), (sweep p f l s).2)

theorem sweep_eq (p : α → Bool) (f : σ → α → σ) (l : List α) (s : σ) :
    sweep p f l s = (l.filter fun a => !p a, (l.filter p).foldl f s) := by
  induction l generalizing s with
  | nil => rfl
  | cons a l ih =>
    rw [sweep]
    cases h : p a with
    | true => rw [if_pos rfl, ih, filter_cons_of_neg (by simp [h]), filter_cons_of_pos h, foldl_cons]
    | false =>
      rw [if_neg nofun, ih, filter_cons_of_pos (by simp [h]), filter_cons_of_neg (by simp [h])]

variable [AddCommMonoid M] {v : α → M} {l l' : List α} {a b : α} {i : Nat}

def total (v : α → M) (l : List α) : M := (l.map v).sum

theorem total_nil : total v [] = 0 := rfl

theorem total_cons : total v (a :: l) = v a + total v l := by
  rfl

theorem total_append : total v (l ++ l') = total v l + total v l' := by
  rw [total, map_append, sum_append]
  rfl

theorem total_perm (h : l.Perm l') : total v l = total v l' := (h.map v).sum_eq

theorem total_eq_zero (h : ∀ a ∈ l, v a = 0) : total v l = 0 := sum_eq_zero fun x hx => by
    obtain ⟨a, ha, rfl⟩ := mem_map.mp hx
    exact h a ha

theorem total_nonneg [Preorder M] [AddLeftMono M] (h : ∀ a ∈ l, 0 ≤ v a) : 0 ≤ total v l := sum_nonneg fun x hx => by
    obtain ⟨a, ha, rfl⟩ := mem_map.mp hx
    exact h a ha

theorem total_filter_add (p : α → Bool) : total v (l.filter p) + total v (l.filter fun a => !p a) = total v l := by
  rw [← total_append]
  exact total_perm (filter_append_perm p l)

theorem total_ite (p : α → Bool) : total (fun a => if p a then v a else 0) l = total v (l.filter p) := by
  induction l with
  | nil => rfl
  | cons a l ih =>
    rw [total_cons, ih, filter_cons]
    split
    · rw [total_cons]
    · rw [zero_add]

theorem total_set (h : l[i]? = some a) : total v (l.set i b) + v a = total v l + v b := by
  obtain ⟨hi, rfl⟩ := List.getElem?_eq_some_iff.mp h
  have hsplit : total v l = total v (l.take i) + (v l[i] + total v (l.drop (i + 1))) := by
    rw [← total_cons, ← total_append, getElem_cons_drop, take_append_drop]
  rw [set_eq_take_append_cons_drop, if_pos hi, total_append, total_cons, hsplit]
  ac_rfl

variable {f : σ → α → σ} {g : σ → M}

theorem foldl_add (h : ∀ s a, g (f s a) = g s + v a) (s : σ) : g (l.foldl f s) = g s + total v l := by
  induction l generalizing s with
  | nil => rw [foldl_nil, total_nil, add_zero]
  | cons a l ih => rw [foldl_cons, ih, h, total_cons, add_assoc]

theorem foldl_sub (h : ∀ s, ∀ a ∈ l, g (f s a) + v a = g s) (s : σ) : g (l.foldl f s) + total v l = g s := by
  induction l generalizing s with
  | nil => rw [foldl_nil, total_nil, add_zero]
  | cons a l ih =>
    have hrest := ih (fun s b hb => h s b (mem_cons_of_mem a hb)) (f s a)
    rw [foldl_cons, total_cons, add_left_comm, hrest, add_comm, h s a mem_cons_self]

end Ledger
