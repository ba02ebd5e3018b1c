import Mathlib.Data.List.GetD
import ParepMpi.Lib.Buffer

/-!
# Reading in pieces

What has been written to a connection arrives in pieces, and one call of `read` gets at most what is left of the first
piece.
-/

namespace Reads

open Bytewise List Option

abbrev Pieces := List (List Nat)

/-- The bytes that one call gets that asks for `n`, and what is left. -/
def call (n : Nat) : Pieces → List Nat × Pieces
  | [] => ([], [])
  | c :: cs => if c.length ≤ n then (c, cs) else (c.take n, c.drop n :: cs)

def put (mem : Nat → Nat) (o : Nat) (bs : List Nat) (i : Nat) : Nat :=
  if o ≤ i ∧ i < o + bs.length then bs.getD (i - o) 0 else mem i

/-- A loop that reads `total` bytes into a destination of that size. -/
structure Loop where
  stride : Nat
  total : Nat
  stop : Nat → Bool

/-- The rounds of the loop after `m` bytes have been got. -/
def Loop.run (l : Loop) : Nat → Nat → (Nat → Nat) → Pieces → Option ((Nat → Nat) × Pieces)
  | 0, _, _, _ => none
  | fuel + 1, m, mem, cs =>
    let got := call (l.total - m) cs
    if got.1 = [] then some (mem, got.2)
    else if l.stride * m + got.1.length ≤ l.total then
      if l.stop (m + got.1.length) then some (put mem (l.stride * m) got.1, got.2)
      else l.run fuel (m + got.1.length) (put mem (l.stride * m) got.1) got.2
    else none

/-- The whole loop: each round but the last gets a byte at least. -/
def Loop.fill (l : Loop) (mem : Nat → Nat) (cs : Pieces) : Option ((Nat → Nat) × Pieces) := l.run (l.total + 1) 0 mem cs

def NonEmpty (cs : Pieces) : Prop := ∀ c ∈ cs, c ≠ []

def cuts : Pieces → List Nat
  | [] => []
  | c :: cs => c.length :: (cuts cs).map (c.length + ·)

def skip : Nat → Pieces → Pieces
  | _, [] => []
  | n, c :: cs => if n = 0 then c :: cs else if c.length ≤ n then skip (n - c.length) cs else c.drop n :: cs

def Whole (w : Nat) (cs : Pieces) : Prop := ∀ b ∈ cuts cs, w ≤ b

instance (w : Nat) (cs : Pieces) : Decidable (Whole w cs) := inferInstanceAs (Decidable (∀ b ∈ cuts cs, w ≤ b))

instance (cs : Pieces) : Decidable (NonEmpty cs) := inferInstanceAs (Decidable (∀ c ∈ cs, c ≠ []))

/-- The numbers of `w` bytes each that memory holds one after the other. -/
def words (w : Nat) : Nat → (Nat → Nat) → List Nat
  | 0, _ => []
  | n + 1, mem => ofBytes mem w :: words w n fun o => mem (w + o)

variable {l : Loop} {fuel m n w : Nat} {mem : Nat → Nat} {c a b bs s : List Nat} {cs : Pieces}

theorem put_nil (mem : Nat → Nat) (o : Nat) : put mem o [] = mem := by
  funext i
  exact if_neg (by rw [length_nil]; omega)

theorem put_append (mem : Nat → Nat) (m : Nat) (a b : List Nat) : put (put mem m a) (m + a.length) b = put mem m (a ++ b) := by
  funext i
  unfold put
  rw [length_append]
  by_cases ha : m ≤ i ∧ i < m + a.length
  · rw [if_neg (by omega), if_pos ha, if_pos (by omega), getD_append _ _ _ _ (by omega)]
  · by_cases hb : m + a.length ≤ i ∧ i < m + a.length + b.length
    · rw [if_pos hb, if_pos (by omega), getD_append_right _ _ _ _ (by omega)]
      congr 1
      omega
    · rw [if_neg hb, if_neg ha, if_neg (by omega)]

theorem ofBytes_put (mem : Nat → Nat) (bs s : List Nat) : ofBytes (put mem 0 (bs ++ s)) bs.length = Wire.decode bs := by
  apply ofBytes_congr
  intro i hi
  rw [put, if_pos (by rw [length_append]; omega), Nat.sub_zero, getD_append _ _ _ _ hi]

theorem put_shift (mem : Nat → Nat) (a b : List Nat) :
    (fun o => put mem 0 (a ++ b) (a.length + o)) = put (fun o => mem (a.length + o)) 0 b := by
  funext o
  unfold put
  rw [length_append]
  by_cases hb : o < b.length
  · rw [if_pos (by omega), if_pos (by omega), getD_append_right _ _ _ _ (by omega)]
    congr 1
    omega
  · rw [if_neg (by omega), if_neg (by omega)]

theorem words_put {xs : List Nat} (hxs : ∀ x ∈ xs, x < 256 ^ w) :
    words w xs.length (put mem 0 (xs.flatMap (Wire.encode w))) = xs := by
  induction xs generalizing mem with
  | nil => rfl
  | cons x xs ih =>
    rw [flatMap_cons, length_cons, words]
    have hhead : ofBytes (put mem 0 (Wire.encode w x ++ xs.flatMap (Wire.encode w))) w = x := by
      have h := ofBytes_put mem (Wire.encode w x) (xs.flatMap (Wire.encode w))
      rw [Wire.length_encode, Wire.decode_encode (hxs x mem_cons_self)] at h
      exact h
    have hshift := put_shift mem (Wire.encode w x) (xs.flatMap (Wire.encode w))
    rw [Wire.length_encode] at hshift
    rw [hhead, hshift, ih fun y hy => hxs y (mem_cons_of_mem x hy)]

theorem NonEmpty.tail (h : NonEmpty (c :: cs)) : NonEmpty cs := fun d hd => h d (mem_cons_of_mem c hd)

theorem NonEmpty.length_pos (h : NonEmpty (c :: cs)) : 0 < c.length := length_pos_of_ne_nil (h c mem_cons_self)

theorem skip_zero (cs : Pieces) : skip 0 cs = cs := by
  cases cs with
  | nil => rfl
  | cons c cs => exact if_pos rfl

theorem NonEmpty.skip (h : NonEmpty cs) : NonEmpty (skip n cs) := by
  induction cs generalizing n with
  | nil => exact h
  | cons c cs ih =>
    rw [Reads.skip]
    split
    · exact h
    · split
      · exact ih h.tail
      next hlong =>
        intro d hd
        obtain rfl | hmem := mem_cons.mp hd
        · intro hnil
          have hlen := congrArg length hnil
          rw [length_drop, length_nil] at hlen
          omega
        · exact h d (mem_cons_of_mem c hmem)

theorem flatten_skip (n : Nat) (cs : Pieces) : (skip n cs).flatten = cs.flatten.drop n := by
  induction cs generalizing n with
  | nil => exact drop_nil.symm
  | cons c cs ih =>
    rw [skip, flatten_cons, drop_append]
    split
    next h0 =>
      subst h0
      rw [drop_zero, Nat.zero_sub, drop_zero, flatten_cons]
    · split
      next hle => rw [ih, drop_eq_nil_of_le hle, nil_append]
      next hlong =>
        rw [flatten_cons, Nat.sub_eq_zero_of_le (by omega), drop_zero]

theorem flatten_skip_append (h : cs.flatten = bs ++ s) : (skip bs.length cs).flatten = s := by
  rw [flatten_skip, h, drop_left]

theorem skip_skip (h : NonEmpty cs) (m n : Nat) : skip n (skip m cs) = skip (m + n) cs := by
  induction cs generalizing m with
  | nil => rfl
  | cons c cs ih =>
    by_cases hm : m = 0
    · rw [hm, skip_zero, zero_add]
    · by_cases hle : c.length ≤ m
      · rw [skip, if_neg hm, if_pos hle, ih h.tail, skip, if_neg (by omega), if_pos (by omega)]
        congr 1
        omega
      · rw [skip, if_neg hm, if_neg hle, skip, skip, if_neg (c := m + n = 0) (by omega)]
        by_cases hn : n = 0
        · rw [if_pos hn, hn, add_zero, if_neg hle]
        · rw [if_neg hn, length_drop, drop_drop]
          by_cases hall : c.length ≤ m + n
          · rw [if_pos (by omega), if_pos hall]
            congr 1
            omega
          · rw [if_neg (by omega), if_neg hall]

/-! ## The loop

A loop whose pointer moves by more than what was read (`stride` above 1) goes wrong at the first short read. -/

theorem call_zero (h : NonEmpty cs) : call 0 cs = ([], cs) := by
  cases cs with
  | nil => rfl
  | cons c cs =>
    have hpos := h.length_pos
    rw [call, if_neg (by omega), take_zero, drop_zero]

theorem Loop.run_piece (h : NonEmpty (c :: cs)) (hc : c.length ≤ l.total - m) : l.run (fuel + 1) m mem (c :: cs)
      = if l.stride * m + c.length ≤ l.total then
          if l.stop (m + c.length) then some (put mem (l.stride * m) c, cs)
          else l.run fuel (m + c.length) (put mem (l.stride * m) c) cs
        else none := by
  have hcall : call (l.total - m) (c :: cs) = (c, cs) := if_pos hc
  rw [Loop.run, hcall]
  rw [if_neg (h c mem_cons_self)]

theorem Loop.run_part (hm : m < l.total) (hc : l.total - m < c.length) : l.run (fuel + 1) m mem (c :: cs)
      = if l.stride * m + (l.total - m) ≤ l.total then
          if l.stop l.total then some (put mem (l.stride * m) (c.take (l.total - m)), c.drop (l.total - m) :: cs)
          else l.run fuel l.total (put mem (l.stride * m) (c.take (l.total - m))) (c.drop (l.total - m) :: cs)
        else none := by
  have hcall : call (l.total - m) (c :: cs) = (c.take (l.total - m), c.drop (l.total - m) :: cs) := if_neg (by omega)
  have hlen : (c.take (l.total - m)).length = l.total - m := by
    rw [length_take]
    omega
  have hne : c.take (l.total - m) ≠ [] := ne_nil_of_length_pos (by omega)
  rw [Loop.run, hcall]
  rw [if_neg hne, hlen, Nat.add_sub_cancel' (Nat.le_of_lt hm)]

theorem Loop.run_bytes (hstride : l.stride = 1) (hend : l.stop l.total = true) (hm : m < l.total)
    (hfuel : l.total - m ≤ fuel) (hne : NonEmpty cs) (hlen : l.total - m ≤ cs.flatten.length)
    (hcuts : ∀ b ∈ cuts cs, m + b < l.total → l.stop (m + b) = false) :
    l.run fuel m mem cs = some (put mem m (cs.flatten.take (l.total - m)), skip (l.total - m) cs) := by
  induction cs generalizing fuel m mem with
  | nil =>
    rw [flatten_nil, length_nil] at hlen
    omega
  | cons c cs ih =>
    have hpos := hne.length_pos
    obtain ⟨fuel, rfl⟩ : ∃ k, fuel = k + 1 := ⟨fuel - 1, by omega⟩
    rw [flatten_cons, length_append] at hlen
    rw [flatten_cons, take_append, skip, if_neg (by omega)]
    by_cases hc : c.length ≤ l.total - m
    · rw [Loop.run_piece hne hc, hstride, one_mul, if_pos (by omega), if_pos hc, take_of_length_le hc]
      by_cases hlast : m + c.length = l.total
      · have hzero : l.total - m - c.length = 0 := by omega
        rw [hlast, if_pos hend, hzero, take_zero, append_nil, skip_zero]
      · have hgo : l.stop (m + c.length) = false := hcuts c.length mem_cons_self (by omega)
        have hrest : ∀ b ∈ cuts cs, m + c.length + b < l.total → l.stop (m + c.length + b) = false := by
          intro b hb hlt
          rw [add_assoc] at hlt ⊢
          exact hcuts (c.length + b) (mem_cons_of_mem _ (mem_map_of_mem hb)) hlt
        rw [hgo, if_neg nofun, ih (by omega) (by omega) hne.tail (by omega) hrest, put_append, Nat.sub_sub]
    · have hzero : l.total - m - c.length = 0 := by omega
      rw [Loop.run_part hm (by omega), hstride, one_mul, if_pos (by omega), if_pos hend, if_neg hc, hzero,
        take_zero, append_nil]

theorem Loop.run_early (hstride : l.stride = 1) (hm : m < l.total) (hfuel : l.total - m ≤ fuel) (hne : NonEmpty cs)
    (hlen : l.total - m ≤ cs.flatten.length)
    (hcut : ∃ b ∈ cuts cs, m + b < l.total ∧ l.stop (m + b) = true) :
    ∃ r, l.run fuel m mem cs = some r ∧ NonEmpty r.2 ∧ cs.flatten.length < r.2.flatten.length + (l.total - m) := by
  induction cs generalizing fuel m mem with
  | nil =>
    obtain ⟨b, hb, -⟩ := hcut
    cases hb
  | cons c cs ih =>
    have hpos := hne.length_pos
    obtain ⟨fuel, rfl⟩ : ∃ k, fuel = k + 1 := ⟨fuel - 1, by omega⟩
    obtain ⟨b, hb, hlt, hstop⟩ := hcut
    have hcb : c.length ≤ b := by
      obtain rfl | hmem := mem_cons.mp hb
      · exact Nat.le_refl _
      · obtain ⟨d, -, rfl⟩ := mem_map.mp hmem
        exact Nat.le_add_right _ _
    rw [flatten_cons, length_append] at hlen ⊢
    rw [Loop.run_piece hne (by omega), hstride, one_mul, if_pos (by omega)]
    by_cases hnow : l.stop (m + c.length) = true
    · rw [if_pos hnow]
      exact ⟨(put mem m c, cs), rfl, hne.tail, by dsimp only; omega⟩
    · rw [if_neg hnow]
      obtain rfl | hmem := mem_cons.mp hb
      · exact absurd hstop hnow
      · obtain ⟨d, hd, rfl⟩ := mem_map.mp hmem
        rw [← add_assoc] at hlt hstop
        have hroom : m + c.length < l.total := by omega
        have hmore : l.total - (m + c.length) ≤ fuel := by omega
        obtain ⟨r, hr, hrne, hrlen⟩ := ih hroom hmore hne.tail (by omega) ⟨d, hd, hlt, hstop⟩
        exact ⟨r, hr, hrne, by omega⟩

/-- With longer steps the bytes of a second piece fall behind the destination, those of the last one at the latest. -/
theorem Loop.run_far (hstride : 1 < l.stride) (hgo : ∀ b < l.total, l.stop b = false) (hpos : 0 < m) (hm : m < l.total)
    (hfuel : l.total - m ≤ fuel) (hne : NonEmpty cs) (hlen : l.total - m ≤ cs.flatten.length) :
    l.run fuel m mem cs = none := by
  induction cs generalizing fuel m mem with
  | nil =>
    rw [flatten_nil, length_nil] at hlen
    omega
  | cons c cs ih =>
    have hcpos := hne.length_pos
    have hfar : m + m ≤ l.stride * m := by
      have h := Nat.mul_le_mul_right m hstride
      omega
    obtain ⟨fuel, rfl⟩ : ∃ k, fuel = k + 1 := ⟨fuel - 1, by omega⟩
    rw [flatten_cons, length_append] at hlen
    by_cases hc : c.length ≤ l.total - m
    · rw [Loop.run_piece hne hc]
      split
      next hin =>
        rw [hgo (m + c.length) (by omega)]
        exact ih (by omega) (by omega) (by omega) hne.tail (by omega)
      · rfl
    · rw [Loop.run_part hm (by omega), if_neg (by omega)]

theorem Loop.fill_whole (hend : l.stop l.total = true) (hne : NonEmpty cs) (hlen : l.total ≤ cs.flatten.length)
    (hw : Whole l.total cs) : l.fill mem cs = some (put mem 0 (cs.flatten.take l.total), skip l.total cs) := by
  rw [Loop.fill]
  by_cases h0 : l.total = 0
  · rw [Loop.run, h0, call_zero hne, if_pos rfl, take_zero, put_nil, skip_zero]
  · cases cs with
    | nil =>
      rw [flatten_nil, length_nil] at hlen
      omega
    | cons c cs =>
      have hc : l.total ≤ c.length := hw c.length mem_cons_self
      rw [flatten_cons, take_append, Nat.sub_eq_zero_of_le hc, take_zero, append_nil, skip, if_neg h0]
      by_cases heq : c.length = l.total
      · rw [Loop.run_piece hne (by omega), Nat.mul_zero, zero_add, if_pos (by omega), heq,
          if_pos hend, if_pos (Nat.le_refl _), Nat.sub_self, skip_zero, take_of_length_le (by omega)]
      · rw [Loop.run_part (by omega) (by omega), Nat.mul_zero, zero_add, Nat.sub_zero, if_pos (Nat.le_refl _),
          if_pos hend, if_neg (by omega)]

theorem Loop.fill_split (hstride : 1 < l.stride) (hgo : ∀ b < l.total, l.stop b = false) (hne : NonEmpty cs)
    (hlen : l.total ≤ cs.flatten.length) (hw : ¬ Whole l.total cs) : l.fill mem cs = none := by
  rw [Loop.fill]
  cases cs with
  | nil => exact absurd (fun b hb => nomatch hb) hw
  | cons c cs =>
    have hpos := hne.length_pos
    have hc : c.length < l.total := by
      apply Nat.lt_of_not_le
      intro hle
      apply hw
      intro b hb
      obtain rfl | hmem := mem_cons.mp hb
      · exact hle
      · obtain ⟨d, -, rfl⟩ := mem_map.mp hmem
        omega
    rw [flatten_cons, length_append] at hlen
    rw [Loop.run_piece hne (by omega), zero_add, if_pos (by omega), hgo _ hc]
    exact Loop.run_far hstride hgo hpos hc (by omega) hne.tail (by omega)

theorem Loop.fill_bytes (hstride : l.stride = 1) (hend : l.stop l.total = true) (hne : NonEmpty cs)
    (hlen : l.total ≤ cs.flatten.length) (hcuts : ∀ b ∈ cuts cs, b < l.total → l.stop b = false) :
    l.fill mem cs = some (put mem 0 (cs.flatten.take l.total), skip l.total cs) := by
  by_cases h0 : l.total = 0
  · exact Loop.fill_whole hend hne hlen fun b _ => by omega
  · have hcuts' : ∀ b ∈ cuts cs, 0 + b < l.total → l.stop (0 + b) = false := by
      intro b hb
      rw [zero_add]
      exact hcuts b hb
    exact Loop.run_bytes hstride hend (Nat.pos_of_ne_zero h0) (Nat.le_succ _) hne hlen hcuts'

theorem length_call (n : Nat) (cs : Pieces) :
    cs.flatten.length = (call n cs).1.length + (call n cs).2.flatten.length ∧ (call n cs).1.length ≤ n := by
  cases cs with
  | nil => exact ⟨rfl, Nat.zero_le n⟩
  | cons c cs =>
    rw [call]
    split
    next hle => exact ⟨by rw [flatten_cons, length_append], hle⟩
    next hgt =>
      rw [flatten_cons, flatten_cons, length_append, length_append, length_take, length_drop]
      omega

variable {r : (Nat → Nat) × Pieces}

theorem Loop.length_run (hm : m ≤ l.total) (h : l.run fuel m mem cs = some r) :
    cs.flatten.length ≤ r.2.flatten.length + (l.total - m) := by
  induction fuel generalizing m mem cs with
  | zero => cases h
  | succ fuel ih =>
    obtain ⟨hsum, hle⟩ := length_call (l.total - m) cs
    rw [Loop.run] at h
    split at h
    · obtain rfl := some.inj h
      dsimp only
      omega
    · split at h
      · split at h
        · obtain rfl := some.inj h
          dsimp only
          omega
        · have hrest := ih (by omega) h
          omega
      · cases h

theorem Loop.length_fill (h : l.fill mem cs = some r) :
    cs.flatten.length ≤ r.2.flatten.length + l.total := Loop.length_run (Nat.zero_le _) h

theorem Loop.fill_early (hstride : l.stride = 1) (hne : NonEmpty cs) (hlen : l.total ≤ cs.flatten.length)
    (hcut : ∃ b ∈ cuts cs, b < l.total ∧ l.stop b = true) :
    ∃ r, l.fill mem cs = some r ∧ NonEmpty r.2 ∧ cs.flatten.length < r.2.flatten.length + l.total := by
  obtain ⟨b, hb, hlt, hstop⟩ := hcut
  rw [← zero_add b] at hlt hstop
  exact Loop.run_early hstride (by omega) (Nat.le_succ _) hne hlen ⟨b, hb, hlt, hstop⟩

/-! ## Readers

Readers in sequence take a concatenation of what they take. -/

section

variable {α β : Type} {r : Pieces → Option (α × Pieces)} {k : α → Pieces → Option (β × Pieces)} {x : α} {y : β}
  {C D : Pieces → Prop}

/-- Where the bytes `bs` come next, the reader takes them for `x` if the pieces meet `C`, and fails if they do not. -/
def Meets (r : Pieces → Option (α × Pieces)) (x : α) (bs : List Nat) (C : Pieces → Prop) : Prop :=
  ∀ cs s, NonEmpty cs → cs.flatten = bs ++ s → (C cs → r cs = some (x, skip bs.length cs)) ∧ (¬ C cs → r cs = none)

theorem Meets.iff (h : Meets r x bs C) (hne : NonEmpty cs) (hs : cs.flatten = bs ++ s) :
    r cs = some (x, skip bs.length cs) ↔ C cs := by
  obtain ⟨hgood, hbad⟩ := h cs s hne hs
  refine ⟨fun hr => ?_, hgood⟩
  apply Classical.byContradiction
  intro hC
  rw [hbad hC] at hr
  cases hr

theorem Meets.pure (x : α) : Meets (fun cs => some (x, cs)) x [] fun _ => True := by
  intro cs s _ _
  exact ⟨fun _ => by rw [length_nil, skip_zero], absurd trivial⟩

theorem Meets.bind (h : Meets r x a C) (hk : Meets (k x) y b D) :
    Meets (fun cs => (r cs).bind fun p => k p.1 p.2) y (a ++ b) fun cs => C cs ∧ D (skip a.length cs) := by
  intro cs s hne hs
  rw [append_assoc] at hs
  obtain ⟨hgood, hbad⟩ := h cs (b ++ s) hne hs
  obtain ⟨hnext, hstop⟩ := hk (skip a.length cs) s hne.skip (flatten_skip_append hs)
  dsimp only
  refine ⟨fun hCD => ?_, fun hCD => ?_⟩
  · rw [hgood hCD.1, bind_some, hnext hCD.2, skip_skip hne, length_append]
  · by_cases hC : C cs
    · rw [hgood hC]
      exact hstop fun hD => hCD ⟨hC, hD⟩
    · rw [hbad hC, bind_none]

theorem Meets.map (f : α → β) (h : Meets r x a C) : Meets (fun cs => (r cs).bind fun p => some (f p.1, p.2)) (f x) a C := by
  intro cs s hne hs
  obtain ⟨hgood, hbad⟩ := h cs s hne hs
  dsimp only
  refine ⟨fun hC => ?_, fun hC => ?_⟩
  · rw [hgood hC, bind_some]
  · rw [hbad hC, bind_none]

theorem Meets.congr (h : Meets r x a C) (hCD : ∀ cs, NonEmpty cs → (C cs ↔ D cs)) : Meets r x a D := by
  intro cs s hne hs
  rw [← hCD cs hne]
  exact h cs s hne hs

end

end Reads
