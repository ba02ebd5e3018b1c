import Mathlib.Data.List.Basic

/-!
# Reading lines into a buffer of fixed size

A reader takes at most `n` elements at a time and stops after one that ends a line, as `fgets` does.
-/

namespace Lines

open List

variable {α : Type*} (stops : α → Bool)

def piece : Nat → List α → List α
  | 0, _ => []
  | _ + 1, [] => []
  | n + 1, a :: text => if stops a then [a] else a :: piece n text

def pieces (n : Nat) : Nat → List α → List (List α)
  | 0, _ => []
  | fuel + 1, text =>
    if piece stops n text = [] then []
    else piece stops n text :: pieces n fuel (text.drop (piece stops n text).length)

variable {n fuel : Nat} {text l : List α} {e : α}

theorem piece_prefix_of (n : Nat) (text : List α) : piece stops n text <+: text := by
  induction n generalizing text with
  | zero => exact nil_prefix
  | succ n ih =>
    cases text with
    | nil => exact nil_prefix
    | cons a text =>
      rw [piece]
      split
      · exact prefix_append [a] text
      · exact cons_prefix_cons.mpr ⟨rfl, ih text⟩

theorem piece_append_drop (n : Nat) (text : List α) :
    piece stops n text ++ text.drop (piece stops n text).length = text :=
  prefix_iff_eq_append.mp (piece_prefix_of stops n text)

theorem length_piece_le (n : Nat) (text : List α) : (piece stops n text).length ≤ n := by
  induction n generalizing text with
  | zero => exact Nat.le_refl _
  | succ n ih =>
    cases text with
    | nil => exact Nat.zero_le _
    | cons a text =>
      rw [piece]
      split
      · simp
      · exact Nat.succ_le_succ (ih text)

variable {stops}

theorem piece_eq_nil_iff (hn : 0 < n) : piece stops n text = [] ↔ text = [] := by
  obtain ⟨n, rfl⟩ := Nat.exists_eq_succ_of_ne_zero (Nat.ne_of_gt hn)
  cases text with
  | nil => exact iff_of_true rfl rfl
  | cons a text =>
    rw [piece]
    split <;> simp

theorem stops_of_piece (h : piece stops n text = l ++ [e]) : ∀ a ∈ l, stops a = false := by
  induction n generalizing text l with
  | zero => simp [piece] at h
  | succ n ih =>
    cases text with
    | nil => simp [piece] at h
    | cons b text =>
      cases l with
      | nil => simp
      | cons c l =>
        rw [piece] at h
        split at h
        · simp at h
        next hb =>
          obtain ⟨rfl, htail⟩ := cons.inj (h.trans (cons_append ..))
          intro a ha
          rcases mem_cons.mp ha with rfl | ha
          · simpa using hb
          · exact ih htail a ha

theorem piece_line (hl : ∀ a ∈ l, stops a = false) (he : stops e = true) (hlen : l.length < n) (text : List α) :
    piece stops n (l ++ e :: text) = l ++ [e] := by
  induction l generalizing n with
  | nil =>
    obtain ⟨n, rfl⟩ := Nat.exists_eq_succ_of_ne_zero (Nat.ne_of_gt hlen)
    simp [piece, he]
  | cons b l ih =>
    obtain ⟨n, rfl⟩ := Nat.exists_eq_succ_of_ne_zero (Nat.ne_of_gt (Nat.zero_lt_of_lt hlen))
    simp only [cons_append, piece, hl b (by simp)]
    rw [if_neg nofun, ih (fun a ha => hl a (by simp [ha])) (by simpa using hlen)]

theorem length_drop_piece_lt (stops : α → Bool) (hn : 0 < n) (h : text ≠ []) :
    (text.drop (piece stops n text).length).length < text.length := by
  have hne : 0 < (piece stops n text).length := length_pos_iff.mpr (mt (piece_eq_nil_iff hn).mp h)
  have hpos := length_pos_iff.mpr h
  rw [length_drop]
  omega

theorem flatten_pieces (hn : 0 < n) (h : text.length ≤ fuel) : (pieces stops n fuel text).flatten = text := by
  induction fuel generalizing text with
  | zero => exact (eq_nil_of_length_eq_zero (Nat.le_zero.mp h)).symm
  | succ fuel ih =>
    rw [pieces]
    split
    next hnil => exact ((piece_eq_nil_iff hn).mp hnil).symm
    next hne =>
      have hlt := length_drop_piece_lt stops hn (mt (piece_eq_nil_iff hn).mpr hne)
      rw [flatten_cons, ih (by omega), piece_append_drop]

theorem exists_of_mem_pieces {p : List α} (h : p ∈ pieces stops n fuel text) :
    p ≠ [] ∧ ∃ text', piece stops n text' = p := by
  induction fuel generalizing text with
  | zero => simp [pieces] at h
  | succ fuel ih =>
    rw [pieces] at h
    split at h
    · simp at h
    next hne =>
      rcases mem_cons.mp h with rfl | h
      · exact ⟨hne, text, rfl⟩
      · exact ih h

section Newline

variable {nl : α}

def Whole (stops : α → Bool) (nl : α) (n : Nat) (line : List α) : Prop :=
  ∃ l, line = l ++ [nl] ∧ l.length < n ∧ ∀ a ∈ l, stops a = false

variable {lines : List (List α)}

theorem pieces_lines (hnl : stops nl = true) (hlines : ∀ line ∈ lines, Whole stops nl n line)
    (hfuel : lines.flatten.length ≤ fuel) : pieces stops n fuel lines.flatten = lines := by
  induction lines generalizing fuel with
  | nil => cases fuel <;> cases n <;> rfl
  | cons line lines ih =>
    obtain ⟨l, rfl, hlen, hl⟩ := hlines line mem_cons_self
    have hfirst := piece_line hl hnl hlen lines.flatten
    rw [flatten_cons, append_assoc, singleton_append] at hfuel ⊢
    rw [length_append, length_cons] at hfuel
    obtain ⟨fuel, rfl⟩ := Nat.exists_eq_succ_of_ne_zero (n := fuel) (by omega)
    rw [pieces, hfirst, if_neg (by simp), length_append, length_singleton, ← drop_drop,
      drop_left, drop_one, tail_cons, ih (fun line h => hlines line (mem_cons_of_mem _ h)) (by omega)]

variable [DecidableEq α]

theorem count_piece_le (hnl : stops nl = true) {p : List α} (h : p ∈ pieces stops n fuel text) : p.count nl ≤ 1 := by
  obtain ⟨hne, text', hp⟩ := exists_of_mem_pieces h
  obtain ⟨l, e, rfl⟩ := (eq_nil_or_concat' p).resolve_left hne
  have hl := stops_of_piece hp
  have hzero : l.count nl = 0 := count_eq_zero.mpr fun hmem => by simp [hl nl hmem] at hnl
  rw [count_append, count_singleton]
  split <;> omega

theorem count_flatten_le {ps : List (List α)} (h : ∀ p ∈ ps, p.count nl ≤ 1) : ps.flatten.count nl ≤ ps.length := by
  induction ps with
  | nil => exact Nat.le_refl _
  | cons p ps ih =>
    have hp := h p mem_cons_self
    have := ih fun q hq => h q (mem_cons_of_mem _ hq)
    rw [flatten_cons, count_append, length_cons]
    omega

theorem count_lines (h : ∀ line ∈ lines, ∃ l, line = l ++ [nl] ∧ nl ∉ l) : lines.flatten.count nl = lines.length := by
  induction lines with
  | nil => rfl
  | cons line lines ih =>
    obtain ⟨l, rfl, hl⟩ := h line mem_cons_self
    rw [flatten_cons, count_append, count_append, count_eq_zero.mpr hl,
      ih fun line hmem => h line (mem_cons_of_mem _ hmem), count_singleton_self, length_cons]
    omega

theorem append_cons_inj {l₁ l₂ r₁ r₂ : List α} (h₁ : nl ∉ l₁) (h₂ : nl ∉ l₂) (h : l₁ ++ nl :: r₁ = l₂ ++ nl :: r₂) :
    l₁ = l₂ ∧ r₁ = r₂ := by
  have hlen := congrArg (idxOf nl) h
  rw [idxOf_append_of_notMem h₁, idxOf_append_of_notMem h₂, idxOf_cons_self, idxOf_cons_self] at hlen
  obtain ⟨rfl, hcons⟩ := append_inj h hlen
  exact ⟨rfl, (cons.inj hcons).2⟩

theorem whole_of_length_pieces_le (hnl : stops nl = true) (hn : 0 < n)
    (hlines : ∀ line ∈ lines, ∃ l, line = l ++ [nl] ∧ nl ∉ l) (hfuel : lines.flatten.length ≤ fuel)
    (hlen : (pieces stops n fuel lines.flatten).length ≤ lines.length) : ∀ line ∈ lines, Whole stops nl n line := by
  induction lines generalizing fuel with
  | nil => simp
  | cons line lines ih =>
    obtain ⟨l, rfl, hl⟩ := hlines line mem_cons_self
    have hcount := count_lines hlines
    have hne : ((l ++ [nl]) :: lines).flatten ≠ [] := by simp
    generalize htext : ((l ++ [nl]) :: lines).flatten = text at hfuel hlen hcount hne
    obtain ⟨fuel, rfl⟩ := Nat.exists_eq_succ_of_ne_zero (n := fuel)
      (Nat.ne_of_gt (Nat.lt_of_lt_of_le (length_pos_iff.mpr hne) hfuel))
    have hsplit := piece_append_drop stops n text
    have hlt := length_drop_piece_lt stops hn hne
    rw [pieces, if_neg (mt (piece_eq_nil_iff hn).mp hne), length_cons, length_cons] at hlen
    by_cases hmem : nl ∈ piece stops n text
    · -- the first piece ends where the first line does
      obtain ⟨l', e, hp⟩ := (eq_nil_or_concat' (piece stops n text)).resolve_left (ne_nil_of_mem hmem)
      have hl' := stops_of_piece hp
      have hnot : nl ∉ l' := fun h => by simp [hl' nl h] at hnl
      rw [hp, mem_append, or_iff_right hnot, mem_singleton] at hmem
      subst hmem
      have hlength := length_piece_le stops n text
      rw [hp] at hsplit hlength hlen
      rw [append_assoc, singleton_append] at hsplit
      have hjoin : text = l ++ nl :: lines.flatten := by simp [← htext]
      obtain ⟨rfl, hdrop⟩ := append_cons_inj hnot hl (hsplit.trans hjoin)
      intro line hline
      rcases mem_cons.mp hline with rfl | hline
      · exact ⟨l', rfl, by simpa [Nat.succ_le_iff] using hlength, hl'⟩
      · rw [hp] at hlt
        rw [hdrop] at hlt hlen
        have hfuel' : lines.flatten.length ≤ fuel := by omega
        exact ih (fun line h => hlines line (mem_cons_of_mem _ h)) hfuel' (by omega) line hline
    · -- otherwise the other pieces are too few for the ends of the lines
      have hrest : _ ≤ (pieces stops n fuel (text.drop (piece stops n text).length)).length :=
        count_flatten_le fun p => count_piece_le hnl
      rw [flatten_pieces hn (by omega)] at hrest
      rw [← hsplit, count_append, count_eq_zero.mpr hmem, length_cons] at hcount
      omega

end Newline

end Lines
