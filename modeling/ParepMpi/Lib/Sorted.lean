import ParepMpi.Lib.Queue

/-!
# Linked lists in the order of a key

A list with links both ways and a pointer to its first node, kept with the largest key first.
-/

namespace LinkedList

open List Option Function

variable {α : Type*}

structure Links (α : Type*) where
  next : α → α
  prev : α → α
  first : α

namespace Links

def Holds (null : α) (s : Links α) (l : List α) : Prop := ∃ tail, Queue.Holds null ⟨s.next, s.prev, s.first, tail⟩ l

variable [DecidableEq α]

/-- The walk to the place of a key: on to the next node while the key is not larger and there is one. -/
def walk (null : α) (s : Links α) (key : α → Int) (k : Int) : Nat → α → Option α
  | 0, _ => none
  | fuel + 1, temp => if k ≤ key temp ∧ s.next temp ≠ null then walk null s key k fuel (s.next temp) else some temp

def before (null : α) (s : Links α) (a temp : α) : Links α where
  next := if s.prev temp ≠ null then update (update s.next a temp) (s.prev temp) a
    else update s.next a temp
  prev := update (update s.prev a (s.prev temp)) temp a
  first := if s.prev temp ≠ null then s.first else a

def behind (null : α) (s : Links α) (a temp : α) : Links α where
  next := update (update s.next a null) temp a
  prev := update s.prev a temp
  first := s.first

def insert (null : α) (s : Links α) (key : α → Int) (fuel : Nat) (a : α) : Option (Links α) :=
  if s.first = null then
    some ⟨update s.next a null, update s.prev a null, a⟩
  else
    (s.walk null key (key a) fuel s.first).bind fun temp =>
      if key temp < key a then some (s.before null a temp) else some (s.behind null a temp)

def visit {β : Type*} (null : α) (s : Links α) (f : β → α → β) : Nat → α → β → Option β
  | 0, _, _ => none
  | fuel + 1, c, b => if c = null then some b else visit null s f fuel (s.next c) (f b c)

def unlink (null : α) (s : Links α) (c : α) : Links α where
  next := if s.prev c ≠ null then update s.next (s.prev c) (s.next c) else s.next
  prev := if s.next c ≠ null then update s.prev (s.next c) (s.prev c) else s.prev
  first := if c = s.first then s.next s.first else s.first

def sweep (null : α) (marked : α → Bool) : Nat → α → Links α → Option (Links α)
  | 0, _, _ => none
  | fuel + 1, c, s =>
    if c = null then some s
    else if marked c then sweep null marked fuel (s.next c) (s.unlink null c)
    else sweep null marked fuel (s.next c) s

variable {null : α} {s : Links α} {l l₁ l₂ : List α} {a c t : α} {key : α → Int} {k : Int} {fuel : Nat}

omit [DecidableEq α] in
theorem Holds.nodup (h : s.Holds null l) : l.Nodup := by
  obtain ⟨tail, h⟩ := h
  exact h.nodup

omit [DecidableEq α] in
theorem Holds.first_eq (h : s.Holds null l) : s.first = l.head?.getD null := by
  obtain ⟨tail, h⟩ := h
  cases l with
  | nil => exact h.seg.2
  | cons a l => exact h.seg.1

omit [DecidableEq α] in
theorem Holds.links (h : s.Holds null (l₁ ++ t :: l₂)) :
    s.next t = l₂.head?.getD null ∧ s.prev t = l₁.getLast?.getD null := by
  obtain ⟨tail, h⟩ := h
  obtain ⟨m, n, h₁, rfl, hpt, h₂⟩ := seg_append.mp h.seg
  constructor
  · cases l₂ with
    | nil => exact h₂.2
    | cons c l₂ => exact h₂.1
  · rw [show s.prev n = m from hpt]
    obtain rfl | ⟨l, c, rfl⟩ := l₁.eq_nil_or_concat
    · exact h₁.1
    · rw [concat_eq_append] at h₁ ⊢
      obtain ⟨m', n', -, rfl, -, hlast⟩ := seg_append.mp h₁
      rw [getLast?_concat]
      exact hlast.1

omit [DecidableEq α] in
theorem Holds.ne_null (h : s.Holds null l) (ha : a ∈ l) : a ≠ null := by
  obtain ⟨tail, h⟩ := h
  exact h.ne_null a ha

theorem Holds.walk (key : α → Int) (k : Int) (l₁ : List α) (h : s.Holds null (l₁ ++ t :: l₂)) (hfuel : l₂.length < fuel) :
    ∃ u r₁ r₂, s.walk null key k fuel t = some u ∧ t :: l₂ = r₁ ++ u :: r₂ ∧ (∀ x ∈ r₁, k ≤ key x)
      ∧ (key u < k ∨ (r₂ = [] ∧ k ≤ key u)) := by
  induction l₂ generalizing l₁ t fuel with
  | nil =>
    obtain ⟨fuel, rfl⟩ : ∃ n, fuel = n + 1 := ⟨fuel - 1, by omega⟩
    have hnext : s.next t = null := h.links.1
    have hend : s.walk null key k (fuel + 1) t = some t := by
      rw [Links.walk, if_neg fun hgo => hgo.2 hnext]
    refine ⟨t, [], [], hend, rfl, fun _ hx => (not_mem_nil hx).elim, ?_⟩
    by_cases hk : k ≤ key t
    · exact .inr ⟨rfl, hk⟩
    · exact .inl (by omega)
  | cons u l₂ ih =>
    obtain ⟨fuel, rfl⟩ : ∃ n, fuel = n + 1 := ⟨fuel - 1, by omega⟩
    have hnext : s.next t = u := h.links.1
    have hu : u ≠ null := h.ne_null (mem_append_right _ (mem_cons_of_mem _ mem_cons_self))
    by_cases hk : k ≤ key t
    · rw [append_cons] at h
      have hrest : l₂.length < fuel := Nat.lt_of_succ_lt_succ hfuel
      obtain ⟨v, r₁, r₂, hwalk, hsplit, hle, hend⟩ := ih (l₁ ++ [t]) h hrest
      refine ⟨v, t :: r₁, r₂, ?_, by rw [hsplit, cons_append], forall_mem_cons.mpr ⟨hk, hle⟩, hend⟩
      rw [Links.walk, if_pos ⟨hk, by rwa [hnext]⟩, hnext, hwalk]
    · refine ⟨t, [], u :: l₂, ?_, rfl, fun _ hx => (not_mem_nil hx).elim, .inl (by omega)⟩
      rw [Links.walk, if_neg fun hgo => hk hgo.1]

theorem Holds.before (h : s.Holds null (l₁ ++ t :: l₂)) (hne : a ≠ null) (hnot : a ∉ l₁ ++ t :: l₂) :
    (s.before null a t).Holds null (l₁ ++ a :: t :: l₂) := by
  obtain ⟨tail, h⟩ := h
  obtain ⟨hnodup₁, hnodup, hdisj⟩ := nodup_append.mp h.nodup
  obtain ⟨hnotT, hnodup₂⟩ := nodup_cons.mp hnodup
  obtain ⟨m, n, h₁, rfl, hpt, h₂⟩ := seg_append.mp h.seg
  have hm : s.prev n = m := hpt
  have hnotL : a ∉ l₁ := fun hmem => hnot (mem_append_left _ hmem)
  have han : a ≠ n := fun heq => hnot (heq ▸ mem_append_right _ mem_cons_self)
  have hnotR : a ∉ l₂ := fun hmem => hnot (mem_append_right _ (mem_cons_of_mem _ hmem))
  have hprev' : (s.before null a n).prev = update (update s.prev a m) n a := by
    rw [Links.before, hm]
  have hpa : (s.before null a n).prev a = m := by
    rw [hprev', update_of_ne han, update_self]
  have hpn : (s.before null a n).prev n = a := by
    rw [hprev', update_self]
  have hpx : ∀ x, x ≠ a → x ≠ n → (s.before null a n).prev x = s.prev x := by
    intro x hxa hxn
    rw [hprev', update_of_ne hxn, update_of_ne hxa]
  have hleft : ∀ x ∈ l₁, x ≠ a ∧ x ≠ n := fun x hx =>
    ⟨fun heq => hnotL (heq ▸ hx), hdisj x hx n mem_cons_self⟩
  have hright : ∀ x ∈ l₂, x ≠ a ∧ x ≠ n ∧ x ∉ l₁ := fun x hx =>
    ⟨fun heq => hnotR (heq ▸ hx), fun heq => hnotT (heq ▸ hx), fun hx₁ => hdisj x hx₁ x (mem_cons_of_mem _ hx) rfl⟩
  have hsub : (l₁ ++ a :: n :: l₂).Nodup := by
    rw [nodup_append, nodup_cons]
    refine ⟨hnodup₁, ⟨fun hmem => ?_, hnodup⟩, ?_⟩
    · obtain heq | hmem := mem_cons.mp hmem
      · exact han heq
      · exact hnotR hmem
    · intro x hx y hy heq
      obtain rfl | hy := mem_cons.mp hy
      · exact (hleft x hx).1 heq
      · exact hdisj x hx y hy heq
  have hnull : ∀ x ∈ l₁ ++ a :: n :: l₂, x ≠ null := by
    intro x hx
    obtain hx | hx := mem_append.mp hx
    · exact h.ne_null x (mem_append_left _ hx)
    · obtain rfl | hx := mem_cons.mp hx
      · exact hne
      · exact h.ne_null x (mem_append_right _ hx)
  by_cases hl : l₁ = []
  · -- The new node comes first.
    subst hl
    have hm : s.prev n = null := hm.trans h₁.1
    have hn : (s.before null a n).next = update s.next a n := if_neg (not_not.mpr hm)
    have hf : (s.before null a n).first = a := if_neg (not_not.mpr hm)
    refine ⟨tail, ⟨hf, hpa.trans h₁.1, ?_, hpn, ?_⟩, hnull, hsub⟩
    · show (s.before null a n).next a = n
      rw [hn, update_self]
    · show Seg (s.before null a n).next (s.before null a n).prev n ((s.before null a n).next n) l₂ tail null
      rw [hn, update_of_ne han.symm]
      exact h₂.congr (fun x hx => update_of_ne (hright x hx).1 _ _) fun x hx => hpx x (hright x hx).1 (hright x hx).2.1
  · have hmem : m ∈ l₁ := h₁.last_mem hl
    have hmnull : s.prev n ≠ null := hm ▸ h.ne_null m (mem_append_left _ hmem)
    have hn : (s.before null a n).next = update (update s.next a n) m a := by
      rw [Links.before, if_pos hmnull, hm]
    have hf : (s.before null a n).first = s.first := if_pos hmnull
    have ham : a ≠ m := fun heq => hnotL (heq ▸ hmem)
    have hnx : ∀ x, x ≠ a → x ≠ m → (s.before null a n).next x = s.next x := by
      intro x hxa hxm
      rw [hn, update_of_ne hxm, update_of_ne hxa]
    refine ⟨tail, seg_append.mpr ⟨m, a, ?_, rfl, hpa, ?_, hpn, ?_⟩, hnull, hsub⟩
    · show Seg (s.before null a n).next (s.before null a n).prev null (s.before null a n).first l₁ m a
      rw [hf]
      apply h₁.retarget hl hnodup₁
      · rw [hn, update_self]
      · intro x hx hxm
        exact hnx x (hleft x hx).1 hxm
      · intro x hx
        exact hpx x (hleft x hx).1 (hleft x hx).2
    · show (s.before null a n).next a = n
      rw [hn, update_of_ne ham, update_self]
    · show Seg (s.before null a n).next (s.before null a n).prev n ((s.before null a n).next n) l₂ tail null
      rw [hnx n han.symm fun heq => hdisj m hmem n mem_cons_self heq.symm]
      apply h₂.congr
      · intro x hx
        exact hnx x (hright x hx).1 fun heq => (hright x hx).2.2 (heq ▸ hmem)
      · intro x hx
        exact hpx x (hright x hx).1 (hright x hx).2.1

theorem Holds.behind (h : s.Holds null (l₁ ++ [t])) (hne : a ≠ null) (hnot : a ∉ l₁ ++ [t]) :
    (s.behind null a t).Holds null (l₁ ++ [t] ++ [a]) := by
  obtain ⟨tail, h⟩ := h
  obtain ⟨m, n, -, rfl, -, hlast, -⟩ := seg_append.mp h.seg
  obtain rfl : tail = n := hlast
  have htail : tail ≠ null := h.ne_null tail (mem_append_right _ mem_cons_self)
  have hins := h.insert hne hnot
  rw [Queue.insert, if_neg htail, if_neg htail] at hins
  exact ⟨a, hins⟩

theorem Holds.insert (key : α → Int) (h : s.Holds null l) (hne : a ≠ null) (hnot : a ∉ l) (hfuel : l.length < fuel) :
    ∃ s' l₁ l₂, s.insert null key fuel a = some s' ∧ l = l₁ ++ l₂ ∧ s'.Holds null (l₁ ++ a :: l₂)
      ∧ (∀ x ∈ l₁, key a ≤ key x) ∧ ∀ x ∈ l₂.head?, key x < key a := by
  cases l with
  | nil =>
    have hfirst : s.first = null := h.first_eq
    refine ⟨_, [], [], if_pos hfirst, rfl, ⟨a, ⟨rfl, update_self .., rfl, update_self ..⟩, ?_,
      nodup_singleton a⟩, fun _ hx => (not_mem_nil hx).elim, fun _ hx => (not_mem_none _ hx).elim⟩
    intro x hx
    rwa [mem_singleton.mp hx]
  | cons b l =>
    have hfirst : s.first = b := h.first_eq
    have hb : s.first ≠ null := hfirst ▸ h.ne_null mem_cons_self
    have hlen : l.length < fuel := Nat.lt_of_succ_lt hfuel
    obtain ⟨t, r₁, r₂, hwalk, hsplit, hle, hend⟩ := h.walk key (key a) [] hlen
    rw [hsplit] at h hnot
    have hinsert : s.insert null key fuel a
        = if key t < key a then some (s.before null a t) else some (s.behind null a t) := by
      rw [Links.insert, if_neg hb, hfirst, hwalk, bind_some]
    obtain hlt | ⟨rfl, hge⟩ := hend
    · refine ⟨_, r₁, t :: r₂, hinsert.trans (if_pos hlt), hsplit, h.before hne hnot, hle, ?_⟩
      intro x hx
      obtain rfl := mem_some_iff.mp hx
      exact hlt
    · refine ⟨_, r₁ ++ [t], [], hinsert.trans (if_neg (by omega)), by rw [hsplit, append_nil],
        h.behind hne hnot, ?_, fun _ hx => (not_mem_none _ hx).elim⟩
      intro x hx
      obtain hx | hx := mem_append.mp hx
      · exact hle x hx
      · rwa [mem_singleton.mp hx]

variable {β : Type*}

theorem Holds.visit_from (f : β → α → β) (b : β) (h : s.Holds null (l₁ ++ l₂)) (hfuel : l₂.length < fuel) :
    s.visit null f fuel (l₂.head?.getD null) b = some (l₂.foldl f b) := by
  induction l₂ generalizing l₁ fuel b with
  | nil =>
    obtain ⟨fuel, rfl⟩ : ∃ n, fuel = n + 1 := ⟨fuel - 1, by omega⟩
    exact if_pos rfl
  | cons c l₂ ih =>
    obtain ⟨fuel, rfl⟩ : ∃ n, fuel = n + 1 := ⟨fuel - 1, by omega⟩
    have hc : c ≠ null := h.ne_null (mem_append_right _ mem_cons_self)
    have hnext := h.links.1
    rw [append_cons] at h
    show s.visit null f (fuel + 1) c b = _
    rw [Links.visit, if_neg hc, hnext]
    exact ih (f b c) h (Nat.lt_of_succ_lt_succ hfuel)

theorem Holds.visit (f : β → α → β) (b : β) (h : s.Holds null l) (hfuel : l.length < fuel) :
    s.visit null f fuel s.first b = some (l.foldl f b) := by
  rw [h.first_eq]
  exact Holds.visit_from f b (nil_append l ▸ h) hfuel

theorem Holds.unlink (h : s.Holds null l) (hc : c ∈ l) : (s.unlink null c).Holds null (l.erase c) := by
  obtain ⟨l₁, l₂, rfl⟩ := append_of_mem hc
  have hprev := h.links.2
  have hfirst := h.first_eq
  have hnodup := h.nodup
  have hprevNull : ∀ x ∈ l₁.getLast?, x ≠ null := fun x hx =>
    h.ne_null (mem_append_left _ (mem_of_getLast? hx))
  obtain ⟨tail, h⟩ := h
  have hdel := h.delete hc
  -- The node has nothing before it exactly if it is the first.
  have hhead : (s.unlink null c).first = if s.prev c ≠ null then s.first else s.next c := by
    cases l₁ with
    | nil =>
      have hc : s.first = c := hfirst
      have hnull : s.prev c = null := hprev
      unfold Links.unlink
      dsimp only
      rw [if_pos hc.symm, hc, if_neg (not_not.mpr hnull)]
    | cons b l₁ =>
      have hb : s.first = b := hfirst
      have hcb : c ≠ b := fun heq => by
        rw [heq] at hnodup
        exact (nodup_cons.mp hnodup).1 (mem_append_right _ mem_cons_self)
      have hne : s.prev c ≠ null := by
        rw [hprev, getLast?_eq_some_getLast (cons_ne_nil b l₁)]
        exact hprevNull _ (getLast?_eq_some_getLast (cons_ne_nil b l₁))
      unfold Links.unlink
      dsimp only
      rw [hb, if_neg hcb, if_pos hne]
  refine ⟨(Queue.delete null ⟨s.next, s.prev, s.first, tail⟩ c).tail, ?_⟩
  rw [hhead]
  exact hdel

theorem Holds.sweep_from (marked : α → Bool) (h : s.Holds null (l₁ ++ l₂)) (hfuel : l₂.length < fuel) :
    ∃ s', Links.sweep null marked fuel (l₂.head?.getD null) s = some s'
      ∧ s'.Holds null (l₁ ++ l₂.filter fun x => !marked x) := by
  induction l₂ generalizing l₁ s fuel with
  | nil =>
    obtain ⟨fuel, rfl⟩ : ∃ n, fuel = n + 1 := ⟨fuel - 1, by omega⟩
    exact ⟨s, if_pos rfl, h⟩
  | cons c l₂ ih =>
    obtain ⟨fuel, rfl⟩ : ∃ n, fuel = n + 1 := ⟨fuel - 1, by omega⟩
    have hrestLen : l₂.length < fuel := Nat.lt_of_succ_lt_succ hfuel
    have hc : c ≠ null := h.ne_null (mem_append_right _ mem_cons_self)
    have hnext := h.links.1
    show ∃ s', Links.sweep null marked (fuel + 1) c s = some s' ∧ _
    rw [Links.sweep, if_neg hc, hnext]
    cases hm : marked c with
    | true =>
      have hnot : c ∉ l₁ := fun hmem => by
        obtain ⟨-, -, hdisj⟩ := nodup_append.mp h.nodup
        exact hdisj c hmem c mem_cons_self rfl
      have hrest := h.unlink (mem_append_right _ mem_cons_self)
      rw [erase_append_right _ hnot, erase_cons_head] at hrest
      rw [filter_cons_of_neg (by simp [hm])]
      exact ih hrest hrestLen
    | false =>
      rw [append_cons] at h
      rw [filter_cons_of_pos (by simp [hm])]
      obtain ⟨s', hs', hholds⟩ := ih h hrestLen
      rw [append_assoc] at hholds
      exact ⟨s', hs', hholds⟩

theorem Holds.sweep (marked : α → Bool) (h : s.Holds null l) (hfuel : l.length < fuel) :
    ∃ s', Links.sweep null marked fuel s.first s = some s' ∧ s'.Holds null (l.filter fun x => !marked x) := by
  rw [h.first_eq]
  exact Holds.sweep_from marked (nil_append l ▸ h) hfuel

end Links

section

variable {key : α → Int} {a : α} {l₁ l₂ : List α}

theorem pairwise_insert (h : (l₁ ++ l₂).Pairwise fun x y => key y < key x) (hnew : ∀ x ∈ l₁ ++ l₂, key x ≠ key a)
    (hle : ∀ x ∈ l₁, key a ≤ key x) (hlt : ∀ x ∈ l₂.head?, key x < key a) :
    (l₁ ++ a :: l₂).Pairwise fun x y => key y < key x := by
  obtain ⟨h₁, h₂, h₁₂⟩ := pairwise_append.mp h
  have hright : ∀ x ∈ l₂, key x < key a := by
    intro x hx
    cases l₂ with
    | nil => cases hx
    | cons b l₂ =>
      have hb := hlt b rfl
      obtain rfl | hx := mem_cons.mp hx
      · exact hb
      · have hxb := (pairwise_cons.mp h₂).1 x hx
        omega
  refine pairwise_append.mpr ⟨h₁, pairwise_cons.mpr ⟨hright, h₂⟩, ?_⟩
  intro x hx y hy
  obtain rfl | hy := mem_cons.mp hy
  · have hxle := hle x hx
    have hxne := hnew x (mem_append_left _ hx)
    omega
  · exact h₁₂ x hx y hy

end

end LinkedList
