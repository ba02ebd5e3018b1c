import Mathlib.Data.List.Forall2

/-!
# Collective exchanges

A collective operation of the message passing standard, seen from one of the processes that issue it, says for every
process on the other side what bytes go there and where the bytes that come from there are put.
-/

namespace Exchange

open List Option

variable {κ π β : Type*}

/-- Bytes of a buffer in the order in which they are moved: the byte `o` is at `start + shape o`. -/
structure Region where
  start : Int
  size : Nat
  shape : Nat → Int

/-- Consecutive bytes. -/
def Region.bytes (start : Int) (size : Nat) : Region := ⟨start, size, fun o => o⟩

def contents (buf : Int → Option β) (r : Region) : List (Option β) :=
  (range r.size).map fun o => buf (r.start + r.shape o)

theorem contents_bytes (buf : Int → Option β) (a : Int) (n : Nat) :
    contents buf (.bytes a n) = (range n).map fun o : Nat => buf (a + o) := rfl

def freed : Int → Option β := fun _ => none

def copied (buf : Int → Option β) (n : Nat) : Int → Option β :=
  fun o => if 0 ≤ o ∧ o < n then buf o else none

/-- The bytes written one after the other from the start of a buffer. -/
def filled (bytes : List (Option β)) : Int → Option β :=
  fun o => if 0 ≤ o then (bytes[o.toNat]?).join else none

theorem contents_length (buf : Int → Option β) (r : Region) : (contents buf r).length = r.size := by
  simp [contents]

theorem contents_congr {buf buf' : Int → Option β} {r r' : Region} (hsize : r.size = r'.size)
    (heq : ∀ o < r.size, buf (r.start + r.shape o) = buf' (r'.start + r'.shape o)) :
    contents buf r = contents buf' r' := by
  rw [contents, contents, ← hsize]
  apply map_congr_left
  intro o ho
  exact heq o (mem_range.mp ho)

theorem contents_copied (buf : Int → Option β) {n k : Nat} {a : Int} (h0 : 0 ≤ a) (hn : a + k ≤ n) :
    contents (copied buf n) (.bytes a k) = contents buf (.bytes a k) := by
  apply contents_congr rfl
  intro o (ho : o < k)
  show copied buf n (a + o) = _
  exact if_pos ⟨by omega, by omega⟩

theorem contents_copied_self (buf : Int → Option β) (n : Nat) :
    contents (copied buf n) (.bytes 0 n) = contents buf (.bytes 0 n) :=
  contents_copied buf (Int.le_refl 0) (Int.le_of_eq (Int.zero_add _))

theorem contents_filled (f : Nat → List (Option β)) {n k : Nat} (hk : k < n) :
    contents (filled ((range n).flatMap f)) (.bytes ((range k).flatMap f).length (f k).length) = f k := by
  have hblock : ∀ o, o < (f k).length → ((range n).flatMap f)[((range k).flatMap f).length + o]? = (f k)[o]? := by
    intro o ho
    -- what comes before the block has the length of its displacement
    obtain ⟨d, rfl⟩ : ∃ d, n = k + (1 + d) := ⟨n - k - 1, by omega⟩
    rw [range_add, flatMap_append, getElem?_append_right (Nat.le_add_right _ _),
      Nat.add_sub_cancel_left, range_add, map_append, flatMap_append,
      getElem?_append_left (by simpa using ho)]
    simp
  apply ext_getElem?
  intro o
  by_cases ho : o < (f k).length
  · have hnonneg : (0 : Int) ≤ (((range k).flatMap f).length : Nat) + (o : Nat) := by omega
    simp only [contents_bytes, getElem?_map, getElem?_range ho, map_some, filled, if_pos hnonneg]
    rw [show ((((range k).flatMap f).length : Nat) + (o : Nat) : Int).toNat =
      ((range k).flatMap f).length + o by omega, hblock o ho, getElem?_eq_getElem ho,
      join_some]
  · rw [getElem?_eq_none (by rw [contents_length]; exact Nat.le_of_not_lt ho), getElem?_eq_none (by omega)]

/-- The `root` argument of an operation: a rank, or between two groups also the root itself and the
processes beside it. -/
inductive RootArg where
  | rank (r : Int)
  | root
  | procNull
  deriving DecidableEq, Repr

/-- Whether the process is the root. -/
def RootArg.isRoot (me : Option Int) : RootArg → Bool
  | .rank r => me == some r
  | .root => true
  | .procNull => false

/-- Whether the process with rank `p` on the other side is the root. -/
def RootArg.names (arg : RootArg) (p : Nat) : Bool := arg == .rank p

namespace RootArg

theorem isRoot_ite (P : Prop) [Decidable P] : (if P then root else procNull).isRoot none = decide P := by
  by_cases h : P <;> simp [h, isRoot]

theorem names_rank (r : Int) (p : Nat) : (rank r).names p = decide (r = p) := by
  by_cases h : r = p <;> simp [names, h]

end RootArg

/-- An operation as one process issues it: for each rank on the other side the bytes it gives and where
it puts the bytes it takes. -/
structure Op (κ β : Type*) where
  comm : κ
  gives : Nat → List (Option β)
  takes : Nat → Option Region

def block (buf : Int → Option β) (blocks : List Region) (p : Nat) : List (Option β) :=
  (blocks[p]?).elim [] (contents buf)

theorem block_freed {blocks : List Region} {p : Nat} {v : Option β} (hv : v ∈ block freed blocks p) : v = none := by
  unfold block at hv
  cases hr : blocks[p]? with
  | none => simp [hr] at hv
  | some r =>
    rw [hr, elim_some, contents, List.mem_map] at hv
    obtain ⟨_, _, rfl⟩ := hv
    rfl

/-- The bytes go to `dest`, or to a buffer that is not the one looked at. -/
@[simps comm]
def bcast (comm : κ) (me : Option Int) (buf : Int → Option β) (r : Region) (dest : Option Region)
    (arg : RootArg) : Op κ β where
  comm := comm
  gives := fun _ => if arg.isRoot me then contents buf r else []
  takes := fun p => if arg.names p ∧ ¬ arg.isRoot me then dest else none

@[simps comm]
def scatterv (comm : κ) (me : Option Int) (buf : Int → Option β) (blocks : List Region) (r : Region)
    (arg : RootArg) : Op κ β where
  comm := comm
  gives := fun p => if arg.isRoot me then block buf blocks p else []
  takes := fun p => if arg.names p then some r else none

@[simps comm]
def gatherv (comm : κ) (me : Option Int) (buf : Int → Option β) (r : Region) (blocks : List Region)
    (arg : RootArg) : Op κ β where
  comm := comm
  gives := fun p => if arg.names p then contents buf r else []
  takes := fun p => if arg.isRoot me then blocks[p]? else none

@[simps comm]
def allgatherv (comm : κ) (buf : Int → Option β) (r : Region) (blocks : List Region) : Op κ β where
  comm := comm
  gives := fun _ => contents buf r
  takes := fun p => blocks[p]?

@[simps comm]
def alltoallv (comm : κ) (buf : Int → Option β) (sblocks rblocks : List Region) : Op κ β where
  comm := comm
  gives := block buf sblocks
  takes := fun p => rblocks[p]?

section Transfer

variable {x x' y y' : Op κ β} {p q : Nat} {w : Int × Option β}

/-- The bytes that a process takes by `x` from the process of rank `p`, when that issues `y` and knows it by the rank
`q`. -/
def transfer (x y : Op κ β) (p q : Nat) : List (Int × Option β) :=
  (x.takes p).elim [] fun r =>
    if (y.gives q).length = r.size then (y.gives q).mapIdx fun o v => (r.start + r.shape o, v) else []

theorem mem_transfer :
    w ∈ transfer x y p q ↔ ∃ (r : Region) (t : Nat), x.takes p = some r ∧ (y.gives q).length = r.size ∧
      (y.gives q)[t]? = some w.2 ∧ w.1 = r.start + r.shape t := by
  unfold transfer
  cases hr : x.takes p with
  | none => simp
  | some r =>
    rw [elim_some]
    by_cases hlen : (y.gives q).length = r.size
    · rw [if_pos hlen, mem_mapIdx]
      constructor
      · rintro ⟨t, ht, rfl⟩
        exact ⟨r, t, rfl, hlen, getElem?_eq_getElem ht, rfl⟩
      · rintro ⟨r', t, hr', _, ht, hw⟩
        obtain ⟨hlt, hget⟩ := List.getElem?_eq_some_iff.mp ht
        refine ⟨t, hlt, ?_⟩
        rw [hget, Option.some.inj hr', ← hw]
    · rw [if_neg hlen]
      simp only [not_mem_nil, false_iff]
      rintro ⟨r', t, hr', hlen', _⟩
      exact hlen (hlen'.trans (by rw [Option.some.inj hr']))

/-- Operations that move the same bytes: they may differ in where an empty block would go. -/
structure Agree (x y : Op κ β) : Prop where
  comm : x.comm = y.comm
  gives : x.gives = y.gives
  takes : ∀ p, x.takes p = y.takes p ∨ ∃ r r', x.takes p = some r ∧ y.takes p = some r' ∧ r.size = 0 ∧ r'.size = 0

theorem Agree.symm (h : Agree x y) : Agree y x where
  comm := h.comm.symm
  gives := h.gives.symm
  takes := by
    intro p
    rcases h.takes p with heq | ⟨r, r', hr, hr', h0, h0'⟩
    · exact .inl heq.symm
    · exact .inr ⟨r', r, hr', hr, h0', h0⟩

theorem Agree.of_eq (hcomm : x.comm = y.comm) (hgives : x.gives = y.gives) (htakes : x.takes = y.takes) : Agree x y :=
  ⟨hcomm, hgives, fun p => .inl (by rw [htakes])⟩

theorem transfer_agree (hx : Agree x x') (hy : Agree y y') (p q : Nat) : transfer x y p q = transfer x' y' p q := by
  unfold transfer
  rw [hy.gives]
  rcases hx.takes p with heq | ⟨r, r', hr, hr', h0, h0'⟩
  · rw [heq]
  · rw [hr, hr', elim_some, elim_some, h0, h0']
    cases y'.gives q <;> simp

theorem block_congr {γ : Type*} {l : List γ} {buf buf' : Int → Option β} {f g : γ → Region}
    (h : ∀ c ∈ l, contents buf (f c) = contents buf' (g c)) :
    block buf (l.map f) = block buf' (l.map g) := by
  funext p
  rw [block, block, getElem?_map, getElem?_map]
  cases hc : l[p]? with
  | none => rfl
  | some c => exact h c (mem_of_getElem? hc)

theorem takes_congr {γ : Type*} {l : List γ} {f g : γ → Region}
    (h : ∀ c ∈ l, f c = g c ∨ (f c).size = 0 ∧ (g c).size = 0) (p : Nat) : (l.map f)[p]? = (l.map g)[p]? ∨
      ∃ r r', (l.map f)[p]? = some r ∧ (l.map g)[p]? = some r' ∧ r.size = 0 ∧ r'.size = 0 := by
  rw [getElem?_map, getElem?_map]
  cases hc : l[p]? with
  | none => exact .inl rfl
  | some c =>
    rcases h c (mem_of_getElem? hc) with heq | hzero
    · exact .inl (congrArg some heq)
    · exact .inr ⟨f c, g c, rfl, rfl, hzero⟩

theorem gatherv_copied (comm : κ) (me : Option Int) (buf : Int → Option β) (n : Nat) (blocks : List Region)
    (arg : RootArg) :
    Agree (gatherv comm me (copied buf n) (.bytes 0 n) blocks arg) (gatherv comm me buf (.bytes 0 n) blocks arg) := by
  refine Agree.of_eq rfl ?_ rfl
  funext p
  simp only [gatherv, contents_copied_self]

theorem allgatherv_copied (comm : κ) (buf : Int → Option β) (n : Nat) (blocks : List Region) :
    Agree (allgatherv comm (copied buf n) (.bytes 0 n) blocks) (allgatherv comm buf (.bytes 0 n) blocks) := by
  refine Agree.of_eq rfl ?_ rfl
  funext p
  simp only [allgatherv, contents_copied_self]

end Transfer

section World

variable [DecidableEq κ] [DecidableEq π] {peers : κ → π → List π} {ops ops' : π → List (Op κ β)}
  {x y : Op κ β} {i a : π} {p : Nat} {w : Int × Option β}

def onComm (ops : List (Op κ β)) (c : κ) : List (Op κ β) := ops.filter fun x => x.comm = c

/-- The bytes written into the receive buffer of the process `i`, with their offsets. -/
def landings (peers : κ → π → List π) (ops : π → List (Op κ β)) (i : π) : List (Int × Option β) :=
  (ops i).zipIdx.flatMap fun (x, n) =>
    (peers x.comm i).zipIdx.flatMap fun (a, p) =>
      ((onComm (ops a) x.comm)[(onComm ((ops i).take n) x.comm).length]?).elim []
        fun y => transfer x y p ((peers x.comm a).idxOf i)

/-- Every operation is issued on both sides, so that it completes. -/
def Matched (peers : κ → π → List π) (ops : π → List (Op κ β)) (procs : List π) : Prop :=
  ∀ i ∈ procs, ∀ c, ∀ j ∈ peers c i, (onComm (ops i) c).length = (onComm (ops j) c).length

theorem mem_landings : w ∈ landings peers ops i ↔ ∃ n x p a y, (ops i)[n]? = some x ∧ (peers x.comm i)[p]? = some a ∧
      (onComm (ops a) x.comm)[(onComm ((ops i).take n) x.comm).length]? = some y ∧
      w ∈ transfer x y p ((peers x.comm a).idxOf i) := by
  simp only [landings, mem_flatMap, Prod.exists, mem_zipIdx_iff_getElem?]
  constructor
  · rintro ⟨x, n, hx, a, p, ha, hw⟩
    cases hy : (onComm (ops a) x.comm)[(onComm ((ops i).take n) x.comm).length]? with
    | none => simp [hy] at hw
    | some y => exact ⟨n, x, p, a, y, hx, ha, hy, by simpa [hy] using hw⟩
  · rintro ⟨n, x, p, a, y, hx, ha, hy, hw⟩
    exact ⟨x, n, hx, a, p, ha, by simpa [hy] using hw⟩

theorem onComm_length (ops : List (Op κ β)) (c : κ) : (onComm ops c).length = (ops.map Op.comm).count c := by
  rw [onComm, count, countP_map, countP_eq_length_filter]
  congr 2

theorem mem_landings_first (hi : (ops i).head? = some x) (ha : (ops a).head? = some y)
    (hcomm : y.comm = x.comm) (hp : (peers x.comm i)[p]? = some a)
    (hw : w ∈ transfer x y p ((peers x.comm a).idxOf i)) : w ∈ landings peers ops i := by
  obtain ⟨rest, hrest⟩ := head?_eq_some_iff.mp ha
  refine mem_landings.mpr ⟨0, x, p, a, y, by rwa [← head?_eq_getElem?], hp, ?_, hw⟩
  simp [hrest, onComm, hcomm]

theorem mem_landings_single (peers : κ → π → List π) (ops : π → List (Op κ β)) {y : π → Op κ β} (hi : ops i = [x])
    (hops : ∀ a ∈ peers x.comm i, ops a = [y a] ∧ (y a).comm = x.comm) :
    w ∈ landings peers ops i ↔ ∃ p a, (peers x.comm i)[p]? = some a ∧
      w ∈ transfer x (y a) p ((peers x.comm a).idxOf i) := by
  rw [mem_landings]
  constructor
  · rintro ⟨n, x', p, a, y', hx, ha, hy, hw⟩
    rw [hi, getElem?_singleton] at hx
    obtain ⟨rfl, hx'⟩ : n = 0 ∧ x = x' := by
      split at hx <;> simp_all
    subst hx'
    obtain ⟨hops', hcomm⟩ := hops a (mem_of_getElem? ha)
    have hy' : y a = y' := by simpa [hops', onComm, hcomm] using hy
    exact ⟨p, a, ha, hy' ▸ hw⟩
  · rintro ⟨p, a, ha, hw⟩
    obtain ⟨hops', hcomm⟩ := hops a (mem_of_getElem? ha)
    exact ⟨0, x, p, a, y a, by simp [hi], ha, by simp [hops', onComm, hcomm], hw⟩

theorem landings_eq_nil (h : ∀ x ∈ ops i, ∀ p a, (peers x.comm i)[p]? = some a →
    ∀ r, x.takes p = some r → r.size = 0) : landings peers ops i = [] := by
  rw [eq_nil_iff_forall_not_mem]
  intro w hw
  obtain ⟨n, x, p, a, y, hx, ha, _, hmem⟩ := mem_landings.mp hw
  obtain ⟨r, t, hr, hlen, ht, _⟩ := mem_transfer.mp hmem
  have hzero := h x (mem_of_getElem? hx) p a ha r hr
  obtain ⟨hlt, _⟩ := List.getElem?_eq_some_iff.mp ht
  omega

theorem landings_unreadable (h : ∀ a c, a ∈ peers c i → ∀ y ∈ ops a, ∀ q, ∀ v ∈ y.gives q, v = none)
    (hw : w ∈ landings peers ops i) : w.2 = none := by
  obtain ⟨n, x, p, a, y, _, ha, hy, hmem⟩ := mem_landings.mp hw
  obtain ⟨r, t, _, _, ht, _⟩ := mem_transfer.mp hmem
  have hy' : y ∈ ops a := mem_of_mem_filter (mem_of_getElem? hy)
  exact h a x.comm (mem_of_getElem? ha) y hy' _ _ (mem_of_getElem? ht)

private theorem forall₂_getElem? {α : Type*} {R : α → α → Prop} {l l' : List α} (h : Forall₂ R l l')
    {n : Nat} {x : α} (hx : l[n]? = some x) : ∃ x', l'[n]? = some x' ∧ R x x' := by
  induction h generalizing n with
  | nil => simp at hx
  | cons hab _ ih =>
    cases n with
    | zero => exact ⟨_, rfl, by simpa using (by simpa using hx : _ = x) ▸ hab⟩
    | succ n => exact ih (by simpa using hx)

theorem onComm_agree {l l' : List (Op κ β)} (h : Forall₂ Agree l l') (c : κ) :
    Forall₂ Agree (onComm l c) (onComm l' c) := by
  induction h with
  | nil => exact .nil
  | @cons x y _ _ hxy _ ih =>
    unfold onComm at ih ⊢
    by_cases hc : x.comm = c
    · rw [filter_cons_of_pos (by simpa using hc), filter_cons_of_pos (by simpa [← hxy.comm] using hc)]
      exact .cons hxy ih
    · rw [filter_cons_of_neg (by simpa using hc), filter_cons_of_neg (by simpa [← hxy.comm] using hc)]
      exact ih

private theorem landings_subset (hi : Forall₂ Agree (ops i) (ops' i))
    (hpeers : ∀ c, ∀ a ∈ peers c i, Forall₂ Agree (ops a) (ops' a))
    (hw : w ∈ landings peers ops i) : w ∈ landings peers ops' i := by
  obtain ⟨n, x, p, a, y, hx, ha, hy, hmem⟩ := mem_landings.mp hw
  obtain ⟨x', hx', hxx⟩ := forall₂_getElem? hi hx
  obtain ⟨y', hy', hyy⟩ := forall₂_getElem? (onComm_agree (hpeers x.comm a (mem_of_getElem? ha)) x.comm) hy
  rw [(onComm_agree (forall₂_take n hi) x.comm).length_eq] at hy'
  rw [hxx.comm] at ha hy' hmem
  exact mem_landings.mpr ⟨n, x', p, a, y', hx', ha, hy', transfer_agree hxx hyy p _ ▸ hmem⟩

theorem mem_landings_agree (hi : Forall₂ Agree (ops i) (ops' i))
    (hpeers : ∀ c, ∀ a ∈ peers c i, Forall₂ Agree (ops a) (ops' a)) :
    w ∈ landings peers ops i ↔ w ∈ landings peers ops' i := by
  have hsymm : ∀ a, Forall₂ Agree (ops a) (ops' a) → Forall₂ Agree (ops' a) (ops a) :=
    fun a h => (Forall₂.imp (fun _ _ => Agree.symm) h.flip)
  exact ⟨landings_subset hi hpeers, landings_subset (hsymm i hi) fun c a ha => hsymm a (hpeers c a ha)⟩

theorem mem_landings_congr (hi : ops i = ops' i) (hpeers : ∀ c, ∀ a ∈ peers c i, ops a = ops' a) :
    w ∈ landings peers ops i ↔ w ∈ landings peers ops' i := by
  have hrefl : ∀ l : List (Op κ β), Forall₂ Agree l l := fun l => forall₂_same.mpr fun _ _ => Agree.of_eq rfl rfl rfl
  exact mem_landings_agree (hi ▸ hrefl _) fun c a ha => hpeers c a ha ▸ hrefl _

end World

section Moved

variable {x y : Op κ β} {c : κ} {p q : Nat} {w : Int × Option β}

/-- The bytes `v`, put into the region one after the other, have `w` among them. -/
def Written (r : Region) (v : List (Option β)) (w : Int × Option β) : Prop :=
  ∃ t : Nat, v[t]? = some w.2 ∧ w.1 = r.start + r.shape t

theorem mem_transfer_iff {P : Prop} [Decidable P] {r : Region} {v : List (Option β)}
    (hx : x.takes p = if P then some r else none) (hy : P → y.gives q = v) (hsize : v.length = r.size) :
    w ∈ transfer x y p q ↔ P ∧ Written r v w := by
  rw [mem_transfer, hx]
  by_cases hp : P
  · rw [if_pos hp, hy hp]
    constructor
    · intro h
      obtain ⟨r', t, hr, _, ht, hw⟩ := h
      cases hr
      exact ⟨hp, t, ht, hw⟩
    · intro h
      obtain ⟨_, t, ht, hw⟩ := h
      exact ⟨r, t, rfl, hsize, ht, hw⟩
  · simp [hp]

theorem mem_transfer_of_takes {r : Region} {v : List (Option β)} (hx : x.takes p = some r)
    (hy : y.gives q = v) (hsize : v.length = r.size) : w ∈ transfer x y p q ↔ Written r v w := by
  rw [mem_transfer_iff (P := True) (by rw [hx, if_pos trivial]) (fun _ => hy) hsize, true_and]

variable {γ : Type*} {me me' : Option Int} {dest' : Option Region} {buf buf' : Int → Option β} {ranks ranks' : List γ}
  {f g : γ → Region} {arg arg' : RootArg} {r r' : Region} {s l : γ} {blocks : List Region}

theorem block_map (hl : ranks[q]? = some l) : block buf (ranks.map f) q = contents buf (f l) := by
  rw [block, getElem?_map, hl]
  rfl

theorem getElem?_map_eq (hl : ranks[q]? = some l) : (ranks.map f)[q]? = some (f l) := by
  rw [getElem?_map, hl, map_some]

theorem mem_transfer_bcast (hroot : arg.names p = arg'.isRoot me') :
    w ∈ transfer (bcast c me buf r (some r) arg) (bcast c me' buf' r dest' arg') p q ↔
      (arg.names p ∧ ¬ arg.isRoot me) ∧ Written r (contents buf' r) w :=
  mem_transfer_iff rfl (fun hp => by simp only [bcast, ← hroot, hp.1, if_true]) (contents_length _ _)

theorem mem_transfer_scatterv (hl : ranks[q]? = some l) (hsize : (f l).size = r.size)
    (hroot : arg.names p = arg'.isRoot me') :
    w ∈ transfer (scatterv c me buf blocks r arg) (scatterv c me' buf' (ranks.map f) r' arg') p q ↔
      arg.names p ∧ Written r (contents buf' (f l)) w :=
  mem_transfer_iff rfl (fun hp => by simp only [scatterv, ← hroot, hp, if_true, block_map hl])
    (by rw [contents_length, hsize])

variable (hs : ranks[p]? = some s)

include hs

theorem mem_transfer_gatherv (hsize : r.size = (f s).size) (hroot : arg.isRoot me = arg'.names q) :
    w ∈ transfer (gatherv c me buf r' (ranks.map f) arg) (gatherv c me' buf' r blocks arg') p q ↔
      arg.isRoot me ∧ Written (f s) (contents buf' r) w :=
  mem_transfer_iff (by simp only [gatherv, getElem?_map_eq hs])
    (fun hp => by simp only [gatherv, ← hroot, hp, if_true]) (by rw [contents_length, hsize])

theorem mem_transfer_allgatherv (hsize : r.size = (f s).size) :
    w ∈ transfer (allgatherv c buf r' (ranks.map f)) (allgatherv c buf' r blocks) p q ↔
      Written (f s) (contents buf' r) w :=
  mem_transfer_of_takes (getElem?_map_eq hs) rfl (by rw [contents_length, hsize])

theorem mem_transfer_alltoallv (hl : ranks'[q]? = some l) (hsize : (g l).size = (f s).size) {sblocks : List Region} :
    w ∈ transfer (alltoallv c buf sblocks (ranks.map f)) (alltoallv c buf' (ranks'.map g) blocks) p q ↔
      Written (f s) (contents buf' (g l)) w :=
  mem_transfer_of_takes (getElem?_map_eq hs) (block_map hl) (by rw [contents_length, hsize])

end Moved

section Meeting

variable [DecidableEq κ] [DecidableEq π] {peers : κ → π → List π} {ops : π → List (Op κ β)}
  {x y : Op κ β} {i a : π} {c : κ} {p : Nat} {w : Int × Option β}

/-- The byte is written by operations that meet on the communicator `c`. -/
def LandsOn (peers : κ → π → List π) (ops : π → List (Op κ β)) (c : κ) (i : π) (w : Int × Option β) : Prop :=
  ∃ (k : Nat) (x : Op κ β) (p : Nat) (a : π) (y : Op κ β), (onComm (ops i) c)[k]? = some x ∧
    (peers c i)[p]? = some a ∧ (onComm (ops a) c)[k]? = some y ∧ w ∈ transfer x y p ((peers c a).idxOf i)

theorem getElem?_onComm {l : List (Op κ β)} {k : Nat} :
    (onComm l c)[k]? = some x ↔ ∃ n, l[n]? = some x ∧ x.comm = c ∧ (onComm (l.take n) c).length = k := by
  induction l generalizing k with
  | nil => simp [onComm]
  | cons z l ih =>
    -- the first operation counts when it is on the communicator
    by_cases hz : z.comm = c
    · rw [onComm, filter_cons_of_pos (by simpa using hz)]
      cases k with
      | zero =>
        constructor
        · intro h
          cases h
          exact ⟨0, rfl, hz, rfl⟩
        · intro h
          obtain ⟨n, hn, _, hlen⟩ := h
          cases n with
          | zero => exact hn
          | succ n => simp [onComm, hz] at hlen
      | succ k =>
        refine (ih (k := k)).trans ⟨?_, ?_⟩
        · intro h
          obtain ⟨n, hn, hc, hlen⟩ := h
          refine ⟨n + 1, hn, hc, ?_⟩
          rw [take_succ_cons, onComm, filter_cons_of_pos (by simpa using hz), length_cons]
          exact congrArg (· + 1) hlen
        · intro h
          obtain ⟨n, hn, hc, hlen⟩ := h
          cases n with
          | zero => simp [onComm] at hlen
          | succ n =>
            rw [take_succ_cons, onComm, filter_cons_of_pos (by simpa using hz), length_cons] at hlen
            exact ⟨n, hn, hc, Nat.succ.inj hlen⟩
    · rw [onComm, filter_cons_of_neg (by simpa using hz)]
      refine (ih (k := k)).trans ⟨?_, ?_⟩
      · intro h
        obtain ⟨n, hn, hc, hlen⟩ := h
        refine ⟨n + 1, hn, hc, ?_⟩
        rw [take_succ_cons, onComm, filter_cons_of_neg (by simpa using hz)]
        exact hlen
      · intro h
        obtain ⟨n, hn, hc, hlen⟩ := h
        cases n with
        | zero =>
          rw [getElem?_cons_zero, some_inj] at hn
          exact absurd (hn ▸ hc) hz
        | succ n =>
          rw [take_succ_cons, onComm, filter_cons_of_neg (by simpa using hz)] at hlen
          exact ⟨n, hn, hc, hlen⟩

theorem mem_landings_iff_landsOn : w ∈ landings peers ops i ↔ ∃ c, LandsOn peers ops c i w := by
  rw [mem_landings]
  constructor
  · intro h
    obtain ⟨n, x, p, a, y, hx, ha, hy, hw⟩ := h
    exact ⟨x.comm, _, x, p, a, y, getElem?_onComm.mpr ⟨n, hx, rfl, rfl⟩, ha, hy, hw⟩
  · intro h
    obtain ⟨c, k, x, p, a, y, hx, ha, hy, hw⟩ := h
    obtain ⟨n, hn, rfl, rfl⟩ := getElem?_onComm.mp hx
    exact ⟨n, x, p, a, y, hn, ha, hy, hw⟩

theorem landsOn_rounds (peers : κ → π → List π) (ops : π → List (Op κ β)) {n : Nat} {u : Nat → Op κ β}
    {v : π → Nat → Op κ β}
    (hi : onComm (ops i) c = (List.range n).map u)
    (ha : ∀ a ∈ peers c i, onComm (ops a) c = (List.range n).map (v a)) :
    LandsOn peers ops c i w ↔ ∃ k p a, k < n ∧ (peers c i)[p]? = some a ∧
      w ∈ transfer (u k) (v a k) p ((peers c a).idxOf i) := by
  constructor
  · intro h
    obtain ⟨k, x, p, a, y, hx, hp, hy, hw⟩ := h
    rw [hi, getElem?_map, map_eq_some_iff] at hx
    rw [ha a (mem_of_getElem? hp), getElem?_map, map_eq_some_iff] at hy
    obtain ⟨k₁, hk₁, rfl⟩ := hx
    obtain ⟨k₂, hk₂, rfl⟩ := hy
    obtain ⟨hlt, heq₁⟩ := List.getElem?_eq_some_iff.mp hk₁
    obtain ⟨_, heq₂⟩ := List.getElem?_eq_some_iff.mp hk₂
    rw [getElem_range] at heq₁ heq₂
    subst heq₁ heq₂
    exact ⟨k, p, a, by simpa using hlt, hp, hw⟩
  · intro h
    obtain ⟨k, p, a, hk, hp, hw⟩ := h
    refine ⟨k, u k, p, a, v a k, ?_, hp, ?_, hw⟩
    · rw [hi, getElem?_map, getElem?_range hk, map_some]
    · rw [ha a (mem_of_getElem? hp), getElem?_map, getElem?_range hk, map_some]

theorem landsOn_single (peers : κ → π → List π) (ops : π → List (Op κ β)) {u : Op κ β} {v : π → Op κ β}
    (hi : onComm (ops i) c = [u])
    (ha : ∀ a ∈ peers c i, onComm (ops a) c = [v a]) :
    LandsOn peers ops c i w ↔ ∃ p a, (peers c i)[p]? = some a ∧ w ∈ transfer u (v a) p ((peers c a).idxOf i) := by
  rw [landsOn_rounds peers ops (n := 1) (u := fun _ => u) (v := fun a _ => v a) hi ha]
  constructor
  · intro h
    obtain ⟨k, p, a, _, hp, hw⟩ := h
    exact ⟨p, a, hp, hw⟩
  · intro h
    obtain ⟨p, a, hp, hw⟩ := h
    exact ⟨0, p, a, Nat.one_pos, hp, hw⟩

theorem not_landsOn (h : ∀ x ∈ ops i, x.comm = c → ∀ p, x.takes p = none) : ¬ LandsOn peers ops c i w := by
  intro hw
  obtain ⟨k, x, p, a, y, hx, _, _, hmem⟩ := hw
  obtain ⟨n, hn, hc, _⟩ := getElem?_onComm.mp hx
  obtain ⟨r, t, hr, _⟩ := mem_transfer.mp hmem
  rw [h x (mem_of_getElem? hn) hc p] at hr
  cases hr

end Meeting

end Exchange
