import ParepMpi.Groups.Startup

/-!
# The tables of the main coordinator

What the main coordinator notes does not depend on the order in which the others come: the groups have the sizes that
their nodes compute, and the ranges of ranks follow one another.
-/

namespace ParepMpi

open List Option CArray

namespace StartUp

variable {cfg : StartUp} {t : MainTables} {v n : Nat}

variable {k : Nat} {α : Type} {done : List Nat}

theorem addTo_spec {a : CArray Nat} (hlen : a.length = n) (hk : k < n) (d : Nat) :
    ∃ b, addTo a k d = some b ∧ b.length = n ∧
      ∀ g < n, ∀ c, a.read (g : Int) = some c → b.read (g : Int) = some (if g = k then c + d else c) := by
  obtain ⟨x, hx⟩ := exists_read (a := a) (i := k) (by omega) (by omega)
  obtain ⟨b, hb⟩ := exists_write (a := a) (i := k) (by omega) (by omega) (x + d)
  refine ⟨b, ?_, (length_write hb).trans hlen, ?_⟩
  · rw [addTo, hx]
    exact hb
  · intro g _ c hc
    rw [read_write hb]
    by_cases hgk : g = k
    · subst hgk
      rw [if_pos rfl, if_pos rfl]
      rw [hc, some_inj] at hx
      rw [hx]
    · rw [if_neg (by omega), if_neg hgk, hc]

structure Noted (cfg : StartUp) (done : List Nat) (t : MainTables) : Prop where
  lengths : t.daemonSocket.length = cfg.nodeNum ∧ t.nodeSizes.length = cfg.nodeNum ∧
    t.groupIds.length = cfg.nodeNum ∧ t.groupNodeids.length = cfg.nodeNum ∧
    t.groupSizes.length = groupNum cfg.nodeNum ∧ t.groupNodesizes.length = groupNum cfg.nodeNum
  sockets : ∀ v ∈ done, v ≠ 0 → t.daemonSocket.read v = some (some v)
  sizes : ∀ v ∈ done, t.nodeSizes.read v = some (cfg.nodeSize v)
  ids : ∀ v ∈ done, t.groupIds.read v = some (groupId cfg.nodeNum v)
  nodeids : ∀ v ∈ done, t.groupNodeids.read v = some (groupNodeid cfg.nodeNum v)
  counts : ∀ g < groupNum cfg.nodeNum, t.groupSizes.read g = some (done.countP fun v => groupId cfg.nodeNum v = g)

theorem read_replicate {x : α} (hk : k < n) : CArray.read (replicate n x) (k : Int) = some x := by
  rw [read_natCast, getElem?_replicate, if_pos hk]

theorem read_write_mem {a b : CArray α} {f : Nat → α} {P : Nat → Prop}
    (h : ∀ w ∈ done, P w → a.read (w : Int) = some (f w)) (hb : a.write (v : Int) (f v) = some b) :
    ∀ w ∈ v :: done, P w → b.read (w : Int) = some (f w) := by
  intro w hw hPw
  by_cases hwv : w = v
  · subst hwv
    exact read_write_self hb
  · rw [read_write_ne hb (by omega)]
    exact h w ((mem_cons.mp hw).resolve_left hwv) hPw

theorem tables_spec (cfg : StartUp) : ∃ t, cfg.tables = some t ∧ Noted cfg [0] t := by
  have hn := cfg.nodeNum_pos
  have hg : 0 < groupNum cfg.nodeNum := Nat.lt_of_le_of_lt (Nat.zero_le _) (groupId_lt hn)
  have hid : groupId cfg.nodeNum 0 = 0 := Nat.zero_div _
  have hnid : groupNodeid cfg.nodeNum 0 = 0 := Nat.zero_mod _
  obtain ⟨a₁, h₁⟩ := exists_write (a := replicate cfg.nodeNum (none : Option Nat)) (i := 0) (by omega)
    (by rw [length_replicate]; omega) none
  obtain ⟨a₂, h₂⟩ := exists_write (a := replicate cfg.nodeNum 0) (i := 0) (by omega)
    (by rw [length_replicate]; omega) (cfg.nodeSize 0)
  obtain ⟨a₃, h₃⟩ := exists_write (a := replicate cfg.nodeNum 0) (i := 0) (by omega) (by rw [length_replicate]; omega) 0
  obtain ⟨a₄, h₄, hl₄, hr₄⟩ := addTo_spec (a := replicate (groupNum cfg.nodeNum) 0) length_replicate hg 1
  obtain ⟨a₅, h₅, hl₅, -⟩ := addTo_spec (a := replicate (groupNum cfg.nodeNum) 0) length_replicate hg (cfg.nodeSize 0)
  refine ⟨⟨a₁, a₂, a₃, a₃, a₄, a₅⟩, ?_, ?_⟩
  · simp only [tables, h₁, h₂, h₃, h₄, h₅, bind_eq_bind, bind_some]
  · have hlen {α : Type} {a b : CArray α} {x : α} (hb : a.write 0 x = some b) (ha : a.length = cfg.nodeNum) :
        b.length = cfg.nodeNum := (length_write hb).trans ha
    refine ⟨⟨hlen h₁ length_replicate, hlen h₂ length_replicate, hlen h₃ length_replicate,
      hlen h₃ length_replicate, hl₄, hl₅⟩, ?_, ?_, ?_, ?_, ?_⟩
    · intro v hv hne
      exact absurd (mem_singleton.mp hv) hne
    · intro v hv
      rw [mem_singleton.mp hv]
      exact read_write_self h₂
    · intro v hv
      rw [mem_singleton.mp hv, hid]
      exact read_write_self h₃
    · intro v hv
      rw [mem_singleton.mp hv]
      exact read_write_self h₃
    · intro g hg'
      have hread := hr₄ g hg' 0 (read_replicate hg')
      rw [hread, countP_singleton, hid]
      by_cases hg0 : g = 0
      · rw [if_pos hg0, if_pos (by simpa using hg0.symm)]
      · rw [if_neg hg0, if_neg (by simpa using Ne.symm hg0)]

theorem Noted.accept (h : Noted cfg done t) (hv : v < cfg.nodeNum) :
    ∃ u, cfg.accept t v = some u ∧ Noted cfg (v :: done) u := by
  obtain ⟨hl₁, hl₂, hl₃, hl₄, hl₅, hl₆⟩ := h.lengths
  have hwrite {α : Type} {a : CArray α} (hlen : a.length = cfg.nodeNum) (x : α) : ∃ b, a.write (v : Int) x = some b :=
    exists_write (by omega) (by omega) x
  obtain ⟨a₁, h₁⟩ := hwrite hl₁ (some v)
  obtain ⟨a₂, h₂⟩ := hwrite hl₂ (cfg.nodeSize v)
  obtain ⟨a₃, h₃⟩ := hwrite hl₃ (groupId cfg.nodeNum v)
  obtain ⟨a₄, h₄⟩ := hwrite hl₄ (groupNodeid cfg.nodeNum v)
  obtain ⟨a₅, h₅, hm₅, hr₅⟩ := addTo_spec hl₅ (groupId_lt hv) 1
  obtain ⟨a₆, h₆, hm₆, -⟩ := addTo_spec hl₆ (groupId_lt hv) (cfg.nodeSize v)
  refine ⟨⟨a₁, a₂, a₃, a₄, a₅, a₆⟩, ?_, ?_⟩
  · simp only [StartUp.accept, h₁, h₂, h₃, h₄, h₅, h₆, bind_eq_bind, bind_some]
  · refine ⟨⟨(length_write h₁).trans hl₁, (length_write h₂).trans hl₂, (length_write h₃).trans hl₃,
      (length_write h₄).trans hl₄, hm₅, hm₆⟩, read_write_mem (f := some) h.sockets h₁, ?_, ?_, ?_, ?_⟩
    · exact fun w hw => read_write_mem (fun w hw (_ : True) => h.sizes w hw) h₂ w hw trivial
    · exact fun w hw => read_write_mem (f := groupId cfg.nodeNum) (fun w hw (_ : True) => h.ids w hw) h₃ w hw trivial
    · exact fun w hw =>
        read_write_mem (f := groupNodeid cfg.nodeNum) (fun w hw (_ : True) => h.nodeids w hw) h₄ w hw trivial
    · intro g hg
      have hread := hr₅ g hg _ (h.counts g hg)
      rw [hread, countP_cons]
      by_cases hgv : g = groupId cfg.nodeNum v
      · rw [if_pos hgv, if_pos (by simpa using hgv.symm)]
      · rw [if_neg hgv, if_neg (by simpa using Ne.symm hgv), add_zero]

theorem Noted.acceptAll {order done : List Nat} (h : Noted cfg done t) (horder : ∀ v ∈ order, v < cfg.nodeNum) :
    ∃ u, order.foldlM cfg.accept t = some u ∧ Noted cfg (order.reverse ++ done) u := by
  induction order generalizing t done with
  | nil => exact ⟨t, rfl, h⟩
  | cons v order ih =>
    obtain ⟨u, hu, hnoted⟩ := h.accept (horder v mem_cons_self)
    obtain ⟨w, hw, hlast⟩ := ih hnoted fun x hx => horder x (mem_cons_of_mem v hx)
    refine ⟨w, ?_, ?_⟩
    · rw [foldlM_cons, hu]
      exact hw
    · rwa [reverse_cons, append_assoc]

theorem Noted.of_perm {done done' : List Nat} (h : Noted cfg done t) (hperm : done.Perm done') : Noted cfg done' t where
  lengths := h.lengths
  sockets := fun v hv => h.sockets v (hperm.mem_iff.mpr hv)
  sizes := fun v hv => h.sizes v (hperm.mem_iff.mpr hv)
  ids := fun v hv => h.ids v (hperm.mem_iff.mpr hv)
  nodeids := fun v hv => h.nodeids v (hperm.mem_iff.mpr hv)
  counts := by
    intro g hg
    rw [h.counts g hg, hperm.countP_eq]

theorem acceptAll_spec {order : List Nat} (hperm : order.Perm (range' 1 (cfg.nodeNum - 1))) :
    ∃ t, cfg.acceptAll order = some t ∧ Noted cfg (range cfg.nodeNum) t := by
  have hn := cfg.nodeNum_pos
  obtain ⟨t, ht, hnoted⟩ := tables_spec cfg
  have horder : ∀ v ∈ order, v < cfg.nodeNum := by
    intro v hv
    have := mem_range'_1.mp (hperm.mem_iff.mp hv)
    omega
  obtain ⟨u, hu, hall⟩ := hnoted.acceptAll horder
  refine ⟨u, ?_, hall.of_perm ?_⟩
  · rw [acceptAll, ht]
    exact hu
  · have hsplit : range cfg.nodeNum = [0] ++ range' 1 (cfg.nodeNum - 1) := by
      rw [range_eq_range', show cfg.nodeNum = cfg.nodeNum - 1 + 1 by omega]
      rfl
    rw [hsplit]
    exact (perm_append_comm).trans (((reverse_perm order).trans hperm).append_left [0])

def startOf (cfg : StartUp) (v : Nat) : Nat := ((range v).map cfg.nodeSize).sum

def limsOf (cfg : StartUp) (v : Nat) : RankLims := ⟨cfg.startOf v, cfg.startOf v + cfg.nodeSize v - 1⟩

theorem startOf_succ (cfg : StartUp) (v : Nat) : cfg.startOf (v + 1) = cfg.startOf v + cfg.nodeSize v := by
  rw [startOf, range_succ, map_append, sum_append]
  rfl

theorem startOf_mono (cfg : StartUp) {v w : Nat} (h : v ≤ w) : cfg.startOf v ≤ cfg.startOf w := by
  induction h with
  | refl => exact le_rfl
  | step _ ih => exact le_trans ih (by rw [startOf_succ]; omega)

theorem count_limsOf (v : Nat) : (cfg.limsOf v).count = cfg.nodeSize v := by
  rw [RankLims.count, limsOf]
  dsimp only
  omega

structure Limits (cfg : StartUp) (lims : CArray RankLims) : Prop where
  length_eq : lims.length = cfg.nodeNum
  read_eq : ∀ v < cfg.nodeNum, lims.read v = some (cfg.limsOf v)

theorem rankLimsAll_spec (h : Noted cfg (range cfg.nodeNum) t) :
    ∃ lims, cfg.rankLimsAll t.nodeSizes = some lims ∧ Limits cfg lims := by
  have hn := cfg.nodeNum_pos
  obtain ⟨a, ha⟩ := exists_write (a := replicate cfg.nodeNum (⟨0, 0⟩ : RankLims)) (i := 0) (by omega)
    (by rw [length_replicate]; omega) ⟨0, cfg.nodeSize 0 - 1⟩
  have halen : a.length = cfg.nodeNum := (length_write ha).trans length_replicate
  have hfirst : ∀ v : Nat, v < 1 → a.read (v : Int) = some (cfg.limsOf v) := by
    intro v hv
    obtain rfl : v = 0 := by omega
    rw [Int.natCast_zero, read_write_self ha]
    simp [limsOf, startOf]
  have hround : ∀ (i : Nat) (lims : CArray RankLims), 1 ≤ i → i < 1 + (cfg.nodeNum - 1) →
      (lims.length = cfg.nodeNum ∧ ∀ v : Nat, v < i → lims.read (v : Int) = some (cfg.limsOf v)) →
      ∃ b, nextLims t.nodeSizes lims i = some b ∧
        (b.length = cfg.nodeNum ∧ ∀ v : Nat, v < i + 1 → b.read (v : Int) = some (cfg.limsOf v)) := by
    intro i lims hlo hhi hlims
    obtain ⟨hlen, hread⟩ := hlims
    have hbefore := hread (i - 1) (by omega)
    rw [show ((i - 1 : Nat) : Int) = (i : Int) - 1 by omega] at hbefore
    have hsize := h.sizes i (mem_range.mpr (by omega))
    have hnext : (⟨(cfg.limsOf (i - 1)).last + 1, (cfg.limsOf (i - 1)).last + 1 + cfg.nodeSize i - 1⟩ : RankLims) =
        cfg.limsOf i := by
      have := cfg.startOf_succ (i - 1)
      rw [show i - 1 + 1 = i by omega] at this
      simp only [limsOf, RankLims.mk.injEq]
      omega
    obtain ⟨b, hb⟩ := exists_write (a := lims) (i := i) (by omega) (by omega) (cfg.limsOf i)
    refine ⟨b, ?_, (length_write hb).trans hlen, ?_⟩
    · simp only [nextLims, hbefore, hsize, bind_eq_bind, bind_some, hnext, hb]
    · intro v hv
      by_cases hvi : v = i
      · subst hvi
        exact read_write_self hb
      · rw [read_write_ne hb (by omega)]
        exact hread v (by omega)
  obtain ⟨lims, hlims, hlen, hread⟩ := foldlM_range'_spec 1 (cfg.nodeNum - 1) (And.intro halen hfirst) hround
  refine ⟨lims, ?_, hlen, fun v hv => hread v (by omega)⟩
  rw [rankLimsAll, ha]
  exact hlims

end StartUp

end ParepMpi
