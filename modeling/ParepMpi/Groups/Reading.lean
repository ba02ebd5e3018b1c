import ParepMpi.Groups.Accept

/-!
# What a leader sends and the main coordinator reads

The leader of a group sends the blocks of its nodes one after the other, and the main coordinator reads as many.
-/

namespace ParepMpi

open List Option Function CArray

namespace StartUp

variable {cfg : StartUp} {t : MainTables} {lims : CArray RankLims} {v i j n : Nat}

def block (cfg : StartUp) (v : Nat) : List Nat :=
  (range (cfg.nodeSize v)).map (cfg.pid v) ++ (range (cfg.nodeSize v)).map (cfg.startOf v + ·)

def blocks (cfg : StartUp) (i n : Nat) : List Nat := (range' i n).flatMap cfg.block

theorem blocks_succ (cfg : StartUp) (i n : Nat) : cfg.blocks i (n + 1) = cfg.blocks i n ++ cfg.block (i + n) := by
  rw [blocks, blocks, range'_concat]
  simp

theorem blocks_cons (cfg : StartUp) (i n : Nat) : cfg.blocks i (n + 1) = cfg.block i ++ cfg.blocks (i + 1) n := by
  rw [blocks, blocks, range'_succ, flatMap_cons]

theorem takeWords_append {ws r : List Nat} (h : ws.length = n) : takeWords n (ws ++ r) = some (ws, r) := by
  subst h
  rw [takeWords, if_pos (by rw [length_append]; omega), take_left, drop_left]

theorem takeWords_all {ws : List Nat} (h : ws.length = n) : takeWords n ws = some (ws, []) := by
  have := takeWords_append (n := n) (r := []) h
  rwa [append_nil] at this

theorem takeWords_one (ws : List Nat) : takeWords 1 (1 :: ws) = some ([1], ws) := by
  rw [← singleton_append]
  exact takeWords_append rfl

theorem daemonStream_spec (h : Limits cfg lims) (hv : v < cfg.nodeNum) :
    cfg.daemonStream lims v = some (1 :: cfg.block v) := by
  rw [daemonStream, h.read_eq v hv]
  rfl

theorem mapM_eq_some {α β : Type} {f : α → Option β} {g : α → β} {l : List α} (h : ∀ x ∈ l, f x = some (g x)) :
    l.mapM f = some (l.map g) := by
  induction l with
  | nil => rfl
  | cons x l ih =>
    rw [mapM_cons, h x mem_cons_self, ih fun y hy => h y (mem_cons_of_mem x hy)]
    rfl

theorem add_lt_of_leader (hi : i < cfg.nodeNum) (hleader : groupNodeid cfg.nodeNum i = 0)
    (hj : j < groupSize cfg.nodeNum i) : i + j < cfg.nodeNum := by
  have hsize := groupSize_eq hi
  have := groupId_mul_add (n := cfg.nodeNum) i
  omega

theorem leaderSizes_spec (h : Noted cfg (range cfg.nodeNum) t) (hi : i < cfg.nodeNum)
    (hleader : groupNodeid cfg.nodeNum i = 0) :
    cfg.leaderSizes t i = some ((range (groupSize cfg.nodeNum i)).map fun j => cfg.nodeSize (i + j)) := by
  have hcount := h.counts _ (groupId_lt hi)
  rw [countP_groupId, ← groupSize_eq hi] at hcount
  have hmap : (range (groupSize cfg.nodeNum i)).mapM (fun j => t.nodeSizes.read ((i + j : Nat) : Int)) =
      some ((range (groupSize cfg.nodeNum i)).map fun j => cfg.nodeSize (i + j)) := by
    apply mapM_eq_some
    intro j hj
    exact h.sizes _ (mem_range.mpr (add_lt_of_leader hi hleader (mem_range.mp hj)))
  have htake := takeWords_all
    (show ((range (groupSize cfg.nodeNum i)).map fun j => cfg.nodeSize (i + j)).length = groupSize cfg.nodeNum i by
      rw [length_map, length_range])
  simp only [leaderSizes, hcount, hmap, htake, bind_eq_bind, bind_some]

variable {order : List Nat} {α : Type}

theorem leaderSockets_spec (horder : ∀ j ∈ order, j < groupSize cfg.nodeNum i) :
    ∃ socks, cfg.leaderSockets i order = some socks ∧ ∀ j ∈ order, socks.read (j : Int) = some (some (i + j)) := by
  suffices h : ∀ (done : List Nat) (socks : CArray (Option Nat)), socks.length = groupSize cfg.nodeNum i →
      (∀ j ∈ done, socks.read (j : Int) = some (some (i + j))) →
      ∃ out, order.foldlM (fun socks (j : Nat) => write socks j (some (i + j))) socks = some out ∧
        ∀ j ∈ order.reverse ++ done, out.read (j : Int) = some (some (i + j)) by
    obtain ⟨socks, hsocks, hread⟩ := h [] (replicate _ none) length_replicate (by simp)
    exact ⟨socks, hsocks, fun j hj => hread j (mem_append_left _ (mem_reverse.mpr hj))⟩
  induction order with
  | nil => exact fun done socks _ hread => ⟨socks, rfl, hread⟩
  | cons j order ih =>
    intro done socks hlen hread
    have hj := horder j mem_cons_self
    obtain ⟨b, hb⟩ := exists_write (a := socks) (i := j) (by omega) (by omega) (some (i + j))
    have hdone := read_write_mem (f := fun j => some (i + j)) (fun w hw (_ : True) => hread w hw) hb
    obtain ⟨out, hout, hlast⟩ := ih (fun x hx => horder x (mem_cons_of_mem j hx)) (j :: done) b
      ((length_write hb).trans hlen) fun w hw => hdone w hw trivial
    refine ⟨out, ?_, ?_⟩
    · rw [foldlM_cons, hb]
      exact hout
    · rwa [reverse_cons, append_assoc]

theorem takeWords_pids (cfg : StartUp) (v : Nat) (rest : List Nat) : takeWords (cfg.nodeSize v) (cfg.block v ++ rest) =
    some ((range (cfg.nodeSize v)).map (cfg.pid v), (range (cfg.nodeSize v)).map (cfg.startOf v + ·) ++ rest) := by
  rw [block, append_assoc]
  exact takeWords_append (by rw [length_map, length_range])

theorem takeWords_ranks (cfg : StartUp) (v : Nat) (rest : List Nat) :
    takeWords (cfg.nodeSize v) ((range (cfg.nodeSize v)).map (cfg.startOf v + ·) ++ rest) =
      some ((range (cfg.nodeSize v)).map (cfg.startOf v + ·), rest) :=
  takeWords_append (by rw [length_map, length_range])

theorem sendOn_spec {socks : CArray (Option Nat)} {out : List Nat} (hlims : Limits cfg lims) (hi : i < cfg.nodeNum)
    (hleader : groupNodeid cfg.nodeNum i = 0) (hj : j < groupSize cfg.nodeNum i)
    (hsock : socks.read (j : Int) = some (some (i + j))) :
    cfg.sendOn lims ((range (groupSize cfg.nodeNum i)).map fun j => cfg.nodeSize (i + j)) socks out j =
      some (out ++ cfg.block (i + j)) := by
  have hstream := daemonStream_spec hlims (add_lt_of_leader hi hleader hj)
  have hn : read ((range (groupSize cfg.nodeNum i)).map fun j => cfg.nodeSize (i + j)) (j : Int) =
      some (cfg.nodeSize (i + j)) := by
    rw [read_natCast, getElem?_map, getElem?_range hj]
    rfl
  have hpids := takeWords_pids cfg (i + j) []
  have hranks := takeWords_ranks cfg (i + j) []
  simp only [append_nil] at hpids hranks
  simp only [sendOn, hsock, hstream, takeWords_one, hn, hpids, hranks, bind_eq_bind, bind_some]
  rfl

theorem leaderStream_spec (h : Noted cfg (range cfg.nodeNum) t) (hlims : Limits cfg lims)
    (hi : i < cfg.nodeNum) (hleader : groupNodeid cfg.nodeNum i = 0)
    (hperm : order.Perm (range' 1 (groupSize cfg.nodeNum i - 1))) :
    cfg.leaderStream lims t i order = some (1 :: cfg.blocks i (groupSize cfg.nodeNum i)) := by
  have hsize := groupSize_eq hi
  have hmax := groupSizeMax_pos cfg.nodeNum
  have hfirst := groupId_mul_add (n := cfg.nodeNum) i
  have horder : ∀ j ∈ order, j < groupSize cfg.nodeNum i := by
    intro j hj
    have := mem_range'_1.mp (hperm.mem_iff.mp hj)
    omega
  obtain ⟨socks, hsocks, hread⟩ := leaderSockets_spec horder
  have hround : ∀ (j : Nat) (out : List Nat), 1 ≤ j → j < 1 + (groupSize cfg.nodeNum i - 1) →
      out = 1 :: cfg.blocks i j →
      ∃ next, cfg.sendOn lims ((range (groupSize cfg.nodeNum i)).map fun j => cfg.nodeSize (i + j)) socks out j =
        some next ∧ next = 1 :: cfg.blocks i (j + 1) := by
    intro j out hlo hhi hout
    have hsock := hread j (hperm.mem_iff.mpr (mem_range'_1.mpr ⟨hlo, hhi⟩))
    refine ⟨_, sendOn_spec hlims hi hleader (by omega) hsock, ?_⟩
    rw [hout, blocks_succ]
    rfl
  obtain ⟨out, hout, heq⟩ := foldlM_range'_spec 1 (groupSize cfg.nodeNum i - 1)
    (show 1 :: cfg.block i = 1 :: cfg.blocks i 1 by simp [blocks]) hround
  rw [show 1 + (groupSize cfg.nodeNum i - 1) = groupSize cfg.nodeNum i by omega] at heq
  subst heq
  simp only [leaderStream, leaderSizes_spec h hi hleader, hsocks, daemonStream_spec hlims hi]
  exact hout

structure Entries {α : Type} (cfg : StartUp) (a : CArray α) (val : Nat → Nat → α) (k : Nat) : Prop where
  length_eq : a.length = cfg.size
  read_eq : ∀ v < k, ∀ j < cfg.nodeSize v, a.read ((cfg.startOf v + j : Nat) : Int) = some (val v j)

theorem Entries.empty (cfg : StartUp) (val : Nat → Nat → α) (x : α) : Entries cfg (replicate cfg.size x) val 0 :=
  ⟨length_replicate, by omega⟩

theorem Entries.extend {a : CArray α} {val : Nat → Nat → α} (h : Entries cfg a val v) (hv : v < cfg.nodeNum)
    (vs : List α) (hvs : vs = (range (cfg.nodeSize v)).map (val v)) :
    ∃ b, a.writeAll (cfg.limsOf v).start vs = some b ∧ Entries cfg b val (v + 1) := by
  have hlen : vs.length = cfg.nodeSize v := by rw [hvs, length_map, length_range]
  have hend : cfg.startOf v + cfg.nodeSize v ≤ cfg.size := by
    rw [← cfg.startOf_succ v]
    exact cfg.startOf_mono hv
  have hfits : ((cfg.limsOf v).start + vs.length : Int) ≤ a.length := by
    rw [limsOf, h.length_eq]
    dsimp only
    omega
  obtain ⟨b, hb, hblen, hin, hout⟩ := writeAll_spec (show 0 ≤ (cfg.limsOf v).start from Int.natCast_nonneg _) hfits
  refine ⟨b, hb, hblen.trans h.length_eq, ?_⟩
  intro w hw j hj
  by_cases hwv : w = v
  · subst hwv
    have := hin j (by omega)
    rw [hvs, getElem?_map, getElem?_range hj] at this
    exact this
  · have hstart := cfg.startOf_mono (show w + 1 ≤ v by omega)
    rw [startOf_succ] at hstart
    rw [hout _ (.inl (by rw [limsOf]; dsimp only; omega))]
    exact h.read_eq w (by omega) j hj

/-- The ids and the ranks of the nodes below `k` are entered, the processes of the nodes below `m` marked. -/
structure Entered (cfg : StartUp) (r : Registration) (k m : Nat) : Prop where
  pids : Entries cfg r.globalPids cfg.pid k
  ranks : Entries cfg r.allRanks (fun v j => cfg.startOf v + j) k
  running : Entries cfg r.procState (fun _ _ => .running) m

variable {r : Registration} {m sock : Nat} {rest : List Nat}

theorem readNode_spec (h : Entered cfg r v m) (hv : v < cfg.nodeNum) (hunread : r.unread sock = cfg.block v ++ rest) :
    ∃ u, readNode sock (cfg.limsOf v) r = some u ∧ Entered cfg u (v + 1) m ∧ u.unread = update r.unread sock rest := by
  obtain ⟨a, ha, hpids⟩ := h.pids.extend hv _ rfl
  obtain ⟨b, hb, hranks⟩ := h.ranks.extend hv _ rfl
  refine ⟨⟨a, b, r.procState, update r.unread sock rest⟩, ?_, ⟨hpids, hranks, h.running⟩, rfl⟩
  simp only [readNode, count_limsOf, hunread, takeWords_pids, takeWords_ranks, ha, hb, bind_eq_bind, bind_some]

theorem markNode_spec (h : Entered cfg r n v) (hv : v < cfg.nodeNum) :
    ∃ u, markNode (cfg.limsOf v) r = some u ∧ Entered cfg u n (v + 1) ∧ u.unread = r.unread := by
  obtain ⟨a, ha, hrunning⟩ := h.running.extend hv (replicate (cfg.nodeSize v) .running)
    (by rw [map_const', length_range])
  refine ⟨{ r with procState := a }, ?_, ⟨h.pids, h.ranks, hrunning⟩, rfl⟩
  simp only [markNode, count_limsOf, ha, bind_eq_bind, bind_some]

theorem groupNodeid_ne_zero (hpos : 0 < j) (hlt : j < groupSizeMax n) : groupNodeid n j ≠ 0 := by
  rw [groupNodeid, Nat.mod_eq_of_lt hlt]
  omega

theorem groupNodeid_max (n : Nat) : groupNodeid n (groupSizeMax n) = 0 := Nat.mod_self _

variable (h : Noted cfg (range cfg.nodeNum) t)

include h

theorem readMembers_spec (hlims : Limits cfg lims) (hi : i < cfg.nodeNum)
    (hleader : groupNodeid cfg.nodeNum i = 0) (fuel : Nat) (hpos : 0 < j) (hj : j ≤ groupSize cfg.nodeNum i)
    (hfuel : groupSize cfg.nodeNum i < j + fuel) (hent : Entered cfg r (i + j) m)
    (hunread : r.unread sock = cfg.blocks (i + j) (groupSize cfg.nodeNum i - j)) :
    ∃ u, cfg.readMembers lims t sock i fuel j r = some u ∧ Entered cfg u (i + groupSize cfg.nodeNum i) m ∧
      u.unread = update r.unread sock [] := by
  have hsize := groupSize_eq hi
  have hfirst := groupId_mul_add (n := cfg.nodeNum) i
  induction fuel generalizing j r with
  | zero => omega
  | succ fuel ih =>
    rw [readMembers]
    by_cases hlast : j = groupSize cfg.nodeNum i
    · -- the scan stops behind the last node, or at the next group
      subst hlast
      rw [Nat.sub_self] at hunread
      have hdone : update r.unread sock [] = r.unread := by
        rw [← show r.unread sock = [] from hunread, update_eq_self]
      by_cases hend : i + groupSize cfg.nodeNum i < cfg.nodeNum
      · have hmax : groupSize cfg.nodeNum i = groupSizeMax cfg.nodeNum := by omega
        have hread := h.nodeids (groupSize cfg.nodeNum i) (mem_range.mpr (by omega))
        rw [hmax, groupNodeid_max, ← hmax] at hread
        rw [if_pos hend, hread]
        exact ⟨r, rfl, hent, hdone.symm⟩
      · rw [if_neg hend]
        exact ⟨r, rfl, hent, hdone.symm⟩
    · have hlt := add_lt_of_leader hi hleader (show j < groupSize cfg.nodeNum i by omega)
      have hread := h.nodeids j (mem_range.mpr (by omega))
      have hne : groupNodeid cfg.nodeNum j ≠ 0 := groupNodeid_ne_zero hpos (by omega)
      rw [show groupSize cfg.nodeNum i - j = groupSize cfg.nodeNum i - (j + 1) + 1 by omega] at hunread
      obtain ⟨u, hu, huent, huunread⟩ := readNode_spec hent hlt hunread
      obtain ⟨w, hw, hwent, hwunread⟩ := ih (j := j + 1) (by omega) (by omega) (by omega) huent
        (by rw [huunread, update_self]; rfl)
      refine ⟨w, ?_, hwent, ?_⟩
      · simp only [if_pos hlt, hread, bind_eq_bind, bind_some, if_pos hne, hlims.read_eq _ hlt, hu]
        exact hw
      · rw [hwunread, huunread, update_idem]

theorem markMembers_spec (hlims : Limits cfg lims)
    (hfull : i + groupSizeMax cfg.nodeNum ≤ cfg.nodeNum) (hi : 0 < i) (fuel : Nat) (hpos : 0 < j)
    (hj : j ≤ groupSizeMax cfg.nodeNum) (hfuel : groupSizeMax cfg.nodeNum < j + fuel)
    (hent : Entered cfg r n (i + j)) :
    ∃ u, cfg.markMembers lims t i fuel j r = some u ∧ Entered cfg u n (i + groupSizeMax cfg.nodeNum) ∧
      u.unread = r.unread := by
  induction fuel generalizing j r with
  | zero => omega
  | succ fuel ih =>
    have hread := h.nodeids j (mem_range.mpr (by omega))
    rw [markMembers, if_pos (by omega), hread]
    by_cases hlast : j = groupSizeMax cfg.nodeNum
    · subst hlast
      rw [groupNodeid_max]
      exact ⟨r, rfl, hent, rfl⟩
    · have hne : groupNodeid cfg.nodeNum j ≠ 0 := groupNodeid_ne_zero hpos (by omega)
      obtain ⟨u, hu, huent, huunread⟩ := markNode_spec hent (show i + j < cfg.nodeNum by omega)
      obtain ⟨w, hw, hwent, hwunread⟩ := ih (j := j + 1) (by omega) (by omega) (by omega) huent
      refine ⟨w, ?_, hwent, hwunread.trans huunread⟩
      simp only [bind_eq_bind, bind_some, if_pos hne, hlims.read_eq _ (show i + j < cfg.nodeNum by omega), hu]
      exact hw

theorem markMembers_short (hlims : Limits cfg lims)
    (hshort : cfg.nodeNum < i + groupSizeMax cfg.nodeNum) (hi : groupSizeMax cfg.nodeNum ≤ i) {fuel : Nat} (hpos : 0 < j)
    (hj : i + j ≤ cfg.nodeNum) : cfg.markMembers lims t i fuel j r = none := by
  induction fuel generalizing j r with
  | zero => rfl
  | succ fuel ih =>
    have hread := h.nodeids j (mem_range.mpr (by omega))
    have hne : groupNodeid cfg.nodeNum j ≠ 0 := groupNodeid_ne_zero hpos (by omega)
    rw [markMembers, if_pos (by omega), hread]
    simp only [bind_eq_bind, bind_some, if_pos hne]
    by_cases hlast : i + j = cfg.nodeNum
    · have hout : lims.read ((i + j : Nat) : Int) = none := by
        rw [read_natCast, hlast]
        exact getElem?_eq_none (by rw [hlims.length_eq])
      rw [hout, bind_none]
    · rw [hlims.read_eq _ (show i + j < cfg.nodeNum by omega), bind_some]
      cases markNode (cfg.limsOf (i + j)) r with
      | none => rfl
      | some u => exact ih (by omega) (by omega)

end StartUp

end ParepMpi
