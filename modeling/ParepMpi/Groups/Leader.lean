import Mathlib.Algebra.GroupWithZero.Nat
import ParepMpi.Lib.Run
import ParepMpi.Lib.Buffer

/-!
# The leader of a group of nodes

The coordinators of a group are connected to the main coordinator through the leader of their group. A member that
finds its leader gone asks the main coordinator, which names the next node that it does not know to be lost; the new
leader also gets the tables of the group. Which sockets are used, and how a loss is detected, is left out: a loss, its
detection, a request and a connection are events in any order.
-/

namespace ParepMpi

open List Function Wire

/-- The states of a coordinator, in the order of the source's enumeration. -/
inductive DaemonState where
  | uninitialized
  | running
  | terminated
  deriving DecidableEq, Repr

def DaemonState.code : DaemonState → Nat
  | .uninitialized => 0
  | .running => 1
  | .terminated => 2

/-- The groups of nodes, with the addresses and sizes of the nodes as the main coordinator has them. -/
structure NodeGroups where
  sizes : List Nat
  addr : Nat → List Nat
  ipText : List Nat → List Nat
  nodeSize : Nat → Nat
  size_lt : ∀ m ∈ sizes, m < 2 ^ 31
  addr_length : ∀ j, (addr j).length = 16
  ipText_length : ∀ a, (ipText a).length = 256

namespace NodeGroups

variable (cfg : NodeGroups)

def size (g : Nat) : Nat := cfg.sizes.getD g 0

def offset (g : Nat) : Nat := (cfg.sizes.take g).sum

def node (g i : Nat) : Nat := cfg.offset g + i

variable {cfg} {g h i j : Nat}

theorem offset_succ : cfg.offset (g + 1) = cfg.offset g + cfg.size g := by
  rw [offset, offset, size, take_add_one, sum_append, getD_eq_getElem?_getD]
  cases cfg.sizes[g]? with
  | none => rfl
  | some m => simp

theorem offset_add_size_le (hlt : g < h) : cfg.offset g + cfg.size g ≤ cfg.offset h := by
  induction hlt with
  | refl => exact Nat.le_of_eq offset_succ.symm
  | step _ ih => exact Nat.le_trans ih (by rw [offset_succ]; omega)

theorem node_inj (hi : i < cfg.size g) (hj : j < cfg.size h) (heq : cfg.node g i = cfg.node h j) : g = h ∧ i = j := by
  unfold node at heq
  rcases Nat.lt_trichotomy g h with hlt | rfl | hlt
  · have : cfg.offset g + cfg.size g ≤ cfg.offset h := offset_add_size_le hlt
    omega
  · omega
  · have : cfg.offset h + cfg.size h ≤ cfg.offset g := offset_add_size_le hlt
    omega

end NodeGroups

/-- The tables of the main coordinator, and what the members know. -/
structure Leaders where
  daemonState : Nat → DaemonState
  leaderNodeids : Nat → Nat
  pending : List Nat
  lost : Nat → Bool
  believed : Nat → Nat
  connected : Nat → Bool
  given : List (Nat × Nat × Bool)

inductive LeaderEvent where
  /-- Node `i` of group `g` is lost. -/
  | lose (g i : Nat)
  /-- The main coordinator learns that the node is lost, from `CMD_CHECK_NODE_FAIL`. -/
  | notice (g i : Nat)
  /-- The member sends `CMD_GET_NGROUP_LEADER` and gets its answer. -/
  | request (g i : Nat)
  /-- The member connects to the leader it knows. -/
  | connect (g i : Nat)
  /-- A new leader comes back to the main coordinator. -/
  | register (k : Nat)
  deriving DecidableEq, Repr

namespace Leaders

def init : Leaders :=
  ⟨fun _ => .running, fun _ => 0, [], fun _ => false, fun _ => 0, fun _ => true, []⟩

variable (cfg : NodeGroups) (s : Leaders)

/-- The search for the next leader; `none` when it reads past the group. -/
def searchLeader (offset size : Nat) : Nat → Nat → Option Nat
  | 0, _ => none
  | fuel + 1, newLeader =>
    if newLeader < size then
      if s.daemonState (offset + newLeader) = .terminated then searchLeader offset size fuel (newLeader + 1)
      else some newLeader
    else none

/-- `handle_get_ngroup_leader`: the answer, and the table of leaders. -/
def handleGetNgroupLeader (ngid ngnid leaderNgid : Nat) : Option (Nat × (Nat → Nat)) :=
  let offset := cfg.offset ngid
  let nid := offset + ngnid
  if leaderNgid = s.leaderNodeids nid then do
    let newLeader ← s.searchLeader offset (cfg.size ngid) (cfg.size ngid) (leaderNgid + 1)
    some (newLeader, fun j => if offset ≤ j ∧ j < offset + cfg.size ngid then newLeader else s.leaderNodeids j)
  else some (s.leaderNodeids nid, s.leaderNodeids)

/-- What is written to the member. -/
def reply (ngid ngnid newLeader : Nat) : List Nat :=
  let offset := cfg.offset ngid
  encode 4 newLeader ++ (cfg.ipText (cfg.addr (offset + newLeader)) ++
    if ngnid = newLeader then
      ((range (cfg.size ngid)).flatMap fun j => cfg.addr (offset + j)) ++
        (((range (cfg.size ngid)).flatMap fun j => encode 4 (cfg.nodeSize (offset + j))) ++
          (range (4 * cfg.size ngid)).flatMap fun j => encode 4 (s.daemonState (offset + j)).code)
    else [])

/-- What `get_group_server_from_main` reads: the new leader, its address and, at the new leader, the addresses, the
sizes and the states of the group. -/
def getGroupServerFromMain (size ngnid : Nat) (stream : List Nat) :
    Option ((Nat × List Nat × List Nat × List Nat × List Nat) × List Nat) := do
  let (newLeader, stream) ← take 4 stream
  let (ip, stream) ← take 256 stream
  if decode newLeader = ngnid then
    let (addrs, stream) ← take (size * 16) stream
    let (sizes, stream) ← take (size * 4) stream
    let (states, stream) ← take (size * 4) stream
    some ((decode newLeader, ip, addrs, sizes, states), stream)
  else some ((decode newLeader, ip, [], [], []), stream)

/-- The member lives, is connected to its leader and finds it gone. -/
def Asks (g i : Nat) : Prop :=
  g ≠ 0 ∧ i < cfg.size g ∧ s.lost (cfg.node g i) = false ∧ s.connected (cfg.node g i) = true ∧
    s.lost (cfg.node g (s.believed (cfg.node g i))) = true

instance (g i : Nat) : Decidable (s.Asks cfg g i) := instDecidableAnd

def answered (g i newLeader : Nat) (leaderNodeids : Nat → Nat) : Leaders :=
  { s with
    leaderNodeids := leaderNodeids
    pending := if i = newLeader then s.pending ++ [cfg.node g (s.believed (cfg.node g i))] else s.pending
    believed := update s.believed (cfg.node g i) newLeader
    connected := update s.connected (cfg.node g i) false
    given := s.given ++ [(g, newLeader, false)] }

def step : LeaderEvent → Option Leaders
  | .lose g i =>
    if i < cfg.size g then
      some { s with
        lost := update s.lost (cfg.node g i) true
        given := s.given.map fun e => if e.1 = g ∧ e.2.1 = i then (e.1, e.2.1, true) else e }
    else none
  | .notice g i =>
    if i < cfg.size g ∧ s.lost (cfg.node g i) = true then
      some { s with daemonState := update s.daemonState (cfg.node g i) .terminated }
    else none
  | .request g i =>
    if s.Asks cfg g i then do
      let (newLeader, leaderNodeids) ← s.handleGetNgroupLeader cfg g i (s.believed (cfg.node g i))
      some (s.answered cfg g i newLeader leaderNodeids)
    else none
  | .connect g i =>
    if i < cfg.size g ∧ s.lost (cfg.node g i) = false ∧ s.lost (cfg.node g (s.believed (cfg.node g i))) = false then
      some { s with connected := update s.connected (cfg.node g i) true }
    else none
  | .register k => do
      let v ← s.pending[k]?
      some { s with pending := s.pending.eraseIdx k, daemonState := update s.daemonState v .terminated }

/-- A good answer: a member of the group that is not known to be terminated and not the one that is gone, found without
reading past the group; the same as every answer whose node has not been lost since; and what is written is what is
read. -/
def Answered (g i : Nat) : Prop :=
  ∃ newLeader leaderNodeids,
    s.handleGetNgroupLeader cfg g i (s.believed (cfg.node g i)) = some (newLeader, leaderNodeids) ∧
      newLeader < cfg.size g ∧ s.daemonState (cfg.node g newLeader) ≠ .terminated ∧
      newLeader ≠ s.believed (cfg.node g i) ∧ (∀ a, (g, a, false) ∈ s.given → a = newLeader) ∧
      ∃ msg, getGroupServerFromMain (cfg.size g) i (s.reply cfg g i newLeader) = some (msg, []) ∧ msg.1 = newLeader

/-- A member that does not know the present leader asks while that one lives. -/
def Timely : LeaderEvent → Prop
  | .request g i =>
    s.believed (cfg.node g i) = s.leaderNodeids (cfg.node g i) ∨
      s.lost (cfg.node g (s.leaderNodeids (cfg.node g i))) = false
  | _ => True

instance : ∀ e, Decidable (s.Timely cfg e)
  | .request _ _ => instDecidableOr
  | .lose _ _ | .notice _ _ | .connect _ _ | .register _ => instDecidableTrue

def TakesOver (g i : Nat) : Prop :=
  if s.believed (cfg.node g i) = s.leaderNodeids (cfg.node g i) then
    ∀ j < i, s.leaderNodeids (cfg.node g i) < j → s.daemonState (cfg.node g j) = .terminated
  else i = s.leaderNodeids (cfg.node g i)

instance (g i : Nat) : Decidable (s.TakesOver cfg g i) :=
  inferInstanceAs (Decidable (if s.believed (cfg.node g i) = s.leaderNodeids (cfg.node g i) then
    ∀ j < i, s.leaderNodeids (cfg.node g i) < j → s.daemonState (cfg.node g j) = .terminated
  else i = s.leaderNodeids (cfg.node g i)))

variable {cfg s} {g i j : Nat}

theorem searchLeader_spec {offset size fuel newLeader last : Nat} (hle : newLeader ≤ last) (hlast : last < size)
    (hrunning : s.daemonState (offset + last) ≠ .terminated) (hfuel : last < newLeader + fuel) :
    ∃ a, s.searchLeader offset size fuel newLeader = some a ∧ newLeader ≤ a ∧ a ≤ last ∧
      s.daemonState (offset + a) ≠ .terminated ∧ ∀ j, newLeader ≤ j → j < a → s.daemonState (offset + j) = .terminated := by
  induction fuel generalizing newLeader with
  | zero => omega
  | succ fuel ih =>
    rw [searchLeader, if_pos (by omega)]
    by_cases hterm : s.daemonState (offset + newLeader) = .terminated
    · have hne : newLeader ≠ last := by
        rintro rfl
        exact hrunning hterm
      obtain ⟨a, ha, hlow, hhigh, hstate, hbetween⟩ := ih (show newLeader + 1 ≤ last by omega) (by omega)
      rw [if_pos hterm]
      refine ⟨a, ha, by omega, hhigh, hstate, ?_⟩
      intro j hj hja
      rcases Nat.eq_or_lt_of_le hj with rfl | hj
      · exact hterm
      · exact hbetween j hj hja
    · rw [if_neg hterm]
      exact ⟨newLeader, rfl, Nat.le_refl _, hle, hterm, by omega⟩

variable {newLeader : Nat}

theorem receive_member (hlt : newLeader < 2 ^ 31) (hne : i ≠ newLeader) :
    ∃ msg, getGroupServerFromMain (cfg.size g) i (s.reply cfg g i newLeader) = some (msg, []) ∧ msg.1 = newLeader := by
  have hdecode := decode_encode (w := 4) (show newLeader < 256 ^ 4 by omega)
  simp only [getGroupServerFromMain, reply, if_neg hne, take_append (length_encode 4 newLeader),
    take_append (cfg.ipText_length _), Option.bind_eq_bind, Option.bind_some, hdecode, if_neg (Ne.symm hne)]
  exact ⟨_, rfl, rfl⟩

theorem receive_leader (hlt : newLeader < cfg.size g) (hsize : cfg.size g < 2 ^ 31) :
    ∃ msg rest, getGroupServerFromMain (cfg.size g) newLeader (s.reply cfg g newLeader newLeader) = some (msg, rest) ∧
      rest.length = 12 * cfg.size g := by
  have hdecode := decode_encode (w := 4) (show newLeader < 256 ^ 4 by omega)
  have hstates : (range (4 * cfg.size g)).flatMap (fun j => encode 4 (s.daemonState (cfg.offset g + j)).code) =
      ((range (cfg.size g)).flatMap fun j => encode 4 (s.daemonState (cfg.offset g + j)).code) ++
        (range' (cfg.size g) (3 * cfg.size g)).flatMap fun j => encode 4 (s.daemonState (cfg.offset g + j)).code := by
    rw [← flatMap_append, range_eq_range', range_eq_range']
    rw [show 4 * cfg.size g = cfg.size g + 3 * cfg.size g by omega, ← range'_append_1, zero_add]
  simp only [getGroupServerFromMain, reply, if_true, hstates, take_append (length_encode 4 newLeader),
    take_append (cfg.ipText_length _), Option.bind_eq_bind, Option.bind_some, hdecode,
    take_append (length_flatMap_range (fun j => cfg.addr_length (cfg.offset g + j)) (cfg.size g)),
    take_append (length_flatMap_range (fun _ => length_encode 4 _) (cfg.size g))]
  refine ⟨_, _, rfl, ?_⟩
  rw [length_flatMap]
  simp only [length_encode, map_const', sum_replicate_nat, length_range']
  omega

end Leaders

end ParepMpi
