import ParepMpi.Messages.Delivery
import ParepMpi.Messages.Receiving

/-!
# Messages do not overtake each other

The processes with their receives: a message of a rank comes to a position in the order in which the rank has sent, and
is handed to the application by a posted receive or out of `recvDataList`. Recovery takes away the receives that are
posted, posts them again, and sends anew what was on its way, which must not change the order that the application
sees.
-/

namespace ParepMpi

open Option Function List MsgWorld

structure RecvWorld where
  msgs : MsgWorld
  receivers : Int → Receiver

inductive OrderEvent where
  /-- `MPI_Isend` at position `i`. -/
  | isend (i : Int)
  /-- The next message of rank `s` comes to position `j`. -/
  | arrive (j s : Int)
  /-- `MPI_Irecv` from rank `s` with tag `g` at position `j`. -/
  | irecv (j s g : Int)
  /-- A test at position `j` finds the `k`-th receive complete. -/
  | finish (j : Int) (k : Nat)
  /-- `probe_msg_from_source` at position `j`. -/
  | probe (j s : Int)
  /-- These processes fail; the others agree on new maps and recover. -/
  | fail (failed : List Int)
  deriving DecidableEq, Repr

namespace MsgWorld

def take (w : MsgWorld) (j : Int) (m : Int × Nat) : Option MsgWorld := w.receive (w.net.idxOf ⟨j, m.1, m.2⟩)

def traffic (dest : Int → Nat → Int) (w : MsgWorld) (j : Int) : Traffic where
  addressed m := 0 ≤ m.1 ∧ m.1 < w.maps.nC ∧ firstSendid ≤ m.2 ∧ dest m.1 m.2 = w.maps.logical j
  sent s := (w.procs (w.maps.sender s j)).sendid
  received m := m ∈ (w.procs j).received
  flying m := ⟨j, m.1, m.2⟩ ∈ w.net

end MsgWorld

namespace RecvWorld

variable (dest tag : Int → Nat → Int)

def start (m : ProcMaps) : RecvWorld := ⟨MsgWorld.start m, fun _ => {}⟩

def step (w : RecvWorld) : OrderEvent → Option RecvWorld
  | .isend i => (w.msgs.isend dest i).map fun msgs => { w with msgs := msgs }
  | .arrive j s => do
      let msg ← w.msgs.net.find? fun m => m.dst = j ∧ m.source = s ∧ ¬ (w.receivers j).Arrived (m.source, m.id)
      some { w with receivers := update w.receivers j ((w.receivers j).arrive tag (msg.source, msg.id)) }
  | .irecv j s g =>
    if j ∈ w.msgs.maps.positions ∧ 0 ≤ s ∧ s < w.msgs.maps.nC then
      some { w with receivers := update w.receivers j ((w.receivers j).irecv tag s g) }
    else none
  | .finish j k => do
      let out ← (w.receivers j).finish k
      let msgs ← w.msgs.take j out.2
      some ⟨msgs, update w.receivers j out.1⟩
  | .probe j s =>
    -- A process does not probe for its own messages.
    if w.msgs.maps.sender s j = j then none
    else do
      let out ← (w.receivers j).probe s
      let msgs ← w.msgs.take j out.2
      some ⟨msgs, update w.receivers j out.1⟩
  | .fail failed => do
      let out ← regroup w.msgs.maps failed
      some ⟨(w.msgs.moved out.1 out.2).restore, fun i => (w.receivers (out.2 i)).repost⟩

/-- Once the processes have moved, the skip lists they bring along are backed by the receive logs. -/
def SkipsBacked (w : RecvWorld) : OrderEvent → Prop
  | .fail failed => w.msgs.SkipsBacked dest (.fail failed)
  | _ => True

instance (w : RecvWorld) : ∀ e, Decidable (w.SkipsBacked dest e)
  | .fail failed => inferInstanceAs (Decidable (w.msgs.SkipsBacked dest (.fail failed)))
  | .isend _ | .arrive _ _ | .irecv _ _ _ | .finish _ _ | .probe _ _ => instDecidableTrue

end RecvWorld

/-- Messages to one position from one rank are in the order of their ids. -/
def Message.InTurn (m m' : Message) : Prop := m.dst = m'.dst → m.source = m'.source → m.id < m'.id

instance : Std.Irrefl Message.InTurn := ⟨fun _ h => lt_irrefl _ (h rfl rfl)⟩

namespace MsgWorld

variable {dest : Int → Nat → Int} {w w' : MsgWorld} {i j s : Int}

theorem Flowing.traffic_whole (hf : w.Flowing dest) (hk : w.Keeping dest) (hj : j ∈ w.maps.positions) :
    (w.traffic dest j).Whole where
  flying m hm := by
    obtain ⟨-, h0, hlt, hfirst, hlog⟩ := hf.net _ hm
    have honce := hf.once j hj m.1 m.2
    have hone : 1 ≤ w.net.count ⟨j, m.1, m.2⟩ := one_le_count_iff.mpr hm
    refine ⟨⟨h0, hlt, hfirst, hlog⟩, ?_, ?_⟩
    · by_contra hnot
      exact hf.unsent j hj m.1 h0 hlt m.2 (not_lt.mp hnot) hm
    · intro hrec
      have hrec' : 1 ≤ (w.procs j).received.count (m.1, m.2) := one_le_count_iff.mpr hrec
      unfold copies at honce
      omega
  received m hm := (hf.logs j hj).addressed m hm
  kept m hm hsent := by
    obtain ⟨h0, hlt, hfirst, hlog⟩ := hm
    have hcopies := hk.arrives j hj m.1 h0 hlt m.2 hfirst hsent hlog
    unfold copies at hcopies
    rcases Nat.eq_zero_or_pos ((w.procs j).received.count (m.1, m.2)) with hzero | hpos
    · exact .inr (one_le_count_iff.mp (show 1 ≤ w.net.count ⟨j, m.1, m.2⟩ by omega))
    · exact .inl (one_le_count_iff.mp hpos)

variable {m : Int × Nat}

theorem mem_of_take (h : w.take j m = some w') : ⟨j, m.1, m.2⟩ ∈ w.net := by
  obtain ⟨msg, hmsg, -⟩ := receive_cases h
  exact List.idxOf_lt_length_iff.mp (List.getElem?_eq_some_iff.mp hmsg).1

theorem take_cases (h : w.take j m = some w') : w'.maps = w.maps ∧ w'.net = w.net.erase ⟨j, m.1, m.2⟩ ∧
      (∀ i, (w'.procs i).sendid = (w.procs i).sendid ∧ (w'.procs i).sends = (w.procs i).sends) ∧
      ∀ i u, u ∈ (w'.procs i).received ↔ u ∈ (w.procs i).received ∨ i = j ∧ u = m := by
  have hget : w.net[w.net.idxOf ⟨j, m.1, m.2⟩]? = some ⟨j, m.1, m.2⟩ := getElem?_idxOf (mem_of_take h)
  obtain ⟨msg, hmsg, hmaps, hnet, hself, hother⟩ := receive_cases h
  obtain rfl := some_inj.mp (hget.symm.trans hmsg)
  refine ⟨hmaps, by rw [hnet, erase_eq_eraseIdx_of_idxOf rfl], ?_, ?_⟩
  · intro i
    by_cases hi : i = j
    · rw [hi, hself]
      exact ⟨rfl, rfl⟩
    · rw [hother i hi]
      exact ⟨rfl, rfl⟩
  · intro i u
    have hrec : (u.1, u.2) ∈ (w'.procs i).received ↔ _ := receive_received h
    rw [hget, some_inj, Message.mk.injEq] at hrec
    rw [hrec, Prod.ext_iff, eq_comm, eq_comm (a := m.1), eq_comm (a := m.2)]

/-- A message that is received leaves the network and enters the log, and nothing else changes for any position. -/
theorem take_traffic (hnet : w.net.Pairwise Message.InTurn) (h : w.take j m = some w') (i : Int) :
    w'.traffic dest i = if i = j then (w.traffic dest j).deliver m else w.traffic dest i := by
  obtain ⟨hmaps, hnet', hsend, hrec⟩ := take_cases h
  have hflying : ∀ u : Int × Nat, (⟨i, u.1, u.2⟩ : Message) ∈ w'.net ↔
      (⟨i, u.1, u.2⟩ : Message) ∈ w.net ∧ ¬ (i = j ∧ u = m) := by
    intro u
    rw [hnet', hnet.nodup.mem_erase_iff, and_comm, ne_eq, Message.mk.injEq, Prod.ext_iff]
  split
  · rename_i hij
    subst hij
    ext u
    · simp only [traffic, Traffic.deliver, hmaps]
    · simp only [traffic, Traffic.deliver, hmaps, hsend]
    · simpa only [traffic, Traffic.deliver, true_and] using hrec i u
    · simpa only [traffic, Traffic.deliver, true_and] using hflying u
  · rename_i hij
    ext u
    · simp only [traffic, hmaps]
    · simp only [traffic, hmaps, hsend]
    · simpa only [traffic, hij, false_and, or_false] using hrec i u
    · simpa only [traffic, hij, false_and, not_false_eq_true, and_true] using hflying u

def SendsSorted (w : MsgWorld) : Prop := ∀ i ∈ w.maps.positions, ((w.procs i).sends.map (·.id)).Pairwise (· < ·)

theorem isend_sorted (hf : w.Flowing dest) (hsends : w.SendsSorted) (h : w.isend dest i = some w') : w'.SendsSorted := by
  obtain ⟨hi, hmaps, -, hself, hother⟩ := isend_cases h
  intro j hj
  rw [hmaps] at hj
  by_cases hji : j = i
  · rw [hji, hself, Proc.issue, map_append, pairwise_append]
    refine ⟨hsends i hi, pairwise_singleton _ _, ?_⟩
    intro a ha b hb
    obtain ⟨r, hr, rfl⟩ := mem_map.mp ha
    rw [mem_singleton.mp hb]
    exact ((hf.logs i hi).sent r hr).2.1
  · rw [hother j hji]
    exact hsends j hj

section

variable (hdest : ∀ s id, 0 ≤ dest s id ∧ dest s id < w.maps.nC)

include hdest

theorem outgoing_late (hf : w.Flowing dest) (hi : i ∈ w.maps.positions) {m m' : Message} (hm : m ∈ w.net)
    (hm' : m' ∈ w.outgoing i (dest (w.maps.logical i) (w.procs i).sendid)) : m.InTurn m' := by
  intro hdst hsource
  obtain ⟨hj, h0, hlt, -, -⟩ := hf.net m hm
  obtain ⟨-, -, hid, hsender, -, -⟩ := outgoing_sender hdest hf.maps hi hm'
  by_contra hnot
  rw [← hdst, ← hsource] at hsender
  exact hf.unsent m.dst hj m.source h0 hlt m.id (by rw [hsender]; omega) hm

theorem isend_net_sorted (hf : w.Flowing dest) (hnet : w.net.Pairwise Message.InTurn)
    (h : w.isend dest i = some w') : w'.net.Pairwise Message.InTurn := by
  obtain ⟨hi, -, hnet', -, -⟩ := isend_cases h
  have hrange := hdest (w.maps.logical i) (w.procs i).sendid
  rw [hnet']
  refine pairwise_append.mpr ⟨hnet, ?_, fun m hm m' => outgoing_late hdest hf hi hm⟩
  apply (outgoing_nodup hf.maps hrange.1 hrange.2).imp_of_mem
  intro m m' hm hm' hne hdst hsource
  have hid := (mem_outgoing.mp hm).2.1
  have hid' := (mem_outgoing.mp hm').2.1
  exact absurd (by rw [Message.mk.injEq]; exact ⟨hdst, hsource, hid.trans hid'.symm⟩) hne

end

theorem restore_net_sorted (hdest : ∀ s id, 0 ≤ dest s id ∧ dest s id < w.maps.nC) (hm : w.maps.Valid)
    (hlogs : ∀ i ∈ w.maps.positions, (w.procs i).Logged dest w.maps.nC (w.maps.logical i))
    (hsends : w.SendsSorted) (hnet : w.net = []) : w.restore.net.Pairwise Message.InTurn := by
  simp only [restore, hnet, nil_append]
  rw [pairwise_flatMap]
  constructor
  · intro q hq
    rw [resends, pairwise_flatMap]
    constructor
    · intro r hr
      have htarget := ((hlogs q hq).sent r hr).2.2
      rw [pairwise_map, htarget]
      apply ((hm.recipients_nodup (hdest _ _).1 (hdest _ _).2 q).filter _).imp
      exact fun hne hdst => absurd hdst hne
    · refine (pairwise_map.mp (hsends q hq)).imp ?_
      intro r r' hlt m hm m' hm' _ _
      obtain ⟨_, -, rfl⟩ := mem_map.mp hm
      obtain ⟨_, -, rfl⟩ := mem_map.mp hm'
      exact hlt
  · apply (ProcMaps.positions_nodup w.maps).imp_of_mem
    intro q q' hq hq' hne m hmem m' hmem' hdst hsource
    have hq₁ := ((resends_sender hdest hm hlogs hq).mp hmem).2.2.1
    have hq₂ := ((resends_sender hdest hm hlogs hq').mp hmem').2.2.1
    rw [← hdst, ← hsource] at hq₂
    exact absurd (hq₁.symm.trans hq₂) hne

end MsgWorld

namespace RecvWorld

variable {dest tag : Int → Nat → Int} {w w' : RecvWorld}

structure Orderly (dest tag : Int → Nat → Int) (w : RecvWorld) : Prop where
  flow : w.msgs.Flow dest
  keeping : w.msgs.Keeping dest
  sends : w.msgs.SendsSorted
  net : w.msgs.net.Pairwise Message.InTurn
  sound : ∀ j ∈ w.msgs.maps.positions, (w.receivers j).Sound tag (w.msgs.traffic dest j)

namespace Orderly

theorem start {m : ProcMaps} (hm : m.Valid) : (start m).Orderly dest tag where
  flow := MsgWorld.start_flow hm
  keeping := MsgWorld.start_keeping
  sends _ _ := List.Pairwise.nil
  net := List.Pairwise.nil
  sound j _ := by
    constructor
    all_goals simp [RecvWorld.start, MsgWorld.start, MsgWorld.traffic, Receiver.Arrived]

variable (h : w.Orderly dest tag)

include h

variable {j : Int} {msgs : MsgWorld} {b : Receiver}

theorem whole (hj : j ∈ w.msgs.maps.positions) : (w.msgs.traffic dest j).Whole :=
  h.flow.toFlowing.traffic_whole h.keeping hj

theorem isend (hdest : ∀ s id, 0 ≤ dest s id ∧ dest s id < w.msgs.maps.nC) {i : Int}
    (hs : w.msgs.isend dest i = some msgs) : ({ w with msgs := msgs } : RecvWorld).Orderly dest tag where
  flow := isend_flow hdest h.flow hs
  keeping := isend_keeping hdest h.flow.toFlowing h.keeping hs
  sends := isend_sorted h.flow.toFlowing h.sends hs
  net := isend_net_sorted hdest h.flow.toFlowing h.net hs
  sound j hj := by
    obtain ⟨hi, hmaps, hnet, -, -⟩ := isend_cases hs
    rw [hmaps] at hj
    refine (h.sound j hj).sent ?_ ?_ ?_ ?_
    · simp only [traffic, hmaps]
    · simp only [traffic, isend_received hs]
    · intro m hm
      simp only [traffic, hnet]
      exact mem_append_left _ hm
    · intro m hm hnew m' hm' hsource
      simp only [traffic, hnet] at hm
      have hout := (mem_append.mp hm).resolve_left hnew
      exact outgoing_late hdest h.flow.toFlowing hi hm' hout rfl hsource

theorem update (hb : j ∈ w.msgs.maps.positions → b.Sound tag (w.msgs.traffic dest j)) :
    ({ w with receivers := update w.receivers j b } : RecvWorld).Orderly dest tag where
  flow := h.flow
  keeping := h.keeping
  sends := h.sends
  net := h.net
  sound i hi := by
    by_cases hij : i = j
    · subst hij
      dsimp only
      rw [update_self]
      exact hb hi
    · dsimp only
      rw [update_of_ne hij]
      exact h.sound i hi

theorem arrive {j s : Int} {msg : Message}
    (hfind : (w.msgs.net.find? fun m => m.dst = j ∧ m.source = s ∧ ¬ (w.receivers j).Arrived (m.source, m.id)) = some msg) :
    ({ w with receivers := Function.update w.receivers j ((w.receivers j).arrive tag (msg.source, msg.id)) } :
      RecvWorld).Orderly dest tag := by
  have hfound := find?_some hfind
  obtain ⟨hdst, hsource, hnew⟩ := of_decide_eq_true hfound
  obtain ⟨-, as, bs, hnet, hbefore⟩ := find?_eq_some_iff_append.mp hfind
  refine h.update fun hj => (h.sound j hj).arrive (h.whole hj) ?_ hnew ?_
  · simp only [traffic, ← hdst]
    exact mem_of_find?_eq_some hfind
  · intro m hm hmnew hmsource
    have hmem : (⟨j, m.1, m.2⟩ : Message) ∈ as ++ msg :: bs := hnet ▸ hm
    rcases mem_append.mp hmem with has | hrest
    · have hno := hbefore _ has
      rw [Bool.not_eq_true', decide_eq_false_iff_not] at hno
      exact absurd ⟨rfl, hmsource.trans hsource, hmnew⟩ hno
    · rcases mem_cons.mp hrest with rfl | hbs
      · exact le_rfl
      · have hsorted := h.net
        rw [hnet] at hsorted
        obtain ⟨-, hcons, -⟩ := pairwise_append.mp hsorted
        exact le_of_lt ((pairwise_cons.mp hcons).1 _ hbs hdst hmsource.symm)

theorem take {m : Int × Nat} (hb : j ∈ w.msgs.maps.positions → b.Sound tag ((w.msgs.traffic dest j).deliver m))
    (hs : w.msgs.take j m = some msgs) : RecvWorld.Orderly dest tag ⟨msgs, Function.update w.receivers j b⟩ := by
  obtain ⟨hmaps, hnet, hsends, -⟩ := take_cases hs
  refine ⟨receive_flow h.flow hs, receive_keeping h.keeping hs, ?_, ?_, ?_⟩
  · intro i hi
    rw [(hsends i).2]
    exact h.sends i (hmaps ▸ hi)
  · rw [hnet]
    exact h.net.sublist erase_sublist
  · intro i hi
    have hi' : i ∈ w.msgs.maps.positions := hmaps ▸ hi
    dsimp only
    rw [take_traffic h.net hs i]
    split
    · rename_i hij
      subst hij
      rw [update_self]
      exact hb hi'
    · rename_i hij
      rw [update_of_ne hij]
      exact h.sound i hi'

theorem fail (hdest : ∀ s id, 0 ≤ dest s id ∧ dest s id < w.msgs.maps.nC) {failed : List Int} {maps : ProcMaps}
    {old : Int → Int} (hs : regroup w.msgs.maps failed = some (maps, old))
    (hback : MsgWorld.Backed dest (w.msgs.moved maps old)) :
    RecvWorld.Orderly dest tag ⟨(w.msgs.moved maps old).restore, fun i => (w.receivers (old i)).repost⟩ := by
  have hc := regroup_carried hs h.flow.maps
  obtain ⟨hflow, hkeep⟩ := h.flow.recovers hdest hc
  have hsends : (w.msgs.moved maps old).SendsSorted := fun i hi => h.sends (old i) (hc.mem i hi)
  have hdest' : ∀ s id, 0 ≤ dest s id ∧ dest s id < (w.msgs.moved maps old).maps.nC := by
    rwa [show (w.msgs.moved maps old).maps.nC = w.msgs.maps.nC from hc.nC]
  refine ⟨hflow, hkeep hback, hsends, ?_, ?_⟩
  · exact restore_net_sorted hdest' hc.valid (moved_logs hc h.flow.logs) hsends rfl
  · intro i hi
    refine (h.sound (old i) (hc.mem i hi)).repost ?_ rfl
    have hlog := hc.logical i hi
    have hnC := hc.nC
    simp only [traffic, restore_maps, moved, hlog, hnC]

theorem step (hdest : ∀ s id, 0 ≤ dest s id ∧ dest s id < w.msgs.maps.nC) {e : OrderEvent}
    (hback : w.SkipsBacked dest e) (hs : w.step dest tag e = some w') :
    w'.Orderly dest tag ∧ w'.msgs.maps.nC = w.msgs.maps.nC := by
  cases e with
  | isend i =>
    obtain ⟨msgs, hmsgs, rfl⟩ := map_eq_some_iff.mp hs
    exact ⟨h.isend hdest hmsgs, by rw [(isend_cases hmsgs).2.1]⟩
  | arrive j s =>
    obtain ⟨msg, hfind, hs⟩ := bind_eq_some_iff.mp hs
    obtain rfl := some_inj.mp hs
    exact ⟨h.arrive hfind, rfl⟩
  | irecv j s g =>
    obtain ⟨-, hs⟩ := ite_none_right_eq_some.mp hs
    obtain rfl := some_inj.mp hs
    exact ⟨h.update fun hj => (h.sound j hj).irecv (h.whole hj) s g, rfl⟩
  | finish j k =>
    obtain ⟨⟨b, m⟩, hb, hs⟩ := bind_eq_some_iff.mp hs
    obtain ⟨msgs, hmsgs, hs⟩ := bind_eq_some_iff.mp hs
    obtain rfl := some_inj.mp hs
    exact ⟨h.take (fun hj => ((h.sound j hj).finish hb).2) hmsgs, by rw [(take_cases hmsgs).1]⟩
  | probe j s =>
    obtain ⟨-, hs⟩ := ite_none_left_eq_some.mp hs
    obtain ⟨⟨b, m⟩, hb, hs⟩ := bind_eq_some_iff.mp hs
    obtain ⟨msgs, hmsgs, hs⟩ := bind_eq_some_iff.mp hs
    obtain rfl := some_inj.mp hs
    exact ⟨h.take (fun hj => ((h.sound j hj).probe (h.whole hj) hb).2) hmsgs, by rw [(take_cases hmsgs).1]⟩
  | fail failed =>
    obtain ⟨⟨maps, old⟩, hgroup, hs⟩ := bind_eq_some_iff.mp hs
    obtain rfl := some_inj.mp hs
    have hshrink : w.msgs.shrink failed = some (w.msgs.moved maps old) := by
      rw [shrink, hgroup]
      rfl
    exact ⟨h.fail hdest hgroup (hback _ hshrink), (regroup_carried hgroup h.flow.maps).nC⟩

end Orderly

/-- In every run whose failures find the skip lists backed by the receive logs, every process hands the messages of a
source and a tag to the application in the order of their ids. -/
theorem receives_in_order {m : ProcMaps} (hm : m.Valid) (hdest : ∀ s id, 0 ≤ dest s id ∧ dest s id < m.nC)
    (es : List OrderEvent) (hback : Guarded (step dest tag) (SkipsBacked dest) (start m) es)
    (hrun : runEvents (step dest tag) (start m) es = some w) :
    ∀ j ∈ w.msgs.maps.positions, ∀ s g, ((w.receivers j).handed s g).Pairwise (· < ·) := by
  have hinv : w.Orderly dest tag ∧ w.msgs.maps.nC = m.nC := by
    refine hback.invariant (P := fun u => u.Orderly dest tag ∧ u.msgs.maps.nC = m.nC) hrun ⟨Orderly.start hm, rfl⟩ ?_
    intro u e u' hu hg hstep
    obtain ⟨ho, hnC⟩ := hu
    have hnext := ho.step (by rwa [hnC]) hg hstep
    exact ⟨hnext.1, hnext.2.trans hnC⟩
  exact fun j hj s g => (hinv.1.sound j hj).handed_pairwise s g

/-- The program in which rank 0 sends to rank 1 and the others to rank 0, all with tag 5. -/
def toSecond (s : Int) (_ : Nat) : Int := if s = 0 then 1 else 0

def oneTag (_ : Int) (_ : Nat) : Int := 5

theorem toSecond_range {n : Int} (hn : 2 ≤ n) (s : Int) (id : Nat) : 0 ≤ toSecond s id ∧ toSecond s id < n := by
  unfold toSecond
  split
  all_goals omega

/-- The first message is probed before it is asked for; the second one has met a receive when a process fails, and is
sent again. -/
theorem probed_and_resent_in_order : ∃ w, runEvents (step toSecond oneTag) (start (.initial 2 2))
    [.isend 0, .arrive 1 0, .probe 1 0, .irecv 1 0 5, .irecv 1 0 5, .isend 0, .arrive 1 0, .fail [3], .arrive 1 0,
      .finish 1 1] = some w ∧ (w.receivers 1).handed 0 5 = [firstSendid, firstSendid + 1] ∧
      ∀ j ∈ w.msgs.maps.positions, ∀ s g, ((w.receivers j).handed s g).Pairwise (· < ·) := by
  refine exists_run_imp (P := fun w => (w.receivers 1).handed 0 5 = [firstSendid, firstSendid + 1]) (by decide +kernel) ?_
  refine fun w hw hhanded =>
    ⟨hhanded, receives_in_order (ProcMaps.initial_valid (by decide)) (toSecond_range (by decide)) _ ?_ hw⟩
  decide +kernel

/-- Rank 0's replica and then rank 1's take over. The first message is skipped for a process that has it no longer,
and the recovery after a third failure brings it behind the second one. -/
theorem skipped_message_overtaken : ∃ w, runEvents (step toSecond oneTag) (start (.initial 3 3))
    [.isend 0, .irecv 1 0 5, .arrive 1 0, .finish 1 0, .fail [0], .fail [1], .isend 0, .isend 0, .irecv 1 0 5,
      .arrive 1 0, .finish 1 0, .fail [3], .irecv 1 0 5, .arrive 1 0, .finish 1 1] = some w ∧
      1 ∈ w.msgs.maps.positions ∧ ¬ ((w.receivers 1).handed 0 5).Pairwise (· < ·) := by
  decide +kernel

end RecvWorld

end ParepMpi
