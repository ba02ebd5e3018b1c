import Mathlib.Algebra.Group.Int.Defs
import ParepMpi.Lib.Buffer
import ParepMpi.Messages.Ids
import ParepMpi.Messages.Routing

/-!
# The id that travels with a message

`MPI_Isend` puts its id behind the payload, in as many items of the datatype as hold four bytes. A receive that is
posted takes the message in items of its own datatype and a probe takes it as bytes; both find the id at the end of
what came, give the payload to the application and log the same record. Sizes are products of `int`s and wrap as the
source's do; what the bytes mean to the application is left open.
-/

namespace ParepMpi

open Bytewise Buffer Int

def int32 (n : Int) : Int := n.bmod (2 ^ 32)

variable {n target : Int} {size : Nat} {msg : Buffer}

theorem int32_of_lt (h0 : 0 ≤ n) (hlt : n < 2 ^ 31) : int32 n = n := by
  exact bmod_eq_of_le (by omega) (by omega)

theorem int32_neg (hle : 2 ^ 31 ≤ n) (hlt : n < 2 ^ 32) : int32 n < 0 := by
  unfold int32
  rw [bmod_def]
  omega

def extracount (size : Nat) : Nat :=
  if 4 ≤ size then 1
  else if 4 % size = 0 then 4 / size
  else 4 / size + 1

theorem extracount_spec (hsize : 0 < size) :
    4 ≤ extracount size * size ∧ extracount size * size < 4 + size ∧ extracount size ≤ 4 := by
  rcases lt_or_ge size 4 with hlt | hge
  · obtain h | h | h : size = 1 ∨ size = 2 ∨ size = 3 := by omega
    all_goals
      subst h
      decide
  · rw [extracount, if_pos hge]
    omega

/-- The bytes of `count` items and the id, as both sides ask an allocator for them. -/
def messageBytes (size count : Nat) : Option Nat :=
  let items := int32 (count + extracount size)
  let bytes := int32 (items * size)
  if 0 ≤ items ∧ 0 ≤ bytes then some bytes.toNat else none

/-- The payload and the id in `n` bytes that were `fresh` before. -/
def stamped (n size count : Nat) (payload fresh : Nat → Nat) (sendid : BitVec 32) : Buffer where
  size := n
  byte :=
    let dis := n - 4
    overlayAt ⟨4, byte sendid.toNat⟩ dis (overlay ⟨count * size, payload⟩ fresh)

def isendBuffer (size count : Nat) (payload fresh : Nat → Nat) (sendid : BitVec 32) : Option Buffer := do
  let n ← messageBytes size count
  if count * size ≤ n ∧ 4 ≤ n then some (stamped n size count payload fresh sendid) else none

/-- What EMPI says about a message that it has put into a buffer. -/
structure Arrival where
  bytes : Nat
  source : Int
  tag : Int

/-- `EMPI_Get_count`, with `EMPI_UNDEFINED` when there is a part of an item. -/
def Arrival.getCount (a : Arrival) (size : Nat) : Int :=
  if size ∣ a.bytes then (a.bytes / size : Nat) else -32766

theorem Arrival.getCount_mul (items : Nat) (hsize : 0 < size) (source tag : Int) :
    (Arrival.mk (items * size) source tag).getCount size = items := by
  rw [getCount, if_pos (Nat.dvd_mul_left size items), Nat.mul_div_cancel _ hsize]

def mpiTag (tag : Int) : Int := if tag = -1 then -1 else tag

structure RecvEntry where
  count : Int
  target : Int
  tag : Int
  id : BitVec 32
  deriving DecidableEq, Repr

/-- A complete receive: the buffer of the application, `status.count` and the RECV record. -/
structure Received where
  user : Nat → Nat
  count : Int
  entry : RecvEntry

def intAt (buf : Nat → Nat) (d : Nat) : BitVec 32 := BitVec.ofNat 32 (ofBytes (fun i => buf (d + i)) 4)

/-- A posted receive is found complete in `test_all_ptp_requests` or `test_all_requests`. -/
def completeRecv (size : Nat) (target : Int) (user buf : Nat → Nat) (a : Arrival) : Option Received :=
  let count := a.getCount size - extracount size
  let id := intAt buf (((count + extracount size) * size).toNat - 4)
  if 0 ≤ count ∧ HasMarker id then
    some { user := overlay ⟨(count * size).toNat, buf⟩ user
           count := count
           entry := ⟨count, target, mpiTag a.tag, id⟩ }
  else none

/-- A message comes to a posted receive for `capacity` items whose buffer has `room` bytes. -/
def postedRecv (size capacity room : Nat) (target : Int) (user old : Nat → Nat) (msg : Buffer) (source tag : Int) :
    Option Received :=
  if msg.size ≤ (capacity + extracount size) * size ∧ msg.size ≤ room then
    completeRecv size target user (msg.overlay old) ⟨msg.size, source, tag⟩
  else none

theorem postedRecv_of_le {size capacity room : Nat} {user old : Nat → Nat}
    {source tag : Int} (hitems : msg.size ≤ (capacity + extracount size) * size) (hle : msg.size ≤ room) :
    postedRecv size capacity room target user old msg source tag =
      completeRecv size target user (msg.overlay old) ⟨msg.size, source, tag⟩ := if_pos ⟨hitems, hle⟩

theorem size_le_of_postedRecv {size capacity room : Nat} {user old : Nat → Nat}
    {source tag : Int} {r : Received} (h : postedRecv size capacity room target user old msg source tag = some r) :
    msg.size ≤ room := by
  by_contra hlt
  rw [postedRecv, if_neg (fun hboth => hlt hboth.2)] at h
  exact absurd h (by simp)

/-- `probe_msg_from_source`: the message is taken in as bytes, into a block of its size. -/
def probeMsg (target : Int) (old : Nat → Nat) (msg : Buffer) (source tag : Int) : Option (Buffer × RecvEntry) :=
  let a : Arrival := ⟨msg.size, source, tag⟩
  let count := a.getCount 1 - extracount 1
  let buf := msg.overlay old
  let id := intAt buf (count * 1).toNat
  if 0 ≤ count ∧ HasMarker id then some (⟨(count + extracount 1).toNat, buf⟩, ⟨count, target, mpiTag a.tag, id⟩)
  else none

def takeListed (size : Nat) (user : Nat → Nat) (curargs : Buffer × RecvEntry) : Received :=
  let recvcount := curargs.2.count.tdiv size
  { user := overlay ⟨(recvcount * size).toNat, curargs.1.byte⟩ user
    count := recvcount
    entry := { curargs.2 with count := recvcount } }

namespace ProcMaps

/-- The rank, in the communicator it uses, of the process that sends to this copy for the logical rank `q`. -/
def sourceRank (m : ProcMaps) (replica : Bool) (q : Int) : Int := if replica ∧ m.ctr q ≠ -1 then m.ctr q else q

def postedSource (m : ProcMaps) (replica : Bool) (named source : Int) : Int :=
  if replica ∧ m.ctr named ≠ -1 then m.rtc source else source

/-- `MPI_SOURCE` of a probed message. -/
def probedSource (m : ProcMaps) (replica : Bool) (q source : Int) : Int :=
  let src := if replica ∧ m.ctr q ≠ -1 then m.ctr q + m.nC else q
  if replica ∧ m.nC ≤ src then m.rtc source else source

theorem probedSource_eq {m : ProcMaps} (hm : m.Valid) {q : Int} (h0 : 0 ≤ q) (hlt : q < m.nC) (replica : Bool)
    (source : Int) : m.probedSource replica q source = m.postedSource replica q source := by
  unfold probedSource postedSource
  by_cases h : replica = true ∧ m.ctr q ≠ -1
  · have hbounds := hm.inverse.ctr_bounds h0 hlt h.2
    simp only [if_pos h]
    rw [if_pos ⟨h.1, by omega⟩]
  · simp only [if_neg h]
    rw [if_neg]
    omega

end ProcMaps

structure Received.Carries (r : Received) (size count : Nat) (payload : Nat → Nat) (id : BitVec 32) : Prop where
  payload : ∀ o < count * size, r.user o = payload o
  count : r.count = count
  id : r.entry.id = id

section

variable (m : ProcMaps) (replica : Bool) (q named tag : Int) (size count capacity : Nat)
  (payload fresh user old : Nat → Nat) (id : BitVec 32)

/-- A message comes out of both ways of receiving it, whatever block of at least the size asked for the posted receive
has, and the two leave the same record. -/
structure ReceivedAlike (msg : Buffer) : Prop where
  listed : ∃ curargs,
    probeMsg (m.probedSource replica q (m.sourceRank replica q)) old msg (m.sourceRank replica q) tag = some curargs ∧
    (takeListed size user curargs).Carries size count payload id
  posted : ∃ n, messageBytes size capacity = some n ∧ ∀ room, n ≤ room → ∃ r,
    postedRecv size capacity room (m.postedSource replica named (m.sourceRank replica q)) user old msg
      (m.sourceRank replica q) tag = some r ∧
    r.Carries size count payload id ∧
    ∀ curargs, probeMsg (m.probedSource replica q (m.sourceRank replica q)) old msg (m.sourceRank replica q) tag =
        some curargs →
      (takeListed size user curargs).entry = r.entry

/-- `MPI_Isend` has a message to send, and it is received alike both ways. -/
def RoundTrips : Prop :=
  ∃ msg, isendBuffer size count payload fresh id = some msg ∧
    ReceivedAlike m replica q named tag size count capacity payload user old id msg

end

section

variable {size count capacity : Nat} {payload fresh user old : Nat → Nat} {id : BitVec 32} {source tag target : Int}

theorem messageBytes_eq_some_iff {n : Nat} (hsize : 0 < size) (hcap : capacity < 2 ^ 31) :
    messageBytes size capacity = some n ↔
      capacity + extracount size < 2 ^ 31 ∧ int32 ((capacity + extracount size) * size) = n := by
  obtain ⟨-, -, hle⟩ := extracount_spec hsize
  unfold messageBytes
  by_cases hlt : capacity + extracount size < 2 ^ 31
  · have hitems : int32 (capacity + extracount size) = capacity + extracount size := int32_of_lt (by omega) (by omega)
    rw [hitems]
    by_cases hneg : 0 ≤ int32 ((capacity + extracount size) * size)
    · rw [if_pos ⟨by omega, hneg⟩, Option.some_inj]
      omega
    · rw [if_neg (by omega)]
      simp only [reduceCtorEq, false_iff]
      omega
  · have hitems : int32 (capacity + extracount size) < 0 := int32_neg (by omega) (by omega)
    rw [if_neg (by omega)]
    simp only [reduceCtorEq, false_iff]
    omega

abbrev whole (size count : Nat) (payload fresh : Nat → Nat) (id : BitVec 32) : Buffer :=
  stamped ((count + extracount size) * size) size count payload fresh id

variable (hsize : 0 < size)

include hsize

theorem isendBuffer_eq (hfit : (count + extracount size) * size < 2 ^ 31) :
    isendBuffer size count payload fresh id = some (whole size count payload fresh id) := by
  obtain ⟨hge, -, -⟩ := extracount_spec hsize
  have hlong : (count + extracount size) * size = count * size + extracount size * size := add_mul _ _ _
  have hitems : count + extracount size ≤ (count + extracount size) * size := Nat.le_mul_of_pos_right _ hsize
  have hint : int32 ((count + extracount size) * size) = ((count + extracount size) * size : Nat) := by
    apply int32_of_lt
    · exact Int.mul_nonneg (by omega) (by omega)
    · rw [← natCast_add]
      omega
  have hbytes : messageBytes size count = some ((count + extracount size) * size) :=
    (messageBytes_eq_some_iff hsize (by omega)).mpr ⟨by omega, hint⟩
  rw [isendBuffer, hbytes]
  exact if_pos ⟨by omega, by omega⟩

theorem intAt_whole (id : BitVec 32) :
    intAt ((whole size count payload fresh id).overlay old) ((count + extracount size) * size - 4) = id := by
  obtain ⟨hge, -, -⟩ := extracount_spec hsize
  have hlong : 4 ≤ (count + extracount size) * size := by
    rw [add_mul]
    omega
  have hbytes : ofBytes (fun i => (whole size count payload fresh id).overlay old
      ((count + extracount size) * size - 4 + i)) 4 = ofBytes (byte id.toNat) 4 := by
    apply ofBytes_congr
    intro i hi
    rw [overlay_of_lt (show _ < (count + extracount size) * size by omega)]
    exact overlayAt_add hi
  rw [intAt, hbytes, ofBytes_byte, show (256 : Nat) ^ 4 = 2 ^ 32 by decide, Nat.mod_eq_of_lt id.isLt,
    BitVec.ofNat_toNat, BitVec.setWidth_eq]

theorem whole_payload {o : Nat} (ho : o < count * size) :
    (whole size count payload fresh id).overlay old o = payload o := by
  obtain ⟨hge, -, -⟩ := extracount_spec hsize
  have hlong : (count + extracount size) * size = count * size + extracount size * size := add_mul _ _ _
  rw [overlay_of_lt (show o < (count + extracount size) * size by omega)]
  have hid : o < (count + extracount size) * size - 4 := by omega
  exact (overlayAt_of_lt hid).trans (overlay_of_lt ho)

theorem overlay_payload {o n : Nat} (ho : o < count * size) (hn : n = count * size) :
    overlay ⟨n, (whole size count payload fresh id).overlay old⟩ user o = payload o := by
  subst hn
  rw [overlay_of_lt ho]
  exact whole_payload hsize ho

theorem completeRecv_whole (hid : HasMarker id) :
    completeRecv size target user ((whole size count payload fresh id).overlay old)
      ⟨(whole size count payload fresh id).size, source, tag⟩ =
    some { user := overlay ⟨count * size, (whole size count payload fresh id).overlay old⟩ user
           count := count
           entry := ⟨count, target, mpiTag tag, id⟩ } := by
  have hcount : (Arrival.mk (whole size count payload fresh id).size source tag).getCount size -
      extracount size = count := by
    have hitems := Arrival.getCount_mul (count + extracount size) hsize source tag
    change (Arrival.mk ((count + extracount size) * size) source tag).getCount size - extracount size = count
    omega
  unfold completeRecv
  simp only [hcount]
  have hdis : (((count : Int) + extracount size) * size).toNat - 4 = (count + extracount size) * size - 4 := by
    rw [← natCast_add, ← natCast_mul, toNat_natCast]
  rw [hdis, intAt_whole hsize, if_pos ⟨natCast_nonneg count, hid⟩, ← natCast_mul, toNat_natCast]

theorem probeMsg_whole (hid : HasMarker id) : probeMsg target old (whole size count payload fresh id) source tag =
    some (⟨(count + extracount size) * size, (whole size count payload fresh id).overlay old⟩,
      ⟨((count + extracount size) * size - 4 : Nat), target, mpiTag tag, id⟩) := by
  obtain ⟨hge, -, -⟩ := extracount_spec hsize
  have hlong : 4 ≤ (count + extracount size) * size := by
    rw [add_mul]
    omega
  have hcount : (Arrival.mk (whole size count payload fresh id).size source tag).getCount 1 - extracount 1 =
      ((count + extracount size) * size - 4 : Nat) := by
    have hitems := Arrival.getCount_mul ((count + extracount size) * size) Nat.one_pos source tag
    rw [mul_one] at hitems
    change (Arrival.mk ((count + extracount size) * size) source tag).getCount 1 - (4 : Nat) = _
    omega
  unfold probeMsg
  simp only [hcount]
  have hblock : ((((count + extracount size) * size - 4 : Nat) : Int) + extracount 1).toNat =
      (count + extracount size) * size := by
    rw [show extracount 1 = 4 from rfl]
    omega
  rw [mul_one, toNat_natCast, intAt_whole hsize, if_pos ⟨natCast_nonneg _, hid⟩, hblock]

theorem recvcount_eq : (((count + extracount size) * size - 4 : Nat) : Int).tdiv size = count := by
  obtain ⟨hge, hlt, -⟩ := extracount_spec hsize
  have hlong : (count + extracount size) * size - 4 = extracount size * size - 4 + count * size := by
    rw [add_mul]
    omega
  rw [tdiv_eq_ediv_of_nonneg (natCast_nonneg _), ← natCast_ediv, hlong, Nat.add_mul_div_right _ _ hsize,
    Nat.div_eq_of_lt (by omega), zero_add]

theorem takeListed_eq :
    takeListed size user (⟨(count + extracount size) * size, (whole size count payload fresh id).overlay old⟩,
      ⟨((count + extracount size) * size - 4 : Nat), target, mpiTag tag, id⟩) =
    { user := overlay ⟨count * size, (whole size count payload fresh id).overlay old⟩ user
      count := count
      entry := ⟨count, target, mpiTag tag, id⟩ } := by
  unfold takeListed
  simp only [recvcount_eq hsize]
  rw [← natCast_mul, toNat_natCast]

theorem carries_payload (target tag : Int) : Received.Carries
      { user := overlay ⟨count * size, (whole size count payload fresh id).overlay old⟩ user
        count := count
        entry := ⟨count, target, mpiTag tag, id⟩ } size count payload id where
  payload _ ho := overlay_payload hsize ho rfl
  count := rfl
  id := rfl

end

theorem RoundTrips.room {m : ProcMaps} {replica : Bool} {q named tag : Int} {size count capacity : Nat}
    {payload fresh user old : Nat → Nat} {id : BitVec 32}
    (h : RoundTrips m replica q named tag size count capacity payload fresh user old id) (hsize : 0 < size)
    (hfit : (count + extracount size) * size < 2 ^ 31) (hcap : capacity < 2 ^ 31) :
    capacity + extracount size < 2 ^ 31 ∧
      ((count + extracount size) * size : Int) ≤ int32 ((capacity + extracount size) * size) := by
  obtain ⟨msg, hsend, h⟩ := h
  rw [isendBuffer_eq hsize hfit, Option.some_inj] at hsend
  subst hsend
  obtain ⟨n, hn, hroom⟩ := h.posted
  obtain ⟨hitems, hbytes⟩ := (messageBytes_eq_some_iff hsize hcap).mp hn
  obtain ⟨r, hr, -⟩ := hroom n (Nat.le_refl n)
  refine ⟨hitems, ?_⟩
  rw [hbytes]
  exact ofNat_le.mpr (size_le_of_postedRecv hr)

/-- A message goes through both ways of receiving it exactly when the buffer of the posted receive, as an `int` has its
size, is not smaller than the message. -/
theorem encoding_round_trips_iff {m : ProcMaps} (hm : m.Valid) {q : Int} (h0 : 0 ≤ q) (hlt : q < m.nC) {replica : Bool}
    {named : Int} (hnamed : replica = true → named = q) (tag : Int) {size count capacity : Nat} (hsize : 0 < size)
    (hfit : (count + extracount size) * size < 2 ^ 31) (hle : count ≤ capacity) (hcap : capacity < 2 ^ 31)
    (payload fresh user old : Nat → Nat) {id : BitVec 32} (hid : HasMarker id) :
    RoundTrips m replica q named tag size count capacity payload fresh user old id ↔
      capacity + extracount size < 2 ^ 31 ∧
        ((count + extracount size) * size : Int) ≤ int32 ((capacity + extracount size) * size) := by
  have hsource : ∀ source, m.probedSource replica q source = m.postedSource replica named source := by
    intro source
    rw [ProcMaps.probedSource_eq hm h0 hlt]
    cases replica with
    | false => rfl
    | true => rw [hnamed rfl]
  constructor
  · intro h
    exact h.room hsize hfit hcap
  · intro h
    obtain ⟨hitems, hroom⟩ := h
    obtain ⟨n, hn⟩ := eq_ofNat_of_zero_le (le_trans (natCast_nonneg _) hroom)
    rw [hn] at hroom
    refine ⟨_, isendBuffer_eq hsize hfit, ⟨_, probeMsg_whole hsize hid, ?_⟩, n,
      (messageBytes_eq_some_iff hsize hcap).mpr ⟨hitems, hn⟩, ?_⟩
    · rw [takeListed_eq hsize]
      exact carries_payload hsize _ tag
    · intro room hge
      have hinside := le_trans (ofNat_le.mp hroom) hge
      have hmost : (whole size count payload fresh id).size ≤ (capacity + extracount size) * size :=
        Nat.mul_le_mul_right size (Nat.add_le_add_right hle _)
      refine ⟨_, (postedRecv_of_le hmost hinside).trans (completeRecv_whole hsize hid), carries_payload hsize _ tag, ?_⟩
      intro curargs hprobe
      rw [probeMsg_whole hsize hid, Option.some_inj] at hprobe
      rw [← hprobe, takeListed_eq hsize, hsource]

/-- Two items of three bytes, sent by the replica of rank 0 and received with a buffer of five items. -/
theorem short_message_round_trips :
    RoundTrips (.initial 2 2) true 0 0 7 3 2 5 (fun i => i) (fun _ => 0) (fun _ => 0) (fun _ => 0) (idAt 3) :=
  (encoding_round_trips_iff (ProcMaps.initial_valid (by decide)) (by decide) (by decide) (fun _ => rfl) 7 (by decide)
    (by decide) (by decide) (by decide) _ _ _ _ (by decide)).mpr ⟨by decide, by decide⟩

/-- A message of 8008 bytes comes to a receive for `2 ^ 29` items of 8 bytes. The size of the buffer for these and the id
is `2 ^ 32 + 8`, of which an `int` keeps 8. -/
theorem large_capacity_overrun :
    ¬ RoundTrips (.initial 1 0) false 0 0 0 8 1000 (2 ^ 29) (fun _ => 0) (fun _ => 0) (fun _ => 0) (fun _ => 0)
      (idAt 0) := by
  intro h
  have hroom := (h.room (by decide) (by decide) (by decide)).2
  exact absurd hroom (by decide)

end ParepMpi
