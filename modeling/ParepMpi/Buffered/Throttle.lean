import ParepMpi.Buffered.Size

/-!
# Waiting for room

`MPI_Isend` and `MPI_Iallreduce` ask for a clean-up with `CMD_REM_RECV` when what is buffered would reach `0x40000000`
bytes and `rem_recv_msg_sent` is not set, and wait in a loop while it would reach `0x80000000`. How much a round frees
is an argument of the event. Requests that the coordinators of other nodes forward count as on their way, and a process
is stuck when it waits and nothing that is to come, at it or at the coordinator, starts a round.
-/

namespace ParepMpi

open List Option

/-- A process: what is buffered, the flag, the call that waits for room with what it needs, the number of rounds it has
cleaned up in, and whether it has yet to set the flag after the last of them. -/
structure Sender where
  storeBufSz : Int
  remRecvMsgSent : Bool
  waiting : Option Int
  rounds : Nat
  unsettled : Bool

structure ThrottleConfig where
  procs : Nat
  leader : Nat
  leader_lt : leader < procs

/-- The processes and the coordinator, with the requests and the reports that are on their way to it and the number of
rounds it has started. -/
structure Throttle where
  sender : Nat → Sender
  requests : Nat
  reports : Nat
  remRecvRecvd : Bool
  remRecvRunning : Bool
  rounds : Nat

/-- What happens: a call, a turn of the loop of a call, the part of a process in a round, which frees some of what is
buffered, its setting of the flag, and the reception of a request, the start of a round and the reception of a report at
the coordinator. -/
inductive ThrottleEvent where
  | isend (p size count : Nat)
  | iallreduce (p size count : Nat)
  | poll (p : Nat)
  | clean (p : Nat) (freed : Int)
  | settle (p : Nat)
  | request
  | start
  | report

def ThrottleEvent.owner : ThrottleEvent → Option Nat
  | isend p _ _ => some p
  | iallreduce p _ _ => some p
  | poll p => some p
  | clean p _ => some p
  | settle p => some p
  | _ => none

namespace Throttle

def initial : Throttle := ⟨fun _ => ⟨0, false, none, 0, false⟩, 0, 0, false, false, 0⟩

variable (c : ThrottleConfig) (s : Throttle) (p : Nat)

def put (x : Sender) : Throttle := { s with sender := Function.update s.sender p x }

/-- The beginning of a call that needs `n` bytes: it may ask for a round, and takes the room or waits for it. -/
def call (n : Int) : Option Throttle :=
  let x := s.sender p
  if x.waiting.isSome then none
  else
    let asks := decide (0x40000000 ≤ x.storeBufSz + n) && !x.remRecvMsgSent
    let x := { x with remRecvMsgSent := x.remRecvMsgSent || asks }
    let s := { s with requests := s.requests + asks.toNat }
    if 0x80000000 ≤ x.storeBufSz + n then some (s.put p { x with waiting := some n })
    else some (s.put p { x with storeBufSz := x.storeBufSz + n })

/-- All processes have come to the barrier of the round in which `p` is next. -/
def together : Bool :=
  (range c.procs).all fun q =>
    decide ((s.sender p).rounds < (s.sender q).rounds) ||
      (decide ((s.sender q).rounds = (s.sender p).rounds) && !(s.sender q).unsettled)

def clean (freed : Int) : Option Throttle :=
  let x := s.sender p
  if x.rounds < s.rounds ∧ s.together c p ∧ 0 ≤ freed ∧ freed ≤ x.storeBufSz then
    let s := { s with reports := s.reports + if p = c.leader then 1 else 0 }
    some (s.put p { x with storeBufSz := x.storeBufSz - freed, rounds := x.rounds + 1, unsettled := true })
  else none

def settledFlag (storeBufSz : Int) (remRecvMsgSent : Bool) : Bool :=
  if storeBufSz ≤ 0x1000000 then false
  else if 0x4000000 ≤ storeBufSz then true
  else remRecvMsgSent

def settle : Option Throttle :=
  let x := s.sender p
  if x.unsettled then
    some (s.put p { x with remRecvMsgSent := settledFlag x.storeBufSz x.remRecvMsgSent, unsettled := false })
  else none

def step : ThrottleEvent → Option Throttle
  | .isend p size count => if p < c.procs ∧ size ≠ 0 then s.call p (sendBytes size count) else none
  | .iallreduce p size count => if p < c.procs ∧ size ≠ 0 then s.call p (allreduceBytes size count) else none
  | .poll p =>
    let x := s.sender p
    x.waiting.map fun n =>
      if 0x80000000 ≤ x.storeBufSz + n then s
      else s.put p { x with storeBufSz := x.storeBufSz + n, waiting := none }
  | .clean p freed => if p < c.procs then s.clean c p freed else none
  | .settle p => if p < c.procs then s.settle p else none
  | .request => if 0 < s.requests then some { s with requests := s.requests - 1, remRecvRecvd := true } else none
  | .start =>
    if s.remRecvRecvd ∧ ¬ s.remRecvRunning then some { s with remRecvRunning := true, rounds := s.rounds + 1 } else none
  | .report =>
    if 0 < s.reports then some { s with reports := s.reports - 1, remRecvRecvd := false, remRecvRunning := false }
    else none

def Requested : Prop := 0 < s.requests ∨ s.remRecvRecvd = true ∨ s.remRecvRunning = true

def Spinning : Prop :=
  ∃ n ∈ (s.sender p).waiting, 0x80000000 ≤ (s.sender p).storeBufSz + n

/-- The process waits for room while no round is asked for, and nothing that happens at the process asks for one. -/
def Stuck : Prop :=
  s.Spinning p ∧ ¬ s.Requested ∧
    ∀ es, (∀ e ∈ es, ThrottleEvent.owner e = some p) → ∀ s', runEvents (step c) s es = some s' → ¬ s'.Requested

def Served : Prop :=
  0 < s.requests ∨ (s.remRecvRecvd = true ∧ s.remRecvRunning = false) ∨ (s.sender p).rounds < s.rounds

/-- A call that has to wait can ask for a round, or has a clean-up to come. -/
def CallServed (n : Int) : Prop :=
  0x80000000 ≤ (s.sender p).storeBufSz + n → (s.sender p).remRecvMsgSent = true → s.Served p

/-- Three kinds of events are shut out: a call that has to wait when its process has asked already and no request, round
or clean-up is to come; a clean-up that leaves a waiting call without room when it is the last to come; and a request that
is dropped because a round is running, when it is the last and a waiting process has had its clean-up. -/
def Attended : ThrottleEvent → Prop
  | .isend p size count => s.CallServed p (sendBytes size count)
  | .iallreduce p size count => s.CallServed p (allreduceBytes size count)
  | .clean p freed => ∀ n ∈ (s.sender p).waiting, (s.sender p).storeBufSz - freed + n < 0x80000000 ∨ 0 < s.requests ∨
      (s.remRecvRecvd = true ∧ s.remRecvRunning = false) ∨ (s.sender p).rounds + 1 < s.rounds
  | .request => s.remRecvRunning = true → ∀ p < c.procs, s.Spinning p → 1 < s.requests ∨ (s.sender p).rounds < s.rounds
  | _ => True

instance : Decidable (s.Spinning p) :=
  decidable_of_iff ((s.sender p).waiting.any (fun n => 0x80000000 ≤ (s.sender p).storeBufSz + n) = true) (by
    simp [Spinning, Option.any_eq_true])

instance : Decidable (s.Served p) := instDecidableOr

instance (n : Int) : Decidable (s.CallServed p n) := inferInstanceAs (Decidable (_ → _))

instance : (e : ThrottleEvent) → Decidable (s.Attended c e)
  | .isend p size count => inferInstanceAs (Decidable (s.CallServed p (sendBytes size count)))
  | .iallreduce p size count => inferInstanceAs (Decidable (s.CallServed p (allreduceBytes size count)))
  | .poll _ | .settle _ | .start | .report => isTrue trivial
  | .clean _ _ => inferInstanceAs (Decidable (∀ _ ∈ _, _))
  | .request => inferInstanceAs (Decidable (_ → _))

/-! ## Rounds

A round is one clean-up in which every process takes part; no process is more than one round behind. -/

variable {c : ThrottleConfig} {s s' : Throttle} {p q : Nat} {n : Int}

structure Rounds (c : ThrottleConfig) (s : Throttle) : Prop where
  le : ∀ p < c.procs, (s.sender p).rounds ≤ s.rounds
  /-- A process that is behind is one round behind, and ready for it. -/
  behind : ∀ p < c.procs, ∀ q < c.procs, (s.sender q).rounds < (s.sender p).rounds →
    (s.sender p).rounds = (s.sender q).rounds + 1 ∧ (s.sender q).unsettled = false
  quiet : s.remRecvRunning = false → s.reports = 0 ∧ (s.sender c.leader).rounds = s.rounds
  running : s.remRecvRunning = true → s.remRecvRecvd = true ∧
    ((s.reports = 0 ∧ (s.sender c.leader).rounds + 1 = s.rounds)
      ∨ (s.reports = 1 ∧ (s.sender c.leader).rounds = s.rounds))

/-- What is buffered is below the limit, what a call waits for fits an `int`, and who waits for room has a clean-up to
come. -/
structure Inv (c : ThrottleConfig) (s : Throttle) : Prop where
  rounds : Rounds c s
  limit : ∀ p, (s.sender p).storeBufSz < 0x80000000
  fits : ∀ p, ∀ n ∈ (s.sender p).waiting, n < 0x80000000
  served : ∀ p < c.procs, s.Spinning p → s.Served p

theorem put_sender_self (x : Sender) : (s.put p x).sender p = x := Function.update_self ..

variable {x : Sender} {e : ThrottleEvent}

theorem put_sender_of_ne (hq : q ≠ p) : (s.put p x).sender q = s.sender q := Function.update_of_ne hq _ _

theorem Rounds.congr (h : Rounds c s) (hsender : ∀ p < c.procs, (s'.sender p).rounds = (s.sender p).rounds
      ∧ ((s.sender p).unsettled = false → (s'.sender p).unsettled = false))
    (hrounds : s'.rounds = s.rounds) (hreports : s'.reports = s.reports) (hrunning : s'.remRecvRunning = s.remRecvRunning)
    (hrecvd : s.remRecvRecvd = true → s'.remRecvRecvd = true) : Rounds c s' where
  le := by
    intro p hp
    rw [(hsender p hp).1, hrounds]
    exact h.le p hp
  behind := by
    intro p hp q hq hlt
    rw [(hsender p hp).1, (hsender q hq).1] at hlt ⊢
    obtain ⟨heq, hready⟩ := h.behind p hp q hq hlt
    exact ⟨heq, (hsender q hq).2 hready⟩
  quiet := by
    intro hrun
    rw [hreports, hrounds, (hsender c.leader c.leader_lt).1]
    exact h.quiet (hrunning ▸ hrun)
  running := by
    intro hrun
    obtain ⟨hr, hphase⟩ := h.running (hrunning ▸ hrun)
    rw [hreports, hrounds, (hsender c.leader c.leader_lt).1]
    exact ⟨hrecvd hr, hphase⟩

theorem Rounds.put (h : Rounds c s) (hrounds : x.rounds = (s.sender p).rounds)
    (hready : (s.sender p).unsettled = false → x.unsettled = false) : Rounds c (s.put p x) := by
  refine h.congr ?_ rfl rfl rfl id
  intro q hq
  by_cases hqp : q = p
  · rw [hqp, put_sender_self]
    exact ⟨hrounds, hready⟩
  · rw [put_sender_of_ne hqp]
    exact ⟨rfl, id⟩

theorem of_together (h : s.together c p = true) (hq : q < c.procs) : (s.sender p).rounds < (s.sender q).rounds
      ∨ ((s.sender q).rounds = (s.sender p).rounds ∧ (s.sender q).unsettled = false) := by
  have hall := all_eq_true.mp h q (mem_range.mpr hq)
  rw [Bool.or_eq_true, Bool.and_eq_true, decide_eq_true_eq, decide_eq_true_eq, Bool.not_eq_true'] at hall
  exact hall

theorem Rounds.clean (h : Rounds c s) (hp : p < c.procs) (hbehind : (s.sender p).rounds < s.rounds)
    (htogether : s.together c p = true) (hrounds : x.rounds = (s.sender p).rounds + 1) :
    Rounds c ({ s with reports := s.reports + if p = c.leader then 1 else 0 }.put p x) where
  le := by
    intro q hq
    by_cases hqp : q = p
    · rw [hqp, put_sender_self, hrounds]
      exact hbehind
    · rw [put_sender_of_ne hqp]
      exact h.le q hq
  behind := by
    intro u hu q hq hlt
    by_cases hup : u = p
    · subst hup
      by_cases hqu : q = u
      · rw [hqu] at hlt
        exact absurd hlt (lt_irrefl _)
      · rw [put_sender_self, put_sender_of_ne hqu] at hlt ⊢
        dsimp only at hlt ⊢
        obtain hahead | ⟨heq, hready⟩ := of_together htogether hq
        · omega
        · exact ⟨by omega, hready⟩
    · by_cases hqp : q = p
      · subst hqp
        rw [put_sender_self, put_sender_of_ne hup] at hlt ⊢
        dsimp only at hlt ⊢
        obtain ⟨heq, -⟩ := h.behind u hu q hq (by omega)
        omega
      · rw [put_sender_of_ne hup, put_sender_of_ne hqp] at hlt ⊢
        exact h.behind u hu q hq hlt
  quiet := by
    intro hrun
    obtain ⟨hreports, hleader⟩ := h.quiet hrun
    have hpl : p ≠ c.leader := fun heq => by
      rw [heq] at hbehind
      omega
    rw [put_sender_of_ne hpl.symm]
    exact ⟨by rw [show _ = s.reports + 0 from congrArg _ (if_neg hpl)]; exact hreports, hleader⟩
  running := by
    intro hrun
    obtain ⟨hrecvd, hphase⟩ := h.running hrun
    refine ⟨hrecvd, ?_⟩
    show (s.reports + (if p = c.leader then 1 else 0) = 0 ∧ _) ∨ (s.reports + (if p = c.leader then 1 else 0) = 1 ∧ _)
    by_cases hpl : p = c.leader
    · subst hpl
      rw [if_pos rfl, put_sender_self, hrounds]
      obtain ⟨hreports, hleader⟩ | ⟨-, hleader⟩ := hphase
      · exact .inr ⟨by omega, hleader⟩
      · omega
    · rw [if_neg hpl, put_sender_of_ne (Ne.symm hpl)]
      exact hphase

theorem inv_initial (c : ThrottleConfig) : Inv c initial where
  rounds :=
    { le := fun _ _ => Nat.le_refl 0
      behind := fun _ _ _ _ hlt => absurd hlt (lt_irrefl 0)
      quiet := fun _ => ⟨rfl, rfl⟩
      running := fun hrun => absurd hrun Bool.false_ne_true }
  limit := fun _ => show (0 : Int) < 0x80000000 by decide
  fits := fun _ _ hn => absurd hn (not_mem_none _)
  served := fun _ _ hspin => by
    obtain ⟨n, hn, -⟩ := hspin
    exact absurd hn (not_mem_none n)

theorem not_spinning_of_none (h : (s.sender p).waiting = none) : ¬ s.Spinning p := by
  intro hspin
  obtain ⟨n, hn, -⟩ := hspin
  rw [h] at hn
  exact not_mem_none n hn

theorem Inv.put (h : Inv c s) {t : Throttle} (hsender : t.sender = s.sender)
    (hserved : ∀ q, s.Served q → t.Served q) (hrounds : Rounds c (t.put p x)) (hlimit : x.storeBufSz < 0x80000000)
    (hfits : ∀ n ∈ x.waiting, n < 0x80000000) (hself : (t.put p x).Spinning p → (t.put p x).Served p) :
    Inv c (t.put p x) where
  rounds := hrounds
  limit := by
    intro q
    by_cases hqp : q = p
    · rw [hqp, put_sender_self]
      exact hlimit
    · rw [put_sender_of_ne hqp, hsender]
      exact h.limit q
  fits := by
    intro q
    by_cases hqp : q = p
    · rw [hqp, put_sender_self]
      exact hfits
    · rw [put_sender_of_ne hqp, hsender]
      exact h.fits q
  served := by
    intro q hq hspin
    by_cases hqp : q = p
    · rw [hqp] at hspin ⊢
      exact hself hspin
    · unfold Spinning at hspin
      rw [put_sender_of_ne hqp, hsender] at hspin
      have hs := hserved q (h.served q hq hspin)
      unfold Served at hs ⊢
      rw [put_sender_of_ne hqp]
      exact hs

theorem Served.of_requests {m : Nat} (h : s.Served p) (hle : s.requests ≤ m) : Served { s with requests := m } p := by
  obtain h | h | h := h
  · exact .inl (lt_of_lt_of_le h hle)
  · exact .inr (.inl h)
  · exact .inr (.inr h)

section

variable (h : Inv c s)

include h

theorem Inv.call (hn : n < 0x80000000) (hserved : s.CallServed p n) (hstep : s.call p n = some s') : Inv c s' := by
  obtain ⟨hnone, hstep⟩ := ite_none_left_eq_some.mp hstep
  dsimp only at hstep
  have hnone : (s.sender p).waiting = none := not_isSome_iff_eq_none.mp hnone
  have hrounds : Rounds c { s with
      requests := s.requests + (decide (0x40000000 ≤ (s.sender p).storeBufSz + n) && !(s.sender p).remRecvMsgSent).toNat } :=
    h.rounds.congr (fun _ _ => ⟨rfl, id⟩) rfl rfl rfl id
  split at hstep
  · rename_i hfull
    obtain rfl := some.inj hstep
    refine h.put rfl (fun q hq => hq.of_requests (Nat.le_add_right _ _)) (hrounds.put rfl id) (h.limit p) ?_ fun _ => ?_
    · intro m hm
      obtain rfl := mem_some_iff.mp hm
      exact hn
    · cases hsent : (s.sender p).remRecvMsgSent with
      | true =>
        unfold Served
        rw [put_sender_self]
        exact (hserved hfull hsent).of_requests (Nat.le_add_right _ _)
      | false =>
        have hasks : decide (0x40000000 ≤ (s.sender p).storeBufSz + n) = true := decide_eq_true (by omega)
        left
        rw [hasks]
        exact Nat.succ_pos _
  · rename_i hroom
    obtain rfl := some.inj hstep
    refine h.put rfl (fun q hq => hq.of_requests (Nat.le_add_right _ _)) (hrounds.put rfl id) (Int.not_le.mp hroom) ?_ ?_
    · intro m hm
      rw [hnone] at hm
      exact absurd hm (not_mem_none m)
    · intro hspin
      exact absurd hspin (not_spinning_of_none (by rw [put_sender_self]; exact hnone))

theorem Inv.poll (hstep : s.step c (.poll p) = some s') : Inv c s' := by
  obtain ⟨n, hn, hs'⟩ := map_eq_some_iff.mp hstep
  split at hs'
  · rw [← hs']
    exact h
  · rename_i hroom
    subst hs'
    refine h.put rfl (fun _ => id) (h.rounds.put rfl id) (Int.not_le.mp hroom) ?_ ?_
    · intro m hm
      exact absurd hm (not_mem_none m)
    · intro hspin
      exact absurd hspin (not_spinning_of_none (by rw [put_sender_self]))

theorem Inv.clean {freed : Int} (hp : p < c.procs) (hattended : s.Attended c (.clean p freed))
    (hstep : s.clean c p freed = some s') : Inv c s' := by
  obtain ⟨hok, rfl⟩ := ite_some_none_eq_some.mp hstep
  obtain ⟨hbehind, htogether, hfreed, -⟩ := hok
  have hlimit := h.limit p
  refine h.put rfl (fun _ => id) (h.rounds.clean hp hbehind htogether rfl) ?_ (h.fits p) ?_
  · show (s.sender p).storeBufSz - freed < 0x80000000
    omega
  · intro hspin
    unfold Spinning at hspin
    rw [put_sender_self] at hspin
    obtain ⟨m, hm, hfull⟩ := hspin
    unfold Served
    rw [put_sender_self]
    obtain hroom | hserved := hattended m hm
    · exact absurd hfull (Int.not_le.mpr hroom)
    · exact hserved

theorem Inv.settle (hp : p < c.procs) (hstep : s.settle p = some s') : Inv c s' := by
  obtain ⟨-, rfl⟩ := ite_some_none_eq_some.mp hstep
  refine h.put rfl (fun _ => id) (h.rounds.put rfl fun _ => rfl) (h.limit p) (h.fits p) ?_
  unfold Spinning Served
  rw [put_sender_self]
  exact h.served p hp

theorem Inv.request (hattended : s.Attended c .request) (hstep : s.step c .request = some s') : Inv c s' := by
  obtain ⟨-, rfl⟩ := ite_some_none_eq_some.mp hstep
  refine ⟨h.rounds.congr (fun _ _ => ⟨rfl, id⟩) rfl rfl rfl fun _ => rfl, h.limit, h.fits, ?_⟩
  intro q hq hspin
  cases hrun : s.remRecvRunning with
  | false => exact .inr (.inl ⟨rfl, rfl⟩)
  | true =>
    obtain hmore | hbehind := hattended hrun q hq hspin
    · exact .inl (by show 0 < s.requests - 1; omega)
    · exact .inr (.inr hbehind)

theorem Inv.start (hstep : s.step c .start = some s') : Inv c s' := by
  obtain ⟨hok, rfl⟩ := ite_some_none_eq_some.mp hstep
  obtain ⟨hreports, hleader⟩ := h.rounds.quiet (Bool.not_eq_true _ ▸ hok.2)
  have hrounds : Rounds c { s with remRecvRunning := true, rounds := s.rounds + 1 } :=
    { le := fun p hp => Nat.le_succ_of_le (h.rounds.le p hp)
      behind := h.rounds.behind
      quiet := fun hrun => absurd hrun.symm Bool.false_ne_true
      running := fun _ => ⟨hok.1, .inl ⟨hreports, congrArg (· + 1) hleader⟩⟩ }
  exact ⟨hrounds, h.limit, h.fits, fun q hq _ => .inr (.inr (Nat.lt_succ_of_le (h.rounds.le q hq)))⟩

theorem Inv.report (hstep : s.step c .report = some s') : Inv c s' := by
  obtain ⟨hready, rfl⟩ := ite_some_none_eq_some.mp hstep
  have hrun : s.remRecvRunning = true := by
    cases hr : s.remRecvRunning with
    | true => rfl
    | false =>
      obtain ⟨hnone, -⟩ := h.rounds.quiet hr
      omega
  obtain ⟨-, hphase⟩ := h.rounds.running hrun
  have hrounds : Rounds c { s with reports := s.reports - 1, remRecvRecvd := false, remRecvRunning := false } :=
    { le := h.rounds.le
      behind := h.rounds.behind
      quiet := fun _ => by
        show s.reports - 1 = 0 ∧ _
        obtain ⟨hnone, -⟩ | ⟨hone, hleader⟩ := hphase
        · omega
        · exact ⟨by omega, hleader⟩
      running := fun hrun => absurd hrun Bool.false_ne_true }
  refine ⟨hrounds, h.limit, h.fits, fun q hq hspin => ?_⟩
  obtain hreq | ⟨-, hnot⟩ | hbehind := h.served q hq hspin
  · exact .inl hreq
  · exact absurd (hnot.symm.trans hrun) Bool.false_ne_true
  · exact .inr (.inr hbehind)

end

theorem int32_lt (n : Int) : int32 n < 0x80000000 := by
  have h := Int.bmod_lt (x := n) (m := 2 ^ 32) (by decide)
  unfold int32
  omega

theorem Inv.step (h : Inv c s) (hattended : s.Attended c e) (hstep : s.step c e = some s') : Inv c s' := by
  cases e with
  | isend | iallreduce =>
    obtain ⟨-, hstep⟩ := ite_none_right_eq_some.mp hstep
    exact h.call (int32_lt _) hattended hstep
  | poll p => exact h.poll hstep
  | clean p freed =>
    rw [Throttle.step] at hstep
    split at hstep
    · exact h.clean ‹_› hattended hstep
    · cases hstep
  | settle p =>
    rw [Throttle.step] at hstep
    split at hstep
    · exact h.settle ‹_› hstep
    · cases hstep
  | request => exact h.request hattended hstep
  | start => exact h.start hstep
  | report => exact h.report hstep

theorem Rounds.together (h : Rounds c s) (hquiet : s.remRecvRunning = false) (hp : p < c.procs)
    (hbehind : (s.sender p).rounds < s.rounds) : s.together c p = true := by
  obtain ⟨-, hleader⟩ := h.quiet hquiet
  obtain ⟨hnext, -⟩ := h.behind c.leader c.leader_lt p hp (by omega)
  refine all_eq_true.mpr fun q hq => ?_
  have hq := mem_range.mp hq
  rw [Bool.or_eq_true, Bool.and_eq_true, decide_eq_true_eq, decide_eq_true_eq, Bool.not_eq_true']
  by_cases hqb : (s.sender q).rounds < s.rounds
  · obtain ⟨hnextQ, hready⟩ := h.behind c.leader c.leader_lt q hq (by omega)
    exact .inr ⟨by omega, hready⟩
  · exact .inl (by omega)

theorem call_asks (hnone : (s.sender p).waiting = none) (hn : 0x40000000 ≤ (s.sender p).storeBufSz + n)
    (hsent : (s.sender p).remRecvMsgSent = false) : ∃ s', s.call p n = some s' ∧ s'.Requested := by
  have hmore : 0 < s.requests + (decide (0x40000000 ≤ (s.sender p).storeBufSz + n) && !(s.sender p).remRecvMsgSent).toNat := by
    rw [decide_eq_true hn, hsent]
    exact Nat.succ_pos _
  unfold call
  dsimp only
  rw [if_neg (by rw [hnone]; decide)]
  split
  · exact ⟨_, rfl, .inl hmore⟩
  · exact ⟨_, rfl, .inl hmore⟩

/-- A process that waits and has a clean-up to come may free everything in it, go on, and ask for a round with its next
call. -/
theorem Inv.asks_of_behind (h : Inv c s) (hp : p < c.procs) (hspin : s.Spinning p) (hquiet : s.remRecvRunning = false)
    (hbehind : (s.sender p).rounds < s.rounds) :
    ∃ es, (∀ e ∈ es, ThrottleEvent.owner e = some p) ∧ ∃ s', runEvents (Throttle.step c) s es = some s' ∧ s'.Requested := by
  obtain ⟨n, hn, hfull⟩ := hspin
  have hlimit := h.limit p
  have hfits := h.fits p n hn
  let x : Sender := { s.sender p with
    storeBufSz := (s.sender p).storeBufSz - (s.sender p).storeBufSz, rounds := (s.sender p).rounds + 1, unsettled := true }
  let s₁ : Throttle := { s with reports := s.reports + if p = c.leader then 1 else 0 }.put p x
  let s₂ : Throttle := s₁.put p { x with remRecvMsgSent := false, unsettled := false }
  let s₃ : Throttle := s₂.put p
    { x with storeBufSz := x.storeBufSz + n, remRecvMsgSent := false, unsettled := false, waiting := none }
  have hempty : x.storeBufSz = 0 := Int.sub_self _
  have hclean : s.step c (.clean p (s.sender p).storeBufSz) = some s₁ := by
    rw [Throttle.step, if_pos hp]
    exact if_pos ⟨hbehind, h.rounds.together hquiet hp hbehind, by omega, Int.le_refl _⟩
  have hsettle : s₁.step c (.settle p) = some s₂ := by
    have hflag : settledFlag x.storeBufSz x.remRecvMsgSent = false := if_pos (by rw [hempty]; decide)
    rw [Throttle.step, if_pos hp]
    unfold Throttle.settle
    rw [put_sender_self]
    rw [if_pos rfl, hflag]
  have hpoll : s₂.step c (.poll p) = some s₃ := by
    have hroom : ¬ 0x80000000 ≤ x.storeBufSz + n := by omega
    rw [Throttle.step, put_sender_self, hn, map_some, if_neg hroom]
  have hbytes : sendBytes 1 0x40000000 = 0x40000004 := by decide
  obtain ⟨s₄, hcall, hasks⟩ : ∃ s₄, s₃.call p (sendBytes 1 0x40000000) = some s₄ ∧ s₄.Requested := by
    apply call_asks
    · rw [put_sender_self]
    · rw [put_sender_self, hbytes, hempty]
      dsimp only
      omega
    · rw [put_sender_self]
  have hisend : s₃.step c (.isend p 1 0x40000000) = some s₄ := by
    rw [Throttle.step, if_pos ⟨hp, by decide⟩, hcall]
  refine ⟨[.clean p (s.sender p).storeBufSz, .settle p, .poll p, .isend p 1 0x40000000], ?_, s₄, ?_, hasks⟩
  · intro e he
    simp only [mem_cons, not_mem_nil, or_false] at he
    obtain rfl | rfl | rfl | rfl := he
    all_goals rfl
  · exact runEvents_cons.mpr ⟨s₁, hclean, runEvents_cons.mpr ⟨s₂, hsettle, runEvents_cons.mpr ⟨s₃, hpoll,
      runEvents_cons.mpr ⟨s₄, hisend, rfl⟩⟩⟩⟩

theorem Inv.not_stuck (h : Inv c s) (hp : p < c.procs) : ¬ s.Stuck c p := by
  intro hstuck
  obtain ⟨hspin, hnone, hnever⟩ := hstuck
  obtain hreq | ⟨hrecvd, -⟩ | hbehind := h.served p hp hspin
  · exact hnone (.inl hreq)
  · exact hnone (.inr (.inl hrecvd))
  · have hquiet : s.remRecvRunning = false := by
      cases hrun : s.remRecvRunning with
      | false => rfl
      | true => exact absurd (.inr (.inr hrun)) hnone
    obtain ⟨es, howned, s', hrun, hasked⟩ := h.asks_of_behind hp hspin hquiet hbehind
    exact hnever es howned s' hrun hasked

/-- In every run without the three kinds of events no process is stuck in any state. -/
theorem throttled_not_stuck (c : ThrottleConfig) (es : List ThrottleEvent) (s : Throttle)
    (hrun : runEvents (step c) initial es = some s) (hguard : Guarded (step c) (fun s e => s.Attended c e) initial es)
    (p : Nat) (hp : p < c.procs) : ¬ s.Stuck c p := by
  have hinv : Inv c s := hguard.invariant hrun (inv_initial c) fun h hattended hstep => h.step hattended hstep
  exact hinv.not_stuck hp

/-- The first of two sends asks for a round, and the second waits for it. -/
def secondWaits : List ThrottleEvent := [.isend 1 1 0x3FFFFFFC, .isend 1 1 0x3FFFFFFC, .request, .start]

theorem secondWaits_not_stuck :
    ∃ s, runEvents (step ⟨2, 0, by decide⟩) initial secondWaits = some s ∧ s.Spinning 1 ∧ ¬ s.Stuck ⟨2, 0, by decide⟩ 1 := by
  refine exists_run_imp (P := fun s => s.Spinning 1) (by decide +kernel) fun s hs hspin => ⟨hspin, ?_⟩
  exact throttled_not_stuck ⟨2, 0, by decide⟩ secondWaits s hs (by decide +kernel) 1 (by decide)

theorem step_of_waiting (hspin : s.Spinning p) (hover : (s.sender p).rounds = s.rounds)
    (hsettled : (s.sender p).unsettled = false) (howner : e.owner = some p) (hstep : s.step c e = some s') : s' = s := by
  obtain ⟨n, hn, hfull⟩ := hspin
  have hn : (s.sender p).waiting = some n := hn
  have hcall : ∀ m, s.call p m = none := fun m => by
    exact if_pos (by rw [hn]; rfl)
  cases e with
  | isend | iallreduce =>
    obtain rfl := some.inj howner
    rw [step, hcall, ite_self] at hstep
    cases hstep
  | poll q =>
    obtain rfl := some.inj howner
    rw [step, hn, map_some, if_pos hfull] at hstep
    exact (some.inj hstep).symm
  | clean q freed =>
    obtain rfl := some.inj howner
    have hnone : s.clean c q freed = none := if_neg fun hok => by
      omega
    rw [step, hnone, ite_self] at hstep
    cases hstep
  | settle q =>
    obtain rfl := some.inj howner
    have hnone : s.settle q = none := if_neg (by rw [hsettled]; decide)
    rw [step, hnone, ite_self] at hstep
    cases hstep
  | request | start | report => cases howner

theorem stuck_of_waiting (hspin : s.Spinning p) (hnone : ¬ s.Requested) (hover : (s.sender p).rounds = s.rounds)
    (hsettled : (s.sender p).unsettled = false) : s.Stuck c p := by
  refine ⟨hspin, hnone, fun es howned s' hrun => ?_⟩
  induction es with
  | nil =>
    obtain rfl := some.inj hrun
    exact hnone
  | cons e es ih =>
    obtain ⟨t, ht, hrest⟩ := runEvents_cons.mp hrun
    obtain rfl := step_of_waiting hspin hover hsettled (howned e mem_cons_self) ht
    exact ih (fun e he => howned e (mem_cons_of_mem _ he)) hrest

/-- A round that frees nothing: the process waits on, has its flag set, and the coordinator has nothing to do. -/
theorem idleRound_stuck :
    ∃ s, runEvents (step ⟨1, 0, by decide⟩) initial [.isend 0 1 0x3FFFFFFC, .isend 0 1 0x3FFFFFFC, .request, .start,
        .clean 0 0, .settle 0, .report] = some s ∧ s.Stuck ⟨1, 0, by decide⟩ 0 := by
  refine exists_run_imp (P := fun s => s.Spinning 0 ∧ s.requests = 0 ∧ s.remRecvRecvd = false ∧
    s.remRecvRunning = false ∧ (s.sender 0).rounds = s.rounds ∧ (s.sender 0).unsettled = false) (by decide +kernel) ?_
  intro s _ hfacts
  obtain ⟨hspin, hrequests, hrecvd, hrunning, hover, hsettled⟩ := hfacts
  refine stuck_of_waiting hspin ?_ hover hsettled
  unfold Requested
  rw [hrequests, hrecvd, hrunning]
  decide

end Throttle

end ParepMpi
