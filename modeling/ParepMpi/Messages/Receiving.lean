import ParepMpi.Lib.Matching
import ParepMpi.Messages.Unexpected
import ParepMpi.Messages.World

/-!
# The receives of one process

A message comes to the application in one of three ways: it meets a receive that is posted already, it waits at the
process and a later receive finds it there, or it is probed into `recvDataList` and `MPI_Irecv` takes it from there
without posting anything.
-/

namespace ParepMpi

open List

/-- How far a receive is. -/
inductive RecvState where
  | posted
  | matched (id : Nat)
  | complete (id : Nat)
  deriving DecidableEq, Repr

def RecvState.id? : RecvState → Option Nat
  | .posted => none
  | .matched id | .complete id => some id

structure RecvReq where
  source : Int
  tag : Int
  state : RecvState
  deriving DecidableEq, Repr

/-- A receive that has met a message and is not complete is posted once more. -/
def RecvReq.repost (r : RecvReq) : RecvReq :=
  match r.state with
  | .matched _ => { r with state := .posted }
  | _ => r

/-- The receives of a process in the order of the calls, the messages that wait at it, each a rank and an id, and its
`recvDataList`. -/
structure Receiver where
  requests : List RecvReq := []
  unexpected : List (Int × Nat) := []
  dataList : List (Int × Nat) := []
  deriving DecidableEq, Repr

/-- A receive from `source` with tag `g` accepts the message. -/
def Takes (tag : Int → Nat → Int) (source g : Int) (m : Int × Nat) : Prop :=
  m.1 = source ∧ (tag m.1 m.2 = g ∨ g = anyTag)

instance (tag : Int → Nat → Int) (source g : Int) (m : Int × Nat) : Decidable (Takes tag source g m) :=
  instDecidableAnd

namespace Receiver

variable (tag : Int → Nat → Int)

def setState (k : Nat) (state : RecvState) (b : Receiver) : Receiver :=
  { b with requests := b.requests.modify k fun r => { r with state := state } }

/-- A message comes in: the first posted receive that accepts it has it. -/
def arrive (m : Int × Nat) (b : Receiver) : Receiver :=
  match b.requests.findIdx? fun r => r.state = .posted ∧ Takes tag r.source r.tag m with
  | some k => b.setState k (.matched m.2)
  | none => { b with unexpected := b.unexpected ++ [m] }

def irecv (source g : Int) (b : Receiver) : Receiver :=
  match b.dataList.find? fun m => Takes tag source g m with
  | some m =>
    { b with requests := b.requests ++ [⟨source, g, .complete m.2⟩], dataList := b.dataList.erase m }
  | none =>
    match b.unexpected.find? fun m => Takes tag source g m with
    | some m =>
      { b with requests := b.requests ++ [⟨source, g, .matched m.2⟩], unexpected := b.unexpected.erase m }
    | none => { b with requests := b.requests ++ [⟨source, g, .posted⟩] }

def finish (k : Nat) (b : Receiver) : Option (Receiver × (Int × Nat)) := do
  let r ← b.requests[k]?
  match r.state with
  | .matched id => some (b.setState k (.complete id), (r.source, id))
  | _ => none

def probe (source : Int) (b : Receiver) : Option (Receiver × (Int × Nat)) := do
  let m ← b.unexpected.find? fun m => m.1 = source
  some ({ b with unexpected := b.unexpected.erase m, dataList := b.dataList ++ [m] }, m)

/-- `parep_mpi_restore_messages` posts the receives that are not complete once more. -/
def repost (b : Receiver) : Receiver where
  requests := b.requests.map RecvReq.repost
  unexpected := []
  dataList := b.dataList

def Arrived (b : Receiver) (m : Int × Nat) : Prop :=
  m ∈ b.unexpected ∨ ∃ r ∈ b.requests, r.source = m.1 ∧ r.state = .matched m.2

instance (b : Receiver) (m : Int × Nat) : Decidable (b.Arrived m) :=
  inferInstanceAs (Decidable (_ ∨ ∃ r ∈ b.requests, _))

/-- The ids of the messages handed over by the complete receives from `source` with tag `g`, in the order of the
calls. -/
def handed (b : Receiver) (source g : Int) : List Nat :=
  b.requests.filterMap fun r => match r.state with
    | .complete id => if r.source = source ∧ r.tag = g then some id else none
    | _ => none

def calls (b : Receiver) : List (Int × Int) := b.requests.map fun r => (r.source, r.tag)

end Receiver

def InTurn (m m' : Int × Nat) : Prop := m.1 = m'.1 → m.2 < m'.2

instance : Std.Irrefl InTurn := ⟨fun _ h => lt_irrefl _ (h rfl)⟩

/-- What is known about the messages for a process: which are meant for it, how far the copy of each rank is that
serves it, which ones it has received and which ones are in flight or waiting. -/
@[ext] structure Traffic where
  addressed : Int × Nat → Prop
  sent : Int → Nat
  received : Int × Nat → Prop
  flying : Int × Nat → Prop

def Traffic.deliver (τ : Traffic) (m : Int × Nat) : Traffic :=
  { τ with received := fun m' => τ.received m' ∨ m' = m, flying := fun m' => τ.flying m' ∧ m' ≠ m }

theorem Traffic.deliver_received {τ : Traffic} {m m' : Int × Nat} :
    (τ.deliver m).received m' ↔ τ.received m' ∨ m' = m := Iff.rfl

structure Traffic.Whole (τ : Traffic) : Prop where
  flying : ∀ m, τ.flying m → τ.addressed m ∧ m.2 < τ.sent m.1 ∧ ¬ τ.received m
  received : ∀ m, τ.received m → τ.addressed m
  kept : ∀ m, τ.addressed m → m.2 < τ.sent m.1 → τ.received m ∨ τ.flying m

def Accepts (tag : Int → Nat → Int) (addressed : Int × Nat → Prop) (calls : List (Int × Int)) (s : Int)
    (k x : Nat) : Prop :=
  (∃ c, calls[k]? = some c ∧ Takes tag c.1 c.2 (s, x)) ∧ addressed (s, x)

open Matching

namespace Receiver

/-- Every receive has met the message that is its own, what waits and what is listed belongs to no call so far, and
the messages that come before a listed one are received or belong to a call. -/
structure Sound (tag : Int → Nat → Int) (τ : Traffic) (b : Receiver) : Prop where
  bound : ∀ k r x, b.requests[k]? = some r → r.state.id? = some x → Gets (Accepts tag τ.addressed b.calls r.source) k x
  free : ∀ m, m ∈ b.unexpected ∨ m ∈ b.dataList → ¬ Taken (Accepts tag τ.addressed b.calls m.1) b.calls.length m.2
  arrived : ∀ m, b.Arrived m → τ.flying m
  received : ∀ m, τ.received m ↔ m ∈ b.dataList ∨ ∃ r ∈ b.requests, r.source = m.1 ∧ r.state = .complete m.2
  unexpected : b.unexpected.Pairwise InTurn
  dataList : b.dataList.Pairwise InTurn
  front : ∀ m m', b.Arrived m → τ.flying m' → ¬ b.Arrived m' → InTurn m m'
  behind : ∀ m ∈ b.dataList, ∀ y < m.2, τ.addressed (m.1, y) → ¬ τ.received (m.1, y) →
    Taken (Accepts tag τ.addressed b.calls m.1) b.calls.length y

variable {tag : Int → Nat → Int} {τ τ' : Traffic} {b b' : Receiver} {s : Int} {k x z : Nat}

theorem length_calls (b : Receiver) : b.calls.length = b.requests.length := length_map _

section Calls

variable {addressed : Int × Nat → Prop} {calls : List (Int × Int)} {source g : Int}

theorem accepts_old (hk : k < calls.length) :
    Accepts tag addressed (calls ++ [(source, g)]) s k x ↔ Accepts tag addressed calls s k x := by
  rw [Accepts, Accepts, getElem?_append_left hk]

theorem accepts_last : Accepts tag addressed (calls ++ [(source, g)]) s calls.length x ↔
    Takes tag source g (s, x) ∧ addressed (s, x) := by
  simp only [Accepts, getElem?_concat_length, Option.some_inj, exists_eq_left']

theorem taken_old : Taken (Accepts tag addressed (calls ++ [(source, g)]) s) calls.length x ↔
    Taken (Accepts tag addressed calls s) calls.length x :=
  taken_congr fun _ hk _ => accepts_old hk

theorem gets_last : Gets (Accepts tag addressed (calls ++ [(source, g)]) s) calls.length x ↔
    (Takes tag source g (s, x) ∧ addressed (s, x)) ∧ ¬ Taken (Accepts tag addressed calls s) calls.length x ∧
      ∀ y < x, Takes tag source g (s, y) ∧ addressed (s, y) → Taken (Accepts tag addressed calls s) calls.length y := by
  simp only [Gets, accepts_last, taken_old]

theorem gets_last_unique {m u : Int × Nat}
    (hm : Gets (Accepts tag addressed (calls ++ [(source, g)]) m.1) calls.length m.2)
    (hu : Gets (Accepts tag addressed (calls ++ [(source, g)]) u.1) calls.length u.2) : u = m := by
  have heq : u.1 = m.1 := (accepts_last.mp hu.1).1.1.trans (accepts_last.mp hm.1).1.1.symm
  rw [heq] at hu
  exact Prod.ext heq (hu.item_eq hm)

end Calls

theorem accepts_iff {r : RecvReq} (hr : b.requests[k]? = some r) :
    Accepts tag τ.addressed b.calls s k x ↔ Takes tag r.source r.tag (s, x) ∧ τ.addressed (s, x) := by
  simp only [Accepts, calls, getElem?_map, hr, Option.map_some, Option.some_inj, exists_eq_left']

section

variable {r : RecvReq} {P : RecvReq → Prop} {state : RecvState}

theorem exists_request (hr : b.requests[k]? = some r) :
    (∃ q ∈ b.requests, P q) ↔ P r ∨ ∃ i q, i ≠ k ∧ b.requests[i]? = some q ∧ P q := by
  constructor
  · intro h
    obtain ⟨q, hq, hP⟩ := h
    obtain ⟨i, hi⟩ := mem_iff_getElem?.mp hq
    by_cases hik : i = k
    · subst hik
      obtain rfl := Option.some_inj.mp (hr.symm.trans hi)
      exact .inl hP
    · exact .inr ⟨i, q, hik, hi, hP⟩
  · intro h
    rcases h with hP | ⟨i, q, -, hi, hP⟩
    · exact ⟨r, mem_of_getElem? hr, hP⟩
    · exact ⟨q, mem_of_getElem? hi, hP⟩

theorem setState_self (hr : b.requests[k]? = some r) :
    (b.setState k state).requests[k]? = some { r with state := state } := by
  rw [setState, getElem?_modify_eq, hr]
  rfl

theorem setState_of_ne {i : Nat} (hik : i ≠ k) : (b.setState k state).requests[i]? = b.requests[i]? :=
  getElem?_modify_ne _ _ (Ne.symm hik)

theorem exists_setState (hr : b.requests[k]? = some r) : (∃ q ∈ (b.setState k state).requests, P q) ↔
      P { r with state := state } ∨ ∃ i q, i ≠ k ∧ b.requests[i]? = some q ∧ P q := by
  rw [exists_request (setState_self hr)]
  refine or_congr_right ?_
  constructor
  · intro h
    obtain ⟨i, q, hik, hi, hP⟩ := h
    exact ⟨i, q, hik, (setState_of_ne hik).symm.trans hi, hP⟩
  · intro h
    obtain ⟨i, q, hik, hi, hP⟩ := h
    exact ⟨i, q, hik, (setState_of_ne hik).trans hi, hP⟩

theorem calls_setState : (b.setState k state).calls = b.calls := by
  apply ext_getElem?
  intro i
  by_cases hik : i = k
  · subst hik
    simp only [calls, setState, getElem?_map, getElem?_modify_eq, Option.map_eq_map, Option.map_map]
    rfl
  · simp only [calls, getElem?_map, setState_of_ne hik]

theorem repost_call (r : RecvReq) : (r.repost.source, r.repost.tag) = (r.source, r.tag) := by
  unfold RecvReq.repost
  split
  all_goals rfl

theorem repost_state (r : RecvReq) :
    r.repost.state = .posted ∧ (∀ x, r.state ≠ .complete x) ∨ ∃ x, r.state = .complete x ∧ r.repost = r := by
  unfold RecvReq.repost
  cases hstate : r.state
  all_goals simp [hstate]

theorem calls_repost : b.repost.calls = b.calls := by
  simp only [calls, repost, map_map]
  exact map_congr_left fun r _ => repost_call r

end

namespace Sound

variable (h : Sound tag τ b) (hw : τ.Whole)

include h

variable {r : RecvReq} {m : Int × Nat} {l : List (Int × Nat)}

theorem taken_of_bound (hr : r ∈ b.requests) (hid : r.state.id? = some x) :
    Taken (Accepts tag τ.addressed b.calls r.source) b.calls.length x := by
  obtain ⟨k, hk⟩ := List.mem_iff_getElem?.mp hr
  have hlt := (List.getElem?_eq_some_iff.mp hk).1
  exact (h.bound k r x hk hid).taken (by rwa [length_calls])

include hw

theorem located (haddr : τ.addressed (s, z)) (hsent : z < τ.sent s)
    (hfree : ¬ Taken (Accepts tag τ.addressed b.calls s) b.calls.length z) :
    (s, z) ∈ b.dataList ∨ (s, z) ∈ b.unexpected ∨ τ.flying (s, z) ∧ ¬ b.Arrived (s, z) := by
  rcases hw.kept (s, z) haddr hsent with hrec | hfly
  · rcases (h.received (s, z)).mp hrec with hlist | ⟨r, hr, hsource, hstate⟩
    · exact .inl hlist
    · have htaken := h.taken_of_bound hr (show r.state.id? = some z by rw [hstate]; rfl)
      rw [hsource] at htaken
      exact absurd htaken hfree
  · by_cases harr : b.Arrived (s, z)
    · rcases harr with hun | ⟨r, hr, hsource, hstate⟩
      · exact .inr (.inl hun)
      · have htaken := h.taken_of_bound hr (show r.state.id? = some z by rw [hstate]; rfl)
        rw [hsource] at htaken
        exact absurd htaken hfree
    · exact .inr (.inr ⟨hfly, harr⟩)

theorem awaited (hr : b.requests[k]? = some r) (hposted : r.state = .posted)
    (hget : Gets (Accepts tag τ.addressed b.calls s) k z) (hsent : z < τ.sent s) :
    τ.flying (s, z) ∧ ¬ b.Arrived (s, z) := by
  have hlt := (List.getElem?_eq_some_iff.mp hr).1
  have htaken := hget.taken (n := b.calls.length) (by rwa [length_calls])
  have hother : ∀ q ∈ b.requests, q.source = s → q.state.id? ≠ some z := by
    intro q hq hsource hid
    obtain ⟨i, hi⟩ := mem_iff_getElem?.mp hq
    have hgets := h.bound i q z hi hid
    rw [hsource] at hgets
    obtain rfl := hgets.request_eq hget
    obtain rfl := Option.some_inj.mp (hr.symm.trans hi)
    rw [hposted] at hid
    cases hid
  have harrived : ¬ b.Arrived (s, z) := by
    intro harr
    rcases harr with hun | ⟨q, hq, hsource, hstate⟩
    · exact h.free (s, z) (.inl hun) htaken
    · exact hother q hq hsource (by rw [hstate]; rfl)
  rcases hw.kept (s, z) hget.1.2 hsent with hrec | hfly
  · rcases (h.received (s, z)).mp hrec with hlist | ⟨q, hq, hsource, hstate⟩
    · exact absurd htaken (h.free (s, z) (.inr hlist))
    · exact absurd (show q.state.id? = some z by rw [hstate]; rfl) (hother q hq hsource)
  · exact ⟨hfly, harrived⟩

theorem posted_of_gets (hfly : τ.flying m) (hnew : ¬ b.Arrived m)
    (hr : b.requests[k]? = some r) (hget : Gets (Accepts tag τ.addressed b.calls m.1) k m.2) : r.state = .posted := by
  have hsource : m.1 = r.source := ((accepts_iff hr).mp hget.1).1.1
  have hmine : ∀ x, r.state.id? = some x → x = m.2 := by
    intro x hx
    have hbound := h.bound k r x hr hx
    rw [← hsource] at hbound
    exact hbound.item_eq hget
  cases hstate : r.state with
  | posted => rfl
  | matched x =>
    obtain rfl := hmine x (by rw [hstate]; rfl)
    exact absurd (.inr ⟨r, mem_of_getElem? hr, hsource.symm, hstate⟩) hnew
  | complete x =>
    obtain rfl := hmine x (by rw [hstate]; rfl)
    exact absurd ((h.received m).mpr (.inr ⟨r, List.mem_of_getElem? hr, hsource.symm, hstate⟩)) (hw.flying m hfly).2.2

theorem gets_next (hfly : τ.flying m) (hnew : ¬ b.Arrived m)
    (hnext : ∀ m', τ.flying m' → ¬ b.Arrived m' → m'.1 = m.1 → m.2 ≤ m'.2) (hr : b.requests[k]? = some r)
    (hposted : r.state = .posted) (htakes : Takes tag r.source r.tag m)
    (hfirst : ∀ i < k, ∀ q, b.requests[i]? = some q → q.state = .posted → ¬ Takes tag q.source q.tag m) :
    Gets (Accepts tag τ.addressed b.calls m.1) k m.2 := by
  obtain ⟨haddr, hsent, -⟩ := hw.flying m hfly
  have hacc : Accepts tag τ.addressed b.calls m.1 k m.2 := (accepts_iff hr).mpr ⟨htakes, haddr⟩
  have hfree : ¬ Taken (Accepts tag τ.addressed b.calls m.1) k m.2 := by
    intro htaken
    obtain ⟨i, hik, hget⟩ := taken_iff.mp htaken
    have hlt := (List.getElem?_eq_some_iff.mp hr).1
    have hq := getElem?_eq_getElem (show i < b.requests.length by omega)
    exact hfirst i hik _ hq (h.posted_of_gets hw hfly hnew hq hget) ((accepts_iff hq).mp hget.1).1
  obtain ⟨z, hz, hget⟩ := exists_gets hacc hfree
  obtain ⟨hzfly, hznew⟩ := h.awaited hw hr hposted hget (by omega)
  have hle := hnext (m.1, z) hzfly hznew rfl
  rwa [le_antisymm hz hle] at hget

omit h hw in
theorem arrived_matched (m' : Int × Nat) (hr : b.requests[k]? = some r) (hposted : r.state = .posted)
    (hsource : m.1 = r.source) : (b.setState k (.matched m.2)).Arrived m' ↔ b.Arrived m' ∨ m' = m := by
  have hnot : ¬ (r.source = m'.1 ∧ r.state = .matched m'.2) := by
    rw [hposted]
    exact fun hm => by cases hm.2
  have hnow : (r.source = m'.1 ∧ RecvState.matched m.2 = .matched m'.2) ↔ m' = m := by
    rw [← hsource, RecvState.matched.injEq, Prod.ext_iff, eq_comm, eq_comm (a := m.2)]
  rw [Arrived, Arrived, exists_setState hr, exists_request hr, or_iff_right hnot, hnow,
    or_comm (a := m' = m), ← or_assoc]
  rfl

theorem arrive (hfly : τ.flying m) (hnew : ¬ b.Arrived m)
    (hnext : ∀ m', τ.flying m' → ¬ b.Arrived m' → m'.1 = m.1 → m.2 ≤ m'.2) : Sound tag τ (b.arrive tag m) := by
  have hfront : ∀ b' : Receiver, (∀ m', b'.Arrived m' ↔ b.Arrived m' ∨ m' = m) →
      ∀ u v, b'.Arrived u → τ.flying v → ¬ b'.Arrived v → InTurn u v := by
    intro b' harr u v hu hv hvnew
    have hvold : ¬ b.Arrived v := fun hold => hvnew ((harr v).mpr (.inl hold))
    rcases (harr u).mp hu with hu | rfl
    · exact h.front u v hu hv hvold
    · intro heq
      have hle := hnext v hv hvold heq.symm
      have hne : u.2 ≠ v.2 := fun hid => hvnew ((harr v).mpr (.inr (Prod.ext heq.symm hid.symm)))
      omega
  unfold Receiver.arrive
  split
  · rename_i k hk
    obtain ⟨hlt, hpos, hbefore⟩ := findIdx?_eq_some_iff_getElem.mp hk
    obtain ⟨hposted, htakes⟩ := of_decide_eq_true hpos
    have hr := getElem?_eq_getElem hlt
    have harr := fun m' => arrived_matched m' hr hposted htakes.1
    have hget := h.gets_next hw hfly hnew hnext hr hposted htakes (by
      intro i hik q hq hqposted hqtakes
      obtain ⟨hilt, rfl⟩ := List.getElem?_eq_some_iff.mp hq
      exact hbefore i hik (decide_eq_true ⟨hqposted, hqtakes⟩))
    refine ⟨?_, ?_, ?_, ?_, h.unexpected, h.dataList, hfront _ harr, ?_⟩
    · intro i q x hq hid
      rw [calls_setState]
      by_cases hik : i = k
      · subst hik
        rw [setState_self hr] at hq
        obtain rfl := Option.some_inj.mp hq
        obtain rfl := Option.some_inj.mp hid
        rw [← htakes.1]
        exact hget
      · rw [setState_of_ne hik] at hq
        exact h.bound i q x hq hid
    · intro m' hm'
      rw [calls_setState]
      exact h.free m' hm'
    · intro m' hm'
      rcases (harr m').mp hm' with hm' | rfl
      · exact h.arrived m' hm'
      · exact hfly
    · intro m'
      rw [h.received m', exists_setState hr, exists_request hr, hposted]
      simp only [setState, reduceCtorEq, and_false, false_or]
    · intro m' hm' y hy haddr hunrec
      rw [calls_setState]
      exact h.behind m' hm' y hy haddr hunrec
  · rename_i hnone
    have harr : ∀ m', ({ b with unexpected := b.unexpected ++ [m] } : Receiver).Arrived m' ↔ b.Arrived m' ∨ m' = m := by
      intro m'
      simp only [Arrived, mem_append, mem_singleton]
      rw [or_right_comm]
    refine ⟨h.bound, ?_, ?_, h.received, ?_, h.dataList, hfront _ harr, h.behind⟩
    · intro m' hm' htaken
      simp only [mem_append, mem_singleton] at hm'
      rcases hm' with (hm' | rfl) | hm'
      · exact h.free m' (.inl hm') htaken
      · obtain ⟨i, hi, hget⟩ := taken_iff.mp htaken
        have hq := getElem?_eq_getElem (show i < b.requests.length by rwa [← length_calls])
        have hqposted := h.posted_of_gets hw hfly hnew hq hget
        have hqtakes := ((accepts_iff hq).mp hget.1).1
        have hno := findIdx?_eq_none_iff.mp hnone _ (mem_of_getElem? hq)
        exact absurd ⟨hqposted, hqtakes⟩ (of_decide_eq_false hno)
      · exact h.free m' (.inr hm') htaken
    · intro m' hm'
      rcases (harr m').mp hm' with hm' | rfl
      · exact h.arrived m' hm'
      · exact hfly
    · refine pairwise_append.mpr ⟨h.unexpected, pairwise_singleton _ _, ?_⟩
      intro u hu v hv
      rw [mem_singleton.mp hv]
      exact h.front u m (.inl hu) hfly hnew

omit h hw in
theorem mem_erase_or {m u : Int × Nat} (hl : l.Nodup) (hm : m ∈ l) :
    (u ∈ l.erase m ∨ m.1 = u.1 ∧ m.2 = u.2) ↔ u ∈ l := by
  rw [hl.mem_erase_iff, ← Prod.ext_iff]
  constructor
  · intro hu
    rcases hu with ⟨-, hu⟩ | rfl
    · exact hu
    · exact hm
  · intro hu
    by_cases heq : u = m
    · exact .inr heq.symm
    · exact .inl ⟨heq, hu⟩

omit h hw in
theorem le_of_find? {p : Int × Nat → Bool} {m m' : Int × Nat} (hl : l.Pairwise InTurn)
    (hfind : l.find? p = some m) (hm' : m' ∈ l) (hp : p m' = true) (hsource : m.1 = m'.1) : m.2 ≤ m'.2 := by
  obtain ⟨-, as, bs, rfl, hbefore⟩ := find?_eq_some_iff_append.mp hfind
  rcases mem_append.mp hm' with has | hrest
  · have hno := hbefore m' has
    rw [hp] at hno
    cases hno
  · rcases mem_cons.mp hrest with rfl | hbs
    · exact le_rfl
    · obtain ⟨-, hcons, -⟩ := pairwise_append.mp hl
      exact le_of_lt ((pairwise_cons.mp hcons).1 m' hbs hsource)

omit hw in
theorem append {source g : Int} {state : RecvState} {unexpected dataList : List (Int × Nat)}
    (hun : unexpected.Sublist b.unexpected) (hdata : dataList.Sublist b.dataList)
    (hbound : ∀ x, state.id? = some x →
      Gets (Accepts tag τ.addressed (b.calls ++ [(source, g)]) source) b.calls.length x)
    (hfree : ∀ m, m ∈ unexpected ∨ m ∈ dataList →
      ¬ Gets (Accepts tag τ.addressed (b.calls ++ [(source, g)]) m.1) b.calls.length m.2)
    (harr : ∀ m, (m ∈ unexpected ∨ source = m.1 ∧ state = .matched m.2) ↔ m ∈ b.unexpected)
    (hlist : ∀ m, (m ∈ dataList ∨ source = m.1 ∧ state = .complete m.2) ↔ m ∈ b.dataList) :
    Sound tag τ ⟨b.requests ++ [⟨source, g, state⟩], unexpected, dataList⟩ := by
  have hcalls : (⟨b.requests ++ [⟨source, g, state⟩], unexpected, dataList⟩ : Receiver).calls =
      b.calls ++ [(source, g)] := by simp only [calls, map_append, map_cons, map_nil]
  have htaken : ∀ s x, Taken (Accepts tag τ.addressed (b.calls ++ [(source, g)]) s) (b.calls ++ [(source, g)]).length x ↔
      Taken (Accepts tag τ.addressed b.calls s) b.calls.length x ∨
        Gets (Accepts tag τ.addressed (b.calls ++ [(source, g)]) s) b.calls.length x := by
    intro s x
    rw [length_append, length_singleton, taken_succ, taken_old]
  have hexists : ∀ P : RecvReq → Prop, (∃ r ∈ b.requests ++ [⟨source, g, state⟩], P r) ↔
      (∃ r ∈ b.requests, P r) ∨ P ⟨source, g, state⟩ := by
    intro P
    simp only [mem_append, mem_singleton, or_and_right, exists_or, exists_eq_left]
  have harrived : ∀ m, (⟨b.requests ++ [⟨source, g, state⟩], unexpected, dataList⟩ : Receiver).Arrived m ↔
      b.Arrived m := by
    intro m
    rw [Arrived, Arrived, hexists, or_comm (b := source = m.1 ∧ state = .matched m.2), ← or_assoc, harr m]
  refine ⟨?_, ?_, ?_, ?_, h.unexpected.sublist hun, h.dataList.sublist hdata, ?_, ?_⟩
  · intro k r x hr hid
    rw [hcalls]
    by_cases hk : k < b.requests.length
    · rw [getElem?_append_left hk] at hr
      exact (gets_congr (fun _ hi _ => accepts_old hi) (by rwa [length_calls])).mpr (h.bound k r x hr hid)
    · have hlast : k = b.requests.length := by
        have := (List.getElem?_eq_some_iff.mp hr).1
        rw [length_append, length_singleton] at this
        omega
      rw [hlast, getElem?_concat_length] at hr
      obtain rfl := Option.some_inj.mp hr
      rw [hlast, ← length_calls]
      exact hbound x hid
  · intro m hm
    rw [hcalls, htaken, not_or]
    exact ⟨h.free m (hm.imp (hun.subset ·) (hdata.subset ·)), hfree m hm⟩
  · exact fun m hm => h.arrived m ((harrived m).mp hm)
  · intro m
    rw [h.received m, hexists, or_comm (b := source = m.1 ∧ state = .complete m.2), ← or_assoc, hlist m]
  · intro u v hu hv hnew
    exact h.front u v ((harrived u).mp hu) hv fun hv' => hnew ((harrived v).mpr hv')
  · intro m hm y hy haddr hunrec
    rw [hcalls, htaken]
    exact .inl (h.behind m (hdata.subset hm) y hy haddr hunrec)

theorem gets_listed {source g : Int} (hfind : b.dataList.find? (fun m => Takes tag source g m) = some m) :
    Gets (Accepts tag τ.addressed (b.calls ++ [(source, g)]) m.1) b.calls.length m.2 := by
  have hmem := mem_of_find?_eq_some hfind
  have hfound := find?_some hfind
  have hrec : τ.received m := (h.received m).mpr (.inl hmem)
  refine gets_last.mpr ⟨⟨of_decide_eq_true hfound, hw.received m hrec⟩, h.free m (.inr hmem), ?_⟩
  intro y hy hacc
  by_cases hyrec : τ.received (m.1, y)
  · rcases (h.received _).mp hyrec with hlist | ⟨r, hr, hsource, hstate⟩
    · have := le_of_find? h.dataList hfind hlist (decide_eq_true hacc.1) rfl
      omega
    · have hbound := h.taken_of_bound hr (show r.state.id? = some y by rw [hstate]; rfl)
      rwa [hsource] at hbound
  · exact h.behind m hmem y hy hacc.2 hyrec

theorem gets_waiting {source g : Int} (hdata : b.dataList.find? (fun m => Takes tag source g m) = none)
    (hfind : b.unexpected.find? (fun m => Takes tag source g m) = some m) :
    Gets (Accepts tag τ.addressed (b.calls ++ [(source, g)]) m.1) b.calls.length m.2 := by
  have hmem := mem_of_find?_eq_some hfind
  have hfound := find?_some hfind
  obtain ⟨haddr, hsent, -⟩ := hw.flying m (h.arrived m (.inl hmem))
  refine gets_last.mpr ⟨⟨of_decide_eq_true hfound, haddr⟩, h.free m (.inl hmem), ?_⟩
  intro y hy hacc
  by_contra hfree
  rcases h.located hw hacc.2 (by omega) hfree with hlist | hun | ⟨hfly, hnew⟩
  · exact find?_eq_none.mp hdata _ hlist (decide_eq_true hacc.1)
  · have := le_of_find? h.unexpected hfind hun (decide_eq_true hacc.1) rfl
    omega
  · have := h.front m _ (.inl hmem) hfly hnew rfl
    omega

/-- A call that is made takes its own message from the list or from those that wait, or finds none there. -/
theorem irecv (source g : Int) : Sound tag τ (b.irecv tag source g) := by
  have hnothing : ∀ {l : List (Int × Nat)}, l.find? (Takes tag source g) = none →
      ∀ m ∈ l, ¬ Gets (Accepts tag τ.addressed (b.calls ++ [(source, g)]) m.1) b.calls.length m.2 := by
    intro l hl m hm hget
    exact find?_eq_none.mp hl m hm (decide_eq_true (accepts_last.mp hget.1).1)
  unfold Receiver.irecv
  split
  · rename_i m hfind
    have hget := h.gets_listed hw hfind
    have hmem := mem_of_find?_eq_some hfind
    have hsource : m.1 = source := (accepts_last.mp hget.1).1.1
    have hnodup := h.dataList.nodup
    refine h.append (List.Sublist.refl _) erase_sublist ?_ ?_ (by simp) ?_
    · intro x hx
      obtain rfl := Option.some_inj.mp hx
      rwa [hsource] at hget
    · intro u hu hu'
      obtain rfl := gets_last_unique hget hu'
      rcases hu with hu | hu
      · exact (hw.flying u (h.arrived u (.inl hu))).2.2 ((h.received u).mpr (.inl hmem))
      · exact (hnodup.mem_erase_iff.mp hu).1 rfl
    · intro u
      rw [RecvState.complete.injEq, ← hsource]
      exact mem_erase_or hnodup hmem
  · rename_i hdata
    split
    · rename_i m hfind
      have hget := h.gets_waiting hw hdata hfind
      have hmem := mem_of_find?_eq_some hfind
      have hsource : m.1 = source := (accepts_last.mp hget.1).1.1
      have hnodup := h.unexpected.nodup
      refine h.append erase_sublist (List.Sublist.refl _) ?_ ?_ ?_ (by simp)
      · intro x hx
        obtain rfl := Option.some_inj.mp hx
        rwa [hsource] at hget
      · intro u hu hu'
        obtain rfl := gets_last_unique hget hu'
        rcases hu with hu | hu
        · exact (hnodup.mem_erase_iff.mp hu).1 rfl
        · exact hnothing hdata u hu hu'
      · intro u
        rw [RecvState.matched.injEq, ← hsource]
        exact mem_erase_or hnodup hmem
    · rename_i hun
      refine h.append (List.Sublist.refl _) (List.Sublist.refl _) ?_ ?_ (by simp) (by simp)
      · intro x hx
        cases hx
      · intro m hm
        rcases hm with hm | hm
        · exact hnothing hun m hm
        · exact hnothing hdata m hm

omit hw in
theorem finish (hb : b.finish k = some (b', m)) : τ.flying m ∧ Sound tag (τ.deliver m) b' := by
  obtain ⟨r, hr, hb⟩ := Option.bind_eq_some_iff.mp hb
  cases hstate : r.state with
  | posted | complete => simp [hstate] at hb
  | matched id =>
    simp only [hstate, Option.some_inj, Prod.mk.injEq] at hb
    obtain ⟨rfl, rfl⟩ := hb
    have hmem := mem_of_getElem? hr
    have hid : r.state.id? = some id := by rw [hstate]; rfl
    have hgets := h.bound k r id hr hid
    have hmine : ∀ m : Int × Nat, (r.source = m.1 ∧ RecvState.matched id = .matched m.2) ↔ m = (r.source, id) := by
      intro m
      rw [RecvState.matched.injEq, Prod.ext_iff, eq_comm, eq_comm (a := id)]
    -- No other receive has met the message, and it is not waiting.
    have harr : ∀ m, (b.setState k (.complete id)).Arrived m ↔ b.Arrived m ∧ m ≠ (r.source, id) := by
      intro m
      rw [Arrived, Arrived, exists_setState hr, exists_request hr, hstate, hmine m]
      simp only [reduceCtorEq, and_false, false_or]
      constructor
      · intro hm
        rcases hm with hun | ⟨i, q, hik, hq, hsource, hq'⟩
        · refine ⟨.inl hun, ?_⟩
          rintro rfl
          exact h.free _ (.inl hun) (h.taken_of_bound hmem hid)
        · refine ⟨.inr (.inr ⟨i, q, hik, hq, hsource, hq'⟩), ?_⟩
          rintro rfl
          have hother := h.bound i q id hq (by rw [hq']; rfl)
          rw [hsource] at hother
          exact hik (hother.request_eq hgets)
      · intro hm
        rcases hm with ⟨hun | rfl | hq, hne⟩
        · exact .inl hun
        · exact absurd rfl hne
        · exact .inr hq
    refine ⟨h.arrived _ (.inr ⟨r, hmem, rfl, hstate⟩), ?_, ?_, ?_, ?_, h.unexpected, h.dataList, ?_, ?_⟩
    · intro i q x hq hx
      rw [calls_setState]
      by_cases hik : i = k
      · subst hik
        rw [setState_self hr] at hq
        obtain rfl := Option.some_inj.mp hq
        obtain rfl := Option.some_inj.mp hx
        exact hgets
      · rw [setState_of_ne hik] at hq
        exact h.bound i q x hq hx
    · rw [calls_setState]
      exact h.free
    · intro m hm
      obtain ⟨hold, hne⟩ := (harr m).mp hm
      exact ⟨h.arrived m hold, hne⟩
    · intro m
      have hnow : (r.source = m.1 ∧ RecvState.complete id = .complete m.2) ↔ m = (r.source, id) := by
        rw [RecvState.complete.injEq, Prod.ext_iff, eq_comm, eq_comm (a := id)]
      rw [Traffic.deliver_received, h.received m, exists_setState hr, exists_request hr, hstate, hnow]
      simp only [reduceCtorEq, and_false, false_or]
      rw [or_assoc, or_comm (b := m = (r.source, id))]
      rfl
    · intro u v hu hv hvnew
      have hvold : ¬ b.Arrived v := fun hold => hvnew ((harr v).mpr ⟨hold, hv.2⟩)
      exact h.front u v ((harr u).mp hu).1 hv.1 hvold
    · rw [calls_setState]
      exact fun m hm y hy haddr hunrec => h.behind m hm y hy haddr fun hrec => hunrec (.inl hrec)

theorem probe (hb : b.probe s = some (b', m)) : τ.flying m ∧ Sound tag (τ.deliver m) b' := by
  obtain ⟨m', hfind, hb⟩ := Option.bind_eq_some_iff.mp hb
  rw [Option.some_inj, Prod.mk.injEq] at hb
  obtain ⟨rfl, rfl⟩ := hb
  have hmem := mem_of_find?_eq_some hfind
  have hfound := find?_some hfind
  have hsource : m'.1 = s := of_decide_eq_true hfound
  have hflying := h.arrived m' (.inl hmem)
  obtain ⟨haddr, hsent, hunrec⟩ := hw.flying m' hflying
  have hnodup := h.unexpected.nodup
  have hunbound : ∀ r ∈ b.requests, r.source = m'.1 → r.state.id? ≠ some m'.2 := by
    intro r hr hsource hid
    have htaken := h.taken_of_bound hr hid
    rw [hsource] at htaken
    exact h.free m' (.inl hmem) htaken
  have harr : ∀ u, ({ b with unexpected := b.unexpected.erase m', dataList := b.dataList ++ [m'] } : Receiver).Arrived u ↔
      b.Arrived u ∧ u ≠ m' := by
    intro u
    simp only [Arrived, hnodup.mem_erase_iff]
    constructor
    · intro hu
      rcases hu with ⟨hne, hun⟩ | ⟨r, hr, hr', hstate⟩
      · exact ⟨.inl hun, hne⟩
      · refine ⟨.inr ⟨r, hr, hr', hstate⟩, ?_⟩
        rintro rfl
        exact hunbound r hr hr' (by rw [hstate]; rfl)
    · intro hu
      rcases hu with ⟨hun | hr, hne⟩
      · exact .inl ⟨hne, hun⟩
      · exact .inr hr
  refine ⟨hflying, h.bound, ?_, ?_, ?_, h.unexpected.sublist erase_sublist, ?_, ?_, ?_⟩
  · intro u hu
    refine h.free u ?_
    rcases hu with hu | hu
    · exact .inl (mem_of_mem_erase hu)
    · rcases mem_append.mp hu with hu | hu
      · exact .inr hu
      · rw [mem_singleton.mp hu]
        exact .inl hmem
  · intro u hu
    obtain ⟨hold, hne⟩ := (harr u).mp hu
    exact ⟨h.arrived u hold, hne⟩
  · intro u
    rw [Traffic.deliver_received, h.received u, mem_append, mem_singleton, or_right_comm]
  · refine pairwise_append.mpr ⟨h.dataList, pairwise_singleton _ _, ?_⟩
    intro d hd u hu heq
    rw [mem_singleton.mp hu] at heq ⊢
    -- A listed message with a greater id would make the probed one belong to a call.
    by_contra hnot
    have hne : d.2 ≠ m'.2 := fun hid => hunrec ((h.received m').mpr (.inl (Prod.ext heq hid ▸ hd)))
    have htaken := h.behind d hd m'.2 (by omega) (by rw [heq]; exact haddr) (by rw [heq]; exact hunrec)
    rw [heq] at htaken
    exact h.free m' (.inl hmem) htaken
  · intro u v hu hv hvnew
    have hvold : ¬ b.Arrived v := fun hold => hvnew ((harr v).mpr ⟨hold, hv.2⟩)
    exact h.front u v ((harr u).mp hu).1 hv.1 hvold
  · intro d hd y hy hyaddr hyunrec
    have hyunrec' : ¬ τ.received (d.1, y) := fun hrec => hyunrec (.inl hrec)
    rcases mem_append.mp hd with hd | hd
    · exact h.behind d hd y hy hyaddr hyunrec'
    · -- Everything of the source before the probed message has come in already.
      rw [mem_singleton.mp hd] at hy hyaddr hyunrec' ⊢
      by_contra hytaken
      rcases h.located hw hyaddr (by omega) hytaken with hlist | hun | ⟨hfly, hnew⟩
      · exact hyunrec' ((h.received _).mpr (.inl hlist))
      · have := le_of_find? h.unexpected hfind hun (decide_eq_true hsource) rfl
        omega
      · have := h.front m' _ (.inl hmem) hfly hnew rfl
        omega

omit hw in
theorem repost (haddr : τ'.addressed = τ.addressed) (hrec : τ'.received = τ.received) : Sound tag τ' b.repost := by
  have hcomplete : ∀ m : Int × Nat, (∃ r ∈ b.repost.requests, r.source = m.1 ∧ r.state = .complete m.2) ↔
      ∃ r ∈ b.requests, r.source = m.1 ∧ r.state = .complete m.2 := by
    intro m
    simp only [Receiver.repost, mem_map, exists_exists_and_eq_and]
    refine exists_congr fun r => and_congr_right fun _ => ?_
    rcases repost_state r with ⟨hposted, hno⟩ | ⟨x, hx, heq⟩
    · simp [hposted, hno]
    · rw [heq]
  have hnone : ∀ m, ¬ b.repost.Arrived m := by
    intro m hm
    rcases hm with hun | ⟨q, hq, -, hstate⟩
    · exact not_mem_nil hun
    · obtain ⟨r, -, rfl⟩ := mem_map.mp hq
      rcases repost_state r with ⟨hposted, -⟩ | ⟨x, hx, heq⟩
      · rw [hposted] at hstate
        cases hstate
      · rw [heq, hx] at hstate
        cases hstate
  refine ⟨?_, ?_, ?_, ?_, List.Pairwise.nil, h.dataList, ?_, ?_⟩
  · intro k q x hq hid
    rw [calls_repost, haddr]
    simp only [Receiver.repost, getElem?_map, Option.map_eq_some_iff] at hq
    obtain ⟨r, hr, rfl⟩ := hq
    rcases repost_state r with ⟨hposted, -⟩ | ⟨y, hy, heq⟩
    · rw [hposted] at hid
      cases hid
    · rw [heq] at hid ⊢
      exact h.bound k r x hr hid
  · intro m hm
    rw [calls_repost, haddr]
    exact h.free m (.inr (hm.resolve_left not_mem_nil))
  · exact fun m hm => absurd hm (hnone m)
  · intro m
    rw [hrec, h.received m, hcomplete]
    rfl
  · exact fun m _ hm => absurd hm (hnone m)
  · rw [haddr, hrec, calls_repost]
    exact h.behind

omit hw in
theorem sent (haddr : τ'.addressed = τ.addressed) (hrec : τ'.received = τ.received)
    (hfly : ∀ m, τ.flying m → τ'.flying m)
    (hlate : ∀ m, τ'.flying m → ¬ τ.flying m → ∀ m', τ.flying m' → InTurn m' m) : Sound tag τ' b := by
  refine ⟨?_, ?_, fun m hm => hfly m (h.arrived m hm), ?_, h.unexpected, h.dataList, ?_, ?_⟩
  · rw [haddr]
    exact h.bound
  · rw [haddr]
    exact h.free
  · rw [hrec]
    exact h.received
  · intro m m' hm hm' hnew
    by_cases hold : τ.flying m'
    · exact h.front m m' hm hold hnew
    · exact hlate m' hm' hold m (h.arrived m hm)
  · rw [haddr, hrec]
    exact h.behind

omit hw in
theorem handed_pairwise (source g : Int) : (b.handed source g).Pairwise (· < ·) := by
  rw [handed, pairwise_filterMap, pairwise_iff_getElem]
  have hid : ∀ (r : RecvReq) x, (match r.state with
      | .complete id => if r.source = source ∧ r.tag = g then some id else none
      | _ => none) = some x → r.source = source ∧ r.tag = g ∧ r.state.id? = some x := by
    intro r x hx
    split at hx
    · rename_i id hstate
      obtain ⟨hcall, hid⟩ := Option.ite_none_right_eq_some.mp hx
      exact ⟨hcall.1, hcall.2, by rw [hstate]; exact hid⟩
    · cases hx
  intro i k hi hk hik x hx y hy
  obtain ⟨hsource, htag, hx⟩ := hid _ x hx
  obtain ⟨hsource', htag', hy⟩ := hid _ y hy
  have hri := getElem?_eq_getElem hi
  have hrk := getElem?_eq_getElem hk
  have hgets := h.bound i _ x hri hx
  have hgets' := h.bound k _ y hrk hy
  rw [hsource] at hgets
  rw [hsource'] at hgets'
  refine hgets.lt hgets' hik ((accepts_iff hri).mpr ?_)
  rw [hsource, htag, ← htag']
  have hacc := (accepts_iff hrk).mp hgets'.1
  rwa [hsource'] at hacc

end Sound

end Receiver

end ParepMpi
