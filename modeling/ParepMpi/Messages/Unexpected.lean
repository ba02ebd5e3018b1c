import Mathlib.Data.List.Induction
import ParepMpi.Lib.Queue
import ParepMpi.Lib.Run

/-!
# Messages that came before their receive

A process that probes puts what it finds into `recvDataList`: messages, and at a replica the notifications of the
compute process, which name the message that a receive from any source has got there. The list is the linked one of the
source, and `Pending` is what it is for: the earliest message that matches. The two agree as long as no search meets a
notification before the message that it looks for.
-/

namespace ParepMpi

open LinkedList List Option

def anySource : Int := -2

def anyTag : Int := -1

inductive RecvKind where
  | recv
  | wildcardRecv
  deriving DecidableEq, Repr

structure PtpData where
  kind : RecvKind := .recv
  target : Int
  tag : Int
  id : Int
  comm : Nat
  deriving DecidableEq, Repr

namespace PtpData

def matching (src tag : Int) (comm : Nat) (r : PtpData) : Bool :=
  (r.target = src ∨ src = anySource) ∧ (r.tag = tag ∨ tag = anyTag) ∧ r.comm = comm

def matchingId (src tag id : Int) (comm : Nat) (r : PtpData) : Bool := r.matching src tag comm ∧ r.id = id

def matchingWildCard (tag : Int) (comm : Nat) (r : PtpData) : Bool :=
  r.kind = .wildcardRecv ∧ (r.tag = tag ∨ tag = anyTag) ∧ r.comm = comm

def isData (r : PtpData) : Bool := r.kind = .recv

end PtpData

inductive Copy where
  | compute
  | replica
  deriving DecidableEq, Repr

/-- How an `MPI_Irecv` goes on: with the record of a node, or with a receive that it posts. -/
inductive IrecvOutcome where
  | taken (node : Nat)
  | posted (source : Int)
  deriving DecidableEq, Repr

inductive RecvListEvent where
  | insert (node : Nat) (pdata : PtpData)
  | irecv (copy : Copy) (source tag : Int) (comm : Nat)
  deriving DecidableEq, Repr

/-- The list and its nodes. -/
structure RecvDataList where
  links : Queue Nat := ⟨fun _ => 0, fun _ => 0, 0, 0⟩
  pdata : Nat → PtpData := fun _ => ⟨.recv, 0, 0, 0, 0⟩
  live : List Nat := []
  calls : List IrecvOutcome := []

namespace RecvDataList

variable (q : RecvDataList)

def insert (node : Nat) (pdata : PtpData) : Option RecvDataList :=
  if node ≠ 0 ∧ node ∉ q.live then
    some { q with links := q.links.insert 0 node
                  pdata := Function.update q.pdata node pdata
                  live := q.live ++ [node] }
  else none

def delete (rnode : Nat) : RecvDataList :=
  { q with links := q.links.delete 0 rnode, live := q.live.erase rnode }

/-- A search from the head on. -/
def findFirst (p : PtpData → Bool) : Option Nat :=
  q.links.find 0 (fun n => p (q.pdata n)) (q.live.length + 1) q.links.head

def find (src tag : Int) (comm : Nat) : Option Nat := q.findFirst (PtpData.matching src tag comm)

def findWithId (src tag id : Int) (comm : Nat) : Option Nat :=
  q.findFirst (PtpData.matchingId src tag id comm)

def findWildCard (tag : Int) (comm : Nat) : Option Nat := q.findFirst (PtpData.matchingWildCard tag comm)

def useNode (rnode : Nat) (source : Int) : RecvDataList :=
  if rnode ≠ 0 then { q.delete rnode with calls := q.calls ++ [.taken rnode] }
  else { q with calls := q.calls ++ [.posted source] }

/-- `MPI_Irecv`. -/
def irecv (copy : Copy) (source tag : Int) (comm : Nat) : Option RecvDataList :=
  if source = anySource ∧ copy = .replica then do
    let notice ← q.findWildCard tag comm
    if notice ≠ 0 then
      let curargs := q.pdata notice
      let q := q.delete notice
      let rnode ← q.findWithId curargs.target tag curargs.id comm
      some (q.useNode rnode curargs.target)
    else some (q.useNode 0 source)
  else do
    let rnode ← q.find source tag comm
    some (q.useNode rnode source)

def step : RecvListEvent → Option RecvDataList
  | .insert node pdata => q.insert node pdata
  | .irecv copy source tag comm => q.irecv copy source tag comm

end RecvDataList

structure Pending where
  nodes : List Nat := []
  pdata : Nat → PtpData := fun _ => ⟨.recv, 0, 0, 0, 0⟩
  calls : List IrecvOutcome := []

namespace Pending

def earliest (a : Pending) (p : PtpData → Bool) : Option Nat := a.nodes.find? fun n => p (a.pdata n)

/-- A receive goes on with the record, which leaves, or is posted. -/
def settle (a : Pending) (source : Int) (found : Option Nat) : Pending :=
  { a with nodes := found.elim a.nodes a.nodes.erase
           calls := a.calls ++ [found.elim (.posted source) .taken] }

/-- A receive gets the earliest message that matches. -/
def irecv (a : Pending) (copy : Copy) (source tag : Int) (comm : Nat) : Pending :=
  if source = anySource ∧ copy = .replica then
    match a.earliest (PtpData.matchingWildCard tag comm) with
    | none => a.settle source none
    | some notice =>
      let named := a.pdata notice
      let a := { a with nodes := a.nodes.erase notice }
      a.settle named.target (a.earliest fun r => r.isData && r.matchingId named.target tag named.id comm)
  else a.settle source (a.earliest fun r => r.isData && r.matching source tag comm)

theorem irecv_calls (a : Pending) (copy : Copy) (source tag : Int) (comm : Nat) :
    ∃ o, (a.irecv copy source tag comm).calls = a.calls ++ [o] := by
  unfold irecv
  split
  · split
    all_goals exact ⟨_, rfl⟩
  · exact ⟨_, rfl⟩

def step (a : Pending) : RecvListEvent → Pending
  | .insert node pdata => { a with nodes := a.nodes ++ [node], pdata := Function.update a.pdata node pdata }
  | .irecv copy source tag comm => a.irecv copy source tag comm

end Pending

namespace RecvDataList

/-- The list has the records that wait, in their order, and every call did what it was to do. -/
structure Shows (q : RecvDataList) (a : Pending) : Prop where
  holds : q.links.Holds 0 a.nodes
  pdata : q.pdata = a.pdata
  calls : q.calls = a.calls

/-- The earliest record of the list that meets `p` is not a notification. -/
def DataFirst (q : RecvDataList) (p : PtpData → Bool) : Prop :=
  ∀ n ∈ q.live.find? fun n => p (q.pdata n), (q.pdata n).isData = true

instance (q : RecvDataList) (p : PtpData → Bool) : Decidable (q.DataFirst p) :=
  inferInstanceAs (Decidable (∀ n ∈ q.live.find? fun n => p (q.pdata n), (q.pdata n).isData = true))

/-- The earliest record that matches the call is not a notification. -/
def NoticeBehind (q : RecvDataList) : RecvListEvent → Prop
  | .insert _ _ => True
  | .irecv copy source tag comm =>
    if source = anySource ∧ copy = .replica then
      ∀ n ∈ q.live.find? fun n => (q.pdata n).matchingWildCard tag comm,
        (q.delete n).DataFirst (PtpData.matchingId (q.pdata n).target tag (q.pdata n).id comm)
    else q.DataFirst (PtpData.matching source tag comm)

instance (q : RecvDataList) : (e : RecvListEvent) → Decidable (q.NoticeBehind e)
  | .insert _ _ => instDecidableTrue
  | .irecv _ _ _ _ => inferInstanceAs (Decidable (ite _ _ _))

end RecvDataList

theorem find?_and_eq_iff {α : Type*} (r p : α → Bool) (l : List α) :
    l.find? (fun a => r a && p a) = l.find? p ↔ ∀ d ∈ l.find? p, r d = true := by
  induction l with
  | nil => simp
  | cons a l ih =>
    rw [find?_cons, find?_cons]
    cases hp : p a with
    | false => simpa using ih
    | true =>
      cases hr : r a with
      | true => simp [hr]
      | false =>
        simp only [Bool.false_and, mem_def, some.injEq, forall_eq', hr, Bool.false_eq_true, iff_false]
        intro hfind
        have hsome := find?_some hfind
        simp [hr] at hsome

namespace RecvDataList

variable {q q' : RecvDataList} {a : Pending}

def Linked (q : RecvDataList) : Prop := q.links.Holds 0 q.live

theorem findFirst_eq (h : q.Linked) (p : PtpData → Bool) :
    q.findFirst p = some ((q.live.find? fun n => p (q.pdata n)).getD 0) :=
  h.find _ (Nat.lt_succ_self _)

theorem Linked.delete (h : q.Linked) {n : Nat} (hn : n ∈ q.live) : (q.delete n).Linked := Queue.Holds.delete h hn

def used (q : RecvDataList) (source : Int) (found : Option Nat) : RecvDataList := q.useNode (found.getD 0) source

def notice (q : RecvDataList) (tag : Int) (comm : Nat) : Option Nat :=
  q.live.find? fun n => (q.pdata n).matchingWildCard tag comm

section

variable {copy : Copy} {source tag : Int} {comm n : Nat} {found : Option Nat}

theorem used_some (h : q.Linked) (hn : n ∈ q.live) (source : Int) :
    q.used source (some n) = { q.delete n with calls := q.calls ++ [.taken n] } := if_pos (h.ne_null n hn)

theorem used_calls (h : q.Linked) (hfound : ∀ n ∈ found, n ∈ q.live) (source : Int) :
    (q.used source found).calls = q.calls ++ [found.elim (.posted source) .taken] := by
  cases found with
  | none => rfl
  | some n => rw [used_some h (hfound n rfl), elim_some]

theorem used_live (h : q.Linked) (hfound : ∀ n ∈ found, n ∈ q.live) (source : Int) :
    (q.used source found).live = found.elim q.live q.live.erase := by
  cases found with
  | none => rfl
  | some n =>
    rw [used_some h (hfound n rfl)]
    rfl

theorem used_pdata (q : RecvDataList) (source : Int) (found : Option Nat) : (q.used source found).pdata = q.pdata := by
  unfold used useNode
  split
  all_goals rfl

theorem Linked.used (h : q.Linked) (hfound : ∀ n ∈ found, n ∈ q.live) (source : Int) : (q.used source found).Linked := by
  cases found with
  | none => exact h
  | some n =>
    rw [used_some h (hfound n rfl)]
    exact h.delete (hfound n rfl)

theorem mem_of_find {p : Nat → Bool} : ∀ n ∈ q.live.find? p, n ∈ q.live := fun _ => mem_of_find?_eq_some

theorem noticeBehind_any (hcall : source = anySource ∧ copy = .replica) :
    q.NoticeBehind (.irecv copy source tag comm) ↔ ∀ n ∈ q.notice tag comm,
      (q.delete n).DataFirst (PtpData.matchingId (q.pdata n).target tag (q.pdata n).id comm) := by
  rw [NoticeBehind, if_pos hcall]
  rfl

theorem noticeBehind_named (hcall : ¬ (source = anySource ∧ copy = .replica)) :
    q.NoticeBehind (.irecv copy source tag comm) ↔ q.DataFirst (PtpData.matching source tag comm) := by
  rw [NoticeBehind, if_neg hcall]

theorem irecv_eq_used (h : q.Linked) (hcall : ¬ (source = anySource ∧ copy = .replica)) :
    q.irecv copy source tag comm = some (q.used source (q.live.find? fun n => (q.pdata n).matching source tag comm)) := by
  rw [irecv, if_neg hcall, find, findFirst_eq h]
  rfl

theorem irecv_eq_posted (h : q.Linked) (hcall : source = anySource ∧ copy = .replica) (hnotice : q.notice tag comm = none) :
    q.irecv copy source tag comm = some (q.used source none) := by
  have hfind : q.findWildCard tag comm = some 0 := by
    rw [findWildCard, findFirst_eq h]
    exact congrArg (fun o => some (Option.getD o 0)) hnotice
  rw [irecv, if_pos hcall, hfind]
  rfl

theorem irecv_eq_notice (h : q.Linked) (hcall : source = anySource ∧ copy = .replica)
    (hnotice : q.notice tag comm = some n) : q.irecv copy source tag comm =
      some ((q.delete n).used (q.pdata n).target ((q.delete n).live.find? fun m =>
        ((q.delete n).pdata m).matchingId (q.pdata n).target tag (q.pdata n).id comm)) := by
  have hn : n ∈ q.live := mem_of_find n hnotice
  have hfind : q.findWildCard tag comm = some n := by
    rw [findWildCard, findFirst_eq h]
    exact congrArg (fun o => some (Option.getD o 0)) hnotice
  have hnext := findFirst_eq (h.delete hn) (PtpData.matchingId (q.pdata n).target tag (q.pdata n).id comm)
  rw [irecv, if_pos hcall, hfind, bind_eq_bind, bind_some, if_pos (h.ne_null n hn)]
  simp only [findWithId, hnext]
  rfl

theorem Linked.step (h : q.Linked) {e : RecvListEvent} (hs : q.step e = some q') : q'.Linked := by
  cases e with
  | insert node pdata =>
    rw [RecvDataList.step, RecvDataList.insert, ite_none_right_eq_some] at hs
    obtain ⟨⟨hne, hnot⟩, hs⟩ := hs
    rw [← some_inj.mp hs]
    exact Queue.Holds.insert h hne hnot
  | irecv copy source tag comm =>
    rw [RecvDataList.step] at hs
    by_cases hcall : source = anySource ∧ copy = .replica
    · cases hnotice : q.notice tag comm with
      | none =>
        rw [irecv_eq_posted h hcall hnotice, some_inj] at hs
        rw [← hs]
        exact h
      | some n =>
        rw [irecv_eq_notice h hcall hnotice, some_inj] at hs
        rw [← hs]
        exact (h.delete (mem_of_find n hnotice)).used mem_of_find _
    · rw [irecv_eq_used h hcall, some_inj] at hs
      rw [← hs]
      exact h.used mem_of_find _

theorem irecv_isSome (h : q.Linked) (copy : Copy) (source tag : Int) (comm : Nat) :
    (q.irecv copy source tag comm).isSome := by
  by_cases hcall : source = anySource ∧ copy = .replica
  · cases hnotice : q.notice tag comm with
    | none => rw [irecv_eq_posted h hcall hnotice, isSome_some]
    | some n => rw [irecv_eq_notice h hcall hnotice, isSome_some]
  · rw [irecv_eq_used h hcall, isSome_some]

structure Stores (q : RecvDataList) (a : Pending) : Prop where
  linked : q.Linked
  nodes : q.live = a.nodes
  pdata : q.pdata = a.pdata

theorem outcome_inj {source : Int} {o o' : Option Nat}
    (h : o.elim (IrecvOutcome.posted source) .taken = o'.elim (.posted source) .taken) : o = o' := by
  cases o with
  | none =>
    cases o' with
    | none => rfl
    | some n => exact absurd h (by simp)
  | some m =>
    cases o' with
    | none => exact absurd h (by simp)
    | some n => exact congrArg some (IrecvOutcome.taken.inj h)

/-- A call that takes what its search finds does what it is to do exactly when a message comes first there. -/
theorem Stores.settle (h : q.Stores a) (p : PtpData → Bool) (source : Int) :
    ((q.used source (q.live.find? fun n => p (q.pdata n))).calls =
        (a.settle source (a.earliest fun r => r.isData && p r)).calls ↔ q.calls = a.calls ∧ q.DataFirst p) ∧
      (q.DataFirst p → (q.used source (q.live.find? fun n => p (q.pdata n))).Stores
        (a.settle source (a.earliest fun r => r.isData && p r))) := by
  have hfound : q.DataFirst p ↔ (a.earliest fun r => r.isData && p r) = q.live.find? fun n => p (q.pdata n) := by
    rw [Pending.earliest, ← h.nodes, ← h.pdata]
    exact (find?_and_eq_iff _ _ _).symm
  constructor
  · rw [used_calls h.linked mem_of_find, Pending.settle]
    constructor
    · intro hcalls
      obtain ⟨hpast, hlast⟩ := append_inj' hcalls rfl
      exact ⟨hpast, hfound.mpr (outcome_inj (singleton_inj.mp hlast)).symm⟩
    · intro hboth
      rw [hboth.1, hfound.mp hboth.2]
  · intro hfirst
    rw [hfound.mp hfirst]
    refine ⟨h.linked.used mem_of_find _, ?_, (used_pdata ..).trans h.pdata⟩
    rw [used_live h.linked mem_of_find, Pending.settle, ← h.nodes]

theorem Stores.delete (h : q.Stores a) (hn : n ∈ q.live) : (q.delete n).Stores { a with nodes := a.nodes.erase n } where
  linked := h.linked.delete hn
  nodes := congrArg (·.erase n) h.nodes
  pdata := h.pdata

variable {node : Nat} {pdata : PtpData}

theorem insert_calls (hs : q.insert node pdata = some q') : q'.calls = q.calls := by
  rw [insert, ite_none_right_eq_some] at hs
  rw [← some_inj.mp hs.2]

theorem useNode_calls (q : RecvDataList) (n : Nat) (source : Int) : ∃ o, (q.useNode n source).calls = q.calls ++ [o] := by
  unfold useNode
  split
  · exact ⟨.taken n, rfl⟩
  · exact ⟨.posted source, rfl⟩

theorem irecv_calls (h : q.Linked) (hs : q.irecv copy source tag comm = some q') : ∃ o, q'.calls = q.calls ++ [o] := by
  by_cases hcall : source = anySource ∧ copy = .replica
  · cases hnotice : q.notice tag comm with
    | none =>
      rw [irecv_eq_posted h hcall hnotice, some_inj] at hs
      exact hs ▸ useNode_calls q _ source
    | some m =>
      rw [irecv_eq_notice h hcall hnotice, some_inj] at hs
      exact hs ▸ useNode_calls (q.delete m) _ _
  · rw [irecv_eq_used h hcall, some_inj] at hs
    exact hs ▸ useNode_calls q _ source

theorem Stores.insert (h : q.Stores a) (hs : q.insert node pdata = some q') :
    q'.Stores (a.step (.insert node pdata)) := by
  have hlinked : q'.Linked := h.linked.step (e := .insert node pdata) hs
  rw [RecvDataList.insert, ite_none_right_eq_some] at hs
  obtain rfl := some_inj.mp hs.2
  exact ⟨hlinked, congrArg (· ++ [node]) h.nodes, congrArg (Function.update · node pdata) h.pdata⟩

theorem Stores.irecv (h : q.Stores a) (hs : q.irecv copy source tag comm = some q') :
    (q'.calls = (a.irecv copy source tag comm).calls ↔
        q.calls = a.calls ∧ q.NoticeBehind (.irecv copy source tag comm)) ∧
      (q.NoticeBehind (.irecv copy source tag comm) → q'.Stores (a.irecv copy source tag comm)) := by
  by_cases hcall : source = anySource ∧ copy = .replica
  · rw [noticeBehind_any hcall, Pending.irecv, if_pos hcall]
    have hsame : a.earliest (PtpData.matchingWildCard tag comm) = q.notice tag comm := by
      rw [Pending.earliest, notice, h.nodes, h.pdata]
    rw [hsame]
    cases hnotice : q.notice tag comm with
    | none =>
      rw [irecv_eq_posted h.linked hcall hnotice, some_inj] at hs
      subst hs
      refine ⟨?_, fun _ => { h with }⟩
      change q.calls ++ [.posted source] = a.calls ++ [.posted source] ↔ _
      simp
    | some m =>
      rw [irecv_eq_notice h.linked hcall hnotice, some_inj] at hs
      subst hs
      have hsettle := (h.delete (mem_of_find m hnotice)).settle
        (PtpData.matchingId (q.pdata m).target tag (q.pdata m).id comm) (q.pdata m).target
      simp only [mem_def, some.injEq, forall_eq']
      rw [← h.pdata] at hsettle ⊢
      exact hsettle
  · rw [noticeBehind_named hcall, Pending.irecv, if_neg hcall]
    rw [irecv_eq_used h.linked hcall, some_inj] at hs
    subst hs
    exact h.settle (PtpData.matching source tag comm) source

theorem stores_start : Stores {} {} := ⟨Queue.holds_nil _ _, rfl, rfl⟩

end

variable {es : List RecvListEvent}

theorem run_linked (hrun : runEvents step {} es = some q) : q.Linked := by
  have hguard : Guarded step (fun _ _ => True) {} es := guarded_of_forall fun _ _ _ => trivial
  exact hguard.invariant hrun stores_start.linked fun h _ => h.step

theorem run_agrees (hrun : runEvents step {} es = some q) :
    (q.calls = (es.foldl Pending.step {}).calls ↔ Guarded step NoticeBehind {} es) ∧
      (Guarded step NoticeBehind {} es → q.Stores (es.foldl Pending.step {})) := by
  induction es using reverseRecOn generalizing q with
  | nil =>
    obtain rfl := some_inj.mp hrun
    exact ⟨⟨fun _ => trivial, fun _ => rfl⟩, fun _ => stores_start⟩
  | append_singleton es e ih =>
    obtain ⟨q₁, hrun₁, hs⟩ := runEvents_snoc.mp hrun
    obtain ⟨hcalls, hstores⟩ := ih hrun₁
    rw [guarded_snoc hrun₁, foldl_append, foldl_cons, foldl_nil, ← hcalls]
    cases e with
    | insert node pdata =>
      rw [insert_calls hs]
      refine ⟨⟨fun heq => ⟨heq, trivial⟩, And.left⟩, ?_⟩
      intro hboth
      exact (hstores (hcalls.mp hboth.1)).insert hs
    | irecv copy source tag comm =>
      constructor
      · constructor
        · -- Calls that agree now have always agreed.
          intro heq
          obtain ⟨o, ho⟩ := irecv_calls (run_linked hrun₁) hs
          obtain ⟨o', ho'⟩ := Pending.irecv_calls (es.foldl Pending.step {}) copy source tag comm
          have hpast := (append_inj' (ho.symm.trans (heq.trans ho')) rfl).1
          exact ((hstores (hcalls.mp hpast)).irecv hs).1.mp heq
        · intro hboth
          exact ((hstores (hcalls.mp hboth.1)).irecv hs).1.mpr hboth
      · intro hboth
        exact ((hstores (hcalls.mp hboth.1)).irecv hs).2 hboth.2

/-- In every run, whatever came into the list and whatever was asked for, the next `MPI_Irecv` gets an answer; and the
list has done what it is for exactly when at no call a notification came first among the records that match. -/
theorem unexpected_messages_matched_iff {es : List RecvListEvent} (hrun : runEvents step {} es = some q) :
    (∀ copy source tag comm, (q.irecv copy source tag comm).isSome) ∧
      (q.Shows (es.foldl Pending.step {}) ↔ Guarded step NoticeBehind {} es) := by
  refine ⟨irecv_isSome (run_linked hrun), ?_⟩
  obtain ⟨hcalls, hstores⟩ := run_agrees hrun
  constructor
  · intro h
    exact hcalls.mp h.calls
  · intro h
    have hstore := hstores h
    refine ⟨?_, hstore.pdata, hcalls.mpr h⟩
    rw [← hstore.nodes]
    exact hstore.linked

/-- A replica has two messages of rank 3 and, between them, the notification that names the second. -/
theorem messages_around_notification_matched :
    ∃ q, runEvents step {} [.insert 8 ⟨.recv, 3, 5, 0x70000000, 0⟩, .insert 16 ⟨.wildcardRecv, 3, 5, 0x70000001, 0⟩,
        .insert 24 ⟨.recv, 3, 5, 0x70000001, 0⟩, .irecv .replica 3 5 0, .irecv .replica anySource anyTag 0] = some q ∧
      q.Shows ([.insert 8 ⟨.recv, 3, 5, 0x70000000, 0⟩, .insert 16 ⟨.wildcardRecv, 3, 5, 0x70000001, 0⟩,
        .insert 24 ⟨.recv, 3, 5, 0x70000001, 0⟩, .irecv .replica 3 5 0,
        .irecv .replica anySource anyTag 0].foldl Pending.step {}) := by
  obtain ⟨q, hq⟩ := isSome_iff_exists.mp (show (runEvents step {} [.insert 8 ⟨.recv, 3, 5, 0x70000000, 0⟩,
    .insert 16 ⟨.wildcardRecv, 3, 5, 0x70000001, 0⟩, .insert 24 ⟨.recv, 3, 5, 0x70000001, 0⟩, .irecv .replica 3 5 0,
    .irecv .replica anySource anyTag 0]).isSome by decide)
  exact ⟨q, hq, (unexpected_messages_matched_iff hq).2.mpr (by decide)⟩

/-- The notification of a receive from any source is in the list when a replica receives from rank 3 by name. -/
theorem notification_taken_as_message :
    ∃ q, runEvents step {} [.insert 8 ⟨.wildcardRecv, 3, 5, 0x70000001, 0⟩, .irecv .replica 3 5 0] = some q ∧
      q.calls = [.taken 8] ∧
      ([.insert 8 ⟨.wildcardRecv, 3, 5, 0x70000001, 0⟩, .irecv .replica 3 5 0].foldl Pending.step {}).calls =
        [.posted 3] := by
  obtain ⟨q, hq, hcalls⟩ := map_eq_some_iff.mp (show (runEvents step {}
    [.insert 8 ⟨.wildcardRecv, 3, 5, 0x70000001, 0⟩, .irecv .replica 3 5 0]).map (·.calls) = some [.taken 8] by decide)
  exact ⟨q, hq, hcalls, by decide⟩

end RecvDataList

end ParepMpi
