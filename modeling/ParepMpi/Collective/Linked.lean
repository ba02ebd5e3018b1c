import ParepMpi.Collective.Log
import ParepMpi.Lib.Run
import ParepMpi.Lib.Sorted

/-!
# The links of the log of collectives

The log as it lies in memory: `last_collective`, the links of the records, the list `recvDataRed` of results that came
before their call, and the number of the next call.
-/

namespace ParepMpi

open LinkedList List Option Function

/-- The type of the record that holds the result of a reduction before the call. -/
def CollType.temp : CollType → Option CollType
  | reduce => some reduceTemp
  | allreduce => some allreduceTemp
  | _ => none

def CollType.isTemp (t : CollType) : Bool := t == reduceTemp || t == allreduceTemp

/-- The records by address, the log, and `recvDataRed`. No variable of the source is `held`: it is the memory that records
have, which `malloc` and `free` keep. -/
structure CollLinks where
  record : Nat → CollRecord
  links : Links Nat
  red : List Nat
  collectiveId : BitVec 32
  pending : Option CollRecord
  held : List Nat

/-- What happens to the log: a call looks for its result, a call puts the record `a` into the log, a result with the
given id is received in the record `a`, operations of a record complete, and a completed request is waited for. -/
inductive CollLinkEvent where
  | call (r : CollRecord)
  | insert (a : Nat)
  | probe (t : CollType) (id : BitVec 32) (a : Nat)
  | progress (n : Nat) (completecmp completerep : Bool) (completecolls : List Bool)
  | wait (n : Nat)

namespace CollLinks

def initial : CollLinks where
  record := fun _ => { type := .barrier, id := 0, completecmp := false, completerep := false }
  links := ⟨fun _ => 0, fun _ => 0, 0⟩
  red := []
  collectiveId := 0x70000000#32
  pending := none
  held := []

variable (s : CollLinks)

def key (n : Nat) : Int := (s.record n).id

def recvDataRedListFind (id : Int) (type : CollType) : Option Nat :=
  s.red.find? fun n => decide ((s.record n).id = id ∧ (s.record n).type = type)

def malloc (a : Nat) : Option CollLinks :=
  if a = 0 ∨ a ∈ s.held then none else some { s with held := a :: s.held }

def free (gone : Nat → Bool) : CollLinks := { s with held := s.held.filter fun n => !gone n }

def insertCollective (r : CollRecord) (a : Nat) : Option CollLinks :=
  let record := update s.record a r
  (s.links.insert 0 (fun n => (record n).id) (s.held.length + 1) a).map fun links => { s with record, links }

def newCollective (r : CollRecord) (a : Nat) : Option CollLinks :=
  (s.malloc a).bind fun s => s.insertCollective r a

def replaceTemp (r : CollRecord) (n : Nat) : CollLinks :=
  { s with
    record := update s.record n
      { s.record n with type := r.type, root := r.root, completecmp := true, completerep := true, released := false }
    red := s.red.erase n
    collectiveId := s.collectiveId + 1 }

def markRecord (record : Nat → CollRecord) (n : Nat) : Nat → CollRecord :=
  if (record n).finished then update record n { record n with id := -1 } else record

/-- The end of a barrier: the finished records are marked, and `cleanup_marked_logs` takes out what is marked. -/
def cleanupMarkedLogs : Option CollLinks :=
  (s.links.visit 0 markRecord (s.held.length + 1) s.links.first s.record).bind fun record =>
    (Links.sweep 0 (fun n => (record n).id == -1) (s.held.length + 1) s.links.first s.links).map fun links =>
      { s with record, links }.free fun n => (s.record n).finished

def step : CollLinkEvent → Option CollLinks
  | .call r =>
    if r.type.isTemp ∨ s.pending.isSome then none
    else
      match r.type.temp.bind (s.recvDataRedListFind s.collectiveId.toInt) with
      | some n => some (s.replaceTemp r n)
      | none => some { s with pending := some { r with released := false } }
  | .insert a =>
    s.pending.bind fun r =>
      (s.newCollective { r with id := s.collectiveId.toInt } a).map fun s =>
        { s with pending := none, collectiveId := s.collectiveId + 1 }
  | .probe t id a =>
    if !t.isTemp then none
    else if id &&& 0xF0000000#32 ≠ 0x70000000#32 then some s
    -- The assertion of the probe stops the process.
    else if id.toInt < s.collectiveId.toInt then none
    else
      (s.newCollective { type := t, id := id.toInt, completecmp := false, completerep := false } a).map fun s =>
        { s with red := s.red ++ [a] }
  | .progress n completecmp completerep completecolls =>
    if n ∉ s.held ∨ (s.record n).type.isTemp then none
    else
      some { s with
        record := update s.record n { s.record n with completecmp, completerep, completecolls } }
  | .wait n =>
    if n ∉ s.held ∨ (s.record n).type.isTemp ∨ (s.record n).completed = false ∨ (s.record n).released then none
    else
      let s' := { s with record := update s.record n { s.record n with released := true } }
      if (s.record n).type = .barrier then s'.cleanupMarkedLogs else some s'

def FreshId (id : Int) : Prop := ∀ n ∈ s.held, (s.record n).id ≠ id

instance (id : Int) : Decidable (s.FreshId id) :=
  inferInstanceAs (Decidable (∀ n ∈ s.held, (s.record n).id ≠ id))

/-- A record comes into the log only with an id that none has there, and not with the id that marks a record. -/
def NewId : CollLinkEvent → Prop
  | .insert _ => s.FreshId s.collectiveId.toInt ∧ s.collectiveId.toInt ≠ -1
  | .probe _ id _ => id &&& 0xF0000000#32 = 0x70000000#32 → s.FreshId id.toInt
  | _ => True

instance : (e : CollLinkEvent) → Decidable (s.NewId e)
  | .call _ | .progress _ _ _ _ | .wait _ => isTrue trivial
  | .insert _ => instDecidableAnd
  | .probe _ _ _ => inferInstanceAs (Decidable (_ → _))

/-- From `last_collective`, which has nothing before it, `next` leads over the records that are held, each of them once
and with the ids strictly descending, and `prev` leads back. -/
def Sorted : Prop :=
  ∃ l, s.links.Holds 0 l ∧ l.Pairwise (fun a b => s.key b < s.key a) ∧ l.Perm s.held

/-- The loops over the log end: a call and a result that come with memory for their record get it into the log, and
a completed request can be waited for. -/
structure Returns : Prop where
  insert : ∀ a, a ≠ 0 → a ∉ s.held → s.pending.isSome → ∃ s', s.step (.insert a) = some s'
  probe : ∀ t id a, a ≠ 0 → a ∉ s.held → t.isTemp → s.collectiveId.toInt ≤ id.toInt → ∃ s', s.step (.probe t id a) = some s'
  wait : ∀ n, n ∈ s.held → (s.record n).type.isTemp = false → (s.record n).completed → (s.record n).released = false →
    ∃ s', s.step (.wait n) = some s'

structure Inv (l : List Nat) : Prop where
  holds : s.links.Holds 0 l
  sorted : l.Pairwise fun a b => s.key b < s.key a
  perm : l.Perm s.held
  unmarked : ∀ n ∈ l, s.key n ≠ -1

variable {s s' : CollLinks} {l : List Nat} {r : CollRecord} {n a : Nat}

theorem Inv.length_lt (h : Inv s l) : l.length < s.held.length + 1 := by
  rw [h.perm.length_eq]
  exact Nat.lt_succ_self _

theorem Inv.congr (h : Inv s l) (hlinks : s'.links = s.links) (hheld : s'.held = s.held)
    (hkey : ∀ n, s'.key n = s.key n) : Inv s' l where
  holds := by
    rw [hlinks]
    exact h.holds
  sorted := h.sorted.imp fun hlt => by rwa [hkey, hkey]
  perm := by
    rw [hheld]
    exact h.perm
  unmarked := by
    intro n hn
    rw [hkey]
    exact h.unmarked n hn

theorem Inv.update (h : Inv s l) (hid : r.id = s.key n) : Inv { s with record := update s.record n r } l := by
  apply h.congr
  · rfl
  · rfl
  · intro m
    show (Function.update s.record n r m).id = s.key m
    by_cases hm : m = n
    · rw [hm, update_self, hid]
    · rw [update_of_ne hm]
      rfl

theorem newCollective_eq {links : Links Nat} (ha : a ≠ 0) (hnot : a ∉ s.held)
    (hins : s.links.insert 0 (fun n => (update s.record a r n).id) (s.held.length + 2) a = some links) :
    s.newCollective r a = some { s with record := update s.record a r, links := links, held := a :: s.held } := by
  rw [newCollective, malloc, if_neg (not_or.mpr ⟨ha, hnot⟩), bind_some, insertCollective]
  dsimp only [length_cons]
  rw [hins, map_some]

theorem Inv.newCollective (h : Inv s l) (ha : a ≠ 0) (hnot : a ∉ s.held) (hfresh : s.FreshId r.id) (hid : r.id ≠ -1) :
    ∃ s' l', s.newCollective r a = some s' ∧ Inv s' l' := by
  have hnotL : a ∉ l := fun hmem => hnot (h.perm.subset hmem)
  have hkey : ∀ n ∈ l, (Function.update s.record a r n).id = s.key n := by
    intro n hn
    have hne : n ≠ a := fun heq => hnotL (heq ▸ hn)
    rw [update_of_ne hne]
    rfl
  obtain ⟨links, l₁, l₂, hins, rfl, hholds, hle, hlt⟩ :=
    h.holds.insert (fun n => (Function.update s.record a r n).id) ha hnotL (Nat.lt_succ_of_lt h.length_lt)
  have hself : (Function.update s.record a r a).id = r.id := by
    rw [update_self]
  have hsorted : (l₁ ++ l₂).Pairwise fun x y =>
      (Function.update s.record a r y).id < (Function.update s.record a r x).id :=
    h.sorted.imp_of_mem fun hx hy hlt => by rwa [hkey _ hx, hkey _ hy]
  have hnew : ∀ x ∈ l₁ ++ l₂, (Function.update s.record a r x).id ≠ (Function.update s.record a r a).id := by
    intro x hx
    rw [hkey x hx, hself]
    exact hfresh x (h.perm.subset hx)
  refine ⟨_, l₁ ++ a :: l₂, newCollective_eq ha hnot hins, hholds, pairwise_insert hsorted hnew hle hlt,
    perm_middle.trans (h.perm.cons a), ?_⟩
  · intro n hn
    obtain rfl | hn := mem_cons.mp (perm_middle.subset hn)
    · exact hself.trans_ne hid
    · exact (hkey n hn).trans_ne (h.unmarked n hn)

theorem foldl_markRecord (record : Nat → CollRecord) (n : Nat) :
    l.foldl markRecord record n = if n ∈ l ∧ (record n).finished then { record n with id := -1 } else record n := by
  induction l generalizing record with
  | nil => rw [foldl_nil, if_neg fun h => not_mem_nil h.1]
  | cons a l ih =>
    rw [foldl_cons, ih]
    by_cases hn : n = a
    · subst hn
      cases hfin : (record n).finished with
      | true =>
        have hmark : markRecord record n n = { record n with id := -1 } := by
          rw [markRecord, if_pos hfin, update_self]
        rw [hmark]
        exact (ite_self _).trans (if_pos ⟨mem_cons_self, rfl⟩).symm
      | false =>
        have hmark : markRecord record n = record := if_neg (by simp [hfin])
        rw [hmark, hfin, if_neg fun h => Bool.false_ne_true h.2, if_neg fun h => Bool.false_ne_true h.2]
    · have hmark : markRecord record a n = record n := by
        unfold markRecord
        split
        · exact update_of_ne hn _ _
        · rfl
      rw [hmark]
      exact if_congr (by rw [mem_cons, or_iff_right hn]) rfl rfl

theorem Inv.cleanupMarkedLogs (h : Inv s l) :
    ∃ s', s.cleanupMarkedLogs = some s' ∧ Inv s' (l.filter fun n => !(s.record n).finished) := by
  have hvisit := h.holds.visit markRecord s.record h.length_lt
  obtain ⟨links, hsweep, hholds⟩ := h.holds.sweep (fun n => (l.foldl markRecord s.record n).id == -1) h.length_lt
  have hmarked : ∀ n ∈ l, ((l.foldl markRecord s.record n).id == -1) = (s.record n).finished := by
    intro n hn
    rw [foldl_markRecord]
    cases hfin : (s.record n).finished with
    | true =>
      rw [if_pos ⟨hn, rfl⟩]
      rfl
    | false =>
      rw [if_neg fun h => Bool.false_ne_true h.2]
      exact beq_false_of_ne (h.unmarked n hn)
  have hfilter : (l.filter fun n => !((l.foldl markRecord s.record n).id == -1))
      = l.filter fun n => !(s.record n).finished :=
    filter_congr fun n hn => by rw [hmarked n hn]
  have hkey : ∀ n ∈ l.filter (fun n => !(s.record n).finished), (l.foldl markRecord s.record n).id = s.key n := by
    intro n hn
    have hfin := (mem_filter.mp hn).2
    rw [foldl_markRecord, if_neg fun hm => by simp [hm.2] at hfin]
    rfl
  let s' : CollLinks := { s with
      record := l.foldl markRecord s.record
      links := links }.free fun n => (s.record n).finished
  refine ⟨s', ?_, ?_, ?_, h.perm.filter _, ?_⟩
  · rw [CollLinks.cleanupMarkedLogs, hvisit, bind_some, hsweep, map_some]
  · rw [← hfilter]
    exact hholds
  · refine (h.sorted.filter _).imp_of_mem fun hx hy hlt => ?_
    show (l.foldl markRecord s.record _).id < (l.foldl markRecord s.record _).id
    rwa [hkey _ hx, hkey _ hy]
  · intro n hn
    exact (hkey n hn).trans_ne (h.unmarked n (mem_of_mem_filter hn))

theorem Inv.call (h : Inv s l) (hstep : s.step (.call r) = some s') : Inv s' l := by
  obtain ⟨-, hstep⟩ := ite_none_left_eq_some.mp hstep
  split at hstep
  · rename_i n _
    obtain rfl := some.inj hstep
    refine Inv.congr (h.update (n := n) ?_) rfl rfl fun _ => rfl
    rfl
  · obtain rfl := some.inj hstep
    exact h.congr rfl rfl fun _ => rfl

theorem of_newCollective (h : s.newCollective r a = some s') : a ≠ 0 ∧ a ∉ s.held := by
  obtain ⟨t, ht, -⟩ := bind_eq_some_iff.mp h
  exact not_or.mp (ite_none_left_eq_some.mp ht).1

theorem Inv.insert (h : Inv s l) (hnew : s.NewId (.insert a)) (hstep : s.step (.insert a) = some s') :
    ∃ l', Inv s' l' := by
  obtain ⟨r, -, hins⟩ := bind_eq_some_iff.mp hstep
  obtain ⟨t, ht, rfl⟩ := map_eq_some_iff.mp hins
  obtain ⟨ha, hnot⟩ := of_newCollective ht
  obtain ⟨u, l', hu, hinv⟩ := h.newCollective (r := { r with id := s.collectiveId.toInt }) ha hnot hnew.1 hnew.2
  obtain rfl := some.inj (ht.symm.trans hu)
  exact ⟨l', hinv.congr rfl rfl fun _ => rfl⟩

variable {id : BitVec 32}

theorem toInt_ne_of_class (h : id &&& 0xF0000000#32 = 0x70000000#32) : id.toInt ≠ -1 := by
  intro heq
  have hid : id = BitVec.ofInt 32 (-1) := by
    rw [← heq, BitVec.ofInt_toInt]
  rw [hid] at h
  exact absurd h (by decide)

theorem Inv.probe {t : CollType} (h : Inv s l) (hnew : s.NewId (.probe t id a))
    (hstep : s.step (.probe t id a) = some s') : ∃ l', Inv s' l' := by
  obtain ⟨-, hstep⟩ := ite_none_left_eq_some.mp hstep
  split at hstep
  · obtain rfl := some.inj hstep
    exact ⟨l, h⟩
  · rename_i hclass
    have hclass := not_not.mp hclass
    split at hstep
    · cases hstep
    · obtain ⟨u, hu, rfl⟩ := map_eq_some_iff.mp hstep
      obtain ⟨ha, hnot⟩ := of_newCollective hu
      obtain ⟨v, l', hv, hinv⟩ := h.newCollective
        (r := { type := t, id := id.toInt, completecmp := false, completerep := false }) ha hnot (hnew hclass)
        (toInt_ne_of_class hclass)
      obtain rfl := some.inj (hu.symm.trans hv)
      exact ⟨l', hinv.congr rfl rfl fun _ => rfl⟩

theorem Inv.wait (h : Inv s l) (hstep : s.step (.wait n) = some s') : ∃ l', Inv s' l' := by
  obtain ⟨-, hstep⟩ := ite_none_left_eq_some.mp hstep
  have hfree : Inv { s with record := Function.update s.record n { s.record n with released := true } } l :=
    h.update rfl
  split at hstep
  · obtain ⟨t, ht, hinv⟩ := hfree.cleanupMarkedLogs
    obtain rfl := Option.some.inj (hstep.symm.trans ht)
    exact ⟨_, hinv⟩
  · obtain rfl := some.inj hstep
    exact ⟨l, hfree⟩

theorem Inv.step {e : CollLinkEvent} (h : Inv s l) (hnew : s.NewId e) (hstep : s.step e = some s') :
    ∃ l', Inv s' l' := by
  cases e with
  | call r => exact ⟨l, h.call hstep⟩
  | insert a => exact h.insert hnew hstep
  | probe t id a => exact h.probe hnew hstep
  | progress n completecmp completerep completecolls =>
    obtain ⟨-, hstep⟩ := ite_none_left_eq_some.mp hstep
    obtain rfl := some.inj hstep
    exact ⟨l, h.update rfl⟩
  | wait n => exact h.wait hstep

theorem inv_initial : Inv initial [] where
  holds := ⟨0, Queue.holds_nil _ _⟩
  sorted := Pairwise.nil
  perm := Perm.refl _
  unmarked := fun _ hn => absurd hn not_mem_nil

theorem Inv.newCollective_returns (h : Inv s l) (ha : a ≠ 0) (hnot : a ∉ s.held) :
    ∃ s', s.newCollective r a = some s' := by
  obtain ⟨links, -, -, hins, -⟩ := h.holds.insert (fun n => (Function.update s.record a r n).id) ha
    (fun hmem => hnot (h.perm.subset hmem)) (Nat.lt_succ_of_lt h.length_lt)
  exact ⟨_, newCollective_eq ha hnot hins⟩

theorem Inv.returns (h : Inv s l) : s.Returns where
  insert := by
    intro a ha hnot hpending
    obtain ⟨r, hr⟩ := isSome_iff_exists.mp hpending
    obtain ⟨t, ht⟩ := h.newCollective_returns (r := { r with id := s.collectiveId.toInt }) ha hnot
    exact ⟨_, by rw [CollLinks.step, hr, bind_some, ht, map_some]⟩
  probe := by
    intro t id a ha hnot htemp hle
    rw [CollLinks.step, if_neg (by simp [htemp])]
    split
    · exact ⟨_, rfl⟩
    · obtain ⟨u, hu⟩ := h.newCollective_returns
        (r := { type := t, id := id.toInt, completecmp := false, completerep := false }) ha hnot
      rw [if_neg (Int.not_lt.mpr hle), hu]
      exact ⟨_, rfl⟩
  wait := by
    intro n hn htemp hcompleted hreleased
    rw [CollLinks.step, if_neg (by simp [hn, htemp, hcompleted, hreleased])]
    split
    · have hfree : Inv { s with record := Function.update s.record n { s.record n with released := true } } l :=
        h.update rfl
      obtain ⟨t, ht, -⟩ := hfree.cleanupMarkedLogs
      exact ⟨t, ht⟩
    · exact ⟨_, rfl⟩

/-- In every run in which each record comes into the log with an id of its own, the log is sorted and linked both ways
after every event, holds every record once, and its loops end. -/
theorem collective_log_sorted (es : List CollLinkEvent) (s : CollLinks) (hrun : runEvents step initial es = some s)
    (hguard : Guarded step NewId initial es) : s.Sorted ∧ s.Returns := by
  obtain ⟨l, hinv⟩ : ∃ l, Inv s l := by
    refine hguard.invariant (P := fun u => ∃ l, Inv u l) hrun ⟨[], inv_initial⟩ fun h hnew hstep => ?_
    obtain ⟨l, h⟩ := h
    exact h.step hnew hstep
  exact ⟨⟨l, hinv.holds, hinv.sorted, hinv.perm⟩, hinv.returns⟩

/-- A broadcast, a result that is two calls ahead, a barrier and the call of the reduction; then the barrier ends. -/
def reductionAhead : List CollLinkEvent :=
  [.call { type := .bcast, id := 0, completecmp := true, completerep := true }, .insert 1,
    .probe .allreduceTemp 0x70000002#32 2,
    .call { type := .barrier, id := 0, completecmp := false, completerep := false }, .insert 3,
    .call { type := .allreduce, id := 0, completecmp := false, completerep := false },
    .wait 1, .progress 3 true true [], .wait 3]

theorem reductionAhead_sorted :
    ∃ s, runEvents step initial reductionAhead = some s ∧ s.held = [2] ∧ s.Sorted ∧ s.Returns := by
  refine exists_run_imp (P := fun s => s.held = [2]) (by decide +kernel) ?_
  exact fun s hs hheld => ⟨hheld, collective_log_sorted reductionAhead s hs (by decide +kernel)⟩

/-- The result of an allreduction with the id of the next call, which is a broadcast: the two records stand in the log
with one id. -/
theorem sameId_not_sorted : ∃ s, runEvents step initial [.probe .allreduceTemp 0x70000000#32 1,
        .call { type := .bcast, id := 0, completecmp := true, completerep := true }, .insert 2] = some s
      ∧ ¬ s.Sorted := by
  refine exists_run_imp (P := fun s => s.held = [2, 1] ∧ s.key 1 = s.key 2) (by decide +kernel) ?_
  intro s _ hfacts hsorted
  obtain ⟨hheld, hkey⟩ := hfacts
  obtain ⟨l, -, hpairwise, hperm⟩ := hsorted
  rw [hheld] at hperm
  -- Two different records of a sorted log have different ids.
  have hnodup : (l.map s.key).Nodup := pairwise_map.mpr (hpairwise.imp fun hlt => (Int.ne_of_lt hlt).symm)
  have heq := inj_on_of_nodup_map hnodup (hperm.mem_iff.mpr (by simp)) (hperm.mem_iff.mpr (by simp)) hkey
  exact absurd heq (by decide)

end CollLinks

end ParepMpi
