import ParepMpi.Store.Ranges

/-!
# New virtual ids

Every coordinator gives out new ids from counters of its own and hears of the ids of the others when they are sent on.
An id that is given out must be new to all of them. Pairs that are sent on arrive in any order and at any time, so that
the queue of the propagating thread is left out; a call of `lid_add_pair` is one step, although the source gives up its
lock between the search and the insertion.
-/

namespace ParepMpi

open List Option Function IdStores Chains

/-- The coordinators with their stores. -/
structure IdFleet where
  nodeNum : Nat
  node : Nat → IdStores
  sent : List IdPair
  lids : List UInt16
  qpNums : List UInt32
  rkeys : List UInt32
  pdIds : List UInt32

inductive FleetEvent where
  /-- A process of node `v` stores a pair. -/
  | store (v : Nat) (p : IdPair)
  /-- Node `v` gets a pair that another coordinator sends on. -/
  | propagate (v i : Nat)
  | getPdId (v : Nat)
  | getRkey (v : Nat)
  deriving DecidableEq, Repr

namespace IdFleet

def init (n : Nat) : IdFleet := ⟨n, IdStores.init n, [], [], [], [], []⟩

variable (f : IdFleet)

def setNode (v : Nat) (s : IdStores) : IdFleet := { f with node := update f.node v s }

def store (v : Nat) : IdPair → IdFleet
  | .lid virtLid lid =>
    let r := (f.node v).lidAddPair virtLid lid
    { f.setNode v r.2 with
      sent := f.sent ++ [.lid r.1 lid]
      lids := if virtLid = -1 then f.lids ++ [r.1] else f.lids }
  | .rkey virtRkey pdId realRkey =>
    let r := (f.node v).rkeyAddPair virtRkey pdId realRkey
    { f.setNode v r.2 with
      sent := f.sent ++ [.rkey r.1 pdId realRkey]
      rkeys := if virtRkey = -1 then f.rkeys ++ [r.1] else f.rkeys }
  | .qp virtQpNum realQpNum pdId =>
    let r := (f.node v).qpAddPair virtQpNum realQpNum pdId
    { f.setNode v r.2 with
      sent := f.sent ++ [.qp r.1 realQpNum pdId]
      qpNums := if virtQpNum = -1 then f.qpNums ++ [r.1] else f.qpNums }

def step : FleetEvent → Option IdFleet
  | .store v p => if v < f.nodeNum then some (f.store v p) else none
  | .propagate v i => do
      let p ← f.sent[i]?
      if v < f.nodeNum then some (f.setNode v ((f.node v).add p)) else none
  | .getPdId v =>
    if v < f.nodeNum then
      some { f.setNode v (f.node v).getPdId.2 with pdIds := f.pdIds ++ [(f.node v).getPdId.1] }
    else none
  | .getRkey v =>
    if v < f.nodeNum then
      some { f.setNode v (f.node v).getRkey.2 with rkeys := f.rkeys ++ [(f.node v).getRkey.1] }
    else none

def StoresLid (k : UInt16) : Prop := ∃ w < f.nodeNum, ∃ p ∈ pairs lidHashKeys (f.node w).lidMap, p.1 = k

def StoresQp (k : UInt32) : Prop := ∃ w < f.nodeNum, ∃ p ∈ pairs qpHashKeys (f.node w).qpMap, p.1 = k

def StoresRkey (k : UInt32) : Prop :=
  ∃ w < f.nodeNum, ∃ p ∈ pairs rkeyHashKeys (f.node w).rkeyMap, p.1.1 = k

def StoresPd (k : UInt32) : Prop := ∃ w < f.nodeNum, (∃ p ∈ pairs rkeyHashKeys (f.node w).rkeyMap, p.1.2 = k) ∨
    ∃ p ∈ pairs qpHashKeys (f.node w).qpMap, p.2.2 = k

/-- A new id of node `v`: in the node's range, neither given out nor stored before, and not -1. -/
def NewId (lims : UInt32 × UInt32) (given : List UInt32) (stored : UInt32 → Prop) (k : UInt32) : Prop :=
  lims.1 ≤ k ∧ k ≤ lims.2 ∧ k ∉ given ∧ ¬ stored k ∧ k ≠ -1

def Fresh : FleetEvent → Prop
  | .store v (.lid virtLid lid) => virtLid = -1 →
      let r := ((f.node v).lidAddPair virtLid lid).1
      (∃ p ∈ pairs lidHashKeys (f.node v).lidMap, p.2 = lid ∧ p.1 = r) ∨
        (∀ p ∈ pairs lidHashKeys (f.node v).lidMap, p.2 ≠ lid) ∧ r ∉ f.lids ∧ ¬ f.StoresLid r
  | .store v (.rkey virtRkey pdId realRkey) => virtRkey = -1 →
      NewId (f.node v).rkeyLims f.rkeys f.StoresRkey ((f.node v).rkeyAddPair virtRkey pdId realRkey).1
  | .store v (.qp virtQpNum realQpNum pdId) => virtQpNum = -1 →
      NewId (f.node v).qpNumLims f.qpNums f.StoresQp ((f.node v).qpAddPair virtQpNum realQpNum pdId).1
  | .getPdId v => NewId (f.node v).pdIdLims f.pdIds f.StoresPd (f.node v).getPdId.1
  | .getRkey v => NewId (f.node v).rkeyLims f.rkeys f.StoresRkey (f.node v).getRkey.1
  | .propagate _ _ => True

/-- The other nodes whose range the key is in have their counters behind it. -/
def PastElsewhere (lims : Nat → UInt32 × UInt32) (current : Nat → UInt32) (who : Nat → Prop) (key : UInt32) : Prop :=
  ∀ u < f.nodeNum, who u → (lims u).1 ≤ key → key ≤ (lims u).2 → key < current u

/-- The condition on a protection domain id that comes with a pair. -/
def PdInOrder (v : Nat) (isNew : Prop) (pdId : UInt32) : Prop :=
  pdId ≠ -1 ∧ f.PastElsewhere (fun u => (f.node u).pdIdLims) (fun u => (f.node u).currentPdId)
    (fun u => u ≠ v ∨ isNew) pdId

def KeyInOrder (v : Nat) (lims : Nat → UInt32 × UInt32) (current : Nat → UInt32) (key : UInt32) : Prop :=
  if key = -1 then Within (lims v) (current v) else f.PastElsewhere lims current (fun u => u ≠ v) key

def LidInOrder (v : Nat) (virtLid : UInt16) : Prop :=
  if virtLid = -1 then (f.node v).currentLid.toNat + f.nodeNum < 2 ^ 16
  else ∀ u < f.nodeNum, virtLid.toNat % f.nodeNum = (u + 1) % f.nodeNum → virtLid < (f.node u).currentLid

/-- Ids are given out while there are some left in the range, and a process gives an id of another node's range, or a
lid, only when the counter of its node has passed it. -/
def InOrder : FleetEvent → Prop
  | .store v (.lid virtLid _) => f.LidInOrder v virtLid
  | .store v (.rkey virtRkey pdId _) =>
    f.KeyInOrder v (fun u => (f.node u).rkeyLims) (fun u => (f.node u).currentRkey) virtRkey ∧
      f.PdInOrder v (virtRkey = -1) pdId
  | .store v (.qp virtQpNum _ pdId) =>
    f.KeyInOrder v (fun u => (f.node u).qpNumLims) (fun u => (f.node u).currentQpNum) virtQpNum ∧
      f.PdInOrder v (virtQpNum = -1) pdId
  | .getPdId v => Within (f.node v).pdIdLims (f.node v).currentPdId
  | .getRkey v => Within (f.node v).rkeyLims (f.node v).currentRkey
  | .propagate _ _ => True

section Decidable

instance (lims : UInt32 × UInt32) (current : UInt32) : Decidable (Within lims current) :=
  instDecidableAnd

instance (lims : Nat → UInt32 × UInt32) (current : Nat → UInt32) (who : Nat → Prop) [DecidablePred who] (key : UInt32) :
    Decidable (f.PastElsewhere lims current who key) :=
  inferInstanceAs (Decidable (∀ u < f.nodeNum, _))

instance (v : Nat) (isNew : Prop) [Decidable isNew] (pdId : UInt32) : Decidable (f.PdInOrder v isNew pdId) :=
  instDecidableAnd

instance (v : Nat) (lims : Nat → UInt32 × UInt32) (current : Nat → UInt32) (key : UInt32) :
    Decidable (f.KeyInOrder v lims current key) :=
  inferInstanceAs (Decidable
    (if key = -1 then Within (lims v) (current v) else f.PastElsewhere lims current (fun u => u ≠ v) key))

instance (v : Nat) (virtLid : UInt16) : Decidable (f.LidInOrder v virtLid) :=
  inferInstanceAs (Decidable (if virtLid = -1 then (f.node v).currentLid.toNat + f.nodeNum < 2 ^ 16
    else ∀ u < f.nodeNum, virtLid.toNat % f.nodeNum = (u + 1) % f.nodeNum → virtLid < (f.node u).currentLid))

instance : ∀ e, Decidable (f.InOrder e)
  | .store v (.lid virtLid _) => inferInstanceAs (Decidable (f.LidInOrder v virtLid))
  | .store _ (.rkey _ _ _) | .store _ (.qp _ _ _) =>
    inferInstanceAs (Decidable (KeyInOrder _ _ _ _ _ ∧ PdInOrder _ _ _ _))
  | .getPdId _ | .getRkey _ => inferInstanceAs (Decidable (Within _ _))
  | .propagate _ _ => instDecidableTrue

end Decidable

end IdFleet

namespace IdPair

def lid? : IdPair → Option UInt16
  | .lid virtLid _ => some virtLid
  | _ => none

def rkey? : IdPair → Option UInt32
  | .rkey virtRkey _ _ => some virtRkey
  | _ => none

def qpNum? : IdPair → Option UInt32
  | .qp virtQpNum _ _ => some virtQpNum
  | _ => none

def pdId? : IdPair → Option UInt32
  | .rkey _ pdId _ => some pdId
  | .qp _ _ pdId => some pdId
  | .lid _ _ => none

def Keyed : IdPair → Prop
  | .lid virtLid _ => virtLid ≠ -1
  | .rkey virtRkey pdId _ => virtRkey ≠ -1 ∧ pdId ≠ -1
  | .qp virtQpNum _ pdId => virtQpNum ≠ -1 ∧ pdId ≠ -1

end IdPair

structure IdStores.StoredIn (s : IdStores) (sent : List IdPair) : Prop where
  lids : ∀ p ∈ pairs lidHashKeys s.lidMap, IdPair.lid p.1 p.2 ∈ sent
  rkeys : ∀ p ∈ pairs rkeyHashKeys s.rkeyMap, IdPair.rkey p.1.1 p.1.2 p.2 ∈ sent
  qps : ∀ p ∈ pairs qpHashKeys s.qpMap, IdPair.qp p.1 p.2.1 p.2.2 ∈ sent

theorem mem_pairs_addPair {κ ν : Type} [DecidableEq κ] {hash : κ → Nat} {k : κ} {v : ν} {m : Nat → List (κ × ν)}
    {n : Nat} {p : κ × ν} (h : p ∈ pairs n (addPair hash k v m)) : p = (k, v) ∨ p ∈ pairs n m := by
  obtain ⟨i, hi, hmem⟩ := mem_flatMap.mp h
  unfold addPair at hmem
  by_cases hik : i = hash k
  · subst hik
    rw [update_self] at hmem
    rcases mem_insertPair hmem with rfl | hmem
    · exact .inl rfl
    · exact .inr (mem_flatMap.mpr ⟨_, hi, hmem⟩)
  · rw [update_of_ne hik] at hmem
    exact .inr (mem_flatMap.mpr ⟨i, hi, hmem⟩)

namespace IdStores.StoredIn

variable {s : IdStores} {sent sent' : List IdPair}

theorem mono (h : s.StoredIn sent) (hsub : sent ⊆ sent') : s.StoredIn sent' :=
  ⟨fun p hp => hsub (h.lids p hp), fun p hp => hsub (h.rkeys p hp), fun p hp => hsub (h.qps p hp)⟩

theorem storeLid {virtLid lid : UInt16} (h : s.StoredIn sent) (hmem : .lid virtLid lid ∈ sent) :
    (s.storeLid virtLid lid).StoredIn sent where
  lids := by
    intro p hp
    rcases mem_pairs_addPair hp with rfl | hp
    · exact hmem
    · exact h.lids p hp
  rkeys := h.rkeys
  qps := h.qps

theorem storeRkey {virtRkey pdId realRkey : UInt32} (h : s.StoredIn sent)
    (hmem : .rkey virtRkey pdId realRkey ∈ sent) : (s.storeRkey virtRkey pdId realRkey).StoredIn sent where
  lids := h.lids
  rkeys := by
    intro p hp
    rcases mem_pairs_addPair hp with rfl | hp
    · exact hmem
    · exact h.rkeys p hp
  qps := h.qps

theorem storeQp {virtQpNum realQpNum pdId : UInt32} (h : s.StoredIn sent)
    (hmem : .qp virtQpNum realQpNum pdId ∈ sent) : (s.storeQp virtQpNum realQpNum pdId).StoredIn sent where
  lids := h.lids
  rkeys := h.rkeys
  qps := by
    intro p hp
    rcases mem_pairs_addPair hp with rfl | hp
    · exact hmem
    · exact h.qps p hp

end IdStores.StoredIn

namespace IdFleet

variable (f : IdFleet)

def usedLids : List UInt16 := f.lids ++ f.sent.filterMap IdPair.lid?

def usedRkeys : List UInt32 := f.rkeys ++ f.sent.filterMap IdPair.rkey?

def usedQpNums : List UInt32 := f.qpNums ++ f.sent.filterMap IdPair.qpNum?

def usedPdIds : List UInt32 := f.pdIds ++ f.sent.filterMap IdPair.pdId?

structure Inv : Prop where
  nodes : ∀ u < f.nodeNum, (f.node u).nodeNum = f.nodeNum ∧ (f.node u).nodeId = u
  rkeys : Counters 32 f.nodeNum (fun u => (f.node u).currentRkey) f.usedRkeys
  qpNums : Counters 24 f.nodeNum (fun u => (f.node u).currentQpNum) f.usedQpNums
  pdIds : Counters 32 f.nodeNum (fun u => (f.node u).currentPdId) f.usedPdIds
  lids : f.nodeNum < 2 ^ 16 → LidCounters f.nodeNum (fun u => (f.node u).currentLid) f.usedLids
  stored : ∀ u < f.nodeNum, (f.node u).StoredIn f.sent
  keyed : ∀ p ∈ f.sent, p.Keyed

variable {f} {v : Nat}

variable {n : Nat}

theorem fits_word (hn : n ≤ 2 ^ 24) : Fits 32 n := ⟨by omega, by decide, by decide⟩

theorem fits_qpNum (hn : n ≤ 2 ^ 24) : Fits 24 n := ⟨hn, by decide, by decide⟩

theorem Inv.init (hn : n ≤ 2 ^ 24) : (IdFleet.init n).Inv where
  nodes := fun _ _ => ⟨rfl, rfl⟩
  rkeys := .init (fits_word hn)
  qpNums := .init (fits_qpNum hn)
  pdIds := .init (fits_word hn)
  lids := .init
  stored := by
    intro u _
    refine ⟨?_, ?_, ?_⟩ <;>
    · intro p hp
      obtain ⟨i, -, hmem⟩ := mem_flatMap.mp hp
      contradiction
  keyed := by
    intro p hp
    contradiction

section Used

variable {α : Type} {get : IdPair → Option α} {given given' : List α} {sent : List IdPair} {q : IdPair} {k : α}

theorem used_of_none (hq : get q = none) :
    ∀ x ∈ given ++ (sent ++ [q]).filterMap get, x ∈ given ++ sent.filterMap get := by
  intro x hx
  rwa [filterMap_append, filterMap_cons, hq, filterMap_nil, append_nil] at hx

theorem used_of_some (hgiven : ∀ x ∈ given', x ∈ given ∨ x = k) (hq : get q = some k) :
    ∀ x ∈ given' ++ (sent ++ [q]).filterMap get, x ∈ given ++ sent.filterMap get ∨ x = k := by
  intro x hx
  rw [filterMap_append, filterMap_cons, hq] at hx
  rcases mem_append.mp hx with hx | hx
  · exact (hgiven x hx).imp_left fun hx => mem_append_left _ hx
  · rcases mem_append.mp hx with hx | hx
    · exact .inl (mem_append_right _ hx)
    · exact .inr (mem_singleton.mp hx)

theorem given_append : ∀ x ∈ given ++ [k], x ∈ given ∨ x = k := by
  intro x hx
  exact (mem_append.mp hx).imp_right mem_singleton.mp

theorem used_given : ∀ x ∈ (given ++ [k]) ++ sent.filterMap get, x ∈ given ++ sent.filterMap get ∨ x = k := by
  intro x hx
  rcases mem_append.mp hx with hx | hx
  · exact (given_append x hx).imp_left fun hx => mem_append_left _ hx
  · exact .inl (mem_append_right _ hx)

theorem used_sent (hq : q ∈ sent) (hk : get q = some k) : k ∈ given ++ sent.filterMap get :=
  mem_append_right _ (mem_filterMap.mpr ⟨q, hq, hk⟩)

end Used

theorem counter_update {α : Type} (g : IdStores → α) (node : Nat → IdStores) (s : IdStores) :
    (fun u => g (update node v s u)) = update (fun u => g (node u)) v (g s) := by
  funext u
  by_cases huv : u = v
  · subst huv
    rw [update_self, update_self]
  · rw [update_of_ne huv, update_of_ne huv]

section Keys

variable {width : Nat} {lims : Nat → UInt32 × UInt32} {cur : Nat → UInt32} {used used' : List UInt32} {key : UInt32}
  (h : Counters width f.nodeNum cur used) (hlims : ∀ u < f.nodeNum, lims u = idLims width f.nodeNum u)
  (hv : v < f.nodeNum) (hfit : Fits width f.nodeNum)

variable {who : Nat → Prop}

include hlims in
theorem PastElsewhere.lt (hpast : f.PastElsewhere lims cur who key) {u : Nat} (hu : u < f.nodeNum)
    (hwho : who u) (hlow : (idLims width f.nodeNum u).1 ≤ key) (hhigh : key ≤ (idLims width f.nodeNum u).2) :
    key < cur u := by
  rw [← hlims u hu] at hlow hhigh
  exact hpast u hu hwho hlow hhigh

include h hlims hv hfit

theorem counters_bump (hpast : f.PastElsewhere lims cur who key) (hwho : ∀ u, u ≠ v → who u)
    (hreal : key ≠ -1) (hused : ∀ x ∈ used', x ∈ used ∨ x = key) :
    Counters width f.nodeNum (update cur v (bump (lims v) key (cur v))) used' := by
  rw [hlims v hv]
  exact h.store hv hfit hreal (fun u hu huv => hpast.lt hlims hu (hwho u huv)) hused

theorem counters_alloc (hin : Within (lims v) (cur v)) (hused : ∀ x ∈ used', x ∈ used ∨ x = cur v) :
    Counters width f.nodeNum (update cur v (cur v + 1)) used' := by
  rw [hlims v hv] at hin
  exact h.alloc hv hfit hin hused

theorem newId {given : List UInt32} {stored : UInt32 → Prop} (hin : Within (lims v) (cur v)) (hgiven : given ⊆ used)
    (hstored : cur v ∉ used → ¬ stored (cur v)) : NewId (lims v) given stored (cur v) := by
  rw [hlims v hv] at hin ⊢
  obtain ⟨hlow, hhigh, hunused, hreal⟩ := h.fresh hv hfit hin
  exact ⟨hlow, hhigh, fun hmem => hunused (hgiven hmem), hstored hunused, hreal⟩

end Keys

namespace Inv

variable (h : f.Inv)

include h

variable {g : IdFleet} {k : UInt32} {e : FleetEvent}

theorem replace {s : IdStores} (hnum : g.nodeNum = f.nodeNum) (hnode : g.node = update f.node v s)
    (hconfig : s.nodeNum = (f.node v).nodeNum ∧ s.nodeId = (f.node v).nodeId)
    (hrkeys : Counters 32 f.nodeNum (update (fun u => (f.node u).currentRkey) v s.currentRkey) g.usedRkeys)
    (hqps : Counters 24 f.nodeNum (update (fun u => (f.node u).currentQpNum) v s.currentQpNum) g.usedQpNums)
    (hpds : Counters 32 f.nodeNum (update (fun u => (f.node u).currentPdId) v s.currentPdId) g.usedPdIds)
    (hlids : f.nodeNum < 2 ^ 16 →
      LidCounters f.nodeNum (update (fun u => (f.node u).currentLid) v s.currentLid) g.usedLids)
    (hstored : s.StoredIn g.sent) (hsub : f.sent ⊆ g.sent) (hkeyed : ∀ p ∈ g.sent, p.Keyed) : g.Inv where
  nodes := by
    intro u hu
    rw [hnum] at hu ⊢
    rw [hnode]
    by_cases huv : u = v
    · subst huv
      rw [update_self, hconfig.1, hconfig.2]
      exact h.nodes u hu
    · rw [update_of_ne huv]
      exact h.nodes u hu
  rkeys := by rwa [hnum, hnode, counter_update currentRkey]
  qpNums := by rwa [hnum, hnode, counter_update currentQpNum]
  pdIds := by rwa [hnum, hnode, counter_update currentPdId]
  lids := by rwa [hnum, hnode, counter_update currentLid]
  stored := by
    intro u hu
    rw [hnum] at hu
    rw [hnode]
    by_cases huv : u = v
    · subst huv
      rwa [update_self]
    · rw [update_of_ne huv]
      exact (h.stored u hu).mono hsub
  keyed := hkeyed

theorem rkeyLims_eq (u : Nat) (hu : u < f.nodeNum) : (f.node u).rkeyLims = idLims 32 f.nodeNum u := by
  rw [rkeyLims, (h.nodes u hu).1, (h.nodes u hu).2]

theorem pdIdLims_eq (u : Nat) (hu : u < f.nodeNum) : (f.node u).pdIdLims = idLims 32 f.nodeNum u := h.rkeyLims_eq u hu

theorem qpNumLims_eq (u : Nat) (hu : u < f.nodeNum) : (f.node u).qpNumLims = idLims 24 f.nodeNum u := by
  rw [qpNumLims, (h.nodes u hu).1, (h.nodes u hu).2]

theorem keyed_append {q : IdPair} (hq : q.Keyed) : ∀ p ∈ f.sent ++ [q], p.Keyed := by
  intro p hp
  rcases mem_append.mp hp with hp | hp
  · exact h.keyed p hp
  · rw [mem_singleton.mp hp]
    exact hq

section

variable (hv : v < f.nodeNum)

include hv

theorem getPdId (hn : f.nodeNum ≤ 2 ^ 24) (hin : Within (f.node v).pdIdLims (f.node v).currentPdId) :
    ({ f.setNode v (f.node v).getPdId.2 with pdIds := f.pdIds ++ [(f.node v).getPdId.1] } : IdFleet).Inv :=
  h.replace rfl rfl ⟨rfl, rfl⟩ (h.rkeys.keep rfl fun _ hx => hx) (h.qpNums.keep rfl fun _ hx => hx)
    (counters_alloc h.pdIds h.pdIdLims_eq hv (fits_word hn) hin used_given)
    (fun hlt => (h.lids hlt).keep rfl fun _ hx => hx)
    { h.stored v hv with } (fun _ hp => hp) h.keyed

theorem getRkey (hn : f.nodeNum ≤ 2 ^ 24) (hin : Within (f.node v).rkeyLims (f.node v).currentRkey) :
    ({ f.setNode v (f.node v).getRkey.2 with rkeys := f.rkeys ++ [(f.node v).getRkey.1] } : IdFleet).Inv :=
  h.replace rfl rfl ⟨rfl, rfl⟩ (counters_alloc h.rkeys h.rkeyLims_eq hv (fits_word hn) hin used_given)
    (h.qpNums.keep rfl fun _ hx => hx) (h.pdIds.keep rfl fun _ hx => hx)
    (fun hlt => (h.lids hlt).keep rfl fun _ hx => hx)
    { h.stored v hv with } (fun _ hp => hp) h.keyed

theorem usePdId {g : Prop} {pdId : UInt32} {used : List UInt32} (hn : f.nodeNum ≤ 2 ^ 24)
    (hpd : f.PdInOrder v g pdId) (hused : ∀ x ∈ used, x ∈ f.usedPdIds ∨ x = pdId) :
    (g → Counters 32 f.nodeNum (update (fun u => (f.node u).currentPdId) v (f.node v).currentPdId) used) ∧
    Counters 32 f.nodeNum (update (fun u => (f.node u).currentPdId) v
      (bump (f.node v).pdIdLims pdId (f.node v).currentPdId)) used := by
  obtain ⟨hreal, hpast⟩ := hpd
  refine ⟨?_, counters_bump h.pdIds h.pdIdLims_eq hv (fits_word hn) hpast (fun _ => .inl) hreal hused⟩
  intro hg
  exact h.pdIds.use hv rfl (fits_word hn) (fun u hu => hpast.lt h.pdIdLims_eq hu (.inr hg)) hused

theorem storeRkey {virtRkey pdId realRkey : UInt32} (hn : f.nodeNum ≤ 2 ^ 24)
    (horder : f.InOrder (.store v (.rkey virtRkey pdId realRkey))) : (f.store v (.rkey virtRkey pdId realRkey)).Inv := by
  obtain ⟨hkey, hpd⟩ := horder
  have hpds {k : UInt32} := h.usePdId hv hn hpd (used_of_some (q := .rkey k pdId realRkey) (fun _ => .inl) rfl)
  have hstored {k : UInt32} := (h.stored v hv).mono (subset_append_left f.sent [.rkey k pdId realRkey])
  by_cases hnew : virtRkey = -1
  · rw [KeyInOrder, if_pos hnew] at hkey
    simp only [IdFleet.store, rkeyAddPair, if_pos hnew]
    exact h.replace rfl rfl ⟨rfl, rfl⟩
      (counters_alloc h.rkeys h.rkeyLims_eq hv (fits_word hn) hkey (used_of_some given_append rfl))
      (h.qpNums.keep rfl (used_of_none rfl)) (hpds.1 hnew) (fun hlt => (h.lids hlt).keep rfl (used_of_none rfl))
      (IdStores.StoredIn.storeRkey ⟨hstored.lids, hstored.rkeys, hstored.qps⟩ (by simp))
      (subset_append_left _ _) (h.keyed_append ⟨hkey.2, hpd.1⟩)
  · rw [KeyInOrder, if_neg hnew] at hkey
    simp only [IdFleet.store, rkeyAddPair, if_neg hnew]
    exact h.replace rfl rfl ⟨rfl, rfl⟩
      (counters_bump h.rkeys h.rkeyLims_eq hv (fits_word hn) hkey (fun _ huv => huv) hnew
        (used_of_some (fun _ => .inl) rfl))
      (h.qpNums.keep rfl (used_of_none rfl)) hpds.2 (fun hlt => (h.lids hlt).keep rfl (used_of_none rfl))
      (IdStores.StoredIn.storeRkey ⟨hstored.lids, hstored.rkeys, hstored.qps⟩ (by simp))
      (subset_append_left _ _) (h.keyed_append ⟨hnew, hpd.1⟩)

theorem storeQp {virtQpNum realQpNum pdId : UInt32} (hn : f.nodeNum ≤ 2 ^ 24)
    (horder : f.InOrder (.store v (.qp virtQpNum realQpNum pdId))) :
    (f.store v (.qp virtQpNum realQpNum pdId)).Inv := by
  obtain ⟨hkey, hpd⟩ := horder
  have hpds {k : UInt32} := h.usePdId hv hn hpd (used_of_some (q := .qp k realQpNum pdId) (fun _ => .inl) rfl)
  have hstored {k : UInt32} := (h.stored v hv).mono (subset_append_left f.sent [.qp k realQpNum pdId])
  by_cases hnew : virtQpNum = -1
  · rw [KeyInOrder, if_pos hnew] at hkey
    simp only [IdFleet.store, qpAddPair, if_pos hnew]
    exact h.replace rfl rfl ⟨rfl, rfl⟩ (h.rkeys.keep rfl (used_of_none rfl))
      (counters_alloc h.qpNums h.qpNumLims_eq hv (fits_qpNum hn) hkey (used_of_some given_append rfl))
      (hpds.1 hnew) (fun hlt => (h.lids hlt).keep rfl (used_of_none rfl))
      (IdStores.StoredIn.storeQp ⟨hstored.lids, hstored.rkeys, hstored.qps⟩ (by simp))
      (subset_append_left _ _) (h.keyed_append ⟨hkey.2, hpd.1⟩)
  · rw [KeyInOrder, if_neg hnew] at hkey
    simp only [IdFleet.store, qpAddPair, if_neg hnew]
    exact h.replace rfl rfl ⟨rfl, rfl⟩ (h.rkeys.keep rfl (used_of_none rfl))
      (counters_bump h.qpNums h.qpNumLims_eq hv (fits_qpNum hn) hkey (fun _ huv => huv) hnew
        (used_of_some (fun _ => .inl) rfl))
      hpds.2 (fun hlt => (h.lids hlt).keep rfl (used_of_none rfl))
      (IdStores.StoredIn.storeQp ⟨hstored.lids, hstored.rkeys, hstored.qps⟩ (by simp))
      (subset_append_left _ _) (h.keyed_append ⟨hnew, hpd.1⟩)

theorem findLid_cases (lid : UInt16) : (∃ k, (f.node v).findLid lid = some k ∧ k ≠ -1 ∧
        ∃ p ∈ pairs lidHashKeys (f.node v).lidMap, p.2 = lid ∧ p.1 = k) ∨
      (f.node v).findLid lid = none ∧ ∀ p ∈ pairs lidHashKeys (f.node v).lidMap, p.2 ≠ lid := by
  unfold findLid
  cases hfind : ((range lidHashKeys).flatMap (f.node v).lidMap).find? (fun p => p.2 = lid) with
  | none =>
    refine .inr ⟨rfl, ?_⟩
    intro p hp
    exact of_decide_eq_false (by simpa using find?_eq_none.mp hfind p hp)
  | some p =>
    have hmem := mem_of_find?_eq_some hfind
    have hlid : p.2 = lid := by simpa using find?_some hfind
    exact .inl ⟨p.1, rfl, h.keyed _ ((h.stored v hv).lids p hmem), p, hmem, hlid, rfl⟩

theorem storeLid {virtLid lid : UInt16}
    (horder : f.InOrder (.store v (.lid virtLid lid))) : (f.store v (.lid virtLid lid)).Inv := by
  have hstored {k : UInt16} := (h.stored v hv).mono (subset_append_left f.sent [.lid k lid])
  dsimp only [InOrder, LidInOrder] at horder
  by_cases hnew : virtLid = -1
  · rw [if_pos hnew] at horder
    rcases h.findLid_cases hv lid with ⟨k, hfind, hk, p, hp, hlid, hpk⟩ | ⟨hfind, -⟩
    · -- the lid has a virtual one
      have hmem : .lid k lid ∈ f.sent := by
        rw [← hlid, ← hpk]
        exact (h.stored v hv).lids p hp
      have hused : k ∈ f.usedLids := used_sent hmem rfl
      simp only [IdFleet.store, lidAddPair, if_pos hnew, hfind, getD_some, if_neg hk]
      refine h.replace rfl rfl ⟨rfl, rfl⟩ (h.rkeys.keep rfl (used_of_none rfl)) (h.qpNums.keep rfl (used_of_none rfl))
        (h.pdIds.keep rfl (used_of_none rfl)) ?_ hstored (subset_append_left _ _) (h.keyed_append hk)
      intro hlt
      refine (h.lids hlt).keep rfl ?_
      intro x hx
      rcases used_of_some given_append (show IdPair.lid? (.lid k lid) = some k from rfl) x hx with hx | rfl
      · exact hx
      · exact hused
    · simp only [IdFleet.store, lidAddPair, if_pos hnew, hfind, getD_none, if_true, (h.nodes v hv).1]
      have hreal : (f.node v).currentLid ≠ -1 := by
        intro heq
        rw [heq] at horder
        change 65535 + f.nodeNum < 65536 at horder
        omega
      exact h.replace rfl rfl ⟨(h.nodes v hv).1.symm, rfl⟩ (h.rkeys.keep rfl (used_of_none rfl))
        (h.qpNums.keep rfl (used_of_none rfl)) (h.pdIds.keep rfl (used_of_none rfl))
        (fun hlt => (h.lids hlt).alloc hv horder (used_of_some given_append rfl))
        (IdStores.StoredIn.storeLid ⟨hstored.lids, hstored.rkeys, hstored.qps⟩ (by simp))
        (subset_append_left _ _) (h.keyed_append hreal)
  · rw [if_neg hnew] at horder
    simp only [IdFleet.store, lidAddPair, if_neg hnew]
    exact h.replace rfl rfl ⟨rfl, rfl⟩ (h.rkeys.keep rfl (used_of_none rfl)) (h.qpNums.keep rfl (used_of_none rfl))
      (h.pdIds.keep rfl (used_of_none rfl))
      (fun hlt => (h.lids hlt).use rfl horder (used_of_some (fun _ => .inl) rfl))
      (IdStores.StoredIn.storeLid hstored (by simp)) (subset_append_left _ _) (h.keyed_append hnew)

theorem propagate {p : IdPair} (hn : f.nodeNum ≤ 2 ^ 24) (hp : p ∈ f.sent) : (f.setNode v ((f.node v).add p)).Inv := by
  have hstored := h.stored v hv
  have hkeyed := h.keyed p hp
  cases p with
  | lid virtLid lid =>
    simp only [add, lidAddPair, if_neg hkeyed]
    exact h.replace rfl rfl ⟨rfl, rfl⟩ (h.rkeys.keep rfl fun _ hx => hx) (h.qpNums.keep rfl fun _ hx => hx)
      (h.pdIds.keep rfl fun _ hx => hx) (fun hlt => (h.lids hlt).keep rfl fun _ hx => hx)
      (hstored.storeLid hp) (fun _ hq => hq) h.keyed
  | rkey virtRkey pdId realRkey =>
    simp only [add, rkeyAddPair, if_neg hkeyed.1, h.rkeyLims_eq v hv, h.pdIdLims_eq v hv]
    exact h.replace rfl rfl ⟨rfl, rfl⟩ (h.rkeys.hear hv (fits_word hn) hkeyed.1 (fun _ hx => hx) (used_sent hp rfl))
      (h.qpNums.keep rfl fun _ hx => hx)
      (h.pdIds.hear hv (fits_word hn) hkeyed.2 (fun _ hx => hx) (used_sent hp rfl))
      (fun hlt => (h.lids hlt).keep rfl fun _ hx => hx)
      (IdStores.StoredIn.storeRkey { hstored with } hp) (fun _ hq => hq) h.keyed
  | qp virtQpNum realQpNum pdId =>
    simp only [add, qpAddPair, if_neg hkeyed.1, h.qpNumLims_eq v hv, h.pdIdLims_eq v hv]
    exact h.replace rfl rfl ⟨rfl, rfl⟩ (h.rkeys.keep rfl fun _ hx => hx)
      (h.qpNums.hear hv (fits_qpNum hn) hkeyed.1 (fun _ hx => hx) (used_sent hp rfl))
      (h.pdIds.hear hv (fits_word hn) hkeyed.2 (fun _ hx => hx) (used_sent hp rfl))
      (fun hlt => (h.lids hlt).keep rfl fun _ hx => hx)
      (IdStores.StoredIn.storeQp { hstored with } hp) (fun _ hq => hq) h.keyed

end

theorem not_storesLid {k : UInt16} (hk : k ∉ f.usedLids) : ¬ f.StoresLid k := by
  intro hstores
  obtain ⟨w, hw, p, hp, rfl⟩ := hstores
  exact hk (used_sent ((h.stored w hw).lids p hp) rfl)

theorem not_storesRkey (hk : k ∉ f.usedRkeys) : ¬ f.StoresRkey k := by
  intro hstores
  obtain ⟨w, hw, p, hp, rfl⟩ := hstores
  exact hk (used_sent ((h.stored w hw).rkeys p hp) rfl)

theorem not_storesQp (hk : k ∉ f.usedQpNums) : ¬ f.StoresQp k := by
  intro hstores
  obtain ⟨w, hw, p, hp, rfl⟩ := hstores
  exact hk (used_sent ((h.stored w hw).qps p hp) rfl)

theorem not_storesPd (hk : k ∉ f.usedPdIds) : ¬ f.StoresPd k := by
  intro hstores
  obtain ⟨w, hw, ⟨p, hp, rfl⟩ | ⟨p, hp, rfl⟩⟩ := hstores
  · exact hk (used_sent ((h.stored w hw).rkeys p hp) rfl)
  · exact hk (used_sent ((h.stored w hw).qps p hp) rfl)

theorem newRkey (hv : v < f.nodeNum) (hn : f.nodeNum ≤ 2 ^ 24)
    (hin : Within (f.node v).rkeyLims (f.node v).currentRkey) :
    NewId (f.node v).rkeyLims f.rkeys f.StoresRkey (f.node v).currentRkey :=
  newId h.rkeys h.rkeyLims_eq hv (fits_word hn) hin (subset_append_left _ _) h.not_storesRkey

theorem newLid (hv : v < f.nodeNum) (hroom : (f.node v).currentLid.toNat + f.nodeNum < 2 ^ 16) :
    (f.node v).currentLid ∉ f.lids ∧ ¬ f.StoresLid (f.node v).currentLid := by
  have hunused := (h.lids (by omega)).fresh hv
  exact ⟨fun hmem => hunused (mem_append_left _ hmem), h.not_storesLid hunused⟩

theorem fresh (hn : f.nodeNum ≤ 2 ^ 24) (horder : f.InOrder e) (hstep : f.step e = some g) : f.Fresh e := by
  cases e with
  | store v p =>
    obtain ⟨hv, -⟩ := ite_none_right_eq_some.mp hstep
    cases p with
    | lid virtLid lid =>
      intro hnew
      dsimp only [InOrder, LidInOrder] at horder
      rw [if_pos hnew] at horder
      simp only [lidAddPair, if_pos hnew]
      rcases h.findLid_cases hv lid with ⟨k, hfind, hk, hpair⟩ | ⟨hfind, hnone⟩
      · rw [hfind, getD_some, if_neg hk]
        exact .inl hpair
      · rw [hfind, getD_none, if_pos rfl]
        exact .inr ⟨hnone, h.newLid hv horder⟩
    | rkey virtRkey pdId realRkey =>
      intro hnew
      have hin := horder.1
      rw [KeyInOrder, if_pos hnew] at hin
      simp only [rkeyAddPair, if_pos hnew]
      exact h.newRkey hv hn hin
    | qp virtQpNum realQpNum pdId =>
      intro hnew
      have hin := horder.1
      rw [KeyInOrder, if_pos hnew] at hin
      simp only [qpAddPair, if_pos hnew]
      exact newId h.qpNums h.qpNumLims_eq hv (fits_qpNum hn) hin (subset_append_left _ _) h.not_storesQp
  | propagate v i => trivial
  | getPdId v =>
    obtain ⟨hv, -⟩ := ite_none_right_eq_some.mp hstep
    exact newId h.pdIds h.pdIdLims_eq hv (fits_word hn) horder (subset_append_left _ _) h.not_storesPd
  | getRkey v =>
    obtain ⟨hv, -⟩ := ite_none_right_eq_some.mp hstep
    exact h.newRkey hv hn horder

theorem step (hn : f.nodeNum ≤ 2 ^ 24) (horder : f.InOrder e)
    (hstep : f.step e = some g) : g.Inv ∧ g.nodeNum = f.nodeNum := by
  cases e with
  | store v p =>
    obtain ⟨hv, heq⟩ := ite_none_right_eq_some.mp hstep
    obtain rfl := some_inj.mp heq
    cases p with
    | lid virtLid lid => exact ⟨h.storeLid hv horder, rfl⟩
    | rkey virtRkey pdId realRkey => exact ⟨h.storeRkey hv hn horder, rfl⟩
    | qp virtQpNum realQpNum pdId => exact ⟨h.storeQp hv hn horder, rfl⟩
  | propagate v i =>
    obtain ⟨p, hp, hstep⟩ := bind_eq_some_iff.mp hstep
    obtain ⟨hv, heq⟩ := ite_none_right_eq_some.mp hstep
    obtain rfl := some_inj.mp heq
    exact ⟨h.propagate hv hn (mem_of_getElem? hp), rfl⟩
  | getPdId v =>
    obtain ⟨hv, heq⟩ := ite_none_right_eq_some.mp hstep
    obtain rfl := some_inj.mp heq
    exact ⟨h.getPdId hv hn horder, rfl⟩
  | getRkey v =>
    obtain ⟨hv, heq⟩ := ite_none_right_eq_some.mp hstep
    obtain rfl := some_inj.mp heq
    exact ⟨h.getRkey hv hn horder, rfl⟩

end Inv

/-- Ids that are given out in order are new, in the node's range and not -1. -/
theorem new_ids_fresh {n : Nat} {es : List FleetEvent} {e : FleetEvent} {f g : IdFleet} (hn : n ≤ 2 ^ 24)
    (horder : Guarded step InOrder (init n) (es ++ [e])) (hrun : runEvents step (init n) es = some f)
    (hstep : f.step e = some g) : f.Fresh e := by
  obtain ⟨hbefore, hlast⟩ := guarded_snoc hrun |>.mp horder
  have hinv : f.Inv ∧ f.nodeNum = n := by
    refine hbefore.invariant (P := fun u => u.Inv ∧ u.nodeNum = n) hrun ⟨.init hn, rfl⟩ fun hs he hstep => ?_
    obtain ⟨hinv, hnum⟩ := hs.1.step (by omega) he hstep
    exact ⟨hinv, hnum.trans hs.2⟩
  exact hinv.1.fresh (by omega) hlast hstep

/-- Ids are given out on two nodes, and each hears of the ids of the other. -/
def givenOut : List FleetEvent :=
  [.getPdId 0, .store 0 (.rkey (-1) 0 5), .store 0 (.qp (-1) 9 0), .propagate 1 0, .propagate 1 1,
    .store 1 (.lid (-1) 3), .propagate 0 2, .store 0 (.lid (-1) 4)]

theorem givenOut_fresh : ∃ f g, Guarded step InOrder (init 2) (givenOut ++ [.getRkey 1]) ∧
    runEvents step (init 2) givenOut = some f ∧ f.step (.getRkey 1) = some g ∧ f.Fresh (.getRkey 1) := by
  have horder : Guarded step InOrder (init 2) (givenOut ++ [.getRkey 1]) := by decide +kernel
  have hrun : (runEvents step (init 2) (givenOut ++ [.getRkey 1])).map nodeNum = some 2 := by decide +kernel
  obtain ⟨g, hg, -⟩ := map_eq_some_iff.mp hrun
  obtain ⟨f, hf, hstep⟩ := runEvents_snoc.mp hg
  exact ⟨f, g, horder, hf, hstep, new_ids_fresh (by decide) horder hf hstep⟩

/-- A restarted process stores its lid again. The counter of the node does not move, and the next lid that is given out
is the same one. -/
theorem lid_given_twice : ∃ f g, runEvents step (init 2) [.store 0 (.lid 1 7)] = some f ∧
    f.step (.store 0 (.lid (-1) 8)) = some g ∧ ¬ f.Fresh (.store 0 (.lid (-1) 8)) := by
  have hother : (pairs lidHashKeys (((init 2).store 0 (.lid 1 7)).node 0).lidMap).all (fun p => p.2 != 8) = true := by
    decide +kernel
  refine ⟨_, _, rfl, rfl, ?_⟩
  intro hfresh
  rcases hfresh rfl with ⟨p, hp, hlid, -⟩ | ⟨-, -, hstores⟩
  · exact bne_iff_ne.mp (all_eq_true.mp hother p hp) hlid
  · exact hstores ⟨0, by decide, (1, 7), by decide +kernel, by decide +kernel⟩

end IdFleet

end ParepMpi
