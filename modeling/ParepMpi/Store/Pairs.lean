import Mathlib.Algebra.Group.Nat.Defs
import ParepMpi.Lib.Chains
import ParepMpi.Lib.Run

/-!
# The stores of virtual ids

A coordinator has three tables from virtual to real InfiniBand ids: of lids, of rkeys and of queue pair numbers. They
are hash tables with chains. A pair is inserted or updated, and one with the key -1 asks for a new id; a look-up waits
until the pair is there, so that an absent pair is no answer here.
-/

namespace ParepMpi

variable {κ ν : Type} [DecidableEq κ]

/-- The walk along a chain behind its first pair. -/
def walkPairs (k : κ) (v : ν) : List (κ × ν) → List (κ × ν)
  | [] => [(k, v)]
  | p :: ps => if p.1 = k then (k, v) :: (if ps = [] then [(k, v)] else ps) else p :: walkPairs k v ps

def insertPair (k : κ) (v : ν) : List (κ × ν) → List (κ × ν)
  | [] => [(k, v)]
  | p :: ps => if p.1 = k then (k, v) :: ps else p :: walkPairs k v ps

def addPair (hash : κ → Nat) (k : κ) (v : ν) (map : Nat → List (κ × ν)) : Nat → List (κ × ν) :=
  Function.update map (hash k) (insertPair k v (map (hash k)))

/-- The value of the first pair with the key; the thread goes on waiting when there is none or the value is -1. -/
def getPair (hash : κ → Nat) (absent : ν → Bool) (map : Nat → List (κ × ν)) (k : κ) : Option ν :=
  ((map (hash k)).lookup k).filter fun v => !absent v

/-- What is sent by `handle_get_all_lids`, `handle_get_all_rkeys` and `handle_get_all_qps`: the number of pairs, from a
first pass, and the pairs. -/
def getAll (keys : Nat) (map : Nat → List (κ × ν)) : Nat × List (κ × ν) :=
  ((List.range keys).foldl (fun num hash => num + (map hash).length) 0,
    (List.range keys).foldl (fun maps hash => maps ++ map hash) [])

def lidHashKeys : Nat := 10

def rkeyHashKeys : Nat := 20

def qpHashKeys : Nat := 10

def lidHash (key : UInt16) : Nat := key.toNat % lidHashKeys

def rkeyHash (key : UInt32 × UInt32) : Nat := (key.1 + key.2).toNat % rkeyHashKeys

def qpHash (key : UInt32) : Nat := key.toNat % qpHashKeys

def bitLength : Nat → Nat → Nat
  | 0, _ => 0
  | fuel + 1, temp => if temp = 0 then 0 else bitLength fuel (temp / 2) + 1

def reserveBits (nodeNum : Nat) : Nat := if nodeNum = 1 then 1 else bitLength nodeNum (nodeNum - 1)

def idLims (width nodeNum nodeId : Nat) : UInt32 × UInt32 :=
  let low := UInt32.ofNat (nodeId <<< (width - reserveBits nodeNum))
  (low, low ||| UInt32.ofNat ((2 ^ width - 1) >>> reserveBits nodeNum))

/-- The stores of a coordinator. -/
structure IdStores where
  nodeNum : Nat
  nodeId : Nat
  lidMap : Nat → List (UInt16 × UInt16)
  rkeyMap : Nat → List ((UInt32 × UInt32) × UInt32)
  qpMap : Nat → List (UInt32 × (UInt32 × UInt32))
  currentLid : UInt16
  currentQpNum : UInt32
  currentPdId : UInt32
  currentRkey : UInt32
  lidLog : List (UInt16 × UInt16)
  rkeyLog : List ((UInt32 × UInt32) × UInt32)
  qpLog : List (UInt32 × (UInt32 × UInt32))

namespace IdStores

variable (s : IdStores)

def qpNumLims : UInt32 × UInt32 := idLims 24 s.nodeNum s.nodeId

def pdIdLims : UInt32 × UInt32 := idLims 32 s.nodeNum s.nodeId

def rkeyLims : UInt32 × UInt32 := idLims 32 s.nodeNum s.nodeId

def init (nodeNum nodeId : Nat) : IdStores where
  nodeNum := nodeNum
  nodeId := nodeId
  lidMap := fun _ => []
  rkeyMap := fun _ => []
  qpMap := fun _ => []
  currentLid := UInt16.ofNat nodeId + 1
  currentQpNum := (idLims 24 nodeNum nodeId).1
  currentPdId := (idLims 32 nodeNum nodeId).1
  currentRkey := (idLims 32 nodeNum nodeId).1
  lidLog := []
  rkeyLog := []
  qpLog := []

def bump (lims : UInt32 × UInt32) (key current : UInt32) : UInt32 :=
  if current ≤ key ∧ lims.1 ≤ key ∧ key ≤ lims.2 then key + 1 else current

def findLid (lid : UInt16) : Option UInt16 :=
  ((List.range lidHashKeys).flatMap s.lidMap).find? (fun p => p.2 = lid) |>.map Prod.fst

def storeLid (virtLid lid : UInt16) : IdStores :=
  { s with lidMap := addPair lidHash virtLid lid s.lidMap, lidLog := (virtLid, lid) :: s.lidLog }

def lidAddPair (virtLid lid : UInt16) : UInt16 × IdStores :=
  if virtLid = -1 then
    let found := (s.findLid lid).getD (-1)
    if found = -1 then
      (s.currentLid,
        { s with currentLid := s.currentLid + UInt16.ofNat s.nodeNum }.storeLid s.currentLid lid)
    else (found, s)
  else (virtLid, s.storeLid virtLid lid)

def storeRkey (virtRkey pdId realRkey : UInt32) : IdStores :=
  { s with
    rkeyMap := addPair rkeyHash (virtRkey, pdId) realRkey s.rkeyMap
    rkeyLog := ((virtRkey, pdId), realRkey) :: s.rkeyLog }

def rkeyAddPair (virtRkey pdId realRkey : UInt32) : UInt32 × IdStores :=
  if virtRkey = -1 then
    (s.currentRkey, { s with currentRkey := s.currentRkey + 1 }.storeRkey s.currentRkey pdId realRkey)
  else
    (virtRkey, { s with
      currentRkey := bump s.rkeyLims virtRkey s.currentRkey
      currentPdId := bump s.pdIdLims pdId s.currentPdId }.storeRkey virtRkey pdId realRkey)

def storeQp (virtQpNum realQpNum pdId : UInt32) : IdStores :=
  { s with
    qpMap := addPair qpHash virtQpNum (realQpNum, pdId) s.qpMap
    qpLog := (virtQpNum, (realQpNum, pdId)) :: s.qpLog }

def qpAddPair (virtQpNum realQpNum pdId : UInt32) : UInt32 × IdStores :=
  if virtQpNum = -1 then
    (s.currentQpNum, { s with currentQpNum := s.currentQpNum + 1 }.storeQp s.currentQpNum realQpNum pdId)
  else
    (virtQpNum, { s with
      currentQpNum := bump s.qpNumLims virtQpNum s.currentQpNum
      currentPdId := bump s.pdIdLims pdId s.currentPdId }.storeQp virtQpNum realQpNum pdId)

def getPdId : UInt32 × IdStores := (s.currentPdId, { s with currentPdId := s.currentPdId + 1 })

def getRkey : UInt32 × IdStores := (s.currentRkey, { s with currentRkey := s.currentRkey + 1 })

def lidGetPair (virtLid : UInt16) : Option UInt16 := getPair lidHash (fun lid => lid = -1) s.lidMap virtLid

def rkeyGetPair (virtRkey pdId : UInt32) : Option UInt32 :=
  getPair rkeyHash (fun rkey => rkey = -1) s.rkeyMap (virtRkey, pdId)

def qpGetPair (virtQpNum : UInt32) : Option (UInt32 × UInt32) :=
  getPair qpHash (fun qp => qp.1 = -1) s.qpMap virtQpNum

def lidCleanMaps : IdStores :=
  { s with lidMap := fun _ => [], lidLog := [], currentLid := UInt16.ofNat s.nodeId + 1 }

def rkeyCleanMaps : IdStores :=
  { s with rkeyMap := fun _ => [], rkeyLog := [], currentRkey := s.rkeyLims.1, currentPdId := s.pdIdLims.1 }

def qpCleanMaps : IdStores := { s with qpMap := fun _ => [], qpLog := [], currentQpNum := s.qpNumLims.1 }

end IdStores

/-- A pair to be stored, as a process or another coordinator sends it. -/
inductive IdPair where
  | lid (virtLid lid : UInt16)
  | rkey (virtRkey pdId realRkey : UInt32)
  | qp (virtQpNum realQpNum pdId : UInt32)
  deriving DecidableEq, Repr

namespace IdStores

def add (s : IdStores) : IdPair → IdStores
  | .lid virtLid lid => (s.lidAddPair virtLid lid).2
  | .rkey virtRkey pdId realRkey => (s.rkeyAddPair virtRkey pdId realRkey).2
  | .qp virtQpNum realQpNum pdId => (s.qpAddPair virtQpNum realQpNum pdId).2

end IdStores

inductive IdCall where
  | addPair (p : IdPair)
  /-- `lid_add_pair_multiple`, `rkey_add_pair_multiple` and `qp_add_pair_multiple`: one pair after the other. -/
  | addPairMultiple (ps : List IdPair)
  | getPdId
  | getRkey
  | lidCleanMaps
  | rkeyCleanMaps
  | qpCleanMaps
  deriving DecidableEq, Repr

namespace IdStores

def step (s : IdStores) : IdCall → Option IdStores
  | .addPair p => some (s.add p)
  | .addPairMultiple ps => some (ps.foldl add s)
  | .getPdId => some s.getPdId.2
  | .getRkey => some s.getRkey.2
  | .lidCleanMaps => some s.lidCleanMaps
  | .rkeyCleanMaps => some s.rkeyCleanMaps
  | .qpCleanMaps => some s.qpCleanMaps

end IdStores

end ParepMpi
