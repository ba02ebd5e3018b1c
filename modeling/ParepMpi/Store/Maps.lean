import ParepMpi.Store.Pairs

/-!
# The stores are finite maps

Storing a pair updates the map that a table stands for, whatever the chain looks like.
-/

namespace ParepMpi

open List Option Prod Chains

section Chain

variable {κ ν : Type} [DecidableEq κ] {k : κ} {v : ν} {c : List (κ × ν)}

def KeyIsLast (k : κ) (c : List (κ × ν)) : Prop := 1 < c.length ∧ c.getLast?.map fst = some k

instance : Decidable (KeyIsLast k c) := instDecidableAnd

variable {p : κ × ν} {k' : κ}

theorem lookup_cons_of_ne (h : k ≠ p.1) : (p :: c).lookup k = c.lookup k := by
  rw [lookup_cons, beq_false_of_ne h]

theorem lookup_walkPairs : (walkPairs k v c).lookup k = some v := by
  induction c with
  | nil => exact lookup_cons_self
  | cons p c ih =>
    unfold walkPairs
    split
    · exact lookup_cons_self
    · rename_i hne
      rw [lookup_cons_of_ne (Ne.symm hne), ih]

theorem lookup_walkPairs_of_ne (h : k' ≠ k) : (walkPairs k v c).lookup k' = c.lookup k' := by
  induction c with
  | nil => exact lookup_cons_of_ne h
  | cons p c ih =>
    unfold walkPairs
    split
    · rename_i hp
      rw [lookup_cons_of_ne h, lookup_cons_of_ne (hp ▸ h)]
      split
      · rename_i hnil
        rw [hnil]
        exact lookup_cons_of_ne h
      · rfl
    · rw [lookup_cons, lookup_cons, ih]

theorem lookup_insertPair : (insertPair k v c).lookup k = some v := by
  cases c with
  | nil => exact lookup_cons_self
  | cons p c =>
    rw [insertPair]
    split
    · exact lookup_cons_self
    · rename_i hne
      rw [lookup_cons_of_ne (Ne.symm hne), lookup_walkPairs]

theorem lookup_insertPair_of_ne (h : k' ≠ k) : (insertPair k v c).lookup k' = c.lookup k' := by
  cases c with
  | nil => exact lookup_cons_of_ne h
  | cons p c =>
    rw [insertPair]
    split
    · rename_i hp
      rw [lookup_cons_of_ne h, lookup_cons_of_ne (hp ▸ h)]
    · rw [lookup_cons, lookup_cons, lookup_walkPairs_of_ne h]

theorem mem_walkPairs (h : p ∈ walkPairs k v c) : p = (k, v) ∨ p ∈ c := by
  induction c with
  | nil => exact .inl (mem_singleton.mp h)
  | cons q c ih =>
    unfold walkPairs at h
    split at h
    · rcases mem_cons.mp h with h | h
      · exact .inl h
      · split at h
        · exact .inl (mem_singleton.mp h)
        · exact .inr (mem_cons_of_mem _ h)
    · rcases mem_cons.mp h with rfl | h
      · exact .inr mem_cons_self
      · exact (ih h).imp_right (mem_cons_of_mem _)

theorem mem_insertPair (h : p ∈ insertPair k v c) : p = (k, v) ∨ p ∈ c := by
  cases c with
  | nil => exact .inl (mem_singleton.mp h)
  | cons q c =>
    rw [insertPair] at h
    split at h
    · rcases mem_cons.mp h with h | h
      · exact .inl h
      · exact .inr (mem_cons_of_mem _ h)
    · rcases mem_cons.mp h with rfl | h
      · exact .inr mem_cons_self
      · exact (mem_walkPairs h).imp_right (mem_cons_of_mem _)

theorem not_mem_walkPairs (hne : p.1 ≠ k) (h : p.1 ∉ c.map fst) : p.1 ∉ (walkPairs k v c).map fst := by
  intro hmem
  obtain ⟨q, hq, heq⟩ := mem_map.mp hmem
  rcases mem_walkPairs hq with hk | hq
  · rw [hk] at heq
    exact hne heq.symm
  · exact h (heq ▸ mem_map_of_mem hq)

theorem nodup_walkPairs (h : (c.map fst).Nodup) (hlast : c.getLast?.map fst ≠ some k) :
    ((walkPairs k v c).map fst).Nodup := by
  induction c with
  | nil => exact nodup_singleton k
  | cons p c ih =>
    rw [map_cons, nodup_cons] at h
    unfold walkPairs
    split
    · rename_i hp
      rw [← hp]
      split
      · rename_i hnil
        exact absurd (by simp [hnil, hp]) hlast
      · exact nodup_cons.mpr h
    · rename_i hp
      rw [map_cons, nodup_cons]
      refine ⟨not_mem_walkPairs hp h.1, ih h.2 ?_⟩
      intro hk
      apply hlast
      cases c with
      | nil => simp at hk
      | cons q c => rwa [getLast?_cons_cons]

theorem nodup_insertPair (h : (c.map fst).Nodup) (hlast : ¬ KeyIsLast k c) : ((insertPair k v c).map fst).Nodup := by
  cases c with
  | nil => exact nodup_singleton k
  | cons p c =>
    rw [map_cons, nodup_cons] at h
    rw [insertPair]
    split
    · rename_i hp
      rw [← hp]
      exact nodup_cons.mpr h
    · rename_i hp
      rw [map_cons, nodup_cons]
      refine ⟨not_mem_walkPairs hp h.1, nodup_walkPairs h.2 ?_⟩
      intro hk
      cases c with
      | nil => simp at hk
      | cons q c => exact hlast ⟨by simp, by rwa [getLast?_cons_cons]⟩

end Chain

section Table

variable {κ ν : Type} [DecidableEq κ] {hash : κ → Nat} {keys : Nat} {absent : ν → Bool} {map : Nat → List (κ × ν)}
  {log : List (κ × ν)} {k : κ} {v : ν}

/-- The table stands for what has been stored: of each key the last value. -/
structure Stores (hash : κ → Nat) (absent : ν → Bool) (map : Nat → List (κ × ν)) (log : List (κ × ν)) : Prop where
  hashed : Chains.WellHashed hash map
  get : ∀ k, get hash map k = log.lookup k
  real : ∀ p ∈ log, absent p.2 = false

theorem Stores.empty : Stores hash absent (fun _ => []) [] := ⟨Chains.WellHashed.empty, fun _ => rfl, by simp⟩

theorem Stores.addPair (h : Stores hash absent map log) (hreal : absent v = false)
    (hlast : ¬ KeyIsLast k (map (hash k))) : Stores hash absent (addPair hash k v map) ((k, v) :: log) where
  hashed := h.hashed.update (fun _ hp => (mem_insertPair hp).imp_left (congrArg fst))
    (nodup_insertPair (h.hashed.nodup _) hlast)
  get k' := by
    unfold ParepMpi.addPair
    rw [get_update lookup_insertPair fun _ => lookup_insertPair_of_ne]
    by_cases hk : k' = k
    · rw [hk, Function.update_self, lookup_cons_self]
    · rw [Function.update_of_ne hk, lookup_cons_of_ne hk, h.get]
  real := by
    intro p hp
    rcases mem_cons.mp hp with rfl | hp
    · exact hreal
    · exact h.real p hp

structure FiniteMap (hash : κ → Nat) (keys : Nat) (absent : ν → Bool) (map : Nat → List (κ × ν))
    (log : List (κ × ν)) : Prop where
  hashed : ∀ i, ∀ p ∈ map i, hash p.1 = i
  once : ∀ i, ((map i).map fst).Nodup
  get : ∀ k v, log.lookup k = some v → getPair hash absent map k = some v
  all_once : ((getAll keys map).2.map fst).Nodup
  all : ∀ k v, (k, v) ∈ (getAll keys map).2 ↔ log.lookup k = some v
  count : (getAll keys map).1 = (getAll keys map).2.length

omit [DecidableEq κ] in
theorem foldl_append_eq (is : List Nat) (acc : List (κ × ν)) :
    is.foldl (fun maps hash => maps ++ map hash) acc = acc ++ is.flatMap map := by
  induction is generalizing acc with
  | nil => simp
  | cons i is ih => rw [foldl_cons, ih, flatMap_cons, append_assoc]

omit [DecidableEq κ] in
theorem foldl_length_eq (is : List Nat) (num : Nat) :
    is.foldl (fun num hash => num + (map hash).length) num = num + (is.flatMap map).length := by
  induction is generalizing num with
  | nil => simp
  | cons i is ih => rw [foldl_cons, ih, flatMap_cons, length_append, add_assoc]

omit [DecidableEq κ] in
theorem getAll_eq : getAll keys map = ((pairs keys map).length, pairs keys map) := by
  rw [getAll, foldl_length_eq, foldl_append_eq, pairs, zero_add, nil_append]

theorem Stores.finiteMap (h : Stores hash absent map log) (hkeys : ∀ k, hash k < keys) :
    FiniteMap hash keys absent map log where
  hashed := h.hashed.hashed
  once := h.hashed.nodup
  get k v hv := by
    have hreal := h.real (k, v) (mem_of_lookup_eq_some hv)
    have hget := h.get k
    unfold Chains.get at hget
    rw [getPair, hget, hv, filter_some, if_pos (by simp [hreal])]
  all_once := by
    rw [getAll_eq]
    exact h.hashed.nodup_pairs
  all k v := by
    rw [getAll_eq, h.hashed.mem_pairs_iff hkeys, h.get]
  count := by rw [getAll_eq]

end Table

namespace IdStores

variable {s s' : IdStores}

def RealId : IdPair → Prop
  | .lid _ lid => lid ≠ -1
  | .rkey _ _ realRkey => realRkey ≠ -1
  | .qp _ realQpNum _ => realQpNum ≠ -1

/-- The key of the pair, or the next new one, is not that of the last of several pairs in its chain. A lid that has a
key already gets no new one. -/
def InPlace (s : IdStores) : IdPair → Prop
  | .lid virtLid lid =>
    let key := if virtLid = -1 then s.currentLid else virtLid
    (virtLid = -1 → (s.findLid lid).getD (-1) = -1) → ¬ KeyIsLast key (s.lidMap (lidHash key))
  | .rkey virtRkey pdId _ =>
    let key := (if virtRkey = -1 then s.currentRkey else virtRkey, pdId)
    ¬ KeyIsLast key (s.rkeyMap (rkeyHash key))
  | .qp virtQpNum _ _ =>
    let key := if virtQpNum = -1 then s.currentQpNum else virtQpNum
    ¬ KeyIsLast key (s.qpMap (qpHash key))

def CallInPlace (s : IdStores) : IdCall → Prop
  | .addPair p => s.InPlace p
  | .addPairMultiple ps => Guarded (fun s p => some (s.add p)) InPlace s ps
  | _ => True

def RealCall : IdCall → Prop
  | .addPair p => RealId p
  | .addPairMultiple ps => ∀ p ∈ ps, RealId p
  | _ => True

structure AllStored (s : IdStores) : Prop where
  lid : Stores lidHash (fun lid => lid = -1) s.lidMap s.lidLog
  rkey : Stores rkeyHash (fun rkey => rkey = -1) s.rkeyMap s.rkeyLog
  qp : Stores qpHash (fun qp => qp.1 = -1) s.qpMap s.qpLog

structure AllMaps (s : IdStores) : Prop where
  lid : FiniteMap lidHash lidHashKeys (fun lid => lid = -1) s.lidMap s.lidLog
  rkey : FiniteMap rkeyHash rkeyHashKeys (fun rkey => rkey = -1) s.rkeyMap s.rkeyLog
  qp : FiniteMap qpHash qpHashKeys (fun qp => qp.1 = -1) s.qpMap s.qpLog

theorem AllStored.maps (h : s.AllStored) : s.AllMaps where
  lid := h.lid.finiteMap fun _ => Nat.mod_lt _ (by decide)
  rkey := h.rkey.finiteMap fun _ => Nat.mod_lt _ (by decide)
  qp := h.qp.finiteMap fun _ => Nat.mod_lt _ (by decide)

theorem AllStored.add {p : IdPair} (h : s.AllStored) (hreal : RealId p) (hplace : s.InPlace p) :
    (s.add p).AllStored := by
  cases p with
  | lid virtLid lid =>
    have hlid : decide (lid = -1) = false := decide_eq_false hreal
    dsimp only [InPlace] at hplace
    dsimp only [IdStores.add, lidAddPair]
    by_cases hnew : virtLid = -1
    · rw [if_pos hnew] at hplace ⊢
      split
      · rename_i hnone
        exact ⟨h.lid.addPair hlid (hplace fun _ => hnone), h.rkey, h.qp⟩
      · exact h
    · rw [if_neg hnew] at hplace ⊢
      exact ⟨h.lid.addPair hlid (hplace fun heq => absurd heq hnew), h.rkey, h.qp⟩
  | rkey virtRkey pdId realRkey =>
    have hrkey : decide (realRkey = -1) = false := decide_eq_false hreal
    dsimp only [InPlace] at hplace
    dsimp only [IdStores.add, rkeyAddPair]
    by_cases hnew : virtRkey = -1
    · rw [if_pos hnew] at hplace ⊢
      exact ⟨h.lid, h.rkey.addPair hrkey hplace, h.qp⟩
    · rw [if_neg hnew] at hplace ⊢
      exact ⟨h.lid, h.rkey.addPair hrkey hplace, h.qp⟩
  | qp virtQpNum realQpNum pdId =>
    have hqp : decide (realQpNum = -1) = false := decide_eq_false hreal
    dsimp only [InPlace] at hplace
    dsimp only [IdStores.add, qpAddPair]
    by_cases hnew : virtQpNum = -1
    · rw [if_pos hnew] at hplace ⊢
      exact ⟨h.lid, h.rkey, h.qp.addPair hqp hplace⟩
    · rw [if_neg hnew] at hplace ⊢
      exact ⟨h.lid, h.rkey, h.qp.addPair hqp hplace⟩

theorem AllStored.addAll {ps : List IdPair} (h : s.AllStored) (hreal : ∀ p ∈ ps, RealId p)
    (hplace : Guarded (fun s p => some (s.add p)) InPlace s ps) : (ps.foldl IdStores.add s).AllStored := by
  induction ps generalizing s with
  | nil => exact h
  | cons p ps ih =>
    obtain ⟨hp, hps⟩ := guarded_cons hplace rfl
    exact ih (h.add (hreal p mem_cons_self) hp) (fun q hq => hreal q (mem_cons_of_mem _ hq)) hps

theorem AllStored.step {e : IdCall} (h : s.AllStored) (hreal : RealCall e) (hplace : s.CallInPlace e)
    (hs : s.step e = some s') : s'.AllStored := by
  cases e with
  | addPair p =>
    obtain rfl := some_inj.mp hs
    exact h.add hreal hplace
  | addPairMultiple ps =>
    obtain rfl := some_inj.mp hs
    exact h.addAll hreal hplace
  | getPdId | getRkey =>
    obtain rfl := some_inj.mp hs
    exact { h with }
  | lidCleanMaps =>
    obtain rfl := some_inj.mp hs
    exact ⟨Stores.empty, h.rkey, h.qp⟩
  | rkeyCleanMaps =>
    obtain rfl := some_inj.mp hs
    exact ⟨h.lid, Stores.empty, h.qp⟩
  | qpCleanMaps =>
    obtain rfl := some_inj.mp hs
    exact ⟨h.lid, h.rkey, Stores.empty⟩

/-- In every sequence of calls that find no key at the end of a longer chain, the stores are finite maps. -/
theorem stores_are_maps {nodeNum nodeId : Nat} {es : List IdCall} {s : IdStores} (hreal : ∀ e ∈ es, RealCall e)
    (hplace : Guarded step CallInPlace (init nodeNum nodeId) es)
    (hrun : runEvents step (init nodeNum nodeId) es = some s) : s.AllMaps := by
  have hguard : Guarded step (fun s e => RealCall e ∧ s.CallInPlace e) (init nodeNum nodeId) es :=
    Guarded.and (guarded_of_forall fun e he _ => hreal e he) hplace
  have hinv : s.AllStored := hguard.invariant hrun ⟨Stores.empty, Stores.empty, Stores.empty⟩
    fun hu hg => hu.step hg.1 hg.2
  exact hinv.maps

instance (p : IdPair) : Decidable (RealId p) :=
  match p with
  | .lid _ lid => inferInstanceAs (Decidable (lid ≠ -1))
  | .rkey _ _ realRkey => inferInstanceAs (Decidable (realRkey ≠ -1))
  | .qp _ realQpNum _ => inferInstanceAs (Decidable (realQpNum ≠ -1))

instance RealCall.decidable : ∀ e, Decidable (RealCall e)
  | .addPair p => inferInstanceAs (Decidable (RealId p))
  | .addPairMultiple ps => inferInstanceAs (Decidable (∀ p ∈ ps, RealId p))
  | .getPdId | .getRkey | .lidCleanMaps | .rkeyCleanMaps | .qpCleanMaps => instDecidableTrue

instance InPlace.decidable (s : IdStores) : ∀ p, Decidable (s.InPlace p)
  | .lid _ _ => inferInstanceAs (Decidable (_ → ¬ _))
  | .rkey _ _ _ | .qp _ _ _ => inferInstanceAs (Decidable (¬ _))

instance CallInPlace.decidable (s : IdStores) : ∀ e, Decidable (s.CallInPlace e)
  | .addPair p => inferInstanceAs (Decidable (s.InPlace p))
  | .addPairMultiple ps => inferInstanceAs (Decidable (Guarded (fun s p => some (s.add p)) InPlace s ps))
  | .getPdId | .getRkey | .lidCleanMaps | .rkeyCleanMaps | .qpCleanMaps => instDecidableTrue

/-- A queue pair number is stored again while it is the first of its chain. -/
def firstUpdated : List IdCall :=
  [.addPair (.qp 1 100 0), .addPairMultiple [.qp 11 101 0, .qp (-1) 102 0], .addPair (.qp 1 103 0), .addPair (.lid (-1) 7),
    .addPair (.lid (-1) 7), .addPair (.rkey 5 0 9), .rkeyCleanMaps, .addPair (.rkey 5 0 10)]

theorem firstUpdated_maps : (∀ e ∈ firstUpdated, RealCall e) ∧ Guarded step CallInPlace (init 2 0) firstUpdated ∧
    ∃ s, runEvents step (init 2 0) firstUpdated = some s ∧ s.qpGetPair 1 = some (103, 0) ∧ s.AllMaps := by
  have hreal : ∀ e ∈ firstUpdated, RealCall e := by decide +kernel
  have hplace : Guarded step CallInPlace (init 2 0) firstUpdated := by decide +kernel
  refine ⟨hreal, hplace, exists_run_imp (P := fun s => s.qpGetPair 1 = some (103, 0)) (by decide +kernel) ?_⟩
  exact fun s hs hget => ⟨hget, stores_are_maps hreal hplace hs⟩

/-- Queue pair numbers 1 and 11 are in one chain, and 11 is stored again. -/
def lastUpdated : List IdCall := [.addPair (.qp 1 100 0), .addPair (.qp 11 101 0), .addPair (.qp 11 102 0)]

/-- Queue pair number 11 is then twice in its chain, and three pairs are sent for two keys. -/
theorem lastUpdated_twice : ∃ s, runEvents step (init 2 0) lastUpdated = some s ∧
    getAll qpHashKeys s.qpMap = (3, [(1, (100, 0)), (11, (102, 0)), (11, (102, 0))]) ∧ ¬ s.AllMaps := by
  have hrun : (runEvents step (init 2 0) lastUpdated).map (fun s => getAll qpHashKeys s.qpMap) =
      some (3, [(1, (100, 0)), (11, (102, 0)), (11, (102, 0))]) := by decide +kernel
  obtain ⟨s, hs, hall⟩ := map_eq_some_iff.mp hrun
  refine ⟨s, hs, hall, ?_⟩
  intro hmaps
  have honce := hmaps.qp.all_once
  rw [hall] at honce
  exact absurd honce (by decide)

end IdStores

end ParepMpi
