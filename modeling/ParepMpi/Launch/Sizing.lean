import ParepMpi.Launch.Restart

/-!
# Launches fit the nodes that are left

Each launch is sized for the nodes that are not down, and its ratios give back the compute processes of the first one,
as long as no down-file names a node twice, and none is empty after one that was not.
-/

namespace ParepMpi

open List Option

theorem digitsValue_append (digit : Char → Option Nat) (base v : Nat) (cs : List Char) (c : Char) :
    digitsValue digit base v (cs ++ [c]) = digitsValue digit base v cs * base + (digit c).getD 0 := by
  rw [digitsValue, foldl_append]
  rfl

theorem decDigit_ofNat : ∀ d < 10, decDigit (Char.ofNat ('0'.toNat + d)) = some d := by decide

theorem decDigit_lt {c : Char} : (decDigit c).getD 0 < 10 := by
  unfold decDigit
  split
  next h =>
    have h0 : '0'.toNat ≤ c.toNat := h.1
    have h9 : c.toNat ≤ '9'.toNat := h.2
    rw [getD_some]
    simp only [Char.reduceToNat] at h0 h9 ⊢
    omega
  · exact Nat.zero_lt_succ _

theorem digitsValue_lt (cs : List Char) (v : Nat) : digitsValue decDigit 10 v cs < (v + 1) * 10 ^ cs.length := by
  induction cs generalizing v with
  | nil => simp [digitsValue]
  | cons c cs ih =>
    calc digitsValue decDigit 10 v (c :: cs) = digitsValue decDigit 10 (v * 10 + (decDigit c).getD 0) cs := rfl
      _ < (v * 10 + (decDigit c).getD 0 + 1) * 10 ^ cs.length := ih _
      _ ≤ ((v + 1) * 10) * 10 ^ cs.length := by
          apply Nat.mul_le_mul_right
          have := decDigit_lt (c := c)
          omega
      _ = (v + 1) * 10 ^ (c :: cs).length := by rw [length_cons, Nat.pow_succ, mul_assoc, mul_comm 10]

theorem itoaLoop_value {fuel n : Nat} (h : n ≤ fuel) : digitsValue decDigit 10 0 (itoaLoop fuel n).reverse = n := by
  induction fuel generalizing n with
  | zero => simp [itoaLoop, digitsValue, Nat.le_zero.mp h]
  | succ fuel ih =>
    rw [itoaLoop]
    split
    next hzero => simp [digitsValue, hzero]
    next hpos =>
      rw [reverse_cons, digitsValue_append, ih (by omega), decDigit_ofNat _ (Nat.mod_lt _ (by decide)), getD_some]
      omega

theorem length_itoaLoop {fuel n k : Nat} (h : n < 10 ^ k) : (itoaLoop fuel n).length ≤ k := by
  induction fuel generalizing n k with
  | zero => exact Nat.zero_le _
  | succ fuel ih =>
    rw [itoaLoop]
    split
    · exact Nat.zero_le _
    next hpos =>
      cases k with
      | zero => omega
      | succ k =>
        exact Nat.succ_le_succ (ih (by omega))

theorem parepMpiItoa_spec {n k : Nat} (h : n < 10 ^ k) (hk : 0 < k) :
    digitsValue decDigit 10 0 (parepMpiItoa n) = n ∧ (parepMpiItoa n).length ≤ k := by
  unfold parepMpiItoa
  split
  next hzero =>
    obtain rfl : n = 0 := by omega
    exact ⟨rfl, hk⟩
  · rw [if_neg (by omega), append_nil, length_reverse]
    exact ⟨itoaLoop_value le_rfl, length_itoaLoop h⟩

structure PlainLine (line : List Char) : Prop where
  nonempty : line ≠ []
  short : line.length < 4095
  newline : '\n' ∉ line
  nul : nul ∉ line
  eof : eof ∉ line

theorem fgetsLines_fileText {lines : List (List Char)} (h : ∀ l ∈ lines, PlainLine l) :
    fgetsLines (fileText lines) = lines.map (· ++ ['\n']) := by
  have hwhole : ∀ l ∈ lines.map (· ++ ['\n']), Lines.Whole (fun c => decide (c = '\n')) '\n' 4095 l := by
    intro l hl
    obtain ⟨b, hb, rfl⟩ := mem_map.mp hl
    refine ⟨b, rfl, (h b hb).short, fun c hc => ?_⟩
    exact decide_eq_false fun heq => (h b hb).newline (heq ▸ hc)
  rw [fgetsLines, fileText, Lines.pieces_lines (by decide) hwhole le_rfl]
  conv_rhs => rw [← map_id (lines.map (· ++ ['\n']))]
  apply map_congr_left
  intro l hl
  obtain ⟨b, hb, rfl⟩ := mem_map.mp hl
  refine takeWhile_eq_self_iff.mpr fun c hc => ?_
  rcases mem_append.mp hc with hc | hc
  · exact decide_eq_true fun heq => (h b hb).nul (heq ▸ hc)
  · rw [mem_singleton.mp hc]
    decide

def kept (nodes down : List (List Char)) : List (List Char) := nodes.filter fun l => !down.contains l

theorem kept_eq (nodes down : List (List Char)) : kept nodes down = nodes.filter (· ∉ down) :=
  filter_congr fun l _ => by rw [contains_eq_mem, decide_not]

theorem length_kept {nodes down : List (List Char)} (hnodes : nodes.Nodup) (hdown : down.Nodup)
    (hsub : ∀ d ∈ down, d ∈ nodes) : (kept nodes down).length + down.length = nodes.length := by
  have hsame : Perm (nodes.filter (· ∈ down)) down := by
    refine (perm_ext_iff_of_nodup (hnodes.filter _) hdown).mpr fun d => ?_
    rw [mem_filter, decide_eq_true_eq]
    exact and_iff_right_of_imp (hsub d)
  have hsplit := (filter_append_perm (· ∈ down) nodes).length_eq
  rw [length_append, hsame.length_eq] at hsplit
  rw [kept_eq]
  simp only [decide_not] at hsplit ⊢
  omega

namespace MpirunJob

variable {job : MpirunJob} {s s' : Mpirun} {down : List (List Char)}

/-- What a launch has to find for the nodes that are left, with `nC` compute processes. -/
structure Sized (job : MpirunJob) (nC : Int) (l : Launch) : Prop where
  nodeFile : l.nodeFile = fileText (kept job.nodes l.down)
  nodeNum : l.nodeNum = (kept job.nodes l.down).length
  size : l.size = (kept job.nodes l.down).length * job.ntasksPerNode
  np : (digitsValue decDigit 10 0 l.np : Int) = l.size
  replicas : empiCommCreation l.env l.size = some (nC, l.size - nC) ∧ 0 ≤ l.size - nC

/-- The down-file lists nodes of the job, none of them twice; it is empty only when the node file is the first one. -/
structure Orderly (job : MpirunJob) (s : Mpirun) (down : List (List Char)) : Prop where
  listed : ∀ d ∈ down, d ∈ job.nodes
  once : down.Nodup
  restored : down = [] → s.nodeFile = fileText job.nodes
  plain : ∀ l ∈ job.nodes, PlainLine l
  nC_nonneg : 0 ≤ s.nC
  fits : job.size * (job.size - s.nC) < 2 ^ 31

theorem nodeCopy_eq (h : ∀ l ∈ job.nodes, PlainLine l) : job.nodeCopy = fileText job.nodes := by
  refine takeWhile_eq_self_iff.mpr fun c hc => ?_
  obtain ⟨l, hl, hc⟩ := mem_flatten.mp hc
  obtain ⟨b, hb, rfl⟩ := mem_map.mp hl
  rcases mem_append.mp hc with hc | hc
  · exact decide_eq_true fun heq => (h b hb).eof (heq ▸ hc)
  · rw [mem_singleton.mp hc]
    decide

theorem filter_nodeCopy (h : ∀ l ∈ job.nodes, PlainLine l) :
    ((fgetsLines job.nodeCopy).filter (· ∉ down.map (· ++ ['\n']))).flatten = fileText (kept job.nodes down) := by
  rw [nodeCopy_eq h, fgetsLines_fileText h, List.filter_map, kept_eq]
  congr 3
  funext l
  have hinj : Function.Injective fun l : List Char => l ++ ['\n'] := append_left_injective _
  simp only [Function.comp_apply, List.mem_map_of_injective hinj]

theorem left_le (job : MpirunJob) (down : List (List Char)) : (kept job.nodes down).length * job.ntasksPerNode ≤ job.size := by
  rw [job.size_eq]
  exact Nat.mul_le_mul_right _ (length_filter_le ..)

theorem np_spec {n : Nat} (hn : n ≤ job.size) :
    digitsValue decDigit 10 0 (parepMpiItoa n) = n ∧ (parepMpiItoa n).length ≤ job.argv.length := by
  refine parepMpiItoa_spec (lt_of_le_of_lt hn ?_) (length_pos_iff.mpr job.argv_nonempty)
  have := digitsValue_lt job.argv 0
  rwa [job.argv_value, Nat.one_mul] at this

namespace Orderly

variable (h : Orderly job s down)

include h

theorem downNodes_eq : fgetsLines (fileText down) = down.map (· ++ ['\n']) :=
  fgetsLines_fileText fun l hl => h.plain l (h.listed l hl)

theorem downProcs_eq : job.downProcs (down.map (· ++ ['\n'])) = job.ntasksPerNode * down.length := by
  rw [downProcs, countP_map, countP_eq_length.mpr]
  intro l hl
  have hplain := h.plain l (h.listed l hl)
  obtain ⟨c, b, rfl⟩ := exists_cons_of_ne_nil hplain.nonempty
  refine decide_eq_true ⟨by simp, fun heq => hplain.newline ?_⟩
  obtain rfl : c = '\n' := by simpa using heq
  exact mem_cons_self

theorem left_eq : (job.size : Int) - (job.ntasksPerNode * down.length : Nat) =
    ((kept job.nodes down).length * job.ntasksPerNode : Nat) := by
  have hlen := length_kept job.nodes_nodup h.once h.listed
  rw [job.size_eq, ← hlen, add_mul, mul_comm down.length]
  omega

theorem replicas_eq {n nR : Int} (hn : n = s.nC + nR) (h0 : 0 ≤ nR) (hle : n ≤ job.size) :
    empiCommCreation (if 0 < nR then ⟨some s.nC, some nR, none⟩ else ⟨none, none, some (-1)⟩) n = some (s.nC, nR) := by
  have hC := h.nC_nonneg
  by_cases hpos : 0 < nR
  · have hprod : n * nR < 2 ^ 31 := Int.lt_of_le_of_lt (Int.mul_le_mul hle (by omega) h0 (by omega)) h.fits
    have hdiv : (int32 (n * nR)).tdiv (nR + s.nC) = nR := by
      rw [int32_of_lt (Int.mul_nonneg (by omega) h0) hprod, show nR + s.nC = n by omega]
      exact Int.mul_tdiv_cancel_left _ (by omega)
    rw [if_pos hpos, empiCommCreation, Ratios.replicas]
    dsimp only
    rw [if_neg (by omega), hdiv, map_some, show n - nR = s.nC by omega]
  · rw [if_neg hpos, empiCommCreation, Ratios.replicas]
    dsimp only
    rw [if_neg (by decide), map_some, show n - 0 = s.nC by omega, show nR = 0 by omega]

theorem poll_spec : ∃ s', job.poll s down = some s' ∧ s'.nC = s.nC ∧
    (s'.launches = s.launches ∨ ∃ l, s'.launches = s.launches ++ [l] ∧ Sized job s.nC l) := by
  have hlen := length_kept job.nodes_nodup h.once h.listed
  have hleft := h.left_eq
  obtain ⟨hvalue, hshort⟩ := np_spec (left_le job down)
  have hroom : ¬ job.size < (down.map (· ++ ['\n'])).length := by
    rw [length_map, job.size_eq]
    have := Nat.le_mul_of_pos_right job.nodes.length job.ntasks_pos
    omega
  rw [poll]
  simp only [h.downNodes_eq, h.downProcs_eq, if_neg hroom, hleft, if_neg (not_lt.mpr hshort)]
  split
  · exact ⟨_, rfl, rfl, .inl rfl⟩
  next hnR =>
    have hle : (((kept job.nodes down).length * job.ntasksPerNode : Nat) : Int) ≤ job.size := by
      exact_mod_cast left_le job down
    refine ⟨_, rfl, rfl, .inr ⟨_, rfl, ?_, ?_, by rfl, by rw [hvalue], ?_, by push_cast at *; omega⟩⟩
    · by_cases hnil : down = []
      · subst hnil
        simp only [h.restored rfl]
        simp [kept]
      · rw [if_pos (Nat.mul_pos job.ntasks_pos (length_pos_iff.mpr hnil)), filter_nodeCopy h.plain]
    · have hpos : (job.ntasksPerNode : Int) ≠ 0 := by exact_mod_cast job.ntasks_pos.ne'
      rw [job.size_eq]
      push_cast
      rw [Int.mul_ediv_cancel _ hpos, Int.mul_ediv_cancel_left _ hpos]
      omega
    · have hR : (job.size : Int) - s.nC - (job.ntasksPerNode * down.length : Nat) =
          ((kept job.nodes down).length * job.ntasksPerNode : Nat) - s.nC := by omega
      rw [hR] at hnR ⊢
      dsimp only
      exact h.replicas_eq (by omega) (by omega) hle

end Orderly

/-- In a run in which the passes are orderly, every launch is sized for the nodes that are left and has the compute
processes of the first, and the next pass writes nothing out of bounds either. -/
theorem launches_sized {s₀ : Mpirun} (hstart : job.start = some s₀) {downs : List (List (List Char))}
    (hguard : Guarded job.poll (Orderly job) s₀ downs) (hrun : runEvents job.poll s₀ downs = some s) :
    (∀ l ∈ s.launches, Sized job s₀.nC l) ∧ ∀ down, Orderly job s down → (job.poll s down).isSome := by
  obtain ⟨nR, -, rfl⟩ := map_eq_some_iff.mp hstart
  have hinv : s.nC = job.size - nR ∧ ∀ l ∈ s.launches, Sized job (job.size - nR) l := by
    refine hguard.invariant (P := fun s => s.nC = job.size - nR ∧ ∀ l ∈ s.launches, Sized job (job.size - nR) l) hrun
      ⟨rfl, by simp⟩ fun hs horderly hstep => ?_
    obtain ⟨t, ht, hnC, hlaunches⟩ := horderly.poll_spec
    obtain rfl := some.inj (ht.symm.trans hstep)
    refine ⟨hnC.trans hs.1, ?_⟩
    rcases hlaunches with hsame | ⟨l, hmore, hl⟩
    · rw [hsame]
      exact hs.2
    · rw [hmore]
      intro k hk
      rcases mem_append.mp hk with hk | hk
      · exact hs.2 k hk
      · rw [mem_singleton.mp hk, ← hs.1]
        exact hl
  refine ⟨hinv.2, fun down horderly => ?_⟩
  obtain ⟨t, ht, -⟩ := horderly.poll_spec
  rw [ht]
  rfl

/-- Three nodes with one process each, of which two are replicas. -/
def threeNodes : MpirunJob where
  nodes := [['a'], ['b'], ['c']]
  ntasksPerNode := 1
  size := 3
  argv := ['3']
  env := ⟨some 1, some 2, none⟩
  nR := 0
  nodes_nodup := by decide
  ntasks_pos := by decide
  size_eq := rfl
  argv_nonempty := by decide
  argv_digits := List.all_eq_true.mp (by decide)
  argv_value := by decide

instance (line : List Char) : Decidable (PlainLine line) :=
  decidable_of_iff (line ≠ [] ∧ line.length < 4095 ∧ '\n' ∉ line ∧ nul ∉ line ∧ eof ∉ line)
    ⟨fun h => ⟨h.1, h.2.1, h.2.2.1, h.2.2.2.1, h.2.2.2.2⟩, fun h => ⟨h.nonempty, h.short, h.newline, h.nul, h.eof⟩⟩

instance (job : MpirunJob) (s : Mpirun) (down : List (List Char)) : Decidable (Orderly job s down) :=
  decidable_of_iff ((down.all job.nodes.contains) ∧ down.Nodup ∧ (down = [] → s.nodeFile = fileText job.nodes) ∧
      (∀ l ∈ job.nodes, PlainLine l) ∧ 0 ≤ s.nC ∧ job.size * (job.size - s.nC) < 2 ^ 31)
    ⟨fun h => ⟨fun d hd => contains_iff_mem.mp (all_eq_true.mp h.1 d hd), h.2.1, h.2.2.1, h.2.2.2.1, h.2.2.2.2.1,
        h.2.2.2.2.2⟩,
      fun h => ⟨all_eq_true.mpr fun d hd => contains_iff_mem.mpr (h.listed d hd), h.once, h.restored, h.plain,
        h.nC_nonneg, h.fits⟩⟩

def threeNodesStart : Mpirun := ⟨1, fileText threeNodes.nodes, threeNodes.argv, threeNodes.env, []⟩

/-- A node fails and then another one, and when they are back a third one. -/
theorem threeNodes_sized : ∃ s, runEvents threeNodes.poll threeNodesStart [[], [['b']], [['b'], ['a']], [['c']]] = some s ∧
    s.launches.length = 4 ∧ ∀ l ∈ s.launches, Sized threeNodes threeNodesStart.nC l := by
  refine exists_run_imp (P := fun s => s.launches.length = 4) (by decide +kernel) fun s hs hlen => ?_
  exact ⟨hlen, (launches_sized (by decide +kernel) (by decide +kernel) hs).1⟩

/-- A node that is listed twice is counted twice, so that `PAREP_MPI_NODE_NUM` is less than the node file has; four
lines are written beyond `down_nodes`; and a node that comes back is counted, but the node file is without it. -/
theorem launches_missized : threeNodes.start = some threeNodesStart ∧
    (∃ s, runEvents threeNodes.poll threeNodesStart [[['a'], ['a']]] = some s ∧
      ¬ ∀ l ∈ s.launches, Sized threeNodes threeNodesStart.nC l) ∧
    runEvents threeNodes.poll threeNodesStart [[['a'], ['a'], ['a'], ['a']]] = none ∧
    ∃ s, runEvents threeNodes.poll threeNodesStart [[['a']], []] = some s ∧
      ¬ ∀ l ∈ s.launches, Sized threeNodes threeNodesStart.nC l := by
  refine ⟨by decide +kernel, ?_, by decide +kernel, ?_⟩
  · refine exists_run_imp (P := fun s => ¬ ∀ l ∈ s.launches, l.nodeNum = ((kept threeNodes.nodes l.down).length : Int))
      (by decide +kernel) ?_
    exact fun s _ hbad h => hbad fun l hl => (h l hl).nodeNum
  · refine exists_run_imp (P := fun s => ¬ ∀ l ∈ s.launches, l.nodeFile = fileText (kept threeNodes.nodes l.down))
      (by decide +kernel) ?_
    exact fun s _ hbad h => hbad fun l hl => (h l hl).nodeFile

end MpirunJob

end ParepMpi
