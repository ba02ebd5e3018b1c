import Mathlib.Algebra.Group.Nat.Defs
import Mathlib.Data.List.Infix
import Mathlib.Tactic.Common

/-!
# Registers that point into mapped files

The libraries of two processes are mapped at different addresses. The restart code compares the names of the files with
string functions of its own, since the C library cannot be called while it runs.
-/

namespace ParepMpi

open List Option

abbrev Name := List Nat

def Name.byte (s : Name) : Nat := s.headD 0

/-- The loop of `parep_mpi_strcmp`, with the two bytes that were compared last. -/
def strcmpLoop : Nat → Nat → Nat → Name → Name → Int
  | 0, c1, c2, _, _ => c1 - c2
  | n + 1, _, _, s1, s2 =>
    if s1.byte = 0 ∨ s1.byte ≠ s2.byte then s1.byte - s2.byte
    else strcmpLoop n s1.byte s2.byte s1.tail s2.tail

def parepMpiStrcmp (s1 s2 : Name) : Int := strcmpLoop s2.length s1.byte 0 s1 s2

/-- The inner loop of `parep_mpi_strstr`: the substring starts here. -/
def startsWith : Name → Name → Bool
  | _, [] => true
  | [], _ :: _ => false
  | a :: s, b :: sub => a == b && startsWith s sub

def parepMpiStrstr : Name → Name → Bool
  | [], _ => false
  | a :: s, sub => startsWith (a :: s) sub || parepMpiStrstr s sub

def Name.Text (s : Name) : Prop := 0 ∉ s

instance (s : Name) : Decidable s.Text := inferInstanceAs (Decidable (0 ∉ s))

section

variable {s s1 s2 : Name} {n c1 c2 : Nat}

theorem strcmpLoop_eq_zero (h2 : s2.Text) (hlast : s2 = [] → c1 = c2) :
    strcmpLoop s2.length c1 c2 s1 s2 = 0 ↔ s2 <+: s1 := by
  induction s2 generalizing s1 c1 c2 with
  | nil =>
    rw [length_nil, strcmpLoop, hlast rfl, Int.sub_self]
    exact iff_of_true rfl nil_prefix
  | cons b s2 ih =>
    have hb : b ≠ 0 := fun h => h2 (by rw [h]; exact mem_cons_self)
    have htext : Name.Text s2 := fun h => h2 (mem_cons_of_mem b h)
    cases s1 with
    | nil =>
      show ((0 : Nat) : Int) - (b : Int) = 0 ↔ _
      exact iff_of_false (by omega) fun h => cons_ne_nil b s2 (prefix_nil.mp h)
    | cons a s1 =>
      show (if a = 0 ∨ a ≠ b then ((a : Int) - (b : Int)) else strcmpLoop s2.length a b s1 s2) = 0 ↔ _
      by_cases hab : a = b
      · subst hab
        rw [if_neg (by omega), ih htext fun _ => rfl, cons_prefix_cons, and_iff_right rfl]
      · rw [cons_prefix_cons]
        refine iff_of_false (by omega) fun h => hab h.1.symm

theorem parepMpiStrcmp_eq_zero (h1 : s1.Text) (h2 : s2.Text) :
    parepMpiStrcmp s1 s2 = 0 ↔ s2 <+: s1 ∧ (s2 = [] → s1 = []) := by
  cases s2 with
  | nil =>
    cases s1 with
    | nil => exact iff_of_true rfl ⟨ nil_prefix, fun _ => rfl⟩
    | cons a s1 =>
      have ha : a ≠ 0 := fun h => h1 (by rw [h]; exact mem_cons_self)
      refine iff_of_false ?_ fun h => cons_ne_nil a s1 (h.2 rfl)
      show ¬ (a : Int) - ((0 : Nat) : Int) = 0
      omega
  | cons b s2 =>
    rw [parepMpiStrcmp, strcmpLoop_eq_zero h2 fun h => absurd h (cons_ne_nil b s2)]
    exact (and_iff_left fun h => absurd h (cons_ne_nil b s2)).symm

theorem parepMpiStrcmp_self (h : s.Text) : parepMpiStrcmp s s = 0 :=
  (parepMpiStrcmp_eq_zero h h).mpr ⟨prefix_refl s, id⟩

end

namespace Relocate

structure Mapping where
  start : Nat
  stop : Nat
  pathname : Name
  deriving DecidableEq, Repr

def Mapping.Holds (m : Mapping) (v : Nat) : Prop := m.start ≤ v ∧ v < m.stop

instance (m : Mapping) (v : Nat) : Decidable (m.Holds v) := inferInstanceAs (Decidable (m.start ≤ v ∧ v < m.stop))

/-- What lies at the same place in all processes: everything up to `_end`, the heap and the new stack. -/
structure Common where
  dataEnd : Nat
  extHeapMapping : Nat
  extHeapSize : Nat
  newStackStart : Nat
  newStackEnd : Nat

def Common.keeps (k : Common) (v : Nat) : Bool :=
  decide (v = 0 ∨ v ≤ k.dataEnd ∨ (k.extHeapMapping ≤ v ∧ v < k.extHeapMapping + k.extHeapSize)
    ∨ (k.newStackStart ≤ v ∧ v < k.newStackEnd))

/-- `while(mappings[j].pathname[0] == '\0') j--;`. -/
def skipUnnamed (t : List Mapping) : Nat → Option Nat
  | 0 => (t[0]?).bind fun m => if m.pathname = [] then none else some 0
  | j + 1 => (t[j + 1]?).bind fun m => if m.pathname = [] then skipUnnamed t j else some (j + 1)

/-- `while(!strcmp(mapname,mappings[j].pathname)) j--; j++;`. -/
def scanBack (same : Name → Name → Bool) (mapname : Name) (t : List Mapping) : Nat → Option Nat
  | 0 => (t[0]?).bind fun m => if same mapname m.pathname then none else some 1
  | j + 1 => (t[j + 1]?).bind fun m => if same mapname m.pathname then scanBack same mapname t j else some (j + 2)

def describeReg (same : Name → Name → Bool) (k : Common) (t : List Mapping) (v : Nat) : Option (Name × Nat) :=
  if k.keeps v then some ([], v)
  else
    match t.findIdx? fun m => decide (m.Holds v) with
    | none => some ([], v)
    | some i =>
      (skipUnnamed t i).bind fun j => (t[j]?).bind fun m => (scanBack same m.pathname t j).bind fun b =>
        (t[b]?).map fun first => (m.pathname, v - first.start)

def ibShmemKvs : Name := ['i', 'b', '_', 's', 'h', 'm', 'e', 'm', '-', 'k', 'v', 's'].map Char.toNat

def found (same : Name → Name → Bool) (mapname : Name) (m : Mapping) : Bool :=
  same m.pathname mapname || (parepMpiStrstr m.pathname ibShmemKvs && parepMpiStrstr mapname ibShmemKvs)

/-- The register that a name and a distance stand for; without an entry of the name it keeps what it held. -/
def placeReg (same : Name → Name → Bool) (t : List Mapping) (old : Nat) (l : Name × Nat) : Nat :=
  if l.1 = [] then l.2
  else
    match t.find? (found same l.1) with
    | none => old
    | some m => (l.2 + m.start) % 2 ^ 64

def sameByParep (a b : Name) : Bool := decide (parepMpiStrcmp a b = 0)

def sameByLibc (a b : Name) : Bool := decide (a = b)

def writeReg : Common → List Mapping → Nat → Option (Name × Nat) := describeReg sameByParep
def readReg : List Mapping → Nat → Name × Nat → Nat := placeReg sameByParep

/-- `parep_mpi_send_replication_data` and `parep_mpi_recv_replication_data`. -/
def sendReg : Common → List Mapping → Nat → Option (Name × Nat) := describeReg sameByLibc
def recvReg : List Mapping → Nat → Name × Nat → Nat := placeReg sameByLibc

structure Object where
  name : Name
  before : List Mapping
  first : Mapping
  more : List Mapping
  after : List Mapping

namespace Object

def segments (o : Object) : List Mapping := o.first :: o.more

def table (o : Object) : List Mapping := o.before ++ (o.segments ++ o.after)

/-- The mapping without a name that comes directly after the file. -/
def anonymous (o : Object) : List Mapping := (o.after.take 1).filter fun m => m.pathname = []

/-- The table is in the order of the addresses, and only the segments of the file have its name. -/
structure Valid (o : Object) : Prop where
  named : o.name ≠ []
  segment : ∀ m ∈ o.segments, m.pathname = o.name
  other : ∀ m ∈ o.before ++ o.after, m.pathname ≠ o.name
  ascending : o.table.Pairwise fun a b => a.stop ≤ b.start
  mapped : ∀ m ∈ o.table, m.start < m.stop ∧ m.stop ≤ 2 ^ 64
  text : ∀ m ∈ o.table, m.pathname.Text

/-- The value points into the file, or into the mapping without a name directly after it. -/
def Covers (o : Object) (v : Nat) : Prop := ∃ m ∈ o.segments ++ o.anonymous, m.Holds v

/-- The same file in two processes: its segments and the mapping after it lie at the same distances. -/
structure SameLayout (o o' : Object) : Prop where
  name : o.name = o'.name
  distances : Forall₂ (fun a b => a.start - o.first.start = b.start - o'.first.start
    ∧ a.stop - o.first.start = b.stop - o'.first.start) (o.segments ++ o.anonymous) (o'.segments ++ o'.anonymous)

/-- Some entry comes before the file, and its name does not begin the file's name. -/
def LeadsOff (o : Object) : Prop := ∃ m ∈ o.before.getLast?, ¬ (m.pathname ≠ [] ∧ m.pathname <+: o.name)

/-- Of all names with "ib_shmem-kvs" in them none comes before the file's, if it is one of them. -/
def FirstKvs (o : Object) : Prop :=
  ∀ m ∈ o.before, ¬ (parepMpiStrstr m.pathname ibShmemKvs = true ∧ parepMpiStrstr o.name ibShmemKvs = true)

def FirstOfName (o : Object) : Prop := ∀ m ∈ o.before, ¬ o.name <+: m.pathname

end Object

/-- The value is described by the file and the distance from its start, and comes out at this distance in the other
process. -/
def Relocated (describe : Nat → Option (Name × Nat)) (place : Name × Nat → Nat) (o o' : Object) (v : Nat) : Prop :=
  describe v = some (o.name, v - o.first.start) ∧ place (o.name, v - o.first.start) = v - o.first.start + o'.first.start

variable {P : Prop} {same : Name → Name → Bool} {k : Common} {o o' : Object} {t l r before segs rest : List Mapping}
  {m : Mapping} {mapname : Name} {v old i j b : Nat}

/-! ## The sender

A register becomes the name of the file that it points into and the distance from its first mapping. -/

theorem findIdx?_holds (hasc : (l ++ m :: r).Pairwise fun a b => a.stop ≤ b.start) (hm : m.Holds v) :
    ((l ++ m :: r).findIdx? fun m => decide (m.Holds v)) = some l.length := by
  induction l with
  | nil =>
    rw [nil_append, findIdx?_cons, if_pos (decide_eq_true hm)]
    rfl
  | cons a l ih =>
    rw [cons_append, pairwise_cons] at hasc
    have hbelow : a.stop ≤ m.start := hasc.1 m (mem_append_right l mem_cons_self)
    have ha : ¬ a.Holds v := by
      intro h
      have h₁ := h.2
      have h₂ := hm.1
      omega
    rw [cons_append, findIdx?_cons, if_neg (by rw [decide_eq_false ha]; exact Bool.false_ne_true), ih hasc.2]
    rfl

theorem getElem?_segment (before rest : List Mapping) (hi : i < segs.length) :
    ∃ m ∈ segs, (before ++ (segs ++ rest))[before.length + i]? = some m := by
  refine ⟨segs.get ⟨i, hi⟩, get_mem _ _, ?_⟩
  rw [getElem?_append_right (Nat.le_add_right _ _), Nat.add_sub_cancel_left, getElem?_append_left hi]
  exact getElem?_eq_getElem hi

theorem scanBack_segments (hsame : ∀ m ∈ segs, same mapname m.pathname = true) (hi : i < segs.length) :
    scanBack same mapname (before ++ (segs ++ rest)) (before.length + i)
      = if before = [] then none else scanBack same mapname (before ++ (segs ++ rest)) (before.length - 1) := by
  induction i with
  | zero =>
    obtain ⟨m, hmem, hm⟩ := getElem?_segment before rest hi
    cases hb : before with
    | nil =>
      rw [hb] at hm
      show ((([] : List Mapping) ++ (segs ++ rest))[0]?).bind _ = none
      rw [show (([] : List Mapping) ++ (segs ++ rest))[0]? = some m from hm, bind_some, if_pos (hsame m hmem)]
    | cons a l =>
      rw [hb] at hm
      show (((a :: l) ++ (segs ++ rest))[l.length + 1]?).bind _ = _
      rw [show ((a :: l) ++ (segs ++ rest))[l.length + 1]? = some m from hm, bind_some, if_pos (hsame m hmem)]
      rfl
  | succ i ih =>
    obtain ⟨m, hmem, hm⟩ := getElem?_segment before rest hi
    rw [← add_assoc] at hm ⊢
    rw [scanBack, hm, bind_some, if_pos (hsame m hmem)]
    exact ih (Nat.lt_of_succ_lt hi)

theorem scanBack_stop (hm : t[j]? = some m) (hne : same mapname m.pathname = false) :
    scanBack same mapname t j = some (j + 1) := by
  have hgo : ¬ same mapname m.pathname = true := by
    rw [hne]
    exact Bool.false_ne_true
  cases j with
  | zero | succ => rw [scanBack, hm, bind_some, if_neg hgo]

theorem scanBack_le (h : scanBack same mapname t j = some b) : b ≤ j + 1 := by
  induction j with
  | zero =>
    obtain ⟨m, -, hm⟩ := bind_eq_some_iff.mp h
    split at hm
    · cases hm
    · exact le_of_eq (some.inj hm).symm
  | succ j ih =>
    obtain ⟨m, -, hm⟩ := bind_eq_some_iff.mp h
    split at hm
    · exact Nat.le_succ_of_le (ih hm)
    · exact le_of_eq (some.inj hm).symm

theorem scanBack_go (hm : t[j]? = some m) (heq : same mapname m.pathname = true) (h : scanBack same mapname t j = some b) :
    b ≤ j := by
  cases j with
  | zero =>
    rw [scanBack, hm, bind_some, if_pos heq] at h
    cases h
  | succ j =>
    rw [scanBack, hm, bind_some, if_pos heq] at h
    exact scanBack_le h

/-- The sender ends at the first segment if the entry before it is one to stop at; otherwise it fails or ends at an
earlier entry. -/
theorem scanBack_cases (before rest : List Mapping) (hsame : ∀ m ∈ segs, same mapname m.pathname = true)
    (hi : i < segs.length) :
    ((∃ m ∈ before.getLast?, same mapname m.pathname = false)
        → scanBack same mapname (before ++ (segs ++ rest)) (before.length + i) = some before.length)
      ∧ (¬ (∃ m ∈ before.getLast?, same mapname m.pathname = false)
        → ∀ b, scanBack same mapname (before ++ (segs ++ rest)) (before.length + i) = some b → b < before.length) := by
  rw [scanBack_segments hsame hi]
  obtain rfl | ⟨l, m, rfl⟩ := before.eq_nil_or_concat
  · refine ⟨fun h => ?_, fun _ b hb => by cases hb⟩
    obtain ⟨m, hm, -⟩ := h
    cases hm
  · have hne : l ++ [m] ≠ [] := by simp
    have hlen : (l ++ [m]).length = l.length + 1 := length_append
    have hm : (l ++ [m] ++ (segs ++ rest))[l.length]? = some m := by
      rw [append_assoc, getElem?_append_right le_rfl, Nat.sub_self]
      rfl
    rw [concat_eq_append, if_neg hne, hlen, Nat.add_sub_cancel, getLast?_concat]
    refine ⟨fun h => ?_, fun h b hb => ?_⟩
    · obtain ⟨a, ha, hstop⟩ := h
      obtain rfl := mem_some_iff.mp ha
      exact scanBack_stop hm hstop
    · have hgo : same mapname m.pathname = true := by
        cases hs : same mapname m.pathname with
        | false => exact absurd ⟨m, rfl, hs⟩ h
        | true => rfl
      exact Nat.lt_succ_of_le (scanBack_go hm hgo hb)

theorem skipUnnamed_covered (h : o.Valid) (hv : o.Covers v) :
    ∃ i p, i < o.segments.length ∧ (o.table.findIdx? fun m => decide (m.Holds v)) = some p
      ∧ skipUnnamed o.table p = some (o.before.length + i) := by
  obtain ⟨m, hmem, hm⟩ := hv
  have hnamed : ∀ i < o.segments.length, skipUnnamed o.table (o.before.length + i) = some (o.before.length + i) := by
    intro i hi
    obtain ⟨a, ha, hget⟩ := getElem?_segment o.before o.after hi
    have hname : a.pathname ≠ [] := by
      rw [h.segment a ha]
      exact h.named
    rw [Object.table]
    cases hj : o.before.length + i with
    | zero | succ =>
      rw [hj] at hget
      rw [skipUnnamed, hget, bind_some, if_neg hname]
  obtain hseg | hanon := mem_append.mp hmem
  · obtain ⟨l, r, hlr⟩ := append_of_mem hseg
    have htable : o.table = (o.before ++ l) ++ m :: (r ++ o.after) := by
      rw [Object.table, hlr]
      simp only [append_assoc, cons_append]
    have hi : l.length < o.segments.length := by
      rw [hlr, length_append, length_cons]
      omega
    refine ⟨l.length, o.before.length + l.length, hi, ?_, hnamed _ hi⟩
    have hasc := h.ascending
    rw [htable] at hasc ⊢
    rw [findIdx?_holds hasc hm, length_append]
  · rw [Object.anonymous, mem_filter] at hanon
    obtain ⟨htake, hempty⟩ := hanon
    obtain ⟨r, hr⟩ : ∃ r, o.after = m :: r := by
      cases hafter : o.after with
      | nil =>
        rw [hafter] at htake
        cases htake
      | cons a r =>
        rw [hafter, take_succ_cons, take_zero, mem_singleton] at htake
        exact ⟨r, by rw [htake]⟩
    have htable : o.table = (o.before ++ o.segments) ++ m :: r := by
      rw [Object.table, hr, append_assoc]
    have hpos : o.segments.length = o.more.length + 1 := length_cons
    refine ⟨o.more.length, o.before.length + o.more.length + 1, by omega, ?_, ?_⟩
    · have hasc := h.ascending
      rw [htable] at hasc ⊢
      rw [findIdx?_holds hasc hm, length_append, hpos, add_assoc]
    · have hget : o.table[o.before.length + o.more.length + 1]? = some m := by
        rw [htable, getElem?_append_right (by rw [length_append]; omega), length_append, hpos,
          Nat.add_assoc, Nat.sub_self]
        rfl
      rw [skipUnnamed, hget, bind_some, if_pos (of_decide_eq_true hempty)]
      exact hnamed _ (by omega)

theorem start_lt_first (h : o.Valid) (hm : m ∈ o.before) : m.start < o.first.start := by
  have hasc := (pairwise_append.mp h.ascending).2.2 m hm o.first
    (mem_append_left _ mem_cons_self)
  have hmapped := (h.mapped m (mem_append_left _ hm)).1
  omega

theorem first_le_covered (h : o.Valid) (hv : o.Covers v) : o.first.start ≤ v := by
  obtain ⟨m, hmem, hm⟩ := hv
  have hin : m ∈ o.segments ++ o.after := by
    obtain hseg | hanon := mem_append.mp hmem
    · exact mem_append_left _ hseg
    · exact mem_append_right _ (mem_of_mem_take (mem_of_mem_filter hanon))
  have hasc := (pairwise_append.mp h.ascending).2.1
  rw [Object.segments, cons_append, pairwise_cons] at hasc
  rw [Object.segments, cons_append, mem_cons] at hin
  obtain rfl | hlater := hin
  · exact hm.1
  · have hle := hasc.1 m hlater
    have hfirst := (h.mapped o.first (mem_append_right _ mem_cons_self)).1
    have hstart := hm.1
    omega

theorem describeReg_iff (h : o.Valid) (hk : k.keeps v = false) (hv : o.Covers v) (hsame : same o.name o.name = true) :
    describeReg same k o.table v = some (o.name, v - o.first.start)
      ↔ ∃ m ∈ o.before.getLast?, same o.name m.pathname = false := by
  obtain ⟨i, p, hi, hp, hskip⟩ := skipUnnamed_covered h hv
  obtain ⟨a, ha, hget⟩ := getElem?_segment o.before o.after hi
  have hsegs : ∀ m ∈ o.segments, same o.name m.pathname = true := by
    intro m hm
    rw [h.segment m hm]
    exact hsame
  obtain ⟨hgood, hbad⟩ := scanBack_cases o.before o.after hsegs hi
  have hdescribe : describeReg same k o.table v = (scanBack same o.name o.table (o.before.length + i)).bind fun b =>
          (o.table[b]?).map fun first => (o.name, v - first.start) := by
    rw [describeReg, hk, if_neg nofun, hp]
    dsimp only
    rw [hskip, bind_some, show o.table[o.before.length + i]? = some a from hget, bind_some, h.segment a ha]
  have hfirst : o.table[o.before.length]? = some o.first := by
    rw [Object.table, getElem?_append_right le_rfl, Nat.sub_self]
    rfl
  rw [hdescribe]
  refine ⟨fun hd => ?_, fun hlead => ?_⟩
  · apply Classical.byContradiction
    intro hlead
    obtain ⟨b, hb, hd⟩ := bind_eq_some_iff.mp hd
    obtain ⟨m, hm, hd⟩ := map_eq_some_iff.mp hd
    have hlt : b < o.before.length := hbad hlead b hb
    have hmem : m ∈ o.before := by
      rw [Object.table, getElem?_append_left hlt] at hm
      exact mem_of_getElem? hm
    have hstart := start_lt_first h hmem
    have hle := first_le_covered h hv
    have hoff : v - m.start = v - o.first.start := congrArg Prod.snd hd
    omega
  · rw [show scanBack same o.name o.table (o.before.length + i) = some o.before.length from hgood hlead, bind_some,
      hfirst, map_some]

/-! ## The receiver

The first mapping that the name is found in gives the start to which the distance is added. -/

variable {off : Nat}

theorem placeReg_iff (h : o.Valid) (hsame : same o.name o.name = true) (hoff : off + o.first.start < 2 ^ 64) :
    placeReg same o.table old (o.name, off) = off + o.first.start ↔ ∀ m ∈ o.before, found same o.name m = false := by
  have hname : o.first.pathname = o.name := h.segment o.first mem_cons_self
  have hself : found same o.name o.first = true := by
    rw [found, hname, hsame, Bool.true_or]
  rw [placeReg, if_neg h.named]
  refine ⟨fun hplace => ?_, fun hnone => ?_⟩
  · intro m hm
    cases hf : found same o.name m with
    | false => rfl
    | true =>
      -- An earlier entry is taken, and its start is lower.
      obtain ⟨a, ha⟩ := isSome_iff_exists.mp (find?_isSome.mpr ⟨m, hm, hf⟩)
      have htable : o.table.find? (found same o.name) = some a := by
        rw [Object.table, find?_append, ha]
        rfl
      have hlt := start_lt_first h (mem_of_find?_eq_some ha)
      rw [htable] at hplace
      dsimp only at hplace
      omega
  · have hbefore : o.before.find? (found same o.name) = none := by
      rw [find?_eq_none]
      intro m hm
      rw [hnone m hm]
      exact Bool.false_ne_true
    have htable : o.table.find? (found same o.name) = some o.first := by
      rw [Object.table, find?_append, hbefore, Object.segments, cons_append, find?_cons_of_pos hself]
      rfl
    rw [htable]
    exact Nat.mod_eq_of_lt hoff

theorem exists_of_forall₂ {R : Mapping → Mapping → Prop} (h : Forall₂ R l r) (hm : m ∈ l) : ∃ n ∈ r, R m n := by
  induction h with
  | nil => cases hm
  | cons hab _ ih =>
    obtain rfl | hm := mem_cons.mp hm
    · exact ⟨_, mem_cons_self, hab⟩
    · obtain ⟨n, hn, hmn⟩ := ih hm
      exact ⟨n, mem_cons_of_mem _ hn, hmn⟩

theorem Object.SameLayout.offset_lt (hs : o.SameLayout o') (h : o.Valid) (h' : o'.Valid) (hv : o.Covers v) :
    v - o.first.start + o'.first.start < 2 ^ 64 := by
  have hle := first_le_covered h hv
  obtain ⟨m, hmem, hm⟩ := hv
  obtain ⟨m', hmem', -, hstop⟩ := exists_of_forall₂ hs.distances hmem
  have hin : m' ∈ o'.table := by
    apply mem_append_right
    obtain hseg | hanon := mem_append.mp hmem'
    · exact mem_append_left _ hseg
    · exact mem_append_right _ (mem_of_mem_take (mem_of_mem_filter hanon))
  have hbound := (h'.mapped m' hin).2
  have hlt := hm.2
  omega

theorem sameByParep_eq_false {a b : Name} (ha : a.Text) (hb : b.Text) (hne : a ≠ []) :
    sameByParep a b = false ↔ ¬ (b ≠ [] ∧ b <+: a) := by
  rw [sameByParep, decide_eq_false_iff_not, parepMpiStrcmp_eq_zero ha hb]
  exact not_congr ⟨fun h => ⟨fun hb => hne (h.2 hb), h.1⟩, fun h => ⟨h.2, fun hb => absurd hb h.1⟩⟩

theorem found_eq_false (h : same m.pathname mapname = false ↔ P) : found same mapname m = false
      ↔ P ∧ ¬ (parepMpiStrstr m.pathname ibShmemKvs = true ∧ parepMpiStrstr mapname ibShmemKvs = true) := by
  rw [found, Bool.or_eq_false_iff, h, ← Bool.and_eq_true, Bool.not_eq_true]

theorem Object.Valid.name_text (h : o.Valid) : o.name.Text := by
  rw [← h.segment o.first mem_cons_self]
  exact h.text o.first (mem_append_right _ mem_cons_self)

theorem writeReg_iff (h : o.Valid) (hk : k.keeps v = false) (hv : o.Covers v) :
    writeReg k o.table v = some (o.name, v - o.first.start) ↔ o.LeadsOff := by
  rw [writeReg, describeReg_iff h hk hv (decide_eq_true (parepMpiStrcmp_self h.name_text)), Object.LeadsOff]
  refine exists_congr fun m => and_congr_right fun hm => ?_
  have hmem : m ∈ o.table := mem_append_left _ (mem_of_getLast? hm)
  exact sameByParep_eq_false h.name_text (h.text m hmem) h.named

theorem sendReg_iff (h : o.Valid) (hk : k.keeps v = false) (hv : o.Covers v) :
    sendReg k o.table v = some (o.name, v - o.first.start) ↔ o.before ≠ [] := by
  rw [sendReg, describeReg_iff h hk hv (decide_eq_true rfl)]
  refine ⟨fun hex => ?_, fun hne => ?_⟩
  · obtain ⟨m, hm, -⟩ := hex
    intro hnil
    rw [hnil] at hm
    cases hm
  · refine ⟨o.before.getLast hne, getLast?_eq_some_getLast hne, decide_eq_false fun heq => ?_⟩
    exact h.other _ (mem_append_left _ (getLast_mem hne)) heq.symm

theorem readReg_iff (h : o.Valid) (hoff : off + o.first.start < 2 ^ 64) :
    readReg o.table old (o.name, off) = off + o.first.start ↔ o.FirstOfName ∧ o.FirstKvs := by
  rw [readReg, placeReg_iff h (decide_eq_true (parepMpiStrcmp_self h.name_text)) hoff, Object.FirstOfName,
    Object.FirstKvs, ← forall₂_and]
  refine forall₂_congr fun m hm => found_eq_false ?_
  rw [sameByParep, decide_eq_false_iff_not, parepMpiStrcmp_eq_zero (h.text m (mem_append_left _ hm)) h.name_text]
  exact not_congr (and_iff_left fun hnil => absurd hnil h.named)

theorem recvReg_iff (h : o.Valid) (hoff : off + o.first.start < 2 ^ 64) :
    recvReg o.table old (o.name, off) = off + o.first.start ↔ o.FirstKvs := by
  rw [recvReg, placeReg_iff h (decide_eq_true rfl) hoff, Object.FirstKvs]
  refine forall₂_congr fun m hm => ?_
  have hother : sameByLibc m.pathname o.name = false ↔ True :=
    iff_of_true (decide_eq_false (h.other m (mem_append_left _ hm))) trivial
  rw [found_eq_false hother, true_and]

/-- A register that points into a file comes out at its place in the other process, with no entry taken from outside
the tables, exactly if the walk back ends at the file and the look-up does not end before it; all that lies at the same
place in both processes stays as it is. -/
theorem registers_relocated (k : Common) (o o' : Object) (old : Nat) (h : o.Valid) (h' : o'.Valid)
    (hs : o.SameLayout o') :
    (∀ v, k.keeps v = true → (writeReg k o.table v).map (readReg o'.table old) = some v
      ∧ (sendReg k o.table v).map (recvReg o'.table old) = some v)
    ∧ ∀ v, k.keeps v = false → o.Covers v →
      (Relocated (writeReg k o.table) (readReg o'.table old) o o' v ↔ o.LeadsOff ∧ o'.FirstOfName ∧ o'.FirstKvs)
      ∧ (Relocated (sendReg k o.table) (recvReg o'.table old) o o' v ↔ o.before ≠ [] ∧ o'.FirstKvs) := by
  refine ⟨fun v hk => ?_, fun v hk hv => ?_⟩
  · rw [writeReg, sendReg, describeReg, describeReg, if_pos hk, if_pos hk]
    exact ⟨rfl, rfl⟩
  · have hoff := hs.offset_lt h h' hv
    rw [Relocated, Relocated, writeReg_iff h hk hv, sendReg_iff h hk hv, hs.name, readReg_iff h' hoff,
      recvReg_iff h' hoff]
    exact ⟨Iff.rfl, Iff.rfl⟩

/-- The program's own mapping, a file of two segments, and its data without a name after them. -/
def libraryAt (base : Nat) (lead name : Name) : Object where
  name := name
  before := [⟨1, 4, lead⟩]
  first := ⟨base, base + 4, name⟩
  more := [⟨base + 4, base + 8, name⟩]
  after := [⟨base + 8, base + 10, []⟩]

def lowMemory : Common := ⟨3, 100, 20, 200, 220⟩

theorem library_valid {base : Nat} {lead name : Name} (hbase : 4 ≤ base) (hmax : base + 10 ≤ 2 ^ 64) (hne : name ≠ [])
    (hlead : lead ≠ name) (hl : lead.Text) (hn : name.Text) : (libraryAt base lead name).Valid where
  named := hne
  segment := by simp [Object.segments, libraryAt]
  other := by simp [libraryAt, hlead, hne.symm]
  ascending := by simp [Object.table, Object.segments, libraryAt]; omega
  mapped := by simp [Object.table, Object.segments, libraryAt]; omega
  text := by
    simp only [Object.table, Object.segments, libraryAt, forall_mem_append, forall_mem_cons]
    exact ⟨⟨hl, by simp⟩, ⟨hn, hn, by simp⟩, by decide, by simp⟩

theorem library_sameLayout (b b' : Nat) (lead lead' name : Name) :
    (libraryAt b lead name).SameLayout (libraryAt b' lead' name) where
  name := rfl
  distances := by simp [Object.segments, Object.anonymous, libraryAt]

/-- A pointer into the data after a library. -/
theorem library_relocated :
    Relocated (writeReg lowMemory (libraryAt 40 [47, 98] [47, 99]).table) (readReg (libraryAt 60 [47, 98] [47, 99]).table 0)
      (libraryAt 40 [47, 98] [47, 99]) (libraryAt 60 [47, 98] [47, 99]) 49 := by
  have hvalid : ∀ b, 4 ≤ b → b + 10 ≤ 2 ^ 64 → (libraryAt b [47, 98] [47, 99]).Valid := fun b hb hmax =>
    library_valid hb hmax (by decide) (by decide) (by decide) (by decide)
  have hall := (registers_relocated lowMemory _ _ 0 (hvalid 40 (by decide) (by decide)) (hvalid 60 (by decide) (by decide))
    (library_sameLayout 40 60 [47, 98] [47, 98] [47, 99])).2 49 (by decide) ⟨⟨48, 50, []⟩, by decide, by decide⟩
  refine hall.1.mpr ⟨⟨⟨1, 4, [47, 98]⟩, rfl, by decide⟩, ?_, ?_⟩
  · intro m hm
    obtain rfl := mem_singleton.mp hm
    decide
  · intro m hm
    obtain rfl := mem_singleton.mp hm
    decide

/-- Where the program's name begins the library's name, a checkpoint counts from the program; and a file that comes first
in the table makes both walk out of it. -/
theorem library_not_relocated : ((libraryAt 40 [47, 98] [47, 98, 99]).Valid ∧ (libraryAt 60 [47, 98] [47, 98, 99]).Valid
        ∧ (libraryAt 40 [47, 98] [47, 98, 99]).SameLayout (libraryAt 60 [47, 98] [47, 98, 99])
        ∧ (libraryAt 40 [47, 98] [47, 98, 99]).Covers 49 ∧ lowMemory.keeps 49 = false
        ∧ (writeReg lowMemory (libraryAt 40 [47, 98] [47, 98, 99]).table 49).map
            (readReg (libraryAt 60 [47, 98] [47, 98, 99]).table 0) ≠ some (49 - 40 + 60))
      ∧ writeReg lowMemory [⟨40, 48, [47, 99]⟩] 45 = none ∧ sendReg lowMemory [⟨40, 48, [47, 99]⟩] 45 = none := by
  have hvalid : ∀ b, 4 ≤ b → b + 10 ≤ 2 ^ 64 → (libraryAt b [47, 98] [47, 98, 99]).Valid := fun b hb hmax =>
    library_valid hb hmax (by decide) (by decide) (by decide) (by decide)
  refine ⟨⟨hvalid 40 (by decide) (by decide), hvalid 60 (by decide) (by decide),
    library_sameLayout 40 60 [47, 98] [47, 98] [47, 98, 99], ⟨⟨48, 50, []⟩, by decide, by decide⟩, by decide, by decide⟩,
    by decide, by decide⟩

end Relocate

end ParepMpi
