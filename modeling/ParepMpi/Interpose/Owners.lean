import ParepMpi.Interpose.Dispatch

/-!
# Blocks go back to where they came from

A block of the heap lies inside of `parep_mpi_ext_heap_size`, and one of a library outside. So `free` and `realloc`
find the owner by the address, as long as the flags at the time of the call do not send a block elsewhere: the
condition on the runs names the calls for which they do.
-/

namespace ParepMpi

open Heap List Option Function

namespace Session

variable {t t' : Session} {h : Heap} {b : Alloc} {mremap : Nat → Bool} {n p : Nat}

/-- A sound session whose heap has its size in `parep_mpi_ext_heap_size`. -/
def Extended (t : Session) : Prop := t.Sound ∧ ∀ h, t.heap = some h → Spans h.start h

theorem Extended.opened (ht : t.Extended) (hheap : t.heap = some h) :
    ∃ g, Rest h g ∅ ∧ Live h g t.live ∧ Spans h.start h := by
  obtain ⟨⟨h', g, hheap', hr, hl⟩, hspans⟩ := ht
  obtain rfl := some.inj (hheap.symm.trans hheap')
  exact ⟨g, hr, hl, hspans h hheap⟩

theorem Extended.inside (ht : t.Extended) (hheap : t.heap = some h) (hb : b ∈ t.live) :
    h.start ≤ b.ptr ∧ b.ptr < h.start + h.extHeapSize ∧ h.start + h.extHeapSize ≤ h.mapEnd := by
  obtain ⟨g, hr, hl, hspans⟩ := ht.opened hheap
  obtain ⟨x, hx, hh⟩ := hl.held b hb
  have hbounds := hr.shape.bounds hx.1
  have hin := hh.inside
  have hspan := hspans.2
  have hmapped := hr.shape.mapped
  omega

theorem Extended.of_invariant {live : List Alloc} (hinv : h.Invariant live) (hspans : Spans h.start h) :
    Extended ⟨some h, live⟩ := by
  obtain ⟨g, hr, hl⟩ := hinv
  refine ⟨⟨h, g, rfl, hr, hl⟩, fun h' hheap => ?_⟩
  obtain rfl := some.inj hheap
  exact hspans

theorem granted_some {q : Nat} : t.granted n (some (h, q)) = ⟨some h, if q = 0 then t.live else ⟨q, n⟩ :: t.live⟩ := rfl

theorem spans_granted {a : Nat} {result : Option (Heap × Nat)} (hresult : ∀ h q, result = some (h, q) → Spans a h) :
    ∀ h, (t.granted n result).heap = some h → Spans h.start h := by
  intro h hheap
  obtain ⟨⟨h', q⟩, hsome, rfl⟩ := map_eq_some_iff.mp hheap
  exact (hresult h' q hsome).self

section

variable (ht : t.Extended)

include ht

theorem Extended.mallocCall (hn : n < 2 ^ 64 - 32) (hrun : t.mallocCall mremap n = some (t', p)) : t'.Extended := by
  obtain ⟨h, hheap, hrun⟩ := bind_eq_some_iff.mp hrun
  rw [if_pos (by omega)] at hrun
  obtain ⟨rfl, -⟩ := Prod.mk.inj (some.inj hrun)
  have hsafe : t.Safe (.malloc mremap n) := by
    rw [Safe, hheap]
    exact hn
  have hstep : t.step (.malloc mremap n) = some (t.granted n (h.malloc mremap n)) := by
    rw [step, hheap]
    exact if_pos (by omega)
  exact ⟨ht.1.step hsafe hstep, spans_granted fun _ _ => (ht.2 h hheap).malloc _⟩

theorem Extended.memalignCall {alignment : Nat} (honce : ValidAlignment alignment → 0 < n → MovedOnce alignment n)
    (hrun : t.memalignCall mremap alignment n = some (t', p)) : t'.Extended := by
  obtain ⟨h, hheap, hrun⟩ := bind_eq_some_iff.mp hrun
  split at hrun
  · rename_i hlt
    obtain ⟨rfl, -⟩ := Prod.mk.inj (some.inj hrun)
    have hsafe : t.Safe (.memalign mremap alignment n) := by
      rw [Safe, hheap]
      exact honce
    refine ⟨ht.1.step (e := .memalign mremap alignment n) hsafe ?_, spans_granted (a := h.start) fun h' q hresult => ?_⟩
    · rw [step, hheap]
      exact if_pos hlt
    · obtain ⟨⟨h₁, r⟩, hmemalign, heq⟩ := map_eq_some_iff.mp hresult
      obtain ⟨rfl, -⟩ := Prod.mk.inj heq
      exact (ht.2 h hheap).posixMemalign _ hmemalign
  · cases hrun

theorem Extended.callocCall {nmemb size : Nat} (hheap : t.heap = some h)
    (hcond : nmemb * size % 2 ^ 64 = 0 ∨ nmemb * size < 2 ^ 64 - 32 ∧ Granted mremap h (nmemb * size))
    (hrun : t.callocCall mremap nmemb size = some (t', p)) : t'.Extended := by
  obtain ⟨g, hr, hl, hspans⟩ := ht.opened hheap
  rw [Session.callocCall, hheap, bind_some] at hrun
  split at hrun
  · obtain ⟨rfl, -⟩ := Prod.mk.inj (some.inj hrun)
    obtain ⟨h₁, q, hcalloc, hcase⟩ := hr.calloc_contract hl hcond
    have hs₁ := (hspans.calloc _ hcalloc).self
    rw [hcalloc, granted_some]
    obtain ⟨hq, hinv⟩ | ⟨hq, hinv, -⟩ := hcase
    · rw [if_pos hq]
      exact Extended.of_invariant hinv hs₁
    · rw [if_neg hq]
      exact Extended.of_invariant hinv hs₁
  · cases hrun

theorem Extended.strdupCall {str : List Nat} (hlen : str.length + 1 < 2 ^ 64 - 32)
    (hrun : t.strdupCall mremap str = some (t', p)) : t'.Extended := by
  obtain ⟨h, hheap, hrun⟩ := bind_eq_some_iff.mp hrun
  obtain ⟨g, hr, hl, hspans⟩ := ht.opened hheap
  rw [if_pos (by omega)] at hrun
  obtain ⟨rfl, -⟩ := Prod.mk.inj (some.inj hrun)
  obtain ⟨h₁, g₁, q, hmalloc, hcase⟩ := hr.malloc mremap (Nat.succ_pos str.length) hlen
  have hs₁ := hspans.malloc _ hmalloc
  rw [Heap.strdup, hmalloc]
  dsimp only [bind_eq_bind, bind_some]
  obtain ⟨hq, hd⟩ | ⟨hq, x, ha, -⟩ := hcase
  · rw [if_pos hq, granted_some, if_pos rfl]
    exact Extended.of_invariant ⟨g₁, hd.rest, hl.keep hd.kept⟩ hs₁.self
  · have hl₁ : Live h₁ g₁ (⟨q, str.length + 1⟩ :: t.live) := hl.alloc ha
    have hacc := (hl₁.accessible (e := ⟨q, str.length + 1⟩) ha.rest mem_cons_self le_rfl).1
    obtain ⟨hr₂, hl₂⟩ := hl₁.overwrite mem_cons_self ha.rest
      (overwritten_fill h₁ (str.length + 1) (fun o => (str ++ [0]).getD o 0 % 256) ha.holds.2.2.1) le_rfl
      le_rfl
    rw [if_neg hq, if_pos hacc, granted_some, if_neg hq]
    exact Extended.of_invariant ⟨g₁, hr₂, hl₂⟩ hs₁.fill.self

theorem Extended.freeCall (hheap : t.heap = some h) (hb : b ∈ t.live) (hhigh : h.HighStart)
    (hrun : t.freeCall b = some (t', p)) : t'.Extended := by
  obtain ⟨g, hr, hl, hspans⟩ := ht.opened hheap
  rw [Session.freeCall, hheap, bind_some] at hrun
  obtain ⟨rfl, -⟩ := Prod.mk.inj (some.inj hrun)
  obtain ⟨x, hx, hh⟩ := hl.held b hb
  obtain ⟨h₁, g₁, hfree, hr₁, hk, -⟩ := hr.free hx hh hhigh
  rw [hfree]
  exact Extended.of_invariant ⟨g₁, hr₁, hl.release hb hx hh hk hr.shape⟩ (hspans.free _ hfree).self

end

/-- The heap has a new block for a `realloc`, which does not read beyond the mapping. -/
def Movable (mremap : Nat → Bool) (h : Heap) (b : Alloc) (n : Nat) : Prop :=
  n < 2 ^ 64 - 32 ∧ match h.malloc mremap n with
    | some (h₁, q) => q ≠ 0 ∧ b.ptr + n ≤ h₁.mapEnd ∧ h₁.HighStart
    | none => False

instance (mremap : Nat → Bool) (h : Heap) (b : Alloc) (n : Nat) : Decidable (Movable mremap h b n) :=
  match hm : h.malloc mremap n with
  | some (h₁, q) => decidable_of_iff (n < 2 ^ 64 - 32 ∧ q ≠ 0 ∧ b.ptr + n ≤ h₁.mapEnd ∧ h₁.HighStart)
      (by rw [Movable, hm])
  | none => isFalse (by rw [Movable, hm]; exact fun hfalse => hfalse.2)

theorem Extended.reallocCall (ht : t.Extended) (hheap : t.heap = some h) (hb : b ∈ t.live)
    (hcond : if n = 0 then h.HighStart else Movable mremap h b n)
    (hrun : t.reallocCall mremap b n = some (t', p)) :
    t'.Extended ∧ (p = 0 → n = 0) ∧ (p ≠ 0 → ⟨p, n⟩ ∈ t'.live ∧
      ∃ h', t'.heap = some h' ∧ ∀ o < min b.len n, h'.window p o = h.window b.ptr o) := by
  obtain ⟨g, hr, hl, hspans⟩ := ht.opened hheap
  have hptr := hl.ptr_ne_zero hb
  rw [Session.reallocCall, hheap, bind_some] at hrun
  obtain ⟨-, hrun⟩ := ite_none_right_eq_some.mp hrun
  have heq := some.inj hrun
  by_cases hn : n = 0
  · rw [if_pos hn] at hcond
    obtain ⟨x, hx, hh⟩ := hl.held b hb
    obtain ⟨h₁, g₁, hfree, hr₁, hk, -⟩ := hr.free hx hh hcond
    have hrealloc : h.realloc mremap b.ptr n = some (h₁, 0, []) := by
      rw [Heap.realloc, if_neg hptr, if_pos hn, hfree]
      rfl
    rw [hrealloc] at heq
    obtain ⟨rfl, rfl⟩ := Prod.mk.inj heq
    refine ⟨?_, fun _ => hn, absurd rfl⟩
    exact Extended.of_invariant ⟨g₁, hr₁, hl.release hb hx hh hk hr.shape⟩ (hspans.free _ hfree).self
  · rw [if_neg hn] at hcond
    obtain ⟨hlt, hcond⟩ := hcond
    split at hcond
    · rename_i h₁ q hmalloc
      obtain ⟨hq, hreach, hhigh⟩ := hcond
      obtain ⟨h₂, h₃, hcopy, hfree, hrealloc, hinv, hbytes⟩ := hr.realloc_spec hl hb (Nat.pos_of_ne_zero hn) hlt hmalloc
        hq hreach hhigh
      rw [hrealloc] at heq
      obtain ⟨rfl, rfl⟩ := Prod.mk.inj heq
      rw [if_neg hq]
      refine ⟨?_, fun hp => absurd hp hq, fun _ => ⟨mem_cons_self, h₃, rfl, hbytes⟩⟩
      exact Extended.of_invariant hinv (((hspans.malloc _ hmalloc).memcpy _ hcopy).free _ hfree).self
    · exact hcond.elim

end Session

namespace Interposer

open Session

variable {s s' : Interposer} {t : Session} {h : Heap} {b : Alloc} {l : Library} {ans : Answer} {n : Nat} {main : Bool}

def OnHeap (s : Interposer) (P : Heap → Prop) : Prop :=
  match s.heap with
  | some h => P h
  | none => False

instance (s : Interposer) (P : Heap → Prop) [DecidablePred P] : Decidable (s.OnHeap P) :=
  match hs : s.heap with
  | some h => decidable_of_iff (P h) (by rw [OnHeap, hs])
  | none => isFalse (by rw [OnHeap, hs]; exact id)

instance (mremap : Nat → Bool) (h : Heap) (n : Nat) : Decidable (Granted mremap h n) :=
  decidable_of_iff ((h.malloc mremap n).any fun r => r.2 ≠ 0) (by
    rw [Option.any_eq_true]
    constructor
    · intro hany
      obtain ⟨⟨h', q⟩, hrun, hq⟩ := hany
      exact ⟨h', q, hrun, of_decide_eq_true hq⟩
    · intro hgrant
      obtain ⟨h', q, hrun, hq⟩ := hgrant
      exact ⟨(h', q), hrun, decide_eq_true hq⟩)

/-- The calls that send their blocks back and that the heap can bear. -/
def Allowed (s : Interposer) : InterposerEvent → Prop
  | .expand mremap sz => s.OnHeap fun h => h.Safe (.expand mremap sz)
  | .malloc main n _ => s.toLibrary main = false → s.OnHeap fun _ => n < 2 ^ 64 - 32
  | .calloc main nmemb size ans => s.toLibrary main = false → s.OnHeap fun h =>
    nmemb * size % 2 ^ 64 = 0 ∨ nmemb * size < 2 ^ 64 - 32 ∧ Granted ans.mremap h (nmemb * size)
  | .strdup main str _ => s.toLibrary main = false → s.OnHeap fun _ => str.length + 1 < 2 ^ 64 - 32
  | .memalign main alignment n _ => s.toLibrary main = false → s.OnHeap fun _ =>
    ValidAlignment alignment → 0 < n → MovedOnce alignment n
  | .realloc main (some (.parep, b)) n ans => (main = true ∧ s.internalCall = false) ∧ s.OnHeap fun h =>
    if n = 0 then h.HighStart else Movable ans.mremap h b n
  | .realloc _ (some (.library .libc, _)) _ _ => s.extLoaded = false
  | .realloc _ (some (.buffer, _)) _ _ => False
  | .free main .parep _ =>
    s.completed = false ∧ (s.initialized = true ∨ main = true ∧ s.internalCall = false) ∧ s.OnHeap HighStart
  | .free _ (.library .libc) _ => s.completed = false ∧ s.extLoaded = false
  | .free _ (.library .ext) _ => s.completed = false
  | .free _ .buffer _ => False
  | _ => True

instance (s : Interposer) : (e : InterposerEvent) → Decidable (s.Allowed e)
  | .enter | .leave | .loadExt | .setupHeap _ _ | .finishInit | .complete | .write _ _ | .writeOutside _
  | .nestedCalloc _ _ | .realloc _ none _ _ | .realloc _ (some (.library .ext, _)) _ _ => isTrue trivial
  | .expand _ _ => inferInstanceAs (Decidable (s.OnHeap _))
  | .malloc _ _ _ | .calloc _ _ _ _ | .strdup _ _ _ | .memalign _ _ _ _ => inferInstanceAs (Decidable (_ → s.OnHeap _))
  | .realloc _ (some (.parep, _)) _ _ => inferInstanceAs (Decidable (_ ∧ s.OnHeap _))
  | .realloc _ (some (.library .libc, _)) _ _ | .free _ (.library .ext) _ => inferInstanceAs (Decidable (_ = _))
  | .realloc _ (some (.buffer, _)) _ _ | .free _ .buffer _ => isFalse id
  | .free _ .parep _ => inferInstanceAs (Decidable (_ ∧ _ ∧ s.OnHeap _))
  | .free _ (.library .libc) _ => instDecidableAnd

theorem apart_iff : s.Apart ↔ ∀ l, ∀ b ∈ s.lent l, s.Clear b.ptr b.len := by
  constructor
  · intro h l
    cases l with
    | libc => exact h.1
    | ext => exact h.2
  · exact fun h => ⟨h .libc, h .ext⟩

structure Inv (s : Interposer) : Prop where
  heap : ∀ t, s.session = some t → t.Extended
  apart : s.Apart
  ext : s.extLoaded = false → s.lent .ext = []
  intact : s.broken = false

variable {P : Heap → Prop} {call : Session → Option (Session × Nat)} {a : Allocator} {e : InterposerEvent}

theorem OnHeap.session (hon : s.OnHeap P) : ∃ t h, s.session = some t ∧ t.heap = some h ∧ P h := by
  unfold OnHeap at hon
  split at hon
  · rename_i h hheap
    obtain ⟨t, hsession, hh⟩ := bind_eq_some_iff.mp hheap
    exact ⟨t, h, hsession, hh, hon⟩
  · exact hon.elim

theorem Inv.heapCall (hs : Inv s) (hsession : s.session = some t)
    (hcall : ∀ t' q, call t = some (t', q) → t'.Extended) (hstep : s.heapCall call = some s') : Inv s' := by
  rw [Interposer.heapCall, hsession] at hstep
  obtain ⟨⟨t', q⟩, hrun, hstep⟩ := bind_eq_some_iff.mp hstep
  obtain ⟨hapart, rfl⟩ := ite_some_none_eq_some.mp hstep
  refine ⟨fun t'' ht'' => ?_, hapart, hs.ext, hs.intact⟩
  exact some.inj ht'' ▸ hcall t' q hrun

theorem Inv.lent {blocks : List Alloc} {bytes : Nat → Nat} {ret : Nat} (hs : Inv s)
    (hclear : ∀ b ∈ blocks, s.Clear b.ptr b.len) (hext : l = .ext → s.extLoaded = false → blocks = []) :
    Inv { s with lent := update s.lent l blocks, bytes := bytes, ret := ret } := by
  refine ⟨hs.heap, apart_iff.mpr fun l' b hb => ?_, fun hloaded => ?_, hs.intact⟩
  · change b ∈ update s.lent l blocks l' at hb
    by_cases hl : l' = l
    · rw [hl, update_self] at hb
      exact hclear b hb
    · rw [update_of_ne hl] at hb
      exact apart_iff.mp hs.apart l' b hb
  · change update s.lent l blocks .ext = []
    by_cases hl : l = .ext
    · rw [hl, update_self]
      exact hext hl hloaded
    · rw [update_of_ne (Ne.symm hl)]
      exact hs.ext hloaded

theorem Inv.lend (hs : Inv s) (hext : l = .ext → s.extLoaded = true) (hstep : s.lend l n ans = some s') : Inv s' := by
  unfold Interposer.lend at hstep
  split at hstep
  · obtain rfl := some.inj hstep
    exact { hs with }
  · obtain ⟨hclear, rfl⟩ := ite_some_none_eq_some.mp hstep
    refine hs.lent (fun b hb => ?_) fun hl hloaded => absurd (hloaded.symm.trans (hext hl)) Bool.false_ne_true
    obtain rfl | hb := mem_cons.mp hb
    · exact hclear
    · exact apart_iff.mp hs.apart l b hb

theorem Inv.giveBack (hs : Inv s) : Inv (s.giveBack l b) := by
  refine hs.lent (fun b hb => apart_iff.mp hs.apart l b (mem_of_mem_erase hb)) fun hl hloaded => ?_
  rw [hl, hs.ext hloaded]
  rfl

theorem Inv.relend (hs : Inv s) (hb : b ∈ s.lent l) (hstep : s.relend l b n ans = some s') : Inv s' := by
  unfold Interposer.relend at hstep
  split at hstep
  · obtain rfl := some.inj hstep
    split
    · exact hs.giveBack
    · exact { hs with }
  · obtain ⟨hanswer, rfl⟩ := ite_some_none_eq_some.mp hstep
    refine hs.lent (fun b' hb' => ?_) fun hl hloaded => ?_
    · obtain rfl | hb' := mem_cons.mp hb'
      · exact hanswer.1
      · exact apart_iff.mp hs.apart l b' (mem_of_mem_erase hb')
    · rw [hl, hs.ext hloaded] at hb
      exact absurd hb not_mem_nil

/-! ## Where a block goes

`free` and `realloc` have only the address of a block and the state of the process to go by. -/

theorem Inv.outside (hs : Inv s) (hb : b ∈ s.lent l) : s.outsideHeap b.ptr = true := by
  have hclear := apart_iff.mp hs.apart l b hb
  unfold outsideHeap extHeap
  unfold Clear at hclear
  split
  · rename_i h hheap
    obtain ⟨t, hsession, hh⟩ := bind_eq_some_iff.mp hheap
    obtain ⟨g, hr, -, hspans⟩ := (hs.heap t hsession).opened hh
    have hspan := hspans.2
    have hmapped := hr.shape.mapped
    rw [hheap] at hclear
    rw [Bool.or_eq_true, decide_eq_true_eq, decide_eq_true_eq]
    omega
  · simp

theorem Inv.outside_null (hs : Inv s) : s.outsideHeap 0 = true := by
  unfold outsideHeap extHeap
  split
  · rename_i h hheap
    obtain ⟨t, hsession, hh⟩ := bind_eq_some_iff.mp hheap
    obtain ⟨g, hr, -⟩ := (hs.heap t hsession).opened hh
    rw [Bool.or_eq_true]
    exact .inl (decide_eq_true hr.shape.pos)
  · simp

theorem Inv.inside (hs : Inv s) (hsession : s.session = some t) (hheap : t.heap = some h) (hb : b ∈ t.live) :
    s.outsideHeap b.ptr = false := by
  obtain ⟨hlo, hhi, -⟩ := (hs.heap t hsession).inside hheap hb
  have hs' : s.heap = some h := by
    rw [Interposer.heap, hsession]
    exact hheap
  unfold outsideHeap extHeap
  rw [hs', Bool.or_eq_false_iff, decide_eq_false_iff_not, decide_eq_false_iff_not]
  exact ⟨not_lt.mpr hlo, not_le.mpr hhi⟩

theorem Inv.library_eq (hs : Inv s) (hb : b ∈ s.lent l) (hlibc : l = .libc → s.extLoaded = false) : s.library = l := by
  unfold library
  cases l with
  | libc => rw [if_neg (by rw [hlibc rfl]; decide)]
  | ext =>
    cases hloaded : s.extLoaded with
    | true => rfl
    | false =>
      rw [hs.ext hloaded] at hb
      exact absurd hb not_mem_nil

theorem Inv.freeTarget_eq (hs : Inv s) (hallowed : s.Allowed (.free main a b)) (hb : b ∈ s.live a) :
    s.freeTarget main b.ptr = some a := by
  cases a with
  | library l =>
    have hlib : s.completed = false ∧ (l = .libc → s.extLoaded = false) := by
      cases l with
      | libc => exact ⟨hallowed.1, fun _ => hallowed.2⟩
      | ext => exact ⟨hallowed, fun hfalse => absurd hfalse (by decide)⟩
    unfold freeTarget
    rw [hs.outside hb, hs.library_eq hb hlib.2, hlib.1]
    cases s.initialized with
    | false => simp [useCommonHeap]
    | true => simp [useCommonHeap]
  | parep =>
    obtain ⟨hcompleted, hcaller, hon⟩ := hallowed
    obtain ⟨t, h, hsession, hheap, -⟩ := hon.session
    rw [live, hsession] at hb
    unfold freeTarget
    rw [hs.inside hsession hheap hb, hcompleted]
    obtain hinit | ⟨hmain, hinternal⟩ := hcaller
    · rw [hinit]
      simp
    · rw [hmain, hinternal]
      simp
  | buffer => exact hallowed.elim

theorem Inv.reallocTarget_eq (hs : Inv s) (hallowed : s.Allowed (.realloc main (some (a, b)) n ans))
    (hb : b ∈ s.live a) : s.reallocTarget main b.ptr = a := by
  cases a with
  | library l =>
    have hlibc : l = .libc → s.extLoaded = false := by
      intro hl
      subst hl
      exact hallowed
    unfold reallocTarget
    rw [hs.outside hb, hs.library_eq hb hlibc]
    simp [useCommonHeap]
  | parep =>
    obtain ⟨⟨hmain, hinternal⟩, hon⟩ := hallowed
    obtain ⟨t, h, hsession, hheap, -⟩ := hon.session
    rw [live, hsession] at hb
    unfold reallocTarget
    rw [hs.inside hsession hheap hb, hmain, hinternal]
    simp
  | buffer => exact hallowed.elim

/-- A `realloc` without a new block has freed the old one, if nothing was asked for, or kept it. -/
def Resized (s s' : Interposer) (a : Allocator) (b : Alloc) (n : Nat) : Prop :=
  (s'.ret = 0 → n = 0 ∨ b ∈ s'.live a ∧ ∀ o < b.len, s'.byteAt a b.ptr o = s.byteAt a b.ptr o) ∧
    (s'.ret ≠ 0 → ⟨s'.ret, n⟩ ∈ s'.live a ∧ ∀ o < min b.len n, s'.byteAt a s'.ret o = s.byteAt a b.ptr o)

theorem resized_relend (hb : b ∈ s.lent l) (hstep : s.relend l b n ans = some s') : Resized s s' (.library l) b n := by
  unfold Interposer.relend at hstep
  split at hstep
  · obtain rfl := some.inj hstep
    split
    · rename_i hn
      exact ⟨fun _ => .inl hn, absurd rfl⟩
    · exact ⟨fun _ => .inr ⟨hb, fun _ _ => rfl⟩, absurd rfl⟩
  · rename_i hptr
    obtain ⟨hanswer, rfl⟩ := ite_some_none_eq_some.mp hstep
    refine ⟨fun hret => absurd hret hptr, fun _ => ⟨?_, hanswer.2⟩⟩
    show _ ∈ update s.lent l _ l
    rw [update_self]
    exact mem_cons_self

theorem resized_heapCall (hs : Inv s) (hsession : s.session = some t) (hheap : t.heap = some h) (hb : b ∈ t.live)
    (hcond : if n = 0 then h.HighStart else Movable ans.mremap h b n)
    (hstep : s.heapCall (fun t => t.reallocCall ans.mremap b n) = some s') : Inv s' ∧ Resized s s' .parep b n := by
  refine ⟨hs.heapCall hsession (fun t' q hcall => ((hs.heap t hsession).reallocCall hheap hb hcond hcall).1) hstep, ?_⟩
  rw [Interposer.heapCall, hsession] at hstep
  obtain ⟨⟨t', q⟩, hcall, hstep⟩ := bind_eq_some_iff.mp hstep
  obtain ⟨-, hnull, hnew⟩ := (hs.heap t hsession).reallocCall hheap hb hcond hcall
  obtain ⟨-, rfl⟩ := ite_some_none_eq_some.mp hstep
  refine ⟨fun hret => .inl (hnull hret), fun hret => ?_⟩
  obtain ⟨hmem, h', hheap', hbytes⟩ := hnew hret
  refine ⟨hmem, fun o ho => ?_⟩
  simp only [byteAt, Interposer.heap, bind_some, hheap', hsession, hheap]
  exact hbytes o ho

/-- What becomes of a live block that is freed or moved: it goes to its allocator, and what is moved keeps its bytes. -/
def Released (s : Interposer) : InterposerEvent → Prop
  | .free main a b => b ∈ s.live a → s.freeTarget main b.ptr = some a
  | .realloc main (some (a, b)) n ans => b ∈ s.live a →
      s.reallocTarget main b.ptr = a ∧ ∀ s', s.step (.realloc main (some (a, b)) n ans) = some s' → Resized s s' a b n
  | _ => True

theorem Inv.realloc (hs : Inv s) (hallowed : s.Allowed (.realloc main (some (a, b)) n ans))
    (hb : b ∈ s.live a) (hstep : s.reallocAt (s.reallocTarget main b.ptr) a b n ans = some s') :
    Inv s' ∧ Resized s s' a b n := by
  unfold reallocAt at hstep
  rw [hs.reallocTarget_eq hallowed hb, if_neg (not_not.mpr rfl)] at hstep
  cases a with
  | library l => exact ⟨hs.relend hb hstep, resized_relend hb hstep⟩
  | parep =>
    obtain ⟨t, h, hsession, hheap, hcond⟩ := hallowed.2.session
    rw [live, hsession] at hb
    exact resized_heapCall hs hsession hheap hb hcond hstep
  | buffer => cases hstep

theorem Inv.free (hs : Inv s) (hallowed : s.Allowed (.free main a b)) (hb : b ∈ s.live a)
    (hstep : s.freeAt a a b = some s') : Inv s' := by
  unfold freeAt at hstep
  rw [if_neg (not_not.mpr rfl)] at hstep
  cases a with
  | library l =>
    obtain rfl := some.inj hstep
    exact hs.giveBack
  | parep =>
    obtain ⟨t, h, hsession, hheap, hhigh⟩ := hallowed.2.2.session
    rw [live, hsession] at hb
    exact hs.heapCall hsession (fun t' q => (hs.heap t hsession).freeCall hheap hb hhigh) hstep
  | buffer => cases hstep

theorem loaded_of_library (h : s.library = .ext) : s.extLoaded = true := by
  unfold library at h
  split at h
  · assumption
  · cases h

theorem extended_start (mem : Nat → Nat) {start : Nat} (hpos : 0 < start) (h8 : 8 ∣ start)
    (hlimit : start + heapSize ≤ addressLimit) : (Session.start mem start).Extended := by
  obtain ⟨h, hinit, -, g, hr, hl⟩ := initHeap_spec mem hpos h8 hlimit
  rw [Session.start, hinit]
  exact Extended.of_invariant ⟨g, hr, hl⟩ (spans_initHeap _ hinit).self

theorem Extended.sessionStep {e : HeapEvent} {t' : Session} {q : Nat} (ht : t.Extended)
    (hsafe : t.Safe e) (hspans : ∀ h h', t.heap = some h → t.step e = some t' → t'.heap = some h' → Spans h.start h →
      Spans h.start h')
    (hrun : (t.step e).map (fun t' => (t', 0)) = some (t', q)) : t'.Extended := by
  obtain ⟨t₁, hstep, heq⟩ := map_eq_some_iff.mp hrun
  obtain ⟨rfl, -⟩ := Prod.mk.inj heq
  refine ⟨ht.1.step hsafe hstep, fun h' hheap' => ?_⟩
  obtain ⟨⟨h, g, hheap, -⟩, hall⟩ := ht
  exact (hspans h h' hheap hstep hheap' (hall h hheap)).self

theorem Inv.expand {mremap : Nat → Bool} {sz : Nat} (hs : Inv s) (hallowed : s.Allowed (.expand mremap sz))
    (hstep : s.heapCall (fun t => (t.step (.expand mremap sz)).map fun t' => (t', 0)) = some s') : Inv s' := by
  obtain ⟨t, h, hsession, hheap, hsafe⟩ := OnHeap.session hallowed
  refine hs.heapCall hsession (fun t' q hcall => ?_) hstep
  refine Extended.sessionStep (hs.heap t hsession) (by rw [Session.Safe, hheap]; exact hsafe) ?_ hcall
  intro h₀ h' hheap₀ hrun hheap' hspans
  rw [Session.step, hheap₀] at hrun
  obtain ⟨-, rfl⟩ := ite_some_none_eq_some.mp hrun
  obtain ⟨⟨h₁, success⟩, hexpand, rfl⟩ := map_eq_some_iff.mp hheap'
  exact hspans.expandHeap _ hexpand

theorem Inv.write {a v : Nat} (hs : Inv s) (hsession : s.session = some t)
    (hstep : s.heapCall (fun t => (t.step (.write a v)).map fun t' => (t', 0)) = some s') : Inv s' := by
  obtain ⟨h, g, hheap, -⟩ := (hs.heap t hsession).1
  refine hs.heapCall hsession (fun t' q hcall => ?_) hstep
  refine Extended.sessionStep (hs.heap t hsession) (by rw [Session.Safe, hheap]; trivial) ?_ hcall
  intro h₀ h' hheap₀ hrun hheap' hspans
  rw [Session.step, hheap₀] at hrun
  obtain ⟨-, rfl⟩ := ite_some_none_eq_some.mp hrun
  exact hspans.store _ hheap'

theorem Inv.allocate (hs : Inv s) (hext : l = .ext → s.extLoaded = true)
    (hon : s.toLibrary main = false → s.OnHeap P)
    (hstep : (if s.toLibrary main then s.lend l n ans else s.heapCall call) = some s')
    (hcall : ∀ t h t' q, t.Extended → t.heap = some h → P h → call t = some (t', q) → t'.Extended) : Inv s' := by
  cases hto : s.toLibrary main with
  | true =>
    rw [if_pos hto] at hstep
    exact hs.lend hext hstep
  | false =>
    rw [if_neg (by rw [hto]; decide)] at hstep
    obtain ⟨t, h, hsession, hh, hP⟩ := (hon hto).session
    exact hs.heapCall hsession (fun t' q => hcall t h t' q (hs.heap t hsession) hh hP) hstep

theorem Inv.step (hs : Inv s) (hallowed : s.Allowed e) (hstep : s.step e = some s') : Inv s' := by
  unfold Interposer.step at hstep
  rw [if_neg (by rw [hs.intact]; decide)] at hstep
  cases e with
  | enter | leave | finishInit | complete | writeOutside | nestedCalloc =>
    obtain rfl := some.inj hstep
    exact { hs with }
  | loadExt =>
    obtain rfl := some.inj hstep
    exact ⟨hs.heap, hs.apart, fun hfalse => absurd hfalse.symm Bool.false_ne_true, hs.intact⟩
  | setupHeap mem start =>
    obtain ⟨hcan, rfl⟩ := ite_some_none_eq_some.mp hstep
    obtain ⟨-, hpos, h8, hlimit, hapart⟩ := hcan
    refine ⟨fun t ht => ?_, hapart, hs.ext, hs.intact⟩
    exact some.inj ht ▸ extended_start mem hpos h8 hlimit
  | expand mremap sz => exact hs.expand hallowed hstep
  | write a v =>
    obtain ⟨t, hsession, hstep⟩ := bind_eq_some_iff.mp hstep
    exact hs.write hsession hstep
  | malloc main n ans =>
    exact hs.allocate loaded_of_library hallowed hstep fun t h t' q ht _ => ht.mallocCall
  | calloc main nmemb size ans =>
    exact hs.allocate loaded_of_library hallowed hstep fun t h t' q ht => ht.callocCall
  | strdup main str ans =>
    exact hs.allocate (by simp) hallowed hstep fun t h t' q ht _ => ht.strdupCall
  | memalign main alignment n ans =>
    exact hs.allocate (by simp) hallowed hstep fun t h t' q ht _ => ht.memalignCall
  | realloc main block n ans =>
    cases block with
    | none =>
      have hnull : s.reallocTarget main 0 = .library s.library := by
        unfold reallocTarget
        rw [hs.outside_null]
        simp [useCommonHeap]
      dsimp only at hstep
      rw [hnull] at hstep
      exact hs.lend loaded_of_library hstep
    | some ab =>
      obtain ⟨a, b⟩ := ab
      obtain ⟨hb, hstep⟩ := ite_none_right_eq_some.mp hstep
      exact (hs.realloc hallowed hb hstep).1
  | free main a b =>
    obtain ⟨hb, hstep⟩ := ite_none_right_eq_some.mp hstep
    rw [hs.freeTarget_eq hallowed hb] at hstep
    exact hs.free hallowed hb hstep

theorem inv_initial (callocBuf : Nat) : Inv (initial callocBuf) :=
  ⟨by simp [initial], ⟨by simp [initial], by simp [initial]⟩, fun _ => rfl, rfl⟩

theorem Inv.released (hs : Inv s) (hallowed : s.Allowed e) : s.Released e := by
  cases e with
  | free main a b => exact hs.freeTarget_eq hallowed
  | realloc main block n ans =>
    cases block with
    | none => trivial
    | some ab =>
      obtain ⟨a, b⟩ := ab
      intro hb
      refine ⟨hs.reallocTarget_eq hallowed hb, fun s' hstep => ?_⟩
      unfold Interposer.step at hstep
      rw [if_neg (by rw [hs.intact]; decide)] at hstep
      dsimp only at hstep
      rw [if_pos hb] at hstep
      exact (hs.realloc hallowed hb hstep).2
  | enter | leave | loadExt | setupHeap | finishInit | complete | expand | write | writeOutside | malloc
  | calloc | nestedCalloc | strdup | memalign => trivial

/-- In every run of such calls no block goes to an allocator that it is not from, and every next call of that kind sends
its block to the allocator that it came from; what is moved keeps its bytes. -/
theorem released_by_owner (callocBuf : Nat) (es : List InterposerEvent)
    (hguard : Guarded step Allowed (initial callocBuf) es) (hrun : runEvents step (initial callocBuf) es = some s) :
    s.broken = false ∧ ∀ e, s.Allowed e → s.Released e := by
  have hs : Inv s := hguard.invariant hrun (inv_initial callocBuf) fun h hm hstep => h.step hm hstep
  exact ⟨hs.intact, fun e hallowed => hs.released hallowed⟩

/-- A library that answers with this pointer, and a system that maps what it is asked for. -/
def answerWith (ptr : Nat) : Answer := ⟨fun _ => true, ptr, fun _ => 0⟩

/-- `MPI_Init` frees its block before the other allocator is loaded; the application's block is moved by the application
and freed by another thread; and the external library frees its own. -/
def orderlyCalls : List InterposerEvent :=
  [.malloc true 16 (answerWith 4096), .free true (.library .libc) ⟨4096, 16⟩, .loadExt, .setupHeap (fun _ => 0) heapStart,
    .finishInit, .leave, .malloc true 24 (answerWith 0), .realloc true (some (.parep, ⟨heapStart + 8, 24⟩)) 48 (answerWith 0),
    .enter, .malloc true 16 (answerWith 4096), .free true (.library .ext) ⟨4096, 16⟩]

theorem orderlyCalls_released : ∃ s, runEvents step (initial 0) orderlyCalls = some s
    ∧ s.live .parep = [⟨heapStart + 64, 48⟩] ∧ s.freeTarget false (heapStart + 64) = some .parep
    ∧ s.Released (.free false .parep ⟨heapStart + 64, 48⟩) := by
  obtain ⟨s, hs, hlive, htarget, hallowed⟩ : ∃ s, runEvents step (initial 0) orderlyCalls = some s
      ∧ s.live .parep = [⟨heapStart + 64, 48⟩] ∧ s.freeTarget false (heapStart + 64) = some .parep
      ∧ s.Allowed (.free false .parep ⟨heapStart + 64, 48⟩) := by
    decide +kernel
  exact ⟨s, hs, hlive, htarget, (released_by_owner 0 orderlyCalls (by decide +kernel) hs).2 _ hallowed⟩

/-- Blocks that go to another allocator: one of the C library that is freed after the other allocator is loaded; a string
that is copied inside of the library after that; a block of the application that another thread moves; and one that is
freed inside of the library before the end of `MPI_Init`. -/
theorem blocks_misrouted : ((runEvents step (initial 0)
      [.malloc true 16 (answerWith 4096), .loadExt, .free true (.library .libc) ⟨4096, 16⟩]).map broken = some true)
    ∧ ((runEvents step (initial 0)
      [.loadExt, .strdup true [97] (answerWith 4096), .free true (.library .libc) ⟨4096, 2⟩]).map broken = some true)
    ∧ ((runEvents step (initial 0)
      [.setupHeap (fun _ => 0) heapStart, .finishInit, .leave, .malloc true 24 (answerWith 0),
        .realloc false (some (.parep, ⟨heapStart + 8, 24⟩)) 48 (answerWith 4096)]).map broken = some true)
    ∧ (runEvents step (initial 0) [.setupHeap (fun _ => 0) heapStart, .leave, .malloc true 24 (answerWith 0), .enter,
        .free true .parep ⟨heapStart + 8, 24⟩]).map broken = some true := by
  decide +kernel

end Interposer

end ParepMpi
