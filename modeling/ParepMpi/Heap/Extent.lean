import ParepMpi.Heap.Realloc
import ParepMpi.Heap.Runs
import ParepMpi.Lib.Loop

/-!
# `parep_mpi_ext_heap_size`

The interposed calls tell a pointer of the heap from others by `parep_mpi_ext_heap_mapping` and
`parep_mpi_ext_heap_size`.
-/

namespace ParepMpi

namespace Heap

/-- `parep_mpi_ext_heap_size` is the size of the heap that starts at `a`. -/
def Spans (a : Nat) (h : Heap) : Prop := h.start = a ∧ a + h.extHeapSize = h.stop

section

variable {h : Heap} {a w v i n p sz : Nat} {mremap : Nat → Bool}

section

variable (hs : Spans a h)

include hs

theorem Spans.self : Spans h.start h := by
  obtain ⟨rfl, hstop⟩ := hs
  exact ⟨rfl, hstop⟩

theorem Spans.store : Ensures (h.store w v) (Spans a) := by
  unfold Heap.store
  split
  · exact .some hs
  · exact .none

theorem Spans.modify {f : Nat → Nat} : Ensures (h.modify w f) (Spans a) := .skip fun _ => hs.store

theorem Spans.createFoot : Ensures (h.createFoot w) (Spans a) := .skip fun _ => hs.store

theorem Spans.setBin : Spans a (h.setBin i w) := hs

theorem Spans.setFastbin : Spans a (h.setFastbin i w) := hs

theorem Spans.addNode : Ensures (h.addNode i w) (Spans a) := by
  refine hs.store.bind fun _ hs₁ => hs₁.store.bind fun _ hs₂ => ?_
  split
  · exact .some hs₂.setBin
  · exact hs₂.store.bind fun _ hs₃ => hs₃.store.bind fun _ hs₄ => .some hs₄.setBin

theorem Spans.removeNode : Ensures (h.removeNode i w) (Spans a) := by
  unfold Heap.removeNode
  split
  · exact .some hs
  · split
    · refine .skip fun next => ?_
      split
      · exact (hs.setBin (i := i) (w := next)).store
      · exact .some hs.setBin
    · refine .skip fun next => .skip fun prev => ?_
      split
      · exact hs.store
      · exact hs.store.bind fun _ hs₁ => hs₁.store

theorem Spans.growLast {last : Nat} : Ensures (h.growLast last sz) (Spans a) :=
  .skip fun _ => hs.removeNode.bind fun _ hs₁ => hs₁.modify.bind fun _ hs₂ =>
    hs₂.createFoot.bind fun _ hs₃ => .skip fun _ => hs₃.addNode

theorem Spans.appendLast : Ensures (h.appendLast sz) (Spans a) :=
  hs.modify.bind fun _ hs₁ => hs₁.createFoot.bind fun _ hs₂ => .skip fun _ => hs₂.addNode

theorem Spans.setEnd : Spans a (h.setEnd (h.stop + sz)) := by
  obtain ⟨hstart, hstop⟩ := hs
  refine ⟨hstart, ?_⟩
  show a + (h.stop + sz - h.start) = h.stop + sz
  omega

theorem Spans.expandHeap : Ensures (h.expandHeap mremap sz) fun r => Spans a r.1 := by
  unfold Heap.expandHeap
  split
  · exact .some hs
  · dsimp only
    split
    · exact .some hs
    · have hmapped : Spans a { h with mapEnd := h.start + add64 (h.stop - h.start) sz } := hs
      refine .skip fun last => .skip fun w => ?_
      split
      · exact hmapped.growLast.bind fun _ hs₁ => .some hs₁.setEnd
      · exact hmapped.appendLast.bind fun _ hs₁ => .some hs₁.setEnd

variable {head : Nat}

theorem Spans.coalescePrev : Ensures (h.coalescePrev head) fun r => Spans a r.1 := by
  unfold Heap.coalescePrev
  split
  · refine .skip fun prev => .skip fun w => ?_
    split
    · exact hs.removeNode.bind fun _ hs₁ => .skip fun _ => hs₁.modify.bind fun _ hs₂ =>
        hs₂.createFoot.bind fun _ hs₃ => .some hs₃
    · exact .some hs
  · exact .some hs

theorem Spans.coalesceNext {head next : Nat} : Ensures (h.coalesceNext head next) (Spans a) := by
  unfold Heap.coalesceNext
  split
  · refine .skip fun w => ?_
    split
    · exact hs.removeNode.bind fun _ hs₁ => .skip fun _ => hs₁.modify.bind fun _ hs₂ =>
        hs₂.store.bind fun _ hs₃ => hs₃.modify.bind fun _ hs₄ => hs₄.createFoot
    · exact .some hs
  · exact .some hs

theorem Spans.release : Ensures (h.release head) fun r => Spans a r.1 :=
  .skip fun _ => hs.coalescePrev.bind fun _ hs₁ => hs₁.coalesceNext.bind fun _ hs₂ =>
    hs₂.modify.bind fun _ hs₃ => .skip fun _ => hs₃.addNode.bind fun _ hs₄ => .some hs₄

end

variable {h : Heap}

theorem Spans.consolidateBin (i fuel : Nat) (hs : Spans a h) : Ensures (consolidateBin i fuel h) (Spans a) := by
  induction fuel generalizing h with
  | zero => exact .none
  | succ fuel ih =>
    unfold Heap.consolidateBin
    split
    · exact .some hs
    · exact .skip fun next => (hs.setFastbin (i := i) (w := next)).release.bind fun _ => ih

theorem Spans.mallocConsolidate (hs : Spans a h) : Ensures h.mallocConsolidate (Spans a) := by
  unfold Heap.mallocConsolidate
  generalize List.range 9 = bins
  induction bins generalizing h with
  | nil => exact .some hs
  | cons i bins ih =>
    exact (hs.consolidateBin i _).bind fun _ => ih

theorem Spans.searchLoop {searchSize baseIndex index found : Nat} {attempted : Bool} (fuel : Nat) (hs : Spans a h) :
    Ensures (searchLoop mremap searchSize baseIndex fuel h index found attempted) fun r => Spans a r.1 := by
  induction fuel generalizing h index found attempted with
  | zero => exact .none
  | succ fuel ih =>
    unfold Heap.searchLoop
    split
    · exact .some hs
    · split
      · split
        · exact hs.mallocConsolidate.bind fun _ hs₁ => .skip fun _ => ih hs₁
        · split
          · exact .some hs
          · refine hs.expandHeap.bind fun r hs₁ => ?_
            dsimp only
            split
            · exact .some hs₁
            · exact .skip fun _ => ih hs₁
      · exact .skip fun _ => ih hs

section

variable (hs : Spans a h)

include hs

theorem Spans.splitLead {index found size : Nat} : Ensures (h.splitLead index found size) fun r => Spans a r.1 := by
  unfold Heap.splitLead
  split
  · dsimp only
    split
    · refine .skip fun _ => hs.removeNode.bind fun _ hs₁ => hs₁.store.bind fun _ hs₂ => hs₂.store.bind fun _ hs₃ =>
        hs₃.modify.bind fun _ hs₄ => hs₄.createFoot.bind fun _ hs₅ => .skip fun _ => ?_
      exact hs₅.addNode.bind fun _ hs₆ => hs₆.modify.bind fun _ hs₇ => hs₇.store.bind fun _ hs₈ =>
        hs₈.store.bind fun _ hs₉ => hs₉.createFoot.bind fun _ hs₁₀ => .skip fun _ =>
          hs₁₀.addNode.bind fun _ hs₁₁ => .some hs₁₁
    · exact .some hs
  · exact .some hs

theorem Spans.splitTail {found size : Nat} : Ensures (h.splitTail found size) (Spans a) := by
  refine .skip fun _ => ?_
  split
  · dsimp only
    split
    · exact hs.modify.bind fun _ hs₁ => hs₁.createFoot.bind fun _ hs₂ => .skip fun _ =>
        hs₂.addNode.bind fun _ hs₃ => hs₃.modify.bind fun _ hs₄ => hs₄.createFoot
    · exact .some hs
  · exact .some hs

theorem Spans.handOut {index found size : Nat} : Ensures (h.handOut index found size) fun r => Spans a r.1 := by
  refine hs.modify.bind fun _ hs₁ => hs₁.removeNode.bind fun _ hs₂ => hs₂.store.bind fun _ hs₃ =>
    hs₃.store.bind fun _ hs₄ => ?_
  split
  · exact hs₄.store.bind fun _ hs₅ => .some hs₅
  · exact .some hs₄

theorem Spans.takeFast : Ensures (h.takeFast i) fun r => Spans a r.1 :=
  hs.modify.bind fun _ hs₁ => .skip fun next => (hs₁.setFastbin (i := i) (w := next)).store.bind fun _ hs₂ =>
    hs₂.store.bind fun _ hs₃ => .some hs₃

theorem Spans.findNode : Ensures (h.findNode mremap n) fun r => Spans a r.1 := by
  unfold Heap.findNode
  split
  · exact hs.mallocConsolidate.bind fun _ hs₁ => .skip fun _ => hs₁.searchLoop _
  · exact (Ensures.some hs).bind fun _ hs₁ => .skip fun _ => hs₁.searchLoop _

theorem Spans.malloc : Ensures (h.malloc mremap n) fun r => Spans a r.1 := by
  unfold Heap.malloc
  split
  · exact .some hs
  · dsimp only
    split
    · exact hs.takeFast
    · refine hs.findNode.bind fun r hs₁ => ?_
      split
      · exact .some hs₁
      · exact hs₁.splitLead.bind fun _ hs₂ => hs₂.splitTail.bind fun _ hs₃ => hs₃.handOut

theorem Spans.free : Ensures (h.free p) (Spans a) := by
  unfold Heap.free
  split
  · exact .some hs
  · refine .skip fun head => .skip fun w => ?_
    split
    · exact hs.store.bind fun _ hs₁ => hs₁.store.bind fun _ hs₂ => .some hs₂.setFastbin
    · refine hs.release.bind fun r hs₁ => .skip fun _ => ?_
      split
      · exact hs₁.mallocConsolidate
      · exact .some hs₁

theorem Spans.posixMemalign {alignment : Nat} : Ensures (h.posixMemalign mremap alignment n) fun r => Spans a r.1 := by
  unfold Heap.posixMemalign
  split
  · exact .some hs
  · split
    · exact .some hs
    · refine hs.malloc.bind fun r hs₁ => ?_
      dsimp only
      split
      · exact .some hs₁
      · split
        · exact hs₁.store.bind fun _ hs₂ => .some hs₂
        · exact .some hs₁

theorem Spans.fill {b : Nat → Nat} : Spans a (h.fill w n b) := hs

theorem Spans.memcpy {src : Nat} : Ensures (h.memcpy w src n) (Spans a) := by
  unfold Heap.memcpy
  split
  · exact .some hs.fill
  · exact .none

theorem Spans.memset : Ensures (h.memset w v n) (Spans a) := by
  unfold Heap.memset
  split
  · exact .some hs.fill
  · exact .none

theorem Spans.calloc {nmemb size : Nat} : Ensures (h.calloc mremap nmemb size) fun r => Spans a r.1 :=
  hs.malloc.bind fun _ hs₁ => hs₁.memset.bind fun _ hs₂ => .some hs₂

end

theorem spans_initHeap {mem : Nat → Nat} : Ensures (initHeap mem a) (Spans a) := by
  have hs : Spans a
      { mem := mem, start := a, stop := a + heapSize, mapEnd := a + heapSize,
        bins := fun _ => 0, fastbins := fun _ => 0, extHeapSize := heapSize } := ⟨rfl, rfl⟩
  exact hs.modify.bind fun _ hs₁ => hs₁.createFoot.bind fun _ hs₂ => .skip fun _ => hs₂.addNode

end

end Heap

end ParepMpi
