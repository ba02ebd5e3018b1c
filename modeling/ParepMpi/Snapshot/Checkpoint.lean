import ParepMpi.Snapshot.FileIo
import ParepMpi.Snapshot.Replicate

/-!
# The checkpoint of a compute process

`write_heap_and_stack` writes the image of a process to a file and `read_heap_and_stack` takes it in again, perhaps in
another process. Of a heap node that is not allocated only the two ends are written. What is read is what was written
exactly if the heap of the reader is not larger; the skip lists are not in the file, and must be equal beforehand.
-/

namespace ParepMpi

open Bytewise Tiling List Option

namespace Heap

def nodeBuffers (h : Heap) : Nat → Nat → Option (List Buffer)
  | 0, _ => none
  | fuel + 1, head =>
    if head < h.start + h.extHeapSize then do
      let w ← h.load head
      let foot := head + 24 + getSize w
      if foot + 8 ≤ h.mapEnd then do
        let rest ← nodeBuffers h fuel (foot + 8)
        some ([⟨24, h.window head⟩] ++
          (if getHole w = 0 ∧ getFast w = 0 then [⟨foot - head - 24, h.window (head + 24)⟩] else []) ++
          [⟨8, h.window foot⟩] ++ rest)
      else none
    else some []

/-- The reader brings its heap to `hpsize` bytes. -/
def regrow (mremap : Nat → Bool) (h : Heap) (hpsize : Nat) : Option Heap :=
  if hpsize ≠ h.extHeapSize then do
    let (h, _) ← h.expandHeap mremap (sub64 hpsize h.extHeapSize)
    some h
  else some h

end Heap

namespace Image

section

variable {τ : Type} (fetch : Source τ)

/-- The bytes of an allocated node are read. -/
def takePayload (head w : Nat) (im : Image) (t : τ) : Option (Image × τ) :=
  let foot := head + 24 + getSize w
  if getHole w = 0 ∧ getFast w = 0 ∧ 0 < getSize w then im.takeHeap fetch (head + 24) (foot - head - 24) t
  else some (im, t)

/-- One node is read; the result has the address of the next one. -/
def takeNode (head : Nat) (im : Image) (t : τ) : Option (Image × τ × Nat) := do
  let (im, t) ← im.takeHeap fetch head 24 t
  let w ← im.heap.load head
  let foot := head + 24 + getSize w
  let (im, t) ← im.takePayload fetch head w t
  let (im, t) ← im.takeHeap fetch foot 8 t
  some (im, t, foot + 8)

def takeNodes : Nat → Nat → Image → τ → Option (Image × τ)
  | 0, _, _, _ => none
  | fuel + 1, head, im, t =>
    if head < im.heap.start + im.heap.extHeapSize then do
      let (im, t, next) ← im.takeNode fetch head t
      takeNodes fuel next im t
    else some (im, t)

def takeSavedHeap (mremap : Nat → Bool) (r : Image) (t : τ) : Option (Image × τ) := do
  let heap ← r.heap.regrow mremap (r.ptr .hpsize)
  let (r, t) ← { r with heap := heap }.takeBins fetch t
  let (r, t) ← r.takeFastbins fetch t
  r.takeNodes fetch r.heap.nodeLimit r.heap.start t

end

open Heap

/-- The stack and the heads of the lists, as they go into the file. -/
def savedVars : List Var := .stack :: listVars [.ckptSkipcmplist, .ckptSkipreplist, .ckptSkipredlist] ++ [.argvp]

/-- The buffers of a checkpoint, with those of the nodes and with the vtable pointers of the open files. -/
def checkpointBuffers (p : Mappings) (fortran : Bool) (nodes : List Buffer) (vs : List Nat) (s : Image) : List Buffer :=
  s.frontBuffers p fortran ++ ([⟨9 * 8, binBytes s.heap.bins⟩, ⟨9 * 8, binBytes s.heap.fastbins⟩] ++ nodes) ++
    ([Buffer.word (256 * 1024)] ++ (savedVars.map s.buffer ++ s.tailBuffers p vs))

def writeHeapAndStack (io : Calls) (p : Mappings) (fortran : Bool) (s : Image) : Option (List Nat) := do
  let nodes ← s.heap.nodeBuffers s.heap.nodeLimit s.heap.start
  let vs ← s.openFiles
  let (file, _) ← writeAll io (s.checkpointBuffers p fortran nodes vs) [] 0
  some file

def readHeapAndStack (io : Calls) (p : Mappings) (mremap : Nat → Bool) (fortran : Bool) (r : Image) (file : List Nat) :
    Option (Image × List Nat) := do
  let (r, t) ← r.takeFront (readFile io) p fortran (file, 0)
  let (r, t) ← r.takeSavedHeap (readFile io) mremap t
  let (r, t) ← r.takeVars (readFile io) [.stksize] t
  if r.ptr .stksize = 256 * 1024 then do
    let (r, t) ← r.takeVars (readFile io) savedVars t
    let (r, t) ← r.takeTail (readFile io) p t
    some (r, t.1)
  else none

end Image

namespace Heap

variable {h h' : Heap} {g : Layout} {x : Tile} {l : List Tile} {mremap : Nat → Bool} {a n v : Nat}

theorem getFast_word {t s : Nat} (hs : s < 2 ^ 62) : getFast (t * 2 ^ 62 + s) = t % 2 := by
  unfold getFast
  omega

theorem Rest.allocated_head (hr : Rest h g ∅) (hx : x ∈ g.tiles) :
    getHole (h.mem x.addr) = 0 ∧ getFast (h.mem x.addr) = 0 ↔ g.place x.addr = .out := by
  have hlt : x.size < 2 ^ 62 := lt_trans (hr.shape.size_lt hx) (by decide)
  rw [(hr.marks x hx (Set.notMem_empty _)).1, getHole_word (Place.tag_lt _) hlt, getFast_word hlt]
  cases g.place x.addr <;> simp [Place.tag]

def tileBuffers (h : Heap) (g : Layout) (x : Tile) : List Buffer :=
  [⟨24, h.window x.addr⟩] ++ (if g.place x.addr = .out then [⟨x.size, h.window (x.addr + 24)⟩] else []) ++
    [⟨8, h.window (x.addr + 24 + x.size)⟩]

/-- What the reader asks for. -/
def tileReads (h : Heap) (g : Layout) (x : Tile) : List Buffer :=
  [⟨24, h.window x.addr⟩] ++ ((if g.place x.addr = .out ∧ 0 < x.size then [⟨x.size, h.window (x.addr + 24)⟩] else []) ++
      [⟨8, h.window (x.addr + 24 + x.size)⟩])

theorem fileOf_tileReads (h : Heap) (g : Layout) (x : Tile) : fileOf (h.tileReads g x) = fileOf (h.tileBuffers g x) := by
  unfold tileReads tileBuffers
  by_cases hp : g.place x.addr = .out
  · rcases Nat.eq_zero_or_pos x.size with h0 | hpos
    · simp [fileOf, bytesFrom, h0]
    · simp [hp, hpos]
  · simp [hp]

theorem Rest.nodeBuffers (hr : Rest h g ∅) (hsized : h.Sized) (fuel : Nat)
    (htiles : Tiles Tile.addr Tile.stop a h.stop l) (hsub : ∀ x ∈ l, x ∈ g.tiles) (hfuel : l.length < fuel) :
    h.nodeBuffers fuel a = some (l.flatMap (h.tileBuffers g)) := by
  have hend : h.start + h.extHeapSize = h.stop := by
    have := hr.shape.room
    have := hsized.1
    omega
  induction l generalizing a fuel with
  | nil =>
    obtain rfl : a = h.stop := htiles
    obtain ⟨fuel, rfl⟩ := Nat.exists_eq_succ_of_ne_zero (Nat.ne_of_gt hfuel)
    rw [nodeBuffers, hend, if_neg (lt_irrefl _)]
    rfl
  | cons x l ih =>
    obtain ⟨rfl, _, hrest⟩ := htiles
    have hx := hsub x mem_cons_self
    have hb := hr.shape.bounds hx
    have hmapped := hr.shape.mapped
    obtain ⟨fuel, rfl⟩ := Nat.exists_eq_succ_of_ne_zero (Nat.ne_of_gt (Nat.zero_lt_of_lt hfuel))
    have hnext : x.addr + 24 + x.size + 8 = x.stop := by
      unfold Tile.stop
      omega
    have hrun := ih fuel hrest (fun y hy => hsub y (mem_cons_of_mem _ hy)) (by rw [length_cons] at hfuel; omega)
    have hpay : x.addr + 24 + x.size - x.addr - 24 = x.size := by omega
    rw [nodeBuffers, hend, if_pos (by omega), load_eq (hr.shape.mapped_head hx)]
    simp only [bind_eq_bind, bind_some, hr.shape.getSize_head hx, hr.allocated_head hx, hnext, hpay, hrun]
    rw [if_pos (by omega), flatMap_cons]
    rfl

theorem Shape.length_tiles (hs : Shape h g.tiles) : g.tiles.length < h.nodeLimit := by
  have hlen := hs.tiles.length_mul_le (k := 32) fun x _ => by
    unfold Tile.stop
    omega
  unfold nodeLimit
  omega

theorem Rest.regrow (hr : Rest h g ∅) (hsized : h.Sized) (hn : heapSize ∣ n) (hm : mremap n = true)
    (hlimit : h.start + n ≤ addressLimit) (hle : h.extHeapSize ≤ n) :
    ∃ h', h.regrow mremap n = some h' ∧ Resized h' h.start n := by
  obtain ⟨h', hrun, hre, _⟩ := hr.resize hsized hn hm hlimit
  refine ⟨h', ?_, hre⟩
  rw [← hrun, Heap.regrow, Heap.resize, if_neg (not_lt.mpr hle)]
  rfl

/-- The size by which a heap would have to grow to become smaller takes its end away, and `expand_heap` then looks
for the last footer. -/
theorem Rest.regrow_smaller (hr : Rest h g ∅) (hsized : h.Sized) (hm : mremap n = true)
    (hlt : n < h.extHeapSize) : h.regrow mremap n = none := by
  obtain ⟨hext, hdvd⟩ := hsized
  have hlimit := hr.shape.limit
  have hsub : sub64 n h.extHeapSize ≠ 0 := by
    unfold addressLimit at hlimit
    unfold sub64
    omega
  have hlength : add64 (h.stop - h.start) (sub64 n h.extHeapSize) = n := by
    unfold addressLimit at hlimit
    unfold add64 sub64
    omega
  have hgone : ¬ { h with mapEnd := h.start + n }.Mapped (h.stop - 8) := by
    rintro ⟨_, _, hle⟩
    have : h.stop - 8 + 8 ≤ h.start + n := hle
    omega
  have hload : { h with mapEnd := h.start + n }.load (h.stop - 8) = none := if_neg hgone
  rw [Heap.regrow, if_pos (ne_of_lt hlt), Heap.expandHeap, if_neg hsub]
  simp only [hlength, hm, Bool.true_eq_false, false_or]
  rw [if_neg (by omega)]
  simp only [hload, bind_eq_bind, bind_none]

def loadLive (h : Heap) (live : List Alloc) (a : Nat) : Option Nat :=
  if ∃ e ∈ live, e.ptr ≤ a ∧ a + 8 ≤ e.ptr + e.len then h.load a else none

variable {live : List Alloc}

theorem loadLive_load (ha : h.loadLive live a = some v) : h.load a = some v := by
  unfold loadLive at ha
  split at ha
  · exact ha
  · cases ha

theorem Restored.load (hs : Restored h g h') (hr : Rest h g ∅) (hl : Live h g live)
    (ha : h.loadLive live a = some v) : h'.load a = some v := by
  unfold loadLive at ha
  split at ha
  next hin =>
    obtain ⟨e, he, hlo, hhi⟩ := hin
    obtain ⟨x, hx, hh⟩ := hl.held e he
    have hb := hr.shape.bounds hx.1
    obtain ⟨hlo', hhi', _⟩ := hh
    obtain ⟨⟨h8, _, _⟩, rfl⟩ : h.Mapped a ∧ h.mem a = v := by simpa [Heap.load] using ha
    have hmapped := hs.mapped
    have hstart := hs.start
    rw [load_eq ⟨h8, by omega, by omega⟩, hs.used x hx a h8 (by omega) (by omega)]
  next => cases ha

end Heap

open Heap

namespace Image

def Octets (im : Image) : Prop := ∀ v o, im.var v o < 256

section Nodes

variable {τ : Type} {fetch : Source τ} {t t' : τ} {s r : Image} {g : Layout} {x : Tile} {l : List Tile} {a : Nat}

def Saved (g : Layout) (x : Tile) (w : Nat) : Prop :=
  x.addr ≤ w ∧ w < x.addr + 32 + x.size ∧ (g.place x.addr = .out ∨ w < x.addr + 24 ∨ x.addr + 24 + x.size ≤ w)

variable (hr : s.heap.Rest g ∅)

include hr

theorem takeNode_spec (hw : s.heap.Words) (hx : x ∈ g.tiles) (hstart : r.heap.start = s.heap.start)
    (hmapped : s.heap.stop ≤ r.heap.mapEnd) (hfeed : Feeds fetch t (s.heap.tileReads g x) t') :
    ∃ mem, r.takeNode fetch x.addr t = some ({ r with heap := { r.heap with mem := mem } }, t', x.stop) ∧
      Heap.Copied s.heap.mem (Saved g x) r.heap.mem mem := by
  have hb := hr.shape.bounds hx
  obtain ⟨h8, h8'⟩ := hr.shape.aligned x hx
  have hlimit := hr.shape.limit
  obtain ⟨_, ⟨t₁, hfetch₁, rfl⟩, hfeed⟩ := feeds_append.mp hfeed
  obtain ⟨t₂, hpay, ⟨_, hfetch₃, rfl⟩⟩ := feeds_append.mp hfeed
  obtain ⟨mem₁, hrun₁, hcopy₁⟩ := takeHeap_spec (r := r) (n := 24) hw h8 (by decide) (by omega) (by omega) (by omega) hfetch₁
  have hword : mem₁ x.addr = s.heap.mem x.addr := (hcopy₁ x.addr h8 (by omega)).1 (by omega)
  let r₁ : Image := { r with heap := { r.heap with mem := mem₁ } }
  replace hrun₁ : r.takeHeap fetch x.addr 24 t = some (r₁, t₁) := hrun₁
  have hload : r₁.heap.load x.addr = some (s.heap.mem x.addr) := by
    rw [load_eq (⟨h8, by show r.heap.start ≤ _; omega, by show _ ≤ r.heap.mapEnd; omega⟩), ← hword]
  have hpayload : r₁.takePayload fetch x.addr (s.heap.mem x.addr) t₁ =
      if g.place x.addr = .out ∧ 0 < x.size then r₁.takeHeap fetch (x.addr + 24) x.size t₁ else some (r₁, t₁) := by
    unfold takePayload
    simp only [← and_assoc, hr.allocated_head hx, hr.shape.getSize_head hx]
    rw [show x.addr + 24 + x.size - x.addr - 24 = x.size by omega]
  -- The payload comes only with an allocated node.
  obtain ⟨mem₂, hrun₂, hcopy₂⟩ : ∃ mem₂,
      r₁.takePayload fetch x.addr (s.heap.mem x.addr) t₁ = some ({ r with heap := { r.heap with mem := mem₂ } }, t₂) ∧
      Heap.Copied s.heap.mem (fun w => g.place x.addr = .out ∧ x.addr + 24 ≤ w ∧ w < x.addr + 24 + x.size) mem₁ mem₂ := by
    rw [hpayload]
    split at hpay
    next hp =>
      obtain ⟨_, hfetch₂, rfl⟩ := hpay
      obtain ⟨mem₂, hrun₂, hcopy₂⟩ := takeHeap_spec (r := r₁) (n := x.size) hw (Nat.dvd_add h8 (by decide)) h8'
        (by show r.heap.start ≤ _; omega) (by show _ ≤ r.heap.mapEnd; omega) (by omega) hfetch₂
      refine ⟨mem₂, (if_pos hp).trans hrun₂, ?_⟩
      simpa only [hp.1, true_and] using hcopy₂
    next hp =>
      obtain rfl := hpay
      exact ⟨mem₁, if_neg hp, copied_none fun w hin => hp ⟨hin.1, by omega⟩⟩
  obtain ⟨mem, hrun₃, hcopy₃⟩ := takeHeap_spec (r := { r with heap := { r.heap with mem := mem₂ } }) (n := 8) hw
    (Nat.dvd_add (Nat.dvd_add h8 (by decide)) h8') (by decide) (by show r.heap.start ≤ _; omega)
    (by show _ ≤ r.heap.mapEnd; omega) (by omega) hfetch₃
  have hnext : x.addr + 24 + x.size + 8 = x.stop := by
    unfold Tile.stop
    omega
  refine ⟨mem, ?_, ?_⟩
  · simp only [takeNode, hrun₁, bind_eq_bind, bind_some, hload, hr.shape.getSize_head hx, hrun₂, hrun₃, hnext]
  · refine (hcopy₁.trans hw.mem hcopy₂ fun _ => Iff.rfl).trans hw.mem hcopy₃ fun w => ?_
    unfold Saved
    by_cases hp : g.place x.addr = .out
    · simp only [hp, true_or, and_true, true_and]
      omega
    · simp only [hp, false_or, false_and, or_false]
      omega

theorem takeNodes_spec (hw : s.heap.Words) (hstart : r.heap.start = s.heap.start)
    (hmapped : s.heap.stop ≤ r.heap.mapEnd) (hend : r.heap.start + r.heap.extHeapSize = s.heap.stop) (fuel : Nat)
    (htiles : Tiles Tile.addr Tile.stop a s.heap.stop l) (hsub : ∀ x ∈ l, x ∈ g.tiles) (hfuel : l.length < fuel)
    (hfeed : Feeds fetch t (l.flatMap (s.heap.tileReads g)) t') :
    ∃ mem, r.takeNodes fetch fuel a t = some ({ r with heap := { r.heap with mem := mem } }, t') ∧
      Heap.Copied s.heap.mem (fun w => ∃ x ∈ l, Saved g x w) r.heap.mem mem := by
  induction l generalizing a fuel r t with
  | nil =>
    obtain rfl : a = s.heap.stop := htiles
    obtain rfl := hfeed
    obtain ⟨fuel, rfl⟩ := Nat.exists_eq_succ_of_ne_zero (Nat.ne_of_gt hfuel)
    refine ⟨r.heap.mem, ?_, copied_none fun w h => ?_⟩
    · rw [takeNodes, hend, if_neg (lt_irrefl _)]
    · obtain ⟨x, hx, _⟩ := h
      cases hx
  | cons x l ih =>
    obtain ⟨rfl, _, hrest⟩ := htiles
    have hx := hsub x mem_cons_self
    have hb := hr.shape.bounds hx
    obtain ⟨fuel, rfl⟩ := Nat.exists_eq_succ_of_ne_zero (Nat.ne_of_gt (Nat.zero_lt_of_lt hfuel))
    obtain ⟨t₁, hnode, hnodes⟩ := feeds_append.mp hfeed
    obtain ⟨mem₁, hrun₁, hcopy₁⟩ := takeNode_spec hr hw hx hstart hmapped hnode
    obtain ⟨mem, hrun, hcopy⟩ := ih (r := { r with heap := { r.heap with mem := mem₁ } }) hstart hmapped hend fuel
      hrest (fun y hy => hsub y (mem_cons_of_mem _ hy)) (by rw [length_cons] at hfuel; omega) hnodes
    refine ⟨mem, ?_, hcopy₁.trans hw.mem hcopy fun w => ?_⟩
    · rw [takeNodes, hend, if_pos (by omega)]
      simp only [hrun₁, bind_eq_bind, bind_some, hrun]
    · simp only [mem_cons, exists_eq_or_imp]

theorem restored_of_copied {h : Heap} (hstart : h.start = s.heap.start) (hstop : h.stop = s.heap.stop)
    (hmapped : s.heap.stop ≤ h.mapEnd) (hbins : h.bins = s.heap.bins) (hfast : h.fastbins = s.heap.fastbins)
    {mem : Nat → Nat} (hcopy : Heap.Copied s.heap.mem (fun w => ∃ x ∈ g.tiles, Saved g x w) mem h.mem) :
    s.heap.Restored g h := by
  have hword : ∀ x ∈ g.tiles, ∀ w, 8 ∣ w → Saved g x w → h.mem w = s.heap.mem w := by
    intro x hx w h8 hw
    have hb := hr.shape.bounds hx
    have hlimit := hr.shape.limit
    obtain ⟨_, hlt, _⟩ := id hw
    exact (hcopy w h8 (by omega)).1 ⟨x, hx, hw⟩
  refine ⟨hstart, hstop, hmapped, hbins, hfast, ?_, ?_, ?_⟩
  · intro x hx w h8 hlo hhi
    exact hword x hx w h8 ⟨hlo, by omega, .inr (.inl hhi)⟩
  · intro x hx
    have := hr.shape.aligned x hx
    exact hword x hx _ (by omega) ⟨by omega, by omega, .inr (.inr le_rfl)⟩
  · intro x hx w h8 hlo hhi
    exact hword x hx.1 w h8 ⟨hlo, hhi, .inl hx.2⟩

theorem takeSavedHeap_spec {mremap : Nat → Bool} (hw : s.heap.Words) (hsized : s.heap.Sized)
    (hm : mremap s.heap.extHeapSize = true) (hjoin : Joins s.heap r.heap)
    (hle : r.heap.extHeapSize ≤ s.heap.extHeapSize) (hhp : r.ptr .hpsize = s.heap.extHeapSize)
    (hfeed : Feeds fetch t ([⟨9 * 8, binBytes s.heap.bins⟩, ⟨9 * 8, binBytes s.heap.fastbins⟩] ++
      g.tiles.flatMap (s.heap.tileReads g)) t') :
    ∃ h, r.takeSavedHeap fetch mremap t = some ({ r with heap := h }, t') ∧ s.heap.Restored g h ∧
      h.extHeapSize = s.heap.extHeapSize := by
  obtain ⟨hext, hdvd⟩ := id hsized
  have hroom := hr.shape.room
  have hlimit := hr.shape.limit
  obtain ⟨live, gr, hrr, _⟩ := hjoin.invariant
  obtain ⟨tb, hbins, tf, hfast, hnodes⟩ := hfeed
  obtain ⟨h₂, hrun₂, hre⟩ := hrr.regrow hjoin.sized (hext ▸ hdvd) hm (by rw [hjoin.start]; omega) hle
  rw [hjoin.start] at hre
  obtain ⟨hrun₃, hrun₄⟩ := takeHeads_spec (r := r) hr hw hre hbins hfast
  have hstop : h₂.stop = s.heap.stop := by
    rw [hre.stop]
    omega
  have hmapped : s.heap.stop ≤ h₂.mapEnd := hstop ▸ hre.stop ▸ hre.mapped
  have hend : h₂.start + h₂.extHeapSize = s.heap.stop := by
    rw [hre.start, hre.extHeapSize]
    omega
  have hlimit₂ : h₂.nodeLimit = s.heap.nodeLimit := by
    rw [nodeLimit, nodeLimit, hre.start, hstop]
  obtain ⟨mem, hrun₅, hcopy⟩ := takeNodes_spec
    (r := { r with heap := { h₂ with bins := s.heap.bins, fastbins := s.heap.fastbins } }) hr hw hre.start hmapped hend
    s.heap.nodeLimit hr.shape.tiles (fun _ hx => hx) hr.shape.length_tiles hnodes
  refine ⟨{ h₂ with bins := s.heap.bins, fastbins := s.heap.fastbins, mem := mem }, ?_,
    restored_of_copied hr hre.start hstop hmapped rfl rfl hcopy, hre.extHeapSize⟩
  rw [← hlimit₂, ← hre.start] at hrun₅
  simp only [takeSavedHeap, hhp, hrun₂, bind_eq_bind, bind_some, hrun₃, hrun₄]
  exact hrun₅

end Nodes

def fileVars (fortran : Bool) : List Var := frontVars fortran ++ savedVars ++ counterVars

/-- The heap of the reader has the size of the other one, the headers and footers of its nodes and the bytes of its
allocations. -/
structure Recovered (h : Heap) (live : List Alloc) (h' : Heap) : Prop where
  size : h'.extHeapSize = h.extHeapSize
  nodes : ∃ g, h.Rest g ∅ ∧ h.Live g live ∧ h.Restored g h'
  payload : ∀ e ∈ live, ∀ w, 8 ∣ w → e.ptr ≤ w → w < e.ptr + e.len → h'.mem w = h.mem w
  invariant : h'.Invariant live

/-- The reader takes in the file that the writer makes, to its last byte, and has the heap and the variables of the
writer then, its lists of skipped messages among them. -/
def RoundTrips (io io' : Calls) (p q : Mappings) (mremap : Nat → Bool) (fortran : Bool) (live : List Alloc)
    (s r : Image) : Prop :=
  ∃ file r', s.writeHeapAndStack io p fortran = some file ∧
    r.readHeapAndStack io' q mremap fortran file = some (r', []) ∧ Recovered s.heap live r'.heap ∧
    Has s (fileVars fortran ++ skipVars) r'

section Run

variable {io : Calls} {p q : Mappings} {mremap : Nat → Bool} {s r : Image} {g : Layout} {live : List Alloc} {vs : List Nat}
  {k : Nat}

theorem size_lt (ho : s.Octets) (v : Var) : s.size v < 2 ^ 63 := by
  have hint : ∀ v, s.int v < 2 ^ 63 := fun v => lt_trans (ofBytes_lt (ho v) 4) (by decide)
  cases v <;> first | exact hint _ | (simp only [size]; decide)

theorem checkpointBuffers_lt {nodes : List Buffer} (p : Mappings) (fortran : Bool) (vs : List Nat) (ho : s.Octets)
    (hnodes : ∀ b ∈ nodes, b.size < 2 ^ 63) : ∀ b ∈ s.checkpointBuffers p fortran nodes vs, b.size < 2 ^ 63 := by
  have hvars : ∀ us : List Var, ∀ b ∈ us.map s.buffer, b.size < 2 ^ 63 := by
    intro us b hb
    obtain ⟨v, _, rfl⟩ := mem_map.mp hb
    exact size_lt ho v
  have hlocus : ∀ l : Locus, ∀ b ∈ l.buffers, b.size < 2 ^ 63 := by
    intro l b hb
    simp only [Locus.buffers, mem_cons, not_mem_nil, or_false] at hb
    rcases hb with rfl | rfl
    · exact show 256 < 2 ^ 63 by decide
    · exact show 8 < 2 ^ 63 by decide
  have hloci : ∀ {α : Type} (l : List α) (f : α → Locus), ∀ b ∈ l.flatMap fun a => (f a).buffers, b.size < 2 ^ 63 := by
    intro α l f b hb
    obtain ⟨a, _, hb⟩ := mem_flatMap.mp hb
    exact hlocus _ b hb
  have happend : ∀ {bs cs : List Buffer}, (∀ b ∈ bs, b.size < 2 ^ 63) → (∀ b ∈ cs, b.size < 2 ^ 63) →
      ∀ b ∈ bs ++ cs, b.size < 2 ^ 63 := fun h h' => forall_mem_append.mpr ⟨h, h'⟩
  have hword : ∀ v, ∀ b ∈ [Buffer.word v], b.size < 2 ^ 63 := fun v b hb => by
    rw [mem_singleton.mp hb]
    exact show 8 < 2 ^ 63 by decide
  have hheads : ∀ b ∈ [(⟨9 * 8, binBytes s.heap.bins⟩ : Buffer), ⟨9 * 8, binBytes s.heap.fastbins⟩],
      b.size < 2 ^ 63 := by
    intro b hb
    simp only [mem_cons, not_mem_nil, or_false] at hb
    rcases hb with rfl | rfl <;> exact show 9 * 8 < 2 ^ 63 by decide
  have hfront := happend (happend (happend (happend (hvars contextVars)
    (hloci s.regs fun ik => p.describeReg (s.regVals ik.1 ik.2))) (hvars sizeVars)) (hvars (segmentVars fortran)))
    (hword s.heap.extHeapSize)
  have htail := happend (hloci vs p.describe) (hvars counterVars)
  exact happend (happend hfront (happend hheads hnodes)) (happend (hword _) (happend (hvars savedVars) htail))

theorem tileBuffers_lt (hr : s.heap.Rest g ∅) : ∀ b ∈ g.tiles.flatMap (s.heap.tileBuffers g), b.size < 2 ^ 63 := by
  intro b hb
  obtain ⟨x, hx, hb⟩ := mem_flatMap.mp hb
  have hlt := hr.shape.size_lt hx
  have hsize : b.size = 24 ∨ b.size = x.size ∨ b.size = 8 := by
    simp only [tileBuffers, mem_append, mem_singleton] at hb
    rcases hb with (rfl | hb) | rfl
    · exact .inl rfl
    · split at hb
      · rw [mem_singleton.mp hb]
        exact .inr (.inl rfl)
      · cases hb
    · exact .inr (.inr rfl)
  omega

theorem tileReads_lt (hr : s.heap.Rest g ∅) : ∀ b ∈ g.tiles.flatMap (s.heap.tileReads g), b.size < 2 ^ 63 := by
  intro b hb
  obtain ⟨x, hx, hb⟩ := mem_flatMap.mp hb
  apply tileBuffers_lt hr b
  refine mem_flatMap.mpr ⟨x, hx, ?_⟩
  simp only [tileReads, tileBuffers, mem_append] at hb ⊢
  rcases hb with hb | hb | hb
  · exact .inl (.inl hb)
  · split at hb
    next hp =>
      rw [if_pos hp.1]
      exact .inl (.inr hb)
    next => cases hb
  · exact .inr hb

theorem fileOf_nodes (h : Heap) (g : Layout) (l : List Tile) :
    fileOf (l.flatMap (h.tileReads g)) = fileOf (l.flatMap (h.tileBuffers g)) := by
  induction l with
  | nil => rfl
  | cons x l ih => rw [flatMap_cons, flatMap_cons, fileOf_append, fileOf_append, ih, fileOf_tileReads]

theorem writeHeapAndStack_spec (p : Mappings) (fortran : Bool) (hp : io.Progress) (hr : s.heap.Rest g ∅)
    (hsized : s.heap.Sized) (ho : s.Octets) (hfiles : s.openFiles = some vs) :
    s.writeHeapAndStack io p fortran =
      some (fileOf (s.checkpointBuffers p fortran (g.tiles.flatMap (s.heap.tileReads g)) vs)) := by
  have hnodes := hr.nodeBuffers hsized s.heap.nodeLimit hr.shape.tiles (fun _ hx => hx) hr.shape.length_tiles
  obtain ⟨k, hrun⟩ := writeAll_spec hp 0 [] (checkpointBuffers_lt p fortran vs ho (tileBuffers_lt hr))
  have hfile : fileOf (s.checkpointBuffers p fortran (g.tiles.flatMap (s.heap.tileReads g)) vs) =
      fileOf (s.checkpointBuffers p fortran (g.tiles.flatMap (s.heap.tileBuffers g)) vs) := by
    simp only [checkpointBuffers, fileOf_append, fileOf_nodes]
  simp only [writeHeapAndStack, hnodes, hfiles, bind_eq_bind, bind_some, hrun, hfile, nil_append]

theorem feeds_checkpoint (p : Mappings) (fortran : Bool) (vs : List Nat) (hp : io.Progress) (hr : s.heap.Rest g ∅)
    (ho : s.Octets) :
    ∃ k, Feeds (readFile io) (fileOf (s.checkpointBuffers p fortran (g.tiles.flatMap (s.heap.tileReads g)) vs), 0)
      (s.checkpointBuffers p fortran (g.tiles.flatMap (s.heap.tileReads g)) vs) ([], k) := by
  have hfeed := feeds_readFile (k := 0) [] hp (checkpointBuffers_lt p fortran vs ho (tileReads_lt hr))
  rwa [append_nil] at hfeed

variable {file : List Nat}

theorem readHeapAndStack_spec (mremap : Nat → Bool) (fortran : Bool) (hr : s.heap.Rest g ∅) (hl : s.heap.Live g live)
    (hw : s.heap.Words) (hsized : s.heap.Sized) (hm : mremap s.heap.extHeapSize = true) (hjoin : Joins s.heap r.heap)
    (hle : r.heap.extHeapSize ≤ s.heap.extHeapSize) (hsettled : Settled p q s (s.heap.loadLive live) vs)
    (hfeed : Feeds (readFile io) (file, 0)
      (s.checkpointBuffers p fortran (g.tiles.flatMap (s.heap.tileReads g)) vs) ([], k)) :
    ∃ r', r.readHeapAndStack io q mremap fortran file = some (r', []) ∧ s.heap.Restored g r'.heap ∧
      r'.heap.extHeapSize = s.heap.extHeapSize ∧ Has s (fileVars fortran) r' ∧ ∀ v ∈ skipVars, r'.var v = r.var v := by
  have hlimit := hr.shape.limit
  have hlt : s.heap.extHeapSize < 2 ^ 64 := by
    have := hsized.1
    unfold addressLimit at hlimit
    omega
  obtain ⟨t₂, hfeed, hrest⟩ := feeds_append.mp hfeed
  obtain ⟨t₁, hfront, hheap⟩ := feeds_append.mp hfeed
  obtain ⟨_, ⟨t₃, hstk, rfl⟩, hrest⟩ := feeds_append.mp hrest
  obtain ⟨t₄, hlists, htail⟩ := feeds_append.mp hrest
  obtain ⟨r₁, hrun₁, ho₁, hh₁, hsame₁, hhp⟩ := takeFront_spec (r := r) (q := q) hlt hfront
  rw [← ho₁.heap] at hjoin hle
  obtain ⟨h₂, hrun₂, hres, hsize⟩ := takeSavedHeap_spec hr hw hsized hm hjoin hle hhp hheap
  let r₂ : Image := { r₁ with heap := h₂ }
  let r₃ := r₂.setVar .stksize ((Buffer.word (256 * 1024)).overlay (r₂.var .stksize))
  have hrun₃ : r₂.takeVar (readFile io) .stksize t₂ = some (r₃, t₃) := takeVar_eq rfl hstk
  have ho₃ : Only [.stksize] r₂ r₃ := only_setVar (by decide)
  have hstksize : r₃.ptr .stksize = 256 * 1024 := by
    exact Buffer.ofBytes_word (by decide)
  have hsame₃ : SameSizes s r₃ := SameSizes.only (r := r₂) hsame₁ ho₃ (by decide) (by decide)
  obtain ⟨r₄, hrun₄, ho₄, hh₄⟩ := takeVars_sized (r := r₃) hsame₃ (by decide) (by decide) hlists
  have hheap₄ : r₄.heap = h₂ := ho₄.heap.trans ho₃.heap
  have hlimit₄ : r₄.heap.nodeLimit = s.heap.nodeLimit := by
    rw [hheap₄, nodeLimit, nodeLimit, hres.start, hres.stop]
  have hsettled₄ : Settled p q r₄ (s.heap.loadLive live) vs := hsettled.has hlimit₄ hh₄ (by decide)
  obtain ⟨r', hrun₅, ho₅, hh₅⟩ := takeTail_spec (fun a v => by rw [hheap₄]; exact hres.load hr hl) hsettled₄ htail
  refine ⟨r', ?_, ?_, ?_, ?_, fun v hv => ?_⟩
  · have hvar : r₂.takeVars (readFile io) [.stksize] t₂ = some (r₃, t₃) := by simp [takeVars, hrun₃]
    simp only [readHeapAndStack, hrun₁, bind_eq_bind, bind_some, hrun₂]
    rw [hvar]
    simp only [bind_some, hstksize, if_true, hrun₄, hrun₅]
  · rw [ho₅.heap, hheap₄]
    exact hres
  · rw [ho₅.heap, hheap₄]
    exact hsize
  · have hdisj : (∀ v ∈ frontVars fortran, v ∉ [Var.stksize] ∧ v ∉ savedVars ∧ v ∉ [Var.mapname, Var.offset] ++ counterVars) ∧
        ∀ v ∈ savedVars, v ∉ [Var.mapname, Var.offset] ++ counterVars := by
      cases fortran <;> decide
    have hfront₃ : Has s (frontVars fortran) r₃ := Has.only (r := r₂) hh₁ ho₃ fun v hv => (hdisj.1 v hv).1
    have hfront₄ : Has s (frontVars fortran) r₄ := hfront₃.only ho₄ fun v hv => (hdisj.1 v hv).2.1
    exact ((hfront₄.only ho₅ fun v hv => (hdisj.1 v hv).2.2).append (hh₄.only ho₅ hdisj.2)).append hh₅
  · have hskip : ∀ v ∈ skipVars, v ∉ [Var.mapname, Var.offset] ++ counterVars ∧ v ∉ savedVars ∧ v ∉ [Var.stksize] ∧
        v ∉ frontVars fortran ++ scratchVars := by
      cases fortran <;> decide
    obtain ⟨h₅, h₄, h₃, h₁⟩ := hskip v hv
    exact (ho₅.var v h₅).trans ((ho₄.var v h₄).trans ((ho₃.var v h₃).trans (ho₁.var v h₁)))

theorem readHeapAndStack_larger (mremap : Nat → Bool) (fortran : Bool) (hr : s.heap.Rest g ∅) (hsized : s.heap.Sized)
    (hm : mremap s.heap.extHeapSize = true) (hjoin : Joins s.heap r.heap)
    (hlarger : s.heap.extHeapSize < r.heap.extHeapSize)
    (hfeed : Feeds (readFile io) (file, 0)
      (s.checkpointBuffers p fortran (g.tiles.flatMap (s.heap.tileReads g)) vs) ([], k)) :
    r.readHeapAndStack io q mremap fortran file = none := by
  have hlimit := hr.shape.limit
  have hlt : s.heap.extHeapSize < 2 ^ 64 := by
    have := hsized.1
    unfold addressLimit at hlimit
    omega
  obtain ⟨t₂, hfeed, hrest⟩ := feeds_append.mp hfeed
  obtain ⟨t₁, hfront, hheap⟩ := feeds_append.mp hfeed
  obtain ⟨r₁, hrun₁, ho₁, _, _, hhp⟩ := takeFront_spec (r := r) (q := q) hlt hfront
  rw [← ho₁.heap] at hjoin hlarger
  obtain ⟨_, gr, hrr, _⟩ := hjoin.invariant
  have hregrow := hrr.regrow_smaller hjoin.sized hm hlarger
  simp only [readHeapAndStack, hrun₁, takeSavedHeap, hhp, hregrow, bind_eq_bind, bind_some, bind_none]

end Run

/-- When every call moves a byte, the checkpoint comes back exactly when the heap of the reader is not larger than the
one in the file and its lists of skipped messages, which the file does not have, are those of the writer. -/
theorem round_trips_iff_not_larger {s r : Image} {live : List Alloc} {vs : List Nat} (io io' : Calls) (p q : Mappings)
    (mremap : Nat → Bool) (fortran : Bool) (hp : io.Progress) (hp' : io'.Progress) (hi : s.heap.Invariant live)
    (hw : s.heap.Words) (ho : s.Octets) (hsized : s.heap.Sized) (hm : mremap s.heap.extHeapSize = true)
    (hsettled : Settled p q s (s.heap.loadLive live) vs) (hjoin : Joins s.heap r.heap) :
    RoundTrips io io' p q mremap fortran live s r ↔ r.heap.extHeapSize ≤ s.heap.extHeapSize ∧ Has s skipVars r := by
  obtain ⟨g, hr, hl⟩ := hi
  have hfiles : s.openFiles = some vs := vtables_mono (fun _ _ ha => loadLive_load ha) hsettled.files
  have hwrite := writeHeapAndStack_spec p fortran hp hr hsized ho hfiles
  obtain ⟨k, hfeed⟩ := feeds_checkpoint p fortran vs hp' hr ho
  have hspec := fun hle =>
    readHeapAndStack_spec (r := r) mremap fortran hr hl hw hsized hm hjoin hle hsettled hfeed
  constructor
  · rintro ⟨file, r', hwrite', hread, _, hhas⟩
    obtain rfl := some_inj.mp (hwrite'.symm.trans hwrite)
    have hle : r.heap.extHeapSize ≤ s.heap.extHeapSize := by
      by_contra hlarger
      have hnone := readHeapAndStack_larger (r := r) (q := q) mremap fortran hr hsized hm hjoin (not_le.mp hlarger) hfeed
      cases hnone.symm.trans hread
    obtain ⟨r'', hread', -, -, -, hkept⟩ := hspec hle
    obtain rfl : r' = r'' := congrArg Prod.fst (some_inj.mp (hread.symm.trans hread'))
    refine ⟨hle, fun v hv o hlt => ?_⟩
    rw [← hkept v hv]
    exact hhas v (mem_append_right _ hv) o hlt
  · rintro ⟨hle, hskips⟩
    obtain ⟨r', hread, hres, hsize, hhas, hkept⟩ := hspec hle
    have hskips' : Has s skipVars r' := by
      intro v hv o hlt
      rw [hkept v hv]
      exact hskips v hv o hlt
    refine ⟨_, r', hwrite, hread, ⟨hsize, ⟨g, hr, hl, hres⟩, ?_, g, hres.rest hr, hres.keeps_live hl⟩,
      hhas.append hskips'⟩
    intro e he w h8 hlo hhi
    obtain ⟨x, hx, hheld⟩ := hl.held e he
    obtain ⟨hlo', hhi', _⟩ := hheld
    exact hres.used x hx w h8 (by omega) (by omega)

/-- A process writes its checkpoint one byte at a time, and a process whose heap has half the size reads it. -/
theorem fresh_checkpoint_restored :
    RoundTrips ⟨fun _ => 1, 0⟩ ⟨fun k => k + 1, 0⟩ unnamed unnamed (fun _ => true) true []
      (idle (wholeHeap heapStart (2 * heapSize - 32) fun _ => 5))
      (idle (wholeHeap heapStart (heapSize - 32) fun _ => 7)) := by
  have hjoin : Joins (wholeHeap heapStart (2 * heapSize - 32) fun _ => 5)
      (wholeHeap heapStart (heapSize - 32) fun _ => 7) :=
    ⟨rfl, ⟨by decide, by decide⟩, [], wholeHeap_at_start _ (by decide) (by decide) (by decide)⟩
  have hbytes : (idle (wholeHeap heapStart (2 * heapSize - 32) fun _ => 5)).Octets := fun _ _ => by
    show 0 < 256
    decide
  exact (round_trips_iff_not_larger (s := idle (wholeHeap heapStart (2 * heapSize - 32) fun _ => 5))
    (r := idle (wholeHeap heapStart (heapSize - 32) fun _ => 7)) ⟨fun _ => 1, 0⟩ ⟨fun k => k + 1, 0⟩ unnamed
    unnamed (fun _ => true) true (fun _ => Int.le_refl 1) (fun k => by show (1 : Int) ≤ k + 1; omega)
    (wholeHeap_at_start _ (by decide) (by decide) (by decide)) (wholeHeap_words (fun _ => by decide) (by decide)) hbytes
    ⟨by decide, by decide⟩ rfl (idle_settled _ _) hjoin).mpr ⟨by decide, fun _ _ _ _ => rfl⟩

/-- A process with the smallest heap writes its checkpoint, and a process whose heap has been expanded once is to
read it. -/
theorem larger_reader_not_restored :
    ¬ RoundTrips ⟨fun _ => 1, 0⟩ ⟨fun _ => 1, 0⟩ unnamed unnamed (fun _ => true) false []
      (idle (wholeHeap heapStart (heapSize - 32) fun _ => 0))
      (idle (wholeHeap heapStart (2 * heapSize - 32) fun _ => 0)) := by
  have hp : (⟨fun _ => 1, 0⟩ : Calls).Progress := fun _ => Int.le_refl 1
  let h := wholeHeap heapStart (heapSize - 32) fun _ => 0
  have hsized : h.Sized := ⟨by decide, by decide⟩
  have hbytes : (idle h).Octets := fun _ _ => by
    show 0 < 256
    decide
  obtain ⟨g, hr, _⟩ : h.Invariant [] := wholeHeap_at_start _ (by decide) (by decide) (by decide)
  have hfiles : (idle h).openFiles = some [] := (idle_settled (p := unnamed) (q := unnamed) h h.load).files
  have hjoin : Joins h (wholeHeap heapStart (2 * heapSize - 32) fun _ => 0) :=
    ⟨rfl, ⟨by decide, by decide⟩, [], wholeHeap_at_start _ (by decide) (by decide) (by decide)⟩
  have hwrite := writeHeapAndStack_spec (s := idle h) unnamed false hp hr hsized hbytes hfiles
  obtain ⟨k, hfeed⟩ := feeds_checkpoint (s := idle h) unnamed false [] hp hr hbytes
  rintro ⟨file, r', hwrite', hread, _⟩
  obtain rfl := some_inj.mp (hwrite'.symm.trans hwrite)
  have hnone := readHeapAndStack_larger (s := idle h) (q := unnamed)
    (r := idle (wholeHeap heapStart (2 * heapSize - 32) fun _ => 0)) (fun _ => true) false hr hsized rfl hjoin (by decide) hfeed
  cases hnone.symm.trans hread

end Image

end ParepMpi
