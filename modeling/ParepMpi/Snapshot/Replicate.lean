import ParepMpi.Snapshot.Transfer
import ParepMpi.Heap.Contract

/-!
# Replication of a compute process

`parep_mpi_send_replication_data` hands the image of a compute process to its replica in messages whose tags count up,
and `parep_mpi_recv_replication_data` takes them in.
-/

namespace ParepMpi

open Bytewise Option Function Heap

structure Envelope where
  tag : Nat
  length : Nat
  deriving DecidableEq, Repr

structure Parcel where
  envelope : Envelope
  byte : Nat → Nat

def replicationTag (tagbase : Nat) : Nat := (1234 + tagbase) % 2147483647

def sendAll : Nat → List Buffer → List Parcel
  | _, [] => []
  | tagbase, b :: bs => ⟨⟨replicationTag tagbase, b.size⟩, b.byte⟩ :: sendAll (tagbase + 1) bs

/-- The messages that are under way, in order, and the receives so far. -/
structure Inbox where
  queue : List Parcel
  posted : List Envelope

/-- `EMPI_Recv`. -/
def recv : Source Inbox := fun old n q =>
  match q.queue with
  | [] => none
  | m :: rest =>
    let posted : Envelope := ⟨replicationTag q.posted.length, n⟩
    if m.envelope.tag = posted.tag ∧ m.envelope.length ≤ n then
      some (Buffer.overlay ⟨m.envelope.length, m.byte⟩ old, ⟨rest, q.posted ++ [posted]⟩)
    else none

def chunk : Nat := 0x20000000

def chunkSize (size k : Nat) : Nat := if k * chunk + chunk > size then size - k * chunk else chunk

namespace Heap

def chunkBuffers (h : Heap) : Nat → Nat → List Buffer
  | 0, _ => []
  | m + 1, k => ⟨chunkSize h.extHeapSize k, h.window (h.start + k * chunk)⟩ :: chunkBuffers h m (k + 1)

/-- The replica brings its heap to `hpsize` bytes. -/
def resize (mremap : Nat → Bool) (h : Heap) (hpsize : Nat) : Option Heap :=
  if hpsize ≠ h.extHeapSize then do
    let h ← if hpsize < h.extHeapSize then
        if mremap hpsize then
          some { h with extHeapSize := hpsize, stop := h.start + hpsize, mapEnd := h.start + hpsize }
        else none
      else some h
    let (h, _) ← h.expandHeap mremap (sub64 hpsize h.extHeapSize)
    some h
  else some h

end Heap

namespace Image

def takeChunks {τ : Type} (fetch : Source τ) : Nat → Nat → Image → τ → Option (Image × τ)
  | 0, _, im, t => some (im, t)
  | m + 1, k, im, t => do
      let (im, t) ← im.takeHeap fetch (im.heap.start + k * chunk) (chunkSize im.heap.extHeapSize k) t
      takeChunks fetch m (k + 1) im t

def heapBuffers (s : Image) : List Buffer :=
  [⟨9 * 8, binBytes s.heap.bins⟩, ⟨9 * 8, binBytes s.heap.fastbins⟩] ++
    s.heap.chunkBuffers (s.heap.extHeapSize / chunk) 0

def takeReplicaHeap {τ : Type} (fetch : Source τ) (mremap : Nat → Bool) (r : Image) (t : τ) : Option (Image × τ) := do
  let heap ← r.heap.resize mremap (r.ptr .hpsize)
  let (r, t) ← { r with heap := heap }.takeBins fetch t
  let (r, t) ← r.takeFastbins fetch t
  r.takeChunks fetch (r.heap.extHeapSize / chunk) 0 t

def sendReplicationData (p : Mappings) (fortran : Bool) (s : Image) : Option (List Buffer) := do
  let vs ← s.openFiles
  some (s.frontBuffers p fortran ++ s.heapBuffers ++ ((.stack :: listVars skipVars).map s.buffer ++ s.tailBuffers p vs))

def recvReplicationData (p : Mappings) (mremap : Nat → Bool) (fortran : Bool) (r : Image) (q : Inbox) :
    Option (Image × Inbox) := do
  let (r, q) ← r.takeFront recv p fortran q
  let (r, q) ← r.takeReplicaHeap recv mremap q
  let (r, q) ← r.takeVars recv (.stack :: listVars skipVars) q
  r.takeTail recv p q

end Image

theorem feeds_recv (bs : List Buffer) (posted : List Envelope) : Feeds recv ⟨sendAll posted.length bs, posted⟩ bs
      ⟨[], posted ++ (sendAll posted.length bs).map Parcel.envelope⟩ := by
  induction bs generalizing posted with
  | nil => simp [Feeds, sendAll]
  | cons b bs ih =>
    refine ⟨⟨sendAll (posted.length + 1) bs, posted ++ [⟨replicationTag posted.length, b.size⟩]⟩, ?_, ?_⟩
    · intro old
      simp [recv, sendAll]
    · have hrest := ih (posted ++ [⟨replicationTag posted.length, b.size⟩])
      simpa [sendAll] using hrest

namespace Heap

variable {h : Heap} {g : Layout} {n : Nat} {mremap : Nat → Bool}

/-- `parep_mpi_ext_heap_size` is the size of the heap. -/
def Sized (h : Heap) : Prop := h.extHeapSize = h.stop - h.start ∧ heapSize ∣ h.stop - h.start

theorem expandHeap_extHeapSize {h' : Heap} {sz : Nat} (hsz : sz ≠ 0)
    (hrun : h.expandHeap mremap sz = some (h', true)) : h'.extHeapSize = h'.stop - h'.start := by
  simp only [expandHeap, if_neg hsz] at hrun
  split at hrun
  · simp at hrun
  · simp only [bind_eq_bind, bind_eq_some_iff] at hrun
    obtain ⟨_, _, _, _, hrun⟩ := hrun
    split at hrun
    all_goals
      simp only [bind_eq_some_iff] at hrun
      obtain ⟨h₁, _, heq⟩ := hrun
      obtain ⟨rfl, _⟩ := Prod.mk.inj (some_inj.mp heq)
      rfl

/-- The heap has `n` bytes, and the bins that no node can be in are empty. -/
structure Resized (h : Heap) (a n : Nat) : Prop where
  start : h.start = a
  stop : h.stop = a + n
  mapped : a + n ≤ h.mapEnd
  extHeapSize : h.extHeapSize = n
  high : ∀ i, 9 ≤ i → h.bins i = 0 ∧ h.fastbins i = 0

theorem Rest.resize (hr : Rest h g ∅) (hsized : h.Sized) (hn : heapSize ∣ n) (hm : mremap n = true)
    (hlimit : h.start + n ≤ addressLimit) :
    ∃ h', h.resize mremap n = some h' ∧ Resized h' h.start n ∧ (h.extHeapSize = n → h' = h) := by
  obtain ⟨hext, hdvd⟩ := hsized
  have hroom := hr.shape.room
  have hmapped := hr.shape.mapped
  have hhigh : ∀ i, 9 ≤ i → h.bins i = 0 ∧ h.fastbins i = 0 := fun i => hr.bins_high
  unfold heapSize at hn hdvd hroom
  unfold Heap.resize
  rcases lt_trichotomy n h.extHeapSize with hlt | heq | hgt
  · refine ⟨{ h with extHeapSize := n, stop := h.start + n, mapEnd := h.start + n }, ?_,
      ⟨rfl, rfl, le_rfl, rfl, hhigh⟩, fun heq => by omega⟩
    have hzero : sub64 n n = 0 := by
      unfold addressLimit at hlimit
      unfold sub64
      omega
    simp [ne_of_lt hlt, hlt, hm, hzero, Heap.expandHeap]
  · exact ⟨h, by simp [heq], ⟨rfl, by omega, by omega, heq.symm, hhigh⟩, fun _ => rfl⟩
  · have hsub : sub64 n h.extHeapSize = n - h.extHeapSize := by
      unfold addressLimit at hlimit
      unfold sub64
      omega
    have hlen : h.stop - h.start + (n - h.extHeapSize) = n := by omega
    have h8 : 8 ∣ n - h.extHeapSize := by omega
    have hexp := hr.expandHeap mremap h8 (by omega) (by
      unfold addressLimit at hlimit
      omega)
    rw [hlen, hm, if_neg (by simp only [Bool.true_eq_false, false_or]; omega)] at hexp
    obtain ⟨h', g', hrun, he⟩ := hexp
    have hstop := he.stop
    have hstart := he.kept.start
    have hmapped' := he.rest.shape.mapped
    refine ⟨h', by simp [Nat.ne_of_gt hgt, Nat.lt_asymm hgt, hsub, hrun], ⟨hstart, by omega, by omega, ?_, ?_⟩,
      fun heq => by omega⟩
    · rw [expandHeap_extHeapSize (by omega) hrun]
      omega
    · intro i hi
      exact he.rest.bins_high hi

end Heap

namespace Image

variable {τ : Type} {fetch : Source τ} {t t' : τ} {s r : Image} {m k : Nat}

theorem chunkSize_eq {size : Nat} (hk : k < size / chunk) : chunkSize size k = chunk := by
  have hle : (k + 1) * chunk ≤ size := (Nat.le_div_iff_mul_le (by decide)).mp hk
  rw [Nat.add_mul, Nat.one_mul] at hle
  exact if_neg (by omega)

theorem takeChunks_spec (hw : s.heap.Words) (h8 : 8 ∣ s.heap.start) (hstart : r.heap.start = s.heap.start)
    (hext : r.heap.extHeapSize = s.heap.extHeapSize) (hmapped : s.heap.start + s.heap.extHeapSize ≤ r.heap.mapEnd)
    (hlimit : s.heap.start + s.heap.extHeapSize ≤ addressLimit) (hm : k + m = s.heap.extHeapSize / chunk)
    (hfeed : Feeds fetch t (s.heap.chunkBuffers m k) t') :
    ∃ mem, r.takeChunks fetch m k t = some ({ r with heap := { r.heap with mem := mem } }, t') ∧
      Heap.Copied s.heap.mem (fun w => s.heap.start + k * chunk ≤ w ∧ w < s.heap.start + (k + m) * chunk)
        r.heap.mem mem := by
  have hend : (k + m) * chunk ≤ s.heap.extHeapSize := hm ▸ Nat.div_mul_le_self _ _
  induction m generalizing k r t with
  | zero =>
    obtain rfl := hfeed
    refine ⟨r.heap.mem, rfl, copied_none fun w h => ?_⟩
    rw [add_zero] at h
    omega
  | succ m ih =>
    obtain ⟨t₁, hfetch, hrest⟩ := hfeed
    have hsize : chunkSize s.heap.extHeapSize k = chunk := chunkSize_eq (by omega)
    have hnext : (k + 1) * chunk = k * chunk + chunk := Nat.succ_mul _ _
    have hle : (k + 1) * chunk ≤ (k + (m + 1)) * chunk := Nat.mul_le_mul_right _ (by omega)
    have hchunk : 8 ∣ k * chunk := Nat.dvd_mul_left_of_dvd (by decide) k
    have hcount : k + 1 + m = k + (m + 1) := by omega
    simp only [hsize] at hfetch
    obtain ⟨mem₁, hstep, hcopy₁⟩ := takeHeap_spec (r := r) (a := s.heap.start + k * chunk) hw
      (Nat.dvd_add h8 hchunk) (show 8 ∣ chunk by decide) (by omega) (by omega) (by omega) hfetch
    have hstep' : r.takeHeap fetch (r.heap.start + k * chunk) (chunkSize r.heap.extHeapSize k) t =
        some ({ r with heap := { r.heap with mem := mem₁ } }, t₁) := by
      rw [hstart, hext, hsize]
      exact hstep
    obtain ⟨mem, hrun, hcopy⟩ := ih (r := { r with heap := { r.heap with mem := mem₁ } }) (k := k + 1) hstart
      hext hmapped (hcount ▸ hm) hrest (by rw [hcount]; exact hend)
    rw [hcount] at hcopy
    refine ⟨mem, by simp only [takeChunks, hstep', bind_eq_bind, bind_some, hrun], ?_⟩
    apply hcopy₁.trans hw.mem hcopy
    intro w
    omega

/-- What the replica has of the heap of the compute process: all but the bytes after the last whole chunk. -/
structure Received (s r : Heap) (h : Heap) : Prop where
  start : h.start = s.start
  stop : h.stop = s.stop
  mapped : s.stop ≤ h.mapEnd
  extHeapSize : h.extHeapSize = s.extHeapSize
  bins : h.bins = s.bins
  fastbins : h.fastbins = s.fastbins
  chunks : ∀ w, 8 ∣ w → s.start ≤ w → w < s.start + s.extHeapSize / chunk * chunk → h.mem w = s.mem w
  rest : r.extHeapSize = s.extHeapSize → ∀ w, 8 ∣ w → s.start + s.extHeapSize / chunk * chunk ≤ w → w < s.stop →
    r.mem w < 2 ^ 64 → h.mem w = r.mem w

/-- The heap of the replica starts where that of the compute process does. -/
structure Joins (s r : Heap) : Prop where
  start : r.start = s.start
  sized : r.Sized
  invariant : ∃ live, r.Invariant live

variable {g : Layout} {mem : Nat → Nat}

theorem takeHeads_spec {h : Heap} {a n : Nat} {tb tf : τ} (hr : s.heap.Rest g ∅) (hw : s.heap.Words)
    (hre : h.Resized a n)
    (hbins : ∀ old, fetch old (9 * 8) t = some (Buffer.overlay ⟨9 * 8, binBytes s.heap.bins⟩ old, tb))
    (hfast : ∀ old, fetch old (9 * 8) tb = some (Buffer.overlay ⟨9 * 8, binBytes s.heap.fastbins⟩ old, tf)) :
    { r with heap := h }.takeBins fetch t = some ({ r with heap := { h with bins := s.heap.bins } }, tb) ∧
      { r with heap := { h with bins := s.heap.bins } }.takeFastbins fetch tb =
        some ({ r with heap := { h with bins := s.heap.bins, fastbins := s.heap.fastbins } }, tf) := by
  have hhigh : ∀ i, 9 ≤ i → h.bins i = s.heap.bins i ∧ h.fastbins i = s.heap.fastbins i := by
    intro i hi
    rw [(hre.high i hi).1, (hre.high i hi).2, (hr.bins_high hi).1, (hr.bins_high hi).2]
    exact ⟨rfl, rfl⟩
  exact ⟨takeBins_eq (r := { r with heap := h }) hw (fun i hi => (hhigh i hi).1) hbins,
    takeFastbins_eq (r := { r with heap := { h with bins := s.heap.bins } }) hw (fun i hi => (hhigh i hi).2) hfast⟩

theorem takeReplicaHeap_spec {mremap : Nat → Bool} (hr : s.heap.Rest g ∅) (hw : s.heap.Words)
    (hsized : s.heap.Sized) (hm : mremap s.heap.extHeapSize = true) (hjoin : Joins s.heap r.heap)
    (hhp : r.ptr .hpsize = s.heap.extHeapSize) (hfeed : Feeds fetch t s.heapBuffers t') :
    ∃ h, r.takeReplicaHeap fetch mremap t = some ({ r with heap := h }, t') ∧ Received s.heap r.heap h := by
  obtain ⟨hext, hdvd⟩ := hsized
  have hroom := hr.shape.room
  have hlimit := hr.shape.limit
  obtain ⟨live, gr, hrr, _⟩ := hjoin.invariant
  obtain ⟨tb, hbins, tf, hfast, hchunks⟩ := hfeed
  obtain ⟨h₂, hrun₂, hre, hsame⟩ := hrr.resize (n := s.heap.extHeapSize) hjoin.sized (hext ▸ hdvd) hm
    (by rw [hjoin.start]; omega)
  rw [hjoin.start] at hre
  obtain ⟨hrun₃, hrun₄⟩ := takeHeads_spec (r := r) hr hw hre hbins hfast
  obtain ⟨mem, hrun₅, hcopy⟩ := takeChunks_spec
    (r := { r with heap := { h₂ with bins := s.heap.bins, fastbins := s.heap.fastbins } }) hw hr.shape.dvd_start
    hre.start hre.extHeapSize hre.mapped (by omega) (zero_add _) hchunks
  rw [Nat.zero_mul, add_zero, zero_add] at hcopy
  refine ⟨{ h₂ with bins := s.heap.bins, fastbins := s.heap.fastbins, mem := mem }, ?_, hre.start, ?_, ?_,
    hre.extHeapSize, rfl, rfl, ?_, ?_⟩
  · rw [← hre.extHeapSize] at hrun₅
    simp only [takeReplicaHeap, hhp, hrun₂, bind_eq_bind, bind_some, hrun₃, hrun₄, hrun₅]
  · rw [hre.stop]
    omega
  · have := hre.mapped
    show s.heap.stop ≤ h₂.mapEnd
    omega
  · intro w h8 hlo hhi
    have hend : s.heap.extHeapSize / chunk * chunk ≤ s.heap.extHeapSize := Nat.div_mul_le_self _ _
    exact (hcopy w h8 (by omega)).1 ⟨hlo, hhi⟩
  · intro hsize w h8 hlo hhi hword
    obtain rfl := hsame hsize
    exact (hcopy w h8 (by omega)).2 (by omega) hword

def copiedVars (fortran : Bool) : List Var := frontVars fortran ++ (.stack :: listVars skipVars) ++ counterVars

/-- The replica ends with the heap and the variables of the compute process, each receive has taken the message that
was sent at its position, with the same tag and the same length, and there is no other message. -/
def Replicates (p q : Mappings) (mremap : Nat → Bool) (fortran : Bool) (s r : Image) : Prop :=
  ∃ bs r', s.sendReplicationData p fortran = some bs ∧
    r.recvReplicationData q mremap fortran ⟨sendAll 0 bs, []⟩ = some (r', ⟨[], (sendAll 0 bs).map Parcel.envelope⟩) ∧
    s.heap.Same r'.heap ∧ (∀ live, s.heap.Invariant live → r'.heap.Invariant live) ∧ Has s (copiedVars fortran) r'

section Run

variable {p q : Mappings} {mremap : Nat → Bool} {g : Layout} {load : Nat → Option Nat} {vs : List Nat}

theorem recvReplicationData_spec (fortran : Bool) (hr : s.heap.Rest g ∅) (hw : s.heap.Words) (hsized : s.heap.Sized)
    (hm : mremap s.heap.extHeapSize = true) (hjoin : Joins s.heap r.heap) (hsettled : Settled p q s load vs)
    (hload : ∀ a v, load a = some v → s.heap.load a = some v ∧
      a + 8 ≤ s.heap.start + s.heap.extHeapSize / chunk * chunk) :
    ∃ bs r', s.sendReplicationData p fortran = some bs ∧ r.recvReplicationData q mremap fortran ⟨sendAll 0 bs, []⟩ =
        some (r', ⟨[], (sendAll 0 bs).map Parcel.envelope⟩) ∧
      Received s.heap r.heap r'.heap ∧ Has s (copiedVars fortran) r' := by
  have hlimit := hr.shape.limit
  have hlt : s.heap.extHeapSize < 2 ^ 64 := by
    have := hsized.1
    unfold addressLimit at hlimit
    omega
  have hfiles : s.openFiles = some vs := vtables_mono (fun a v h => (hload a v h).1) hsettled.files
  obtain ⟨bs, hbs⟩ : ∃ bs, bs = s.frontBuffers p fortran ++ s.heapBuffers ++
    ((.stack :: listVars skipVars).map s.buffer ++ s.tailBuffers p vs) := ⟨_, rfl⟩
  have hsend : s.sendReplicationData p fortran = some bs := by
    rw [hbs, sendReplicationData, hfiles]
    rfl
  have hfeed := feeds_recv bs []
  rw [List.length_nil, List.nil_append] at hfeed
  nth_rewrite 2 [hbs] at hfeed
  obtain ⟨t₂, hfeed, hrest⟩ := feeds_append.mp hfeed
  obtain ⟨t₁, hfront, hheap⟩ := feeds_append.mp hfeed
  obtain ⟨t₃, hlists, htail⟩ := feeds_append.mp hrest
  obtain ⟨r₁, hrun₁, ho₁, hh₁, hsame₁, hhp⟩ := takeFront_spec (r := r) (q := q) hlt hfront
  rw [← ho₁.heap] at hjoin
  obtain ⟨h₂, hrun₂, hrec⟩ := takeReplicaHeap_spec hr hw hsized hm hjoin hhp hheap
  rw [ho₁.heap] at hrec
  obtain ⟨r₃, hrun₃, ho₃, hh₃⟩ := takeVars_sized (r := { r₁ with heap := h₂ }) hsame₁ (by decide) (by decide) hlists
  have hlimit₃ : r₃.heap.nodeLimit = s.heap.nodeLimit := by
    rw [ho₃.heap, nodeLimit, nodeLimit, hrec.start, hrec.stop]
  have hsettled₃ : Settled p q r₃ load vs := hsettled.has hlimit₃ hh₃ (by decide)
  have hload₃ : ∀ a v, load a = some v → r₃.heap.load a = some v := by
    intro a v ha
    obtain ⟨hs, hle⟩ := hload a v ha
    obtain ⟨⟨h8, hlo, _⟩, rfl⟩ : s.heap.Mapped a ∧ s.heap.mem a = v := by simpa [Heap.load] using hs
    have hend : s.heap.extHeapSize / chunk * chunk ≤ s.heap.extHeapSize := Nat.div_mul_le_self _ _
    have hmapped : h₂.Mapped a := ⟨h8, hrec.start ▸ hlo, by have := hrec.mapped; have := hsized.1; omega⟩
    rw [ho₃.heap, load_eq hmapped, hrec.chunks a h8 hlo (by omega)]
  obtain ⟨r', hrun₄, ho₄, hh₄⟩ := takeTail_spec hload₃ hsettled₃ htail
  refine ⟨bs, r', hsend, ?_, ?_, ?_⟩
  · simp only [recvReplicationData, hrun₁, bind_eq_bind, bind_some, hrun₂, hrun₃, hrun₄]
  · rw [ho₄.heap, ho₃.heap]
    exact hrec
  · have hdisj : (∀ v ∈ frontVars fortran, v ∉ Var.stack :: listVars skipVars ∧ v ∉ [Var.mapname, Var.offset] ++ counterVars) ∧
        ∀ v ∈ Var.stack :: listVars skipVars, v ∉ [Var.mapname, Var.offset] ++ counterVars := by
      cases fortran <;> decide
    have hfront₃ : Has s (frontVars fortran) r₃ :=
      Has.only (r := { r₁ with heap := h₂ }) hh₁ ho₃ fun v hv => (hdisj.1 v hv).1
    exact ((hfront₃.only ho₄ fun v hv => (hdisj.1 v hv).2).append (hh₃.only ho₄ hdisj.2)).append hh₄

def idle (h : Heap) : Image := ⟨h, fun _ _ => 0, fun _ _ => 0⟩

theorem idle_settled (h : Heap) (load : Nat → Option Nat) : Settled p q (idle h) load [] := by
  have hptr : ∀ v, (idle h).ptr v = 0 := fun v => by simp [ptr, idle, ofBytes]
  refine ⟨?_, by simp, ⟨[], ?_, .inr rfl⟩, [], ?_, .inr rfl⟩
  · rw [hptr]
    rfl
  · rw [hptr]
    rfl
  · rw [hptr]
    rfl

end Run

def wholeHeap (start S : Nat) (mem : Nat → Nat) : Heap where
  mem := update (update (update (update mem (start + 24 + S) start) start
    (2 * 2 ^ 62 + S)) (start + 8) 0) (start + 16) 0
  start := start
  stop := start + 32 + S
  mapEnd := start + 32 + S
  bins := update (fun _ => 0) (getBinIndex S) start
  fastbins := fun _ => 0
  extHeapSize := 32 + S

theorem wholeHeap_invariant {start S : Nat} (mem : Nat → Nat) (hpos : 0 < start) (h8 : 8 ∣ start) (hS : 8 ∣ S)
    (hroom : heapSize ≤ S + 32) (hlimit : start + 32 + S ≤ addressLimit) : (wholeHeap start S mem).Invariant [] := by
  let h₀ : Heap :=
    { mem := update (update mem (start + 24 + S) start) start (2 * 2 ^ 62 + S),
      start := start, stop := start + 32 + S, mapEnd := start + 32 + S, bins := fun _ => 0, fastbins := fun _ => 0,
      extHeapSize := 32 + S }
  have hfoot : h₀.mem (start + 24 + S) = start := by
    show update (update mem _ _) _ _ _ = _
    rw [update_of_ne (by omega), update_self]
  obtain ⟨r, hrun, _, hinv⟩ := addNode_whole (h := h₀) (S := S) hpos h8 hS hroom rfl le_rfl hlimit
    (fun _ => rfl) (fun _ => rfl) (update_self ..) hfoot
  obtain ⟨_, _, _, heq⟩ := addNode_eq_some_iff.mp hrun
  rw [heq] at hinv
  exact hinv

theorem wholeHeap_words {start S : Nat} (hmem : ∀ w, mem w < 2 ^ 64)
    (hlimit : start + 32 + S ≤ addressLimit) : (wholeHeap start S mem).Words := by
  unfold addressLimit at hlimit
  refine ⟨fun w => ?_, fun i => ?_, fun i => ?_⟩
  · have := hmem w
    simp only [wholeHeap, update_apply]
    split_ifs <;> omega
  · simp only [wholeHeap, update_apply]
    split_ifs <;> omega
  · simp only [wholeHeap]
    omega

theorem wholeHeap_inside {start S w : Nat} (hlo : start + 24 ≤ w) (hhi : w < start + 24 + S) :
    (wholeHeap start S mem).mem w = mem w := by
  simp only [wholeHeap]
  rw [update_of_ne (by omega), update_of_ne (by omega), update_of_ne (by omega), update_of_ne (by omega)]

/-- The replica gets the heap of the compute process, whatever its own is, exactly when that heap is a whole number
of chunks. -/
theorem replicates_iff_whole_chunks {h : Heap} {live : List Alloc} (p q : Mappings) (mremap : Nat → Bool)
    (fortran : Bool) (hi : h.Invariant live) (hw : h.Words) (hsized : h.Sized) (hmap : h.mapEnd = h.stop)
    (hm : mremap h.extHeapSize = true) :
    (∀ s r vs, s.heap = h → Settled p q s h.load vs → Joins h r.heap → Replicates p q mremap fortran s r) ↔
      chunk ∣ h.extHeapSize := by
  obtain ⟨g, hr, _⟩ := hi
  have hext := hsized.1
  have hroom := hr.shape.room
  constructor
  · intro hall
    by_contra hpart
    -- A replica whose last words differ keeps them.
    obtain ⟨S, hS⟩ : ∃ S, h.stop = h.start + 32 + S := Nat.exists_eq_add_of_le (by unfold heapSize at hroom; omega)
    let r := wholeHeap h.start S fun w => (h.mem w + 1) % 2 ^ 64
    have hjoin : Joins h r := by
      refine ⟨rfl, ⟨?_, ?_⟩, [], wholeHeap_invariant _ hr.shape.pos hr.shape.dvd_start ?_ ?_ ?_⟩
      · show 32 + S = h.start + 32 + S - h.start
        omega
      · show heapSize ∣ h.start + 32 + S - h.start
        rw [← hS]
        exact hsized.2
      · have := hr.shape.dvd_start
        have := hr.shape.dvd_stop
        omega
      · omega
      · rw [← hS]
        exact hr.shape.limit
    have hsame : r.extHeapSize = h.extHeapSize := by
      show 32 + S = _
      omega
    obtain ⟨bs, r₁, hsend, hrun, hheap, _⟩ := hall (idle h) (idle r) [] rfl (idle_settled h h.load) hjoin
    obtain ⟨bs', r₂, hsend', hrun', hrec, _⟩ := recvReplicationData_spec (s := idle h) (r := idle r) (p := p) (q := q)
      fortran hr hw hsized hm hjoin (idle_settled h fun _ => none)
      fun a v hv => by cases hv
    obtain rfl : bs = bs' := some_inj.mp (hsend.symm.trans hsend')
    obtain rfl : r₁ = r₂ := (Prod.mk.inj (some_inj.mp (hrun.symm.trans hrun'))).1
    have hend : h.extHeapSize / chunk * chunk ≤ h.extHeapSize := Nat.div_mul_le_self _ _
    have hne : h.extHeapSize / chunk * chunk ≠ h.extHeapSize := fun heq => hpart (heq ▸ Nat.dvd_mul_left _ _)
    have hdvd : heapSize ∣ h.extHeapSize / chunk * chunk := Nat.dvd_mul_left_of_dvd (by decide) _
    have hdvd' : heapSize ∣ h.extHeapSize := hext ▸ hsized.2
    have h8 := hr.shape.dvd_stop
    unfold heapSize at hdvd hdvd' hroom
    have hword : r.mem (h.stop - 16) = (h.mem (h.stop - 16) + 1) % 2 ^ 64 := wholeHeap_inside (by omega) (by omega)
    have hkeep := hrec.rest hsame (h.stop - 16) (by omega) (by show h.start + h.extHeapSize / chunk * chunk ≤ _; omega)
      (by show _ < h.stop; omega) (by show r.mem _ < _; rw [hword]; omega)
    have hcopy := hheap.mem (h.stop - 16) (by omega) (by show h.start ≤ _; omega) (by show _ < h.stop; omega)
    have hlt := hw.mem (h.stop - 16)
    have heq : (h.mem (h.stop - 16) + 1) % 2 ^ 64 = h.mem (h.stop - 16) := hword.symm.trans (hkeep.symm.trans hcopy)
    omega
  · rintro hdvd s r vs rfl hsettled hjoin
    have hend : s.heap.extHeapSize / chunk * chunk = s.heap.extHeapSize := Nat.div_mul_cancel hdvd
    obtain ⟨bs, r', hsend, hrun, hrec, hhas⟩ := recvReplicationData_spec (r := r) (p := p) (q := q) fortran hr hw hsized hm
      hjoin hsettled fun a v hv => ⟨hv, by
        obtain ⟨⟨_, _, hle⟩, _⟩ : s.heap.Mapped a ∧ s.heap.mem a = v := by simpa [load] using hv
        rw [hend]
        omega⟩
    have hsame : s.heap.Same r'.heap :=
      ⟨hrec.start, hrec.stop, hrec.extHeapSize, hrec.bins, hrec.fastbins, fun w h8 hlo hhi =>
        hrec.chunks w h8 hlo (by rw [hend]; omega)⟩
    exact ⟨bs, r', hsend, hrun, hsame, fun _ => hsame.invariant hrec.mapped, hhas⟩

def unnamed : Mappings where
  describeReg a := ⟨fun _ => 0, a⟩
  describe a := ⟨fun _ => 0, a⟩
  placeReg l := some l.offset
  place l := some l.offset
  reqNull := 0

theorem wholeHeap_at_start {S : Nat} (mem : Nat → Nat) (h8 : 8 ∣ S) (hroom : heapSize ≤ S + 32) (hle : S ≤ chunk) :
    (wholeHeap heapStart S mem).Invariant [] := by
  apply wholeHeap_invariant mem (by decide) (by decide) h8 hroom
  unfold heapStart addressLimit chunk at *
  omega

theorem one_chunk_replicated :
    Replicates unnamed unnamed (fun _ => true) false (idle (wholeHeap heapStart (chunk - 32) fun _ => 0))
      (idle (wholeHeap heapStart (heapSize - 32) fun _ => 7)) := by
  have hjoin : Joins (wholeHeap heapStart (chunk - 32) fun _ => 0) (wholeHeap heapStart (heapSize - 32) fun _ => 7) :=
    ⟨rfl, ⟨by decide, by decide⟩, [], wholeHeap_at_start _ (by decide) (by decide) (by decide)⟩
  exact (replicates_iff_whole_chunks unnamed unnamed (fun _ => true) false
    (wholeHeap_at_start _ (by decide) (by decide) (by decide))
    (wholeHeap_words (fun _ => by decide) (by decide)) ⟨by decide, by decide⟩ rfl rfl).mpr (by decide)
    (idle _) (idle _) [] rfl (idle_settled _ _) hjoin

theorem small_heap_run : ((initHeap (fun _ => 0) heapStart).bind fun h₀ => (h₀.malloc (fun _ => true) 64).bind fun hp =>
      ((idle (hp.1.put hp.2 42)).sendReplicationData unnamed false).bind fun bs =>
        ((idle h₀).recvReplicationData unnamed (fun _ => true) false ⟨sendAll 0 bs, []⟩).map fun r =>
          (hp.2, r.1.heap.mem hp.2)) = some (heapStart + 8, 0) := by
  decide +kernel

/-- A compute process with the smallest heap has written into an allocation, and its replica has a fresh heap. No
chunk goes over. -/
theorem small_heap_not_replicated :
    ∃ h₀ h p, initHeap (fun _ => 0) heapStart = some h₀ ∧ h₀.malloc (fun _ => true) 64 = some (h, p) ∧
      (h.put p 42).Invariant [⟨p, 64⟩] ∧
      ¬ Replicates unnamed unnamed (fun _ => true) false (idle (h.put p 42)) (idle h₀) := by
  obtain ⟨h₀, hinit, g, hr, hl⟩ := fresh_heap
  obtain ⟨h, g', p, hmalloc, hcase⟩ := hr.malloc (fun _ => true) (n := 64) (by decide) (by decide)
  have hrun := small_heap_run
  rw [hinit, bind_some, hmalloc, bind_some] at hrun
  obtain ⟨bs, hsend, hrun⟩ := bind_eq_some_iff.mp hrun
  obtain ⟨⟨r, q⟩, hrecv, heq⟩ := map_eq_some_iff.mp hrun
  obtain ⟨hp, hzero⟩ := Prod.mk.inj heq
  rcases hcase with ⟨hnull, _⟩ | ⟨_, x, halloc, _⟩
  · exact absurd (hp.symm.trans hnull) (by decide)
  · have hlive := hl.alloc halloc
    obtain ⟨hr', hl'⟩ := hlive.write (a := p) (v := 42) List.mem_cons_self halloc.rest le_rfl (by simp)
    refine ⟨h₀, h, p, hinit, hmalloc, ⟨g', hr', hl'⟩, ?_⟩
    rintro ⟨bs', r', hsend', hrecv', hsame, _⟩
    obtain rfl : bs = bs' := some_inj.mp (hsend.symm.trans hsend')
    obtain rfl : r = r' := (Prod.mk.inj (some_inj.mp (hrecv.symm.trans hrecv'))).1
    have hin := halloc.holds.inside
    have hbounds := halloc.rest.shape.bounds halloc.used.1
    have hmem := hsame.mem p halloc.holds.2.2.1 (by show h.start ≤ p; omega) (by show p < h.stop; omega)
    rw [hzero] at hmem
    exact absurd (hmem.trans put_mem_self) (by decide)

end Image

end ParepMpi
