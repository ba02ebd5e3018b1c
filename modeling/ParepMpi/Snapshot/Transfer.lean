import ParepMpi.Snapshot.Image

/-!
# Taking an image in

When the source feeds the buffers that the other side handed over, the variables get the bytes of the other side, and
the words of the heap its words.
-/

namespace ParepMpi

open Bytewise List Option Heap Buffer

namespace Heap

variable {h h' : Heap} {a n w : Nat} {p : Buffer}

structure Words (h : Heap) : Prop where
  mem : ∀ w, h.mem w < 2 ^ 64
  bins : ∀ i, h.bins i < 2 ^ 64
  fastbins : ∀ i, h.fastbins i < 2 ^ 64

variable {i : Nat}

theorem window_word (hw : 8 ∣ w) (hi : i < 8) (ha : a ≤ w) (hlt : w + 8 ≤ 2 ^ 64) :
    h.window a (w - a + i) = byte (h.mem w) i := by
  have hadd : add64 a (w - a + i) = w + i := by
    unfold add64
    omega
  rw [window, hadd, show (w + i) / 8 * 8 = w by omega, show (w + i) % 8 = i by omega]

theorem setWindow_mem_inside (hw : 8 ∣ w) (ha : a ≤ w) (hn : w + 8 ≤ a + p.size) (hlt : a + p.size ≤ 2 ^ 63) :
    (h.setWindow a (p.overlay (h.window a))).mem w = ofBytes (fun i => p.byte (w - a + i)) 8 := by
  apply ofBytes_congr
  intro i hi
  have hsub : sub64 (w + i) a = w - a + i := by
    unfold sub64
    omega
  rw [hsub, overlay_of_lt (by omega)]

theorem setWindow_mem_outside (hw : 8 ∣ w) (hlt : w < 2 ^ 63) (hn : a + p.size ≤ 2 ^ 63)
    (hout : w + 8 ≤ a ∨ a + p.size ≤ w) (hword : h.mem w < 2 ^ 64) :
    (h.setWindow a (p.overlay (h.window a))).mem w = h.mem w := by
  have hbytes : ∀ i < 8, p.overlay (h.window a) (sub64 (w + i) a) = byte (h.mem w) i := by
    intro i hi
    have hoff : p.size ≤ sub64 (w + i) a := by
      unfold sub64
      omega
    have hadd : add64 a (sub64 (w + i) a) = w + i := by
      unfold add64 sub64
      omega
    rw [overlay_of_le hoff, window, hadd, show (w + i) / 8 * 8 = w by omega, show (w + i) % 8 = i by omega]
  have hmem : (h.setWindow a (p.overlay (h.window a))).mem w = ofBytes (byte (h.mem w)) 8 := ofBytes_congr hbytes
  rw [hmem, ofBytes_byte]
  exact Nat.mod_eq_of_lt hword

theorem setWindow_mem_copy {src : Heap} (hw : 8 ∣ w) (ha : a ≤ w) (hn : w + 8 ≤ a + n) (hlt : a + n ≤ 2 ^ 63)
    (hword : src.mem w < 2 ^ 64) :
    (h.setWindow a (overlay ⟨n, src.window a⟩ (h.window a))).mem w = src.mem w := by
  rw [setWindow_mem_inside (p := ⟨n, src.window a⟩) hw ha hn hlt]
  have hbytes : ofBytes (fun i => src.window a (w - a + i)) 8 = ofBytes (byte (src.mem w)) 8 :=
    ofBytes_congr fun i hi => window_word hw hi ha (by omega)
  rw [hbytes, ofBytes_byte]
  exact Nat.mod_eq_of_lt hword

/-- The memory has got the words of `src` at the addresses `S`; at the others it has the words that it had. -/
def Copied (src : Nat → Nat) (S : Nat → Prop) (mem mem' : Nat → Nat) : Prop :=
  ∀ w, 8 ∣ w → w < addressLimit → (S w → mem' w = src w) ∧ (¬ S w → mem w < 2 ^ 64 → mem' w = mem w)

section Copied

variable {src mem mem' mem'' : Nat → Nat} {S S' U : Nat → Prop}

theorem copied_none (hS : ∀ w, ¬ S w) : Copied src S mem mem := fun w _ _ => ⟨fun h => absurd h (hS w), fun _ _ => rfl⟩

theorem Copied.trans (hsrc : ∀ w, src w < 2 ^ 64) (hc : Copied src S mem mem') (hc' : Copied src S' mem' mem'')
    (hU : ∀ w, U w ↔ S w ∨ S' w) : Copied src U mem mem'' := by
  intro w h8 hlt
  obtain ⟨hin, hout⟩ := hc w h8 hlt
  obtain ⟨hin', hout'⟩ := hc' w h8 hlt
  rw [hU]
  by_cases h' : S' w
  · exact ⟨fun _ => hin' h', absurd (.inr h')⟩
  · constructor
    · intro h
      have heq := hin (h.resolve_right h')
      rw [hout' h' (heq ▸ hsrc w), heq]
    · intro hn hword
      have heq := hout (fun h => hn (.inl h)) hword
      rw [hout' h' (heq ▸ hword), heq]

end Copied

theorem binWords_overlay {bins old : Nat → Nat} {b : Nat → Nat} (hlow : ∀ i, bins i < 2 ^ 64)
    (hhigh : ∀ i, 9 ≤ i → old i = bins i) : binWords (overlay ⟨9 * 8, binBytes bins⟩ b) old = bins := by
  funext i
  unfold binWords
  split
  next hi =>
    have hbytes : ofBytes (fun j => overlay ⟨9 * 8, binBytes bins⟩ b (8 * i + j)) 8 = ofBytes (byte (bins i)) 8 := by
      apply ofBytes_congr
      intro j hj
      rw [overlay_of_lt (by show 8 * i + j < 9 * 8; omega)]
      show byte (bins ((8 * i + j) / 8)) ((8 * i + j) % 8) = byte (bins i) j
      rw [show (8 * i + j) / 8 = i by omega, show (8 * i + j) % 8 = j by omega]
    rw [hbytes, ofBytes_byte]
    exact Nat.mod_eq_of_lt (hlow i)
  next hi => exact hhigh i (by omega)

theorem Rest.bins_high {g : Layout} (hr : Rest h g ∅) (hi : 9 ≤ i) : h.bins i = 0 ∧ h.fastbins i = 0 := by
  obtain ⟨l, hl, _, hbin⟩ := hr.lists.bin i
  obtain ⟨l', hl', _, hfast⟩ := hr.lists.fast i
  have hfits : ∀ a, g.place a ≠ .out → ∃ x ∈ g.tiles, x.addr = a ∧ (g.place a).Fits x.size := by
    intro a ha
    obtain ⟨x, hx, rfl⟩ := hr.lists.tile a ha
    exact ⟨x, hx, rfl, (hr.marks x hx (Set.notMem_empty _)).2⟩
  constructor
  · have hnil : l = [] := by
      apply eq_nil_iff_forall_not_mem.mpr
      intro a ha
      have hp := (hbin a).mp ha
      obtain ⟨x, _, _, hfit⟩ := hfits a (by simp [hp])
      rw [hp] at hfit
      have := getBinIndex_le x.size
      simp only [Place.Fits] at hfit
      omega
    exact LinkedList.DList.nil_iff.mp (hnil ▸ hl)
  · have hnil : l' = [] := by
      apply eq_nil_iff_forall_not_mem.mpr
      intro a ha
      have hp := (hfast a).mp ha
      obtain ⟨x, _, _, hfit⟩ := hfits a (by simp [hp])
      rw [hp] at hfit
      simp only [Place.Fits] at hfit
      omega
    rw [hnil] at hl'
    exact hl'

structure Same (h h' : Heap) : Prop where
  start : h'.start = h.start
  stop : h'.stop = h.stop
  extHeapSize : h'.extHeapSize = h.extHeapSize
  bins : h'.bins = h.bins
  fastbins : h'.fastbins = h.fastbins
  mem : ∀ w, 8 ∣ w → h.start ≤ w → w < h.stop → h'.mem w = h.mem w

/-- The second heap has the headers and footers of the first, and the words of its allocated nodes. -/
structure Restored (h : Heap) (g : Layout) (h' : Heap) : Prop where
  start : h'.start = h.start
  stop : h'.stop = h.stop
  mapped : h.stop ≤ h'.mapEnd
  bins : h'.bins = h.bins
  fastbins : h'.fastbins = h.fastbins
  head : ∀ x ∈ g.tiles, ∀ w, 8 ∣ w → x.addr ≤ w → w < x.addr + 24 → h'.mem w = h.mem w
  foot : ∀ x ∈ g.tiles, h'.mem (x.addr + 24 + x.size) = h.mem (x.addr + 24 + x.size)
  used : ∀ x, g.Used x → ∀ w, 8 ∣ w → x.addr ≤ w → w < x.addr + 32 + x.size → h'.mem w = h.mem w

namespace Restored

variable {g : Layout} {live : List Alloc}

theorem rest (hs : Restored h g h') (hr : Rest h g ∅) : Rest h' g ∅ := by
  have hshape := hr.shape
  have hheadWord : ∀ x ∈ g.tiles, h'.mem x.addr = h.mem x.addr := fun x hx =>
    hs.head x hx _ (hshape.aligned x hx).1 le_rfl (by omega)
  have hlink : ∀ d, 8 ∣ d → d < 24 → ∀ a, g.place a ≠ .out → h'.mem (a + d) = h.mem (a + d) := by
    intro d hd hlt a ha
    obtain ⟨x, hx, rfl⟩ := hr.lists.tile a ha
    exact hs.head x hx _ (Nat.dvd_add (hshape.aligned x hx).1 hd) (by omega) (by omega)
  refine ⟨⟨?_, ?_, ?_, ?_, ?_, hshape.aligned, ?_, ?_⟩, ?_, ?_, hr.apart⟩
  · exact hs.start ▸ hshape.pos
  · rw [hs.start, hs.stop]
    exact hshape.room
  · exact hs.stop ▸ hs.mapped
  · exact hs.stop ▸ hshape.limit
  · rw [hs.start, hs.stop]
    exact hshape.tiles
  · intro x hx
    rw [hheadWord x hx]
    exact hshape.head x hx
  · intro x hx
    rw [hs.foot x hx]
    exact hshape.foot x hx
  · exact hr.lists.congr hs.bins hs.fastbins (hlink 8 (by decide) (by decide)) (hlink 16 (by decide) (by decide))
      hr.lists.tile
  · intro x hx hE
    rw [Marked, hheadWord x hx]
    exact hr.marks x hx hE

theorem keeps_live (hs : Restored h g h') (hl : Live h g live) : Live h' g live := by
  have hholds : ∀ x p n, g.Used x → Holds h x p n → Holds h' x p n := by
    intro x p n hx hh
    obtain ⟨hlo, hhi, h8, hback⟩ := hh
    refine ⟨hlo, hhi, h8, hback.imp_right fun hb => ⟨hb.1, ?_⟩⟩
    rw [hs.used x hx (p - 8) (by omega) (by omega) (by omega)]
    exact hb.2
  refine ⟨hl.nodup, ?_, ?_, hl.single⟩
  · intro e he
    obtain ⟨x, hx, hh⟩ := hl.held e he
    exact ⟨x, hx, hholds x _ _ hx hh⟩
  · intro x hx
    obtain ⟨e, he, hh⟩ := hl.used x hx
    exact ⟨e, he, hholds x _ _ hx hh⟩

end Restored

namespace Same

theorem restored {g : Layout} (hs : Same h h') (hr : Rest h g ∅) (hmapped : h.stop ≤ h'.mapEnd) : Restored h g h' where
  start := hs.start
  stop := hs.stop
  mapped := hmapped
  bins := hs.bins
  fastbins := hs.fastbins
  head x hx w h8 hlo hhi := by
    have := hr.shape.bounds hx
    exact hs.mem w h8 (by omega) (by omega)
  foot x hx := by
    have := hr.shape.bounds hx
    have := hr.shape.aligned x hx
    exact hs.mem _ (by omega) (by omega) (by omega)
  used x hx w h8 hlo hhi := by
    have := hr.shape.bounds hx.1
    exact hs.mem w h8 (by omega) (by omega)

theorem invariant {live : List Alloc} (hs : Same h h') (hmapped : h.stop ≤ h'.mapEnd) (hi : Invariant h live) :
    Invariant h' live := by
  obtain ⟨g, hr, hl⟩ := hi
  have hrestored := hs.restored hr hmapped
  exact ⟨g, hrestored.rest hr, hrestored.keeps_live hl⟩

end Same

section Walks

variable {load load' : Nat → Option Nat} (hload : ∀ a v, load a = some v → load' a = some v)

include hload

theorem vtableSlot_mono {onode slot : Nat} (h : vtableSlot load onode = some slot) :
    vtableSlot load' onode = some slot := by
  simp only [vtableSlot, bind_eq_bind, bind_eq_some_iff] at h ⊢
  obtain ⟨file, hfile, w, hw, heq⟩ := h
  exact ⟨file, hload _ _ hfile, w, hload _ _ hw, heq⟩

theorem vtables_mono {fuel onode : Nat} {vs : List Nat} (h : vtables load fuel onode = some vs) :
    vtables load' fuel onode = some vs := by
  induction fuel generalizing onode vs with
  | zero => cases h
  | succ fuel ih =>
    rw [vtables] at h ⊢
    split at h
    next h0 => rwa [if_pos h0]
    next h0 =>
      rw [if_neg h0]
      simp only [bind_eq_bind, bind_eq_some_iff] at h ⊢
      obtain ⟨slot, hslot, v, hv, next, hnext, rest, hrest, heq⟩ := h
      exact ⟨slot, vtableSlot_mono hload hslot, v, hload _ _ hv, next, hload _ _ hnext, rest, ih hrest, heq⟩

theorem requests_mono {link req fuel node : Nat} {rs : List Nat} (h : requests load link req fuel node = some rs) :
    requests load' link req fuel node = some rs := by
  induction fuel generalizing node rs with
  | zero => cases h
  | succ fuel ih =>
    rw [requests] at h ⊢
    split at h
    next h0 => rwa [if_pos h0]
    next h0 =>
      rw [if_neg h0]
      simp only [bind_eq_bind, bind_eq_some_iff] at h ⊢
      obtain ⟨r, hr, next, hnext, rest, hrest, heq⟩ := h
      exact ⟨r, hload _ _ hr, next, hload _ _ hnext, rest, ih hrest, heq⟩

end Walks

theorem put_mem_eq (a : Nat) : h.put a (h.mem a) = h := by
  simp [put, Function.update_eq_self]

/-- When both processes have `MPI_REQUEST_NULL` at the same address, the walk along a log changes nothing. -/
theorem fixRequests_same {link req null null' fuel node : Nat} {rs : List Nat}
    (hlist : requests h.load link req fuel node = some rs) (hnull : null = null' ∨ rs = []) :
    h.fixRequests link req null null' fuel node = some h := by
  induction fuel generalizing node rs with
  | zero => cases hlist
  | succ fuel ih =>
    rw [requests] at hlist
    rw [fixRequests]
    split at hlist
    next h0 => rw [if_pos h0]
    next h0 =>
      simp only [bind_eq_bind, bind_eq_some_iff] at hlist
      obtain ⟨r, hr, next, hnext, rest, hrest, heq⟩ := hlist
      obtain rfl := some_inj.mp heq
      obtain rfl := hnull.resolve_right (cons_ne_nil _ _)
      have hput : (if r ≠ 0 ∧ h.Mapped r ∧ h.mem r = null then h.put r null else h) = h := by
        split
        next hc => rw [← hc.2.2, put_mem_eq]
        next => rfl
      simp only [if_neg h0, hr, bind_eq_bind, bind_some, hput, hnext]
      exact ih hrest (.inl rfl)

end Heap

def Locus.sent (l : Locus) : Locus := { l with offset := l.offset % 2 ^ 64 }

namespace Image

variable {τ : Type} {fetch : Source τ} {t t' : τ} {s r r' r'' : Image} {v : Var} {vs ws : List Var} {b : Buffer}

structure Only (vs : List Var) (r r' : Image) : Prop where
  heap : r'.heap = r.heap
  var : ∀ v ∉ vs, r'.var v = r.var v

/-- The variables of the list have the bytes that they have in `s`. -/
def Has (s : Image) (vs : List Var) (r : Image) : Prop := ∀ v ∈ vs, ∀ o < s.size v, r.var v o = s.var v o

variable {c : Nat → Nat} {t₁ : τ} {load : Nat → Option Nat} {us : List Nat}

theorem setVar_self : (r.setVar v c).var v = c := Function.update_self ..

theorem setVar_of_ne {u : Var} (hu : u ≠ v) : (r.setVar v c).var u = r.var u := Function.update_of_ne hu ..

theorem Has.only (hh : Has s vs r) (ho : Only ws r r') (hdisj : ∀ v ∈ vs, v ∉ ws) : Has s vs r' := by
  intro v hv o hlt
  rw [ho.var v (hdisj v hv)]
  exact hh v hv o hlt

theorem Has.int (hh : Has s vs r) (hv : v ∈ vs) (hsize : 4 ≤ s.size v) : r.int v = s.int v :=
  ofBytes_congr fun i hi => hh v hv i (by omega)

theorem Has.ptr (hh : Has s vs r) (hv : v ∈ vs) (hsize : 8 ≤ s.size v) : r.ptr v = s.ptr v :=
  ofBytes_congr fun i hi => hh v hv i (by omega)

theorem Only.trans (ho : Only vs r r') (ho' : Only vs r' r'') : Only vs r r'' :=
  ⟨ho'.heap.trans ho.heap, fun v hv => (ho'.var v hv).trans (ho.var v hv)⟩

def SameSizes (s r : Image) : Prop :=
  r.int .initDataSegSize = s.int .initDataSegSize ∧ r.int .uinitDataSegSize = s.int .uinitDataSegSize

theorem SameSizes.size_eq (h : SameSizes s r) (v : Var) : r.size v = s.size v := by
  cases v <;> simp only [size, h.1, h.2]

theorem size_eq_of_fixed (hdata : v ≠ .dataSegment) (hbss : v ≠ .bss) : r.size v = s.size v := by
  cases v <;> first | rfl | contradiction

theorem SameSizes.only (h : SameSizes s r) (ho : Only vs r r') (hinit : Var.initDataSegSize ∉ vs)
    (huninit : Var.uinitDataSegSize ∉ vs) : SameSizes s r' := by
  unfold SameSizes Image.int
  rw [ho.var _ hinit, ho.var _ huninit]
  exact h

theorem takeVar_eq (hsize : r.size v = b.size) (hfetch : ∀ old, fetch old b.size t = some (b.overlay old, t₁)) :
    r.takeVar fetch v t = some (r.setVar v (b.overlay (r.var v)), t₁) := by
  simp [takeVar, hsize, hfetch]

theorem only_setVar (hv : v ∈ vs) : Only vs r (r.setVar v c) := ⟨rfl, fun _ hu => setVar_of_ne fun h => hu (h ▸ hv)⟩

theorem takeVars_spec (hsize : ∀ r', Only vs r r' → ∀ v ∈ vs, r'.size v = s.size v)
    (hfeed : Feeds fetch t (vs.map s.buffer) t') :
    ∃ r', r.takeVars fetch vs t = some (r', t') ∧ Only vs r r' ∧ Has s vs r' := by
  induction vs generalizing r t with
  | nil =>
    obtain rfl := hfeed
    exact ⟨r, rfl, ⟨rfl, fun _ _ => rfl⟩, fun _ hv => by cases hv⟩
  | cons v vs ih =>
    obtain ⟨t₁, hfetch, hrest⟩ := hfeed
    have hstep := takeVar_eq (r := r) (hsize r ⟨rfl, fun _ _ => rfl⟩ v mem_cons_self) hfetch
    have honly₁ : Only (v :: vs) r (r.setVar v ((s.buffer v).overlay (r.var v))) := only_setVar mem_cons_self
    have hweaken : ∀ {r₁ r₂ : Image}, Only vs r₁ r₂ → Only (v :: vs) r₁ r₂ := fun ho =>
      ⟨ho.heap, fun u hu => ho.var u fun hmem => hu (mem_cons_of_mem _ hmem)⟩
    obtain ⟨r', hrun, honly, hhas⟩ := ih
      (fun r' ho u hu => hsize r' (honly₁.trans (hweaken ho)) u (mem_cons_of_mem _ hu)) hrest
    refine ⟨r', by simp [takeVars, hstep, hrun], honly₁.trans (hweaken honly), ?_⟩
    intro u hu o ho
    by_cases hmem : u ∈ vs
    · exact hhas u hmem o ho
    · obtain rfl : u = v := (mem_cons.mp hu).resolve_right hmem
      rw [honly.var u hmem, setVar_self]
      exact overlay_of_lt ho

theorem takeVars_sized (h : SameSizes s r) (hinit : Var.initDataSegSize ∉ vs) (huninit : Var.uinitDataSegSize ∉ vs)
    (hfeed : Feeds fetch t (vs.map s.buffer) t') :
    ∃ r', r.takeVars fetch vs t = some (r', t') ∧ Only vs r r' ∧ Has s vs r' :=
  takeVars_spec (fun _ ho v _ => (h.only ho hinit huninit).size_eq v) hfeed

theorem takeVars_fixed (hdata : Var.dataSegment ∉ vs) (hbss : Var.bss ∉ vs)
    (hfeed : Feeds fetch t (vs.map s.buffer) t') :
    ∃ r', r.takeVars fetch vs t = some (r', t') ∧ Only vs r r' ∧ Has s vs r' :=
  takeVars_spec (fun _ _ _ hv => size_eq_of_fixed (fun h => hdata (h ▸ hv)) fun h => hbss (h ▸ hv)) hfeed

section Walks

variable {p q : Mappings}

theorem takeLocus_spec {l : Locus} (hfeed : Feeds fetch t l.buffers t') :
    ∃ r', r.takeVars fetch [.mapname, .offset] t = some (r', t') ∧ Only [.mapname, .offset] r r' ∧
      r'.locus = l.sent := by
  obtain ⟨t₁, hname, t₂, hoffset, rfl⟩ := hfeed
  let r₁ := r.setVar .mapname (overlay ⟨256, fun o => if ho : o < 256 then l.name ⟨o, ho⟩ else 0⟩ (r.var .mapname))
  let r₂ := r₁.setVar .offset ((word l.offset).overlay (r₁.var .offset))
  have hrun₁ : r.takeVar fetch .mapname t = some (r₁, t₁) := takeVar_eq rfl hname
  have hrun₂ : r₁.takeVar fetch .offset t₁ = some (r₂, t₂) := takeVar_eq rfl hoffset
  have honly : Only [.mapname, .offset] r r₂ := (only_setVar (by simp)).trans (only_setVar (by simp))
  refine ⟨r₂, by simp [takeVars, hrun₁, hrun₂], honly, ?_⟩
  have hname : (fun i : Fin 256 => r₂.var .mapname i) = l.name := by
    funext i
    rw [setVar_of_ne (by decide), setVar_self, overlay_of_lt i.isLt]
    exact dif_pos i.isLt
  have hptr : r₂.ptr .offset = l.offset % 2 ^ 64 := by
    rw [ptr, setVar_self, ofBytes_overlay (Nat.le_refl 8)]
    exact ofBytes_byte
  rw [locus, hname, hptr, Locus.sent]

theorem takeRegs_spec {iks : List (Nat × Nat)}
    (hfeed : Feeds fetch t (iks.flatMap fun ik => (p.describeReg (s.regVals ik.1 ik.2)).buffers) t') :
    ∃ r', r.takeRegs fetch q iks t = some (r', t') ∧ Only [.mapname, .offset] r r' := by
  induction iks generalizing r t with
  | nil =>
    obtain rfl := hfeed
    exact ⟨r, rfl, rfl, fun _ _ => rfl⟩
  | cons ik iks ih =>
    obtain ⟨t₁, hlocus, hrest⟩ := feeds_append.mp hfeed
    obtain ⟨r₁, hrun₁, honly₁, _⟩ := takeLocus_spec (r := r) hlocus
    obtain ⟨i, k⟩ := ik
    have hset : Only [.mapname, .offset] r₁ (r₁.setReg q i k) := by
      unfold setReg
      split <;> exact ⟨rfl, fun _ _ => rfl⟩
    obtain ⟨r', hrun, honly⟩ := ih (r := r₁.setReg q i k) hrest
    exact ⟨r', by simp [takeRegs, hrun₁, hrun], honly₁.trans (hset.trans honly)⟩

/-- When the file has its vtable at the same address in both processes, the walk along the open files changes
nothing. -/
theorem takeFiles_spec {load : Nat → Option Nat} {fuel onode : Nat} {vs : List Nat}
    (hload : ∀ a v, load a = some v → r.heap.load a = some v) (hwalk : vtables load fuel onode = some vs)
    (hplace : ∀ v ∈ vs, q.place (p.describe v).sent = none ∨ q.place (p.describe v).sent = some v)
    (hfeed : Feeds fetch t (fileBuffers p vs) t') :
    ∃ r', r.takeFiles fetch q fuel onode t = some (r', t') ∧ Only [.mapname, .offset] r r' := by
  induction fuel generalizing r t onode vs with
  | zero => cases hwalk
  | succ fuel ih =>
    rw [vtables] at hwalk
    rw [takeFiles]
    split at hwalk
    next h0 =>
      obtain rfl := some_inj.mp hwalk
      obtain rfl := hfeed
      exact ⟨r, if_pos h0, rfl, fun _ _ => rfl⟩
    next h0 =>
      simp only [bind_eq_bind, bind_eq_some_iff] at hwalk
      obtain ⟨slot, hslot, v, hv, next, hnext, rest, hrest, heq⟩ := hwalk
      obtain rfl := some_inj.mp heq
      obtain ⟨t₁, hlocus, hfiles⟩ := feeds_append.mp hfeed
      obtain ⟨r₁, hrun₁, honly₁, hsent⟩ := takeLocus_spec (r := r) hlocus
      have hslot' := vtableSlot_mono hload hslot
      have hv' := hload _ _ hv
      have hnext' := hload _ _ hnext
      rw [← honly₁.heap] at hload hv' hnext'
      -- The pointer that is stored is the one that the other process had there.
      have hstore : r₁.setVtable q slot = some r₁ := by
        unfold setVtable
        rw [hsent]
        rcases hplace v mem_cons_self with hp | hp
        · rw [hp]
        · obtain ⟨hmapped, rfl⟩ : r₁.heap.Mapped slot ∧ r₁.heap.mem slot = v := by
            simpa [Heap.load] using hv'
          simp only [hp, store_eq hmapped, put_mem_eq, map_some]
      obtain ⟨r', hrun, honly⟩ := ih (r := r₁) hload hrest (fun u hu => hplace u (mem_cons_of_mem _ hu)) hfiles
      refine ⟨r', ?_, honly₁.trans honly⟩
      simp only [if_neg h0, hslot', bind_eq_bind, bind_some, hrun₁, hstore, hnext']
      exact hrun

end Walks

theorem takeBins_eq (hw : s.heap.Words) (hhigh : ∀ i, 9 ≤ i → r.heap.bins i = s.heap.bins i)
    (hfetch : ∀ old, fetch old (9 * 8) t = some (overlay ⟨9 * 8, binBytes s.heap.bins⟩ old, t₁)) :
    r.takeBins fetch t = some ({ r with heap := { r.heap with bins := s.heap.bins } }, t₁) := by
  simp only [takeBins, hfetch, bind_eq_bind, bind_some, binWords_overlay hw.bins hhigh]

theorem takeFastbins_eq (hw : s.heap.Words) (hhigh : ∀ i, 9 ≤ i → r.heap.fastbins i = s.heap.fastbins i)
    (hfetch : ∀ old, fetch old (9 * 8) t = some (overlay ⟨9 * 8, binBytes s.heap.fastbins⟩ old, t₁)) :
    r.takeFastbins fetch t = some ({ r with heap := { r.heap with fastbins := s.heap.fastbins } }, t₁) := by
  simp only [takeFastbins, hfetch, bind_eq_bind, bind_some, binWords_overlay hw.fastbins hhigh]

theorem takeHeap_spec {a n : Nat} (hw : s.heap.Words) (ha : 8 ∣ a) (hn : 8 ∣ n) (hlo : r.heap.start ≤ a)
    (hhi : a + n ≤ r.heap.mapEnd) (hlimit : a + n ≤ addressLimit)
    (hfetch : ∀ old, fetch old n t = some (overlay ⟨n, s.heap.window a⟩ old, t₁)) :
    ∃ mem, r.takeHeap fetch a n t = some ({ r with heap := { r.heap with mem := mem } }, t₁) ∧
      Heap.Copied s.heap.mem (fun w => a ≤ w ∧ w < a + n) r.heap.mem mem := by
  unfold addressLimit at hlimit
  refine ⟨(r.heap.setWindow a (overlay ⟨n, s.heap.window a⟩ (r.heap.window a))).mem, ?_, ?_⟩
  · rw [takeHeap, if_pos ⟨hlo, hhi⟩]
    simp only [hfetch, bind_eq_bind, bind_some]
    rfl
  · intro w h8 hlt
    unfold addressLimit at hlt
    constructor
    · intro hin
      exact setWindow_mem_copy h8 hin.1 (by omega) (by omega) (hw.mem w)
    · intro hout hword
      exact setWindow_mem_outside (p := ⟨n, s.heap.window a⟩) h8 (by omega) (by show a + n ≤ _; omega)
        (by show w + 8 ≤ a ∨ a + n ≤ w; omega) hword

theorem Only.mono (ho : Only vs r r') (hsub : ∀ v ∈ vs, v ∈ ws) : Only ws r r' :=
  ⟨ho.heap, fun v hv => ho.var v fun hmem => hv (hsub v hmem)⟩

theorem Has.append (hh : Has s vs r) (hh' : Has s ws r) : Has s (vs ++ ws) r := by
  intro v hv
  rcases mem_append.mp hv with hv | hv
  · exact hh v hv
  · exact hh' v hv

def frontVars (fortran : Bool) : List Var := contextVars ++ sizeVars ++ segmentVars fortran

/-- The variables that only the side which takes the image in has. -/
def scratchVars : List Var := [.mapname, .offset, .hpsize]

theorem takeFront_spec {p q : Mappings} {fortran : Bool} (hsize : s.heap.extHeapSize < 2 ^ 64)
    (hfeed : Feeds fetch t (s.frontBuffers p fortran) t') :
    ∃ r', r.takeFront fetch q fortran t = some (r', t') ∧ Only (frontVars fortran ++ scratchVars) r r' ∧
      Has s (frontVars fortran) r' ∧ SameSizes s r' ∧ r'.ptr .hpsize = s.heap.extHeapSize := by
  obtain ⟨t₄, hfeed, hhp⟩ := feeds_append.mp hfeed
  obtain ⟨t₃, hfeed, hsegments⟩ := feeds_append.mp hfeed
  obtain ⟨t₂, hfeed, hsizes⟩ := feeds_append.mp hfeed
  obtain ⟨t₁, hcontext, hregs⟩ := feeds_append.mp hfeed
  obtain ⟨r₁, hrun₁, ho₁, hh₁⟩ := takeVars_fixed (r := r) (by decide) (by decide) hcontext
  have hnum : r₁.int .numRegVals = s.int .numRegVals := hh₁.int (by decide) (Nat.le_refl 4)
  have hiks : r₁.regs = s.regs := by rw [regs, hnum, regs]
  obtain ⟨r₂, hrun₂, ho₂⟩ := takeRegs_spec (q := q) (r := r₁) hregs
  obtain ⟨r₃, hrun₃, ho₃, hh₃⟩ := takeVars_fixed (r := r₂) (by decide) (by decide) hsizes
  have hsame₃ : SameSizes s r₃ := ⟨hh₃.int (by decide) (Nat.le_refl 4), hh₃.int (by decide) (Nat.le_refl 4)⟩
  have hnotSize : ∀ v ∈ sizeVars, v ∉ segmentVars fortran := by cases fortran <;> decide
  obtain ⟨r₄, hrun₄, ho₄, hh₄⟩ := takeVars_sized (r := r₃) hsame₃ (hnotSize _ (by decide)) (hnotSize _ (by decide))
    hsegments
  obtain ⟨t₅, hfetch, rfl⟩ := hhp
  let r₅ := r₄.setVar .hpsize ((word s.heap.extHeapSize).overlay (r₄.var .hpsize))
  have hrun₅ : r₄.takeVar fetch .hpsize t₄ = some (r₅, t₅) := takeVar_eq rfl hfetch
  have ho₅ : Only [.hpsize] r₄ r₅ := only_setVar (by decide)
  have hsame₅ : SameSizes s r₅ := (hsame₃.only ho₄ (hnotSize _ (by decide)) (hnotSize _ (by decide))).only ho₅
    (by decide) (by decide)
  refine ⟨r₅, by simp [takeFront, hrun₁, hiks, hrun₂, hrun₃, hrun₄, takeVars, hrun₅], ?_, ?_, hsame₅, ?_⟩
  · have hsub : (∀ v ∈ contextVars, v ∈ frontVars fortran ++ scratchVars) ∧
        (∀ v ∈ [Var.mapname, Var.offset], v ∈ frontVars fortran ++ scratchVars) ∧
        (∀ v ∈ sizeVars, v ∈ frontVars fortran ++ scratchVars) ∧
        (∀ v ∈ segmentVars fortran, v ∈ frontVars fortran ++ scratchVars) ∧
        ∀ v ∈ [Var.hpsize], v ∈ frontVars fortran ++ scratchVars := by
      cases fortran <;> decide
    obtain ⟨h₁, h₂, h₃, h₄, h₅⟩ := hsub
    exact (ho₁.mono h₁).trans ((ho₂.mono h₂).trans ((ho₃.mono h₃).trans ((ho₄.mono h₄).trans (ho₅.mono h₅))))
  · have hdisj : (∀ v ∈ contextVars, v ∉ [Var.mapname, Var.offset] ∧ v ∉ sizeVars ∧ v ∉ segmentVars fortran ∧
        v ∉ [Var.hpsize]) ∧ (∀ v ∈ sizeVars, v ∉ [Var.hpsize]) ∧ ∀ v ∈ segmentVars fortran, v ∉ [Var.hpsize] := by
      cases fortran <;> decide
    obtain ⟨hc, hz, hg⟩ := hdisj
    have hcontext₅ : Has s contextVars r₅ := (((hh₁.only ho₂ fun v hv => (hc v hv).1).only ho₃
      fun v hv => (hc v hv).2.1).only ho₄ fun v hv => (hc v hv).2.2.1).only ho₅ fun v hv => (hc v hv).2.2.2
    have hsizes₅ : Has s sizeVars r₅ := (hh₃.only ho₄ hnotSize).only ho₅ hz
    exact (hcontext₅.append hsizes₅).append (hh₄.only ho₅ hg)
  · exact ofBytes_word hsize

/-- The lists in the heap end, as `load` sees them, and nothing in them has to get another address. -/
structure Settled (p q : Mappings) (im : Image) (load : Nat → Option Nat) (vs : List Nat) : Prop where
  files : vtables load im.heap.nodeLimit (im.ptr .openFileHead) = some vs
  place : ∀ v ∈ vs, q.place (p.describe v).sent = none ∨ q.place (p.describe v).sent = some v
  sends : ∃ rs, requests load 72 56 im.heap.nodeLimit (im.ptr .firstPeertopeer) = some rs ∧
    (im.ptr .reqNull = q.reqNull ∨ rs = [])
  collectives : ∃ rs, requests load 112 32 im.heap.nodeLimit (im.ptr .lastCollective) = some rs ∧
    (im.ptr .reqNull = q.reqNull ∨ rs = [])

theorem Settled.has {p q : Mappings} (hs : Settled p q s load us)
    (hlimit : r.heap.nodeLimit = s.heap.nodeLimit) (hh : Has s vs r) (hsub : ∀ v ∈ listVars [], v ∈ vs) :
    Settled p q r load us := by
  have hptr : ∀ v ∈ listVars [], s.size v = 8 → r.ptr v = s.ptr v := fun v hv h8 =>
    hh.ptr (hsub v hv) (Nat.le_of_eq h8.symm)
  refine ⟨?_, hs.place, ?_, ?_⟩
  · rw [hlimit, hptr _ (by decide) rfl]
    exact hs.files
  · rw [hlimit, hptr _ (by decide) rfl, hptr _ (by decide) rfl]
    exact hs.sends
  · rw [hlimit, hptr _ (by decide) rfl, hptr _ (by decide) rfl]
    exact hs.collectives

theorem takeTail_spec {p q : Mappings}
    (hload : ∀ a v, load a = some v → r.heap.load a = some v) (hsettled : Settled p q r load us)
    (hfeed : Feeds fetch t (s.tailBuffers p us) t') :
    ∃ r', r.takeTail fetch q t = some (r', t') ∧ Only ([.mapname, .offset] ++ counterVars) r r' ∧
      Has s counterVars r' := by
  obtain ⟨t₁, hfiles, hcounters⟩ := feeds_append.mp hfeed
  obtain ⟨r₁, hrun₁, ho₁⟩ := takeFiles_spec hload hsettled.files hsettled.place hfiles
  obtain ⟨r₂, hrun₂, ho₂, hh₂⟩ := takeVars_fixed (r := r₁) (by decide) (by decide) hcounters
  have ho : Only ([.mapname, .offset] ++ counterVars) r r₂ := (ho₁.mono (by decide)).trans (ho₂.mono (by decide))
  have hptr : ∀ v ∉ [Var.mapname, Var.offset] ++ counterVars, r₂.ptr v = r.ptr v := by
    intro v hv
    rw [ptr, ptr, ho.var v hv]
  obtain ⟨rs, hsends, hnull⟩ := hsettled.sends
  obtain ⟨rs', hcolls, hnull'⟩ := hsettled.collectives
  have hlogs : r₂.heap.fixLogs (r₂.ptr .reqNull) q.reqNull (r₂.ptr .firstPeertopeer) (r₂.ptr .lastCollective) =
      some r₂.heap := by
    rw [hptr _ (by decide), hptr _ (by decide), hptr _ (by decide), ho.heap]
    simp only [fixLogs, fixRequests_same (requests_mono hload hsends) hnull, bind_eq_bind,
      bind_some, fixRequests_same (requests_mono hload hcolls) hnull']
  exact ⟨r₂, by simp [takeTail, hrun₁, hrun₂, hlogs], ho, hh₂⟩

end Image

end ParepMpi
