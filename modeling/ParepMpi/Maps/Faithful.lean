import ParepMpi.Maps.Parse
import Mathlib.Data.List.TakeWhile

/-!
# One mapping for each line

A well-formed line of a maps file and what it says. The parser takes the text in buffers of 255 characters, so that a
longer line is read as several; there is one mapping for each line exactly if every line is short and does not end the
file, can be stored, and is not relabelled.
-/

namespace ParepMpi

open List Option

/-- The number that the digits `cs` stand for, behind those that gave `v`. -/
def digitsValue (digit : Char → Option Nat) (base v : Nat) (cs : List Char) : Nat :=
  cs.foldl (fun v c => v * base + (digit c).getD 0) v

structure Numeral (digit : Char → Option Nat) (base : Nat) where
  chars : List Char
  nonempty : chars ≠ []
  digits : ∀ c ∈ chars, (digit c).isSome
  fits : digitsValue digit base 0 chars < 2 ^ 64

def Numeral.value {digit : Char → Option Nat} {base : Nat} (x : Numeral digit base) : Nat :=
  digitsValue digit base 0 x.chars

def fileFlag (path : List Char) : Nat := if path = [] ∨ path.head? = some '[' then mapAnonymous else 0

/-- `start-end perms offset major:minor inode`, and a name behind spaces. -/
structure MapsLine where
  start : Numeral hexDigit 16
  stop : Numeral hexDigit 16
  readable : Bool
  writable : Bool
  executable : Bool
  shared : Bool
  offset : Numeral hexDigit 16
  major : Numeral hexDigit 16
  minor : Numeral hexDigit 16
  inode : Numeral decDigit 10
  spaces : Nat
  path : List Char
  path_short : path.length < maxPathLen
  path_line : '\n' ∉ path
  path_string : nul ∉ path
  path_apart : path ≠ [] → 0 < spaces ∧ path.head? ≠ some ' '

namespace MapsLine

variable {ℓ : MapsLine} {env : MapsEnv} {stack : Nat × Nat} {c : Char} {t : List Char} {m : MemoryMapping}

variable (ℓ : MapsLine)

def perms : Perms :=
  ⟨if ℓ.readable then 'r' else '-', if ℓ.writable then 'w' else '-', if ℓ.executable then 'x' else '-',
    if ℓ.shared then 's' else 'p'⟩

def body : List Char :=
  ℓ.start.chars ++ '-' :: (ℓ.stop.chars ++ ' ' :: ℓ.perms.read :: ℓ.perms.write :: ℓ.perms.exec :: ℓ.perms.share ::
    ' ' :: (ℓ.offset.chars ++ ' ' :: (ℓ.major.chars ++ ':' :: (ℓ.minor.chars ++ ' ' :: (ℓ.inode.chars ++
      (replicate ℓ.spaces ' ' ++ ℓ.path))))))

def text : List Char := ℓ.body ++ ['\n']

/-- The flags that a line stands for; it does not say which mappings grow. -/
def flags : Nat := (if ℓ.shared then mapShared else mapPrivate) ||| fileFlag ℓ.path

structure Describes (m : MemoryMapping) : Prop where
  start : m.start = ℓ.start.value
  stop : m.stop = ℓ.stop.value
  prot : m.prot = (if ℓ.readable then 1 else 0) ||| (if ℓ.writable then 2 else 0) ||| (if ℓ.executable then 4 else 0)
  flags : m.flags = ℓ.flags ∨ m.flags = ℓ.flags ||| mapGrowsdown
  offset : m.offset = ℓ.offset.value
  devMajor : m.devMajor = ℓ.major.value
  devMinor : m.devMinor = ℓ.minor.value
  inode : m.inode = ℓ.inode.value
  pathname : m.pathname = ℓ.path

def Readable : Prop := ℓ.text.length < 256 ∧ eof ∉ ℓ.path

def Small : Prop := ℓ.major.value < 2 ^ 31 ∧ ℓ.minor.value < 2 ^ 31 ∧ ℓ.inode.value < 2 ^ 31

def Named : Prop := ∀ c, ℓ.path.head? = some c → c = '/' ∨ c = '[' ∨ c = '('

/-- A line without a name is given that of the heap or of the stack. -/
def Relabelled (env : MapsEnv) (stack : Nat × Nat) (ℓ : MapsLine) : Prop :=
  ℓ.path = [] ∧ (ℓ.start.value < env.addrBrk ∧ env.addrBrk ≤ ℓ.stop.value ∨ stack = (ℓ.start.value, ℓ.stop.value))

def stored : MemoryMapping :=
  ⟨ℓ.start.value, ℓ.stop.value, getProtBmapFromString ℓ.perms, getFlagBmapFromString ℓ.perms, ℓ.offset.value,
    int32 ℓ.major.value, int32 ℓ.minor.value, int32 ℓ.inode.value, ℓ.path⟩

def nextStack (stack : Nat × Nat) (ℓ : MapsLine) : Nat × Nat :=
  if ℓ.path = "[stack]".toList then widen (2 ^ 64 - 1) stack ℓ.stored else stack

/-- Of the lines, with the stack known before them, each has numbers and a name that can be stored, and none is
relabelled. -/
def Storable (env : MapsEnv) : Nat × Nat → List MapsLine → Prop
  | _, [] => True
  | stack, ℓ :: lines => (ℓ.Small ∧ ℓ.Named ∧ ¬ ℓ.Relabelled env stack) ∧ Storable env (ℓ.nextStack stack) lines

end MapsLine

section Fields

variable {digit : Char → Option Nat} {base : Nat} {c : Char} {t : List Char}

theorem readDigits_append (base : Nat) {cs : List Char} (hcs : ∀ c ∈ cs, (digit c).isSome) (hc : digit c = none) (v : Nat) :
    readDigits digit base (v % 2 ^ 64) (cs ++ c :: t) = some (digitsValue digit base v cs % 2 ^ 64, c :: t) := by
  induction cs generalizing v with
  | nil => simp [readDigits, hc, digitsValue]
  | cons d cs ih =>
    obtain ⟨k, hk⟩ := isSome_iff_exists.mp (hcs d mem_cons_self)
    have hstep : (v % 2 ^ 64 * base + k) % 2 ^ 64 = (v * base + k) % 2 ^ 64 := by
      rw [Nat.add_mod, Nat.mod_mul_mod, ← Nat.add_mod]
    rw [cons_append, readDigits, hk]
    simp only [hstep]
    rw [ih fun c hmem => hcs c (mem_cons_of_mem _ hmem)]
    simp [digitsValue, hk]

theorem Numeral.read (x : Numeral digit base) (hc : digit c = none) :
    readDigits digit base 0 (x.chars ++ c :: t) = some (x.value, c :: t) := by
  have h := readDigits_append base (t := t) x.digits hc 0
  rwa [Nat.zero_mod, Nat.mod_eq_of_lt x.fits] at h

theorem hexField_numeral (x : Numeral hexDigit 16) (hc : hexDigit c = none) :
    hexField c (x.chars ++ c :: t) = some (x.value, t) := by
  rw [hexField, readhex, x.read hc, bind_some, expect, if_pos rfl, map_some]

theorem Numeral.not_mem (x : Numeral digit base) (hc : digit c = none) : c ∉ x.chars := by
  intro h
  simpa [hc] using x.digits c h

theorem skipSpaces_replicate (hc : c ≠ ' ') (n : Nat) : skipSpaces (replicate n ' ' ++ c :: t) = some (c :: t) := by
  induction n with
  | zero => simp [skipSpaces, hc]
  | succ n ih => simpa [replicate_succ, skipSpaces] using ih

theorem copyPath_append {path : List Char} (hline : '\n' ∉ path) {i : Nat} (hshort : i + path.length < maxPathLen) :
    copyPath i (path ++ '\n' :: t) = some (path, '\n' :: t) := by
  induction path generalizing i with
  | nil => simp [copyPath]
  | cons c path ih =>
    rw [mem_cons, not_or] at hline
    rw [length_cons] at hshort
    rw [cons_append, copyPath, if_neg (Ne.symm hline.1), if_pos (by omega), ih hline.2 (by omega)]
    rfl

end Fields

namespace MapsLine

variable {ℓ : MapsLine} {env : MapsEnv} {stack : Nat × Nat} {c : Char} {t : List Char} {m : MemoryMapping}

theorem readPath_named (h : ℓ.Named) : readPath (ℓ.path ++ '\n' :: t) = some ℓ.path := by
  have hcopy := copyPath_append (t := t) ℓ.path_line (i := 0) (by simpa using ℓ.path_short)
  unfold Named at h
  cases hpath : ℓ.path with
  | nil => simp [readPath]
  | cons c path =>
    rw [hpath] at h hcopy
    rw [cons_append] at hcopy ⊢
    simp [readPath, h c rfl, hcopy]

theorem readPath_unnamed (h : ¬ ℓ.Named) :
    ℓ.path ≠ [] ∧ (readPath (ℓ.path ++ '\n' :: t) = none ∨ readPath (ℓ.path ++ '\n' :: t) = some []) := by
  unfold Named at h
  cases hpath : ℓ.path with
  | nil => simp [hpath] at h
  | cons c path =>
    have hc : ¬ (c = '/' ∨ c = '[' ∨ c = '(') := by simpa [hpath] using h
    refine ⟨by simp, ?_⟩
    simp only [cons_append, readPath, if_neg hc]
    by_cases ha : c = '\n' ∨ c = 'a' <;> simp [ha]

theorem skipSpaces_path : skipSpaces (replicate ℓ.spaces ' ' ++ (ℓ.path ++ '\n' :: t)) = some (ℓ.path ++ '\n' :: t) := by
  cases hpath : ℓ.path with
  | nil => exact skipSpaces_replicate (by decide) _
  | cons c path =>
    apply skipSpaces_replicate
    rintro rfl
    exact (ℓ.path_apart (by simp [hpath])).2 (by simp [hpath])

theorem readdec_inode : readdec (ℓ.inode.chars ++ (replicate ℓ.spaces ' ' ++ (ℓ.path ++ '\n' :: t))) =
    some (ℓ.inode.value, replicate ℓ.spaces ' ' ++ (ℓ.path ++ '\n' :: t)) := by
  cases hspaces : ℓ.spaces with
  | zero =>
    have hpath : ℓ.path = [] := by
      by_contra hne
      exact absurd (ℓ.path_apart hne).1 (by omega)
    rw [hpath]
    exact ℓ.inode.read rfl
  | succ n =>
    exact ℓ.inode.read rfl

theorem scanLine_text : scanLine (ℓ.text ++ t) =
    (readPath (ℓ.path ++ '\n' :: t)).map fun path => { ℓ.stored with pathname := path.takeWhile (· ≠ nul) } := by
  have htext : ℓ.text ++ t = ℓ.start.chars ++ '-' :: (ℓ.stop.chars ++ ' ' :: ℓ.perms.read :: ℓ.perms.write ::
      ℓ.perms.exec :: ℓ.perms.share :: ' ' :: (ℓ.offset.chars ++ ' ' :: (ℓ.major.chars ++ ':' :: (ℓ.minor.chars ++ ' ' ::
        (ℓ.inode.chars ++ (replicate ℓ.spaces ' ' ++ (ℓ.path ++ '\n' :: t))))))) := by
    simp [text, body]
  simp only [htext, scanLine, hexField_numeral _ (c := '-') rfl, hexField_numeral _ (c := ' ') rfl,
    hexField_numeral _ (c := ':') rfl, readPerms, expect, if_pos, map_some, readdec_inode, skipSpaces_path,
    bind_eq_bind, bind_some]
  cases readPath (ℓ.path ++ '\n' :: t) with
  | none => rfl
  | some path => simp [stored]

theorem scanLine_named (h : ℓ.Named) : scanLine (ℓ.text ++ t) = some ℓ.stored := by
  have hstring : ℓ.path.takeWhile (· ≠ nul) = ℓ.path := by
    refine takeWhile_eq_self_iff.mpr fun c hc => ?_
    simpa using fun heq : c = nul => ℓ.path_string (heq ▸ hc)
  rw [scanLine_text, readPath_named h, map_some, hstring]
  simp [stored]

theorem scanLine_cases (h : scanLine (ℓ.text ++ t) = some m) :
    ℓ.Named ∧ m = ℓ.stored ∨ ¬ ℓ.Named ∧ ℓ.path ≠ [] ∧ m = { ℓ.stored with pathname := [] } := by
  by_cases hn : ℓ.Named
  · rw [scanLine_named hn, some_inj] at h
    exact .inl ⟨hn, h.symm⟩
  · obtain ⟨hne, hnone | hnil⟩ := readPath_unnamed (t := t) hn
    · simp [scanLine_text, hnone] at h
    · rw [scanLine_text, hnil, map_some, some_inj] at h
      exact .inr ⟨hn, hne, h.symm⟩

end MapsLine

section Table

variable (env : MapsEnv) (m : MemoryMapping) (st : MapsState)

def labelOf (stack : Nat × Nat) : List Char :=
  if m.pathname = [] then
    if m.start < env.addrBrk ∧ env.addrBrk ≤ m.stop then "[heap]".toList
    else if stack = (m.start, m.stop) then "[stack]".toList
    else []
  else m.pathname

theorem labelMapping_name : (labelMapping env m st).1 = labelOf env m st.actualStack := by
  unfold labelMapping labelOf
  split_ifs <;> rfl

theorem labelMapping_flags :
    (labelMapping env m st).2.1 = m.flags ∨ (labelMapping env m st).2.1 = m.flags ||| mapGrowsdown ∨
      m.pathname = [] ∧ (labelMapping env m st).2.1 = m.flags ||| mapAnonymous := by
  unfold labelMapping
  split_ifs <;> simp_all

theorem labelMapping_mappings : (labelMapping env m st).2.2.mappings = st.mappings := by
  unfold labelMapping
  split_ifs <;> rfl

theorem labelMapping_stack : (labelMapping env m st).2.2.actualStack =
    if m.pathname = "[stack]".toList then widen (2 ^ 64 - 1) st.actualStack m else st.actualStack := by
  unfold labelMapping
  split_ifs <;> simp_all

def labelled : MemoryMapping :=
  { m with
    pathname := (labelMapping env m st).1
    flags := (labelMapping env m st).2.1 ||| fileFlag (labelMapping env m st).1 }

theorem addMapping_mappings : (addMapping env m st).mappings = st.mappings ++ [labelled env m st] := by
  have hflags : ∀ (path : List Char) (flags : Nat),
      (if path = [] ∨ path.head? = some '[' then flags ||| mapAnonymous else flags) = flags ||| fileFlag path := by
    intro path flags
    unfold fileFlag
    split_ifs <;> simp
  rw [labelled, ← hflags, ← labelMapping_mappings env m st]
  rfl

theorem fileFlag_labelOf (stack : Nat × Nat) : fileFlag (labelOf env m stack) = fileFlag m.pathname := by
  unfold labelOf fileFlag
  split_ifs <;> simp_all

theorem labelled_flags : (labelled env m st).flags = m.flags ||| fileFlag m.pathname ∨
      (labelled env m st).flags = (m.flags ||| fileFlag m.pathname) ||| mapGrowsdown := by
  rw [labelled, labelMapping_name, fileFlag_labelOf]
  rcases labelMapping_flags env m st with h | h | ⟨hnil, h⟩
  · exact .inl (by rw [h])
  · exact .inr (by rw [h, Nat.or_assoc, Nat.or_comm mapGrowsdown, ← Nat.or_assoc])
  · refine .inl ?_
    have hflag : fileFlag m.pathname = mapAnonymous := if_pos (.inl hnil)
    rw [h, hflag, Nat.or_assoc, Nat.or_self]

end Table

theorem int32_eq_self_iff {n : Nat} (h : n < 2 ^ 64) : int32 n = n ↔ n < 2 ^ 31 := by
  constructor
  · intro heq
    have hlt : int32 n < 2 ^ 31 := Int.bmod_lt (by decide)
    omega
  · intro hlt
    exact int32_of_lt (by omega) (by omega)

namespace MapsLine

variable {ℓ : MapsLine} {env : MapsEnv} {st : MapsState} {c : Char} {t : List Char} {m : MemoryMapping}

theorem labelOf_stored_iff {stack : Nat × Nat} : labelOf env ℓ.stored stack = ℓ.path ↔ ¬ ℓ.Relabelled env stack := by
  unfold labelOf Relabelled stored
  split_ifs <;> simp_all

theorem labelled_stored (env : MapsEnv) (ℓ : MapsLine) (st : MapsState) :
    (labelled env ℓ.stored st).devMajor = int32 ℓ.major.value ∧
    (labelled env ℓ.stored st).devMinor = int32 ℓ.minor.value ∧
      (labelled env ℓ.stored st).inode = int32 ℓ.inode.value := by
  simp only [labelled, stored, and_self]

theorem describes_labelled_iff :
    ℓ.Describes (labelled env ℓ.stored st) ↔ ℓ.Small ∧ ¬ ℓ.Relabelled env st.actualStack := by
  have hname : (labelled env ℓ.stored st).pathname = ℓ.path ↔ ¬ ℓ.Relabelled env st.actualStack := by
    rw [← labelOf_stored_iff, ← labelMapping_name]
    rfl
  have hmajor := int32_eq_self_iff ℓ.major.fits
  have hminor := int32_eq_self_iff ℓ.minor.fits
  have hinode := int32_eq_self_iff ℓ.inode.fits
  obtain ⟨hsmajor, hsminor, hsinode⟩ := labelled_stored env ℓ st
  constructor
  · intro h
    exact ⟨⟨hmajor.mp (hsmajor.symm.trans h.devMajor), hminor.mp (hsminor.symm.trans h.devMinor),
      hinode.mp (hsinode.symm.trans h.inode)⟩, hname.mp h.pathname⟩
  · intro h
    obtain ⟨⟨hlt₁, hlt₂, hlt₃⟩, hnot⟩ := h
    refine ⟨rfl, rfl, ?_, ?_, rfl, hsmajor.trans (hmajor.mpr hlt₁), hsminor.trans (hminor.mpr hlt₂),
      hsinode.trans (hinode.mpr hlt₃), hname.mpr hnot⟩
    · show getProtBmapFromString ℓ.perms = _
      cases hr : ℓ.readable <;> cases hw : ℓ.writable <;> cases hx : ℓ.executable <;>
        simp [getProtBmapFromString, perms, hr, hw, hx]
    · have hshare : getFlagBmapFromString ℓ.perms = if ℓ.shared then mapShared else mapPrivate := by
        cases hs : ℓ.shared <;> simp [getFlagBmapFromString, perms, hs]
      have h := labelled_flags env ℓ.stored st
      rwa [show ℓ.stored.flags = _ from hshare] at h

theorem describes_iff (h : scanLine (ℓ.text ++ t) = some m) :
    ℓ.Describes (labelled env m st) ↔ ℓ.Small ∧ ℓ.Named ∧ ¬ ℓ.Relabelled env st.actualStack := by
  rcases scanLine_cases h with ⟨hn, rfl⟩ | ⟨hn, hne, rfl⟩
  · rw [describes_labelled_iff]
    tauto
  · refine iff_of_false (fun hd => ?_) fun hgood => hn hgood.2.1
    have hname : labelOf env { ℓ.stored with pathname := [] } st.actualStack = ℓ.path :=
      (labelMapping_name ..).symm.trans hd.pathname
    unfold labelOf at hname
    refine hn fun c hc => ?_
    rw [← hname] at hc
    split_ifs at hc <;> simp at hc <;> simp [← hc]

theorem addMapping_stack (hn : ℓ.Named) (h : scanLine (ℓ.text ++ t) = some m) :
    (addMapping env m st).actualStack = ℓ.nextStack st.actualStack := by
  rw [scanLine_named hn, some_inj] at h
  subst h
  exact labelMapping_stack env ℓ.stored st

end MapsLine

def endsLine (c : Char) : Bool := c = '\n' ∨ c = eof

open Lines

theorem readByte_eq (fd : List (List Char)) :
    readByte fd = none ∧ fd.flatten = [] ∨ ∃ c fd', readByte fd = some (c, fd') ∧ fd.flatten = c :: fd'.flatten := by
  induction fd with
  | nil => exact .inl ⟨rfl, rfl⟩
  | cons cs fd ih =>
    cases cs with
    | nil => exact ih
    | cons c cs => exact .inr ⟨c, cs :: fd, rfl, rfl⟩

theorem fgetsLoop_eq (n : Nat) (fd : List (List Char)) : (fgetsLoop n fd).1 = piece endsLine n fd.flatten ∧
      (fgetsLoop n fd).2.flatten = fd.flatten.drop (piece endsLine n fd.flatten).length := by
  induction n generalizing fd with
  | zero => exact ⟨rfl, rfl⟩
  | succ n ih =>
    rcases readByte_eq fd with ⟨hread, hflat⟩ | ⟨c, fd', hread, hflat⟩
    · simp [fgetsLoop, hread, hflat, piece]
    · simp only [fgetsLoop, hread, hflat, piece, endsLine, decide_eq_true_eq]
      split
      · simp
      · simpa using ih fd'

def loaded (p line : List Char) : List Char := p ++ nul :: line.drop (p.length + 1)

def parsePieces (env : MapsEnv) : List (List Char) → List Char → MapsState → Option (MapsState × Bool)
  | [], _, st => some (st, false)
  | p :: ps, line, st =>
    if maxMappings ≤ st.mappings.length then some (st, true)
    else (scanLine (loaded p line)).bind fun m => parsePieces env ps (loaded p line) (addMapping env m st)

variable {env : MapsEnv}

theorem parseLoop_eq {fuel : Nat} {fd : List (List Char)} (h : fd.flatten.length < fuel)
    (line : List Char) (st : MapsState) :
    parseLoop env fuel line fd st = parsePieces env (pieces endsLine 255 fuel fd.flatten) line st := by
  induction fuel generalizing fd line st with
  | zero => omega
  | succ fuel ih =>
    obtain ⟨hpiece, hrest⟩ := fgetsLoop_eq 255 fd
    rw [parseLoop, pieces, customFgets]
    simp only [Nat.add_one_sub_one, hpiece]
    by_cases hnil : piece endsLine 255 fd.flatten = []
    · simp [hnil, parsePieces]
    · have hlt := length_drop_piece_lt endsLine (n := 255) (by decide) (mt (piece_eq_nil_iff (by decide)).mpr hnil)
      rw [if_neg hnil, if_pos (length_pos_iff.mpr hnil), parsePieces]
      rw [← hrest] at hlt ⊢
      simp only [ih (show (fgetsLoop 255 fd).2.flatten.length < fuel by omega)]
      rfl

theorem parsePieces_spec {ps : List (List Char)} {line : List Char} {st st' : MapsState}
    (h : parsePieces env ps line st = some (st', false)) :
    ∃ ms, st'.mappings = st.mappings ++ ms ∧ ms.length = ps.length := by
  induction ps generalizing line st with
  | nil =>
    obtain ⟨rfl, -⟩ := Prod.mk.inj (some.inj h)
    exact ⟨[], by simp, rfl⟩
  | cons p ps ih =>
    rw [parsePieces] at h
    split at h
    · cases h
    · obtain ⟨m, -, h⟩ := bind_eq_some_iff.mp h
      obtain ⟨ms, hms, hlen⟩ := ih h
      rw [addMapping_mappings] at hms
      exact ⟨labelled env m st :: ms, by simpa using hms, by simp [hlen]⟩

namespace MapsLine

variable {env : MapsEnv} {stack : Nat × Nat} {st : MapsState} {line : List Char} {lines : List MapsLine}

/-- The table behind `before` has one mapping for each line, and that of the line. -/
def Recorded (lines : List MapsLine) (before : List MemoryMapping) (r : Option (MapsState × Bool)) : Prop :=
  ∃ st ms, r = some (st, false) ∧ st.mappings = before ++ ms ∧ Forall₂ Describes lines ms

theorem recorded_pieces_iff (hroom : st.mappings.length + lines.length ≤ maxMappings) :
    Recorded lines st.mappings (parsePieces env (lines.map text) line st) ↔ Storable env st.actualStack lines := by
  induction lines generalizing line st with
  | nil => exact iff_of_true ⟨st, [], rfl, by simp, .nil⟩ trivial
  | cons ℓ lines ih =>
    rw [length_cons] at hroom
    rw [map_cons, parsePieces, if_neg (by omega), loaded, Storable]
    cases hscan : scanLine (ℓ.text ++ nul :: line.drop (ℓ.text.length + 1)) with
    | none =>
      refine iff_of_false (by rintro ⟨_, _, h, _⟩; cases h) fun h => ?_
      rw [scanLine_named h.1.2.1] at hscan
      cases hscan
    | some m =>
      have hmappings := addMapping_mappings env m st
      have hrest : Recorded lines (st.mappings ++ [labelled env m st])
          (parsePieces env (lines.map text) (loaded ℓ.text line) (addMapping env m st)) ↔
            Storable env (addMapping env m st).actualStack lines :=
        hmappings ▸ ih (by rw [hmappings, length_append, length_singleton]; omega)
      rw [bind_some, ← describes_iff hscan]
      constructor
      · rintro ⟨st', ms, hrun, hms, hall⟩
        obtain ⟨ms', hms', -⟩ := parsePieces_spec hrun
        rw [hmappings, append_assoc] at hms'
        obtain rfl := append_cancel_left (hms.symm.trans hms')
        obtain ⟨hd, hall⟩ := forall₂_cons.mp hall
        refine ⟨hd, ?_⟩
        rw [← addMapping_stack ((describes_iff hscan).mp hd).2.1 hscan]
        exact hrest.mp ⟨st', ms', hrun, by rw [hms', append_assoc], hall⟩
      · rintro ⟨hd, hstorable⟩
        rw [← addMapping_stack ((describes_iff hscan).mp hd).2.1 hscan] at hstorable
        obtain ⟨st', ms, hrun, hms, hall⟩ := hrest.mpr hstorable
        exact ⟨st', labelled env m st :: ms, hrun, by simpa using hms, .cons hd hall⟩

variable {ℓ : MapsLine}

theorem mem_body_iff {c : Char} (hhex : hexDigit c = none) (hdec : decDigit c = none)
    (hc : c ∉ "-: rwxps".toList) : c ∈ ℓ.body ↔ c ∈ ℓ.path := by
  have hperms : c ≠ ℓ.perms.read ∧ c ≠ ℓ.perms.write ∧ c ≠ ℓ.perms.exec ∧ c ≠ ℓ.perms.share := by
    refine ⟨?_, ?_, ?_, ?_⟩ <;> rintro rfl <;> unfold perms at hc <;> dsimp only at hc <;> split at hc <;>
      exact hc (by decide)
  have hrest : c ≠ '-' ∧ c ≠ ' ' ∧ c ≠ ':' := by
    refine ⟨?_, ?_, ?_⟩ <;> rintro rfl <;> exact hc (by decide)
  simp [body, Numeral.not_mem _ hhex, Numeral.not_mem _ hdec, hperms, hrest, mem_replicate]

theorem newline_not_mem_body : '\n' ∉ ℓ.body := by
  rw [mem_body_iff rfl rfl (by decide)]
  exact ℓ.path_line

theorem whole_iff_readable : Whole endsLine '\n' 255 ℓ.text ↔ ℓ.Readable := by
  have heof : eof ∈ ℓ.body ↔ eof ∈ ℓ.path := mem_body_iff rfl rfl (by decide)
  have hlen : ℓ.text.length = ℓ.body.length + 1 := by simp [text]
  rw [Readable, ← heof, hlen]
  constructor
  · rintro ⟨l, htext, hlt, hends⟩
    obtain rfl := (append_left_inj _).mp htext
    exact ⟨by omega, fun h => by simpa [endsLine] using hends _ h⟩
  · rintro ⟨hlt, hnot⟩
    refine ⟨ℓ.body, rfl, by omega, fun c hc => ?_⟩
    rw [endsLine, decide_eq_false_iff_not, not_or]
    exact ⟨fun h => newline_not_mem_body (h ▸ hc), fun h => hnot (h ▸ hc)⟩

/-- The parser records one mapping for each line, that of the line, exactly when all lines can be read and stored. -/
theorem recorded_iff (env : MapsEnv) (stack : Nat × Nat) (line : List Char) {lines : List MapsLine}
    (hmany : lines.length ≤ maxMappings) {fd : List (List Char)} (hfd : fd.flatten = (lines.map text).flatten) :
    Recorded lines [] (parseMapsFile env stack line fd) ↔ (∀ ℓ ∈ lines, ℓ.Readable) ∧ Storable env stack lines := by
  have hlong : (lines.map text).flatten.length ≤ fd.flatten.length + 1 := by rw [hfd]; omega
  rw [parseMapsFile, parseLoop_eq (Nat.lt_succ_self _), hfd]
  rw [hfd] at hlong
  by_cases hread : ∀ ℓ ∈ lines, ℓ.Readable
  · rw [and_iff_right hread, pieces_lines rfl (forall_mem_map.mpr fun ℓ hℓ => whole_iff_readable.mpr (hread ℓ hℓ)) hlong]
    exact recorded_pieces_iff (by simpa [MapsState.start] using hmany)
  · refine iff_of_false ?_ fun h => hread h.1
    rintro ⟨st, ms, hrun, hms, hall⟩
    obtain ⟨ms', hms', hlen⟩ := parsePieces_spec hrun
    obtain rfl := append_cancel_left (hms.symm.trans hms')
    -- there are as many pieces as lines
    refine hread fun ℓ hℓ => whole_iff_readable.mp ?_
    refine whole_of_length_pieces_le rfl (by decide) ?_ hlong ?_ _ (mem_map_of_mem hℓ)
    · exact forall_mem_map.mpr fun ℓ _ => ⟨ℓ.body, rfl, newline_not_mem_body⟩
    · rw [← hlen, length_map]
      exact hall.length_eq.ge

theorem Recorded.eq {r : Option (MapsState × Bool)} (h : Recorded lines [] r) :
    r.map (fun r => r.1.mappings.map fun m => (m.inode, m.pathname)) =
      some (lines.map fun ℓ => ((ℓ.inode.value : Int), ℓ.path)) := by
  obtain ⟨st, ms, rfl, hms, hall⟩ := h
  rw [nil_append] at hms
  rw [map_some, hms, some_inj]
  clear hms
  induction hall with
  | nil => rfl
  | cons hd _ ih => rw [map_cons, map_cons, ih, hd.inode, hd.pathname]

def numeral (digit : Char → Option Nat) (base : Nat) (s : String)
    (h : s.toList ≠ [] ∧ (s.toList.all fun c => (digit c).isSome) ∧ digitsValue digit base 0 s.toList < 2 ^ 64) :
    Numeral digit base :=
  ⟨s.toList, h.1, all_eq_true.mp h.2.1, h.2.2⟩

def lineOf (inode : Numeral decDigit 10) (path : List Char)
    (h : path.length < maxPathLen ∧ '\n' ∉ path ∧ nul ∉ path ∧ path.head? ≠ some ' ') : MapsLine :=
  ⟨numeral _ _ "7f00" (by decide), numeral _ _ "8f00" (by decide), true, false, false, false,
    numeral _ _ "0" (by decide), numeral _ _ "08" (by decide), numeral _ _ "01" (by decide), inode, 1, path, h.1, h.2.1,
    h.2.2.1, fun _ => ⟨by decide, h.2.2.2⟩⟩

def libLine : MapsLine := lineOf (numeral _ _ "17" (by decide)) "/lib".toList (by decide)

theorem libLine_recorded : [libLine].length ≤ maxMappings ∧ Recorded [libLine] []
    (parseMapsFile ⟨0, (0, 0)⟩ (0, 0) (replicate 256 nul) [libLine.text.take 7, libLine.text.drop 7]) :=
  ⟨by decide, (recorded_iff ⟨0, (0, 0)⟩ (0, 0) (replicate 256 nul) (by decide) (by decide)).mpr
    ⟨by simp only [mem_singleton, forall_eq]; exact ⟨by decide, by decide⟩,
      ⟨⟨by decide, by decide, by decide⟩, fun c hc => .inl (some.inj (show some '/' = some c from hc)).symm,
        fun h => absurd h.1 (by decide)⟩, trivial⟩⟩

/-- An inode that does not fit an `int`, a name of the kind `anon_inode`, a line that does not fit the buffer, and a line
without a name that ends at the break. -/
theorem lines_misread :
    let misread := fun ℓ brk =>
      ¬ Recorded [ℓ] [] (parseMapsFile ⟨brk, (0, 0)⟩ (0, 0) (replicate 256 nul) [ℓ.text])
    misread (lineOf (numeral _ _ "3000000000" (by decide)) "/lib".toList (by decide)) 0 ∧
      misread (lineOf (numeral _ _ "17" (by decide)) "anon_inode:[eventpoll]".toList (by decide)) 0 ∧
      misread (lineOf (numeral _ _ "17" (by decide)) ('/' :: List.replicate 240 'x') (by decide +kernel)) 0 ∧
      misread (lineOf (numeral _ _ "17" (by decide)) [] (by decide)) 0x8f00 := by
  refine ⟨?_, ?_, ?_, ?_⟩ <;> exact fun h => absurd h.eq (by decide +kernel)

end MapsLine

end ParepMpi
