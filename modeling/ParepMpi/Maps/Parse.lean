import ParepMpi.Messages.Encoding
import ParepMpi.Lib.Lines

/-!
# `parseMapsFile`

The parser of `/proc/<pid>/maps` in `mmanager.c`: `parep_mpi_custom_fgets` reads a line into `char line[256]`, which
keeps what it held behind the line, and the fields are read character by character.
-/

namespace ParepMpi

def nul : Char := '\x00'

def eof : Char := '\xff'

def maxPathLen : Nat := 256

def maxMappings : Nat := 4096

def mapShared : Nat := 0x1

def mapPrivate : Nat := 0x2

def mapAnonymous : Nat := 0x20

def mapGrowsdown : Nat := 0x100

structure MemoryMapping where
  start : Nat
  stop : Nat
  prot : Nat
  flags : Nat
  offset : Nat
  devMajor : Int
  devMinor : Int
  inode : Int
  pathname : List Char
  deriving DecidableEq, Repr

/-- `parep_mpi_read` of one byte, from what is left of the file in the pieces in which it comes. -/
def readByte : List (List Char) → Option (Char × List (List Char))
  | [] => none
  | [] :: fd => readByte fd
  | (ch :: cs) :: fd => some (ch, cs :: fd)

def fgetsLoop : Nat → List (List Char) → List Char × List (List Char)
  | 0, fd => ([], fd)
  | n + 1, fd =>
    match readByte fd with
    | none => ([], fd)
    | some (ch, fd) =>
      if ch = '\n' ∨ ch = eof then ([ch], fd)
      else
        let r := fgetsLoop n fd
        (ch :: r.1, r.2)

/-- `parep_mpi_custom_fgets`: the buffer and the rest of the file, or `NULL`. -/
def customFgets (buf : List Char) (size : Nat) (fd : List (List Char)) : Option (List Char × List (List Char)) :=
  let r := fgetsLoop (size - 1) fd
  if r.1.length > 0 then some (r.1 ++ nul :: buf.drop (r.1.length + 1), r.2) else none

def decDigit (c : Char) : Option Nat := if '0' ≤ c ∧ c ≤ '9' then some (c.toNat - '0'.toNat) else none

def hexDigit (c : Char) : Option Nat :=
  if '0' ≤ c ∧ c ≤ '9' then some (c.toNat - '0'.toNat)
  else if 'a' ≤ c ∧ c ≤ 'f' then some (c.toNat - ('a'.toNat - 10))
  else if 'A' ≤ c ∧ c ≤ 'F' then some (c.toNat - ('A'.toNat - 10))
  else none

def readDigits (digit : Char → Option Nat) (base : Nat) : Nat → List Char → Option (Nat × List Char)
  | _, [] => none
  | v, c :: line =>
    match digit c with
    | some d => readDigits digit base ((v * base + d) % 2 ^ 64) line
    | none => some (v, c :: line)

def readdec (line : List Char) : Option (Nat × List Char) := readDigits decDigit 10 0 line

def readhex (line : List Char) : Option (Nat × List Char) := readDigits hexDigit 16 0 line

def expect (c : Char) : List Char → Option (List Char)
  | [] => none
  | d :: line => if d = c then some line else none

def hexField (c : Char) (line : List Char) : Option (Nat × List Char) :=
  (readhex line).bind fun r => (expect c r.2).map fun line => (r.1, line)

structure Perms where
  read : Char
  write : Char
  exec : Char
  share : Char

def readPerms : List Char → Option (Perms × List Char)
  | r :: w :: x :: s :: line => (expect ' ' line).map fun line => (⟨r, w, x, s⟩, line)
  | _ => none

def skipSpaces : List Char → Option (List Char)
  | [] => none
  | c :: line => if c = ' ' then skipSpaces line else some (c :: line)

def copyPath : Nat → List Char → Option (List Char × List Char)
  | _, [] => none
  | i, c :: line =>
    if c = '\n' then some ([], c :: line)
    else if i + 1 < maxPathLen then (copyPath (i + 1) line).map fun r => (c :: r.1, r.2)
    else none

def readPath : List Char → Option (List Char)
  | [] => none
  | c :: line => do
      let (path, line) ← if c = '/' ∨ c = '[' ∨ c = '(' then copyPath 0 (c :: line) else some ([], c :: line)
      if line.head? = some '\n' ∨ line.head? = some 'a' then some path else none

def getProtBmapFromString (str : Perms) : Nat :=
  (if str.read = 'r' then 1 else 0) ||| (if str.write = 'w' then 2 else 0) ||| (if str.exec = 'x' then 4 else 0)

def getFlagBmapFromString (str : Perms) : Nat :=
  if str.share = 'p' then mapPrivate else if str.share = 's' then mapShared else 0

/-- The fields of a line as they are stored, before the flags and the name are completed. -/
def scanLine (line : List Char) : Option MemoryMapping := do
  let start ← hexField '-' line
  let stop ← hexField ' ' start.2
  let tempperm ← readPerms stop.2
  let offset ← hexField ' ' tempperm.2
  let devMajor ← hexField ':' offset.2
  let devMinor ← hexField ' ' devMajor.2
  let inode ← readdec devMinor.2
  let line ← skipSpaces inode.2
  let path ← readPath line
  some ⟨start.1, stop.1, getProtBmapFromString tempperm.1, getFlagBmapFromString tempperm.1, offset.1,
    int32 devMajor.1, int32 devMinor.1, int32 inode.1, path.takeWhile (· ≠ nul)⟩

/-- What the parser reads besides the file: `addr_brk`, and the stack that was put in place of the first one. -/
structure MapsEnv where
  addrBrk : Nat
  newStack : Nat × Nat

/-- `actualStack` is `actual_stack_start` and `actual_stack_end`, with `(address)-1` for none; the ranges of `prstat`
have `NULL` for none. -/
structure MapsState where
  mappings : List MemoryMapping
  numHeapmaps : Nat
  numStackmaps : Nat
  numAnonmaps : Nat
  actualStack : Nat × Nat
  vdso : Nat × Nat
  vvar : Nat × Nat
  vsyscall : Nat × Nat

def MapsState.start (actualStack : Nat × Nat) : MapsState := ⟨[], 0, 0, 0, actualStack, (0, 0), (0, 0), (0, 0)⟩

def widen (unset : Nat) (range : Nat × Nat) (m : MemoryMapping) : Nat × Nat :=
  (if m.start < range.1 ∨ range.1 = unset then m.start else range.1,
   if range.2 < m.stop ∨ range.2 = unset then m.stop else range.2)

/-- The cases over the name: the name and the flags of the mapping, and the other variables. -/
def labelMapping (env : MapsEnv) (m : MemoryMapping) (st : MapsState) : List Char × Nat × MapsState :=
  if m.pathname = [] then
    if m.start < env.addrBrk ∧ env.addrBrk ≤ m.stop then
      ("[heap]".toList, m.flags, { st with numHeapmaps := st.numHeapmaps + 1 })
    else if st.actualStack = (m.start, m.stop) then
      ("[stack]".toList, m.flags ||| mapGrowsdown, { st with numStackmaps := st.numStackmaps + 1 })
    else if env.newStack = (m.start, m.stop) then
      ([], m.flags ||| mapGrowsdown, { st with numStackmaps := st.numStackmaps + 1 })
    else ([], m.flags ||| mapAnonymous, { st with numAnonmaps := st.numAnonmaps + 1 })
  else if m.pathname = "[heap]".toList then (m.pathname, m.flags, { st with numHeapmaps := st.numHeapmaps + 1 })
  else if m.pathname = "[stack]".toList then
    (m.pathname, m.flags ||| mapGrowsdown,
      { st with
        actualStack := widen (2 ^ 64 - 1) st.actualStack m
        numStackmaps := st.numStackmaps + 1 })
  else if m.pathname = "[vdso]".toList then (m.pathname, m.flags, { st with vdso := widen 0 st.vdso m })
  else if m.pathname = "[vvar]".toList then (m.pathname, m.flags, { st with vvar := widen 0 st.vvar m })
  else if m.pathname = "[vsyscall]".toList then (m.pathname, m.flags, { st with vsyscall := widen 0 st.vsyscall m })
  else (m.pathname, m.flags, st)

/-- The mapping is put into the table, without a file when it has no name or one in brackets. -/
def addMapping (env : MapsEnv) (m : MemoryMapping) (st : MapsState) : MapsState :=
  let (pathname, flags, st) := labelMapping env m st
  let flags := if pathname = [] ∨ pathname.head? = some '[' then flags ||| mapAnonymous else flags
  { st with mappings := st.mappings ++ [{ m with pathname := pathname, flags := flags }] }

def parseLoop (env : MapsEnv) : Nat → List Char → List (List Char) → MapsState → Option (MapsState × Bool)
  | 0, _, _, _ => none
  | fuel + 1, line, fd, st =>
    match customFgets line 256 fd with
    | none => some (st, false)
    | some (line, fd) =>
      if maxMappings ≤ st.mappings.length then some (st, true)
      else (scanLine line).bind fun m => parseLoop env fuel line fd (addMapping env m st)

def parseMapsFile (env : MapsEnv) (actualStack : Nat × Nat) (line : List Char) (fd : List (List Char)) :
    Option (MapsState × Bool) :=
  parseLoop env (fd.flatten.length + 1) line fd (.start actualStack)

end ParepMpi
