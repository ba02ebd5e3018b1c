import ParepMpi.Lib.Reads

/-!
# What goes over the coordinators' connections

A message is a command of four bytes and what the command carries. Each reader loops over `read` until a variable is
full, and goes on at `(&x)+msgsize`, which counts in variables and not in bytes: a variable that comes in two pieces is
put together wrongly. The loops are those of `polling_daemon`, of `failed_proc_check`, of `polling_server`, which reads
the next command itself when it handles an announcement in a barrier, and of the tables at start-up.
-/

namespace ParepMpi

namespace Framing

open Bytewise Reads

def CMD_INFORM_PROC_FAILED : Nat := 10
def CMD_BARRIER : Nat := 19
def CMD_INFORM_PREDICT : Nat := 30
def CMD_INFORM_PREDICT_NODE : Nat := 34

inductive Payload where
  | none
  | failedRanks (ranks : List Nat)
  | prediction (rank timestamp : Nat)
  | nodePrediction (ranks : List Nat) (timestamp : Nat)
  | failReady (v : Nat)
  deriving DecidableEq, Repr

structure Message where
  cmd : Nat
  payload : Payload
  deriving DecidableEq, Repr

def Message.announces (m : Message) : Bool :=
  m.cmd == CMD_INFORM_PROC_FAILED || m.cmd == CMD_INFORM_PREDICT || m.cmd == CMD_INFORM_PREDICT_NODE

def encodeInts (xs : List Nat) : List Nat := xs.flatMap (Wire.encode 4)

def Payload.encode : Payload → List Nat
  | none => []
  | failedRanks ranks => Wire.encode 4 ranks.length ++ encodeInts ranks
  | prediction rank timestamp => Wire.encode 4 rank ++ Wire.encode 8 timestamp
  | nodePrediction ranks timestamp => Wire.encode 4 ranks.length ++ (encodeInts ranks ++ Wire.encode 8 timestamp)
  | failReady v => Wire.encode 4 v

def Message.encode (m : Message) : List Nat := Wire.encode 4 m.cmd ++ m.payload.encode

/-- Numbers of type `int`, as many as `msgsize` can count the bytes of. -/
def Ints (xs : List Nat) : Prop := 4 * xs.length < 2 ^ 31 ∧ ∀ x ∈ xs, x < 256 ^ 4

def Payload.Fits : Payload → Prop
  | none => True
  | failedRanks ranks => Ints ranks
  | prediction rank timestamp => rank < 256 ^ 4 ∧ timestamp < 256 ^ 8
  | nodePrediction ranks timestamp => Ints ranks ∧ timestamp < 256 ^ 8
  | failReady v => v < 256 ^ 4

/-- The command has the payload that belongs to it; a barrier has one on the connections `server` between coordinators. -/
def Payload.Of (server : Bool) (cmd : Nat) : Payload → Prop
  | none => cmd ≠ CMD_INFORM_PROC_FAILED ∧ cmd ≠ CMD_INFORM_PREDICT ∧ cmd ≠ CMD_INFORM_PREDICT_NODE
      ∧ ¬ (server = true ∧ cmd = CMD_BARRIER)
  | failedRanks _ => cmd = CMD_INFORM_PROC_FAILED
  | prediction _ _ => cmd = CMD_INFORM_PREDICT
  | nodePrediction _ _ => cmd = CMD_INFORM_PREDICT_NODE
  | failReady _ => server = true ∧ cmd = CMD_BARRIER

def Message.WellFormed (server : Bool) (m : Message) : Prop :=
  m.cmd < 256 ^ 4 ∧ m.payload.Of server m.cmd ∧ m.payload.Fits

instance (server : Bool) (cmd : Nat) (p : Payload) : Decidable (p.Of server cmd) :=
  match p with
  | .none => inferInstanceAs (Decidable (cmd ≠ CMD_INFORM_PROC_FAILED ∧ cmd ≠ CMD_INFORM_PREDICT
      ∧ cmd ≠ CMD_INFORM_PREDICT_NODE ∧ ¬ (server = true ∧ cmd = CMD_BARRIER)))
  | .failedRanks _ => inferInstanceAs (Decidable (cmd = CMD_INFORM_PROC_FAILED))
  | .prediction _ _ => inferInstanceAs (Decidable (cmd = CMD_INFORM_PREDICT))
  | .nodePrediction _ _ => inferInstanceAs (Decidable (cmd = CMD_INFORM_PREDICT_NODE))
  | .failReady _ => inferInstanceAs (Decidable (server = true ∧ cmd = CMD_BARRIER))

/-- The loop for one variable of `w` bytes: `(&x)+msgsize` goes on by whole variables. -/
def field (w : Nat) : Loop := ⟨w, w, fun m => decide (w ≤ m)⟩

/-- The loop for an array of `n` numbers, with its address taken as that of bytes. -/
def array (n : Nat) : Loop := ⟨1, 4 * n, fun m => decide (4 * n ≤ m)⟩

/-- The loop for a part of `n` elements of one of the main coordinator's tables: `(&(table[start]))+msgsize`. -/
def table (n : Nat) : Loop := ⟨4, 4 * n, fun m => decide (4 * n ≤ m)⟩

/-- The loop of a group leader for a table: it compares what it has with what is missing. -/
def leaderTable (n : Nat) : Loop := ⟨1, 4 * n, fun m => decide (4 * n - m ≤ m)⟩

section

-- What the destinations hold before, which are on the stack or have come from malloc.
variable (old : Nat → Nat)

def readField (w : Nat) (cs : Pieces) : Option (Nat × Pieces) :=
  ((field w).fill old cs).bind fun p => some (ofBytes p.1 w, p.2)

def readInts (l : Loop) (n : Nat) (cs : Pieces) : Option (List Nat × Pieces) :=
  (l.fill old cs).bind fun p => some (words 4 n p.1, p.2)

def readFailedRanks (cs : Pieces) : Option (Payload × Pieces) :=
  (readField old 4 cs).bind fun p => (readInts old (array p.1) p.1 p.2).bind fun q => some (.failedRanks q.1, q.2)

def readPrediction (cs : Pieces) : Option (Payload × Pieces) :=
  (readField old 4 cs).bind fun p => (readField old 8 p.2).bind fun q => some (.prediction p.1 q.1, q.2)

def readNodePrediction (cs : Pieces) : Option (Payload × Pieces) :=
  (readField old 4 cs).bind fun p => (readInts old (array p.1) p.1 p.2).bind fun q =>
    (readField old 8 q.2).bind fun r => some (.nodePrediction q.1 r.1, r.2)

def readFailReady (cs : Pieces) : Option (Payload × Pieces) :=
  (readField old 4 cs).bind fun p => some (.failReady p.1, p.2)

def daemonPayload (cmd : Nat) (cs : Pieces) : Option (Payload × Pieces) :=
  if cmd = CMD_INFORM_PREDICT then readPrediction old cs
  else if cmd = CMD_INFORM_PREDICT_NODE then readNodePrediction old cs
  else if cmd = CMD_INFORM_PROC_FAILED then readFailedRanks old cs
  else some (.none, cs)

/-- What `failed_proc_check` reads after a command. -/
def checkPayload (cmd : Nat) (cs : Pieces) : Option (Payload × Pieces) :=
  if (cmd ≠ CMD_INFORM_PROC_FAILED ∧ cmd ≠ CMD_INFORM_PREDICT) ∨ cmd = CMD_INFORM_PREDICT_NODE then none
  else if cmd = CMD_INFORM_PROC_FAILED then readFailedRanks old cs
  else if cmd = CMD_INFORM_PREDICT then readPrediction old cs
  else if cmd = CMD_INFORM_PREDICT_NODE then readNodePrediction old cs
  else some (.none, cs)

def serverPayload (cmd : Nat) (cs : Pieces) : Option (Payload × Pieces) :=
  if cmd = CMD_BARRIER then readFailReady old cs
  else if cmd = CMD_INFORM_PREDICT then readPrediction old cs
  else if cmd = CMD_INFORM_PREDICT_NODE then readNodePrediction old cs
  else if cmd = CMD_INFORM_PROC_FAILED then readFailedRanks old cs
  else some (.none, cs)

/-- What the server reads in a barrier after it has handled an announcement: it asserts that the command is a barrier. -/
def barrierPayload (cmd : Nat) (cs : Pieces) : Option (Payload × Pieces) :=
  if cmd = CMD_BARRIER then readFailReady old cs else none

/-- One message: its command, and then what `payload` reads for it. -/
def readMessage (payload : Nat → Pieces → Option (Payload × Pieces)) (cs : Pieces) : Option (Message × Pieces) :=
  (readField old 4 cs).bind fun p => (payload p.1 p.2).bind fun q => some (⟨p.1, q.1⟩, q.2)

def readMessages (payload : Nat → Pieces → Option (Payload × Pieces)) : Nat → Pieces → Option (List Message × Pieces)
  | 0, cs => some ([], cs)
  | n + 1, cs => (readMessage old payload cs).bind fun p => (readMessages payload n p.2).bind fun q => some (p.1 :: q.1, q.2)

def pollingDaemon : Nat → Pieces → Option (List Message × Pieces) := readMessages old (daemonPayload old)

def failedProcCheck : Nat → Pieces → Option (List Message × Pieces) := readMessages old (checkPayload old)

/-- The server, which `awaits` the barrier after an announcement that it has handled while `parep_mpi_performing_barrier`
is 1; `performing` gives the flag, which other threads set, at each message by the number of those that follow. -/
def pollingServer (performing : Nat → Bool) : Bool → Nat → Pieces → Option (List Message × Pieces)
  | _, 0, cs => some ([], cs)
  | awaits, n + 1, cs =>
    (readMessage old (if awaits then barrierPayload old else serverPayload old) cs).bind fun p =>
      (pollingServer performing (!awaits && performing n && p.1.announces) n p.2).bind fun q => some (p.1 :: q.1, q.2)

/-- The tables that the main coordinator reads for one node after the other, of `sizes` processes each. -/
def mainTables : List Nat → Pieces → Option (List (List Nat × List Nat) × Pieces)
  | [], cs => some ([], cs)
  | n :: ns, cs =>
    (readInts old (table n) n cs).bind fun pids => (readInts old (table n) n pids.2).bind fun ranks =>
      (mainTables ns ranks.2).bind fun rest => some ((pids.1, ranks.1) :: rest.1, rest.2)

/-- The main coordinator at the connection of one daemon: `lpinit`, which must be 1, and the tables. -/
def mainStartup (sizes : List Nat) (cs : Pieces) : Option (List (List Nat × List Nat) × Pieces) :=
  (readInts old (array 1) 1 cs).bind fun lpinit => if lpinit.1 = [1] then mainTables old sizes lpinit.2 else none

/-- The tables that a group leader reads from a daemon of its group and passes on. -/
def leaderTables (n : Nat) (cs : Pieces) : Option ((List Nat × List Nat) × Pieces) :=
  (readInts old (leaderTable n) n cs).bind fun pids => (readInts old (leaderTable n) n pids.2).bind fun ranks =>
    some ((pids.1, ranks.1), ranks.2)

def leaderStartup (n : Nat) (cs : Pieces) : Option ((List Nat × List Nat) × Pieces) :=
  (readInts old (array 1) 1 cs).bind fun lpinit => if lpinit.1 = [1] then leaderTables old n lpinit.2 else none

end

/-- What a daemon writes of its own processes, and a leader writes on for its group. -/
def encodeTables (tables : List (List Nat × List Nat)) : List Nat :=
  tables.flatMap fun t => encodeInts t.1 ++ encodeInts t.2

/-- What is written to the connection at start-up: the daemon is ready, and the tables. -/
def encodeStartup (tables : List (List Nat × List Nat)) : List Nat := encodeInts [1] ++ encodeTables tables

/-- Both tables of a node have an entry for each of its processes. -/
def TableFits (t : List Nat × List Nat) : Prop := Ints t.1 ∧ Ints t.2 ∧ t.1.length = t.2.length

/-! ## When the pieces do no harm

What one call of `read` is to fill must not be split; what a loop reads may come in any pieces. -/

def Payload.Unsplit : Payload → Pieces → Prop
  | none, _ => True
  | failedRanks _, cs => Whole 4 cs
  | prediction _ _, cs => Whole 4 cs ∧ Whole 8 (skip 4 cs)
  | nodePrediction ranks _, cs => Whole 4 cs ∧ Whole 8 (skip (4 + 4 * ranks.length) cs)
  | failReady _, cs => Whole 4 cs

/-- No piece ends inside the command or inside a variable of the payload. -/
def Message.Unsplit (m : Message) (cs : Pieces) : Prop := Whole 4 cs ∧ m.payload.Unsplit (skip 4 cs)

def Unsplit : List Message → Pieces → Prop
  | [], _ => True
  | m :: ms, cs => m.Unsplit cs ∧ Unsplit ms (skip m.encode.length cs)

/-- After an announcement that the server handles in a barrier the next command is that barrier. -/
def Awaited (performing : Nat → Bool) : Bool → List Message → Prop
  | _, [] => True
  | awaits, m :: ms => (awaits = true → m.cmd = CMD_BARRIER)
      ∧ Awaited performing (!awaits && performing ms.length && m.announces) ms

/-- One of the two announcements that `failed_proc_check` goes on with. -/
def Message.Checked (m : Message) : Prop := m.cmd = CMD_INFORM_PROC_FAILED ∨ m.cmd = CMD_INFORM_PREDICT

def TablesUnsplit : List (List Nat × List Nat) → Pieces → Prop
  | [], _ => True
  | t :: ts, cs => Whole (4 * t.1.length) cs ∧ Whole (4 * t.2.length) (skip (4 * t.1.length) cs)
      ∧ TablesUnsplit ts (skip (4 * t.1.length + 4 * t.2.length) cs)

def HalfWhole (w : Nat) (cs : Pieces) : Prop := ∀ b ∈ cuts cs, b < w → 2 * b < w

end Framing

end ParepMpi
