import ParepMpi.Maps.Faithful

/-!
# The launches of `mpirun`

`mpirun` reads the file of the down nodes before each launch, until the processes that are left suffice for the compute
processes. From its lines come the node file of the launch, the number of nodes, the argument of `-np` and the two
ratios from which the processes of the job compute `nC` and `nR`.

Texts are lists of characters and read with `fgets` as they are, numbers that the source keeps in an `int` wrap, and a
line beyond the end of `down_nodes` is a fault. Forks, file locks and the checkpoint interval are left out: the sizes
of a launch do not depend on them.
-/

namespace ParepMpi

/-- The variables of the environment that say how many processes are replicas. -/
structure Ratios where
  cmpRatio : Option Int
  repRatio : Option Int
  compPerRep : Option Int
  deriving DecidableEq, Repr

/-- `nR` of `n` processes, as both programs compute it; `nR` stays as it is when the environment says nothing. -/
def Ratios.replicas (env : Ratios) (n nR : Int) : Option Int :=
  match env.cmpRatio, env.repRatio, env.compPerRep with
  | some cr, some rr, _ => if rr + cr = 0 then none else some ((int32 (n * rr)).tdiv (rr + cr))
  | _, _, some cpr => some (if 0 < cpr then n.tdiv (1 + cpr) else 0)
  | _, _, none => some nR

/-- `nC` and `nR` in `empi_comm_creation`, where `CMP_PER_REP` is 1. -/
def empiCommCreation (env : Ratios) (worldSize : Int) : Option (Int × Int) :=
  (env.replicas worldSize (worldSize.tdiv 2)).map fun nR => (worldSize - nR, nR)

def itoaLoop : Nat → Nat → List Char
  | 0, _ => []
  | fuel + 1, num => if num = 0 then [] else Char.ofNat ('0'.toNat + num % 10) :: itoaLoop fuel (num / 10)

/-- `parep_mpi_itoa`: the digits come in the wrong order and are reversed. -/
def parepMpiItoa (num : Int) : List Char :=
  if num = 0 then ['0']
  else (itoaLoop num.natAbs num.natAbs ++ if num < 0 then ['-'] else []).reverse

def fileText (lines : List (List Char)) : List Char := (lines.map (· ++ ['\n'])).flatten

/-- What `fgets` with `char line[4096]` returns one after the other, as strings. -/
def fgetsLines (text : List Char) : List (List Char) :=
  (Lines.pieces (· = '\n') 4095 text.length text).map (List.takeWhile (· ≠ nul))

/-- A job: the lines of the node file, `SLURM_NTASKS_PER_NODE`, the argument of `-np`, and the environment, with what the
uninitialised `nR` holds. -/
structure MpirunJob where
  nodes : List (List Char)
  ntasksPerNode : Nat
  size : Nat
  argv : List Char
  env : Ratios
  nR : Int
  nodes_nodup : nodes.Nodup
  ntasks_pos : 0 < ntasksPerNode
  size_eq : size = nodes.length * ntasksPerNode
  argv_nonempty : argv ≠ []
  argv_digits : ∀ c ∈ argv, (decDigit c).isSome
  argv_value : digitsValue decDigit 10 0 argv = size

/-- What a launch finds. -/
structure Launch where
  down : List (List Char)
  nodeFile : List Char
  nodeNum : Int
  size : Int
  np : List Char
  env : Ratios
  deriving DecidableEq

structure Mpirun where
  nC : Int
  nodeFile : List Char
  np : List Char
  env : Ratios
  launches : List Launch
  deriving DecidableEq

namespace MpirunJob

variable (job : MpirunJob)

def start : Option Mpirun :=
  (job.env.replicas job.size job.nR).map fun nR => ⟨job.size - nR, fileText job.nodes, job.argv, job.env, []⟩

/-- The copy of the node file, which ends where `fgetc` into a `char` gives `EOF`. -/
def nodeCopy : List Char := (fileText job.nodes).takeWhile (· ≠ eof)

def downProcs (downNodes : List (List Char)) : Nat :=
  job.ntasksPerNode * downNodes.countP fun line => line ≠ [] ∧ line.head? ≠ some '\n'

/-- One pass of the loop that waits for enough nodes, and behind it the launch. -/
def poll (s : Mpirun) (down : List (List Char)) : Option Mpirun :=
  let downNodes := fgetsLines (fileText down)
  if job.size < downNodes.length then none
  else
    let downProcs := job.downProcs downNodes
    let np := parepMpiItoa (job.size - downProcs)
    if job.argv.length < np.length then none
    else
      let nR : Int := job.size - s.nC - downProcs
      if nR < 0 then some { s with np := np }
      else
        let env : Ratios := if 0 < nR then ⟨some s.nC, some nR, none⟩ else ⟨none, none, some (-1)⟩
        let nodeFile :=
          if 0 < downProcs then ((fgetsLines job.nodeCopy).filter (· ∉ downNodes)).flatten else s.nodeFile
        some { s with
          np := np
          env := env
          nodeFile := nodeFile
          launches := s.launches ++ [⟨down, nodeFile, job.size / job.ntasksPerNode - downProcs / job.ntasksPerNode,
            job.size - downProcs, np, env⟩] }

end MpirunJob

end ParepMpi
