import ShaderIR.Chart
import ShaderIR.Command.Files
import ShaderIR.Command.Options
import ShaderIR.CopySplitting
import ShaderIR.Description.Loader
import ShaderIR.Lowering.Basic

/-!
# Processing files

Each file is loaded, its copies are split, its locals are lowered, and the forms asked for are
dumped beside it. What a file prints is kept apart from what the others print, and files are
reported in the order in which they were named.
-/

set_option autoImplicit false

namespace ShaderIR.Command

open Options

inductive FileFault where
  | unreadable (e : FileError)
  | load (file : String) (e : LoadError)
  | split (file : String) (e : Fault SplitError)
  | lower (file : String) (e : Fault LowerError)
  | uncreatable (e : FileError)

def FileFault.message : FileFault → String
  | unreadable e => e.message
  | load file e => file ++ ": " ++ e.message
  | split file e => file ++ ": " ++ e.message SplitError.message
  | lower file e => file ++ ": " ++ e.message LowerError.message
  | uncreatable e => "error creating " ++ e.name ++ ": " ++ e.message

structure Output where
  out : String := ""
  err : String := ""
  deriving DecidableEq, Repr, Inhabited

namespace Output

def append (a b : Output) : Output := ⟨a.out ++ b.out, a.err ++ b.err⟩

end Output

section

variable {m : Type → Type} [Monad m]

abbrev Job (m : Type → Type) := ExceptT FileFault (StateT Output m)

def print (text : String) : Job m Unit :=
  modify fun o => { o with out := o.out ++ text }

def report (line : String) : Job m Unit :=
  modify fun o => { o with err := o.err ++ programName ++ ": " ++ line ++ "\n" }

def create (fs : Files m) (name text : String) : Job m Unit := do
  match ← (liftM (fs.write name text) : Job m (Except FileError Unit)) with
  | .ok _ => pure ()
  | .error e => throw (.uncreatable e)

def dump (fs : Files m) (name : String) (s : Shader) : Job m Shader := do
  let s := s.mapBodies (Body.require ⟨false, true, true⟩)
  create fs name s.render
  print s.render
  return s

def load (fs : Files m) (file : String) : Job m Shader := do
  match ← (liftM (fs.read file) : Job m (Except FileError String)) with
  | .error e => throw (.unreadable e)
  | .ok text =>
    match Shader.ofText text with
    | .error e => throw (.load file e)
    | .ok s => return s

def splitCopies (file : String) (s : Shader) : Job m Shader := do
  let r := s.splitCopies
  match r.error with
  | some e => throw (.split file e)
  | none => return r.shader

def reportLine (file : String) (function : String) (s : LowerStats) : String :=
  file ++ ": " ++ function ++ ": " ++ toString s.loads ++ " loads, " ++ toString s.stores ++
    " stores, " ++ toString s.registers ++ " registers"

def lowerLocals (verbose : Bool) (file : String) (s : Shader) : Job m (Shader × Nat) := do
  let r := s.lowerLocals
  if verbose then
    r.reports.forM fun (name, stats) => report (reportLine file name stats)
  match r.error with
  | some e => throw (.lower file e)
  | none => return (r.shader, r.total.registers)

def drawCharts (fs : Files m) (file : String) (s : Shader) : Job m Unit :=
  s.bodies.forM fun (_, name, b) =>
    create fs (FileName.withEnding file ("." ++ name ++ ".regs.svg")) (Body.draw.run b).1

def process (fs : Files m) (o : Options) (file : String) : Job m Unit := do
  let s ← load fs file
  let s ← if o.dumpInput then dump fs (FileName.withEnding file ".input.nir") s else pure s
  let s ← if o.keepCopies then pure s else splitCopies file s
  let (s, registers) ← lowerLocals o.verbose file s
  let s ← if o.dumpLowered then dump fs (FileName.withEnding file ".lowered.nir") s else pure s
  if o.dumpChart then drawCharts fs file s
  if !o.dumpInput && !o.dumpLowered then
    report ("lowered " ++ file ++ " (" ++ toString registers ++ " registers)")

def processAndReport (fs : Files m) (o : Options) (file : String) : m (Output × Bool) := do
  let (r, out) ← (process fs o file).run.run {}
  match r with
  | .ok _ => return (out, true)
  | .error e => return ({ out with err := out.err ++ programName ++ ": " ++ e.message ++ "\n" }, false)

/-- Processes files in order. With one job, nothing is processed after the first fault. -/
def processAll (fs : Files m) (o : Options) : List String → m (Output × Bool)
  | [] => pure ({}, true)
  | file :: files => do
    let (out, ok) ← processAndReport fs o file
    if !ok && o.jobs = 1 then return (out, false)
    let (rest, restOk) ← processAll fs o files
    return (out.append rest, ok && restOk)

end

end ShaderIR.Command
