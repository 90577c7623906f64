import ShaderIR.Command.Flag

/-!
# Options

What the program can be told on its command line. The dump flags are also accepted with one dash,
wherever they stand.
-/

set_option autoImplicit false

namespace ShaderIR

open Command

structure Options where
  dumpInput : Bool := false
  dumpLowered : Bool := false
  dumpChart : Bool := false
  keepCopies : Bool := false
  verbose : Bool := false
  watch : Bool := false
  help : Bool := false
  version : Bool := false
  /-- How many files are processed at a time; none is no limit. -/
  jobs : Int := 0
  deriving DecidableEq, Repr, Inhabited

namespace Options

def ownFlags : List Flag :=
  [⟨"dinput", none, .switch, "Dump IR as loaded"⟩,
    ⟨"dnir", none, .switch, "Dump IR after lowering locals to registers"⟩,
    ⟨"dregsvg", none, .switch, "Draw register accesses of each function as SVG"⟩,
    ⟨"jobs", some 'j', .number, "Files processed in parallel (0 = unlimited)"⟩,
    ⟨"no-split-copies", none, .switch, "Do not split copy_deref before lowering"⟩,
    ⟨"verbose", some 'v', .switch, "Report per-function statistics"⟩,
    ⟨"watch", some 'w', .switch, "Reprocess inputs whenever they change"⟩]

def helpFlag (command : String) : Flag := ⟨"help", some 'h', .switch, "help for " ++ command⟩

def versionFlag (command : String) : Flag := ⟨"version", none, .switch, "version for " ++ command⟩

def flagSet (program : String) : FlagSet :=
  ⟨(helpFlag program :: versionFlag program :: ownFlags).mergeSort fun f g => f.name ≤ g.name, true⟩

def ofSettings (s : Settings) : Options where
  dumpInput := s.truth "dinput"
  dumpLowered := s.truth "dnir"
  dumpChart := s.truth "dregsvg"
  keepCopies := s.truth "no-split-copies"
  verbose := s.truth "verbose"
  watch := s.truth "watch"
  help := s.truth "help"
  version := s.truth "version"
  jobs := s.number "jobs"

def programName : String := "ralph-nir"

def parse (args : List String) : Except FlagError (Options × List String) := do
  let s ← (flagSet programName).parse args
  return (ofSettings s, s.words)

def dumpFlags : List String := ["dinput", "dnir", "dregsvg"]

def normalize (args : List String) : List String :=
  args.map fun arg => if dumpFlags.any (fun f => arg == "-" ++ f) then "-" ++ arg else arg

end Options

end ShaderIR
