import ShaderIR.Command.Completion

/-!
# Help

Each command explains itself: what it does, how it is called, what stands below it and which flags
it knows.
-/

set_option autoImplicit false

namespace ShaderIR.Command

open Options

def programVersion : String := "0.1.0"

def versionText : String := programName ++ " version " ++ programVersion ++ "\n"

namespace Verb

def path : Verb → String
  | program => programName
  | completion => programName ++ " completion"
  | script s => programName ++ " completion " ++ s.name

def description : Verb → String
  | program =>
    "ralph-nir loads shader IR described in YAML, splits aggregate\n" ++
    "copies, replaces every function-local variable with a virtual\n" ++
    "register and dumps the result.\n"
  | completion =>
    "Generate the autocompletion script for ralph-nir for the specified shell.\n" ++
    "See each sub-command's help for details on how to use the generated script.\n"
  | script s => s.manual

def synopsis : Verb → String
  | program => programName ++ " [file...] [flags]"
  | completion => completion.path ++ " [command]"
  | script .bash => (script .bash).path
  | script s => (script s).path ++ " [flags]"

def choiceLine (name summary : String) : String :=
  "  " ++ name ++ String.ofList (List.replicate (12 - name.length) ' ') ++ summary ++ "\n"

def choicesText (v : Verb) : String :=
  if v.choices.isEmpty then ""
  else "\nAvailable Commands:\n" ++ String.join (v.choices.map fun (n, s) => choiceLine n s)

def hintText (v : Verb) : String :=
  if v.choices.isEmpty then ""
  else "\nUse \"" ++ v.path ++ " [command] --help\" for more information about a command.\n"

def help (v : Verb) : String :=
  v.description ++ "\nUsage:\n  " ++ v.synopsis ++ "\n" ++ v.choicesText ++ "\nFlags:\n" ++
    v.flagSet.usage ++ v.hintText

end Verb

end ShaderIR.Command
