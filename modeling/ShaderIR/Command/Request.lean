import ShaderIR.Command.Help
import ShaderIR.Command.Watch

/-!
# Requests

A command line asks for help, for the version, for completions, or to process or watch files.
-/

set_option autoImplicit false

namespace ShaderIR.Command

open Options

inductive Request where
  | refused
  | show (o : Output)
  | process (o : Options) (files : List String)
  | watch (o : Options) (files : List String)

namespace Request

def showText (text : String) : Request := .show ⟨text, ""⟩

def program (args : List String) : Request :=
  match Options.parse args with
  | .error _ => .refused
  | .ok (o, files) =>
    if o.help then showText Verb.program.help
    else if o.version then showText versionText
    else if files.isEmpty then showText Verb.program.help
    else if o.watch then .watch o files
    else .process o files

def completion (args : List String) : Request :=
  let (v, args) := Verb.ofArgs args
  match v.flagSet.parse args, v with
  | .error _, _ => .refused
  | .ok s, .script shell =>
    if s.truth "help" then showText v.help
    else if s.words.isEmpty then showText (shell.script (s.truth "no-descriptions"))
    else .refused
  | .ok _, v => showText v.help

def shown (plain : Bool) (s : Suggestions) : Output :=
  let line (name usage : String) : String := if plain then name else name ++ "\t" ++ usage
  let note := match s.error with
    | some e => "[Debug] [Error] " ++ e.message ++ "\n"
    | none => ""
  ⟨String.join (s.words.map fun (name, usage) => line name usage ++ "\n") ++ ":" ++
      toString s.directive.number ++ "\n",
    note ++ "Completion ended with directive: " ++ s.directive.name ++ "\n"⟩

def suggestions (plain : Bool) (args : List String) : Request :=
  match args.getLast? with
  | none => .refused
  | some word => .show (shown plain (suggestFor args.dropLast word))

def ofArgs (args : List String) : Request :=
  let args := Options.normalize args
  match Verb.program.searchFlags.firstWord? args with
  | some (w, rest) =>
    if w = Shell.requestWord false then suggestions false rest
    else if w = Shell.requestWord true then suggestions true rest
    else if w = Verb.completion.name then completion rest
    else program args
  | none => program args

section

variable {m : Type → Type} [Monad m]

def answer (fs : Files m) : Request → m (Nat × Output)
  | .refused => pure (1, {})
  | .show o => pure (0, o)
  | .process o files => do
    let (out, ok) ← processAll fs o files
    return (if ok then 0 else 1, out)
  | .watch o files => do
    match ← startWatch fs o files with
    | .ok out => return (0, out)
    | .error _ => return (1, {})

end

end Request

end ShaderIR.Command
