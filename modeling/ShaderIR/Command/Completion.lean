import ShaderIR.Command.Options

/-!
# Completing command lines

A shell asks the program how a command line may go on. The answer is a list of words with their
explanations and a directive that tells whether file names are to be offered as well. The program
can also write the scripts that make shells ask.
-/

set_option autoImplicit false

namespace ShaderIR.Command

open Options

inductive Shell where
  | bash
  | fish
  | powershell
  | zsh
  deriving DecidableEq, Repr

namespace Shell

def all : List Shell := [bash, fish, powershell, zsh]

def name : Shell → String
  | bash => "bash"
  | fish => "fish"
  | powershell => "powershell"
  | zsh => "zsh"

def summary (s : Shell) : String := "Generate the autocompletion script for " ++ s.name

def manual : Shell → String
  | bash =>
    "Generate the autocompletion script for the bash shell.\n\n" ++
    "This script depends on the 'bash-completion' package.\n" ++
    "If it is not installed already, you can install it via your OS's package manager.\n\n" ++
    "To load completions in your current shell session:\n\n" ++
    "\tsource <(ralph-nir completion bash)\n\n" ++
    "To load completions for every new session, execute once:\n\n" ++
    "#### Linux:\n\n" ++
    "\tralph-nir completion bash > /etc/bash_completion.d/ralph-nir\n\n" ++
    "#### macOS:\n\n" ++
    "\tralph-nir completion bash > $(brew --prefix)/etc/bash_completion.d/ralph-nir\n\n" ++
    "You will need to start a new shell for this setup to take effect.\n"
  | fish =>
    "Generate the autocompletion script for the fish shell.\n\n" ++
    "To load completions in your current shell session:\n\n" ++
    "\tralph-nir completion fish | source\n\n" ++
    "To load completions for every new session, execute once:\n\n" ++
    "\tralph-nir completion fish > ~/.config/fish/completions/ralph-nir.fish\n\n" ++
    "You will need to start a new shell for this setup to take effect.\n"
  | powershell =>
    "Generate the autocompletion script for powershell.\n\n" ++
    "To load completions in your current shell session:\n\n" ++
    "\tralph-nir completion powershell | Out-String | Invoke-Expression\n\n" ++
    "To load completions for every new session, add the output of the above command\n" ++
    "to your powershell profile.\n"
  | zsh =>
    "Generate the autocompletion script for the zsh shell.\n\n" ++
    "If shell completion is not already enabled in your environment you will need\n" ++
    "to enable it.  You can execute the following once:\n\n" ++
    "\techo \"autoload -U compinit; compinit\" >> ~/.zshrc\n\n" ++
    "To load completions in your current shell session:\n\n" ++
    "\tsource <(ralph-nir completion zsh)\n\n" ++
    "To load completions for every new session, execute once:\n\n" ++
    "#### Linux:\n\n" ++
    "\tralph-nir completion zsh > \"$\x7bfpath[1]\x7d/_ralph-nir\"\n\n" ++
    "#### macOS:\n\n" ++
    "\tralph-nir completion zsh > $(brew --prefix)/share/zsh/site-functions/_ralph-nir\n\n" ++
    "You will need to start a new shell for this setup to take effect.\n"

def requestWord (plain : Bool) : String := if plain then "__completeNoDesc" else "__complete"

def script (plain : Bool) : Shell → String
  | bash =>
    "_ralph_nir() \x7b\n" ++
    "    local out\n" ++
    "    out=$(\"$\x7bCOMP_WORDS[0]\x7d\" " ++ requestWord true ++
      " \"$\x7bCOMP_WORDS[@]:1:COMP_CWORD\x7d\" 2>/dev/null)\n" ++
    "    mapfile -t COMPREPLY < <(printf '%s\\n' \"$out\" | grep -v '^:')\n" ++
    "\x7d\n" ++
    "complete -o default -F _ralph_nir ralph-nir\n"
  | fish =>
    "complete -c ralph-nir -a '(set -l words (commandline -opc) (commandline -ct); " ++
    "ralph-nir " ++ requestWord plain ++ " $words[2..-1] 2>/dev/null | string match -v \":*\")'\n"
  | powershell =>
    "Register-ArgumentCompleter -Native -CommandName 'ralph-nir' -ScriptBlock \x7b\n" ++
    "    param($word, $line, $position)\n" ++
    "    $words = @($line.CommandElements | Select-Object -Skip 1 | ForEach-Object \x7b \"$_\" \x7d)\n" ++
    "    if ($word -eq '') \x7b $words += '' \x7d\n" ++
    "    ralph-nir " ++ requestWord true ++ " @words 2>$null | Where-Object \x7b $_ -notlike ':*' \x7d\n" ++
    "\x7d\n"
  | zsh =>
    "#compdef ralph-nir\n" ++
    "_ralph_nir() \x7b\n" ++
    "    local -a found\n" ++
    "    found=(\"$\x7b(@f)$(ralph-nir " ++ requestWord true ++
      " \"$\x7b(@)words[2,CURRENT]\x7d\" 2>/dev/null | grep -v '^:')\x7d\")\n" ++
    "    compadd -a found\n" ++
    "    _files\n" ++
    "\x7d\n" ++
    "compdef _ralph_nir ralph-nir\n"

end Shell

inductive Verb where
  | program
  | completion
  | script (s : Shell)
  deriving DecidableEq, Repr

namespace Verb

def name : Verb → String
  | program => programName
  | completion => "completion"
  | script s => s.name

def flagSet : Verb → FlagSet
  | program => Options.flagSet programName
  | completion => ⟨[helpFlag "completion"], false⟩
  | script s =>
    ⟨[helpFlag s.name, ⟨"no-descriptions", none, .switch, "disable completion descriptions"⟩], false⟩

def searchFlags : Verb → FlagSet
  | program => ⟨ownFlags, true⟩
  | _ => ⟨[], false⟩

def choices : Verb → List (String × String)
  | completion => Shell.all.map fun s => (s.name, s.summary)
  | _ => []

def takesNoFiles : Verb → Bool
  | program => false
  | _ => true

def ofArgs (args : List String) : Verb × List String :=
  match completion.searchFlags.firstWord? args with
  | some (w, rest) =>
    match Shell.all.find? (·.name == w) with
    | some s => (script s, rest)
    | none => (completion, args)
  | none => (completion, args)

end Verb

inductive Directive where
  | files
  | noFiles
  deriving DecidableEq, Repr

def Directive.number : Directive → Nat
  | files => 0
  | noFiles => 4

def Directive.name : Directive → String
  | files => "ShellCompDirectiveDefault"
  | noFiles => "ShellCompDirectiveNoFileComp"

inductive CompletionError where
  | flags (args : List String) (e : FlagError)
  | unsupported (command flag : String)
  deriving DecidableEq, Repr

def CompletionError.message : CompletionError → String
  | flags args e =>
    "Error while parsing flags from args [" ++ " ".intercalate args ++ "]: " ++ e.message
  | unsupported command flag =>
    "Subcommand '" ++ command ++ "' does not support flag '" ++ flag ++ "'"

structure Suggestions where
  words : List (String × String)
  directive : Directive
  error : Option CompletionError
  deriving DecidableEq, Repr

namespace Suggestions

def none (d : Directive) : Suggestions := ⟨[], d, Option.none⟩

def failed (e : CompletionError) : Suggestions := ⟨[], .files, some e⟩

end Suggestions

/-- What is being written at the end of a line: the value of a flag, or else a word of its own. A
flag that is not known is an error. -/
structure ValueSite where
  flag : Option Flag
  args : List String
  word : String
  error : Option String
  deriving DecidableEq, Repr

namespace ValueSite

def isFlagArg (arg : String) : Bool :=
  match arg.toList with
  | '-' :: '-' :: _ :: _ => true
  | '-' :: c :: _ => c != '-'
  | _ => false

def find? (fs : FlagSet) (name : String) : Option Flag :=
  match name.toList with
  | [c] => if c.utf8Size = 1 then fs.short? c else fs.long? name
  | _ => fs.long? name

/-- The name in a flag argument: all of a long one, the last letter of a bundle. -/
def nameIn (arg : List Char) : String :=
  match arg with
  | '-' :: '-' :: name => String.ofList name
  | cs => String.ofList cs.getLast?.toList

def nameInWord (word : String) : String :=
  let cs := word.toList
  if cs.head? == some '-' && cs.contains '=' then nameIn (cs.takeWhile (· != '=')) else ""

def isFlagWord (word : String) : Bool :=
  word.toList.head? == some '-' && !word.toList.contains '='

def of (fs : FlagSet) (args : List String) (word : String) : ValueSite :=
  if isFlagWord word then ⟨none, args, word, none⟩
  else
    let attached := word.toList.head? == some '-'
    let value := if attached then String.ofList ((word.toList.dropWhile (· != '=')).drop 1) else word
    let own := nameInWord word
    let before := match args.getLast? with
      | some prev => if isFlagArg prev && !prev.toList.contains '=' then nameIn prev.toList else ""
      | none => ""
    let name := if own = "" then before else own
    let trimmed := if own = "" && before ≠ "" then args.dropLast else args
    if name = "" then ⟨none, args, value, none⟩
    else
      match find? fs name with
      | none => ⟨none, args, word, some name⟩
      | some f =>
        if !attached && f.kind = .switch then ⟨none, args, value, none⟩
        else ⟨some f, trimmed, value, none⟩

end ValueSite

def flagSuggestions (fs : FlagSet) (s : Settings) (word : String) : List (String × String) :=
  let begins (name : String) : Bool := word.toList.isPrefixOf name.toList
  (fs.flags.filter fun f => !s.has f.name).flatMap fun f =>
    ((["--" ++ f.name] ++ f.short.toList.map fun c => "-" ++ String.ofList [c]).filter begins).map
      fun name => (name, f.usage)

def suggest (v : Verb) (args : List String) (word : String) : Suggestions :=
  let fs := v.flagSet
  let site := ValueSite.of fs args word
  match fs.parse site.args with
  | .error e => .failed (.flags site.args e)
  | .ok s =>
    -- Behind a lone double dash there are no flags.
    let flagsEnd : Bool := match fs.parse (site.args ++ ["--"]) with
      | .ok t => s.words.length < t.words.length
      | .error _ => false
    match site.error, flagsEnd with
    | some name, false => .failed (.unsupported v.name name)
    | _, _ =>
      if s.has "help" || s.has "version" then .none .noFiles
      else if site.flag = none && ValueSite.isFlagWord site.word && !flagsEnd then
        ⟨flagSuggestions fs s site.word, .noFiles, none⟩
      else if site.flag.isSome && !flagsEnd then .none .files
      else
        let choices :=
          if site.flag = none && s.words.isEmpty && s.values.isEmpty then
            v.choices.filter fun (name, _) => site.word.toList.isPrefixOf name.toList
          else []
        ⟨choices, if v.takesNoFiles then .noFiles else .files, none⟩

def suggestFor (line : List String) (word : String) : Suggestions :=
  match line with
  | "completion" :: args => let (v, args) := Verb.ofArgs args; suggest v args word
  | args => suggest .program args word

end ShaderIR.Command
