import ShaderIR.Text.Quoted

/-!
# Flags

A command knows a set of flags. Long flags start with two dashes and may take a value behind an
equals sign. Short flags start with one dash and can be bundled. Flags and other words mix freely
until a lone double dash, after which there are no flags.
-/

set_option autoImplicit false

namespace ShaderIR.Command

open Text

inductive FlagKind where
  | switch
  | number
  deriving DecidableEq, Repr

structure Flag where
  name : String
  short : Option Char
  kind : FlagKind
  usage : String
  deriving DecidableEq, Repr

/-- The flags of a command. In some sets an underscore in a long name means a dash. -/
structure FlagSet where
  flags : List Flag
  underscores : Bool
  deriving DecidableEq, Repr

inductive FlagValue where
  | truth (b : Bool)
  | number (n : Int)
  deriving DecidableEq, Repr

inductive ValueError where
  | noTruth
  | noNumber
  | outOfRange
  deriving DecidableEq, Repr

inductive FlagError where
  | badForm (arg : String)
  | unknown (name : String)
  | unknownShort (c : Char) (bundle : String)
  | needsValue (name : String)
  | needsValueShort (c : Char) (bundle : String)
  | badValue (flag : Flag) (value : String) (cause : ValueError)
  deriving DecidableEq, Repr

def ValueError.message (value : String) : ValueError → String
  | noTruth => "strconv.ParseBool: parsing " ++ quoted value ++ ": invalid syntax"
  | noNumber => "strconv.ParseInt: parsing " ++ quoted value ++ ": invalid syntax"
  | outOfRange => "strconv.ParseInt: parsing " ++ quoted value ++ ": value out of range"

def Flag.shown (f : Flag) : String :=
  match f.short with
  | some c => "-" ++ String.ofList [c] ++ ", --" ++ f.name
  | none => "--" ++ f.name

def firstByte (c : Char) : Char :=
  Char.ofNat ((String.ofList [c]).toUTF8.data[0]?.getD 0).toNat

def FlagError.message : FlagError → String
  | badForm arg => "bad flag syntax: " ++ arg
  | unknown name => "unknown flag: --" ++ name
  | unknownShort c bundle =>
    "unknown shorthand flag: " ++ quotedChar (firstByte c) ++ " in -" ++ bundle
  | needsValue name => "flag needs an argument: --" ++ name
  | needsValueShort c bundle =>
    "flag needs an argument: " ++ quotedChar (firstByte c) ++ " in -" ++ bundle
  | badValue flag value cause =>
    "invalid argument " ++ quoted value ++ " for " ++ quoted flag.shown ++ " flag: " ++
      cause.message value

namespace FlagSet

def long? (s : FlagSet) (name : String) : Option Flag :=
  let name :=
    if s.underscores then String.ofList (name.toList.map fun c => if c = '_' then '-' else c)
    else name
  s.flags.find? (·.name == name)

def short? (s : FlagSet) (c : Char) : Option Flag :=
  s.flags.find? (·.short == some c)

end FlagSet

def truth? (value : String) : Option Bool :=
  if ["1", "t", "T", "true", "TRUE", "True"].contains value then some true
  else if ["0", "f", "F", "false", "FALSE", "False"].contains value then some false
  else none

def Flag.value (f : Flag) (text : String) : Except FlagError FlagValue :=
  match f.kind with
  | .switch =>
    match truth? text with
    | some b => .ok (.truth b)
    | none => .error (.badValue f text .noTruth)
  | .number =>
    match literal? text.toList, signed unsignedLiteral text.toList with
    | some n, _ => .ok (.number n)
    | none, some _ => .error (.badValue f text .outOfRange)
    | none, none => .error (.badValue f text .noNumber)

structure Settings where
  values : List (String × FlagValue)
  words : List String
  deriving DecidableEq, Repr

namespace Settings

def empty : Settings := ⟨[], []⟩

def assign (s : Settings) (f : Flag) (text : String) : Except FlagError Settings := do
  return { s with values := (f.name, ← f.value text) :: s.values }

def has (s : Settings) (name : String) : Bool := (s.values.lookup name).isSome

def truth (s : Settings) (name : String) : Bool := s.values.lookup name == some (.truth true)

def number (s : Settings) (name : String) : Int :=
  match s.values.lookup name with
  | some (.number n) => n
  | _ => 0

end Settings

namespace FlagSet

abbrev Rest := Settings × List String

def longFlag (fs : FlagSet) (s : Settings) (arg : String) (args : List String) :
    Except FlagError Rest := do
  let text := arg.toList.drop 2
  if text.head? == some '-' || text.head? == some '=' then throw (.badForm arg)
  let name := String.ofList (text.takeWhile (· != '='))
  match fs.long? name with
  | none => throw (.unknown name)
  | some f =>
    match text.dropWhile (· != '='), f.kind, args with
    | _ :: value, _, args => return (← s.assign f (String.ofList value), args)
    | [], .switch, args => return (← s.assign f "true", args)
    | [], .number, value :: args => return (← s.assign f value, args)
    | [], .number, [] => throw (.needsValue name)

/-- A bundle of short flags. A flag that takes a number takes the rest of the bundle, or the next
argument. What a test tool marks as its own is passed over. -/
def shortFlags (fs : FlagSet) : Settings → List Char → List String → Except FlagError Rest
  | s, [], args => .ok (s, args)
  | s, c :: cs, args => do
    if "test.".toList.isPrefixOf (c :: cs) then return (s, args)
    match fs.short? c with
    | none => throw (.unknownShort c (String.ofList (c :: cs)))
    | some f =>
      match cs, f.kind, args with
      | '=' :: d :: value, _, args => return (← s.assign f (String.ofList (d :: value)), args)
      | cs, .switch, args => shortFlags fs (← s.assign f "true") cs args
      | [], .number, value :: args => return (← s.assign f value, args)
      | [], .number, [] => throw (.needsValueShort c (String.ofList [c]))
      | cs, .number, args => return (← s.assign f (String.ofList cs), args)

def parseFrom (fs : FlagSet) : Nat → Settings → List String → Except FlagError Settings
  | 0, s, _ => .ok { s with words := s.words.reverse }
  | _ + 1, s, [] => .ok { s with words := s.words.reverse }
  | fuel + 1, s, arg :: args =>
    match arg.toList with
    | ['-', '-'] => .ok { s with words := s.words.reverse ++ args }
    | '-' :: '-' :: _ => do
      let (s, args) ← fs.longFlag s arg args
      parseFrom fs fuel s args
    | '-' :: c :: cs => do
      let (s, args) ← fs.shortFlags s (c :: cs) args
      parseFrom fs fuel s args
    | _ => parseFrom fs fuel { s with words := arg :: s.words } args

def parse (fs : FlagSet) (args : List String) : Except FlagError Settings :=
  fs.parseFrom args.length .empty args

def takesNext (fs : FlagSet) (arg : String) : Bool :=
  let isSwitch (f : Option Flag) : Bool := f.any (·.kind == .switch)
  match arg.toList with
  | ['-', '-'] => false
  -- a flag that is not known is taken to have a value
  | '-' :: '-' :: name => !name.contains '=' && !isSwitch (fs.long? (String.ofList name))
  | ['-', c] => c != '=' && c.utf8Size == 1 && !isSwitch (fs.short? c)
  | _ => false

/-- Takes the first word out of the arguments that is neither a flag nor the value of one. A flag
that takes the last argument but one of them ends the search. -/
def firstWord? (fs : FlagSet) : List String → Option (String × List String)
  | [] => none
  | arg :: args =>
    if arg = "--" then none
    else if fs.takesNext arg then
      match args with
      | value :: next :: rest =>
        (fs.firstWord? (next :: rest)).map fun (w, left) => (w, arg :: value :: left)
      | _ => none
    else if arg = "" || arg.toList.head? == some '-' then
      (fs.firstWord? args).map fun (w, left) => (w, arg :: left)
    else some (arg, args)

def leading (f : Flag) : String :=
  (if f.short.isSome then "  " else "      ") ++ f.shown ++
    (match f.kind with
      | .switch => ""
      | .number => " int")

def usage (fs : FlagSet) : String :=
  let width := fs.flags.foldl (fun n f => max n (leading f).length) 0
  String.join (fs.flags.map fun f =>
    let front := leading f
    front ++ String.ofList (List.replicate (width - front.length + 3) ' ') ++ f.usage ++ "\n")

end FlagSet

end ShaderIR.Command
