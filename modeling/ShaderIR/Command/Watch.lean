import ShaderIR.Command.Run

/-!
# Watching files

Watching processes all files once and then again whenever one of them changes. A fault in a file is
reported and does not end the watch; only a directory that is not there does.
-/

set_option autoImplicit false

namespace ShaderIR.Command

structure WatchError where
  folder : String
  cause : FileCause
  deriving DecidableEq, Repr

def WatchError.message (e : WatchError) : String :=
  "watching " ++ e.folder ++ ": " ++ e.cause.message

section

variable {m : Type → Type} [Monad m]

def unwatchable? (fs : Files m) : List String → m (Option WatchError)
  | [] => pure none
  | file :: files => do
    match ← fs.find (FileName.folder file) with
    | .error e => return some ⟨FileName.folder file, e⟩
    | .ok _ => unwatchable? fs files

def processEach (fs : Files m) (o : Options) : List String → m Output
  | [] => pure {}
  | file :: files => do
    let (out, _) ← processAndReport fs o file
    return out.append (← processEach fs o files)

def startWatch (fs : Files m) (o : Options) (files : List String) :
    m (Except WatchError Output) := do
  match ← unwatchable? fs files with
  | some e => return .error e
  | none => return .ok (← processEach fs o files)

def onChange (fs : Files m) (o : Options) (files : List String) (changed : String) : m Output :=
  processEach fs o (files.filter fun f => FileName.same changed f)

end

inductive FileEvent where
  | replaced (name text : String)
  | removed (name : String)
  deriving DecidableEq, Repr

def onEvent (o : Options) (files : List String) : FileEvent → StateM FileTree Output
  | .replaced name text => do
    let _ ← FileTree.files.write name text
    onChange FileTree.files o files name
  | .removed name => do
    match (← get).place name with
    | .ok p => modify fun t => if p.base = .working then t.erase p.down.reverse else t
    | .error _ => pure ()
    -- a removed file is not processed again
    return {}

def onEvents (o : Options) (files : List String) : List FileEvent → StateM FileTree Output
  | [] => pure {}
  | e :: es => do
    let out ← onEvent o files e
    return out.append (← onEvents o files es)

def watchSession (o : Options) (files : List String) (events : List FileEvent) :
    StateM FileTree (Except WatchError Output) := do
  match ← startWatch FileTree.files o files with
  | .error e => return .error e
  | .ok out => return .ok (out.append (← onEvents o files events))

end ShaderIR.Command
