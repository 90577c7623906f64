import ShaderIR.Command.Request

/-!
# The program

The command line on the real file system. Watching compares what the files hold from time to time.
-/

set_option autoImplicit false

open ShaderIR Command

def isCode (n code : UInt32) : Bool := code == n || code == 0 - n

/-- What went wrong, in the words of the file interface. The system numbers a directory in the
place of a file 21 and a name that is too long 36. -/
def fileCause : IO.Error → FileCause
  | .noFileOrDirectory _ _ _ => .notFound
  | .inappropriateType _ code _ => if isCode 21 code then .isDirectory else .notDirectory
  | .invalidArgument _ code _ => if isCode 36 code then .nameTooLong else .invalidName
  | e => .other (toString e)

def attempt {α : Type} (action name : String) (act : IO α) : IO (Except FileError α) := do
  match ← act.toBaseIO with
  | .ok a => return .ok a
  | .error e => return .error ⟨action, name, fileCause e⟩

def systemFiles : Files IO where
  read name := do
    match ← attempt "open" name (IO.FS.readFile name) with
    | .error ⟨_, _, .isDirectory⟩ => return .error ⟨"read", name, .isDirectory⟩
    | r => return r
  write name text := attempt "open" name (IO.FS.writeFile name text)
  find name := do
    match ← (IO.FS.realPath name).toBaseIO with
    | .ok _ => return .ok ()
    | .error e => return .error (fileCause e)

def emit (o : Output) : IO Unit := do
  let out ← IO.getStdout
  let err ← IO.getStderr
  out.putStr o.out
  out.flush
  err.putStr o.err
  err.flush

def contents (files : List String) : IO (List (String × Option String)) :=
  files.mapM fun f => do return (f, (← systemFiles.read f).toOption)

partial def watchLoop (o : Options) (files : List String) (known : List (String × Option String)) :
    IO Unit := do
  IO.sleep 200
  let now ← contents files
  for (f, text) in now do
    if text.isSome && known.lookup f != some text then
      emit (← (processAndReport systemFiles o f)).1
  watchLoop o files now

def main (args : List String) : IO UInt32 := do
  let request := Request.ofArgs args
  let (code, output) ← request.answer systemFiles
  emit output
  match request with
  | .watch o files => if code = 0 then watchLoop o files (← contents files)
  | _ => pure ()
  return code.toUInt32
