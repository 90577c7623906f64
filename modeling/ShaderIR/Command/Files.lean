import ShaderIR.Command.Path

/-!
# Files

The commands read and write files through a small interface, so that they can run on the real file
system as well as on a tree of files kept in memory. The tree is what the working directory holds;
outside of it only the directories above it are known, and what every system has. A name holds no
zero character, is shorter than 4096 bytes, and none of its parts is longer than 255 bytes.
-/

set_option autoImplicit false

namespace ShaderIR

inductive FileCause where
  | notFound
  | isDirectory
  | notDirectory
  | nameTooLong
  | invalidName
  | other (text : String)
  deriving DecidableEq, Repr

def FileCause.message : FileCause → String
  | notFound => "no such file or directory"
  | isDirectory => "is a directory"
  | notDirectory => "not a directory"
  | nameTooLong => "file name too long"
  | invalidName => "invalid argument"
  | other text => text

structure FileError where
  action : String
  name : String
  cause : FileCause
  deriving DecidableEq, Repr

def FileError.message (e : FileError) : String :=
  e.action ++ " " ++ e.name ++ ": " ++ e.cause.message

structure Files (m : Type → Type) where
  /-- The text of a file. -/
  read : String → m (Except FileError String)
  /-- Creates a file with the given text, or replaces what it holds. -/
  write : String → String → m (Except FileError Unit)
  /-- Whether a name leads anywhere. -/
  find : String → m (Except FileCause Unit)

inductive FileEntry where
  | file (text : String)
  | folder
  deriving DecidableEq, Repr

structure FileTree where
  entries : List (List String × FileEntry)
  deriving DecidableEq, Repr

namespace FileTree

def empty : FileTree := ⟨[]⟩

def entry? (t : FileTree) (parts : List String) : Option FileEntry :=
  if parts.isEmpty then some .folder else t.entries.lookup parts

def set (t : FileTree) (parts : List String) (e : FileEntry) : FileTree :=
  ⟨t.entries.filter (·.1 != parts) ++ [(parts, e)]⟩

def erase (t : FileTree) (parts : List String) : FileTree :=
  ⟨t.entries.filter (·.1 != parts)⟩

inductive Base where
  | working
  | above
  | root
  deriving DecidableEq, Repr

/-- A place reached by a walk: from a base down these parts, last first. -/
structure Place where
  base : Base
  down : List String
  deriving DecidableEq, Repr

/-- What every system has below its root: its standard directories, and a file that is always
empty. -/
def common : List (List String × FileEntry) :=
  (["dev", "null"], .file "") ::
    (["bin", "boot", "dev", "etc", "home", "lib", "media", "mnt", "opt", "proc", "root", "run",
      "sbin", "srv", "sys", "tmp", "usr", "var"] : List String).map fun n => ([n], .folder)

def at? (t : FileTree) (p : Place) : Option FileEntry :=
  match p.base, p.down with
  | .working, down => t.entry? down.reverse
  | _, [] => some .folder
  | .above, _ => none
  | .root, down => common.lookup down.reverse

def step (p : Place) (part : String) : Place :=
  if part = "" ∨ part = "." then p
  else if part = ".." then
    match p.down, p.base with
    | _ :: down, base => ⟨base, down⟩
    | [], .root => p
    | [], _ => ⟨.above, []⟩
  else ⟨p.base, part :: p.down⟩

def walk (t : FileTree) : Place → List String → Except FileCause Place
  | p, [] => .ok p
  | p, part :: parts =>
    match t.at? p with
    | none => .error .notFound
    | some (.file _) => .error .notDirectory
    | some .folder =>
      if 255 < part.utf8ByteSize then .error .nameTooLong else walk t (step p part) parts

def partsOf (name : String) : List String :=
  (FileName.split name.toList).map String.ofList

def place (t : FileTree) (name : String) : Except FileCause Place :=
  if name.contains (Char.ofNat 0) then .error .invalidName
  else if name = "" then .error .notFound
  else if 4096 ≤ name.utf8ByteSize then .error .nameTooLong
  else walk t ⟨if FileName.isRooted name.toList then .root else .working, []⟩ (partsOf name)

def find (t : FileTree) (name : String) : Except FileCause FileEntry := do
  match t.at? (← t.place name) with
  | some e => return e
  | none => throw .notFound

def read (t : FileTree) (name : String) : Except FileError String :=
  match t.find name with
  | .ok (.file text) => .ok text
  | .ok .folder => .error ⟨"read", name, .isDirectory⟩
  | .error e => .error ⟨"open", name, e⟩

/-- A file is created only in a directory that exists. What is written outside of the working
directory is not kept. -/
def write (t : FileTree) (name text : String) : Except FileError FileTree :=
  match t.place name with
  | .error e => .error ⟨"open", name, e⟩
  | .ok p =>
    match t.at? p with
    | some .folder => .error ⟨"open", name, .isDirectory⟩
    | _ =>
      .ok (if p.base = .working then t.set p.down.reverse (.file text) else t)

def add (t : FileTree) (name : String) (e : FileEntry) : FileTree :=
  let parts := (FileName.cleanParts name.toList).map String.ofList
  let folders := (List.range parts.length).filterMap fun n =>
    if n = 0 then none else some (parts.take n)
  let t := folders.foldl
    (fun t ps => if (t.entry? ps).isSome then t else t.set ps .folder) t
  t.set parts e

def changesSince (now before : FileTree) : List (String × String) :=
  now.entries.filterMap fun (parts, e) =>
    match e with
    | .file text =>
      if before.entry? parts = some e then none
      else some ("/".intercalate parts, text)
    | .folder => none

def files : Files (StateM FileTree) where
  read name := do return (← get).read name
  write name text := do
    match (← get).write name text with
    | .ok t => MonadState.set t; return .ok ()
    | .error e => return .error e
  find name := do return ((← get).find name).map fun _ => ()

end FileTree

end ShaderIR
