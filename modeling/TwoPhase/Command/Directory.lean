import TwoPhase.Command.Place

/-!
# Files

The files and folders a command sees, by place. A path is walked part by part, and
the walk fails where it leaves what is there:

* every place it goes on from has to be a folder,
* a name has at most 255 bytes and a path at most 4095.

A file whose bytes are no UTF-8 cannot be read as text.
-/

namespace TwoPhase

inductive FileContent where
  | text (s : String)
  /-- Bytes that are not the UTF-8 form of a text. -/
  | binary (bytes : List UInt8)
deriving DecidableEq

def FileContent.ofBytes (bytes : ByteArray) : FileContent :=
  match String.fromUTF8? bytes with
  | some s => .text s
  | none => .binary bytes.toList

inductive FileError where
  | notFound
  | alreadyExists
  | notDirectory
  | isDirectory
  | nameTooLong
  | notText
deriving DecidableEq, Repr

def FileError.message : FileError → String
  | notFound => "No such file or directory (os error 2)"
  | alreadyExists => "File exists (os error 17)"
  | notDirectory => "Not a directory (os error 20)"
  | isDirectory => "Is a directory (os error 21)"
  | nameTooLong => "File name too long (os error 36)"
  | notText => "stream did not contain valid UTF-8"

inductive Found where
  | missing
  | folder
  | file (content : FileContent)
deriving DecidableEq

structure Directory where
  files : List (Place × FileContent)
  /-- The folders other than the bases of places. -/
  folders : List Place
deriving DecidableEq

namespace Directory

def empty : Directory := ⟨[], []⟩

/-- The directory that holds files at the given paths and the folders these lie in. -/
def ofFiles (files : List (String × FileContent)) : Directory where
  files := files.map fun file => (.ofPath file.1, file.2)
  folders := files.flatMap fun file =>
    let p := Place.ofPath file.1
    Place.holders p.base p.names

/-- What is at a place. Bases are always folders. -/
def find (d : Directory) (p : Place) : Found :=
  if p.names = [] ∨ p ∈ d.folders then .folder
  else match d.files.lookup p with
    | some content => .file content
    | none => .missing

/-! ## Walking a path -/

def maxPath : Nat := 4095

def maxName : Nat := 255

/-- Goes on from a folder by one part. What the part leads to need not exist. -/
def step (d : Directory) (p : Place) (part : String) : Except FileError Place :=
  match d.find p with
  | .missing => .error .notFound
  | .file _ => .error .notDirectory
  | .folder => if maxName < part.utf8ByteSize then .error .nameTooLong else .ok (p.enter part)

def walk (d : Directory) (p : Place) : List String → Except FileError Place
  | [] => .ok p
  | part :: rest => (d.step p part).bind fun next => d.walk next rest

def resolve (d : Directory) (path : String) : Except FileError Place :=
  if maxPath < path.utf8ByteSize then .error .nameTooLong
  else d.walk (Place.start path) (partsOf path)

def join (path name : String) : String :=
  if path.endsWith "/" then path ++ name else path ++ "/" ++ name

/-! ## Reading and writing -/

def read (d : Directory) (path : String) : Except FileError String := do
  let p ← d.resolve path
  match d.find p with
  | .missing => .error .notFound
  | .folder => .error .isDirectory
  | .file (.text s) => .ok s
  | .file (.binary _) => .error .notText

def put (d : Directory) (p : Place) (s : String) : Directory :=
  if d.files.any (·.1 = p) then
    { d with files := d.files.map fun file => if file.1 = p then (p, .text s) else file }
  else
    { d with files := d.files ++ [(p, .text s)] }

def write (d : Directory) (path : String) (s : String) : Except FileError Directory := do
  let p ← d.resolve path
  match d.find p with
  | .folder => .error .isDirectory
  | .missing | .file _ => .ok (d.put p s)

/-! ## Making folders -/

/-- Makes the folder that `parts` lead to unless it exists. The one it lies in has to exist. -/
def ensureFolder (d : Directory) (start : Place) (parts : List String) :
    Except FileError Directory := do
  let p ← d.walk start parts
  match d.find p with
  | .missing => .ok { d with folders := p :: d.folders }
  | .folder => .ok d
  | .file _ => .error .alreadyExists

def ensureFolders (d : Directory) (start : Place) : List String → Except FileError Directory
  | [] => .ok d
  | name :: before =>
    match d.ensureFolder start (name :: before).reverse with
    | .error .notFound => do
      (← d.ensureFolders start before).ensureFolder start (name :: before).reverse
    | result => result

/-- Makes the folder at `path` and those it lies in. Slashes at the end of the path do not count,
and a last part `.` asks for a folder that exists. -/
def makeFolder (d : Directory) (path : String) : Except FileError Directory :=
  let start := Place.start path
  let parts := ((partsOf path).reverse.dropWhile (· = "")).reverse
  if maxPath < path.utf8ByteSize then .error .nameTooLong
  else match d.ensureFolder start parts with
    | .error .notFound => do
      let names := parts.filter fun part => part ≠ "" ∧ part ≠ "."
      (← d.ensureFolders start names.reverse.tail).ensureFolder start parts
    | result => result

end Directory

end TwoPhase
