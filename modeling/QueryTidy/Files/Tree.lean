import QueryTidy.Files.IoError
import QueryTidy.Files.Path

/-!
# File trees

The files of the working directory, as a list of entries by their location: the names from the
working directory down. The working directory itself is always a directory. Of the system outside,
two devices are known: one that is always empty and one that is always full.

Where the working directory itself is in the system is not known. It counts as a directory without
a name right below the root: what is outside has no way back into it, an absolute path finds nothing
but the devices, and so does a path that goes up from it. Paths of this kind are outside of what the
tree describes.

`Tree.resolve` follows a path to the place that it leads to, through symbolic links; reading and
writing act on that place. The content of a file never influences where a path leads. What becomes
of a content that is written is said by a `Storage`, which may refuse to open a file, or cut the
content off in the file that it has opened.
-/

namespace QueryTidy

/-- The names that lead from the working directory to an entry. -/
abbrev Location := List Bytes

/-- What is kept at a location. -/
inductive Entry where
  | file (content : Bytes)
  | directory
  | link (target : Path)
  deriving DecidableEq, Repr

/-- The files of the working directory. -/
structure Tree where
  entries : List (Location × Entry)
  deriving DecidableEq, Repr

/-- The known devices. -/
inductive Device where
  | null | full
  deriving DecidableEq, Repr

/-- A place that a path may lead to: a location of the tree, or one of the system outside, by the
names from the root of the system. -/
inductive Place where
  | inside (location : Location)
  | outside (names : List Bytes)
  deriving DecidableEq, Repr

/-- What is found at a place. -/
inductive Found where
  | entry (e : Entry)
  | device (d : Device)
  deriving DecidableEq, Repr

namespace Place

/-- The place with a name below a place. -/
def child (name : Bytes) : Place → Place
  | .inside location => .inside (location ++ [name])
  | .outside names => .outside (names ++ [name])

/-- The place above; the root of the system is above itself, and the working directory counts as
one right below it. -/
def parent : Place → Place
  | .inside [] => .outside []
  | .inside location => .inside location.dropLast
  | .outside names => .outside names.dropLast

/-- Where the following of a path begins, from a directory. -/
def start (directory : Place) (p : Path) : Place :=
  if p.isAbsolute then .outside [] else directory

end Place

namespace Tree

/-- The names of the directory of devices and of the devices in it. -/
def devices : Bytes × Bytes × Bytes :=
  (Utf8.encode "dev".toList, Utf8.encode "null".toList, Utf8.encode "full".toList)

/-- What is known of the system outside: the root, and the two devices in their directory. -/
def system? (names : List Bytes) : Option Found :=
  let (dev, null, full) := devices
  if names = [] ∨ names = [dev] then some (.entry .directory)
  else if names = [dev, null] then some (.device .null)
  else if names = [dev, full] then some (.device .full)
  else none

/-- The entry at a location. -/
def get? (t : Tree) (location : Location) : Option Entry :=
  if location = [] then some .directory
  else (t.entries.find? fun item => item.1 = location).map (·.2)

/-- What is found at a place. -/
def find? (t : Tree) : Place → Option Found
  | .inside location => (t.get? location).map .entry
  | .outside names => system? names

/-- The tree with an entry at a location, in the place of the one that was there. -/
def set (t : Tree) (location : Location) (e : Entry) : Tree :=
  if t.entries.any fun item => item.1 = location then
    ⟨t.entries.map fun item => if item.1 = location then (location, e) else item⟩
  else ⟨t.entries ++ [(location, e)]⟩

/-- The tree without the entry at a location. -/
def erase (t : Tree) (location : Location) : Tree :=
  ⟨t.entries.filter fun item => item.1 ≠ location⟩

end Tree

/-! ## Storages -/

/-- Something with a content: it may be opened for writing. -/
def Found.takesContent : Found → Bool
  | .entry (.file _) => true
  | .device _ => true
  | _ => false

/-- What becomes of a content that is written to a file. -/
inductive Acceptance where
  /-- The file is not opened, and stays as it is. -/
  | refused (e : IoError)
  /-- The file is opened and takes the content. -/
  | taken
  /-- The file is opened and takes only the first bytes of the content. -/
  | cut (kept : Nat) (e : IoError)
  deriving DecidableEq, Repr

/-- How files and devices take what is written to them. That may depend on all files, as the room on
a disk does. A content that is cut off loses a byte at least. -/
structure Storage where
  accept : Tree → Place → Bytes → Acceptance
  kept_lt : ∀ {t place content kept e},
    accept t place content = .cut kept e → kept < content.length

namespace Storage

/-- Everything takes what it is given, but for the full device. -/
def roomy : Storage where
  accept t place content :=
    if t.find? place = some (.device .full) ∧ content ≠ [] then .cut 0 .noSpace else .taken
  kept_lt := by
    intro t place content kept e h
    split at h
    · rename_i hfull
      cases h
      exact List.length_pos_iff.mpr hfull.2
    · cases h

/-- A file of the tree that is opened takes the whole content. -/
def TakesWhole (storage : Storage) : Prop :=
  ∀ t location content kept e, storage.accept t (.inside location) content ≠ .cut kept e

end Storage

namespace Tree

/-! ## Following paths -/

/-- The greatest number of bytes of a name. -/
def greatestName : Nat := 255

/-- The number of bytes from which on a path is too long. -/
def pathLimit : Nat := 4096

/-- The number of symbolic links that may be followed on the way. -/
def greatestLinks : Nat := 40

/-- Follow names from a place. What is to be done at a symbolic link is given as `follow`, which
takes the place from which the link's target counts and all names that are left. -/
def walkNames (t : Tree) (follow : Place → List Bytes → Except IoError Place) (place : Place) :
    List Bytes → Except IoError Place
  | [] => .ok place
  | name :: rest =>
      if t.find? place = some (.entry .directory) then
        if name = Path.dot then walkNames t follow place rest
        else if name = Path.dotDot then walkNames t follow place.parent rest
        else if greatestName < name.length then .error .nameTooLong
        else
          match t.find? (place.child name) with
          | none => .error .notFound
          | some (.entry (.link target)) => follow (place.start target) (target.steps ++ rest)
          | some _ => walkNames t follow (place.child name) rest
      else .error .notDirectory

/-- Follow names from a place through at most the given number of symbolic links. -/
def walk (t : Tree) : Nat → Place → List Bytes → Except IoError Place
  | 0 => walkNames t fun _ _ => .error .tooManyLinks
  | links + 1 => walkNames t (walk t links)

/-- The place that a path leads to. -/
def resolve (t : Tree) (p : Path) : Except IoError Place :=
  if 0 ∈ p then .error .nulInPath
  else if p = [] then .error .notFound
  else if pathLimit ≤ p.length then .error .nameTooLong
  else walk t greatestLinks ((Place.inside []).start p) p.steps

/-! ## Reading and writing -/

/-- What is found where a path leads. -/
def locate (t : Tree) (p : Path) : Except IoError (Place × Found) :=
  match t.resolve p with
  | .error e => .error e
  | .ok place =>
      match t.find? place with
      | some found => .ok (place, found)
      | none => .error .notFound

/-- The content of the file that a path leads to. The full device never ends. -/
def read (t : Tree) (p : Path) : Except IoError Bytes :=
  match t.locate p with
  | .error e => .error e
  | .ok (_, .entry (.file content)) => .ok content
  | .ok (_, .device .null) => .ok []
  | .ok (_, .device .full) => .error .outOfMemory
  | .ok (_, .entry _) => .error .isDirectory

/-- Why writing fails: the file cannot be opened, or the open file takes no more of the content, and
the tree is left as it is then. -/
inductive WriteError where
  | opening (e : IoError)
  | writing (e : IoError) (left : Tree)
  deriving DecidableEq, Repr

/-- The tree with a content in the file at a place; a device keeps nothing. -/
def fill (t : Tree) (content : Bytes) : Place → Tree
  | .inside location => t.set location (.file content)
  | .outside _ => t

/-- Replace the content of an existing file; nothing is ever created. A file that is opened for this
is empty before anything is written, so it keeps the first bytes of a content that is cut off. -/
def write (t : Tree) (p : Path) (content : Bytes) (storage : Storage := .roomy) :
    Except WriteError Tree :=
  match t.locate p with
  | .error e => .error (.opening e)
  | .ok (place, found) =>
      if found.takesContent then
        match storage.accept t place content with
        | .refused e => .error (.opening e)
        | .taken => .ok (t.fill content place)
        | .cut kept e => .error (.writing e (t.fill (content.take kept) place))
      else .error (.opening .isDirectory)

/-! ## Removing and creating -/

/-- The location at which a path has its last name, links on the way to it being followed. -/
def locationOf? (t : Tree) (p : Path) : Option Location :=
  match (p.steps).getLast? with
  | none => none
  | some name =>
      match walk t greatestLinks ((Place.inside []).start p) p.steps.dropLast with
      | .ok (.inside directory) =>
          if name = Path.dot ∨ name = Path.dotDot then none else some (directory ++ [name])
      | _ => none

/-- Remove the file or the symbolic link at a path, if there is one. -/
def remove (t : Tree) (p : Path) : Tree :=
  match t.locationOf? p with
  | none => t
  | some location =>
      match t.get? location with
      | some (.file _) => t.erase location
      | some (.link _) => t.erase location
      | _ => t

/-- Make the directories on the way to a location, which are given with those above first. -/
def makeDirectories (t : Tree) (made : Location) : Location → Tree
  | [] => t
  | [_] => t
  | name :: rest =>
      let made := made ++ [name]
      let t := if (t.get? made).isSome then t else t.set made .directory
      makeDirectories t made rest

/-- Put an entry at a path, with the directories on the way to it. A file is written through a link
that leads to another file. -/
def put (t : Tree) (p : Path) (e : Entry) : Tree :=
  let location := p.names.filter fun n => n ≠ Path.dot
  let t := t.makeDirectories [] location
  let written : Option Tree :=
    match e with
    | .file content => (t.write p content).toOption
    | _ => none
  match written with
  | some t => t
  | none =>
      match t.get? location, e with
      | some .directory, _ => t
      | _, e => t.set ((t.locationOf? p).getD location) e

end Tree

end QueryTidy
