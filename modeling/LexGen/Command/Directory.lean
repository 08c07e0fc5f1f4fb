import LexGen.Command.Run

/-!
# A directory held in memory

The files of a directory with their contents, and an input, make a system on which the command
runs without a real one. A content that is not text is kept as such.

A path is followed name by name, from the root if it starts with a slash and from the directory if
it does not. Empty names and `.` lead nowhere new, `..` leads up, and every name on the way has to
be that of a directory. A slash at the end asks for a directory. Outside of the directory and the
files there is only the null device.
-/

namespace LexGen.Command

/-- A place in the tree of files: the names on the way to it from the root. -/
abbrev Place := List String

namespace Place

/-- The directory lies below the root. Its own name is not known, so it has the one that no path
can spell. -/
def home : Place := [""]

/-- A file that is always empty. -/
def nullDevice : Place := ["dev", "null"]

/-- The place that a name leads to. A name has at most 255 bytes. -/
def step (place : Place) (name : String) : Except FileError Place :=
  if name = "." then .ok place
  else if name = ".." then .ok place.dropLast
  else if name.utf8ByteSize ≤ 255 then .ok (place ++ [name])
  else .error .nameTooLong

end Place

/-- The names of a path in their order. -/
def namesOf (path : String) : List String :=
  (path.toList.splitOnP (· == '/')).map String.ofList |>.filter (!·.isEmpty)

def startsAtRoot (path : String) : Bool := path.toList.head? == some '/'

/-- The path ends in a slash. -/
def asksForDirectory (path : String) : Bool := path.toList.getLast? == some '/'

/-- What can be at a place. -/
inductive Entry where
  | directory
  | file (content : Except FileError String)

structure Directory where
  files : List (Place × Except FileError String)
  input : Except FileError String

namespace Directory

/-- A file is at its place from now on. What is written to the null device is lost. -/
def put (directory : Directory) (place : Place) (content : Except FileError String) : Directory :=
  if place = Place.nullDevice then directory
  else { directory with
    files := (place, content) :: directory.files.filter fun file => file.1 != place }

/-- The directory that holds the given files, each with its name and its content. -/
def ofFiles (files : List (String × Except FileError String)) (input : Except FileError String) :
    Directory :=
  files.foldl (fun directory file => directory.put (Place.home ++ namesOf file.1) file.2)
    ⟨[(Place.nullDevice, .ok "")], input⟩

/-- A directory exists where a file or the directory itself lies below it. -/
def hasDirectory (directory : Directory) (place : Place) : Bool :=
  place.isPrefixOf Place.home || directory.files.any fun file => place.isPrefixOf file.1.dropLast

def entry? (directory : Directory) (place : Place) : Option Entry :=
  match directory.files.lookup place with
  | some content => some (.file content)
  | none => if directory.hasDirectory place then some .directory else none

/-- Go on from a place into the directory of that name. -/
def enter (directory : Directory) (place : Place) (name : String) : Except FileError Place := do
  let place ← place.step name
  match directory.entry? place with
  | some .directory => return place
  | some (.file _) => throw .notDirectory
  | none => throw .notFound

/-- Follow a path to the directory of its last name, and return that name with the place. A path
has at most 4095 bytes. -/
def approach (directory : Directory) (path : String) : Except FileError (Place × String) := do
  if path.utf8ByteSize > 4095 then throw .nameTooLong
  let names := namesOf path
  let place ← names.dropLast.foldlM directory.enter
    (if startsAtRoot path then [] else Place.home)
  return (place, names.getLast?.getD ".")

def read (directory : Directory) (path : String) : Except FileError String := do
  let (place, name) ← directory.approach path
  match directory.entry? (← place.step name) with
  | some .directory => throw .isDirectory
  | some (.file content) => if asksForDirectory path then throw .notDirectory else content
  | none => throw .notFound

def write (directory : Directory) (path content : String) : Except FileError Directory := do
  let (place, name) ← directory.approach path
  if asksForDirectory path then throw .isDirectory
  let place ← place.step name
  match directory.entry? place with
  | some .directory => throw .isDirectory
  | _ => return directory.put place (.ok content)

/-- The system that reads and writes the directory. -/
def system : System (StateM Directory) where
  readFile path := return (← get).read path
  readInput := return (← get).input
  writeFile path content := modifyGet fun directory =>
    match directory.write path content with
    | .ok directory => (.ok (), directory)
    | .error error => (.error error, directory)

end Directory

end LexGen.Command
