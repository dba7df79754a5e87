namespace StoredProcedure

inductive SystemError where
  | noSuchEntry
  | alreadyExists
  | notADirectory
  | isADirectory
deriving DecidableEq

def SystemError.text : SystemError → String
  | .noSuchEntry => "No such file or directory (os error 2)"
  | .alreadyExists => "File exists (os error 17)"
  | .notADirectory => "Not a directory (os error 20)"
  | .isADirectory => "Is a directory (os error 21)"

namespace Path

def components (path : String) : List String :=
  path.splitOn "/"

/-- A component that stays where it is. -/
def isIdle (component : String) : Bool :=
  component = "" ∨ component = "."

/-- Drops idle components from the end, but not a dot that is the whole path. -/
def trim (components : List String) : List String :=
  match (components.reverse.dropWhile isIdle).reverse, components with
  | [], "." :: _ => ["."]
  | kept, _ => kept

/-- The path of the directory around what a path names; the root has none. -/
def parent? (path : String) : Option String :=
  match trim (components path) with
  | [] => none
  | kept =>
      let parent := "/".intercalate (trim kept.dropLast)
      if parent.isEmpty ∧ path.startsWith "/" then some "/" else some parent

end Path

structure Folder where
  files : List (List String × ByteArray)
  directories : List (List String)

namespace Folder

/-- The folder that holds one file, or none. -/
def ofFile (name : String) (content : Option ByteArray) : Folder :=
  ⟨(content.map fun content => ([name], content)).toList, []⟩

/-- Is there a directory at a place? There are directories all the way up from the folder. -/
def isDirectory (folder : Folder) (place : List String) : Bool :=
  place.all (· = "..") || folder.directories.contains place

def fileAt? (folder : Folder) (place : List String) : Option ByteArray :=
  (folder.files.find? fun file => file.1 = place).map Prod.snd

/-- One component further. A place above the folder is given by as many steps up. -/
def step (place : List String) (component : String) : List String :=
  if Path.isIdle component then place
  else if component = ".." ∧ place.getLastD ".." ≠ ".." then place.dropLast
  else place ++ [component]

/-- The place that components lead to from a place; all places on the way are directories. -/
def walk (folder : Folder) : List String → List String → Except SystemError (List String)
  | place, [] => .ok place
  | place, component :: rest =>
      if folder.isDirectory place then folder.walk (step place component) rest
      else if (folder.fileAt? place).isSome then .error .notADirectory
      else .error .noSuchEntry

/-- The directory that components lead to from the folder itself. -/
def directory (folder : Folder) (components : List String) :
    Except SystemError (List String) := do
  let place ← folder.walk [] components
  if folder.isDirectory place then return place
  else if (folder.fileAt? place).isSome then .error .notADirectory
  else .error .noSuchEntry

/-- Makes one directory in the directory that `around` leads to. -/
def makeDirectory (folder : Folder) (around : List String) (name : String) :
    Except SystemError Folder := do
  let place := (← folder.directory around) ++ [name]
  if name = ".." ∨ folder.isDirectory place ∨ (folder.fileAt? place).isSome then
    .error .alreadyExists
  else return { folder with directories := place :: folder.directories }

/-- Makes one directory, unless it is there. -/
def ensureDirectory (folder : Folder) (around : List String) (name : String) :
    Except SystemError Folder :=
  match folder.makeDirectory around name, folder.directory (around ++ [name]) with
  | .ok after, _ => .ok after
  | .error _, .ok _ => .ok folder
  | .error error, .error _ => .error error

/-- Makes a directory that is given by its components, the innermost first. Only if it cannot be
made because something around it is missing, what is around it is made before it. So a file in the
way is no directory if it is met at once, and exists already if it is met on a later attempt. -/
def makeDirectories (folder : Folder) : List String → Except SystemError Folder
  | [] => .ok folder
  | name :: around =>
      match folder.ensureDirectory around.reverse name with
      | .error .noSuchEntry => do
          let after ← folder.makeDirectories around
          after.ensureDirectory around.reverse name
      | result => result

/-- The content of the file of a path. -/
def read (folder : Folder) (path : String) : Except SystemError ByteArray := do
  let place ← folder.walk [] (Path.components path)
  match folder.fileAt? place with
  | some content => return content
  | none => .error (if folder.isDirectory place then .isADirectory else .noSuchEntry)

/-- Writes the file of a path in a directory that exists. A path that ends in a slash names a
directory, whether or not there is one. -/
def write (folder : Folder) (path : String) (content : ByteArray) : Except SystemError Folder := do
  let components := Path.components path
  let named := (components.reverse.dropWhile String.isEmpty).reverse
  let place ← folder.directory named.dropLast
  let name := named.getLastD ""
  if named ≠ components ∨ Path.isIdle name ∨ name = ".." ∨
      folder.isDirectory (place ++ [name]) then
    .error .isADirectory
  else
    let others := folder.files.filter fun file => file.1 ≠ place ++ [name]
    return { folder with files := (place ++ [name], content) :: others }

/-- What went wrong when a file was saved: a directory could not be made, or the file could not be
written. -/
inductive SaveError where
  | directory (path : String) (error : SystemError)
  | file (path : String) (error : SystemError)

def SaveError.text : SaveError → String
  | .directory path error => "create output dir: " ++ path ++ ": " ++ error.text
  | .file path error => "write: " ++ path ++ ": " ++ error.text

/-- Makes the directories around what a path names. -/
def prepare (folder : Folder) (path : String) : Except SaveError Folder :=
  match Path.parent? path with
  | none | some "" => .ok folder
  | some parent =>
      let components := (Path.components parent).filter fun component => !Path.isIdle component
      (folder.makeDirectories components.reverse).mapError (.directory parent)

/-- Writes the file of a path, after making the directories around it. -/
def save (folder : Folder) (path : String) (content : ByteArray) : Except SaveError Folder := do
  let prepared ← folder.prepare path
  (prepared.write path content).mapError (.file path)

end Folder

end StoredProcedure
