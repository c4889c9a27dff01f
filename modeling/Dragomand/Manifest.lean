import Dragomand.Version

/-!
# Manifests and installed models

The data every model directory carries about itself (`manifest.json`),
and an installed model as a scan of the stores finds it.

A `PathBuf` is the list of its components from the root. Components are
kept as written: `..`, `.` and empty ones mean to the file system what
they mean to the system calls.
-/

namespace Dragomand

abbrev PathBuf := List String

/-- The components of a text between slashes. -/
def components (text : String) : List String :=
  (text.toList.splitOn '/').map String.ofList

/-- `Path::join`: an absolute `name` replaces the path. -/
def PathBuf.join (path : PathBuf) (name : String) : PathBuf :=
  match components name with
  | "" :: absolute => if absolute.isEmpty then path ++ [""] else absolute
  | relative => path ++ relative

def MANIFEST_FILE : String := "manifest.json"
def SCHEMA_VERSION : Nat := 1

/-- `size` and `sha256` describe the file as stored. -/
structure ManifestFile where
  name : String
  role : String
  size : Nat
  sha256 : String
deriving DecidableEq, Repr

structure Manifest where
  schema : Nat
  provider : String
  source : String
  target : String
  version : String
  architecture : Option String
  license : Option String
  source_urls : List String
  installed_at : String
  files : List ManifestFile
deriving DecidableEq, Repr

def Manifest.file (m : Manifest) (role : String) : Option ManifestFile :=
  m.files.find? fun f => f.role = role

/-- Where a model copy lives. -/
inductive Origin where
  | system
  | user
deriving DecidableEq, Repr

structure InstalledModel where
  origin : Origin
  directory : PathBuf
  version : MozVersion
  manifest : Manifest
deriving DecidableEq, Repr

def InstalledModel.pair (m : InstalledModel) : String :=
  m.manifest.source ++ "-" ++ m.manifest.target

def InstalledModel.file_path (m : InstalledModel) (role : String) : Option PathBuf :=
  (m.manifest.file role).map fun f => PathBuf.join m.directory f.name

end Dragomand
