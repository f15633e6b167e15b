import EuhatExpert.Machinery.Bytes
import Mathlib.Data.List.DropRight

/-!
# FileMan/EuhatPath — paths

A path is the bytes of a C string without its terminator.  `whCorrectFilePath` takes it apart at slashes
and backslashes and puts it together with the separator of the system, without empty parts.  To prepare the
folder of a path, every folder above it is made, from the top (`whDirMakeRecursively`).
-/

namespace EuhatExpert

open Machinery

/-- The separator of Unix. -/
def slash : UInt8 := 47

/-- The separator of Windows, which knows the other, too. -/
def backslash : UInt8 := 92

/-- Each `pattern` for a `replace`. -/
def strReplaceChar (str : Bytes) (pattern replace : UInt8) : Bytes :=
  str.map fun c => if c = pattern then replace else c

/-- What stands between the separators, empty tokens included. -/
def splitTokenString (str : Bytes) (splitCh : UInt8) : List Bytes := str.splitOn splitCh

/-- A comparison of bytes. -/
def strIsStartWith (str startStr : Bytes) : Bool := startStr.isPrefixOf str

/-- A path in parts. -/
structure EuhatPath where
  path_ : List Bytes
  isUnix_ : Bool
  isAbsPath_ : Bool

namespace EuhatPath

/-- `EuhatPath()` and `inStr`. -/
def inStr (path : Bytes) : EuhatPath :=
  let buf := strReplaceChar path backslash slash
  { path_ := (splitTokenString buf slash).filter fun token => !token.isEmpty
    isUnix_ := false
    isAbsPath_ := decide (1 < buf.length) && buf.head? == some slash }

/-- The path of a file in the folder. -/
def goSub (p : EuhatPath) (fileName : Bytes) : EuhatPath := { p with path_ := p.path_ ++ [fileName] }

/-- The path in one piece; a Windows path begins with its first part. -/
def toStr (p : EuhatPath) : Bytes :=
  let split := if p.isUnix_ then slash else backslash
  (if p.isUnix_ && p.isAbsPath_ then [split] else []) ++ [split].intercalate p.path_

end EuhatPath

/-- `whCorrectFilePath`; `isUnix` is 1 on Android and 0 on Windows. -/
def whCorrectFilePath (isUnix : Bool) (path : Bytes) : Bytes :=
  { EuhatPath.inStr path with isUnix_ := isUnix }.toStr

/-! ## Folders above a path -/

/-- The folder of the application on Android. -/
def EUHAT_PATH_BASE : Bytes := ofAscii "/sdcard/Android/data/com.euhat.euhatexpert/"

/-- `whGetAbsolutePath` on Android. -/
def whGetAbsolutePath (path : Bytes) : Bytes :=
  if path.head? = some slash then path else EUHAT_PATH_BASE ++ path

/-- Is it a separator of the system? -/
def isSplit (isUnix : Bool) (c : UInt8) : Bool := c = slash || (!isUnix && c = backslash)

/-- A path up to its last separator. -/
def whPathGetContainer (isUnix : Bool) (path : Bytes) : Bytes := path.rdropWhile fun c => !isSplit isUnix c

/-- What `whDirMakeRecursively` calls `opMkDir` with: the path up to each separator, and the whole path.  On
Windows the separators it has passed are backslashes. -/
def whDirMakeRecursively (isUnix : Bool) (path : Bytes) : List Bytes :=
  let p := if isUnix then path else strReplaceChar path slash backslash
  ((List.range path.length).filterMap fun i => if isSplit isUnix (path.getD i 0) then some (p.take i) else none)
    ++ if path = [] then [] else [p]

/-- What `whPrepareFolder` calls `opMkDir` with. -/
def whPrepareFolder (isUnix : Bool) (targetPath : Bytes) : List Bytes :=
  let path := if isUnix then whGetAbsolutePath targetPath else targetPath
  whDirMakeRecursively isUnix (whPathGetContainer isUnix path)

end EuhatExpert
