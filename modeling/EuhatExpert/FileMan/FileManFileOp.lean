import EuhatExpert.FileMan.FileManType
import EuhatExpert.FileMan.Os

/-!
# FileMan/FileManFileOp — a segment of a file, read for a packet and written from one

`fmReadFile` puts a result and, when there is something to read, a position and bytes; it says that the
end was reached exactly when the rest of the file fits the segment.  `fmWriteFile` appends a segment that
starts at the end of the file, and takes one that ends there for a repetition.
-/

namespace EuhatExpert

open Machinery

/-- What `fmReadFile` puts in a packet. -/
structure FileRead where
  result : ℤ
  segment : Option (ℤ × Bytes)

/-- A segment as it is found in a packet: its length may be anything, and its bytes may not be there. -/
structure Segment where
  pos : ℤ
  len : ℤ
  buf : Except Fault Bytes

/-- A result and a segment as they are found in a packet. -/
structure FileFound where
  result : Except Fault ℤ
  segment : Except Fault Segment

/-- What was put is found.  Behind a result without a segment there is nothing to be found. -/
def FileRead.found (r : FileRead) : FileFound where
  result := .ok r.result
  segment := match r.segment with
    | some (pos, buf) => .ok ⟨pos, buf.length, .ok buf⟩
    | none => .error .outside

/-- Nothing behind the head of a packet. -/
def FileFound.nothing : FileFound := ⟨.error .outside, .error .outside⟩

variable {W : Type} (os : Os W)

/-- `fmReadFile`.  A negative length to read is a `size_t` beyond all room. -/
def fmReadFile (path : Bytes) (pos len : ℤ) : FsM W FileRead := do
  if ← os.openRead path then
    let endPos ← Os.onHandle fun w => (os.whGetFileSize path w, w)
    if endPos < pos then pure ⟨FmResultFileSeekExceed, none⟩
    else
      let trueLeft := endPos - pos
      let result := if trueLeft > len then FmResultOk else FmResultFileReachEnd
      let toReadLen := if trueLeft > len then len else trueLeft
      if toReadLen < 0 then throw .overflow
      else
        let buf ← Os.onHandle fun w => (os.fread path pos toReadLen.toNat w, w)
        pure ⟨result, some (pos, buf)⟩
  else pure ⟨FmResultFileNotExist, none⟩

/-- `fmWriteFile`. -/
def fmWriteFile (segment : Except Fault Segment) (path : Bytes) : FsM W ℤ := do
  if ← os.openAppend path then
    let ⟨pos, len, buf⟩ ← TraceM.ofExcept segment
    let fileSize ← Os.onHandle fun w => (os.whGetFileSize path w, w)
    if pos ≠ fileSize then
      if pos + len = fileSize then pure len else pure (-1)
    else
      let buf ← TraceM.ofExcept buf
      Os.onHandle fun w => ((), os.fwrite path buf w)
      pure len
  else pure (-1)

/-- What both ends do with the result and the segment of a packet: the new offset, and the result. -/
def storeFile (file : FileFound) (path : Bytes) (offset : ℤ) : FsM W (ℤ × ℤ) := do
  let result ← TraceM.ofExcept file.result
  if result = FmResultOk ∨ result = FmResultFileReachEnd then
    let writeSize ← fmWriteFile os file.segment path
    if writeSize < 0 then pure (offset, FmResultFailed)
    else pure (offset + writeSize, result)
  else pure (offset, result)

section Only

open TraceM

variable {os} {P : FsOp → Prop} {path : Bytes}

end Only

end EuhatExpert
