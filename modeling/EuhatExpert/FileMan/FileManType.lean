import EuhatExpert.Common.JyTcpEndpoint

/-!
# FileMan/FileManType — the commands of the file manager, and its results
-/

namespace EuhatExpert

/-! ## `FileManCmdType` -/

/-- The entries of a folder are asked for. -/
def FmCmdGetPeerFileList : ℤ := JyTcpCmdUser + 1

/-- A segment of a file is asked for. -/
def FmCmdFileDown : ℤ := JyTcpCmdUser + 2

/-- A segment of a file is brought. -/
def FmCmdFileUp : ℤ := JyTcpCmdUser + 3

/-- A file or folder is to be made. -/
def FmCmdFileNew : ℤ := JyTcpCmdUser + 4

/-- A file or folder is to be deleted. -/
def FmCmdFileDel : ℤ := JyTcpCmdUser + 5

/-- The handlers of `FileManServer`. -/
inductive FmsTask
  | downFileOp_
  | upFileOp_
  | peerFileListOp_
  | delFileOp_
  | newFileOp_
  deriving DecidableEq, Repr

/-- The handler `FileManServer::onRead` runs for a packet type, which it takes as a `short`. -/
def FileManServer.taskOf (packetType : ℤ) : Option FmsTask :=
  let packetType := Int.bmod packetType 65536
  if packetType = FmCmdFileDown then some .downFileOp_
  else if packetType = FmCmdFileUp then some .upFileOp_
  else if packetType = FmCmdGetPeerFileList then some .peerFileListOp_
  else if packetType = FmCmdFileDel then some .delFileOp_
  else if packetType = FmCmdFileNew then some .newFileOp_
  else none

/-! ## `FileManResultType` -/

/-- What was asked for was done; a file has more to come. -/
def FmResultOk : ℤ := 0

/-- What was asked for failed, for no reason that is told. -/
def FmResultFailed : ℤ := 1

/-- The server took another visit code. -/
def FmResultVisitCodeMismatch : ℤ := 2

/-- An upload would not fit on the disk. -/
def FmResultNoSpace : ℤ := 3

/-- What was asked for was done, up to the end of the file. -/
def FmResultFileReachEnd : ℤ := 4

/-- `fopen` gave no file. -/
def FmResultFileNotExist : ℤ := 5

/-- The segment starts behind the end of the file. -/
def FmResultFileSeekExceed : ℤ := 6

/-- `FILE_MAN_RECV_FILE_SEGMENT_MAX_LEN`: `(int)(1024 * 1024 * 19.9)`. -/
def FILE_MAN_RECV_FILE_SEGMENT_MAX_LEN : ℤ := 20866662

/-- `FILE_MAN_SEND_FILE_SEGMENT_MAX_LEN`, of the same value. -/
def FILE_MAN_SEND_FILE_SEGMENT_MAX_LEN : ℤ := 20866662

end EuhatExpert
