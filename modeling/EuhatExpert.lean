import EuhatExpert.Machinery.Run
import EuhatExpert.Machinery.Bytes
import EuhatExpert.Machinery.Doubling
import EuhatExpert.Common.JyMsgTimer
import EuhatExpert.Common.JyDataStream
import EuhatExpert.Common.JyBigNum
import EuhatExpert.Common.JyDataCrypto
import EuhatExpert.Machinery.Rsa
import EuhatExpert.Common.AsymmetricRoundTrip
import EuhatExpert.Common.JyTcpSelector
import EuhatExpert.Common.Reassembly
import EuhatExpert.Common.JyTcpEndpoint
import EuhatExpert.Common.PacketRoom
import EuhatExpert.Common.JyTcpClient
import EuhatExpert.Common.JyTcpServer
import EuhatExpert.Common.Handshake
import EuhatExpert.FileMan.Authentication
import EuhatExpert.FileMan.EuhatPath
import EuhatExpert.FileMan.Os
import EuhatExpert.FileMan.FileManFileOp
import EuhatExpert.FileMan.FmsTask
import EuhatExpert.FileMan.Confinement
import EuhatExpert.FileMan.Disk
import EuhatExpert.FileMan.FmScheduler
import EuhatExpert.FileMan.FmcTask
import EuhatExpert.Machinery.Exchange
import EuhatExpert.FileMan.FileManClient
import EuhatExpert.FileMan.Session
import EuhatExpert.FileMan.DiskFileOp
import EuhatExpert.FileMan.DiskSession
import EuhatExpert.FileMan.Upload
import EuhatExpert.FileMan.Download
import EuhatExpert.FileMan.DelNew
import EuhatExpert.Common.Punctuality
import EuhatExpert.FileMan.SchedulerOrder
import EuhatExpert.FileMan.DispatchSubList
import EuhatExpert.FileMan.FmLocal
import EuhatExpert.FileMan.SubListBytes
import EuhatExpert.FileMan.Engines
import EuhatExpert.FileMan.Threads
import EuhatExpert.FileMan.FailedFront
import EuhatExpert.Common.Shutdown
import EuhatExpert.Common.StaleMessages
import EuhatExpert.Common.SocketReuse
import EuhatExpert.Common.AsymmetricTotal
import EuhatExpert.Common.PacketSplit
import EuhatExpert.FileMan.FileSlice
import EuhatExpert.Common.JyWorkQueue
import EuhatExpert.Common.CancelTimer
import EuhatExpert.Dbop.DbOpIni
import EuhatExpert.Expert.EuhatWtPayload
import EuhatExpert.Expert.WorkTrace
import EuhatExpert.FileMan.ConnectTasks
import EuhatExpert.Expert.FileManDlg
import EuhatExpert.Common.ReadBack
import EuhatExpert.FileMan.FmPacket
import EuhatExpert.FileMan.CodecsAgree
import EuhatExpert.Machinery.Intercalate
import EuhatExpert.FileMan.CorrectPath
import EuhatExpert.FileMan.ReplyRoom
import EuhatExpert.FileMan.PathParts
import EuhatExpert.Machinery.Walk
import EuhatExpert.FileMan.ListedEntries
import EuhatExpert.FileMan.ShareGuard
import EuhatExpert.Os.EuhatFileHandles
import EuhatExpert.FileMan.WriteTruth
import EuhatExpert.Common.XorData
import EuhatExpert.Common.CipherModes
import EuhatExpert.Common.FieldCodec
import EuhatExpert.FileMan.PacketBounds
import EuhatExpert.FileMan.Place
import EuhatExpert.Machinery.Spawn
import EuhatExpert.FileMan.Errand
import EuhatExpert.FileMan.Workers
import EuhatExpert.FileMan.Sides
import EuhatExpert.FileMan.UserLoops
import EuhatExpert.FileMan.TreeRun
import EuhatExpert.FileMan.BottomUp
import EuhatExpert.FileMan.DeleteTree
import EuhatExpert.FileMan.TreeDisk
import EuhatExpert.Common.Crc32Bursts
import EuhatExpert.Common.AcceptedKeys
import EuhatExpert.Common.TimeOrder
import EuhatExpert.Expert.MinuteCounts
import EuhatExpert.Dbop.SqlText
import EuhatExpert.Dbop.TableLayout
import EuhatExpert.Expert.WorkTraceTable
import EuhatExpert.Os.FileHandleTable
import EuhatExpert.Common.Md5
import EuhatExpert.FileMan.RefusedForSpace
import EuhatExpert.Common.Md5Streaming
import EuhatExpert.FileMan.ListingEnds
import EuhatExpert.FileMan.CopyParts
import EuhatExpert.FileMan.CopyRun
import EuhatExpert.FileMan.CopyTree
import EuhatExpert.Common.JyList
import EuhatExpert.Machinery.Decimal
import EuhatExpert.Expert.WorkSpan
import EuhatExpert.Common.BigNumExact
import EuhatExpert.Common.StreamGrowth
import EuhatExpert.FileMan.MoveTasks
import EuhatExpert.FileMan.MoveTree
import EuhatExpert.P2p.Rendezvous
import EuhatExpert.FileMan.GenCert
import EuhatExpert.Expert.KqInformDlg
import EuhatExpert.FileMan.Selection
import EuhatExpert.Expert.FileManSubDlg
import EuhatExpert.SimpleFile.SimpleFileClient
import EuhatExpert.Machinery.Ownership
import EuhatExpert.Common.JyBuf
import EuhatExpert.Common.PoolEndpoint
import EuhatExpert.Common.BlockOwners
import EuhatExpert.Common.JySockSelector
