import WindCloud.Client.Completion
import WindCloud.Client.Console
import WindCloud.Client.Finish
import WindCloud.Client.Gets
import WindCloud.Client.Machine
import WindCloud.Client.Meta
import WindCloud.Client.MetaCuts
import WindCloud.Client.MetaFile
import WindCloud.Client.Partition
import WindCloud.Client.Prepare
import WindCloud.Client.Requests
import WindCloud.Client.Resumption
import WindCloud.Client.Split
import WindCloud.Client.Targets
import WindCloud.Client.Task
import WindCloud.Client.Transfer
import WindCloud.Common.Config
import WindCloud.Common.ConfigText
import WindCloud.Common.Protocol
import WindCloud.Lib.Buffer
import WindCloud.Lib.CString
import WindCloud.Lib.Decimal
import WindCloud.Lib.Duet
import WindCloud.Lib.Fifo
import WindCloud.Lib.Firsts
import WindCloud.Lib.Hex
import WindCloud.Lib.Inodes
import WindCloud.Lib.Lines
import WindCloud.Lib.Links
import WindCloud.Lib.Pool
import WindCloud.Lib.Program
import WindCloud.Lib.Quoted
import WindCloud.Lib.Rows
import WindCloud.Lib.Runs
import WindCloud.Lib.Shelf
import WindCloud.Lib.Sockets
import WindCloud.Lib.Stock
import WindCloud.Lib.Strtok
import WindCloud.Lib.Tokens
import WindCloud.Lib.Turns
import WindCloud.Server.Accounts
import WindCloud.Server.AnswerRuns
import WindCloud.Server.Answers
import WindCloud.Server.Auth
import WindCloud.Server.Cluster
import WindCloud.Server.Commands
import WindCloud.Server.ControlClosing
import WindCloud.Server.ControlRuns
import WindCloud.Server.CountRuns
import WindCloud.Server.Counts
import WindCloud.Server.Dao
import WindCloud.Server.DbPool
import WindCloud.Server.Download
import WindCloud.Server.DownloadRuns
import WindCloud.Server.DownloadSafety
import WindCloud.Server.Drive
import WindCloud.Server.DriveDownloads
import WindCloud.Server.DriveRuns
import WindCloud.Server.Failures
import WindCloud.Server.FileCmds
import WindCloud.Server.FileTransfer
import WindCloud.Server.Inventory
import WindCloud.Server.Keys
import WindCloud.Server.Listing
import WindCloud.Server.Machine
import WindCloud.Server.NodePaths
import WindCloud.Server.Ownership
import WindCloud.Server.PathBounds
import WindCloud.Server.Queries
import WindCloud.Server.ReceiveBranches
import WindCloud.Server.Replies
import WindCloud.Server.Schema
import WindCloud.Server.SeatRuns
import WindCloud.Server.Seats
import WindCloud.Server.SendLoops
import WindCloud.Server.Service
import WindCloud.Server.ServiceRuns
import WindCloud.Server.Session
import WindCloud.Server.SessionMoves
import WindCloud.Server.SqlServer
import WindCloud.Server.StakeRuns
import WindCloud.Server.Stakes
import WindCloud.Server.Steps
import WindCloud.Server.StoreFiles
import WindCloud.Server.StorePaths
import WindCloud.Server.StoreRuns
import WindCloud.Server.StoreUploads
import WindCloud.Server.TableOps
import WindCloud.Server.Tables
import WindCloud.Server.Ticket
import WindCloud.Server.TicketOutline
import WindCloud.Server.TicketRuns
import WindCloud.Server.TicketSafety
import WindCloud.Server.TicketTable
import WindCloud.Server.TimeWheel
import WindCloud.Server.TimeWheelSafety
import WindCloud.Server.TransferUsage
import WindCloud.Server.Tree
import WindCloud.Server.TreeRuns
import WindCloud.Server.UploadAlone
import WindCloud.Server.UploadAnswers
import WindCloud.Server.UploadFailures
import WindCloud.Server.UploadOutline
import WindCloud.Server.UploadReplies
import WindCloud.Server.UploadRuns
import WindCloud.Server.UploadSafety
import WindCloud.Server.UploadTables
import WindCloud.Server.Usage
import WindCloud.Server.WheelLists
import WindCloud.System.Dialogue
import WindCloud.System.DialogueRuns
import WindCloud.System.PacketStream
import WindCloud.System.PartClient
import WindCloud.System.PartLink
import WindCloud.System.PartRuns
import WindCloud.System.PartServer
import WindCloud.System.RangeRequests
import WindCloud.System.SendPaths
import WindCloud.System.SharedCursor
import WindCloud.System.VisitRuns
import WindCloud.System.Visits
