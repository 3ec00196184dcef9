import Mathlib.Data.Int.Notation
import WindCloud.Lib.CString

/-!
# Packets and session contexts

The structures of `protocol.h` with their initialisers. Fixed arrays are
texts cut at the length the initialiser copies; `off_t` and `int` values are
integers.
-/

set_option autoImplicit false

namespace WindCloud
open CString

abbrev Content := List Char

def cmdDataLen : ℕ := 256
def fileNameLen : ℕ := 256
def maxSourceServerCount : ℕ := 8
def tokenLen : ℕ := 1024
def transferTicketLen : ℕ := 1024
def fullPathLen : ℕ := 512
def maxVfsNameLen : ℕ := 30
def maxPathLen : ℕ := 1024

structure ClientContext where
  userId : ℤ
  currentPath : Text
  currentDirId : ℕ
  deriving DecidableEq, Repr

inductive CmdType where
  | invalid | pwd | cd | ls | gets | puts | touch | rm | mkdir | rmdir | reply | login
  | register | getsRange
  deriving DecidableEq, Repr

def CmdType.code : CmdType → ℤ
  | .invalid => 0
  | .pwd => 1
  | .cd => 2
  | .ls => 3
  | .gets => 4
  | .puts => 5
  | .touch => 6
  | .rm => 7
  | .mkdir => 8
  | .rmdir => 9
  | .reply => 10
  | .login => 11
  | .register => 12
  | .getsRange => 13

structure SourceServer where
  ip : Text
  port : Text
  deriving DecidableEq, Repr

structure FilePacket where
  cmdType : CmdType
  fileSize : ℤ
  offset : ℤ
  fileName : Text
  hash : Text
  deriving DecidableEq, Repr

structure TransferTicketReply where
  success : ℤ
  message : Text
  ticket : Text
  deriving DecidableEq, Repr

structure AuthReply where
  success : ℤ
  userId : ℤ
  message : Text
  token : Text
  deriving DecidableEq, Repr

structure MultiGetsPlan where
  success : ℤ
  fileSize : ℤ
  fileName : Text
  fileHash : Text
  sources : List SourceServer
  message : Text
  deriving DecidableEq, Repr

inductive Packet where
  | command (cmdType : CmdType) (data : Text)
  | file (p : FilePacket)
  | auth (p : AuthReply)
  | ticket (p : TransferTicketReply)
  | plan (p : MultiGetsPlan)
  deriving DecidableEq, Repr

/-- The layouts of the packets, which carry no tag. -/
inductive PacketKind where
  | command | file | auth | ticket | plan
  deriving DecidableEq, Repr

def Packet.kind : Packet → PacketKind
  | .command _ _ => .command
  | .file _ => .file
  | .auth _ => .auth
  | .ticket _ => .ticket
  | .plan _ => .plan

def getPacketCmdType : Packet → CmdType
  | .command cmdType _ => cmdType
  | .file p => p.cmdType
  | _ => .invalid

/-- The layout in which the client awaits the reply to a request. -/
def CmdType.replyKind : CmdType → PacketKind
  | .login => .auth
  | .gets => .plan
  | .puts | .getsRange => .ticket
  | _ => .command

def initCommandPacket (type : CmdType) (data : Text) : Packet :=
  .command type (data.take (cmdDataLen-1))

def initFilePacket (type : CmdType) (fileName : Text) (fileSize offset : ℤ)
    (hash : Option Text) : FilePacket where
  cmdType := type
  fileSize := fileSize
  offset := offset
  fileName := fileName.take (fileNameLen-1)
  hash := (hash.getD []).take 64

def initAuthReplyPacket (success userId : ℤ) (message : String) (token : Option Text) :
    AuthReply where
  success := success
  userId := userId
  message := message.toList.take (cmdDataLen-1)
  token := (token.getD []).take (tokenLen-1)

def initTransferTicketReplyPacket (success : ℤ) (message : String) (ticket : Option Text) :
    TransferTicketReply where
  success := success
  message := message.toList.take (cmdDataLen-1)
  ticket := (ticket.getD []).take (transferTicketLen-1)

def initMultiGetsPlanPacket (success : ℤ) (fileName : Text) (fileSize : ℤ)
    (fileHash : Option Text) (sources : List SourceServer) (message : String) :
    MultiGetsPlan where
  success := success
  fileSize := fileSize
  fileName := fileName.take (fileNameLen-1)
  fileHash := (fileHash.getD []).take 64
  sources := sources
  message := message.toList.take (cmdDataLen-1)

end WindCloud
