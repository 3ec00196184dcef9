import WindCloud.Client.Machine
import WindCloud.Lib.Decimal
import WindCloud.Lib.Lines

/-!
# The task directory of a download

The functions of `multipart_meta.c`. The directory is named by the hash of the
file; `meta.ini` keeps how the file was split, and `part_i` holds what has been
received of part `i`.
-/

set_option autoImplicit false

namespace WindCloud
open CString Effect Function

namespace Client

structure MultipartPartInfo where
  partIndex : ℤ
  rangeStart : ℤ
  rangeEnd : ℤ
  finishedBytes : ℤ
  sourceIp : Text
  sourcePort : Text
  partFilePath : Text
  deriving DecidableEq, Repr

def MultipartPartInfo.zero : MultipartPartInfo := ⟨0,0,0,0,[],[],[]⟩

abbrev PartIndex := Fin maxSourceServerCount

structure MultipartTaskMeta where
  fileName : Text
  fileHash : Text
  fileSize : ℤ
  partCount : ℤ
  taskDir : Text
  metaFilePath : Text
  parts : PartIndex → MultipartPartInfo

namespace MultipartTaskMeta

def zero : MultipartTaskMeta := ⟨[],[],0,0,[],[],fun _ => .zero⟩

def setPart (m : MultipartTaskMeta) (i : PartIndex) (p : MultipartPartInfo) : MultipartTaskMeta :=
  { m with parts := update m.parts i p }

/-- The parts a loop up to `part_count` visits. -/
def indices (m : MultipartTaskMeta) : List PartIndex :=
  (List.finRange maxSourceServerCount).filter fun i => (i.val : ℤ) < m.partCount

end MultipartTaskMeta

def perform (o : Op) : Client o.Res := Program.perform o

/-- The texts before each `/` behind the first character, and the whole text. -/
def dirPrefixes (dir : Text) : List Text :=
  ((List.range dir.length).filter fun i => 0 < i ∧ dir[i]? = some '/').map (dir.take ·) ++ [dir]

def makeDirs : List Text → Client Bool
  | [] => pure true
  | d::ds => do if ← perform (.mkdir d) then makeDirs ds else pure false

def ensureDirRecursive (dir : Text) : Client Bool :=
  if dir = [] ∨ maxPathLen ≤ dir.length then pure false else makeDirs (dirPrefixes dir)

def multipartRoot (clientFileDir : Text) : Text := clientFileDir ++ "/.multipart".toList

/-- The task directory and the path of its `meta.ini`. -/
def buildTaskPaths (clientFileDir fileHash : Text) : Client (Option (Text × Text)) := do
  match bounded maxPathLen (multipartRoot clientFileDir) with
  | none => pure none
  | some root =>
    if ← ensureDirRecursive root then
      match bounded maxPathLen (root ++ '/'::fileHash) with
      | none => pure none
      | some taskDir =>
        if ← ensureDirRecursive taskDir then
          match bounded maxPathLen (taskDir ++ "/meta.ini".toList) with
          | none => pure none
          | some metaFilePath => pure (some (taskDir,metaFilePath))
        else pure none
    else pure none

def buildPartFilePath (taskDir : Text) (partIndex : ℤ) (pathSize : ℕ) : Option Text :=
  if taskDir.length+16 ≥ pathSize then none
  else bounded pathSize (taskDir ++ "/part_".toList ++ decimal partIndex)

/-- The loop of `init_parts_from_plan` over the sources still to be served. -/
def initParts (baseSize : ℤ) : List (PartIndex × SourceServer) → (remainder start : ℤ) →
    MultipartTaskMeta → Option MultipartTaskMeta
  | [], _, _, m => some m
  | (i,source)::rest, remainder, start, m =>
    match buildPartFilePath m.taskDir i.val maxPathLen with
    | none => none
    | some path =>
      if 0 < remainder then
        initParts baseSize rest (remainder-1) (start+baseSize+1)
          (m.setPart i
            ⟨i.val,start,start+(baseSize+1)-1,0,source.ip.take 63,source.port.take 15,path⟩)
      else
        initParts baseSize rest remainder (start+baseSize)
          (m.setPart i
            ⟨i.val,start,start+baseSize-1,0,source.ip.take 63,source.port.take 15,path⟩)

def initPartsFromPlan (fileSize : ℤ) (plan : MultiGetsPlan) (m : MultipartTaskMeta) :
    Option MultipartTaskMeta :=
  if fileSize < 0 ∨ plan.sources.length = 0 ∨ maxSourceServerCount < plan.sources.length then none
  else
    initParts (fileSize/plan.sources.length)
      ((List.finRange maxSourceServerCount).zip plan.sources)
      (fileSize%plan.sources.length) 0 { m with partCount := plan.sources.length }

def partKey (i : PartIndex) (field : String) : Text :=
  "part_".toList ++ decimal i.val ++ field.toList

def partLines (i : PartIndex) (p : MultipartPartInfo) : List Text :=
  [partKey i "_start=" ++ decimal p.rangeStart,partKey i "_end=" ++ decimal p.rangeEnd,
    partKey i "_finished=" ++ decimal p.finishedBytes,partKey i "_ip=" ++ p.sourceIp,
    partKey i "_port=" ++ p.sourcePort]

def metaLines (m : MultipartTaskMeta) : List Text :=
  ["file_hash=".toList ++ m.fileHash,"file_size=".toList ++ decimal m.fileSize,
    "part_count=".toList ++ decimal m.partCount] ++
    m.indices.flatMap fun i => partLines i (m.parts i)

def metaText (m : MultipartTaskMeta) : Text :=
  line ("file_name=".toList ++ m.fileName) ++ (metaLines m).flatMap line

def saveMetaFile (m : MultipartTaskMeta) : Client Bool := perform (.save m.metaFilePath (metaText m))

/-- The value behind `key` in a line: whether it fits the output buffer, and
what that buffer holds afterwards. A value that does not fit is cut, with its
line end still in place if that is not cut off. -/
def parseMetaStringLine (l key : Text) (outputSize : ℕ) (output : Text) : Bool × Text :=
  if key.isPrefixOf l then
    if outputSize ≤ (l.drop key.length).length then
      (false,(l.drop key.length).take (outputSize-1))
    else (true,(l.drop key.length).takeWhile fun c => c ∉ ['\r','\n'])
  else (false,output)

def parseMetaOffsetLine (l key : Text) : Option ℤ :=
  if key.isPrefixOf l then some (atoll (l.drop key.length)) else none

/-- One pass of the inner loop of `load_meta_file`; `true` ends that loop. -/
def loadPartLine (l : Text) (i : PartIndex) (p : MultipartPartInfo) : Bool × MultipartPartInfo :=
  match parseMetaOffsetLine l (partKey i "_start=") with
  | some n => (true,{ p with rangeStart := n, partIndex := i.val })
  | none =>
    match parseMetaOffsetLine l (partKey i "_end=") with
    | some n => (true,{ p with rangeEnd := n, partIndex := i.val })
    | none =>
      match parseMetaOffsetLine l (partKey i "_finished=") with
      | some n => (true,{ p with finishedBytes := n, partIndex := i.val })
      | none =>
        match parseMetaStringLine l (partKey i "_ip=") 64 p.sourceIp with
        | (true,ip) => (true,{ p with sourceIp := ip, partIndex := i.val })
        | (false,ip) =>
          match parseMetaStringLine l (partKey i "_port=") 16 p.sourcePort with
          | (true,port) => (true,{ p with sourceIp := ip, sourcePort := port, partIndex := i.val })
          | (false,port) => (false,{ p with sourceIp := ip, sourcePort := port })

def loadParts (l : Text) : List PartIndex → MultipartTaskMeta → MultipartTaskMeta
  | [], m => m
  | i::is, m =>
    if (loadPartLine l i (m.parts i)).1 then m.setPart i (loadPartLine l i (m.parts i)).2
    else loadParts l is (m.setPart i (loadPartLine l i (m.parts i)).2)

/-- One pass of the loop of `load_meta_file`. -/
def loadLine (m : MultipartTaskMeta) (l : Text) : MultipartTaskMeta :=
  match parseMetaStringLine l "file_name=".toList fileNameLen m.fileName with
  | (true,name) => { m with fileName := name }
  | (false,name) =>
    match parseMetaStringLine l "file_hash=".toList 65 m.fileHash with
    | (true,hash) => { m with fileName := name, fileHash := hash }
    | (false,hash) =>
      match parseMetaOffsetLine l "file_size=".toList with
      | some n => { m with fileName := name, fileHash := hash, fileSize := n }
      | none =>
        if "part_count=".toList.isPrefixOf l then
          { m with fileName := name, fileHash := hash, partCount := atoll (l.drop 11) }
        else
          loadParts l (List.finRange maxSourceServerCount)
            { m with fileName := name, fileHash := hash }

def loadMetaText (m : MultipartTaskMeta) (t : Text) : MultipartTaskMeta :=
  (fgetsLines 256 t).foldl loadLine m

def loadMetaFile (m : MultipartTaskMeta) : Client (Option MultipartTaskMeta) := do
  match ← perform (.load m.metaFilePath) with
  | none => pure none
  | some t => pure (some (loadMetaText m t))

def partTotalSize (p : MultipartPartInfo) : ℤ := p.rangeEnd-p.rangeStart+1

def finishedOf (p : MultipartPartInfo) : Option ℤ → ℤ
  | none => 0
  | some size => if size < partTotalSize p then size else partTotalSize p

def syncParts : List PartIndex → MultipartTaskMeta → Client MultipartTaskMeta
  | [], m => pure m
  | i::is, m => do
    let st ← perform (.stat (m.parts i).partFilePath)
    syncParts is (m.setPart i { m.parts i with finishedBytes := finishedOf (m.parts i) st })

def syncFinishedBytesFromPartFiles (m : MultipartTaskMeta) : Client MultipartTaskMeta :=
  syncParts m.indices m

def isMetaCompatible (m : MultipartTaskMeta) (plan : MultiGetsPlan) : Bool :=
  decide (m.fileName = plan.fileName ∧ m.fileHash = plan.fileHash ∧ m.fileSize = plan.fileSize ∧
    0 < m.partCount ∧ m.partCount ≤ maxSourceServerCount ∧ m.partCount = plan.sources.length) &&
    ((List.finRange maxSourceServerCount).zip plan.sources).all fun e =>
      decide ((m.parts e.1).sourceIp = e.2.ip ∧ (m.parts e.1).sourcePort = e.2.port)

def setPartPaths : List PartIndex → MultipartTaskMeta → Option MultipartTaskMeta
  | [], m => some m
  | i::is, m =>
    match buildPartFilePath m.taskDir i.val maxPathLen with
    | none => none
    | some path => setPartPaths is (m.setPart i { m.parts i with partFilePath := path })

/-- The task read from its `meta.ini`, where that fits the plan. -/
def reloadTask (m : MultipartTaskMeta) (plan : MultiGetsPlan) :
    Client (Option MultipartTaskMeta) := do
  if ← perform (.access m.metaFilePath) then
    match ← loadMetaFile m with
    | none => pure none
    | some loaded => if isMetaCompatible loaded plan then pure (some loaded) else pure none
  else pure none

/-- The second half of `multipart_task_prepare`. -/
def rebuildTask (clientFileDir : Text) (plan : MultiGetsPlan) :
    Client (Option MultipartTaskMeta) := do
  match ← buildTaskPaths clientFileDir (plan.fileHash.take 64) with
  | none => pure none
  | some (taskDir,metaFilePath) =>
    match initPartsFromPlan plan.fileSize plan
        { MultipartTaskMeta.zero with
          fileName := plan.fileName.take (fileNameLen-1)
          fileHash := plan.fileHash.take 64
          fileSize := plan.fileSize
          taskDir := taskDir
          metaFilePath := metaFilePath } with
    | none => pure none
    | some m => if ← saveMetaFile m then pure (some m) else pure none

def resumeTask (loaded : MultipartTaskMeta) : Client (Option MultipartTaskMeta) := do
  match setPartPaths loaded.indices loaded with
  | none => pure none
  | some m =>
    let m ← syncFinishedBytesFromPartFiles m
    if ← saveMetaFile m then pure (some m) else pure none

def multipartTaskPrepare (clientFileDir : Text) (plan : MultiGetsPlan) :
    Client (Option MultipartTaskMeta) := do
  match ← buildTaskPaths clientFileDir plan.fileHash with
  | none => pure none
  | some (taskDir,metaFilePath) =>
    match ← reloadTask { MultipartTaskMeta.zero with
        taskDir := taskDir, metaFilePath := metaFilePath } plan with
    | some loaded => resumeTask loaded
    | none => rebuildTask clientFileDir plan

/-- The refreshed task, and whether it could be written back. -/
def multipartTaskSyncProgress (m : MultipartTaskMeta) : Client (Bool × MultipartTaskMeta) := do
  let m ← syncFinishedBytesFromPartFiles m
  let saved ← saveMetaFile m
  pure (saved,m)

def unlinkParts : List PartIndex → MultipartTaskMeta → Client Unit
  | [], _ => pure ()
  | i::is, m => do
    let _ ← perform (.unlink (m.parts i).partFilePath)
    unlinkParts is m

def multipartTaskCleanup (m : MultipartTaskMeta) : Client Bool := do
  let _ ← perform (.unlink m.metaFilePath)
  unlinkParts m.indices m
  match ← perform (.rmdir m.taskDir) with
  | .failed => pure false
  | _ => pure true

end Client

end WindCloud
