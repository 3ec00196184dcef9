import WindCloud.Server.Machine

/-!
# Data access functions

The functions of `dao_vfs.c`, `dao_file.c`, `dao_file_source.c` and
`dao_user.c`. A return value of 0 is `true` or `some` of the output arguments.
-/

set_option autoImplicit false

namespace WindCloud
open CString Effect

/-- A write past the end of a fixed array. -/
def overflow {α : Type} : Server α := .op .overflow fun e => e.elim

def sql (s : Statement) : Server s.Res := Program.perform (Op.sql s)

def daoGetNodeByPath (userId : ℤ) (path : Text) : Server (Option (ℕ × ℕ)) :=
  if path = "/".toList then pure (some (0,1)) else sql (.nodeByPath userId path)

def listEntry (name : Text) (type : ℕ) : Text :=
  if type = 1 then "\x1b[1;34m".toList ++ name ++ "/\x1b[0m ".toList else name ++ [' ']

/-- The listing is written into the caller's array of 4096 bytes. -/
def daoListDir (userId : ℤ) (dirId : ℕ) : Server (Option Text) := do
  match ← sql (.listDir userId dirId) with
  | none => pure none
  | some rows =>
    let text := rows.flatMap fun e => listEntry e.1 e.2
    if text.length < 4096 then pure (some text) else overflow

def daoCreateNode (userId : ℤ) (fullPath : Text) (parentId : ℕ) (fileName : Text) (type : ℕ) :
    Server Bool :=
  sql (.createNode userId fullPath parentId fileName type)

def daoCreateFileNode (userId : ℤ) (fullPath : Text) (parentId : ℕ) (fileName : Text)
    (fileId : ℕ) : Server Bool :=
  sql (.createFileNode userId fullPath parentId fileName fileId)

def daoGetFileInfoByPath (userId : ℤ) (path : Text) : Server (Option (ℕ × ℕ)) := do
  match ← sql (.fileInfoByPath userId path) with
  | none => pure none
  | some (id,fileId,type) =>
    match fileId with
    | none => pure none
    | some f => if type = 0 then pure (some (id,f)) else pure none

def daoIsDirEmpty (userId : ℤ) (dirId : ℕ) : Server (Option Bool) := do
  match ← sql (.anyChild userId dirId) with
  | none => pure none
  | some found => pure (some !found)

def daoDeleteNode (userId : ℤ) (nodeId : ℕ) : Server Bool := sql (.deleteNode userId nodeId)

def daoFileFindBySha256 (sha256sum : Text) : Server (Option (ℕ × ℤ)) :=
  sql (.fileBySha256 sha256sum)

/-- The new row's id is read back with a second statement. -/
def daoFileInsert (sha256sum : Text) (fileSize : ℤ) : Server (Option ℕ) := do
  if ← sql (.insertFile sha256sum fileSize) then
    match ← daoFileFindBySha256 sha256sum with
    | none => pure none
    | some (id,_) => pure (some id)
  else pure none

def daoFileAddRefCount (fileId : ℕ) : Server Bool := sql (.addRefCount fileId)

def daoFileSubRefCount (fileId : ℕ) : Server Bool := sql (.subRefCount fileId)

def daoFileGetRefCount (fileId : ℕ) : Server (Option ℕ) := sql (.refCount fileId)

def daoFileDelete (fileId : ℕ) : Server Bool := sql (.deleteFile fileId)

def daoFileGetInfoById (fileId : ℕ) : Server (Option (Text × ℤ)) := sql (.fileInfoById fileId)

def daoFileSourceUpsert (fileId : ℕ) (ip port : Text) : Server Bool :=
  if fileId = 0 ∨ ip = [] ∨ port = [] then pure false else sql (.upsertSource fileId ip port)

def daoFileSourceList (fileId maxCount : ℕ) : Server (Option (List SourceServer)) :=
  if fileId = 0 ∨ maxCount = 0 then pure none
  else do
    match ← sql (.listSources fileId) with
    | none => pure none
    | some rows =>
      pure (some ((rows.take maxCount).map fun r => ⟨r.ip.take 63,r.port.take 15⟩))

def daoFileSourceDeleteByFileId (fileId : ℕ) : Server Bool :=
  if fileId = 0 then pure false else sql (.deleteSources fileId)

def daoGetUserByName (username : Text) : Server (Option (ℕ × Text × Text)) :=
  sql (.userByName username)

def daoInsertUser (username passwordHash salt : Text) : Server Bool :=
  sql (.insertUser username passwordHash salt)

end WindCloud
