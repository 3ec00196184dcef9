import WindCloud.Common.Protocol
import WindCloud.Lib.Hex

/-!
# The four tables and the statements run on them

Each constructor of `Statement` is the text of one `dao_*.c` query with its
arguments as literals. A statement is atomic. Unique keys reject an insertion;
`AUTO_INCREMENT` numbers a row with a value no row had before. A failed
statement leaves the tables alone and gives its caller the reply `failed`.
-/

set_option autoImplicit false

namespace WindCloud
open CString Hex

structure UserRow where
  id : ℕ
  username : Text
  passwordHash : Text
  salt : Text
  deriving DecidableEq, Repr

structure FileRow where
  id : ℕ
  sha256sum : List ℕ
  size : ℤ
  count : ℕ
  deriving DecidableEq, Repr

structure PathRow where
  id : ℕ
  userId : ℤ
  path : Text
  fileId : Option ℕ
  parentId : ℕ
  fileName : Text
  type : ℕ
  deriving DecidableEq, Repr

structure SourceRow where
  id : ℕ
  fileId : ℕ
  serverIp : Text
  serverPort : Text
  status : ℕ
  deriving DecidableEq, Repr

/-- The tables with the next `AUTO_INCREMENT` values. -/
structure Db where
  users : List UserRow
  files : List FileRow
  paths : List PathRow
  fileSources : List SourceRow
  nextUser : ℕ
  nextFile : ℕ
  nextPath : ℕ
  nextSource : ℕ
  deriving DecidableEq, Repr

def Db.empty : Db := ⟨[],[],[],[],1,1,1,1⟩

namespace Db

def nodeAt (db : Db) (userId : ℤ) (path : Text) : Option PathRow :=
  db.paths.find? fun r => r.userId = userId ∧ r.path = path

def fileOf (db : Db) (bs : List ℕ) : Option FileRow := db.files.find? fun r => r.sha256sum = bs

def fileWithId (db : Db) (id : ℕ) : Option FileRow := db.files.find? fun r => r.id = id

def addPath (db : Db) (userId : ℤ) (path : Text) (fileId : Option ℕ) (parentId : ℕ)
    (fileName : Text) (type : ℕ) : Db :=
  { db with
    paths := db.paths ++ [⟨db.nextPath,userId,path,fileId,parentId,fileName,type⟩]
    nextPath := db.nextPath+1 }

def dropPath (db : Db) (userId : ℤ) (id : ℕ) : Db :=
  { db with paths := db.paths.filter fun r => ¬ (r.id = id ∧ r.userId = userId) }

def addFile (db : Db) (bs : List ℕ) (size : ℤ) : Db :=
  { db with files := db.files ++ [⟨db.nextFile,bs,size,1⟩], nextFile := db.nextFile+1 }

def addRef (db : Db) (id : ℕ) : Db :=
  { db with files := db.files.map fun r => if r.id = id then { r with count := r.count+1 } else r }

def subRef (db : Db) (id : ℕ) : Db :=
  { db with files := db.files.map fun r =>
      if r.id = id ∧ 0 < r.count then { r with count := r.count-1 } else r }

def dropFile (db : Db) (id : ℕ) : Db := { db with files := db.files.filter fun r => r.id ≠ id }

def putSource (db : Db) (fileId : ℕ) (ip port : Text) : Db :=
  if db.fileSources.any fun r => r.fileId = fileId ∧ r.serverIp = ip ∧ r.serverPort = port then
    { db with fileSources := db.fileSources.map fun r =>
        if r.fileId = fileId ∧ r.serverIp = ip ∧ r.serverPort = port then { r with status := 1 }
        else r }
  else
    { db with
      fileSources := db.fileSources ++ [⟨db.nextSource,fileId,ip,port,1⟩]
      nextSource := db.nextSource+1 }

def dropSources (db : Db) (fileId : ℕ) : Db :=
  { db with fileSources := db.fileSources.filter fun r => r.fileId ≠ fileId }

def addUser (db : Db) (username passwordHash salt : Text) : Db :=
  { db with
    users := db.users ++ [⟨db.nextUser,username,passwordHash,salt⟩]
    nextUser := db.nextUser+1 }

end Db

inductive Statement where
  | userByName (username : Text)
  | insertUser (username passwordHash salt : Text)
  | nodeByPath (userId : ℤ) (path : Text)
  | listDir (userId : ℤ) (dirId : ℕ)
  | createNode (userId : ℤ) (fullPath : Text) (parentId : ℕ) (fileName : Text) (type : ℕ)
  | createFileNode (userId : ℤ) (fullPath : Text) (parentId : ℕ) (fileName : Text) (fileId : ℕ)
  | fileInfoByPath (userId : ℤ) (path : Text)
  | anyChild (userId : ℤ) (dirId : ℕ)
  | deleteNode (userId : ℤ) (nodeId : ℕ)
  | fileBySha256 (sha256sum : Text)
  | insertFile (sha256sum : Text) (size : ℤ)
  | addRefCount (fileId : ℕ)
  | subRefCount (fileId : ℕ)
  | refCount (fileId : ℕ)
  | deleteFile (fileId : ℕ)
  | fileInfoById (fileId : ℕ)
  | upsertSource (fileId : ℕ) (ip port : Text)
  | listSources (fileId : ℕ)
  | deleteSources (fileId : ℕ)
  deriving DecidableEq, Repr

namespace Statement

/-- What the calling function reads from the result. A query that fails and one
that finds no row are told apart only where the caller does. -/
abbrev Res : Statement → Type
  | userByName _ => Option (ℕ × Text × Text)
  | nodeByPath _ _ => Option (ℕ × ℕ)
  | listDir _ _ => Option (List (Text × ℕ))
  | fileInfoByPath _ _ => Option (ℕ × Option ℕ × ℕ)
  | anyChild _ _ => Option Bool
  | fileBySha256 _ => Option (ℕ × ℤ)
  | refCount _ => Option ℕ
  | fileInfoById _ => Option (Text × ℤ)
  | listSources _ => Option (List SourceServer)
  | insertUser _ _ _ | createNode _ _ _ _ _ | createFileNode _ _ _ _ _ | deleteNode _ _
  | insertFile _ _ | addRefCount _ | subRefCount _ | deleteFile _ | upsertSource _ _ _
  | deleteSources _ => Bool

def failed : (s : Statement) → s.Res
  | userByName _ => none
  | nodeByPath _ _ => none
  | listDir _ _ => none
  | fileInfoByPath _ _ => none
  | anyChild _ _ => none
  | fileBySha256 _ => none
  | refCount _ => none
  | fileInfoById _ => none
  | listSources _ => none
  | insertUser _ _ _ | createNode _ _ _ _ _ | createFileNode _ _ _ _ _ | deleteNode _ _
  | insertFile _ _ | addRefCount _ | subRefCount _ | deleteFile _ | upsertSource _ _ _
  | deleteSources _ => false

def exec : (s : Statement) → Db → s.Res × Db
  | userByName username, db =>
    ((db.users.find? fun r => r.username = username).map fun r => (r.id,r.passwordHash,r.salt),db)
  | insertUser username passwordHash salt, db =>
    if db.users.any fun r => r.username = username then (false,db)
    else (true,db.addUser username passwordHash salt)
  | nodeByPath userId path, db => ((db.nodeAt userId path).map fun r => (r.id,r.type),db)
  | listDir userId dirId, db =>
    (some ((db.paths.filter fun r => r.userId = userId ∧ r.parentId = dirId).map
      fun r => (r.fileName,r.type)),db)
  | createNode userId fullPath parentId fileName type, db =>
    if (db.nodeAt userId fullPath).isSome then (false,db)
    else (true,db.addPath userId fullPath none parentId fileName type)
  | createFileNode userId fullPath parentId fileName fileId, db =>
    if (db.nodeAt userId fullPath).isSome then (false,db)
    else (true,db.addPath userId fullPath (some fileId) parentId fileName 0)
  | fileInfoByPath userId path, db =>
    ((db.nodeAt userId path).map fun r => (r.id,r.fileId,r.type),db)
  | anyChild userId dirId, db =>
    (some (db.paths.any fun r => r.userId = userId ∧ r.parentId = dirId),db)
  | deleteNode userId nodeId, db => (true,db.dropPath userId nodeId)
  | fileBySha256 sha256sum, db =>
    match unhex sha256sum with
    | none => (none,db)
    | some bs => ((db.fileOf bs).map fun r => (r.id,r.size),db)
  | insertFile sha256sum size, db =>
    match unhex sha256sum with
    | none => (false,db)
    | some bs =>
      -- BINARY(32): a shorter value is padded with zero bytes, a longer one refused.
      let cell := bs ++ List.replicate (32-bs.length) 0
      if 32 < bs.length ∨ (db.fileOf cell).isSome then (false,db)
      else (true,db.addFile cell size)
  | addRefCount fileId, db => (true,db.addRef fileId)
  | subRefCount fileId, db => (true,db.subRef fileId)
  | refCount fileId, db => ((db.fileWithId fileId).map (·.count),db)
  | deleteFile fileId, db => (true,db.dropFile fileId)
  | fileInfoById fileId, db =>
    ((db.fileWithId fileId).map fun r => (hexLower r.sha256sum,r.size),db)
  | upsertSource fileId ip port, db => (true,db.putSource fileId ip port)
  | listSources fileId, db =>
    (some ((db.fileSources.filter fun r => r.fileId = fileId ∧ r.status = 1).map
      fun r => ⟨r.serverIp,r.serverPort⟩),db)
  | deleteSources fileId, db => (true,db.dropSources fileId)

end Statement

end WindCloud
