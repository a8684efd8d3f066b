import Kerners.Fat32.Dir
import Kerners.Fat32.Fat
import Kerners.Lib.Traced

/-!
# Files and directories (`src/fs/fat32/mod.rs`)

`Fat32Dir` and `Fat32File` as programs on the block device.

* A `VfsM` is a single call (`read_cluster`, `write_cluster`, `parse_entries_with_offsets`,
  `find_free_entry_slot`, `write_dir_entry`, `update_dir_entry`); an `OpM` is an operation made of
  calls. `Fault.panic` is a panic of the code (`chain.last().unwrap()` on an empty chain).
* A `Fat32File` keeps `start_cluster` and `size` behind locks of the vnode: they are the state of a
  `FileM`, together with the `FatTable` the operation makes for itself, and survive an error.
* The cluster loops of `Fat32FileSystem`, `Fat32Dir` and `Fat32File` have the same bodies; each of
  the three keeps its names.
-/

namespace Kerners.Fat32

open Lib Kerners.Block

abbrev VfsM := DevM Empty Unit VfsError

/-- An operation on a vnode with state `σ`. -/
abbrev OpM (σ : Type) := DevM (Mark CallKind Nat) σ (Fault VfsError)

open ProgM

def vfsCall {σ α : Type} (m : VfsM α) : OpM σ α :=
  ProgM.within () ((Fat32FileSystem.plainCall m).mapErr Fault.err)

namespace Fat32FileSystem

variable (fs : Fat32FileSystem)

/-- The loop of `read_cluster` over the sectors of a cluster. -/
def readSectors (startSector : Nat) : List Nat → VfsM Bytes
  | [] => pure []
  | i :: is => do
    let block ← (readBlock ((startSector + i) % 2 ^ 32) fs.boot.sectorSize).mapErr fun _ => .ioError
    let rest ← readSectors startSector is
    pure (block ++ rest)

def readCluster (cluster : Nat) : VfsM Bytes :=
  fs.readSectors (fs.boot.clusterToSector cluster) (List.range fs.boot.clusterSectors)

/-- The buffer of sector `i`: the data from its offset on, padded with zeros. -/
def sectorBuf (data : Bytes) (i : Nat) : Bytes :=
  let part := (data.drop (i * fs.boot.sectorSize)).take fs.boot.sectorSize
  part ++ List.replicate (fs.boot.sectorSize - part.length) 0

/-- The loop of `write_cluster` over the sectors of a cluster. -/
def writeSectors (startSector : Nat) (data : Bytes) : List Nat → VfsM Unit
  | [] => pure ()
  | i :: is => do
    (writeBlock ((startSector + i) % 2 ^ 32) (fs.sectorBuf data i)).mapErr fun _ => .ioError
    writeSectors startSector data is

def writeCluster (cluster : Nat) (data : Bytes) : VfsM Unit :=
  fs.writeSectors (fs.boot.clusterToSector cluster) data (List.range fs.boot.clusterSectors)

/-- `read_chain` with a `FatTable` of its own. -/
def ownChain (cluster : Nat) : VfsM (List Nat) :=
  ProgM.within FatTable.new ((fs.readChain cluster).mapErr fun _ => .ioError)

end Fat32FileSystem

/-! ## Parsing a directory -/

structure Listed where
  name : Str
  entry : DirEntry
  offset : Nat
  deriving DecidableEq

/-- The name of an entry behind the long-name parts `lfnParts`. -/
def entryName (lfnParts : List LfnEntry) (e : DirEntry) : Str :=
  if lfnParts.isEmpty then e.shortName else extractLfnName lfnParts

/-- `.` and `..` are skipped. -/
def isDotName (name : Str) : Bool := name == ['.'] || name == ['.', '.']

/-- The loop of `parse_entries_with_offsets` over the 32-byte chunks from number `idx` on. -/
def parseSlots (lfnParts : List LfnEntry) (idx : Nat) : List Bytes → List Listed
  | [] => []
  | chunk :: rest =>
    if chunk.getD 0 0 = 0x00 then []
    else if chunk.getD 0 0 = 0xE5 then parseSlots lfnParts (idx + 1) rest
    else if chunk.getD 11 0 = attrLongName then
      match LfnEntry.fromBytes chunk with
      | some lfn => parseSlots (lfnParts ++ [lfn]) (idx + 1) rest
      | none => parseSlots lfnParts (idx + 1) rest
    else
      match DirEntry.fromBytes chunk with
      | some entry =>
        if entry.isVolumeLabel then parseSlots [] (idx + 1) rest
        else if isDotName (entryName lfnParts entry) then parseSlots [] (idx + 1) rest
        else ⟨entryName lfnParts entry, entry, idx * 32⟩ :: parseSlots [] (idx + 1) rest
      | none => parseSlots [] (idx + 1) rest

/-- `find_free_entry_slot` over the chunks: the first free or deleted slot. -/
def findFree (slots : List Bytes) : Option Nat :=
  slots.findIdx? fun chunk => chunk.getD 0 0 == 0x00 || chunk.getD 0 0 == 0xE5

/-- `VNodeType`, as far as `create` distinguishes. -/
inductive VNodeType where
  | file
  | directory
  | other
  deriving DecidableEq

structure Fat32Dir where
  cluster : Nat
  name : Str
  deriving DecidableEq

/-- `Fat32File` without the state behind its locks. -/
structure Fat32File where
  name : Str
  parentCluster : Nat
  entryOffset : Nat
  deriving DecidableEq

/-- The state behind the locks of a `Fat32File`. -/
structure FileState where
  startCluster : Nat
  size : Nat
  deriving DecidableEq

inductive VNode where
  | dir (d : Fat32Dir)
  | file (f : Fat32File) (s : FileState)
  deriving DecidableEq

/-! ## Directories -/

namespace Fat32Dir

variable (fs : Fat32FileSystem) (dir : Fat32Dir)

def readClusters : List Nat → VfsM Bytes
  | [] => pure []
  | c :: cs => do
    let data ← fs.readCluster c
    let rest ← readClusters cs
    pure (data ++ rest)

def readAllClusterData : VfsM Bytes := do
  let chain ← fs.ownChain dir.cluster
  readClusters fs chain

def parseEntriesWithOffsets : VfsM (List Listed) := do
  let data ← dir.readAllClusterData fs
  pure (parseSlots [] 0 (chunks 32 data))

def findFreeEntrySlot : VfsM Nat := do
  let data ← dir.readAllClusterData fs
  match findFree (chunks 32 data) with
  | some idx => pure (idx * 32)
  | none => ProgM.throw .noSpace

def writeDirEntry (offset : Nat) (entry : DirEntry) : VfsM Unit := do
  let chain ← fs.ownChain dir.cluster
  let clusterIdx := offset / fs.boot.clusterSize
  let offsetInCluster := offset % fs.boot.clusterSize
  match chain[clusterIdx]? with
  | none => ProgM.throw .ioError
  | some cluster =>
    let data ← fs.readCluster cluster
    fs.writeCluster cluster (splice data offsetInCluster entry.toBytes)

def createFile {σ : Type} (name : Str) : OpM σ VNode := do
  let entry := DirEntry.newFile name 0 0
  let offset ← vfsCall (dir.findFreeEntrySlot fs)
  vfsCall (dir.writeDirEntry fs offset entry)
  pure (.file ⟨name, dir.cluster, offset⟩ ⟨0, 0⟩)

/-- The first cluster of a new directory: `.`, `..` and zeros. -/
def newDirData (cluster : Nat) : Bytes :=
  splice (splice (List.replicate fs.boot.clusterSize 0) 0 (DirEntry.dotEntry cluster).toBytes) 32
    (DirEntry.dotdotEntry dir.cluster).toBytes

def createDirectory {σ : Type} (name : Str) : OpM σ VNode := do
  let cluster ← ProgM.within FatTable.new (fs.allocCall.mapErr fun _ => .err .noSpace)
  vfsCall (fs.writeCluster cluster (dir.newDirData fs cluster))
  let offset ← vfsCall (dir.findFreeEntrySlot fs)
  vfsCall (dir.writeDirEntry fs offset (DirEntry.newDir name cluster))
  pure (.dir ⟨cluster, name⟩)

def vnodeOf (l : Listed) : VNode :=
  if l.entry.isDir then .dir ⟨l.entry.cluster, l.name⟩
  else .file ⟨l.name, dir.cluster, l.offset⟩ ⟨l.entry.cluster, l.entry.fileSize.toNat⟩

def findEntry (entries : List Listed) (name : Str) : Option Listed :=
  entries.find? fun l => eqIgnoreAsciiCase l.name name

def lookup {σ : Type} (name : Str) : OpM σ VNode := do
  let entries ← vfsCall (dir.parseEntriesWithOffsets fs)
  match findEntry entries name with
  | some l => pure (dir.vnodeOf l)
  | none => ProgM.throw (.err .notFound)

/-- `readdir`: names and types. -/
def readdir {σ : Type} : OpM σ (List (Str × VNodeType)) := do
  let entries ← vfsCall (dir.parseEntriesWithOffsets fs)
  pure (entries.map fun l => (l.name, if l.entry.isDir then .directory else .file))

/-- The name check of `create`. -/
def badName (name : Str) : Bool := name.isEmpty || name.contains '/' || utf8Len name > 255

def create {σ : Type} (name : Str) (nodeType : VNodeType) : OpM σ VNode := do
  if badName name then ProgM.throw (.err .invalidArgument)
  else
    match ← (dir.lookup fs name : OpM σ VNode).attempt with
    | .ok _ => ProgM.throw (.err .alreadyExists)
    | .error (_ : Fault VfsError) =>
      match nodeType with
      | .file => dir.createFile fs name
      | .directory => dir.createDirectory fs name
      | .other => ProgM.throw (.err .notSupported)

/-- `free_chain` with a `FatTable` of its own. -/
def freeOwnChain {σ : Type} (cluster : Nat) : OpM σ Unit :=
  ProgM.within FatTable.new ((fs.freeChain cluster).mapErr fun _ => .err .ioError)

def unlink {σ : Type} (name : Str) : OpM σ Unit := do
  let entries ← vfsCall (dir.parseEntriesWithOffsets fs)
  match findEntry entries name with
  | none => ProgM.throw (.err .notFound)
  | some l =>
    if l.entry.isDir then ProgM.throw (.err .isADirectory)
    else
      if l.entry.cluster ≥ 2 then freeOwnChain fs l.entry.cluster
      vfsCall (dir.writeDirEntry fs l.offset l.entry.markDeleted)

def rmdir {σ : Type} (name : Str) : OpM σ Unit := do
  let entries ← vfsCall (dir.parseEntriesWithOffsets fs)
  match findEntry entries name with
  | none => ProgM.throw (.err .notFound)
  | some l =>
    if !l.entry.isDir then ProgM.throw (.err .notADirectory)
    else
      let subdir : Fat32Dir := ⟨l.entry.cluster, name⟩
      let subdirEntries ← subdir.readdir fs
      if !subdirEntries.isEmpty then ProgM.throw (.err .directoryNotEmpty)
      else
        freeOwnChain fs l.entry.cluster
        vfsCall (dir.writeDirEntry fs l.offset l.entry.markDeleted)

end Fat32Dir

/-! ## Files -/

/-- The state of an operation on a file: the locked state of the vnode and its `FatTable`. -/
structure FileOp where
  fat : FatTable
  startCluster : Nat
  size : Nat
  deriving DecidableEq

abbrev FileM := OpM FileOp

/-- A method of the operation's `FatTable`, its errors mapped to `e`. -/
def onFat {α : Type} (e : VfsError) (m : FatOp α) : FileM α :=
  (m.mapErr fun _ => Fault.err e).zoom FileOp.fat fun fat s => { s with fat := fat }

namespace Fat32File

variable (fs : Fat32FileSystem) (f : Fat32File)

/-- `*start_cluster = c`. -/
def setStart (c : Nat) : FileM Unit := do
  let s ← ProgM.get
  ProgM.set { s with startCluster := c }

/-- `*size = n`. -/
def setSize (n : Nat) : FileM Unit := do
  let s ← ProgM.get
  ProgM.set { s with size := n }

def updateDirEntry (newCluster newSize : Nat) : VfsM Unit := do
  let chain ← fs.ownChain f.parentCluster
  let clusterIdx := f.entryOffset / fs.boot.clusterSize
  let offsetInCluster := f.entryOffset % fs.boot.clusterSize
  match chain[clusterIdx]? with
  | none => ProgM.throw .ioError
  | some cluster =>
    let data ← fs.readCluster cluster
    match DirEntry.fromBytes (data.drop offsetInCluster) with
    | none => pure ()
    | some entry =>
      let entry := { entry.setCluster newCluster with fileSize := .ofNat newSize }
      fs.writeCluster cluster (splice data offsetInCluster entry.toBytes)

/-- The first cluster of an empty file: `if *start_cluster < 2`. -/
def ensureStart : FileM Unit := do
  if (← ProgM.get).startCluster < 2 then
    let newCluster ← onFat .noSpace fs.allocCall
    setStart newCluster

/-- The chain, extended to at least `required` clusters. -/
def ensureChain (required : Nat) : FileM (List Nat) := do
  let chain ← onFat .ioError (Fat32FileSystem.plainCall (fs.readChain (← ProgM.get).startCluster))
  if required > chain.length then
    match chain.getLast? with
    | none => ProgM.throw .panic
    | some last => do
      let newClusters ← onFat .noSpace (fs.extendChain last (required - chain.length))
      pure (chain ++ newClusters)
  else pure chain

/-- `(size + cluster_size - 1) / cluster_size`, in `usize`. -/
def clustersFor (size : Nat) : Nat :=
  (size + fs.boot.clusterSize - 1) % 2 ^ 64 / fs.boot.clusterSize

/-- The loop of `read` over the clusters: `want` bytes, the first from `clusterOffset` on. -/
def readLoop : List Nat → Nat → Nat → OpM Unit Bytes
  | [], _, _ => pure []
  | c :: cs, clusterOffset, want =>
    if want = 0 then pure []
    else do
      let data ← vfsCall (fs.readCluster c)
      let copyLen := min (fs.boot.clusterSize - clusterOffset) want
      let rest ← readLoop cs 0 (want - copyLen)
      pure ((data.drop clusterOffset).take copyLen ++ rest)

/-- `read` of up to `len` bytes. -/
def read (s : FileState) (offset len : Nat) : OpM Unit Bytes := do
  if offset ≥ s.size then pure []
  else if s.startCluster < 2 then pure []
  else
    let chain ← ProgM.within FatTable.new
      ((Fat32FileSystem.plainCall (fs.readChain s.startCluster)).mapErr fun _ => .err .ioError)
    readLoop fs (chain.drop (offset / fs.boot.clusterSize)) (offset % fs.boot.clusterSize)
      (min len (s.size - offset))

/-- The loop of `write` over the clusters; returns the bytes written. -/
def writeLoop : List Nat → Nat → Bytes → FileM Nat
  | [], _, _ => pure 0
  | c :: cs, clusterOffset, buf =>
    if buf = [] then pure 0
    else do
      let data ← vfsCall (fs.readCluster c)
      let copyLen := min (fs.boot.clusterSize - clusterOffset) buf.length
      vfsCall (fs.writeCluster c (splice data clusterOffset (buf.take copyLen)))
      let rest ← writeLoop cs 0 (buf.drop copyLen)
      pure (copyLen + rest)

def write (offset : Nat) (buf : Bytes) : FileM Nat :=
  if buf.isEmpty then pure 0
  else do
    let endOffset := (offset + buf.length) % 2 ^ 64
    ensureStart fs
    let chain ← ensureChain fs (clustersFor fs endOffset)
    let bytesWritten ← writeLoop fs (chain.drop (offset / fs.boot.clusterSize))
      (offset % fs.boot.clusterSize) buf
    if endOffset > (← ProgM.get).size then setSize (endOffset % 2 ^ 32)
    let s ← ProgM.get
    vfsCall (f.updateDirEntry fs s.startCluster s.size)
    pure bytesWritten

def truncate (newSize : Nat) : FileM Unit := do
  let newSize := newSize % 2 ^ 32
  let s ← ProgM.get
  if newSize = 0 then
    if s.startCluster ≥ 2 then
      onFat .ioError (fs.freeChain s.startCluster)
      setStart 0
    setSize 0
  else if newSize < s.size then
    if s.startCluster ≥ 2 then
      onFat .ioError (fs.truncateChain s.startCluster (clustersFor fs newSize))
    setSize newSize
  else if newSize > s.size then
    ensureStart fs
    let _ ← ensureChain fs (clustersFor fs newSize)
    setSize newSize
  let s ← ProgM.get
  vfsCall (f.updateDirEntry fs s.startCluster s.size)

end Fat32File

end Kerners.Fat32
