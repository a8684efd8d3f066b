import Kerners.Fat32.Boot

/-!
# The file allocation table (`src/fs/fat32/fat.rs`)

The methods of `FatTable` as programs on the block device.

* The fields that come from the boot sector are read from the mounted volume `fs`; the two mutexes
  (`next_free_hint`, `free_count`) are the local state `FatTable` of a program. Every operation of
  the file system makes its own `FatTable`, so the mutexes protect nothing across operations.
* Cluster numbers are `u32` values as naturals, arithmetic on them wraps. The buffer of a sector
  holds whole entries, since `is_valid` lets only sector sizes divisible by 4 through.
* The loop of `readChain` has fuel `total_clusters + 2`; its own length check ends it before that.
-/

namespace Kerners.Fat32

open Lib Kerners.Block

def fatFree : Nat := 0

def fatReservedMin : Nat := 0x0FFFFFF0

def fatEocMin : Nat := 0x0FFFFFF8

def fatEoc : Nat := 0x0FFFFFFF

inductive FatError where
  | invalidCluster
  | ioError
  | noSpace
  | corruptedChain
  deriving DecidableEq

/-- `FatTable`: the hint where the search for a free cluster starts and the cached count. -/
structure FatTable where
  nextFreeHint : Nat
  freeCount : Option Nat
  deriving DecidableEq

def FatTable.new : FatTable := ⟨2, none⟩

/-- The calls an operation is made of: `alloc_cluster`, and all others. -/
inductive CallKind where
  | allocCluster
  | other
  deriving DecidableEq

abbrev FatM := DevM Empty FatTable FatError

abbrev FatOp := DevM (Mark CallKind Nat) FatTable FatError

namespace Fat32FileSystem

variable (fs : Fat32FileSystem)

def totalClusters : Nat := fs.boot.totalClusters

/-- One past the last cluster number, `total_clusters + 2`. -/
def endCluster : Nat := (fs.totalClusters + 2) % 2 ^ 32

/-- The sector of the first FAT that holds the entry of `cluster`. -/
def fatSector (cluster : Nat) : Nat :=
  (fs.boot.fatStartSector + cluster * 4 % 2 ^ 32 / fs.boot.sectorSize) % 2 ^ 32

/-- The offset of the entry of `cluster` in its sector. -/
def entryOffset (cluster : Nat) : Nat := cluster * 4 % 2 ^ 32 % fs.boot.sectorSize

/-- The entry at `offset` in the bytes of a sector. -/
def entryAt (buf : Bytes) (offset : Nat) : Nat := leNat ((buf.drop offset).take 4)

/-- The sector with the entry at `offset` set to `value`; its upper four bits are kept. -/
def setEntryAt (buf : Bytes) (offset value : Nat) : Bytes :=
  let old := entryAt buf offset
  splice buf offset (leBytes 4 (old - old % 2 ^ 28 + value % 2 ^ 28))

def readEntry (cluster : Nat) : FatM Nat := do
  if cluster < 2 ∨ cluster ≥ fs.endCluster then ProgM.throw .invalidCluster
  else
    let buf ← (readBlock (fs.fatSector cluster) fs.boot.sectorSize).mapErr fun _ => .ioError
    pure (entryAt buf (fs.entryOffset cluster) % 2 ^ 28)

/-- The loop of `write_entry` over the FAT copies. -/
def writeCopies (cluster value : Nat) : List Nat → FatM Unit
  | [] => pure ()
  | fatNum :: rest => do
    let sector := (fs.fatSector cluster + fatNum * fs.boot.fatSize32.toNat % 2 ^ 32) % 2 ^ 32
    let buf ← (readBlock sector fs.boot.sectorSize).mapErr fun _ => .ioError
    (writeBlock sector (setEntryAt buf (fs.entryOffset cluster) value)).mapErr fun _ => .ioError
    writeCopies cluster value rest

def writeEntry (cluster value : Nat) : FatM Unit :=
  if cluster < 2 ∨ cluster ≥ fs.endCluster then ProgM.throw .invalidCluster
  else fs.writeCopies cluster value (List.range fs.boot.numFats.toNat)

/-- The loop of `read_chain`. -/
def readChainLoop : Nat → List Nat → Nat → FatM (List Nat)
  | 0, _, _ => ProgM.throw .corruptedChain
  | fuel + 1, chain, current =>
    if 2 ≤ current ∧ current < fatReservedMin then do
      let next ← fs.readEntry current
      if (chain ++ [current]).length > fs.totalClusters then ProgM.throw .corruptedChain
      else readChainLoop fuel (chain ++ [current]) next
    else pure chain

def readChain (startCluster : Nat) : FatM (List Nat) :=
  fs.readChainLoop (fs.totalClusters + 2) [] startCluster

/-- The search of `alloc_cluster` over the given clusters. -/
def allocFrom : List Nat → FatM (Option Nat)
  | [] => pure none
  | cluster :: rest => do
    if (← fs.readEntry cluster) = fatFree then
      fs.writeEntry cluster fatEoc
      let fat ← ProgM.get
      ProgM.set ⟨cluster + 1, fat.freeCount.map (· - 1)⟩
      pure (some cluster)
    else allocFrom rest

/-- `alloc_cluster`: from the hint to the end, then from the start to the hint. -/
def allocCluster : FatM Nat := do
  let start := (← ProgM.get).nextFreeHint
  match ← fs.allocFrom (List.range' start (fs.endCluster - start)) with
  | some cluster => pure cluster
  | none =>
    match ← fs.allocFrom (List.range' 2 (start - 2)) with
    | some cluster => pure cluster
    | none => ProgM.throw .noSpace

def freeCluster (cluster : Nat) : FatM Unit := do
  fs.writeEntry cluster fatFree
  let fat ← ProgM.get
  ProgM.set ⟨min cluster fat.nextFreeHint, fat.freeCount.map fun n => (n + 1) % 2 ^ 32⟩

/-! ## Methods made of several calls -/

def plainCall {σ ε α : Type} (m : DevM Empty σ ε α) : DevM (Mark CallKind Nat) σ ε α :=
  ProgM.call .other (fun _ => []) m

/-- The call of `alloc_cluster`. -/
def allocCall : FatOp Nat :=
  ProgM.call .allocCluster (fun r => match r with | .ok c => [c] | .error _ => []) fs.allocCluster

/-- Free the clusters and ignore errors, the rollback of `alloc_clusters`. -/
def freeIgnoring : List Nat → FatOp Unit
  | [] => pure ()
  | c :: cs => do
    let _ ← (plainCall (fs.freeCluster c)).attempt
    freeIgnoring cs

/-- The loop of `alloc_clusters`: `n` more clusters behind the nonempty list `first :: clusters`. -/
def allocMore : Nat → Nat → List Nat → FatOp (List Nat)
  | 0, first, clusters => pure (first :: clusters)
  | n + 1, first, clusters => do
    match ← fs.allocCall.attempt with
    | .ok cluster =>
      plainCall (fs.writeEntry ((first :: clusters).getLast (by simp)) cluster)
      allocMore n first (clusters ++ [cluster])
    | .error e =>
      fs.freeIgnoring (first :: clusters)
      ProgM.throw e

def allocClusters (count : Nat) : FatOp (List Nat) :=
  if count = 0 then pure []
  else do
    let first ← fs.allocCall
    fs.allocMore (count - 1) first []

def freeAll : List Nat → FatOp Unit
  | [] => pure ()
  | c :: cs => do
    plainCall (fs.freeCluster c)
    freeAll cs

def freeChain (startCluster : Nat) : FatOp Unit := do
  let chain ← plainCall (fs.readChain startCluster)
  fs.freeAll chain

def extendChain (lastCluster count : Nat) : FatOp (List Nat) := do
  let newClusters ← fs.allocClusters count
  match newClusters with
  | [] => pure ()
  | first :: _ => plainCall (fs.writeEntry lastCluster first)
  pure newClusters

def truncateChain (startCluster keepCount : Nat) : FatOp Unit := do
  let chain ← plainCall (fs.readChain startCluster)
  if keepCount ≥ chain.length then pure ()
  else if keepCount = 0 then fs.freeChain startCluster
  else
    plainCall (fs.writeEntry (chain.getD (keepCount - 1) 0) fatEoc)
    fs.freeAll (chain.drop keepCount)

end Fat32FileSystem

end Kerners.Fat32
