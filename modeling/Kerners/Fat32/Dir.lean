import Kerners.Fat32.Boot
import Kerners.Lib.Utf
import Mathlib.Data.List.Sort

/-!
# Directory entries (`src/fs/fat32/dir.rs`)

The 32-byte directory entry with its 8.3 name, and the long-name (LFN) entry.

Strings are lists of characters (`Str`), byte arrays are byte lists; a `DirEntry` carries the
lengths of its two name fields.
-/

namespace Kerners.Fat32

open Lib List

/-! ## Characters -/

def asciiUpper (c : Char) : Char := if 'a' ≤ c ∧ c ≤ 'z' then Char.ofNat (c.toNat - 32) else c

/-- `char::to_ascii_lowercase`. -/
def asciiLower (c : Char) : Char := if 'A' ≤ c ∧ c ≤ 'Z' then Char.ofNat (c.toNat + 32) else c

def eqIgnoreAsciiCase (a b : Str) : Bool := a.map asciiLower == b.map asciiLower

/-- `char as u8`: the low byte of the scalar value. -/
def charByte (c : Char) : UInt8 := .ofNat c.toNat

/-- The parts before and after the last dot (`rfind('.')`); without a dot, all of it and nothing. -/
def splitName (name : Str) : Str × Str :=
  match name.reverse.dropWhile (· ≠ '.') with
  | [] => (name, [])
  | _ :: base => (base.reverse, (name.reverse.takeWhile (· ≠ '.')).reverse)

open List

/-- The first `n` characters as upper-case bytes, padded with blanks. -/
def nameField (n : Nat) (s : Str) : Bytes :=
  ((s.take n).map fun c => charByte (asciiUpper c)) ++ List.replicate (n - s.length) 0x20

@[simp] theorem nameField_length (n : Nat) (s : Str) : (nameField n s).length = n := by
  simp only [nameField, length_append, length_map, length_take, length_replicate]
  omega

/-! ## Entries -/

/-- `attr::DIRECTORY`, `attr::ARCHIVE`, `attr::VOLUME_ID`, `attr::LONG_NAME` and its mask. -/
def attrDirectory : UInt8 := 0x10
@[inherit_doc attrDirectory] def attrArchive : UInt8 := 0x20
@[inherit_doc attrDirectory] def attrVolumeId : UInt8 := 0x08
@[inherit_doc attrDirectory] def attrLongName : UInt8 := 0x0F
@[inherit_doc attrDirectory] def attrLongNameMask : UInt8 := 0x3F

/-- `DirEntry`, with name fields of 8 and 3 bytes. -/
structure DirEntry where
  name : Bytes
  ext : Bytes
  attr : UInt8
  ntRes : UInt8
  crtTimeTenth : UInt8
  crtTime : UInt16
  crtDate : UInt16
  lstAccDate : UInt16
  fstClusHi : UInt16
  wrtTime : UInt16
  wrtDate : UInt16
  fstClusLo : UInt16
  fileSize : UInt32
  name_length : name.length = 8
  ext_length : ext.length = 3
  deriving DecidableEq

namespace DirEntry

def empty : DirEntry where
  name := List.replicate 8 0
  ext := List.replicate 3 0
  attr := 0
  ntRes := 0
  crtTimeTenth := 0
  crtTime := 0
  crtDate := 0
  lstAccDate := 0
  fstClusHi := 0
  wrtTime := 0
  wrtDate := 0
  fstClusLo := 0
  fileSize := 0
  name_length := rfl
  ext_length := rfl

variable (e : DirEntry) {bytes : Bytes} {offset : Nat}

def isLfn : Bool := e.attr &&& attrLongNameMask == attrLongName

def isDir : Bool := e.attr &&& attrDirectory != 0

def isVolumeLabel : Bool := e.attr &&& attrVolumeId != 0 && !e.isLfn

def cluster : Nat := e.fstClusHi.toNat * 2 ^ 16 + e.fstClusLo.toNat

def setCluster (cluster : Nat) : DirEntry :=
  { e with
    fstClusHi := .ofNat (cluster / 2 ^ 16)
    fstClusLo := .ofNat (cluster % 2 ^ 16) }

def shortName : Str :=
  let name := e.name.takeWhile fun c => c ≠ 0x20 ∧ c ≠ 0
  let ext := e.ext.takeWhile fun c => c ≠ 0x20 ∧ c ≠ 0
  if ext.isEmpty then fromUtf8Lossy name else fromUtf8Lossy name ++ '.' :: fromUtf8Lossy ext

def setName (name : Str) : DirEntry :=
  { e with
    name := nameField 8 (splitName name).1
    ext := nameField 3 (splitName name).2
    name_length := nameField_length 8 _
    ext_length := nameField_length 3 _ }

def markDeleted : DirEntry :=
  { e with
    name := e.name.set 0 0xE5
    name_length := by rw [length_set, e.name_length] }

def newFile (name : Str) (cluster size : Nat) : DirEntry :=
  { (empty.setName name).setCluster cluster with
    fileSize := .ofNat size
    attr := attrArchive }

def newDir (name : Str) (cluster : Nat) : DirEntry :=
  { (empty.setName name).setCluster cluster with attr := attrDirectory }

def dotEntry (cluster : Nat) : DirEntry :=
  { empty.setCluster cluster with
    name := 0x2E :: List.replicate 7 0x20
    ext := List.replicate 3 0x20
    attr := attrDirectory
    name_length := rfl
    ext_length := rfl }

def dotdotEntry (parentCluster : Nat) : DirEntry :=
  { empty.setCluster parentCluster with
    name := 0x2E :: 0x2E :: List.replicate 6 0x20
    ext := List.replicate 3 0x20
    attr := attrDirectory
    name_length := rfl
    ext_length := rfl }

def toBytes : Bytes :=
  e.name ++ e.ext ++ [e.attr] ++ [e.ntRes] ++ [e.crtTimeTenth] ++ leBytes 2 e.crtTime.toNat ++
    leBytes 2 e.crtDate.toNat ++ leBytes 2 e.lstAccDate.toNat ++ leBytes 2 e.fstClusHi.toNat ++
    leBytes 2 e.wrtTime.toNat ++ leBytes 2 e.wrtDate.toNat ++ leBytes 2 e.fstClusLo.toNat ++
    leBytes 4 e.fileSize.toNat

def fromBytes (bytes : Bytes) : Option DirEntry :=
  if h : bytes.length < 32 then none
  else some {
    name := bytes.take 8
    ext := (bytes.drop 8).take 3
    attr := bytes.getD 11 0
    ntRes := bytes.getD 12 0
    crtTimeTenth := bytes.getD 13 0
    crtTime := readU16 bytes 14
    crtDate := readU16 bytes 16
    lstAccDate := readU16 bytes 18
    fstClusHi := readU16 bytes 20
    wrtTime := readU16 bytes 22
    wrtDate := readU16 bytes 24
    fstClusLo := readU16 bytes 26
    fileSize := readU32 bytes 28
    name_length := by
      rw [length_take]
      omega
    ext_length := by
      rw [length_take, length_drop]
      omega }

theorem cluster_setCluster {c : Nat} (h : c < 2 ^ 32) : (e.setCluster c).cluster = c := by
  simp only [cluster, setCluster, UInt16.toNat_ofNat']
  omega

/-! ### The codec -/

@[simp] theorem toBytes_length : e.toBytes.length = 32 := by
  simp only [toBytes, length_append, e.name_length, e.ext_length, leBytes_length,
    length_cons, length_nil]

theorem toBytes_head : e.toBytes.getD 0 0 = e.name.getD 0 0 := by
  match hn : e.name, e.name_length with
  | _ :: _, _ => simp [toBytes, hn]

theorem toBytes_attr : e.toBytes.getD 11 0 = e.attr := by
  match hn : e.name, e.name_length, hx : e.ext, e.ext_length with
  | [_, _, _, _, _, _, _, _], _, [_, _, _], _ => simp [toBytes, hn, hx]

theorem fromBytes_toBytes (rest : Bytes) : fromBytes (e.toBytes ++ rest) = some e := by
  obtain ⟨name, ext, attr, ntRes, tenth, ct, cd, la, hi, wt, wd, lo, size, hn, he⟩ := e
  match name, hn, ext, he with
  | [_, _, _, _, _, _, _, _], _, [_, _, _], _ =>
    have h2 : ∀ x : UInt16, UInt16.ofNat (leNat (leBytes 2 x.toNat)) = x := fun x => by
      have hx : x.toNat < 256 ^ 2 := x.toNat_lt
      rw [leNat_leBytes, Nat.mod_eq_of_lt hx, UInt16.ofNat_toNat]
    have h4 : ∀ x : UInt32, UInt32.ofNat (leNat (leBytes 4 x.toNat)) = x := fun x => by
      have hx : x.toNat < 256 ^ 4 := x.toNat_lt
      rw [leNat_leBytes, Nat.mod_eq_of_lt hx, UInt32.ofNat_toNat]
    simp only [leBytes] at h2 h4
    unfold fromBytes
    rw [dif_neg (by rw [length_append, toBytes_length]; omega)]
    simp only [toBytes, leBytes, readU16, readU32, cons_append, nil_append, drop_succ_cons,
      drop_zero, take_succ_cons, take_zero, getD_cons_succ, getD_cons_zero, h2, h4]

theorem leBytes_readU16 (h : offset + 2 ≤ bytes.length) :
    leBytes 2 (readU16 bytes offset).toNat = (bytes.drop offset).take 2 := by
  have hlen : ((bytes.drop offset).take 2).length = 2 := by
    rw [length_take, length_drop]
    omega
  have hlt := leNat_lt ((bytes.drop offset).take 2)
  rw [hlen] at hlt
  have hval : (readU16 bytes offset).toNat = leNat ((bytes.drop offset).take 2) := by
    unfold readU16
    rw [UInt16.toNat_ofNat']
    exact Nat.mod_eq_of_lt hlt
  have hback := leBytes_leNat ((bytes.drop offset).take 2)
  rw [hlen] at hback
  rw [hval, hback]

theorem leBytes_readU32 (h : offset + 4 ≤ bytes.length) :
    leBytes 4 (readU32 bytes offset).toNat = (bytes.drop offset).take 4 := by
  have hlen : ((bytes.drop offset).take 4).length = 4 := by
    rw [length_take, length_drop]
    omega
  have hlt := leNat_lt ((bytes.drop offset).take 4)
  rw [hlen] at hlt
  have hval : (readU32 bytes offset).toNat = leNat ((bytes.drop offset).take 4) := by
    unfold readU32
    rw [UInt32.toNat_ofNat']
    exact Nat.mod_eq_of_lt hlt
  have hback := leBytes_leNat ((bytes.drop offset).take 4)
  rw [hlen] at hback
  rw [hval, hback]

theorem singleton_getD {i : Nat} (h : i < bytes.length) :
    [bytes.getD i 0] = (bytes.drop i).take 1 := by
  rw [drop_eq_getElem_cons h]
  simp only [take_succ_cons, take_zero, getD, getElem?_eq_getElem h, Option.getD_some]

theorem toBytes_fromBytes {e : DirEntry} (h : fromBytes bytes = some e) :
    e.toBytes = bytes.take 32 := by
  unfold fromBytes at h
  split_ifs at h with hlen
  cases h
  have hcat : ∀ m n, bytes.take m ++ (bytes.drop m).take n = bytes.take (m + n) := fun m n =>
    take_add.symm
  simp only [toBytes]
  rw [leBytes_readU16 (by omega), leBytes_readU16 (by omega), leBytes_readU16 (by omega),
    leBytes_readU16 (by omega), leBytes_readU16 (by omega), leBytes_readU16 (by omega),
    leBytes_readU16 (by omega), leBytes_readU32 (by omega), singleton_getD (by omega),
    singleton_getD (by omega), singleton_getD (by omega)]
  simp only [hcat, Nat.reduceAdd]

end DirEntry

structure LfnEntry where
  order : UInt8
  name1 : List UInt16
  attr : UInt8
  entryType : UInt8
  checksum : UInt8
  name2 : List UInt16
  fstClusLo : UInt16
  name3 : List UInt16
  deriving DecidableEq

namespace LfnEntry

/-- `n` two-byte units from `offset` on. -/
def readUnits (bytes : Bytes) (offset n : Nat) : List UInt16 :=
  (List.range n).map fun i => readU16 bytes (offset + i * 2)

def fromBytes (bytes : Bytes) : Option LfnEntry :=
  if bytes.length < 32 then none
  else some {
    order := bytes.getD 0 0
    name1 := readUnits bytes 1 5
    attr := bytes.getD 11 0
    entryType := bytes.getD 12 0
    checksum := bytes.getD 13 0
    name2 := readUnits bytes 14 6
    fstClusLo := readU16 bytes 26
    name3 := readUnits bytes 28 2 }

variable (l : LfnEntry)

def sequence : UInt8 := l.order &&& 0x1F

def nameUnits (units : List UInt16) : List Nat :=
  (units.takeWhile fun c => c ≠ 0 ∧ c ≠ 0xFFFF).map UInt16.toNat

def getNamePart : Str :=
  fromUtf16Lossy (nameUnits l.name1 ++ nameUnits l.name2 ++ nameUnits l.name3)

end LfnEntry

def extractLfnName (lfnEntries : List LfnEntry) : Str :=
  let parts := lfnEntries.map fun l => (l.sequence.toNat, l.getNamePart)
  ((parts.insertionSort fun a b => a.1 ≤ b.1).map Prod.snd).flatten

end Kerners.Fat32
