import Mofs.Lib.Bytes

namespace Mofs

open Bytes

abbrev Block := Nat → UInt8

inductive Errno
  | eperm | enoent | eio | enxio | ebadf | enomem | eacces | efault | ebusy | eexist | exdev | enodev
  | enotdir | eisdir | einval | enfile | emfile | efbig | enospc | espipe | erofs | emlink
  | enametoolong | enosys | enotempty | eloop | enotsup
  deriving DecidableEq, Repr

inductive Whence
  | set | cur | «end» | other
  deriving DecidableEq

/-- Arithmetic of `unsigned int`. -/
abbrev u32 (n : Nat) : Nat := n % 4294967296

/-- An `int` is carried as its bit pattern. -/
abbrev isNeg (n : Nat) : Prop := 2147483648 ≤ n

structure Superblock where
  magic : Nat
  holeBlkNum : Nat
  inodeNum : Nat
  dataBlkNum : Nat
  inodeBitmapStart : Nat
  dataBitmapStart : Nat
  inodeTableStart : Nat
  dataRegionStart : Nat
  blkSize : Nat
  deriving DecidableEq, Repr

structure Inode where
  iSize : UInt32
  iLinks : UInt16
  iMode : UInt16
  iUid : UInt32
  iGid : UInt32
  iDataHead : UInt32
  iNrBlocks : UInt32
  iAtime : UInt64
  iMtime : UInt64
  iCtime : UInt64
  reserved : UInt64 × UInt64
  deriving DecidableEq, Repr

/-- What `memset(&inode, 0, sizeof(inode))` leaves. -/
def Inode.zero : Inode := ⟨0, 0, 0, 0, 0, 0, 0, 0, 0, 0, (0, 0)⟩

def inodeBytes : Nat := 64
def direntBytes : Nat := 32
def filenameLen : Nat := 28
def maxFileDataBlocks : Nat := 1024
def rootInodeNum : Nat := 2
def magicNum : Nat := 0x53464F4D

def ftypeDir : Nat := 0o040000
def ftypeReg : Nat := 0o100000

def Inode.isDir (x : Inode) : Bool := x.iMode.toNat &&& ftypeDir != 0

def encodeInode (x : Inode) : List UInt8 :=
  leBytes x.iSize.toNat 4 ++ leBytes x.iLinks.toNat 2 ++ leBytes x.iMode.toNat 2 ++
  leBytes x.iUid.toNat 4 ++ leBytes x.iGid.toNat 4 ++ leBytes x.iDataHead.toNat 4 ++
  leBytes x.iNrBlocks.toNat 4 ++ leBytes x.iAtime.toNat 8 ++ leBytes x.iMtime.toNat 8 ++
  leBytes x.iCtime.toNat 8 ++ leBytes x.reserved.1.toNat 8 ++ leBytes x.reserved.2.toNat 8

def decodeInode (f : Block) (o : Nat) : Inode where
  iSize := .ofNat (leNat f o 4)
  iLinks := .ofNat (leNat f (o + 4) 2)
  iMode := .ofNat (leNat f (o + 6) 2)
  iUid := .ofNat (leNat f (o + 8) 4)
  iGid := .ofNat (leNat f (o + 12) 4)
  iDataHead := .ofNat (leNat f (o + 16) 4)
  iNrBlocks := .ofNat (leNat f (o + 20) 4)
  iAtime := .ofNat (leNat f (o + 24) 8)
  iMtime := .ofNat (leNat f (o + 32) 8)
  iCtime := .ofNat (leNat f (o + 40) 8)
  reserved := (.ofNat (leNat f (o + 48) 8), .ofNat (leNat f (o + 56) 8))

@[simp] theorem length_encodeInode (x : Inode) : (encodeInode x).length = inodeBytes := by
  simp [encodeInode, inodeBytes]

/-- The header and the pointers of an on-disk list node. -/
def nodeNext (f : Block) : Nat := leNat f 0 4
def nodeNrPtrs (f : Block) : Nat := leNat f 4 4
def nodePtrs (f : Block) (n : Nat) : List Nat := (List.range n).map (fun p => leNat f (8 + 4 * p) 4)

def listPtrsPerNode (blkSize : Nat) : Nat := if blkSize ≤ 8 then 0 else (blkSize - 8) / 4

def encodeNode (next : Nat) (ptrs : List Nat) : Block :=
  splice (fun _ => 0) 0 (leBytes next 4 ++ leBytes ptrs.length 4 ++ ptrs.flatMap (fun p => leBytes p 4))

/-- `strcmp(name, component) == 0` for the bytes of a name that starts at offset `o`. -/
def nameEq (f : Block) (o : Nat) (component : List UInt8) : Bool :=
  (List.range component.length).all (fun i => f (o + i) == component.getD i 0) && f (o + component.length) == 0

def direntInode (f : Block) (o : Nat) : Nat := leNat f (o + filenameLen) 4

def encodeDirent (name : List UInt8) (inodeNum : Nat) : List UInt8 :=
  name ++ List.replicate (filenameLen - name.length) 0 ++ leBytes inodeNum 4

def validateLogicalBlkSize (blkSize : Nat) : Except Errno Unit :=
  if blkSize < 512 ∨ 65536 < blkSize then .error .einval
  else if blkSize &&& (blkSize - 1) ≠ 0 then .error .einval
  else .ok ()

theorem decodeInode_congr {f g : Block} {o p : Nat} (h : ∀ i < inodeBytes, f (o + i) = g (p + i)) :
    decodeInode f o = decodeInode g p := by
  have hf (a w : Nat) (hw : a + w ≤ 64) : leNat f (o + a) w = leNat g (p + a) w :=
    leNat_congr fun i hi => by
      simpa only [Nat.add_assoc] using h (a + i) (by simp only [inodeBytes]; omega)
  have h0 := hf 0 4 (by omega)
  simp only [Nat.add_zero] at h0
  simp [decodeInode, h0, hf]

theorem decodeInode_splice_outside {f : Block} {o p : Nat} {bs : List UInt8}
    (h : p + inodeBytes ≤ o ∨ o + bs.length ≤ p) : decodeInode (splice f o bs) p = decodeInode f p :=
  decodeInode_congr fun i hi => splice_outside (by omega)

theorem decodeInode_splice (f : Block) (o : Nat) (x : Inode) : decodeInode (splice f o (encodeInode x)) o = x := by
  simp (disch := simp) only [decodeInode, encodeInode, List.append_assoc, leNat_splice_tail, length_leBytes,
    Nat.add_assoc, Nat.reduceAdd, leNat_splice_head]
  rw [← List.append_nil (leBytes x.reserved.2.toNat 8), leNat_splice_head]
  have h16 (v : UInt16) : UInt16.ofNat (v.toNat % 256 ^ 2) = v := by
    rw [Nat.mod_eq_of_lt (by simpa using v.toNat_lt), UInt16.ofNat_toNat]
  have h32 (v : UInt32) : UInt32.ofNat (v.toNat % 256 ^ 4) = v := by
    rw [Nat.mod_eq_of_lt (by simpa using v.toNat_lt), UInt32.ofNat_toNat]
  have h64 (v : UInt64) : UInt64.ofNat (v.toNat % 256 ^ 8) = v := by
    rw [Nat.mod_eq_of_lt (by simpa using v.toNat_lt), UInt64.ofNat_toNat]
  simp only [h16, h32, h64]

end Mofs
