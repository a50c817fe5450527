import Mathlib

/-!
# Stored objects and their addresses

The store is content addressed: a record is found by the hash of its bytes. Hashes
are taken to be free of collisions, so an address is modelled as the object it
names, and an object that holds the hash of another object holds that object.
`Hash32.zero` is the all-zero hash a new directory carries until its first
checkpoint; it is the address of no record.

Fields that no modelled function reads (mode, owner, times, extended attributes,
the snapshot table of a root) are left out.
-/

namespace Lchfs.Format

abbrev Bytes := List UInt8
abbrev Ino := Nat
abbrev ShardId := Nat
abbrev SegmentId := Nat

/-- The root directory's inode number. -/
def rootDirIno : Ino := 1

inductive InodeKind
  | file
  | directory
  | symlink
  deriving DecidableEq

/-- One chunk of a file. The content hash stands for the bytes it addresses. -/
structure ChunkRef where
  contentHash : Bytes
  logicalOffset : Nat
  len : Nat
  deriving DecidableEq

abbrev IndirectHashList := List ChunkRef

-- Stated once, so that the definitions of all modules share it.
instance : LawfulBEq IndirectHashList := inferInstance

structure DirEntry where
  name : String
  ino : Ino
  kind : InodeKind
  deriving DecidableEq

abbrev DirectoryObject := List DirEntry

/-- What an inode's content is. A directory that no checkpoint has encoded yet holds
the all-zero hash, written `dirEntries none`. -/
inductive ContentRef
  | inline (bytes : Bytes)
  | chunkList (hash : IndirectHashList)
  | dirEntries (hash : Option DirectoryObject)
  | symlinkTarget (target : String)
  deriving DecidableEq

structure InodeObject where
  kind : InodeKind
  size : Nat
  nlink : Nat
  content : ContentRef
  deriving DecidableEq

abbrev InoMap := List (Ino × InodeObject)

structure RootObject where
  inoMap : InoMap
  nextInoCounter : Nat
  shardWatermarks : List Nat
  deriving DecidableEq

/-- The watermark a root records for a shard; a missing entry counts as zero. -/
def RootObject.watermark (root : RootObject) (shard : ShardId) : Nat :=
  root.shardWatermarks.getD shard 0

/-- An address, represented by the object it is the hash of. -/
inductive Hash32
  | zero
  | chunk (bytes : Bytes)
  | indirectHashList (chunks : IndirectHashList)
  | inode (object : InodeObject)
  | directory (entries : DirectoryObject)
  | inoMap (entries : InoMap)
  | root (object : RootObject)
  deriving DecidableEq

/-- The address of a directory's entries. -/
def directoryHash : Option DirectoryObject → Hash32
  | none => .zero
  | some entries => .directory entries

/-- The records an inode's content refers to: a chunk list and its chunks, or the
entries of a directory. -/
def ContentRef.records : ContentRef → List Hash32
  | .inline _ => []
  | .chunkList chunks => .indirectHashList chunks :: chunks.map fun c ↦ .chunk c.contentHash
  | .dirEntries entries => [directoryHash entries]
  | .symlinkTarget _ => []

/-- Every record reachable from a root. -/
def RootObject.reachable (root : RootObject) : List Hash32 :=
  .root root :: .inoMap root.inoMap ::
    root.inoMap.flatMap fun entry ↦ .inode entry.2 :: entry.2.content.records

/-- Routes an inode to its shard: the finalizer of splitmix64, then the remainder. -/
def shardForInode (inodeId : Ino) (shardCount : Nat) : ShardId :=
  let x : UInt64 := .ofNat inodeId
  let x := x ^^^ (x >>> 30)
  let x := x * 0xbf58476d1ce4e5b9
  let x := x ^^^ (x >>> 27)
  let x := x * 0x94d049bb133111eb
  let x := x ^^^ (x >>> 31)
  x.toNat % shardCount

theorem shardForInode_lt (inodeId : Ino) {shardCount : Nat} (h : 0 < shardCount) :
    shardForInode inodeId shardCount < shardCount :=
  Nat.mod_lt _ h

end Lchfs.Format
