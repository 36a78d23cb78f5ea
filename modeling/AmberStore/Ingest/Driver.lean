import AmberStore.Fstree.Builder

/-!
# Building files from a filesystem

A regular file becomes blobs and index nodes, and each function returns the
objects it emits, children before parents.
-/

open ByteString

namespace AmberStore.Ingest

open Chunkers (ItemChunker)
open Fstree

/-! ## The filesystem -/

/-- A path, as the names on the way to it. -/
abbrev Path := List Bytes

/-- A filesystem that does not change: opening a file is a function of the
path.  A file that is opened may still fail to be read. -/
structure FileSystem (ε : Type) where
  openFile : Path → Except ε (Except ε Bytes)

/-- Why a build fails. -/
inductive Error (ε : Type)
  | io (op : String) (path : Path) (source : ε)
  | chunkOpts (source : Chunkers.OptionsError)
  | fstree (source : Fstree.Error)
  | noChildren
  deriving DecidableEq

namespace Error

/-- Encoder errors surface unchanged. -/
def fromBuild : BuildError → Error ε
  | .encode source => .fstree source
  | .noChildren => .noChildren

end Error

/-! ## The driver -/

/-- The parameters of a build. -/
structure Driver where
  ic : ItemChunker
  byteOpts : Option Chunkers.ByteOpts

/-- The chunking parameters; zero stands for a default. -/
structure ChunkOpts where
  byte : Option Chunkers.ByteOpts := none
  itemBits : Nat := 0

abbrev defaultItemBits : Nat := 7

/-- A driver with the parameters, unless the bounds of runs overflow. -/
def ChunkOpts.driver (chunk : ChunkOpts) : Option Driver := do
  let bits := if chunk.itemBits = 0 then defaultItemBits else chunk.itemBits
  let ic ← ItemChunker.new bits
  some ⟨ic, chunk.byte⟩

namespace Driver

variable (blake3 : Bytes → Key.Digest Key.size) (hash : Bytes → UInt64)
variable (fs : FileSystem ε) (d : Driver)

/-- Emits a chunk as a blob and adds it to the file's index. -/
def addChunk (ib : IndexBuilder) (chunk : Bytes) :
    Except BuildError (IndexBuilder × List Object) := do
  let obj := encodeBlob blake3 chunk
  let (ib, emitted) ← ib.addChild blake3 hash obj.key []
  .ok (ib, obj :: emitted)

/-- Adds chunks in order. -/
def addChunks (ib : IndexBuilder) : List Bytes →
    Except BuildError (IndexBuilder × List Object)
  | [] => .ok (ib, [])
  | chunk :: rest => do
      let (ib, emitted) ← addChunk blake3 hash ib chunk
      let (ib, later) ← addChunks ib rest
      .ok (ib, emitted ++ later)

/-- A file without chunks has one empty blob. -/
def addEmpty (ib : IndexBuilder) (chunks : List Bytes) :
    Except BuildError (IndexBuilder × List Object) :=
  if chunks.isEmpty then addChunk blake3 hash ib [] else .ok (ib, [])

/-- The index of a file's chunks. -/
def indexChunks (chunks : List Bytes) :
    Except BuildError (Key × List Object) := do
  let (ib, emitted) ← addChunks blake3 hash ⟨d.ic, false, []⟩ chunks
  let (ib, empty) ← addEmpty blake3 hash ib chunks
  let (root, later) ← ib.finish blake3 hash
  .ok (root, emitted ++ empty ++ later)

/-- Builds a regular file. -/
def buildFile (full : Path) : Except (Error ε) (Key × List Object) := do
  let f ← (fs.openFile full).mapError (.io "open" full)
  -- Sizes are checked before anything is read.
  (Chunkers.Resolved.new d.byteOpts).validate.mapError .chunkOpts
  let data ← f.mapError (.io "read" full)
  let chunks ← (Chunkers.splitBytes d.byteOpts data).mapError .chunkOpts
  (indexChunks blake3 hash d chunks).mapError Error.fromBuild

end Driver

end AmberStore.Ingest
