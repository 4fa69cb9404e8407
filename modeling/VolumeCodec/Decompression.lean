import VolumeCodec.Compression

namespace VolumeCodec

structure Volume where
  dims : Extents
  data : Array Float

def applyCorrections (data : Array Float) (list : List Correction) : Array Float :=
  list.foldl (fun data c => data.modify c.position (· + c.error)) data

def decodeCorrections (memory : Memory) (outline : CorrectionOutline) (bytes : List UInt8) :
    Except Fault (List Correction) :=
  let update : Tape.Update (List Correction) := do
    Tape.load memory bytes outline.row.bitCount
    Corrections.decode memory outline
  (update.on .empty).1

/-- Reads the corrections of a container and applies them. They are for completely decoded values,
so that with a limit they are only read. -/
def readCorrections (memory : Memory) (limit : BitLimit) (data : Array Float) :
    Reader (Array Float) := do
  let outline ← (← CorrectionHeader.read).toOutline
  if outline.length ≠ data.size then
    throw (.badHeader (.correctionLengthMismatch outline.length data.size))
  let bytes ← Reader.block
  if limit.isSome then
    pure data
  else
    pure (applyCorrections data (← decodeCorrections memory outline bytes))

def readWhole (memory : Memory) (limit : BitLimit) : Reader Volume := do
  let preamble ← Preamble.read
  let scale ← Scale.read
  let code ← StoredCode.ofBytes memory (← Reader.block) preamble.dims
  let decoded ← ((decodeReals memory code.outline limit).on code.tape).1
  let data := decoded.coefficients.map (restoreValue scale.mean scale.step)
  if preamble.isCorrected then
    pure ⟨preamble.dims, ← readCorrections memory limit data⟩
  else
    pure ⟨preamble.dims, data⟩

def decompressWhole (memory : Memory) (limit : BitLimit) (bytes : List UInt8) :
    Except Fault Volume :=
  ((readWhole memory limit).from bytes).1

/-- Reads the dimensions of a tiled container, and its tiles with their blocks. A block takes at
least the eight bytes of its length, which bounds the number of tiles before they are listed. -/
def readTiles : Reader (Extents × List (Tile × List UInt8)) := do
  let preamble ← Preamble.read
  if !preamble.isTiled then
    throw (.invalidArgument .notTiled)
  let table ← TileTable.read
  match tileCount preamble.dims table.extents with
  | .error _ => throw (.badHeader (.tileExtents table.extents))
  | .ok expected => do
    if table.count.toNat ≠ expected then
      throw (.badHeader (.tileCount table.count.toNat expected))
    let left := (← get).length
    if left / 8 < expected then
      throw (.truncated (8 * left) (min (64 * expected) ((1 <<< 64) - 1)))
    let blocks ← (← tiles preamble.dims table.extents).mapM fun t => (t, ·) <$> Reader.block
    pure (preamble.dims, blocks)

def decompressTile (memory : Memory) (limit : BitLimit) (total : Nat) (t : Tile)
    (bytes : List UInt8) : Except Fault (Array Float) := do
  let volume ← decompressWhole memory (limit.map fun bits => t.share bits total) bytes
  if volume.dims ≠ t.extent then
    throw (.badHeader (.tileShape volume.dims t.extent))
  pure volume.data

def decompressTiles (memory : Memory) (limit : BitLimit) (bytes : List UInt8) :
    Except Fault Volume := do
  let (dims, blocks) ← (readTiles.from bytes).1
  let values ← blocks.mapM fun (t, block) =>
    (t, ·) <$> decompressTile memory limit dims.volume t block
  memory.requestArray dims.volume 8
  let data := values.foldl (fun data (t, v) => (t.scatter? dims data v).getD data)
    (Array.replicate dims.volume 0)
  pure ⟨dims, data⟩

def decompress (memory : Memory) (limit : BitLimit) (bytes : List UInt8) :
    Except Fault Volume := do
  let preamble ← (Preamble.read.from bytes).1
  if preamble.isTiled then decompressTiles memory limit bytes
  else decompressWhole memory limit bytes

end VolumeCodec
