import CodeAtlas.Text.Hex

/-!
# BLAKE3

The hash that recognizes unchanged content. Content is cut into chunks of 1024 bytes, chunks into
blocks of 64; the chunks are the leaves of a binary tree whose left subtrees are full, and the
digest is the first 32 bytes that the root gives.
-/

namespace CodeAtlas.Blake3

abbrev Words := Array UInt32

/-- The initial chaining value. -/
def initial : Words :=
  #[0x6A09E667, 0xBB67AE85, 0x3C6EF372, 0xA54FF53A, 0x510E527F, 0x9B05688C, 0x1F83D9AB, 0x5BE0CD19]

/-- The order in which a round's message words pass to the next round. -/
def schedule : Array Nat := #[2, 6, 3, 10, 7, 0, 4, 13, 1, 11, 12, 5, 9, 14, 15, 8]

def chunkStart : UInt32 := 1
def chunkEnd : UInt32 := 2
def parentNode : UInt32 := 4
def root : UInt32 := 8

def word (ws : Words) (i : Nat) : UInt32 := ws.getD i 0

def rotateRight (x : UInt32) (n : UInt32) : UInt32 := (x >>> n) ||| (x <<< (32 - n))

/-- Mixes two message words into four words of the state. -/
def mix (s : Words) (a b c d : Nat) (x y : UInt32) : Words :=
  let va := word s a + word s b + x
  let vd := rotateRight (word s d ^^^ va) 16
  let vc := word s c + vd
  let vb := rotateRight (word s b ^^^ vc) 12
  let va := va + vb + y
  let vd := rotateRight (vd ^^^ va) 8
  let vc := vc + vd
  let vb := rotateRight (vb ^^^ vc) 7
  (((s.setIfInBounds a va).setIfInBounds b vb).setIfInBounds c vc).setIfInBounds d vd

/-- Mixes the columns of the state and then its diagonals. -/
def round (s m : Words) : Words :=
  let s := mix s 0 4 8 12 (word m 0) (word m 1)
  let s := mix s 1 5 9 13 (word m 2) (word m 3)
  let s := mix s 2 6 10 14 (word m 4) (word m 5)
  let s := mix s 3 7 11 15 (word m 6) (word m 7)
  let s := mix s 0 5 10 15 (word m 8) (word m 9)
  let s := mix s 1 6 11 12 (word m 10) (word m 11)
  let s := mix s 2 7 8 13 (word m 12) (word m 13)
  mix s 3 4 9 14 (word m 14) (word m 15)

def rounds : Nat → Words → Words → Words
  | 0, s, _ => s
  | n + 1, s, m => rounds n (round s m) (schedule.map (word m))

/-- A compression that has not run yet: the last block of a chunk, or two chaining values under a
parent. -/
structure Node where
  chaining : Words
  block : Words
  counter : UInt64
  length : UInt32
  flags : UInt32

/-- The eight words that a node passes on. -/
def Node.compress (n : Node) (extra : UInt32) : Words :=
  let s := n.chaining ++ initial.extract 0 4
    ++ #[n.counter.toUInt32, (n.counter >>> 32).toUInt32, n.length, n.flags ||| extra]
  let s := rounds 7 s n.block
  (Array.range 8).map fun i => word s i ^^^ word s (i + 8)

/-- The words of the block that starts at an offset, zeros after the end of the bytes. -/
def blockWords (bytes : ByteArray) (offset : Nat) : Words :=
  let byte (i : Nat) : UInt32 := if h : i < bytes.size then bytes[i].toUInt32 else 0
  (Array.range 16).map fun w =>
    let i := offset + 4 * w
    byte i ||| (byte (i + 1) <<< 8) ||| (byte (i + 2) <<< 16) ||| (byte (i + 3) <<< 24)

/-- The last block of a chunk whose remaining bytes start at an offset, the blocks before it
compressed into the chaining value. -/
def chunkFrom (bytes : ByteArray) (counter : UInt64) : Nat → Nat → Words → UInt32 → Node
  | blocks, offset, chaining, flag =>
    let left := bytes.size - offset
    let node (length : Nat) (flags : UInt32) : Node :=
      ⟨chaining, blockWords bytes offset, counter, length.toUInt32, flags⟩
    match blocks with
    | 0 => node (min left 64) (flag ||| chunkEnd)
    | more + 1 =>
      if left ≤ 64 then node left (flag ||| chunkEnd)
      else chunkFrom bytes counter more (offset + 64) ((node 64 flag).compress 0) 0

/-- The chunk of a number: at most sixteen blocks. -/
def chunk (bytes : ByteArray) (index : Nat) : Node :=
  chunkFrom bytes index.toUInt64 15 (1024 * index) initial chunkStart

def parent (left right : Node) : Node :=
  ⟨initial, left.compress 0 ++ right.compress 0, 0, 64, parentNode⟩

/-- Joins neighbours under parents; a last node without a neighbour moves up as it is. -/
def joinPairs : List Node → List Node
  | a :: b :: rest => parent a b :: joinPairs rest
  | nodes => nodes

/-- The root over some nodes, level by level. -/
def top : Nat → List Node → Option Node
  | _, [] => none
  | _, [n] => some n
  | 0, n :: _ => some n
  | fuel + 1, nodes => top fuel (joinPairs nodes)

/-- The number of chunks: empty content is one chunk. -/
def chunkCount (size : Nat) : Nat := max 1 ((size + 1023) / 1024)

def wordBytes (w : UInt32) : List UInt8 :=
  [w.toUInt8, (w >>> 8).toUInt8, (w >>> 16).toUInt8, (w >>> 24).toUInt8]

/-- The 32 bytes of the digest. A tree over `n` leaves has at most `n` levels. -/
def digest (bytes : ByteArray) : List UInt8 :=
  let count := chunkCount bytes.size
  match top count ((List.range count).map (chunk bytes)) with
  | some n => (n.compress root).toList.flatMap wordBytes
  | none => []

/-- The digest as 64 hexadecimal digits. -/
def hash (bytes : ByteArray) : String :=
  String.ofList ((digest bytes).flatMap fun b => Text.hexPair b.toNat)

end CodeAtlas.Blake3
