/-!
The BLAKE3 hash, without a key and with the usual 32 byte output. A message is cut into chunks of
1024 bytes and a chunk into blocks of 64; the chunks are the leaves of a binary tree whose left
subtrees are complete and as large as possible.
-/

set_option autoImplicit false

namespace Arithmetization.Digest.Blake3

/-! ## The compression function -/

/-- The sixteen words of a block, or of the state while a block is mixed in. -/
abbrev Words := Array UInt32

/-- The initial chaining value. -/
def iv : Words :=
  #[0x6A09E667, 0xBB67AE85, 0x3C6EF372, 0xA54FF53A, 0x510E527F, 0x9B05688C, 0x1F83D9AB, 0x5BE0CD19]

/-- The order in which a round takes the words of the round before. -/
def permutation : List Nat :=
  [2, 6, 3, 10, 7, 0, 4, 13, 1, 11, 12, 5, 9, 14, 15, 8]

/-- Marks on a compression: where in the tree it stands. -/
def chunkStart : UInt32 := 1
def chunkEnd : UInt32 := 2
def parentMark : UInt32 := 4
def rootMark : UInt32 := 8

/-- Word `i` of a list of words. -/
def word (ws : Words) (i : Nat) : UInt32 :=
  ws.getD i 0

/-- Rotate right by `n` bits, `0 < n < 32`. -/
def rotr (x n : UInt32) : UInt32 :=
  (x >>> n) ||| (x <<< (32 - n))

/-- Mix two message words into four words of the state. -/
def mix (v : Words) (a b c d : Nat) (x y : UInt32) : Words :=
  let va := word v a + word v b + x
  let vd := rotr (word v d ^^^ va) 16
  let vc := word v c + vd
  let vb := rotr (word v b ^^^ vc) 12
  let va := va + vb + y
  let vd := rotr (vd ^^^ va) 8
  let vc := vc + vd
  let vb := rotr (vb ^^^ vc) 7
  (((v.setIfInBounds a va).setIfInBounds b vb).setIfInBounds c vc).setIfInBounds d vd

/-- One round: the columns of the state, then its diagonals. -/
def round (v m : Words) : Words :=
  let v := mix v 0 4 8 12 (word m 0) (word m 1)
  let v := mix v 1 5 9 13 (word m 2) (word m 3)
  let v := mix v 2 6 10 14 (word m 4) (word m 5)
  let v := mix v 3 7 11 15 (word m 6) (word m 7)
  let v := mix v 0 5 10 15 (word m 8) (word m 9)
  let v := mix v 1 6 11 12 (word m 10) (word m 11)
  let v := mix v 2 7 8 13 (word m 12) (word m 13)
  mix v 3 4 9 14 (word m 14) (word m 15)

/-- A message block reordered for the next round. -/
def permute (m : Words) : Words :=
  (permutation.map (word m)).toArray

/-- Mix a block into a state, round after round. -/
def rounds : Nat → Words → Words → Words
  | 0, v, _ => v
  | n + 1, v, m => rounds n (round v m) (permute m)

/-- The chaining value after a block: `counter` is the number of the chunk, `length` the number of
message bytes in the block. -/
def compress (chaining block : Words) (counter : Nat) (length : Nat) (marks : UInt32) : Words :=
  let v := chaining ++ iv.extract 0 4 ++
    #[UInt32.ofNat counter, UInt32.ofNat (counter >>> 32), UInt32.ofNat length, marks]
  let v := rounds 7 v block
  ((List.range 8).map fun i => word v i ^^^ word v (i + 8)).toArray

/-! ## Blocks and chunks -/

/-- Four bytes as a little-endian word; missing bytes are zero. -/
def wordOfBytes (bytes : List UInt8) : UInt32 :=
  bytes.foldr (fun b w => w <<< 8 ||| b.toUInt32) 0

/-- The words of at most `4 * n` bytes, filled up with zeros. -/
def wordsOfBytes : Nat → List UInt8 → List UInt32
  | 0, _ => []
  | n + 1, bytes => wordOfBytes (bytes.take 4) :: wordsOfBytes n (bytes.drop 4)

/-- The sixteen words of a block. -/
def blockOfBytes (bytes : List UInt8) : Words :=
  (wordsOfBytes 16 bytes).toArray

/-- Cut bytes into pieces of `size`, the last one shorter; nothing is one empty piece. -/
def pieces (size : Nat) : Nat → List UInt8 → List (List UInt8)
  | 0, bytes => [bytes]
  | n + 1, bytes =>
    if bytes.length ≤ size then [bytes] else bytes.take size :: pieces size n (bytes.drop size)

/-- The chaining value after the blocks of a chunk. The first block has the mark `chunkStart`, the
last one `chunkEnd` and whatever the tree adds. -/
def chunkBlocks (counter : Nat) (last : UInt32) : Words → UInt32 → List (List UInt8) → Words
  | chaining, _, [] => chaining
  | chaining, start, [block] =>
    compress chaining (blockOfBytes block) counter block.length (start ||| chunkEnd ||| last)
  | chaining, start, block :: rest =>
    chunkBlocks counter last (compress chaining (blockOfBytes block) counter block.length start) 0
      rest

/-- The chaining value of a chunk. -/
def chunk (counter : Nat) (last : UInt32) (bytes : List UInt8) : Words :=
  chunkBlocks counter last iv chunkStart (pieces 64 bytes.length bytes)

/-! ## The tree -/

/-- The chaining value of an inner node. -/
def parent (left right : Words) (marks : UInt32) : Words :=
  compress iv (left ++ right) 0 64 (parentMark ||| marks)

/-- The number of leaves on the left of a tree with `n` leaves, `2 ≤ n`: the largest power of two
below `n`. -/
def leftLeaves (n : Nat) : Nat :=
  1 <<< Nat.log2 (n - 1)

/-- The chaining value of the tree over some chunks, the first of which has the number `counter`.
A tree of `n` chunks is less than `n` deep. -/
def tree : Nat → Nat → UInt32 → List (List UInt8) → Words
  | _, counter, marks, [] => chunk counter marks []
  | _, counter, marks, [bytes] => chunk counter marks bytes
  | 0, _, _, _ => iv
  | depth + 1, counter, marks, chunks =>
    let n := leftLeaves chunks.length
    parent (tree depth counter 0 (chunks.take n)) (tree depth (counter + n) 0 (chunks.drop n)) marks

/-- The bytes of a word, the lowest first. -/
def bytesOfWord (w : UInt32) : List UInt8 :=
  [w.toUInt8, (w >>> 8).toUInt8, (w >>> 16).toUInt8, (w >>> 24).toUInt8]

/-- The 32 byte digest of a message. -/
def hash (message : List UInt8) : List UInt8 :=
  let chunks := pieces 1024 message.length message
  (tree chunks.length 0 rootMark chunks).toList.flatMap bytesOfWord

end Arithmetization.Digest.Blake3
