import CipherMachine.Random.Words

set_option autoImplicit false

/-!
Key derivation with the BLAKE3 digest.

The input is cut into chunks of 1024 bytes and each chunk into blocks of 64. The blocks of a
chunk are compressed one after the other, each with the output of the one before as its chaining
value. Chunks are the leaves of a binary tree whose left subtrees are as large as possible and
complete. The digest is the root's output.
-/

namespace CipherMachine.Random.Blake

def initialValue : Vector UInt32 8 :=
  #v[0x6a09e667, 0xbb67ae85, 0x3c6ef372, 0xa54ff53a, 0x510e527f, 0x9b05688c, 0x1f83d9ab,
    0x5be0cd19]

/-- The marks that tell apart what a compression is for. -/
def chunkStart : UInt32 := 1
def chunkEnd : UInt32 := 2
def parent : UInt32 := 4
def root : UInt32 := 8
def deriveKeyContext : UInt32 := 32
def deriveKeyMaterial : UInt32 := 64

def blockSize : Nat := 64

def chunkSize : Nat := 1024

/-- The order in which a round takes the words that the round before took in order. -/
def permutation : Vector (Fin 16) 16 :=
  #v[2, 6, 3, 10, 7, 0, 4, 13, 1, 11, 12, 5, 9, 14, 15, 8]

/-- Mixes two message words into the state words with the given indexes. -/
def mix (s : Vector UInt32 16) (a b c d : Fin 16) (x y : UInt32) : Vector UInt32 16 :=
  mixWords rotateRight s a b c d x y

/-- Mixes all message words into the columns and then the diagonals of the state. -/
def round (s m : Vector UInt32 16) : Vector UInt32 16 :=
  let s := mix s 0 4 8 12 m[0] m[1]
  let s := mix s 1 5 9 13 m[2] m[3]
  let s := mix s 2 6 10 14 m[4] m[5]
  let s := mix s 3 7 11 15 m[6] m[7]
  let s := mix s 0 5 10 15 m[8] m[9]
  let s := mix s 1 6 11 12 m[10] m[11]
  let s := mix s 2 7 8 13 m[12] m[13]
  mix s 3 4 9 14 m[14] m[15]

def rounds : Nat → Vector UInt32 16 → Vector UInt32 16 → Vector UInt32 16
  | 0, s, _ => s
  | n + 1, s, m => rounds n (round s m) (permutation.map fun i => m[i])

/-- A compression that is still to be made. -/
structure Node where
  chaining : Vector UInt32 8
  block : Vector UInt32 16
  counter : UInt64
  /-- Bytes of the block that belong to the input. -/
  length : UInt32
  flags : UInt32

/-- The first eight words of a compression's output, which is the chaining value it hands on. -/
def Node.compress (n : Node) : Vector UInt32 8 :=
  let start : Vector UInt32 16 :=
    (n.chaining ++ initialValue.take 4 ++
      #v[n.counter.toUInt32, (n.counter >>> 32).toUInt32, n.length, n.flags]).cast (by decide)
  let s := rounds 7 start n.block
  Vector.ofFn fun i : Fin 8 => s[i.val] ^^^ s[i.val + 8]

/-- The blocks of a chunk behind a chaining value. All but the last one are compressed; `first`
marks the chunk's first block. -/
def chunkNode (flags : UInt32) (counter : UInt64) (first : UInt32) (chaining : Vector UInt32 8)
    (bytes : List UInt8) : Node :=
  let node : Node :=
    ⟨chaining, wordsOfBytes 16 (bytes.take blockSize), counter,
      UInt32.ofNat (min bytes.length blockSize), flags ||| first⟩
  if bytes.length ≤ blockSize then
    { node with flags := node.flags ||| chunkEnd }
  else
    chunkNode flags counter 0 node.compress (bytes.drop blockSize)
termination_by bytes.length
decreasing_by
  simp only [blockSize, List.length_drop] at *
  omega

def parentNode (key : Vector UInt32 8) (flags : UInt32) (left right : Node) : Node :=
  ⟨key, left.compress ++ right.compress, 0, UInt32.ofNat blockSize, flags ||| parent⟩

/-- The tree over the chunks of an input, the first of which has the given number. The left
subtree takes the largest power of two of chunks that leaves the right one some input. -/
def tree (key : Vector UInt32 8) (flags : UInt32) (counter : Nat) (bytes : List UInt8) : Node :=
  if bytes.length ≤ chunkSize then
    chunkNode flags (UInt64.ofNat counter) chunkStart key bytes
  else
    let left := Nat.pow 2 ((bytes.length - 1) / chunkSize).log2
    parentNode key flags (tree key flags counter (bytes.take (left * chunkSize)))
      (tree key flags (counter + left) (bytes.drop (left * chunkSize)))
termination_by bytes.length
decreasing_by
  all_goals
    have positive : 0 < Nat.pow 2 ((bytes.length - 1) / chunkSize).log2 := Nat.two_pow_pos _
    have bound : Nat.pow 2 ((bytes.length - 1) / chunkSize).log2 ≤ (bytes.length - 1) / chunkSize :=
      Nat.log2_self_le (by simp only [chunkSize] at *; omega)
    simp only [chunkSize, List.length_take, List.length_drop] at *
    omega

/-- The digest of an input under a key, as bytes. -/
def digest (key : Vector UInt32 8) (flags : UInt32) (bytes : List UInt8) : List UInt8 :=
  let node := tree key flags 0 bytes
  ({ node with flags := node.flags ||| root }.compress).toList.flatMap bytesOfWord

/-- The 32 bytes derived from key material for the use that the context names. -/
def deriveKey (context material : List UInt8) : List UInt8 :=
  let key := wordsOfBytes 8 (digest initialValue deriveKeyContext context)
  digest key deriveKeyMaterial material

end CipherMachine.Random.Blake
