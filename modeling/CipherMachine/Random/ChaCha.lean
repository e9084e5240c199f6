import CipherMachine.Random.Source
import CipherMachine.Random.Words

set_option autoImplicit false

/-!
The ChaCha20 generator.

The stream is the words of successive blocks under one key, with a block counter of 64 bits and
no nonce. A request for bytes takes whole words; what it leaves of the last word is lost.
-/

namespace CipherMachine

/-- The generator: its key, the number of the next block, and the words of the current block with
the index of the next one among them. -/
structure ChaCha where
  key : Vector UInt32 8
  counter : UInt64
  block : Vector UInt32 16
  next : Nat

namespace ChaCha

open CipherMachine.Random

def quarterRound (s : Vector UInt32 16) (a b c d : Fin 16) : Vector UInt32 16 :=
  mixWords rotateLeft s a b c d 0 0

/-- A round on the columns of the state and one on its diagonals. -/
def doubleRound (s : Vector UInt32 16) : Vector UInt32 16 :=
  let s := quarterRound s 0 4 8 12
  let s := quarterRound s 1 5 9 13
  let s := quarterRound s 2 6 10 14
  let s := quarterRound s 3 7 11 15
  let s := quarterRound s 0 5 10 15
  let s := quarterRound s 1 6 11 12
  let s := quarterRound s 2 7 8 13
  quarterRound s 3 4 9 14

def doubleRounds : Nat → Vector UInt32 16 → Vector UInt32 16
  | 0, s => s
  | n + 1, s => doubleRounds n (doubleRound s)

def constants : Vector UInt32 4 := #v[0x61707865, 0x3320646e, 0x79622d32, 0x6b206574]

def blockAt (key : Vector UInt32 8) (counter : UInt64) : Vector UInt32 16 :=
  let start : Vector UInt32 16 :=
    (constants ++ key ++ #v[counter.toUInt32, (counter >>> 32).toUInt32, 0, 0]).cast (by decide)
  start.zipWith (· + ·) (doubleRounds 10 start)

/-- The generator with the given 32 bytes as its key. -/
def ofSeed (seed : List UInt8) : ChaCha :=
  ⟨wordsOfBytes 8 seed, 0, Vector.replicate 16 0, 16⟩

def nextWord (g : ChaCha) : UInt32 × ChaCha :=
  if available : g.next < 16 then
    (g.block[g.next], { g with next := g.next + 1 })
  else
    let block := blockAt g.key g.counter
    (block[0], { g with counter := g.counter + 1, block := block, next := 1 })

def nextBytes : Nat → ChaCha → List UInt8 × ChaCha
  | 0, g => ([], g)
  | count + 1, g =>
    let (word, g) := g.nextWord
    let (bytes, g) := nextBytes count g
    (bytesOfWord word ++ bytes, g)

theorem length_nextBytes (count : Nat) (g : ChaCha) :
    (nextBytes count g).1.length = 4 * count := by
  induction count generalizing g with
  | zero => rfl
  | succ count ih =>
    simp only [nextBytes, List.length_append, length_bytesOfWord, ih]
    omega

def source : Source ChaCha where
  bytes n g :=
    let (bytes, g) := nextBytes ((n + 3) / 4) g
    (bytes.take n, g)
  length_bytes n g := by
    simp only [List.length_take, length_nextBytes]
    omega

end ChaCha

end CipherMachine
