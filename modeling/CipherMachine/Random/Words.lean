set_option autoImplicit false

/-!
Words of 32 bits as the ciphers and digests use them: rotations, mixing, and words from and to
bytes with the least significant byte first.
-/

namespace CipherMachine.Random

/-- Rotates a word to the left by less than its width. -/
def rotateLeft (word : UInt32) (n : UInt32) : UInt32 :=
  (word <<< n) ||| (word >>> (32 - n))

/-- Rotates a word to the right by less than its width. -/
def rotateRight (word : UInt32) (n : UInt32) : UInt32 :=
  (word >>> n) ||| (word <<< (32 - n))

def bytesOfWord (word : UInt32) : List UInt8 :=
  [word.toUInt8, (word >>> 8).toUInt8, (word >>> 16).toUInt8, (word >>> 24).toUInt8]

/-- The word with the given bytes. Bytes that are missing are zero. -/
def wordOfBytes (bytes : List UInt8) : UInt32 :=
  (bytes.take 4).foldr (fun byte word => (word <<< 8) ||| byte.toUInt32) 0

/-- A number of words, taken from bytes that lie one behind the other. -/
def wordsOfBytes (count : Nat) (bytes : List UInt8) : Vector UInt32 count :=
  Vector.ofFn fun i : Fin count => wordOfBytes (bytes.drop (4 * i))

instance neZero_sixteen : @NeZero Nat Zero.ofOfNat0 16 := ⟨by decide⟩

/-- Mixes the words with the given indexes, adding two more words on the way. -/
def mixWords (rotate : UInt32 → UInt32 → UInt32) (s : Vector UInt32 16) (a b c d : Fin 16)
    (x y : UInt32) : Vector UInt32 16 :=
  let s := s.set a (s[a] + s[b] + x)
  let s := s.set d (rotate (s[d] ^^^ s[a]) 16)
  let s := s.set c (s[c] + s[d])
  let s := s.set b (rotate (s[b] ^^^ s[c]) 12)
  let s := s.set a (s[a] + s[b] + y)
  let s := s.set d (rotate (s[d] ^^^ s[a]) 8)
  let s := s.set c (s[c] + s[d])
  s.set b (rotate (s[b] ^^^ s[c]) 7)

theorem length_bytesOfWord (word : UInt32) : (bytesOfWord word).length = 4 := rfl

end CipherMachine.Random
