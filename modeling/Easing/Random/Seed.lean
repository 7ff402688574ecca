/-! # Spreading a seed over a generator's state

A seed of any size is hashed into a pool of four words, every word of the pool
into every other one, and the pool into as many words as a generator asks for.
All words have 32 bits and their arithmetic wraps.
-/

namespace Easing.Random

/-- A word of 32 bits. -/
abbrev Word := BitVec 32

/-- The number of different words, `2 ^ 32`. -/
def wordCount : Nat := 0x100000000

/-- The words of a natural number, the least significant first; zero has one. -/
def words (n : Nat) : List Word :=
  if n < wordCount then [BitVec.ofNat 32 n] else BitVec.ofNat 32 n :: words (n / wordCount)
termination_by n
decreasing_by simp only [wordCount] at *; omega

/-- Hashes a word under a key that changes from word to word by a fixed factor;
the result is the hashed word and the next key. -/
def hash (factor key value : Word) : Word × Word :=
  let next := key * factor
  let scrambled := (value ^^^ key) * next
  (scrambled ^^^ (scrambled >>> 16), next)

/-- Folds a hashed word into a word of the pool. -/
def mix (x y : Word) : Word :=
  let mixed := 0xca01f9dd#32 * x - 0x4973f715#32 * y
  mixed ^^^ (mixed >>> 16)

/-- Four words and the key under which the next word is hashed. -/
structure Pool where
  content : Vector Word 4
  key : Word

namespace Pool

/-- Hashes a word and hands the result to a function of the pool's word at a place. -/
def hashInto (pool : Pool) (combine : Word → Word → Word) (place : Fin 4) (value : Word) : Pool :=
  let (hashed, key) := hash 0x931e8875#32 pool.key value
  ⟨pool.content.set place (combine pool.content[place] hashed), key⟩

/-- The places of a pool in order. -/
def places : List (Fin 4) := [0, 1, 2, 3]

/-- The pool of a seed: the first four words fill it, every word is folded into
every other one, and further words are folded into each. -/
def ofSeed (seed : Nat) : Pool :=
  let entropy := words seed
  let filled := places.foldl
    (fun pool place => pool.hashInto (fun _ hashed => hashed) place (entropy.getD place 0))
    ⟨Vector.replicate 4 0, 0x43b0d7e5#32⟩
  let stirred := (places.flatMap fun source => places.map (source, ·)).foldl
    (fun pool (source, target) =>
      if source = target then pool else pool.hashInto mix target pool.content[source])
    filled
  (entropy.drop 4).foldl
    (fun pool word => places.foldl (fun pool place => pool.hashInto mix place word) pool)
    stirred

/-- The first words that a pool yields, its content hashed in rotation. -/
def output (pool : Pool) (count : Nat) : List Word :=
  ((List.range count).foldl
    (fun (yielded, key) i =>
      let (word, key) := hash 0x58f38ded#32 key (pool.content[Fin.ofNat 4 i])
      (yielded ++ [word], key))
    (([] : List Word), 0x8b51f9dd#32)).1

end Pool

end Easing.Random
