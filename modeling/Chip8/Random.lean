/-! Random bytes. A key fixes an endless stream of them, by the block function of ChaCha with eight
rounds; a seed stands for a key, and a machine knows its place in the stream. -/

namespace Chip8

namespace ChaCha

abbrev Key := Vector UInt32 8

abbrev State := Vector UInt32 16

def rotateLeft (word amount : UInt32) : UInt32 := word <<< amount ||| word >>> (32 - amount)

def quarterRound (a b c d : Fin 16) (s : State) : State :=
  let s := s.set a (s[a] + s[b])
  let s := s.set d (rotateLeft (s[d] ^^^ s[a]) 16)
  let s := s.set c (s[c] + s[d])
  let s := s.set b (rotateLeft (s[b] ^^^ s[c]) 12)
  let s := s.set a (s[a] + s[b])
  let s := s.set d (rotateLeft (s[d] ^^^ s[a]) 8)
  let s := s.set c (s[c] + s[d])
  s.set b (rotateLeft (s[b] ^^^ s[c]) 7)

def doubleRound (s : State) : State :=
  let s := quarterRound 0 4 8 12 s
  let s := quarterRound 1 5 9 13 s
  let s := quarterRound 2 6 10 14 s
  let s := quarterRound 3 7 11 15 s
  let s := quarterRound 0 5 10 15 s
  let s := quarterRound 1 6 11 12 s
  let s := quarterRound 2 7 8 13 s
  quarterRound 3 4 9 14 s

def initial (key : Key) (number : UInt64) : State :=
  #v[0x61707865, 0x3320646E, 0x79622D32, 0x6B206574,
    key[0], key[1], key[2], key[3], key[4], key[5], key[6], key[7],
    number.toUInt32, (number >>> 32).toUInt32, 0, 0]

def block (key : Key) (number : UInt64) : State :=
  let start := initial key number
  start.zipWith (· + ·) (Nat.repeat doubleRound 4 start)

/-- One step of the congruential generator that spreads a seed over a key. -/
def nextSeed (s : UInt64) : UInt64 := s * 6364136223846793005 + 11634580027462260723

/-- The word that a state of that generator puts out: its upper bits folded together and
rotated by the topmost five. -/
def seedWord (s : UInt64) : UInt32 :=
  let folded := (((s >>> 18) ^^^ s) >>> 27).toUInt32
  let amount := (s >>> 59).toUInt32
  folded >>> amount ||| folded <<< (32 - amount)

def keyOfSeed (seed : UInt64) : Key :=
  .ofFn fun i => seedWord (Nat.repeat nextSeed (i + 1) seed)

end ChaCha

def ChaCha.byte (key : Key) (k : Nat) : UInt8 :=
  ((block key (.ofNat (k / 16))).get ⟨k % 16, Nat.mod_lt k (by decide)⟩).toUInt8

structure RandomStream where
  key : ChaCha.Key
  drawn : Nat := 0
  deriving DecidableEq

namespace RandomStream

def ofSeed (seed : UInt64) : RandomStream := { key := ChaCha.keyOfSeed seed }

def next (r : RandomStream) : UInt8 × RandomStream :=
  (ChaCha.byte r.key r.drawn, { r with drawn := r.drawn + 1 })

end RandomStream

end Chip8
