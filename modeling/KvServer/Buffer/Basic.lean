import KvServer.Codec.Bytes

/-!
# The ring buffer of `buffer.cpp`

`Buffer` is the byte ring the server uses for a connection's incoming and outgoing bytes and
for the AOF write buffer. Its storage is one heap block of `capacity` bytes. The bytes in use
are `size` cells starting at `head` and wrapping at the end of the block; `tail` is where the
next `append` writes.

A block is a function from positions to bytes, read and written only through `memcpy`. Every
`memcpy` is checked against the bounds of the block it touches, and an operation whose copy
would leave its block returns `none`: that is the model of undefined behaviour, so "returns
`some`" is "no `memcpy` reads or writes outside the current storage".

`size_t` arithmetic is `Nat` arithmetic. The one subtraction of the file that can go below zero
in a state the code reaches, `tail - real_pos` in `get_continuous_data`, wraps as `size_t`
does (`subT`).
-/

namespace KvServer

/-- A heap block of bytes; `new uint8_t[n]` owns cells `0 … n - 1`. -/
abbrev Block := Nat → UInt8

/-- The contents of a fresh `new uint8_t[n]`. C++ leaves them indeterminate; the model fixes
them to zero, and only cells the code has written are ever part of a buffer's content. -/
def Block.fresh : Block := fun _ => 0

/-- `memcpy(dst + off, src, |src|)` into a block of `cap` bytes. -/
def memcpyTo (cap : Nat) (dst : Block) (off : Nat) (src : List UInt8) : Option Block :=
  if off + src.length ≤ cap then
    some fun p => if off ≤ p ∧ p < off + src.length then src.getD (p - off) 0 else dst p
  else none

/-- `memcpy(dst, src + off, n)` out of a block of `cap` bytes. -/
def memcpyFrom (cap : Nat) (src : Block) (off n : Nat) : Option (List UInt8) :=
  if off + n ≤ cap then some ((List.range n).map fun i => src (off + i)) else none

/-- `memcpy(dst + doff, src + soff, n)` from a block of `scap` bytes into one of `dcap`. -/
def blockCopy (scap : Nat) (src : Block) (soff dcap : Nat) (dst : Block) (doff n : Nat) :
    Option Block :=
  memcpyFrom scap src soff n >>= memcpyTo dcap dst doff

/-- Copy `src` into a block at physical position `pos`, continuing at position `0` when it
runs past the end: the pair of `memcpy`s of `append` and of `insert`. -/
def writeWrapped (cap : Nat) (d : Block) (pos : Nat) (src : List UInt8) : Option Block :=
  if pos + src.length > cap then do
    let right := cap - pos
    let left := src.length - right
    let d ← memcpyTo cap d pos (src.take right)
    memcpyTo cap d 0 ((src.drop right).take left)
  else memcpyTo cap d pos src

/-- Read `len` bytes from physical position `pos`, continuing at position `0`: the pair of
`memcpy`s of `peek`. -/
def readWrapped (cap : Nat) (d : Block) (pos len : Nat) : Option (List UInt8) :=
  if pos + len ≤ cap then memcpyFrom cap d pos len
  else do
    let right := cap - pos
    let left := len - right
    let a ← memcpyFrom cap d pos right
    let c ← memcpyFrom cap d 0 left
    pure (a ++ c)

/-- `size_t` subtraction, which wraps below zero. -/
def subT (a b : Nat) : Nat := if b ≤ a then a - b else a + 2 ^ 64 - b

/-- The fields of `class Buffer`. -/
structure Buffer where
  head : Nat
  tail : Nat
  capacity : Nat
  size : Nat
  data : Block

namespace Buffer

/-- `Buffer(size_t capacity = 1024)`. -/
def new (capacity : Nat := 1024) : Buffer :=
  { head := 0, tail := 0, capacity, size := 0, data := Block.fresh }

/-- `Buffer::empty`. -/
def empty (b : Buffer) : Bool := b.size == 0

/-- The copies of `Buffer::resize` into a fresh block of `newCapacity` bytes: `size` bytes
from `head` when `head < tail`, and otherwise the two pieces `[head, capacity)` and
`[0, tail)`, one after the other. -/
def unwrapTo (b : Buffer) (newCapacity : Nat) : Option Block :=
  if b.head < b.tail then
    blockCopy b.capacity b.data b.head newCapacity Block.fresh 0 b.size
  else do
    let right := b.capacity - b.head
    let d ← blockCopy b.capacity b.data b.head newCapacity Block.fresh 0 right
    blockCopy b.capacity b.data 0 newCapacity d right b.tail

/-- `Buffer::resize`: move the bytes to a fresh block of `newCapacity` bytes, unwrapped. -/
def resize (b : Buffer) (newCapacity : Nat) : Option Buffer := do
  let d ← b.unwrapTo newCapacity
  pure { head := 0, tail := b.size, capacity := newCapacity, size := b.size, data := d }

/-- The capacity `append` grows to when `need = len + size` bytes do not fit: twice `need`
below 1 MiB, `need` plus 1 MiB from there on. -/
def growCapacity (need : Nat) : Nat :=
  if need < 1024 * 1024 then need * 2 else need + 1024 * 1024

/-- The growth step of `append`. -/
def reserve (b : Buffer) (len : Nat) : Option Buffer :=
  if len + b.size > b.capacity then b.resize (growCapacity (len + b.size)) else some b

/-- The copy step of `append`: write at `tail`, wrapping at the end of the block. -/
def putTail (b : Buffer) (src : List UInt8) : Option Buffer := do
  let len := src.length
  let d ← writeWrapped b.capacity b.data b.tail src
  let tail := if b.tail + len > b.capacity then len - (b.capacity - b.tail) else b.tail + len
  pure { b with data := d, tail, size := b.size + len }

/-- `Buffer::append`. -/
def append (b : Buffer) (src : List UInt8) : Option Buffer :=
  b.reserve src.length >>= (·.putTail src)

/-- `Buffer::append_u8`. -/
def appendU8 (b : Buffer) (v : UInt8) : Option Buffer := b.append [v]

/-- `Buffer::append_u32`. -/
def appendU32 (b : Buffer) (v : UInt32) : Option Buffer := b.append (u32Bytes v)

/-- `Buffer::append_i64`. -/
def appendI64 (b : Buffer) (v : Int) : Option Buffer := b.append (i64Bytes v)

/-- `Buffer::append_dbl`. -/
def appendDbl (b : Buffer) (v : F64) : Option Buffer := b.append (dblBytes v)

/-- `Buffer::consume`. -/
def consume (b : Buffer) (len : Nat) : Buffer :=
  { b with head := (b.head + len) % b.capacity, size := b.size - len }

/-- The size update of `insert` when the write runs past the current end. -/
def insertExtend (b : Buffer) (pos len : Nat) : Buffer :=
  if pos + len > b.size then
    { b with size := pos + len, tail := (b.head + (pos + len)) % b.capacity }
  else b

/-- `Buffer::insert`: overwrite the bytes at logical offset `pos` in place, extending the
size (and growing the block to twice the new size) when the write runs past the end; a
`pos` at or past the end is ignored. -/
def insert (b : Buffer) (src : List UInt8) (pos : Nat) : Option Buffer :=
  if b.size ≤ pos then some b
  else
    let e := b.insertExtend pos src.length
    if e.size > e.capacity then do
      let g ← e.resize (e.size * 2)
      let d ← writeWrapped g.capacity g.data ((g.head + pos) % g.capacity) src
      pure { g with data := d }
    else do
      let d ← writeWrapped e.capacity e.data ((b.head + pos) % b.capacity) src
      pure { e with data := d }

/-- `Buffer::peek(dst, pos, len)`: the `len` bytes copied into `dst`; `dst` itself when
`pos ≥ size`. -/
def peek (b : Buffer) (dst : List UInt8) (pos len : Nat) : Option (List UInt8) :=
  if b.size ≤ pos then some dst
  else readWrapped b.capacity b.data ((b.head + pos) % b.capacity) len

/-- `Buffer::peek_u32`; the indeterminate initial value of `res` is taken to be zero. -/
def peekU32 (b : Buffer) (pos : Nat) : Option UInt32 :=
  (b.peek (leBytes 4 0) pos 4).map readU32Bytes

/-- `Buffer::copy_data`. -/
def copyData (b : Buffer) (dst : List UInt8) (len : Nat) : Option (List UInt8) :=
  b.peek dst 0 len

/-- `Buffer::get_continuous_data(pos)`: the physical offset of the span (`none` for the null
pointer) and its length. -/
def getContinuousData (b : Buffer) (pos : Nat) : Option Nat × Nat :=
  if b.size ≤ pos then (none, 0)
  else
    let realPos := (b.head + pos) % b.capacity
    if realPos + b.size ≤ b.capacity then (some realPos, subT b.tail realPos)
    else (some realPos, b.capacity - realPos)

/-- `Buffer::operator[]`: the physical cell that holds logical offset `pos`. -/
def index (b : Buffer) (pos : Nat) : Nat := (b.head + pos) % b.capacity

end Buffer

end KvServer
