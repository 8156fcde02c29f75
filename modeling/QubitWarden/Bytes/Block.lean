/-!
# Byte strings and blocks

`Bytes` is a byte string and `Block n` one of exactly `n` bytes: the width of a digest, a key or an
identifier is part of its type.

* `Block.ext`: a block is determined by its bytes.
* `Block.ofBytes?_toBytes`: the bytes of a block are accepted and give the block back.
* `littleEndian_length`, `bigEndian_length`: a number written on `n` bytes takes `n` bytes.
-/

namespace QubitWarden

/-- A byte string. -/
abbrev Bytes := List UInt8

/-- A byte string of exactly `n` bytes. -/
structure Block (n : Nat) where
  toBytes : Bytes
  length_toBytes : toBytes.length = n
  deriving DecidableEq

namespace Block

variable {n : Nat}

theorem ext {a b : Block n} (h : a.toBytes = b.toBytes) : a = b := by
  cases a; cases b; cases h; rfl

attribute [simp] length_toBytes

/-- The block of these bytes, if their number is right. -/
def ofBytes? (n : Nat) (bytes : Bytes) : Option (Block n) :=
  if h : bytes.length = n then some ⟨bytes, h⟩ else none

@[simp] theorem ofBytes?_toBytes (b : Block n) : ofBytes? n b.toBytes = some b := by
  simp [ofBytes?]

theorem toBytes_of_ofBytes? {bytes : Bytes} {b : Block n} (h : ofBytes? n bytes = some b) :
    b.toBytes = bytes := by
  unfold ofBytes? at h
  split at h
  · cases h; rfl
  · cases h

/-- The block of `n` zero bytes. -/
def zero (n : Nat) : Block n := ⟨List.replicate n 0, List.length_replicate⟩

instance : Inhabited (Block n) := ⟨zero n⟩

/-- The block whose byte at position `i` is `f i`. -/
def ofFn (f : Fin n → UInt8) : Block n := ⟨List.ofFn f, List.length_ofFn⟩

end Block

/-! ## Numbers on a fixed number of bytes -/

/-- The low `width` bytes of `value`, least significant first. -/
def littleEndian : (width : Nat) → (value : Nat) → Bytes
  | 0, _ => []
  | width + 1, value => UInt8.ofNat (value % 256) :: littleEndian width (value / 256)

/-- The low `width` bytes of `value`, most significant first. -/
def bigEndian (width value : Nat) : Bytes := (littleEndian width value).reverse

@[simp] theorem littleEndian_length (width value : Nat) :
    (littleEndian width value).length = width := by
  induction width generalizing value with
  | zero => rfl
  | succ width ih => simp [littleEndian, ih]

@[simp] theorem bigEndian_length (width value : Nat) : (bigEndian width value).length = width := by
  simp [bigEndian]

end QubitWarden
