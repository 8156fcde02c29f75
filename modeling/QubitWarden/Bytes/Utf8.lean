import QubitWarden.Bytes.Block

/-!
# UTF-8

The bytes of a text, and the text of bytes that may not all belong to one.

* `encode`: the bytes of a text.
* `scan`: the characters of a byte string in order, with `none` for each byte that belongs to no
  character. A byte below `0x80` is always itself, so a reader sees delimiters where they are even
  among stray bytes.
* `decode?`: the text of a byte string that is UTF-8 throughout.
* `scan_encode`, `decode?_encode`: the bytes of a text scan as its characters and decode to it, so no
  other text has them (`encode_inj`).
-/

namespace QubitWarden.Utf8

def encode (s : String) : Bytes := s.toByteArray.data.toList

/-- The character that the bytes begin with. -/
def leading? (bytes : Bytes) : Option Char :=
  (ByteArray.mk (bytes.take 4).toArray).utf8DecodeChar? 0

/-- The characters of `bytes` after the first `skip` bytes are dropped. -/
def scanFrom : (skip : Nat) → (bytes : Bytes) → List (Option Char)
  | _, [] => []
  | skip + 1, _ :: rest => scanFrom skip rest
  | 0, byte :: rest =>
    match leading? (byte :: rest) with
    | some c => some c :: scanFrom (c.utf8Size - 1) rest
    | none => none :: scanFrom 0 rest

/-- The characters of a byte string; `none` stands for a byte that belongs to no character. -/
def scan (bytes : Bytes) : List (Option Char) := scanFrom 0 bytes

/-- The text of a byte string, if all its bytes belong to characters. -/
def decode? (bytes : Bytes) : Option String := ((scan bytes).mapM id).map String.ofList

/-! ## Encoding and decoding -/

theorem encode_eq_flatMap (s : String) : encode s = s.toList.flatMap String.utf8EncodeChar := by
  unfold encode
  rw [← String.utf8Encode_toList]
  generalize s.toList = l
  induction l with
  | nil => simp
  | cons c l ih =>
    rw [List.utf8Encode_cons, List.utf8Encode_singleton, List.flatMap_cons, ← ih]
    simp

theorem encode_append (s t : String) : encode (s ++ t) = encode s ++ encode t := by
  rw [encode_eq_flatMap, encode_eq_flatMap, encode_eq_flatMap, String.toList_append,
    List.flatMap_append]

/-- The byte of an ASCII character. -/
def asciiByte (c : Char) : UInt8 := c.val.toUInt8

theorem encode_ofList_ascii {cs : List Char} (h : ∀ c ∈ cs, c.val ≤ 127) :
    encode (String.ofList cs) = cs.map asciiByte := by
  rw [encode_eq_flatMap, String.toList_ofList]
  induction cs with
  | nil => rfl
  | cons c rest ih =>
    obtain ⟨hc, hrest⟩ := List.forall_mem_cons.1 h
    rw [List.flatMap_cons, ih hrest,
      String.utf8EncodeChar_eq_singleton (Char.utf8Size_eq_one_iff.2 hc)]
    rfl

/-- The bytes of a character are read as that character, whatever follows. -/
theorem leading?_append (c : Char) (rest : Bytes) :
    leading? (String.utf8EncodeChar c ++ rest) = some c := by
  have hl : (String.utf8EncodeChar c).length ≤ 4 := by
    rw [String.length_utf8EncodeChar]; exact c.utf8Size_le_four
  have hb : ByteArray.mk ((String.utf8EncodeChar c ++ rest).take 4).toArray =
      (String.utf8EncodeChar c).toByteArray ++
        (rest.take (4 - (String.utf8EncodeChar c).length)).toByteArray := by
    rw [List.take_append, List.take_of_length_le hl]
    apply ByteArray.ext
    simp
  unfold leading?
  rw [hb]
  exact ByteArray.utf8DecodeChar?_utf8EncodeChar_append

theorem scanFrom_length_append (l m : Bytes) : scanFrom l.length (l ++ m) = scanFrom 0 m := by
  induction l with
  | nil => rfl
  | cons b l ih => simpa [scanFrom] using ih

/-- The bytes of a text scan as its characters. -/
theorem scan_encode (s : String) : scan (encode s) = s.toList.map some := by
  rw [encode_eq_flatMap, scan]
  generalize s.toList = l
  induction l with
  | nil => rfl
  | cons c l ih =>
    have h := leading?_append c (l.flatMap String.utf8EncodeChar)
    have hn : (String.utf8EncodeChar c).length = c.utf8Size := String.length_utf8EncodeChar c
    rw [List.flatMap_cons]
    match hb : String.utf8EncodeChar c with
    | [] => exact absurd hb String.utf8EncodeChar_ne_nil
    | b :: bs =>
      rw [hb] at h hn
      rw [List.cons_append] at h ⊢
      have hsize : c.utf8Size - 1 = bs.length := by rw [← hn]; rfl
      rw [scanFrom, h]
      simp only [hsize, scanFrom_length_append, ih, List.map_cons]

/-- A text is read back from its bytes. -/
theorem decode?_encode (s : String) : decode? (encode s) = some s := by
  have hm (l : List Char) : (l.map some).mapM id = some l := by
    induction l with
    | nil => rfl
    | cons c l ih => simp [ih]
  simp [decode?, scan_encode, hm]

theorem encode_inj {s t : String} (h : encode s = encode t) : s = t := by
  have hs := decode?_encode s
  rw [h, decode?_encode] at hs
  exact (Option.some.inj hs).symm

end QubitWarden.Utf8
