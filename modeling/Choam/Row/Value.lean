import Choam.Lib.ByteString

/-!
# Column values

A value of a column is an integer, a text, a byte string, a boolean or NULL. `encodeValue` and
`decodeValue` are the ordinary codec, used for the stored blob of a row: every type decodes what
it encoded and leaves what follows (`decodeValue_encodeValue`), provided that a text or byte
string has fewer than `2 ^ 32` bytes (`Value.Fits`), since its length is kept in 32 bits.
-/

namespace Choam

open ByteString

inductive ColumnType where
  | integer
  | text
  | bytes
  | boolean
  deriving DecidableEq, Repr

inductive Value where
  | integer (v : Int64)
  | text (s : String)
  | bytes (b : Bytes)
  | boolean (b : Bool)
  | null
  deriving DecidableEq

namespace Value

def columnType : Value → Option ColumnType
  | integer _ => some .integer
  | text _ => some .text
  | bytes _ => some .bytes
  | boolean _ => some .boolean
  | null => none

def isNull : Value → Bool
  | null => true
  | _ => false

@[simp] theorem isNull_iff {v : Value} : v.isNull = true ↔ v = null := by
  cases v <;> simp [isNull]

theorem isNull_eq_false {v : Value} : v.isNull = false ↔ v ≠ null := by
  cases v <;> simp [isNull]

end Value

inductive ValueError where
  | typeMismatch (expected : ColumnType) (found : String)
  | truncated (ty : ColumnType)
  | invalidUtf8
  deriving DecidableEq

def kindName : Value → String
  | .integer _ => "Integer"
  | .text _ => "Text"
  | .bytes _ => "Bytes"
  | .boolean _ => "Boolean"
  | .null => "Null"

/-- A 32-bit length, then the bytes. A longer string keeps only the low-order part of its
length. -/
def lengthPrefixed (b : Bytes) : Bytes := le 4 b.length ++ b

/-- The bytes that encoding `value` as `expected` appends. -/
def encodeValue (value : Value) (expected : ColumnType) : Except ValueError Bytes :=
  match value, expected with
  | .integer v, .integer => .ok (be 8 v.toUInt64.toNat)
  | .text s, .text => .ok (lengthPrefixed (utf8 s))
  | .bytes b, .bytes => .ok (lengthPrefixed b)
  | .boolean b, .boolean => .ok [if b then 1 else 0]
  | other, expected => .error (.typeMismatch expected (kindName other))

def decodeLengthPrefixed (data : Bytes) (ty : ColumnType) : Except ValueError (Bytes × Bytes) :=
  if data.length < 4 then
    .error (.truncated ty)
  else
    let len := ofLe (data.take 4)
    if data.length < 4 + len then
      .error (.truncated ty)
    else
      .ok ((data.drop 4).take len, data.drop (4 + len))

/-- Decodes one value of type `expected` from the front of `data`, and returns what follows. -/
def decodeValue (data : Bytes) (expected : ColumnType) : Except ValueError (Value × Bytes) :=
  match expected with
  | .integer =>
    if data.length < 8 then
      .error (.truncated .integer)
    else
      .ok (.integer (UInt64.ofNat (ofBe (data.take 8))).toInt64, data.drop 8)
  | .boolean =>
    match data with
    | [] => .error (.truncated .boolean)
    | b :: rest => .ok (.boolean (b != 0), rest)
  | .text => do
    let (bytes, rest) ← decodeLengthPrefixed data .text
    match fromUtf8 bytes with
    | none => .error .invalidUtf8
    | some s => .ok (.text s, rest)
  | .bytes => do
    let (bytes, rest) ← decodeLengthPrefixed data .bytes
    .ok (.bytes bytes, rest)

/-! ## The codec round-trips -/

/-- The length of a text or byte string fits its 32-bit field. -/
def Value.Fits : Value → Prop
  | .text s => (utf8 s).length < 2 ^ 32
  | .bytes b => b.length < 2 ^ 32
  | _ => True

instance : DecidablePred Value.Fits
  | .text s => inferInstanceAs (Decidable ((utf8 s).length < 2 ^ 32))
  | .bytes b => inferInstanceAs (Decidable (b.length < 2 ^ 32))
  | .integer _ | .boolean _ | .null => inferInstanceAs (Decidable True)

/-- A value encodes exactly at its own type. -/
theorem encodeValue_isOk {v : Value} {ty : ColumnType} :
    (∃ bs, encodeValue v ty = .ok bs) ↔ v.columnType = some ty := by
  cases v <;> cases ty <;> simp [encodeValue, Value.columnType]

/-- A value of another type is refused by name. -/
theorem encodeValue_error {v : Value} {ty : ColumnType} (h : v.columnType ≠ some ty) :
    encodeValue v ty = .error (.typeMismatch ty (kindName v)) := by
  cases v <;> cases ty <;> simp_all [encodeValue, Value.columnType]

theorem decodeLengthPrefixed_append {b : Bytes} (hb : b.length < 2 ^ 32) (rest : Bytes)
    (ty : ColumnType) :
    decodeLengthPrefixed (lengthPrefixed b ++ rest) ty = .ok (b, rest) := by
  have hlen : ofLe ((lengthPrefixed b ++ rest).take 4) = b.length := by
    rw [lengthPrefixed, List.append_assoc, List.take_left' (length_le _ _)]
    exact ofLe_le_of_lt (by simpa using hb)
  have hdrop : (lengthPrefixed b ++ rest).drop 4 = b ++ rest := by
    rw [lengthPrefixed, List.append_assoc, List.drop_left' (length_le _ _)]
  have hall : (lengthPrefixed b ++ rest).length = 4 + b.length + rest.length := by
    simp [lengthPrefixed]
    omega
  unfold decodeLengthPrefixed
  simp only [hlen, hall, hdrop, ← List.drop_drop]
  rw [if_neg (by omega), if_neg (by omega), List.take_left, List.drop_left]

theorem toInt64_be (v : Int64) : (UInt64.ofNat (ofBe (be 8 v.toUInt64.toNat))).toInt64 = v := by
  have hlt : v.toUInt64.toNat < 256 ^ 8 := v.toUInt64.toNat_lt
  rw [ofBe_be, Nat.mod_eq_of_lt hlt, UInt64.ofNat_toNat, Int64.toInt64_toUInt64]

/-- A value that fits decodes to itself, whatever follows it. -/
theorem decodeValue_encodeValue {v : Value} {ty : ColumnType} {bs : Bytes}
    (h : encodeValue v ty = .ok bs) (hv : v.Fits) (rest : Bytes) :
    decodeValue (bs ++ rest) ty = .ok (v, rest) := by
  have hty := encodeValue_isOk.mp ⟨bs, h⟩
  cases v with
  | null => cases hty
  | integer n =>
    obtain rfl : ty = .integer := (Option.some.inj hty).symm
    obtain rfl : be 8 n.toUInt64.toNat = bs := Except.ok.inj h
    have hlen : ¬ (be 8 n.toUInt64.toNat ++ rest).length < 8 := by simp
    rw [decodeValue, if_neg hlen, List.take_left' (length_be _ _), List.drop_left' (length_be _ _),
      toInt64_be]
  | text s =>
    obtain rfl : ty = .text := (Option.some.inj hty).symm
    obtain rfl : lengthPrefixed (utf8 s) = bs := Except.ok.inj h
    simp [decodeValue, decodeLengthPrefixed_append hv, bind, Except.bind]
  | bytes b =>
    obtain rfl : ty = .bytes := (Option.some.inj hty).symm
    obtain rfl : lengthPrefixed b = bs := Except.ok.inj h
    simp [decodeValue, decodeLengthPrefixed_append hv, bind, Except.bind]
  | boolean b =>
    obtain rfl : ty = .boolean := (Option.some.inj hty).symm
    obtain rfl : [if b then 1 else 0] = bs := Except.ok.inj h
    cases b <;> simp [decodeValue]

/-- What decoding returns has the type asked for, and fits. -/
theorem decodeValue_columnType {data rest : Bytes} {ty : ColumnType} {v : Value}
    (h : decodeValue data ty = .ok (v, rest)) : v.columnType = some ty ∧ v.Fits := by
  have hprefix : ∀ {b rest : Bytes}, decodeLengthPrefixed data ty = .ok (b, rest) →
      b.length < 2 ^ 32 := by
    intro b rest hb
    unfold decodeLengthPrefixed at hb
    split at hb
    · cases hb
    simp only at hb
    split at hb
    · cases hb
    cases hb
    have hlt := ofLe_lt (data.take 4)
    have hpow : 256 ^ (data.take 4).length ≤ 256 ^ 4 :=
      Nat.pow_le_pow_right (by decide) (by simp)
    have hcut := List.length_take_le (ofLe (data.take 4)) (data.drop 4)
    omega
  cases ty with
  | integer =>
    simp only [decodeValue] at h
    split at h
    · cases h
    · cases h
      exact ⟨rfl, trivial⟩
  | boolean =>
    simp only [decodeValue] at h
    split at h
    · cases h
    · cases h
      exact ⟨rfl, trivial⟩
  | text =>
    simp only [decodeValue, bind, Except.bind] at h
    split at h
    · cases h
    next p hp =>
    split at h
    · cases h
    next s hs =>
    cases h
    refine ⟨rfl, ?_⟩
    rw [Value.Fits, utf8_of_fromUtf8 hs]
    exact hprefix hp
  | bytes =>
    simp only [decodeValue, bind, Except.bind] at h
    split at h
    · cases h
    next p hp =>
    cases h
    exact ⟨rfl, hprefix hp⟩

end Choam
