import Copper.Defs
import Copper.Foundation.Cursor

/-!
# Base64

`base64.c`, function by function. Every read and write goes through a bounds check: a call that reads past its input, past its
output or past the two-entry tail table of the alphabet has no defined result (`none`). A pointer into the input is the list of
the bytes from there on. Words of 24 bits and a few more are natural numbers, since no shift of the source loses bits of a
`uint32_t`.
-/

namespace Copper

/-- `CprBase64Variant`. -/
inductive Base64Variant where
  | std
  | url
  deriving DecidableEq, Repr

/-! ## Alphabet -/

/-- `cpr__base64_char`; past the two entries of the tail table there is nothing to read. -/
def base64Char (v : UInt8) (variant : Base64Variant) : Option UInt8 :=
  if v < 26 then some (65 + v)
  else if v < 52 then some (97 + (v - 26))
  else if v < 62 then some (48 + (v - 52))
  else
    let tail : List UInt8 := if variant = .std then [43, 47] else [45, 95]
    tail[(v - 62).toNat]?

/-- `cpr__base64_charval`. -/
def base64Charval (c : UInt8) (variant : Base64Variant) : Int :=
  if 65 ≤ c ∧ c ≤ 90 then c.toNat - 65
  else if 97 ≤ c ∧ c ≤ 122 then c.toNat - 97 + 26
  else if 48 ≤ c ∧ c ≤ 57 then c.toNat - 48 + 52
  else if variant = .std then
    if c = 43 then 62 else if c = 47 then 63 else -1
  else if c = 45 then 62
  else if c = 95 then 63
  else -1

/-! ## Sizing -/

/-- `cpr_base64e_len`, in `size_t`. -/
def base64eLen {w : Nat} (dataSize : BitVec w) (pad : Bool) : BitVec w :=
  let groups := dataSize / 3
  let rem := dataSize % 3
  let chars :=
    if pad then (groups + (if rem ≠ 0 then 1 else 0)) * 4
    else groups * 4 + (if rem ≠ 0 then rem + 1 else 0)
  chars + 1

/-- `cpr_base64d_len`, in `size_t`. -/
def base64dLen {w : Nat} (textSize : BitVec w) : BitVec w := ((textSize + 3) / 4) * 4

/-! ## Encode -/

/-- `*out++ = cpr__base64_char(v, variant)`. -/
def putChar (variant : Base64Variant) (v : Nat) (out : Cursor UInt8) : Option (Cursor UInt8) :=
  (base64Char (UInt8.ofNat v) variant).bind out.put

/-- The loop of `cpr_base64_encode`, over the bytes from `in + i` on: those it leaves, and the output. -/
def encodeGroups (variant : Base64Variant) : List UInt8 → Cursor UInt8 → Option (List UInt8 × Cursor UInt8)
  | b0 :: b1 :: b2 :: rest, out => do
    let n := b0.toNat <<< 16 ||| b1.toNat <<< 8 ||| b2.toNat
    let out ← putChar variant ((n >>> 18) &&& 0x3F) out
    let out ← putChar variant ((n >>> 12) &&& 0x3F) out
    let out ← putChar variant ((n >>> 6) &&& 0x3F) out
    let out ← putChar variant (n &&& 0x3F) out
    encodeGroups variant rest out
  | rest, out => some (rest, out)

/-- The two branches for a remainder. -/
def encodeTail {w : Nat} (variant : Base64Variant) (pad : Bool) (rem : BitVec w) (rest : List UInt8) (out : Cursor UInt8) :
    Option (Cursor UInt8) :=
  if rem = 1 then do
    let b0 ← rest[0]?
    let n := b0.toNat <<< 16
    let out ← putChar variant ((n >>> 18) &&& 0x3F) out
    let out ← putChar variant ((n >>> 12) &&& 0x3F) out
    if pad then
      let out ← out.put 61
      out.put 61
    else some out
  else if rem = 2 then do
    let b0 ← rest[0]?
    let b1 ← rest[1]?
    let n := b0.toNat <<< 16 ||| b1.toNat <<< 8
    let out ← putChar variant ((n >>> 18) &&& 0x3F) out
    let out ← putChar variant ((n >>> 12) &&& 0x3F) out
    let out ← putChar variant ((n >>> 6) &&& 0x3F) out
    if pad then out.put 61 else some out
  else some out

/-- `cpr_base64_encode`; `buf` is the output buffer, all `buf_size` bytes of it. -/
def base64Encode (p : PtrWidth) (data : DataArg) (buf : Option (List UInt8)) (variant : Base64Variant) (pad : Bool) :
    Option (Outcome (Option (List UInt8)) Bool) :=
  match buf with
  | none => some (.fail none false .errOverflow "NULL argument")
  | some buf =>
    if data.missing then
      some (.fail (some buf) false .errOverflow "NULL argument")
    else
      let dataSize := BitVec.ofNat p.bits data.size
      if buf.length < (base64eLen dataSize pad).toNat then
        some (.fail (some buf) false .errOverflow "buffer too small")
      else do
        let (rest, out) ← encodeGroups variant data.toList (.start buf)
        let rem := dataSize - 1
        let out ← encodeTail variant pad rem rest out
        let out ← out.put 0
        some { result := true, state := some out.cells }

/-! ## Decode -/

/-- What a call of `cpr_base64_decode` leaves: the output buffer, and the value stored to `*out_size`, if one was. -/
structure Decoded where
  buf : Option (List UInt8)
  outSize : Option Nat

/-- How much padding `cpr_base64_decode` finds. -/
def textPad (text : List UInt8) : Nat :=
  if text.length % 4 = 0 ∧ text[text.length - 1]? = some 61 then
    if text[text.length - 2]? = some 61 then 2 else 1
  else 0

/-- The loop of `cpr_base64_decode` over `groups` groups of the text from `text + i` on. An invalid character leaves through the
error exit, with what has been written so far. -/
def decodeGroups (variant : Base64Variant) :
    Nat → List UInt8 → Cursor UInt8 → Option (Except (Cursor UInt8) (List UInt8 × Cursor UInt8))
  | 0, text, out => some (.ok (text, out))
  | g + 1, text, out => do
    let v0 := base64Charval (← text[0]?) variant
    let v1 := base64Charval (← text[1]?) variant
    let v2 := base64Charval (← text[2]?) variant
    let v3 := base64Charval (← text[3]?) variant
    if v0 < 0 ∨ v1 < 0 ∨ v2 < 0 ∨ v3 < 0 then
      some (.error out)
    else
      let n := v0.toNat <<< 18 ||| v1.toNat <<< 12
      let out ← out.put (UInt8.ofNat (n >>> 16))
      let out ← out.put (UInt8.ofNat (n >>> 8))
      let out ← out.put (UInt8.ofNat n)
      decodeGroups variant g (text.drop 4) out

/-- The two branches for the last characters. The first looks its characters up with `cpr__base64_char`. -/
def decodeTail (variant : Base64Variant) (finalChars : Nat) (text : List UInt8) (out : Cursor UInt8) :
    Option (Except (Cursor UInt8) (Cursor UInt8)) :=
  if finalChars = 2 then do
    let v0 ← base64Char (← text[0]?) variant
    let v1 ← base64Char (← text[1]?) variant
    let n := v0.toNat <<< 18 ||| v1.toNat <<< 12
    let out ← out.put (UInt8.ofNat (n >>> 16))
    some (.ok out)
  else if finalChars = 3 then do
    let v0 := base64Charval (← text[0]?) variant
    let v1 := base64Charval (← text[1]?) variant
    let v2 := base64Charval (← text[2]?) variant
    if v0 < 0 ∨ v1 < 0 ∨ v2 < 0 then
      some (.error out)
    else
      let n := v0.toNat <<< 18 ||| v1.toNat <<< 12 ||| v2.toNat <<< 6
      let out ← out.put (UInt8.ofNat (n >>> 16))
      let out ← out.put (UInt8.ofNat (n >>> 8))
      some (.ok out)
  else some (.ok out)

/-- `needed`: no sum or product here can wrap, the text being longer than what it decodes to. -/
def decodedSize (dataLen : Nat) : Nat :=
  dataLen / 4 * 3 + (if dataLen % 4 = 3 then 2 else if dataLen % 4 = 2 then 1 else 0)

/-- `cpr_base64_decode`; `out_size` points somewhere. -/
def base64Decode (text : DataArg) (buf : Option (List UInt8)) (variant : Base64Variant) : Option (Outcome Decoded Bool) :=
  match buf with
  | none => some (.fail ⟨none, none⟩ false .errInvalid "NULL argument")
  | some buf =>
    if text.missing then
      some (.fail ⟨some buf, none⟩ false .errInvalid "NULL argument")
    else if text.size = 0 then
      some { result := true, state := ⟨some buf, some 0⟩ }
    else if text.size % 4 = 1 then
      some (.fail ⟨some buf, none⟩ false .errInvalid "invalid Base64 length")
    else
      let dataLen := text.size - textPad text.toList
      let needed := decodedSize dataLen
      if buf.length < needed then
        some (.fail ⟨some buf, none⟩ false .errOverflow "buffer too small")
      else do
        match ← decodeGroups variant (dataLen / 4) text.toList (.start buf) with
        | .error out => some (.fail ⟨some out.cells, none⟩ false .errInvalid "invalid Base64 character")
        | .ok (rest, out) =>
          match ← decodeTail variant (dataLen % 4) rest out with
          | .error out => some (.fail ⟨some out.cells, none⟩ false .errInvalid "invalid Base64 character")
          | .ok out => some { result := true, state := ⟨some out.cells, some needed⟩ }

/-- The text at the start of a buffer, without its NUL. -/
def cString (buf : List UInt8) : List UInt8 := buf.takeWhile (· ≠ 0)

end Copper
