import Copper.Foundation.Bytes
import Copper.Foundation.Memory

/-!
# Byte order

`endian.h`: byte swaps, conversions between the order of the host and a fixed one, and loads and stores in a fixed order. What the
header takes from its surroundings are the order of the host (`CPR_BIG_ENDIAN`) and the compiler, whose builtins reverse the bytes
of a word; another compiler gets shifts and masks.
-/

namespace Copper

open Bytes

/-- `CPR_COMPILER_GCC`, `CPR_COMPILER_CLANG` and `CPR_COMPILER_MSVC`, or none of them. -/
inductive Compiler where
  | gcc
  | clang
  | msvc
  | other
  deriving DecidableEq, Repr

/-- `__builtin_bswap16`, `_byteswap_ushort` and their kin. -/
def builtinBswap {w : Nat} (v : BitVec w) : BitVec w := reverse v

/-- The part of `cpr_bswap16` for another compiler; the operands of a shift are promoted to `int`. -/
def bswap16Portable (v : BitVec 16) : BitVec 16 :=
  ((v.setWidth 32 <<< 8) ||| (v.setWidth 32 >>> 8)).setWidth 16

/-- The same of `cpr_bswap32`. -/
def bswap32Portable (v : BitVec 32) : BitVec 32 :=
  ((v &&& 0x000000FF#32) <<< 24) ||| ((v &&& 0x0000FF00#32) <<< 8) |||
    ((v &&& 0x00FF0000#32) >>> 8) ||| ((v &&& 0xFF000000#32) >>> 24)

/-- The same of `cpr_bswap64`. -/
def bswap64Portable (v : BitVec 64) : BitVec 64 :=
  ((v &&& 0x00000000000000FF#64) <<< 56) |||
    ((v &&& 0x000000000000FF00#64) <<< 40) |||
    ((v &&& 0x0000000000FF0000#64) <<< 24) |||
    ((v &&& 0x00000000FF000000#64) <<< 8) |||
    ((v &&& 0x000000FF00000000#64) >>> 8) |||
    ((v &&& 0x0000FF0000000000#64) >>> 24) |||
    ((v &&& 0x00FF000000000000#64) >>> 40) |||
    ((v &&& 0xFF00000000000000#64) >>> 56)

/-- A swap: the builtin of a compiler that has one, else the portable one. -/
def bswap {w : Nat} (portable : BitVec w → BitVec w) (cc : Compiler) (v : BitVec w) : BitVec w :=
  match cc with
  | .gcc | .clang | .msvc => builtinBswap v
  | .other => portable v

/-- `cpr_bswap16`. -/
def bswap16 (cc : Compiler) (v : BitVec 16) : BitVec 16 := bswap bswap16Portable cc v

/-- `cpr_bswap32`. -/
def bswap32 (cc : Compiler) (v : BitVec 32) : BitVec 32 := bswap bswap32Portable cc v

/-- `cpr_bswap64`. -/
def bswap64 (cc : Compiler) (v : BitVec 64) : BitVec 64 := bswap bswap64Portable cc v

variable {w : Nat}

/-- A conversion between the order of the host and little-endian, either way. -/
def convertLe (swap : BitVec w → BitVec w) (host : Order) (v : BitVec w) : BitVec w :=
  match host with
  | .big => swap v
  | .little => v

/-- A conversion between the order of the host and big-endian, either way. -/
def convertBe (swap : BitVec w → BitVec w) (host : Order) (v : BitVec w) : BitVec w :=
  match host with
  | .big => v
  | .little => swap v

variable (host : Order) (cc : Compiler)

def htole16 (v : BitVec 16) : BitVec 16 := convertLe (bswap16 cc) host v
def letoh16 (v : BitVec 16) : BitVec 16 := convertLe (bswap16 cc) host v
def htole32 (v : BitVec 32) : BitVec 32 := convertLe (bswap32 cc) host v
def letoh32 (v : BitVec 32) : BitVec 32 := convertLe (bswap32 cc) host v
def htole64 (v : BitVec 64) : BitVec 64 := convertLe (bswap64 cc) host v
def letoh64 (v : BitVec 64) : BitVec 64 := convertLe (bswap64 cc) host v

def htobe16 (v : BitVec 16) : BitVec 16 := convertBe (bswap16 cc) host v
def betoh16 (v : BitVec 16) : BitVec 16 := convertBe (bswap16 cc) host v
def htobe32 (v : BitVec 32) : BitVec 32 := convertBe (bswap32 cc) host v
def betoh32 (v : BitVec 32) : BitVec 32 := convertBe (bswap32 cc) host v
def htobe64 (v : BitVec 64) : BitVec 64 := convertBe (bswap64 cc) host v
def betoh64 (v : BitVec 64) : BitVec 64 := convertBe (bswap64 cc) host v

/-- A `memcpy` from memory to a word, then a conversion. -/
def loadWord (convert : BitVec w → BitVec w) (m : Memory UInt8) (src : Int) : BitVec w :=
  convert (takeUp host w (m.read src (w / 8)))

/-- A conversion, then a `memcpy` of the word to memory. -/
def storeWord (convert : BitVec w → BitVec w) (m : Memory UInt8) (dst : Int) (v : BitVec w) : Memory UInt8 :=
  m.write dst (layOut host (convert v))

def readLe16 (m : Memory UInt8) (src : Int) : BitVec 16 := loadWord host (letoh16 host cc) m src
def readLe32 (m : Memory UInt8) (src : Int) : BitVec 32 := loadWord host (letoh32 host cc) m src
def readLe64 (m : Memory UInt8) (src : Int) : BitVec 64 := loadWord host (letoh64 host cc) m src
def readBe16 (m : Memory UInt8) (src : Int) : BitVec 16 := loadWord host (betoh16 host cc) m src
def readBe32 (m : Memory UInt8) (src : Int) : BitVec 32 := loadWord host (betoh32 host cc) m src
def readBe64 (m : Memory UInt8) (src : Int) : BitVec 64 := loadWord host (betoh64 host cc) m src

def writeLe16 (m : Memory UInt8) (dst : Int) (v : BitVec 16) : Memory UInt8 := storeWord host (htole16 host cc) m dst v
def writeLe32 (m : Memory UInt8) (dst : Int) (v : BitVec 32) : Memory UInt8 := storeWord host (htole32 host cc) m dst v
def writeLe64 (m : Memory UInt8) (dst : Int) (v : BitVec 64) : Memory UInt8 := storeWord host (htole64 host cc) m dst v
def writeBe16 (m : Memory UInt8) (dst : Int) (v : BitVec 16) : Memory UInt8 := storeWord host (htobe16 host cc) m dst v
def writeBe32 (m : Memory UInt8) (dst : Int) (v : BitVec 32) : Memory UInt8 := storeWord host (htobe32 host cc) m dst v
def writeBe64 (m : Memory UInt8) (dst : Int) (v : BitVec 64) : Memory UInt8 := storeWord host (htobe64 host cc) m dst v

/-! ## Swaps -/

/-- The portable swap of 16 bits reverses the bytes. -/
theorem bswap16Portable_eq (v : BitVec 16) : bswap16Portable v = reverse v := by
  refine eq_reverse (by decide) fun i hi => ?_
  simp only [bswap16Portable, BitVec.getLsbD_setWidth, BitVec.getLsbD_or, BitVec.getLsbD_shiftLeft, BitVec.getLsbD_ushiftRight]
  rcases Nat.lt_or_ge i 8 with hlow | hhigh
  · have hplace : 8 * (16 / 8 - 1 - i / 8) + i % 8 = 8 + i := by omega
    simp [hplace, hi, hlow, show i < 32 by omega, show 8 + i < 32 by omega]
  · have hplace : 8 * (16 / 8 - 1 - i / 8) + i % 8 = i - 8 := by omega
    have hout : v.getLsbD (8 + i) = false := BitVec.getLsbD_of_ge v _ (by omega)
    simp [hplace, hout, hi, show i < 32 by omega, show ¬ i < 8 by omega, show i - 8 < 32 by omega]

/-- Four bytes, each moved to the opposite place. -/
theorem bswap32Portable_eq (v : BitVec 32) : bswap32Portable v = reverse v := by
  have hplaces : bswap32Portable v = place v 0 3 ||| place v 1 2 ||| place v 2 1 ||| place v 3 0 := rfl
  refine eq_reverse (by decide) fun i hi => ?_
  have hplace (k j : Nat) (hk : k < 4) := getLsbD_place (j := j) (show 8 * k + 8 ≤ 32 by omega) v hi
  rw [hplaces, BitVec.getLsbD_or, BitVec.getLsbD_or, BitVec.getLsbD_or, hplace 0 3 (by decide), hplace 1 2 (by decide),
    hplace 2 1 (by decide), hplace 3 0 (by decide)]
  have hbyte : i / 8 = 0 ∨ i / 8 = 1 ∨ i / 8 = 2 ∨ i / 8 = 3 := by omega
  rcases hbyte with h | h | h | h <;> simp [h]

/-- Eight. -/
theorem bswap64Portable_eq (v : BitVec 64) : bswap64Portable v = reverse v := by
  have hplaces : bswap64Portable v = place v 0 7 ||| place v 1 6 ||| place v 2 5 ||| place v 3 4 ||| place v 4 3 |||
      place v 5 2 ||| place v 6 1 ||| place v 7 0 := rfl
  refine eq_reverse (by decide) fun i hi => ?_
  have hplace (k j : Nat) (hk : k < 8) := getLsbD_place (j := j) (show 8 * k + 8 ≤ 64 by omega) v hi
  rw [hplaces, BitVec.getLsbD_or, BitVec.getLsbD_or, BitVec.getLsbD_or, BitVec.getLsbD_or, BitVec.getLsbD_or, BitVec.getLsbD_or,
    BitVec.getLsbD_or, hplace 0 7 (by decide), hplace 1 6 (by decide), hplace 2 5 (by decide), hplace 3 4 (by decide),
    hplace 4 3 (by decide), hplace 5 2 (by decide), hplace 6 1 (by decide), hplace 7 0 (by decide)]
  have hbyte : i / 8 = 0 ∨ i / 8 = 1 ∨ i / 8 = 2 ∨ i / 8 = 3 ∨ i / 8 = 4 ∨ i / 8 = 5 ∨ i / 8 = 6 ∨ i / 8 = 7 := by omega
  rcases hbyte with h | h | h | h | h | h | h | h <;> simp [h]

/-- A swap reverses the bytes with every compiler, if the portable one does. -/
theorem bswap_eq {portable : BitVec w → BitVec w} (h : ∀ v, portable v = reverse v) (cc : Compiler) (v : BitVec w) :
    bswap portable cc v = reverse v := by
  cases cc with
  | other => exact h v
  | _ => rfl

/-! ## Loads and stores -/

variable {swap convert : BitVec w → BitVec w}

/-- `cpr_htole` and `cpr_letoh` turn a word round on a big-endian host. -/
theorem convertLe_eq (h : ∀ v, swap v = reverse v) (host : Order) (v : BitVec w) :
    convertLe swap host v = toOrder host .little v := by
  cases host with
  | little => rfl
  | big => exact h v

/-- `cpr_htobe` and `cpr_betoh` turn it round on a little-endian one. -/
theorem convertBe_eq (h : ∀ v, swap v = reverse v) (host : Order) (v : BitVec w) :
    convertBe swap host v = toOrder host .big v := by
  cases host with
  | little => exact h v
  | big => rfl

/-- A store and a load in a fixed order: the byte for 256^i stands where the order has it, nothing else is written, a load is the
sum of its bytes, and the two undo one another. -/
structure FixedOrder (order : Order) (write : Memory UInt8 → Int → BitVec w → Memory UInt8)
    (read : Memory UInt8 → Int → BitVec w) : Prop where
  stored : ∀ m (dst : Int) v, ∀ i < w / 8, write m dst v (dst + order.index w i) = UInt8.ofNat ((v.toNat >>> (8 * i)) % 256)
  kept : ∀ m (dst : Int) v (b : Int), b < dst ∨ dst + (w / 8 : Nat) ≤ b → write m dst v b = m b
  loaded : ∀ m (src : Int),
    (read m src).toNat = ((List.range (w / 8)).map fun i => (m (src + order.index w i)).toNat * 256 ^ i).sum
  read_write : ∀ m dst v, read (write m dst v) dst = v
  write_read : ∀ m src, write m src (read m src) = m

/-- Words that are turned round where they have to be are stored and loaded in one order on every host. -/
theorem fixedOrder (hw : 8 ∣ w) (host order : Order) (h : ∀ v, convert v = toOrder host order v) :
    FixedOrder order (storeWord host convert) (loadWord host convert) := by
  have hstore (m : Memory UInt8) (dst : Int) (v : BitVec w) : storeWord host convert m dst v = m.write dst (layOut order v) := by
    rw [storeWord, h, layOut_toOrder hw]
  have hload (m : Memory UInt8) (src : Int) : loadWord host convert m src = takeUp order w (m.read src (w / 8)) := by
    rw [loadWord, h, toOrder_takeUp hw host order (Memory.length_read m src _)]
  refine ⟨fun m dst v i hi => ?_, fun m dst v b hb => ?_, fun m src => ?_, fun m dst v => ?_, fun m src => ?_⟩
  · have hindex : order.index w i < (layOut order v).length := by
      rw [length_layOut]
      exact index_lt order hi
    have hitem := getElem?_layOut order v hi
    rw [List.getElem?_eq_getElem hindex, Option.some.injEq] at hitem
    rw [hstore, Memory.write_inside hindex, hitem, ← UInt8.toNat_inj, UInt8.toNat_ofNat', UInt8.toNat_ofNat',
      Nat.shiftRight_eq_div_pow, Nat.pow_mul]
    exact (Nat.mod_mod _ _).symm
  · rw [hstore]
    refine Memory.write_outside ?_
    rwa [length_layOut]
  · rw [hload, Memory.read, toNat_takeUp hw]
  · rw [hload, hstore, ← length_layOut order v, Memory.read_write, takeUp_layOut hw]
  · rw [hstore, hload, layOut_takeUp hw order (Memory.length_read m src _), Memory.write_read]

/-- On every host and with every compiler, the accessors of a width keep to their order, and the portable swaps reverse bytes. -/
theorem endian_laws (host : Order) (cc : Compiler) :
    FixedOrder .little (writeLe16 host cc) (readLe16 host cc) ∧ FixedOrder .big (writeBe16 host cc) (readBe16 host cc) ∧
      FixedOrder .little (writeLe32 host cc) (readLe32 host cc) ∧ FixedOrder .big (writeBe32 host cc) (readBe32 host cc) ∧
      FixedOrder .little (writeLe64 host cc) (readLe64 host cc) ∧ FixedOrder .big (writeBe64 host cc) (readBe64 host cc) ∧
      (∀ v, bswap16Portable v = reverse v) ∧ (∀ v, bswap32Portable v = reverse v) ∧ ∀ v, bswap64Portable v = reverse v := by
  have hswap16 := bswap_eq bswap16Portable_eq cc
  have hswap32 := bswap_eq bswap32Portable_eq cc
  have hswap64 := bswap_eq bswap64Portable_eq cc
  exact ⟨fixedOrder (by decide) host _ (convertLe_eq hswap16 host), fixedOrder (by decide) host _ (convertBe_eq hswap16 host),
    fixedOrder (by decide) host _ (convertLe_eq hswap32 host), fixedOrder (by decide) host _ (convertBe_eq hswap32 host),
    fixedOrder (by decide) host _ (convertLe_eq hswap64 host), fixedOrder (by decide) host _ (convertBe_eq hswap64 host),
    bswap16Portable_eq, bswap32Portable_eq, bswap64Portable_eq⟩

end Copper
