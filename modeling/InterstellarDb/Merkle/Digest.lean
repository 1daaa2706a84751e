import Mathlib.Data.BitVec
import InterstellarDb.Foundations.SetFold
import InterstellarDb.Index.Cell

/-!
# Node hashes and item digests

A node hash is a 128-bit word, and hashes are folded by exclusive or: `NodeHash` is the group of
these words, in which every element is its own inverse. The digest of an item is SHA-256 of its
key and payload, cut to the first 128 bits. The hash function comes from another crate and is a
parameter (`Sha256`); digests are compared as numbers.
-/

namespace InterstellarDb

open BigEndian

/-- `NodeHash`, an XOR-foldable `u128`. -/
def NodeHash : Type := BitVec 128

namespace NodeHash

instance : DecidableEq NodeHash := inferInstanceAs (DecidableEq (BitVec 128))

/-- The word as a number. -/
def toNat (h : NodeHash) : ℕ := BitVec.toNat h

/-- A number as a word, `% 2 ^ 128`. -/
def ofNat (n : ℕ) : NodeHash := BitVec.ofNat 128 n

instance : Zero NodeHash := ⟨BitVec.ofNat 128 0⟩

/-- Node hashes add by exclusive or. -/
instance : Add NodeHash := ⟨BitVec.xor⟩

instance : Neg NodeHash := ⟨id⟩

instance : AddCommGroup NodeHash where
  add_assoc := BitVec.xor_assoc
  zero_add _ := BitVec.zero_xor
  add_zero _ := BitVec.xor_zero
  add_comm := BitVec.xor_comm
  neg_add_cancel _ := BitVec.xor_self
  nsmul := nsmulRec
  zsmul := zsmulRec

instance : SelfInverse NodeHash := ⟨fun _ => BitVec.xor_self⟩

theorem toNat_injective : Function.Injective toNat := fun _ _ h => BitVec.eq_of_toNat_eq h

/-- `u128`s compare as numbers. -/
instance : LinearOrder NodeHash := LinearOrder.lift' toNat toNat_injective

theorem toNat_lt (h : NodeHash) : h.toNat < 2 ^ 128 := BitVec.isLt h

@[simp] theorem ofNat_toNat (h : NodeHash) : ofNat h.toNat = h :=
  (BitVec.ofNat_toNat 128 h).trans (BitVec.setWidth_eq _)

/-- `u128::to_be_bytes`. -/
def toBeBytes (h : NodeHash) : Bytes := toBytes 16 h.toNat

/-- `u128::from_be_bytes`. -/
def fromBeBytes (b : Bytes) : NodeHash := ofNat (ofBytes b)

@[simp] theorem length_toBeBytes (h : NodeHash) : h.toBeBytes.length = 16 := length_toBytes _ _

@[simp] theorem fromBeBytes_toBeBytes (h : NodeHash) : fromBeBytes h.toBeBytes = h := by
  rw [fromBeBytes, toBeBytes, ofBytes_toBytes_of_lt (h.toNat_lt.trans_eq (by norm_num)),
    ofNat_toNat]

end NodeHash

/-- The SHA-256 function, its digest read as a big-endian number. -/
class Sha256 where
  digest : Bytes → BitVec 256

/-- A function given by the digests of some inputs. -/
@[reducible] def Sha256.ofTable (t : List (Bytes × BitVec 256)) : Sha256 :=
  ⟨fun b => (t.lookup b).getD 0⟩

/-- The digests of some rows, for concrete runs: the key of zeros with the payloads `a` and `b`,
and the next key with the payload `b`. -/
@[reducible] def sampleDigests : Sha256 := .ofTable [
  (List.replicate 20 0 ++ [0x61],
    0x835506068f1d8335c86c8e41e152a1474b3ea149074bdbdb73d5880ad501bb57),
  (List.replicate 20 0 ++ [0x62],
    0x172c8157253049a0d13526d83e20000177d4dfb415ac3104fba6fe4aeefef87f),
  (List.replicate 19 0 ++ [0x01, 0x62],
    0xb1957cba645dbf50d6e38ebcd7024dc982ecd27174d2c21a7428b79cd15b5fa3)]

variable [Sha256]

/-- `item_digest`: the digest of one stored item, foldable into every node that contains it. -/
def itemDigest (key : Key) (payload : Bytes) : NodeHash :=
  BitVec.extractLsb' 128 128 (Sha256.digest (key.bytes ++ payload))

/-- A row of the store, a key and its payload. -/
abbrev Row := Key × Bytes

/-- The digest of a row. -/
abbrev rowDigest (r : Row) : NodeHash := itemDigest r.1 r.2

/-- The fold of the digests of the rows that lie in a cell. -/
def cellHash (rows : Finset Row) (e : Epoch) (d p : ℕ) : NodeHash :=
  ∑ r ∈ rows with InCell e d p r.1, rowDigest r

end InterstellarDb
