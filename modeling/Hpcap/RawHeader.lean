import Mathlib.Algebra.Group.Nat.Defs
import Mathlib.Data.List.Basic

namespace Hpcap

/-- `RAW_HLEN`, the size of the packed `struct raw_header`. -/
abbrev rawHlen : Nat := 12

/-- `MAX_DESCR_SIZE`, the most a receive descriptor holds. -/
abbrev maxDescrSize : Nat := 2048

/-- `HPCAP_FILESIZE`: 512 blocks of 4 MiB. -/
abbrev hpcapFilesize : Nat := 4 * 1048576 * 512

namespace RawHeader

/-- The `k` low bytes of `n`, least significant first. -/
def littleEndian : Nat → Nat → List UInt8
  | 0, _ => []
  | k + 1, n => UInt8.ofNat n :: littleEndian k (n / 256)

def ofLittleEndian : List UInt8 → Nat
  | [] => 0
  | b :: bs => b.toNat + 256 * ofLittleEndian bs

@[simp] theorem littleEndian_length (k n : Nat) : (littleEndian k n).length = k := by
  induction k generalizing n with
  | zero => rfl
  | succ k ih => simp [littleEndian, ih]

theorem ofLittleEndian_littleEndian (k n : Nat) :
    ofLittleEndian (littleEndian k n) = n % 256 ^ k := by
  induction k generalizing n with
  | zero => simp [littleEndian, ofLittleEndian, Nat.mod_one]
  | succ k ih =>
    have hb : (UInt8.ofNat n).toNat = n % 256 := by simp
    rw [littleEndian, ofLittleEndian, ih, hb, Nat.pow_succ, Nat.mul_comm (256 ^ k) 256,
      Nat.mod_mul]

theorem ofLittleEndian_lt (bs : List UInt8) : ofLittleEndian bs < 256 ^ bs.length := by
  induction bs with
  | nil => exact Nat.one_pos
  | cons b bs ih =>
    have hb := b.toNat_lt
    rw [ofLittleEndian, List.length_cons, Nat.pow_succ]
    omega

theorem littleEndian_ofLittleEndian (bs : List UInt8) :
    littleEndian bs.length (ofLittleEndian bs) = bs := by
  induction bs with
  | nil => rfl
  | cons b bs ih =>
    have hb := b.toNat_lt
    have hlow : UInt8.ofNat (b.toNat + 256 * ofLittleEndian bs) = b := by
      apply UInt8.toNat_inj.mp
      rw [UInt8.toNat_ofNat']
      omega
    have hhigh : (b.toNat + 256 * ofLittleEndian bs) / 256 = ofLittleEndian bs := by omega
    rw [List.length_cons, ofLittleEndian, littleEndian, hlow, hhigh, ih]

theorem ofLittleEndian_uint32 (n : UInt32) : ofLittleEndian (littleEndian 4 n.toNat) = n.toNat := by
  rw [ofLittleEndian_littleEndian]
  exact Nat.mod_eq_of_lt n.toNat_lt

theorem ofLittleEndian_uint16 (n : UInt16) : ofLittleEndian (littleEndian 2 n.toNat) = n.toNat := by
  rw [ofLittleEndian_littleEndian]
  exact Nat.mod_eq_of_lt n.toNat_lt

end RawHeader

/-- What precedes every frame in the stream: time stamp, captured length, length. -/
@[ext] structure RawHeader where
  sec : UInt32
  nsec : UInt32
  caplen : UInt16
  len : UInt16
  deriving DecidableEq, Repr

namespace RawHeader

def toBytes (h : RawHeader) : List UInt8 :=
  littleEndian 4 h.sec.toNat ++ (littleEndian 4 h.nsec.toNat ++
    (littleEndian 2 h.caplen.toNat ++ littleEndian 2 h.len.toNat))

def ofBytes (bs : List UInt8) : RawHeader where
  sec := UInt32.ofNat (ofLittleEndian (bs.take 4))
  nsec := UInt32.ofNat (ofLittleEndian ((bs.drop 4).take 4))
  caplen := UInt16.ofNat (ofLittleEndian ((bs.drop 8).take 2))
  len := UInt16.ofNat (ofLittleEndian ((bs.drop 10).take 2))

@[simp] theorem toBytes_length (h : RawHeader) : h.toBytes.length = rawHlen := by
  simp [toBytes]

theorem ofBytes_toBytes (h : RawHeader) : ofBytes h.toBytes = h := by
  have d4 : h.toBytes.drop 4 = littleEndian 4 h.nsec.toNat ++
      (littleEndian 2 h.caplen.toNat ++ littleEndian 2 h.len.toNat) := List.drop_left' (by simp)
  have d8 : h.toBytes.drop 8 = littleEndian 2 h.caplen.toNat ++ littleEndian 2 h.len.toNat := by
    rw [← List.drop_drop (i := 4) (j := 4), d4]
    exact List.drop_left' (by simp)
  have d10 : h.toBytes.drop 10 = littleEndian 2 h.len.toNat := by
    rw [← List.drop_drop (i := 2) (j := 8), d8]
    exact List.drop_left' (by simp)
  have t : h.toBytes.take 4 = littleEndian 4 h.sec.toNat := List.take_left' (by simp)
  have t' : (littleEndian 2 h.len.toNat).take 2 = littleEndian 2 h.len.toNat :=
    List.take_of_length_le (by simp)
  rw [ofBytes, t, d4, d8, d10, List.take_left' (by simp), List.take_left' (by simp), t']
  simp only [ofLittleEndian_uint32, ofLittleEndian_uint16, UInt32.ofNat_toNat, UInt16.ofNat_toNat]

theorem toBytes_ofBytes {bs : List UInt8} (h : bs.length = rawHlen) : (ofBytes bs).toBytes = bs := by
  have field : ∀ (a k m : Nat), a + k ≤ rawHlen → m = 256 ^ k →
      littleEndian k (ofLittleEndian ((bs.drop a).take k) % m) = (bs.drop a).take k := by
    intro a k m hk hm
    have hlen : ((bs.drop a).take k).length = k := by
      rw [List.length_take, List.length_drop, h]
      omega
    have hback := littleEndian_ofLittleEndian ((bs.drop a).take k)
    have hlt := ofLittleEndian_lt ((bs.drop a).take k)
    rw [hlen] at hback hlt
    rw [hm, Nat.mod_eq_of_lt hlt, hback]
  have hsec := field 0 4 (2 ^ 32) (by decide) (by decide)
  rw [List.drop_zero] at hsec
  have hlast : (bs.drop 10).take 2 = bs.drop 10 :=
    List.take_of_length_le (by rw [List.length_drop, h]; decide)
  have h10 := List.take_append_drop 2 (bs.drop 8)
  have h8 := List.take_append_drop 4 (bs.drop 4)
  rw [List.drop_drop] at h10 h8
  simp only [toBytes, ofBytes, UInt32.toNat_ofNat', UInt16.toNat_ofNat']
  rw [hsec, field 4 4 (2 ^ 32) (by decide) (by decide), field 8 2 (2 ^ 16) (by decide) (by decide),
    field 10 2 (2 ^ 16) (by decide) (by decide), hlast, h10, h8, List.take_append_drop]

/-- `hpcap_is_header_padding`. -/
def hpcapIsHeaderPadding (h : RawHeader) : Bool := h.nsec == 0 && h.sec == 0

theorem hpcapIsHeaderPadding_iff (h : RawHeader) :
    h.hpcapIsHeaderPadding = true ↔ h.nsec = 0 ∧ h.sec = 0 := by
  simp [hpcapIsHeaderPadding]

end RawHeader

/-- A header and as many bytes as it says. -/
structure RawRecord where
  header : RawHeader
  body : List UInt8
  body_length : body.length = header.caplen.toNat

namespace RawRecord

def toBytes (r : RawRecord) : List UInt8 := r.header.toBytes ++ r.body

def isPadding (r : RawRecord) : Bool := r.header.hpcapIsHeaderPadding

@[simp] theorem toBytes_length (r : RawRecord) :
    r.toBytes.length = rawHlen + r.header.caplen.toNat := by
  simp [toBytes, r.body_length]

end RawRecord

end Hpcap
