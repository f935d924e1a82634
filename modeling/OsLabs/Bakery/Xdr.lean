/-
# A `struct BAKERY` on the wire

`xdr_BAKERY` of `bakery_xdr.c`, the same in `3/proc/bakery1` and `3/proc/bakery2`, is one filter
for both directions: it writes `num`, `pid` and `res` of a record, or reads them.  `xdr_int` takes
the four bytes of an `int`, the highest first; `xdr_char` takes a `char` as an `int` and, reading,
keeps the low byte of what it gets.  So a record takes twelve bytes of which a reader ignores
three (`xdr_BAKERY_wire`).
-/
import OsLabs.Lib.Codec

namespace OsLabs.Bakery.Xdr

/-- `struct BAKERY` of `bakery.h`. -/
structure BAKERY where
  num : Int32
  pid : Int32
  res : Int8
deriving DecidableEq, Repr

def xdrInt : Codec Int32 :=
  Codec.word32.retract Int32.toUInt32 UInt32.toInt32 Int32.toInt32_toUInt32

def xdrChar : Codec Int8 := xdrInt.retract Int8.toInt32 Int32.toInt8 Int8.toInt8_toInt32

def xdrBAKERY : Codec BAKERY :=
  ((xdrInt.seq xdrInt).seq xdrChar).retract (fun v => ((v.num, v.pid), v.res))
    (fun p => ⟨p.1.1, p.1.2, p.2⟩) fun _ => rfl

/-! ## 1. One field -/

theorem xdrInt_decode_iff {x : Int32} {bs rest : List UInt8} :
    xdrInt.decode bs = some (x, rest) ↔ bs = xdrInt.encode x ++ rest := by
  constructor
  · intro h
    obtain ⟨front, rfl, hlen, hx⟩ := xdrInt.decode_eq_some_iff.mp h
    have hw : Codec.ofBytes32 front = x.toUInt32 :=
      (UInt32.toUInt32_toInt32 _).symm.trans (congrArg Int32.toUInt32 hx)
    have hfront : front = Codec.bytes32 x.toUInt32 := by
      rw [← hw, Codec.bytes32_ofBytes32 hlen]
    rw [hfront]
    rfl
  · rintro rfl
    exact xdrInt.decode_append x rest

/-- The `char` that is read off four bytes is the last of them. -/
theorem xdrChar_value (a b c d : UInt8) : xdrChar.value [a, b, c, d] = d.toInt8 := by
  have hlow : (Codec.ofBytes32 [a, b, c, d]).toNat % 2 ^ 8 = d.toNat := by
    have hd := d.toNat_lt
    simp only [Codec.ofBytes32, UInt32.toNat_ofNat']
    omega
  apply Int8.toBitVec.inj
  apply BitVec.eq_of_toNat_eq
  have hval : (xdrChar.value [a, b, c, d]).toBitVec =
      (Codec.ofBytes32 [a, b, c, d]).toBitVec.signExtend 8 := rfl
  rw [hval, BitVec.signExtend_eq_setWidth_of_le _ (by decide), BitVec.toNat_setWidth,
    UInt32.toNat_toBitVec, hlow]
  rfl

theorem xdrChar_decode_iff {r : Int8} {bs rest : List UInt8} :
    xdrChar.decode bs = some (r, rest) ↔ ∃ a b c, bs = [a, b, c, r.toUInt8] ++ rest := by
  constructor
  · intro h
    obtain ⟨front, rfl, hlen, hr⟩ := xdrChar.decode_eq_some_iff.mp h
    obtain ⟨a, b, c, d, rfl⟩ := List.length_eq_four.mp hlen
    rw [xdrChar_value] at hr
    exact ⟨a, b, c, by rw [← hr, UInt8.toUInt8_toInt8]⟩
  · rintro ⟨a, b, c, rfl⟩
    rw [xdrChar.decode_of_length rfl, xdrChar_value, Int8.toInt8_toUInt8]

/-! ## 2. The record -/

/-- `xdr_BAKERY`, reading: one filter after the other. -/
theorem xdrBAKERY_decode (bs : List UInt8) : xdrBAKERY.decode bs =
    (xdrInt.decode bs).bind fun num => (xdrInt.decode num.2).bind fun pid =>
      (xdrChar.decode pid.2).map fun res => (⟨num.1, pid.1, res.1⟩, res.2) := by
  rw [xdrBAKERY, Codec.retract_decode, Codec.seq_decode, Codec.seq_decode]
  cases xdrInt.decode bs with
  | none => rfl
  | some num =>
    simp only [Option.bind_some]
    cases xdrInt.decode num.2 with
    | none => rfl
    | some pid =>
      simp only [Option.map_some, Option.bind_some, Option.map_map]
      rfl

theorem xdrBAKERY_decode_iff {v : BAKERY} {bs rest : List UInt8} :
    xdrBAKERY.decode bs = some (v, rest) ↔ ∃ a b c,
      bs = xdrInt.encode v.num ++ xdrInt.encode v.pid ++ [a, b, c, v.res.toUInt8] ++ rest := by
  rw [xdrBAKERY_decode]
  constructor
  · intro h
    obtain ⟨⟨num, bs₁⟩, h₁, h⟩ := Option.bind_eq_some_iff.mp h
    obtain ⟨⟨pid, bs₂⟩, h₂, h⟩ := Option.bind_eq_some_iff.mp h
    obtain ⟨⟨res, bs₃⟩, h₃, h⟩ := Option.map_eq_some_iff.mp h
    obtain ⟨rfl, rfl⟩ := Prod.mk.inj h
    obtain rfl := xdrInt_decode_iff.mp h₁
    obtain rfl := xdrInt_decode_iff.mp h₂
    obtain ⟨a, b, c, rfl⟩ := xdrChar_decode_iff.mp h₃
    exact ⟨a, b, c, by simp only [List.append_assoc]⟩
  · rintro ⟨a, b, c, rfl⟩
    rw [List.append_assoc, List.append_assoc, xdrInt.decode_append, Option.bind_some,
      xdrInt.decode_append, Option.bind_some, xdrChar_decode_iff.mpr ⟨a, b, c, rfl⟩]
    rfl

/-- **A record on the wire.**  Whatever stands behind it, a record is read back as it was
written; what is refused is what is shorter than twelve bytes; and what is read as the record `v`
is what `v` is written as, with any bytes in the places of the upper three of `res`. -/
theorem xdr_BAKERY_wire (v : BAKERY) (bs rest : List UInt8) :
    xdrBAKERY.decode (xdrBAKERY.encode v ++ rest) = some (v, rest) ∧
      (xdrBAKERY.decode bs = none ↔ bs.length < 12) ∧
      (xdrBAKERY.decode bs = some (v, rest) ↔ ∃ a b c : UInt8,
        bs = (xdrBAKERY.encode v).take 8 ++ [a, b, c, v.res.toUInt8] ++ rest) := by
  refine ⟨xdrBAKERY.decode_append v rest, xdrBAKERY.decode_eq_none_iff, ?_⟩
  have htake : (xdrBAKERY.encode v).take 8 = xdrInt.encode v.num ++ xdrInt.encode v.pid := rfl
  rw [htake, xdrBAKERY_decode_iff]

end OsLabs.Bakery.Xdr
