/-
Roip/Flash.lean

The configuration in the flash, `iap.c` and `iap.h`.

`flash_buff` is the copy of the first 256 bytes of the last sector.  It is
read and written through `struct flash_data`: five addresses, the MAC address
and the password.  The password field is longer than what is left of the
buffer, so a string in it may run on into the memory behind the buffer.
-/
import Mathlib.Algebra.Group.Nat.Defs
import Roip.Lib.CString

namespace Roip

/-! ### Addresses -/

/-- `IP4_ADDR`, little-endian. -/
def ip4Addr (a b c d : UInt8) : UInt32 :=
  d.toUInt32 <<< 24 ||| c.toUInt32 <<< 16 ||| b.toUInt32 <<< 8 ||| a.toUInt32

/-- The bytes of an address in memory: `ip4_addr1` to `ip4_addr4`. -/
def octets (x : UInt32) : List UInt8 :=
  [x.toUInt8, (x >>> 8).toUInt8, (x >>> 16).toUInt8, (x >>> 24).toUInt8]

@[simp] theorem octets_length (x : UInt32) : (octets x).length = 4 := rfl

theorem ip4Addr_toNat (a b c d : UInt8) :
    (ip4Addr a b c d).toNat =
      2 ^ 24 * d.toNat + (2 ^ 16 * c.toNat + (2 ^ 8 * b.toNat + a.toNat)) := by
  have ha := a.toNat_lt
  have hb := b.toNat_lt
  have hc := c.toNat_lt
  -- the four octets do not overlap, so the sum is their disjunction
  have hshift (x : UInt8) (k : UInt32) (n : Nat) (hk : k.toNat = n)
      (hn : n ≤ 24) : (x.toUInt32 <<< k).toNat = 2 ^ n * x.toNat := by
    have hx := x.toNat_lt
    have hlt : 2 ^ n * x.toNat < 2 ^ 32 := by
      calc 2 ^ n * x.toNat ≤ 2 ^ 24 * x.toNat :=
            Nat.mul_le_mul_right _ (Nat.pow_le_pow_right (by decide) hn)
        _ < 2 ^ 32 := by omega
    rw [UInt32.toNat_shiftLeft, hk, Nat.mod_eq_of_lt (by omega : n < 32),
      Nat.shiftLeft_eq, UInt8.toNat_toUInt32, Nat.mul_comm,
      Nat.mod_eq_of_lt hlt]
  rw [ip4Addr, UInt32.toNat_or, UInt32.toNat_or, UInt32.toNat_or,
    hshift d 24 24 rfl (by decide), hshift c 16 16 rfl (by decide),
    hshift b 8 8 rfl (by decide), UInt8.toNat_toUInt32, Nat.or_assoc,
    Nat.or_assoc, ← Nat.two_pow_add_eq_or_of_lt ha,
    ← Nat.two_pow_add_eq_or_of_lt (i := 16) (by omega),
    ← Nat.two_pow_add_eq_or_of_lt (i := 24) (by omega)]

theorem toNat_octet {x k : UInt32} {n : Nat} (hk : k.toNat = n)
    (hn : n < 32) : (x >>> k).toUInt8.toNat = x.toNat / 2 ^ n % 2 ^ 8 := by
  rw [UInt32.toNat_toUInt8, UInt32.toNat_shiftRight, hk, Nat.mod_eq_of_lt hn,
    Nat.shiftRight_eq_div_pow]

/-- An address has the octets it is put together from. -/
theorem octets_ip4Addr (a b c d : UInt8) :
    octets (ip4Addr a b c d) = [a, b, c, d] := by
  have ha := a.toNat_lt
  have hb := b.toNat_lt
  have hc := c.toNat_lt
  have hd := d.toNat_lt
  have hnat := ip4Addr_toNat a b c d
  have h0 : (ip4Addr a b c d).toUInt8 = a := by
    rw [← UInt8.toNat_inj, UInt32.toNat_toUInt8, hnat]
    omega
  have h8 : (ip4Addr a b c d >>> 8).toUInt8 = b := by
    rw [← UInt8.toNat_inj, toNat_octet (n := 8) rfl (by decide), hnat]
    omega
  have h16 : (ip4Addr a b c d >>> 16).toUInt8 = c := by
    rw [← UInt8.toNat_inj, toNat_octet (n := 16) rfl (by decide), hnat]
    omega
  have h24 : (ip4Addr a b c d >>> 24).toUInt8 = d := by
    rw [← UInt8.toNat_inj, toNat_octet (n := 24) rfl (by decide), hnat]
    omega
  rw [octets, h0, h8, h16, h24]

/-- The address at `i`. -/
def addrAt (m : List UInt8) (i : Nat) : UInt32 :=
  ip4Addr (byteAt m i) (byteAt m (i + 1)) (byteAt m (i + 2)) (byteAt m (i + 3))

/-- An address is read back from its bytes. -/
theorem addrAt_octets {m rest : List UInt8} {i : Nat} {x : UInt32}
    (h : m.drop i = octets x ++ rest) : addrAt m i = x := by
  have hx := x.toNat_lt
  have hbyte (k : Nat) : byteAt m (i + k) = byteAt (octets x ++ rest) k := by
    rw [← byteAt_drop, h]
  have h0 := hbyte 0
  rw [Nat.add_zero] at h0
  rw [addrAt, h0, hbyte 1, hbyte 2, hbyte 3, ← UInt32.toNat_inj, ip4Addr_toNat]
  show 2 ^ 24 * (x >>> 24).toUInt8.toNat + (2 ^ 16 * (x >>> 16).toUInt8.toNat +
    (2 ^ 8 * (x >>> 8).toUInt8.toNat + x.toUInt8.toNat)) = x.toNat
  rw [toNat_octet (n := 24) rfl (by decide),
    toNat_octet (n := 16) rfl (by decide),
    toNat_octet (n := 8) rfl (by decide), UInt32.toNat_toUInt8]
  omega

/-- The five addresses of a configuration. -/
structure Addresses where
  ipLocal : UInt32
  ipGw : UInt32
  ipNm : UInt32
  ser1 : UInt32
  ser2 : UInt32
deriving DecidableEq, Repr

/-- The five addresses at the beginning of `m`. -/
def addressesAt (m : List UInt8) : Addresses where
  ipLocal := addrAt m 0
  ipGw := addrAt m 4
  ipNm := addrAt m 8
  ser1 := addrAt m 12
  ser2 := addrAt m 16

/-- The bytes of the addresses, in the order of the fields. -/
def Addresses.octets (a : Addresses) : List UInt8 :=
  Roip.octets a.ipLocal ++ Roip.octets a.ipGw ++ Roip.octets a.ipNm ++
    Roip.octets a.ser1 ++ Roip.octets a.ser2

@[simp] theorem Addresses.octets_length (a : Addresses) :
    a.octets.length = 20 := rfl

theorem addressesAt_octets (a : Addresses) (rest : List UInt8) :
    addressesAt (a.octets ++ rest) = a := by
  have h0 : addrAt (a.octets ++ rest) 0 = a.ipLocal := addrAt_octets rfl
  have h4 : addrAt (a.octets ++ rest) 4 = a.ipGw := addrAt_octets rfl
  have h8 : addrAt (a.octets ++ rest) 8 = a.ipNm := addrAt_octets rfl
  have h12 : addrAt (a.octets ++ rest) 12 = a.ser1 := addrAt_octets rfl
  have h16 : addrAt (a.octets ++ rest) 16 = a.ser2 := addrAt_octets rfl
  rw [addressesAt, h0, h4, h8, h12, h16]

/-- Twenty octets are the octets of five addresses. -/
theorem octets_addressesAt {l : List UInt8} (h : l.length = 20) :
    (addressesAt l).octets = l := by
  have haddr (i : Nat) : octets (addrAt l i) = bytesAt l i 4 := by
    rw [addrAt, octets_ip4Addr, bytesAt_succ, bytesAt_succ, bytesAt_succ,
      bytesAt_succ]
    rfl
  have hall : bytesAt l 0 l.length = l := bytesAt_of_drop (List.append_nil l).symm
  rw [Addresses.octets]
  show octets (addrAt l 0) ++ octets (addrAt l 4) ++ octets (addrAt l 8) ++
    octets (addrAt l 12) ++ octets (addrAt l 16) = l
  rw [haddr, haddr, haddr, haddr, haddr, ← bytesAt_add l 0 4 4,
    ← bytesAt_add l 0 8 4, ← bytesAt_add l 0 12 4, ← bytesAt_add l 0 16 4]
  rw [h] at hall
  exact hall

/-! ### `struct flash_data` -/

/-- `flash_buff`, and what the first 256 bytes of the sector hold. -/
abbrev FlashImage := CArray UInt8 256

namespace FlashImage

/-- The addresses at the beginning. -/
def addresses (b : FlashImage) : Addresses := addressesAt b.cells

def macAddress (b : FlashImage) : List UInt8 := (b.cells.drop 20).take 6

/-- The memory from `fd->password` on, up to the end of the buffer. -/
def password (b : FlashImage) : List UInt8 := b.cells.drop 26

/-- `ip_addr_copy` of the five addresses. -/
def storeAddresses (b : FlashImage) (a : Addresses) : Option FlashImage := do
  let b ← b.memcpy 0 (octets a.ipLocal)
  let b ← b.memcpy 4 (octets a.ipGw)
  let b ← b.memcpy 8 (octets a.ipNm)
  let b ← b.memcpy 12 (octets a.ser1)
  b.memcpy 16 (octets a.ser2)

/-- `memcpy(fd->password, s, strlen(s))` and the zero behind it. -/
def storePassword (b : FlashImage) (s : List UInt8) : Option FlashImage := do
  let b ← b.memcpy 26 s
  b.set (26 + s.length) 0

end FlashImage

/-- What the flash holds after erasing. -/
def erased : FlashImage := CArray.fill 256 0xFF

/-! ### Booting -/

/-- `ip_addr_netcmp`. -/
def ipAddrNetcmp (addr1 addr2 mask : UInt32) : Bool :=
  addr1 &&& mask == addr2 &&& mask

/-- The addresses `main` starts with. -/
def defaultAddresses : Addresses where
  ipLocal := ip4Addr 192 168 1 201
  ipGw := ip4Addr 192 168 1 1
  ipNm := ip4Addr 255 255 255 0
  ser1 := ip4Addr 192 168 1 198
  ser2 := ip4Addr 192 168 1 197

/-- The check of `main`: the gateway and one of the servers are in the network
of the device. -/
def Addresses.usable (a : Addresses) : Bool :=
  ipAddrNetcmp a.ipLocal a.ipGw a.ipNm &&
    (ipAddrNetcmp a.ipLocal a.ser1 a.ipNm ||
      ipAddrNetcmp a.ipLocal a.ser2 a.ipNm)

/-- The addresses `main` uses, `b` being in the flash. -/
def bootAddresses (b : FlashImage) : Addresses :=
  if b.addresses.usable then b.addresses else defaultAddresses

/-! ### IAP -/

/-- The return codes of the four IAP commands of `write_flash`; zero is
`CMD_SUCCESS`. -/
structure IapEnv where
  prepare1 : UInt8
  erase : UInt8
  prepare2 : UInt8
  copy : UInt8
deriving DecidableEq, Repr

/-- All commands succeed. -/
def IapEnv.success : IapEnv := ⟨0, 0, 0, 0⟩

/-- `Chip_IAP_PreSectorForReadWrite` returning `code`. -/
def preSectorForReadWrite (code : UInt8) (flash : FlashImage) :
    UInt8 × FlashImage := (code, flash)

/-- `Chip_IAP_EraseSector` returning `code`.  A failed command does nothing. -/
def eraseSector (code : UInt8) (flash : FlashImage) : UInt8 × FlashImage :=
  (code, if code = 0 then erased else flash)

/-- `Chip_IAP_CopyRamToFlash` returning `code`.  Bits can only be cleared. -/
def copyRamToFlash (code : UInt8) (buff flash : FlashImage) :
    UInt8 × FlashImage :=
  (code, if code = 0 then CArray.zipWith (· &&& ·) flash buff else flash)

/-- `write_flash`: its result and the flash. -/
def writeFlash (buff flash : FlashImage) (e : IapEnv) : UInt8 × FlashImage :=
  let (_, flash) := preSectorForReadWrite e.prepare1 flash
  let (_, flash) := eraseSector e.erase flash
  let (_, flash) := preSectorForReadWrite e.prepare2 flash
  copyRamToFlash e.copy buff flash

/-- After a successful write the flash holds the buffer. -/
theorem writeFlash_success {e : IapEnv} (he : e.erase = 0) (hc : e.copy = 0)
    (buff flash : FlashImage) : (writeFlash buff flash e).2 = buff := by
  -- programming can only clear bits, and in an erased sector all are set
  have hones (l : List UInt8) :
      List.zipWith (· &&& ·) (List.replicate l.length 0xFF) l = l := by
    induction l with
    | nil => rfl
    | cons x l ih =>
      have hx : (0xFF : UInt8) &&& x = x := by
        rw [UInt8.and_comm]
        exact UInt8.and_neg_one
      rw [List.length_cons, List.replicate_succ, List.zipWith_cons_cons, ih, hx]
  simp only [writeFlash, preSectorForReadWrite, eraseSector, copyRamToFlash, he,
    hc, if_true]
  apply CArray.ext
  have h := hones buff.cells
  rw [buff.size] at h
  exact h

namespace FlashImage

/-! ### The layout -/

variable {b c : FlashImage}

theorem addresses_of_cells {a : Addresses} {rest : List UInt8}
    (h : b.cells = a.octets ++ rest) : b.addresses = a := by
  rw [addresses, h, addressesAt_octets]

/-- Equal beginnings hold equal addresses. -/
theorem addresses_congr (h : c.cells.take 20 = b.cells.take 20) :
    c.addresses = b.addresses := by
  have hbyte (i : Nat) (hi : i < 20) : byteAt c.cells i = byteAt b.cells i := by
    have hget := congrArg (·[i]?) h
    simp only [List.getElem?_take, if_pos hi] at hget
    rw [byteAt, byteAt, List.getD_eq_getElem?_getD,
      List.getD_eq_getElem?_getD, hget]
  simp only [addresses, addressesAt, addrAt, hbyte, Nat.reduceAdd,
    Nat.reduceLT]

/-- Storing the addresses replaces the first 20 bytes. -/
theorem storeAddresses_cells (b : FlashImage) (a : Addresses) :
    ∃ c, b.storeAddresses a = some c ∧
      c.cells = a.octets ++ b.cells.drop 20 := by
  have hroom (k : Nat) (hk : k ≤ 16) : 4 ≤ (b.cells.drop k).length := by
    rw [List.length_drop, b.size]
    omega
  -- after `k` copies the first `4 * k` bytes are known
  obtain ⟨b₁, h₁, hb₁⟩ := CArray.memcpy_append (i := 0) (x := octets a.ipLocal)
    (List.nil_append b.cells).symm rfl (hroom 0 (by decide))
  obtain ⟨b₂, h₂, hb₂⟩ := CArray.memcpy_append (i := 4) (x := octets a.ipGw) hb₁ rfl
    (hroom 4 (by decide))
  obtain ⟨b₃, h₃, hb₃⟩ := CArray.memcpy_append (i := 8) (x := octets a.ipNm) hb₂ rfl
    (by rw [List.drop_drop]; exact hroom 8 (by decide))
  obtain ⟨b₄, h₄, hb₄⟩ := CArray.memcpy_append (i := 12) (x := octets a.ser1) hb₃ rfl
    (by rw [List.drop_drop, List.drop_drop]; exact hroom 12 (by decide))
  obtain ⟨b₅, h₅, hb₅⟩ := CArray.memcpy_append (i := 16) (x := octets a.ser2) hb₄ rfl
    (by
      rw [List.drop_drop, List.drop_drop, List.drop_drop]
      exact hroom 16 (by decide))
  refine ⟨b₅, ?_, ?_⟩
  · simp only [storeAddresses, Option.bind_eq_bind, h₁, h₂, h₃, h₄,
      Option.bind_some]
    exact h₅
  · rw [hb₅]
    simp only [List.drop_drop, List.nil_append]
    rfl

theorem macAddress_congr (h : c.cells.drop 20 = b.cells.drop 20) :
    c.macAddress = b.macAddress := by
  rw [macAddress, macAddress, h]

theorem password_congr (h : c.cells.drop 20 = b.cells.drop 20) :
    c.password = b.password := by
  have hdrop : ∀ d : FlashImage, d.password = (d.cells.drop 20).drop 6 := by
    intro d
    rw [List.drop_drop]
    rfl
  rw [hdrop, hdrop, h]

/-- Storing a password leaves everything else as it is. -/
theorem storePassword_cells (b : FlashImage) {s : List UInt8}
    (h : 26 + s.length < 256) :
    ∃ c, b.storePassword s = some c ∧
      c.cells = b.cells.take 26 ++ (s ++ 0 :: b.cells.drop (27 + s.length)) := by
  have hlen : (b.cells.take 26).length = 26 := by
    rw [List.length_take, b.size]
    rfl
  have hroom : s.length < (b.cells.drop 26).length := by
    rw [List.length_drop, b.size]
    omega
  obtain ⟨c, hc, hcells⟩ := CArray.memcpy_append (i := 26) (x := s)
    (List.take_append_drop 26 b.cells).symm hlen (Nat.le_of_lt hroom)
  obtain ⟨d, hd, hcells'⟩ := CArray.set_append (i := 26 + s.length) (v := 0)
    hcells (by rw [List.length_append, hlen])
    (fun hnil => absurd (List.drop_eq_nil_iff.mp hnil) (Nat.not_le_of_lt hroom))
  refine ⟨d, ?_, ?_⟩
  · rw [storePassword, Option.bind_eq_bind, hc, Option.bind_some, hd]
  · rw [hcells', List.tail_drop, List.drop_drop, List.append_assoc,
      show 26 + (s.length + 1) = 27 + s.length by omega]

/-- What a stored password leaves. -/
theorem layout_of_storePassword {s rest : List UInt8}
    (h : c.cells = b.cells.take 26 ++ (s ++ 0 :: rest)) :
    c.addresses = b.addresses ∧ c.macAddress = b.macAddress ∧
      c.password = s ++ 0 :: rest := by
  have hlen : (b.cells.take 26).length = 26 := by
    rw [List.length_take, b.size]
    rfl
  have htake : c.cells.take 26 = b.cells.take 26 := by
    rw [h, List.take_left' hlen]
  refine ⟨addresses_congr ?_, ?_, ?_⟩
  · have h20 := congrArg (List.take 20) htake
    rwa [List.take_take, List.take_take] at h20
  · rw [macAddress, macAddress, List.take_drop, List.take_drop, htake]
  · rw [password, h, List.drop_left' hlen]

end FlashImage

end Roip
