/-
Roip/Checksum.lean

The Internet checksum, `inet_chksum.c`.

A message is summed as a chain of buffers: the sum of one buffer is taken in
16-bit words, the first byte of each being the higher one, and whenever a
buffer has an odd length the bytes of the running sum are exchanged.  The
processor stores the lower byte first, so `htons` gives the words as they lie
in memory: the checksum of a message is its number in base 256, in ones'
complement (`inetChksumPseudo_toNat`).

It does not depend on how the message is cut into buffers (`chksum_split`).  A
message with its checksum in it has the checksum zero, and with any single
byte changed it has not.
-/
import Roip.Lib.OnesComplement

namespace Roip

open OnesComplement

/-! ### Byte order -/

/-- `htons`, and `ntohs`. -/
def htons (n : UInt16) : UInt16 :=
  ((n &&& 0xff) <<< 8) ||| ((n &&& 0xff00) >>> 8)

/-- `FOLD_U32T`. -/
def foldU32 (u : UInt32) : UInt32 := (u >>> 16) + (u &&& 0xffff)

/-- `SWAP_BYTES_IN_WORD`. -/
def swapBytesInWord (w : UInt32) : UInt32 :=
  ((w &&& 0xff) <<< 8) ||| ((w &&& 0xff00) >>> 8)

/-! ### Sums -/

/-- The loop of `lwip_standard_chksum`. -/
def sumOctets (acc : UInt32) : List UInt8 → UInt32
  | [] => acc
  | [a] => acc + (a.toUInt32 <<< 8)
  | a :: b :: rest => sumOctets (acc + ((a.toUInt32 <<< 8) ||| b.toUInt32)) rest

/-- `lwip_standard_chksum`. -/
def lwipStandardChksum (data : List UInt8) : UInt16 :=
  let acc := foldU32 (sumOctets 0 data)
  let acc := if acc &&& 0xffff0000 ≠ 0 then foldU32 acc else acc
  htons acc.toUInt16

/-- One buffer in the loop of `inet_chksum_pseudo`. -/
def sumPbuf : UInt32 × Bool → List UInt8 → UInt32 × Bool
  | (acc, swapped), q =>
    let acc := foldU32 (acc + (lwipStandardChksum q).toUInt32)
    if q.length % 2 ≠ 0 then (swapBytesInWord acc, !swapped)
    else (acc, swapped)

/-- The loop of `inet_chksum_pseudo`. -/
def sumChain (p : List (List UInt8)) : UInt32 :=
  let (acc, swapped) := p.foldl sumPbuf (0, false)
  if swapped then swapBytesInWord acc else acc

/-- The pseudo header is added. -/
def addPseudo (acc src dest : UInt32) (proto : UInt8) (protoLen : UInt16) :
    UInt16 :=
  let acc := acc + (src &&& (0xffff : UInt32)) +
    ((src >>> 16) &&& (0xffff : UInt32))
  let acc := acc + (dest &&& (0xffff : UInt32)) +
    ((dest >>> 16) &&& (0xffff : UInt32))
  let acc := acc + (htons proto.toUInt16).toUInt32 + (htons protoLen).toUInt32
  ~~~ (foldU32 (foldU32 acc)).toUInt16

/-- `inet_chksum_pseudo`. -/
def inetChksumPseudo (p : List (List UInt8)) (src dest : UInt32)
    (proto : UInt8) (protoLen : UInt16) : UInt16 :=
  addPseudo (sumChain p) src dest proto protoLen

/-- Every buffer of a chain has a length of 16 bits. -/
def Chain16 (p : List (List UInt8)) : Prop := ∀ q ∈ p, q.length < 2 ^ 16

instance (p : List (List UInt8)) : Decidable (Chain16 p) :=
  inferInstanceAs (Decidable (∀ q ∈ p, q.length < 2 ^ 16))

/-! ### The operations on words -/

section Words

theorem nat_low (n : Nat) : n &&& 0xff = n % 256 :=
  Nat.and_two_pow_sub_one_eq_mod n 8

theorem nat_high {n : Nat} (hn : n < 2 ^ 16) :
    (n &&& 0xff00) >>> 8 = n / 256 := by
  rw [Nat.shiftRight_and_distrib, Nat.shiftRight_eq_div_pow]
  show n / 256 &&& 2 ^ 8 - 1 = n / 256
  rw [Nat.and_two_pow_sub_one_eq_mod]
  exact Nat.mod_eq_of_lt (by omega)

/-- The two parts of the word, exchanged and put together. -/
theorem nat_swap (n : Nat) (hn : n < 2 ^ 16) :
    (n % 256) <<< 8 ||| n / 256 = swap 256 n := by
  rw [← Nat.shiftLeft_add_eq_or_of_lt (by omega), Nat.shiftLeft_eq]
  rfl

theorem swap_lt {n : Nat} (hn : n < 2 ^ 16) : swap 256 n < 2 ^ 16 := by
  rw [swap]
  omega

theorem htons_toNat (n : UInt16) : (htons n).toNat = swap 256 n.toNat := by
  have hn := n.toNat_lt
  have hlow : ((n &&& 0xff) <<< 8).toNat = (n.toNat % 256) <<< 8 := by
    rw [UInt16.toNat_shiftLeft, UInt16.toNat_and]
    show ((n.toNat &&& 0xff) <<< 8) % 2 ^ 16 = _
    rw [nat_low, Nat.shiftLeft_eq]
    omega
  have hhigh : ((n &&& 0xff00) >>> 8).toNat = n.toNat / 256 := by
    rw [UInt16.toNat_shiftRight, UInt16.toNat_and]
    exact nat_high hn
  rw [htons, UInt16.toNat_or, hlow, hhigh, nat_swap _ hn]

theorem foldU32_toNat (u : UInt32) :
    (foldU32 u).toNat = fold 65535 u.toNat := by
  have hu := u.toNat_lt
  have hlow : u.toNat &&& 0xffff = u.toNat % 65536 :=
    Nat.and_two_pow_sub_one_eq_mod u.toNat 16
  rw [foldU32, UInt32.toNat_add, UInt32.toNat_and, UInt32.toNat_shiftRight,
    fold, Nat.shiftRight_eq_div_pow]
  show (u.toNat / 2 ^ 16 + (u.toNat &&& 0xffff)) % 2 ^ 32 = _
  rw [hlow, Nat.mod_eq_of_lt (by omega)]

theorem swapBytesInWord_toNat {w : UInt32} (hw : w.toNat ≤ 65535) :
    (swapBytesInWord w).toNat = swap 256 w.toNat := by
  have hlow : ((w &&& 0xff) <<< 8).toNat = (w.toNat % 256) <<< 8 := by
    rw [UInt32.toNat_shiftLeft, UInt32.toNat_and]
    show ((w.toNat &&& 0xff) <<< 8) % 2 ^ 32 = _
    rw [nat_low, Nat.shiftLeft_eq]
    omega
  have hhigh : ((w &&& 0xff00) >>> 8).toNat = w.toNat / 256 := by
    rw [UInt32.toNat_shiftRight, UInt32.toNat_and]
    exact nat_high (by omega)
  rw [swapBytesInWord, UInt32.toNat_or, hlow, hhigh, nat_swap _ (by omega)]

/-- The sum of one buffer, its bytes taken as digits. -/
def digitsOf (data : List UInt8) : List Nat := data.map UInt8.toNat

@[simp] theorem digitsOf_nil : digitsOf [] = [] := rfl

@[simp] theorem digitsOf_cons (a : UInt8) (data : List UInt8) :
    digitsOf (a :: data) = a.toNat :: digitsOf data := rfl

@[simp] theorem digitsOf_append (data data' : List UInt8) :
    digitsOf (data ++ data') = digitsOf data ++ digitsOf data' :=
  List.map_append

@[simp] theorem length_digitsOf (data : List UInt8) :
    (digitsOf data).length = data.length := List.length_map _

theorem octetHigh_toNat (a : UInt8) :
    (a.toUInt32 <<< 8).toNat = 256 * a.toNat := by
  have ha := a.toNat_lt
  rw [UInt32.toNat_shiftLeft, UInt8.toNat_toUInt32]
  show (a.toNat <<< 8) % 2 ^ 32 = _
  rw [Nat.shiftLeft_eq]
  omega

theorem octets_toNat (a b : UInt8) :
    ((a.toUInt32 <<< 8) ||| b.toUInt32).toNat = 256 * a.toNat + b.toNat := by
  have ha := a.toNat_lt
  have hb : b.toNat < 2 ^ 8 := b.toNat_lt
  have hhigh : 256 * a.toNat = a.toNat <<< 8 := by
    rw [Nat.shiftLeft_eq]
    omega
  rw [UInt32.toNat_or, octetHigh_toNat, UInt8.toNat_toUInt32, hhigh,
    Nat.shiftLeft_add_eq_or_of_lt hb]

/-- The words of a buffer, added up. -/
def wordSum : List UInt8 → Nat
  | [] => 0
  | [a] => 256 * a.toNat
  | a :: b :: rest => 256 * a.toNat + b.toNat + wordSum rest

theorem wordSum_le (data : List UInt8) :
    wordSum data ≤ 65535 * ((data.length + 1) / 2) := by
  induction data using wordSum.induct with
  | case1 => simp [wordSum]
  | case2 a =>
    have ha := a.toNat_lt
    simp only [wordSum, List.length_singleton]
    omega
  | case3 a b rest ih =>
    have ha := a.toNat_lt
    have hb := b.toNat_lt
    simp only [wordSum, List.length_cons]
    omega

theorem wordSum_eq_zero (data : List UInt8) :
    wordSum data = 0 ↔ Nat.ofDigits 256 (digitsOf data) = 0 := by
  induction data using wordSum.induct with
  | case1 => simp [wordSum]
  | case2 a => simp [wordSum]
  | case3 a b rest ih =>
    simp only [wordSum, digitsOf_cons, Nat.ofDigits_cons]
    omega

/-- With their bytes exchanged, the words come to the number of the buffer. -/
theorem wordSum_modEq (data : List UInt8) :
    256 * wordSum data ≡ Nat.ofDigits 256 (digitsOf data) [MOD 65535] := by
  induction data using wordSum.induct with
  | case1 => rfl
  | case2 a =>
    simp only [wordSum, digitsOf_cons, digitsOf_nil, Nat.ofDigits_singleton,
      Nat.ModEq]
    omega
  | case3 a b rest ih =>
    simp only [wordSum, digitsOf_cons, Nat.ofDigits_cons, Nat.ModEq] at *
    omega

/-- The loop has no carry out of 32 bits. -/
theorem sumOctets_toNat {acc : UInt32} {data : List UInt8}
    (hacc : acc.toNat + 65535 * ((data.length + 1) / 2) < 2 ^ 32) :
    (sumOctets acc data).toNat = acc.toNat + wordSum data := by
  induction acc, data using sumOctets.induct with
  | case1 acc => rfl
  | case2 acc a =>
    have ha := a.toNat_lt
    rw [List.length_singleton] at hacc
    rw [sumOctets, UInt32.toNat_add, octetHigh_toNat, wordSum]
    omega
  | case3 acc a b rest ih =>
    have ha := a.toNat_lt
    have hb := b.toNat_lt
    rw [List.length_cons, List.length_cons] at hacc
    have hadd : (acc + ((a.toUInt32 <<< 8) ||| b.toUInt32)).toNat =
        acc.toNat + (256 * a.toNat + b.toNat) := by
      rw [UInt32.toNat_add, octets_toNat, Nat.mod_eq_of_lt (by omega)]
    rw [sumOctets, ih (by omega), hadd, wordSum]
    omega

/-- The higher half of a word of 32 bits. -/
theorem nat_mask {n : Nat} (hn : n < 2 ^ 32) :
    n &&& 0xffff0000 = n / 65536 * 65536 := by
  have hhigh : (n &&& 0xffff0000) / 65536 = n / 65536 := by
    show (n &&& 0xffff0000) / 2 ^ 16 = n / 2 ^ 16
    rw [← Nat.shiftRight_eq_div_pow, Nat.shiftRight_and_distrib,
      Nat.shiftRight_eq_div_pow]
    show n / 2 ^ 16 &&& 2 ^ 16 - 1 = n / 2 ^ 16
    rw [Nat.and_two_pow_sub_one_eq_mod]
    exact Nat.mod_eq_of_lt (by omega)
  have hlow : (n &&& 0xffff0000) % 65536 = 0 := by
    show (n &&& 0xffff0000) % 2 ^ 16 = 0
    rw [Nat.and_mod_two_pow]
    exact Nat.and_zero _
  have hsplit := Nat.div_add_mod (n &&& 0xffff0000) 65536
  omega

theorem mask_eq_zero {u : UInt32} :
    u &&& 0xffff0000 = 0 ↔ u.toNat ≤ 65535 := by
  rw [← UInt32.toNat_inj, UInt32.toNat_and]
  show u.toNat &&& 0xffff0000 = 0 ↔ _
  rw [nat_mask u.toNat_lt]
  omega

/-- **`lwip_standard_chksum`** is the number of the buffer, in words. -/
theorem lwipStandardChksum_toNat {data : List UInt8}
    (hlen : data.length < 2 ^ 16) :
    (lwipStandardChksum data).toNat =
      wrap 65535 (Nat.ofDigits 256 (digitsOf data)) := by
  have hle := wordSum_le data
  have hsum : (sumOctets 0 data).toNat = wordSum data := by
    rw [sumOctets_toNat (by rw [UInt32.toNat_zero]; omega), UInt32.toNat_zero,
      Nat.zero_add]
  -- after the second folding there is no carry left
  have hfold : ∀ acc : UInt32, acc = foldU32 (sumOctets 0 data) →
      (if acc &&& 0xffff0000 ≠ 0 then foldU32 acc else acc).toNat =
        wrap 65535 (wordSum data) := by
    rintro _ rfl
    have htwo : fold 65535 (wordSum data) ≤ 2 * 65535 :=
      fold_le (by omega)
    rw [← wrap_fold (by decide)]
    split
    · rw [foldU32_toNat, foldU32_toNat, hsum, fold_eq_wrap htwo]
    · next hzero =>
      have hword := mask_eq_zero.mp (not_not.mp hzero)
      rw [foldU32_toNat, hsum] at hword ⊢
      rw [wrap_of_le hword]
  have hword := wrap_le (m := 65535) (n := wordSum data) (by decide)
  rw [lwipStandardChksum, htons_toNat, UInt32.toNat_toUInt16, hfold _ rfl,
    Nat.mod_eq_of_lt (by omega), swap_eq_wrap (m := 65535) (by decide) hword,
    wrap_mul_wrap (by decide)]
  refine wrap_congr (by decide) (wordSum_modEq data) ?_
  rw [← wordSum_eq_zero]
  omega

/-! ### Chains -/

theorem odd_add (a b : Nat) :
    ((a + b) % 2 == 1) = ((a % 2 == 1) ^^ (b % 2 == 1)) := by
  rcases Nat.mod_two_eq_zero_or_one a with ha | ha <;>
    rcases Nat.mod_two_eq_zero_or_one b with hb | hb <;>
    simp [Nat.add_mod, ha, hb]

/-- One buffer more. -/
theorem sumPbuf_spec {acc : UInt32} (swapped : Bool) {q : List UInt8}
    (hq : q.length < 2 ^ 16) (hacc : acc.toNat ≤ 65535) :
    (sumPbuf (acc, swapped) q).1.toNat =
        absorb 256 65535 acc.toNat (digitsOf q) ∧
      (sumPbuf (acc, swapped) q).2 = (swapped ^^ (q.length % 2 == 1)) := by
  have hword := wrap_le (m := 65535) (n := Nat.ofDigits 256 (digitsOf q))
    (by decide)
  have hfold : (foldU32 (acc + (lwipStandardChksum q).toUInt32)).toNat =
      fold 65535 (acc.toNat +
        wrap 65535 (Nat.ofDigits 256 (digitsOf q))) := by
    rw [foldU32_toNat, UInt32.toNat_add, UInt16.toNat_toUInt32,
      lwipStandardChksum_toNat hq, Nat.mod_eq_of_lt (by omega)]
  have hle : fold 65535 (acc.toNat +
      wrap 65535 (Nat.ofDigits 256 (digitsOf q))) ≤ 65535 := by
    rw [fold_eq_wrap (by omega)]
    exact wrap_le (by decide)
  rw [sumPbuf, absorb, length_digitsOf]
  split
  · next hodd =>
    have hone : q.length % 2 = 1 := by omega
    rw [swapBytesInWord_toNat (by rw [hfold]; exact hle), hfold, hone]
    exact ⟨rfl, (Bool.xor_true swapped).symm⟩
  · next heven =>
    rw [hfold, not_not.mp heven]
    exact ⟨rfl, (Bool.xor_false swapped).symm⟩

/-- The loop over the buffers. -/
theorem foldl_sumPbuf {p : List (List UInt8)}
    (hp : Chain16 p) {acc : UInt32} (swapped : Bool)
    (hacc : acc.toNat ≤ 65535) :
    (p.foldl sumPbuf (acc, swapped)).1.toNat =
        (p.map digitsOf).foldl (absorb 256 65535) acc.toNat ∧
      (p.foldl sumPbuf (acc, swapped)).2 =
        (swapped ^^ (p.flatten.length % 2 == 1)) := by
  induction p generalizing acc swapped with
  | nil => simp
  | cons q p ih =>
    obtain ⟨hq, hp⟩ := List.forall_mem_cons.mp hp
    obtain ⟨hsum, hswap⟩ := sumPbuf_spec swapped hq hacc
    have hle : (sumPbuf (acc, swapped) q).1.toNat ≤ 65535 := by
      rw [hsum]
      exact absorb_le (by decide) (by decide) hacc
    obtain ⟨hfirst, hsecond⟩ := ih hp (sumPbuf (acc, swapped) q).2 hle
    rw [List.foldl_cons, List.map_cons, List.foldl_cons, ← hsum]
    refine ⟨hfirst, hsecond.trans ?_⟩
    rw [hswap, List.flatten_cons, List.length_append, odd_add,
      Bool.xor_assoc]

/-- The sum of a chain is the number of the message. -/
theorem sumChain_toNat {p : List (List UInt8)}
    (hp : Chain16 p) :
    (sumChain p).toNat =
      wrap 65535 (Nat.ofDigits 256 (digitsOf p.flatten)) := by
  obtain ⟨hsum, hswap⟩ := foldl_sumPbuf hp false
    (show (0 : UInt32).toNat ≤ 65535 from Nat.zero_le _)
  have hflat : (p.map digitsOf).flatten = digitsOf p.flatten :=
    List.map_flatten.symm
  rw [UInt32.toNat_zero, foldl_absorb (by decide) (by decide), hflat] at hsum
  rw [Bool.false_xor] at hswap
  have hle := partialSum_le (B := 256) (l := digitsOf p.flatten)
    (show 0 < 65535 by decide)
  rw [← partialSum_unswap (by decide) (by decide), length_digitsOf, sumChain]
  rcases hrun : p.foldl sumPbuf (0, false) with ⟨acc, swapped⟩
  rw [hrun] at hsum hswap
  dsimp only at hsum hswap ⊢
  rcases Nat.mod_two_eq_zero_or_one p.flatten.length with h | h
  · have hno : swapped = false := by rw [hswap, h]; rfl
    rw [if_pos h, hno]
    exact hsum
  · have hyes : swapped = true := by rw [hswap, h]; rfl
    rw [hyes, if_neg (show ¬ p.flatten.length % 2 = 0 by omega), ← hsum]
    exact swapBytesInWord_toNat (by rw [hsum]; exact hle)

/-- What the pseudo header adds: its words as they lie in memory. -/
def pseudoSum (src dest : UInt32) (proto : UInt8) (protoLen : UInt16) : Nat :=
  src.toNat % 65536 + src.toNat / 65536 + (dest.toNat % 65536 +
    dest.toNat / 65536) + swap 256 proto.toNat + swap 256 protoLen.toNat

variable {src dest : UInt32} {proto : UInt8} {protoLen : UInt16}

theorem addPseudo_toNat {acc : UInt32} (hacc : acc.toNat ≤ 65535) :
    (addPseudo acc src dest proto protoLen).toNat =
      65535 - wrap 65535 (pseudoSum src dest proto protoLen + acc.toNat) := by
  have hlow (u : UInt32) : (u &&& (0xffff : UInt32)).toNat =
      u.toNat % 65536 := by
    rw [UInt32.toNat_and]
    exact Nat.and_two_pow_sub_one_eq_mod u.toNat 16
  have hhigh (u : UInt32) : (u >>> 16).toNat % 65536 = u.toNat / 65536 := by
    have hu := u.toNat_lt
    rw [UInt32.toNat_shiftRight]
    show (u.toNat >>> 16) % 65536 = _
    rw [Nat.shiftRight_eq_div_pow]
    exact Nat.mod_eq_of_lt (by omega)
  have hsrc := src.toNat_lt
  have hdest := dest.toNat_lt
  have hproto : swap 256 proto.toNat < 2 ^ 16 :=
    swap_lt (Nat.lt_trans proto.toNat_lt (by decide))
  have hlen := swap_lt protoLen.toNat_lt
  -- seven words have no carry out of 32 bits
  have hsum : (acc + (src &&& (0xffff : UInt32)) +
      ((src >>> 16) &&& (0xffff : UInt32)) + (dest &&& (0xffff : UInt32)) +
      ((dest >>> 16) &&& (0xffff : UInt32)) +
      (htons proto.toUInt16).toUInt32 + (htons protoLen).toUInt32).toNat =
      pseudoSum src dest proto protoLen + acc.toNat := by
    simp only [UInt32.toNat_add, hlow, hhigh, UInt16.toNat_toUInt32,
      htons_toNat, UInt8.toNat_toUInt16, pseudoSum]
    omega
  have hbound : pseudoSum src dest proto protoLen + acc.toNat <
      (65535 + 1) * (65535 + 1) := by
    rw [pseudoSum]
    omega
  have hword := wrap_le (m := 65535)
    (n := pseudoSum src dest proto protoLen + acc.toNat) (by decide)
  rw [addPseudo, UInt16.toNat_not, UInt32.toNat_toUInt16, foldU32_toNat,
    foldU32_toNat, hsum, fold_eq_wrap (fold_le hbound), wrap_fold (by decide),
    Nat.mod_eq_of_lt (by omega)]
  rfl

/-- **`inet_chksum_pseudo`** is the complement of the number of the message,
the pseudo header included. -/
theorem inetChksumPseudo_toNat {p : List (List UInt8)}
    (hp : Chain16 p) :
    (inetChksumPseudo p src dest proto protoLen).toNat =
      65535 - wrap 65535 (pseudoSum src dest proto protoLen +
        Nat.ofDigits 256 (digitsOf p.flatten)) := by
  have hsum := sumChain_toNat hp
  have hle : (sumChain p).toNat ≤ 65535 := by
    rw [hsum]
    exact wrap_le (by decide)
  rw [inetChksumPseudo, addPseudo_toNat hle, hsum, wrap_add_wrap (by decide)]

end Words

/-! ### Messages -/

section Messages

variable {src dest : UInt32} {proto : UInt8} {protoLen : UInt16}
variable {p q : List (List UInt8)} {xs ys : List UInt8}

/-- The number of a message, the pseudo header included. -/
def messageSum (src dest : UInt32) (proto : UInt8) (protoLen : UInt16)
    (data : List UInt8) : Nat :=
  pseudoSum src dest proto protoLen + Nat.ofDigits 256 (digitsOf data)

theorem pseudoSum_pos (hproto : proto ≠ 0) :
    0 < pseudoSum src dest proto protoLen := by
  have hlt := proto.toNat_lt
  have hne : proto.toNat ≠ 0 := fun h => hproto (UInt8.toNat_inj.mp h)
  rw [pseudoSum, swap, swap]
  omega

/-- What is checked when a message arrives. -/
theorem chksum_eq_zero_iff (hp : Chain16 p) :
    inetChksumPseudo p src dest proto protoLen = 0 ↔
      65535 ∣ messageSum src dest proto protoLen p.flatten ∧
        0 < messageSum src dest proto protoLen p.flatten := by
  have hle := wrap_le (m := 65535)
    (n := messageSum src dest proto protoLen p.flatten) (by decide)
  rw [← UInt16.toNat_inj, inetChksumPseudo_toNat hp, UInt16.toNat_zero,
    ← wrap_eq_iff (by decide), messageSum]
  rw [messageSum] at hle
  omega

theorem octets_toNat_le (c : UInt16) :
    c.toUInt8.toNat + 256 * (c >>> 8).toUInt8.toNat = c.toNat := by
  have hc := c.toNat_lt
  have hhigh : (c >>> 8).toNat = c.toNat / 256 := by
    rw [UInt16.toNat_shiftRight]
    show c.toNat >>> 8 = _
    rw [Nat.shiftRight_eq_div_pow]
  rw [UInt16.toNat_toUInt8, UInt16.toNat_toUInt8, hhigh]
  omega

/-- The field of the checksum, at an even place, is filled in. -/
theorem messageSum_fill (heven : xs.length % 2 = 0) (c : UInt16) :
    messageSum src dest proto protoLen
        (xs ++ c.toUInt8 :: (c >>> 8).toUInt8 :: ys) =
      messageSum src dest proto protoLen (xs ++ 0 :: 0 :: ys) +
        256 ^ (2 * (xs.length / 2)) * c.toNat := by
  have hlen : xs.length = 2 * (xs.length / 2) := by omega
  simp only [messageSum, digitsOf_append, digitsOf_cons, Nat.ofDigits_append,
    Nat.ofDigits_cons, length_digitsOf, ← hlen, UInt8.toNat_zero]
  rw [← octets_toNat_le c]
  ring

/-- **The checksum is filled in**, or a number congruent to it: then the
message is in order, however it is cut. -/
theorem chksum_insert (hp : Chain16 p) (hq : Chain16 q)
    (heven : xs.length % 2 = 0) (hflat : p.flatten = xs ++ 0 :: 0 :: ys)
    {c : UInt16}
    (hc : c.toNat ≡ (inetChksumPseudo p src dest proto protoLen).toNat
      [MOD 65535])
    (hpos : 0 < messageSum src dest proto protoLen p.flatten + c.toNat)
    (hfill : q.flatten = xs ++ c.toUInt8 :: (c >>> 8).toUInt8 :: ys) :
    inetChksumPseudo q src dest proto protoLen = 0 := by
  have hcompl := wrap_add_compl (m := 65535) (by decide)
    (messageSum src dest proto protoLen p.flatten)
  rw [wrap_eq_iff (by decide)] at hcompl
  rw [inetChksumPseudo_toNat hp] at hc
  rw [chksum_eq_zero_iff hq, hfill, messageSum_fill heven, ← hflat]
  have hpow := (base_pow_even_modEq (m := 65535) (B := 256) (by decide)
    (xs.length / 2)).mul_right c.toNat
  rw [Nat.one_mul] at hpow
  refine ⟨?_, ?_⟩
  · exact Nat.modEq_zero_iff_dvd.mp ((((hpow.trans hc).add_left _)).trans
      (Nat.modEq_zero_iff_dvd.mpr hcompl.1))
  · have hpos' : 0 < 256 ^ (2 * (xs.length / 2)) := Nat.pow_pos (by decide)
    rcases Nat.eq_zero_or_pos c.toNat with h0 | h0
    · omega
    · have := Nat.mul_pos hpos' h0
      omega

/-- **One byte** of a message that is in order is changed. -/
theorem chksum_changed (hp : Chain16 p) (hq : Chain16 q) {a b : UInt8}
    (hne : a ≠ b) (hflat : p.flatten = xs ++ a :: ys)
    (hchanged : q.flatten = xs ++ b :: ys)
    (hok : inetChksumPseudo p src dest proto protoLen = 0) :
    inetChksumPseudo q src dest proto protoLen ≠ 0 := by
  intro hzero
  have hp0 := ((chksum_eq_zero_iff hp).mp hok).1
  have hq0 := ((chksum_eq_zero_iff hq).mp hzero).1
  rw [hflat] at hp0
  rw [hchanged] at hq0
  have hmod := (Nat.modEq_zero_iff_dvd.mpr hp0).trans
    (Nat.modEq_zero_iff_dvd.mpr hq0).symm
  simp only [messageSum, digitsOf_append, digitsOf_cons] at hmod
  exact ofDigits_not_modEq (by decide) (by decide) a.toNat_lt b.toNat_lt
    (fun h => hne (UInt8.toNat_inj.mp h)) (Nat.ModEq.add_left_cancel' _ hmod)

/-- **The checksum.**  It is computed over a chain of buffers in which its
field, at an even place, is zero.  With the checksum in its field the message
is in order, however it is cut into buffers when it arrives; with any one byte
of it changed it is not. -/
theorem chksum_message (src dest : UInt32) (proto : UInt8)
    (protoLen : UInt16) (p : List (List UInt8)) (xs ys : List UInt8)
    (c : UInt16) (hp : Chain16 p) (heven : xs.length % 2 = 0)
    (hflat : p.flatten = xs ++ 0 :: 0 :: ys)
    (hc : c = inetChksumPseudo p src dest proto protoLen) :
    (∀ q, Chain16 q →
      q.flatten = xs ++ c.toUInt8 :: (c >>> 8).toUInt8 :: ys →
        inetChksumPseudo q src dest proto protoLen = 0) ∧
    ∀ (l r : List UInt8) (a b : UInt8) (q : List (List UInt8)), a ≠ b →
      xs ++ c.toUInt8 :: (c >>> 8).toUInt8 :: ys = l ++ a :: r →
        Chain16 q → q.flatten = l ++ b :: r →
          inetChksumPseudo q src dest proto protoLen ≠ 0 := by
  have hpos : 0 < messageSum src dest proto protoLen p.flatten + c.toNat := by
    have hcompl := wrap_add_compl (m := 65535) (by decide)
      (messageSum src dest proto protoLen p.flatten)
    rw [wrap_eq_iff (by decide)] at hcompl
    rw [hc, inetChksumPseudo_toNat hp]
    exact hcompl.2
  have hok : ∀ q, Chain16 q →
      q.flatten = xs ++ c.toUInt8 :: (c >>> 8).toUInt8 :: ys →
        inetChksumPseudo q src dest proto protoLen = 0 :=
    fun q hq hfill => chksum_insert hp hq heven hflat (by rw [hc]) hpos hfill
  refine ⟨hok, fun l r a b q hne hcut hq hchanged => ?_⟩
  -- the message in order may be cut into single bytes
  have hbytes : Chain16 ((l ++ a :: r).map fun x => [x]) := by
    intro x hx
    obtain ⟨y, -, rfl⟩ := List.mem_map.mp hx
    show 1 < 2 ^ 16
    decide
  have hwhole : ((l ++ a :: r).map fun x => [x]).flatten = l ++ a :: r := by
    rw [← List.flatMap_def, List.flatMap_singleton']
  exact chksum_changed hbytes hq hne hwhole hchanged
    (hok _ hbytes (hwhole.trans hcut.symm))

/-- A datagram of the control block arrives in two buffers, first as it is
and then with a byte changed. -/
theorem chksum_message_datagram :
    inetChksumPseudo [[0x14, 0x4F, 0x14, 0x4F, 0, 11, 0x4E], [0x58, 1, 2, 3]]
        0xC901A8C0 0xC601A8C0 17 11 = 0 ∧
      inetChksumPseudo [[0x14, 0x4F, 0x14, 0x4F, 0, 11, 0x4E], [0x58, 1, 2, 4]]
        0xC901A8C0 0xC601A8C0 17 11 ≠ 0 := by
  have hmessage := chksum_message 0xC901A8C0 0xC601A8C0 17 11
    [[0x14, 0x4F, 0x14, 0x4F, 0, 11, 0, 0, 1], [2, 3]]
    [0x14, 0x4F, 0x14, 0x4F, 0, 11] [1, 2, 3] 0x584E (by decide) rfl rfl
    (by decide)
  exact ⟨hmessage.1 _ (by decide) rfl,
    hmessage.2 [0x14, 0x4F, 0x14, 0x4F, 0, 11, 0x4E, 0x58, 1, 2] [] 3 4 _
      (by decide) rfl (by decide) rfl⟩

end Messages

end Roip
