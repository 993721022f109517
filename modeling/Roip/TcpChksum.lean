/-
Roip/TcpChksum.lean

The checksum of a TCP segment is right.

`tcp_write` sums the data while it copies them, and keeps the sum with its
bytes exchanged while the number of bytes is odd; `tcp_output_segment` adds
the header.  What it sends verifies, however it is cut into buffers on the
way (`tcp_chksum`).

Where `tcp_write` adds to a segment it relies on two things (`SumsKept`).  The
sum of an odd number of bytes must still be exchanged, and it is not any more
if the segment has been sent before; and the buffer that is chained in phase 2
must have an even number of bytes, because its sum is exchanged once too often
otherwise.
-/
import Roip.TcpStream

namespace Roip

open Pieces OnesComplement

/-! ### Sums of data -/

/-- The number that is summed up. -/
def dataSum (data : List UInt8) : Nat := Nat.ofDigits 256 (digitsOf data)

/-- A sum in the order of the bytes. -/
def unswapped : UInt16 × Bool → UInt16
  | (chksum, swapped) =>
    if swapped then (swapBytesInWord chksum.toUInt32).toUInt16 else chksum

theorem swap16_modEq (c : UInt16) :
    (swapBytesInWord c.toUInt32).toUInt16.toNat ≡ 256 * c.toNat
      [MOD 65535] := by
  have hc := c.toNat_lt
  have hlt := swap_lt hc
  have hle : c.toUInt32.toNat ≤ 65535 := by
    rw [UInt16.toNat_toUInt32]
    omega
  rw [UInt32.toNat_toUInt16, swapBytesInWord_toNat hle, UInt16.toNat_toUInt32,
    Nat.mod_eq_of_lt hlt, swap_eq_wrap (m := 65535) (by decide) (by omega)]
  exact wrap_modEq 65535 _

theorem fold16_modEq (a b : UInt16) :
    (foldU32 (a.toUInt32 + b.toUInt32)).toUInt16.toNat ≡ a.toNat + b.toNat
      [MOD 65535] := by
  have ha := a.toNat_lt
  have hb := b.toNat_lt
  have hle : fold 65535 (a.toNat + b.toNat) ≤ 65535 := by
    rw [fold_eq_wrap (by omega)]
    exact wrap_le (by decide)
  rw [UInt32.toNat_toUInt16, foldU32_toNat, UInt32.toNat_add,
    UInt16.toNat_toUInt32, UInt16.toNat_toUInt32,
    Nat.mod_eq_of_lt (show a.toNat + b.toNat < 2 ^ 32 by omega),
    Nat.mod_eq_of_lt (show fold 65535 (a.toNat + b.toNat) < 2 ^ 16 by omega)]
  exact fold_modEq 65535 _

theorem lwipStandardChksum_modEq {data : List UInt8}
    (h : data.length < 2 ^ 16) :
    (lwipStandardChksum data).toNat ≡ dataSum data [MOD 65535] := by
  rw [lwipStandardChksum_toNat h]
  exact wrap_modEq 65535 _

/-- Two exchanges undo each other. -/
theorem base_twice (n : Nat) : 256 * (256 * n) ≡ n [MOD 65535] := by
  have hsq := (base_sq_modEq (m := 65535) (B := 256) (by decide)).mul_right n
  rwa [Nat.one_mul, Nat.mul_assoc] at hsq

/-- What is added counts as it lies behind an odd or an even number of
bytes. -/
theorem dataSum_append (data new : List UInt8) :
    dataSum (data ++ new) ≡ dataSum data +
      (if data.length % 2 = 1 then 256 * dataSum new else dataSum new)
        [MOD 65535] := by
  rw [dataSum, dataSum, dataSum, digitsOf_append]
  split
  · next hodd =>
    exact ofDigits_append_odd_modEq (by decide) (by rwa [length_digitsOf])
  · next heven =>
    refine ofDigits_append_modEq (by decide) ?_
    rw [length_digitsOf]
    omega

theorem odd_iff (n : UInt16) : n &&& 1 ≠ 0 ↔ n.toNat % 2 = 1 := by
  rw [ne_eq, ← UInt16.toNat_inj, UInt16.toNat_and]
  show ¬ n.toNat &&& 1 = 0 ↔ _
  rw [Nat.and_one_is_mod]
  omega

/-- **`tcp_seg_add_chksum`** adds to the sum, exchanged or not. -/
theorem tcpSegAddChksum_spec (c n sc : UInt16) (sw : Bool) :
    (tcpSegAddChksum c n (sc, sw)).2 = (sw ^^ decide (n.toNat % 2 = 1)) ∧
      (unswapped (tcpSegAddChksum c n (sc, sw))).toNat ≡
        (unswapped (sc, sw)).toNat +
          (if sw then 256 * c.toNat else c.toNat) [MOD 65535] := by
  have hfold := fold16_modEq c sc
  rw [tcpSegAddChksum]
  generalize (foldU32 (c.toUInt32 + sc.toUInt32)).toUInt16 = f at hfold
  have hswap := swap16_modEq f
  have htwice := (swap16_modEq (swapBytesInWord f.toUInt32).toUInt16).trans
    ((hswap.mul_left 256).trans (base_twice f.toNat))
  have hsc : (swapBytesInWord sc.toUInt32).toUInt16.toNat + 256 * c.toNat ≡
      256 * f.toNat [MOD 65535] := by
    have hmul := (hfold.mul_left 256).symm
    rw [Nat.mul_add, Nat.add_comm] at hmul
    exact ((swap16_modEq sc).add_right _).trans hmul
  rw [Nat.add_comm] at hfold
  by_cases hodd : n &&& 1 ≠ 0
  · rw [if_pos hodd, decide_eq_true ((odd_iff n).mp hodd)]
    cases sw with
    | false => exact ⟨rfl, htwice.trans hfold⟩
    | true => exact ⟨rfl, hswap.trans hsc.symm⟩
  · rw [if_neg hodd, decide_eq_false (fun h => hodd ((odd_iff n).mpr h))]
    cases sw with
    | false => exact ⟨rfl, hfold⟩
    | true => exact ⟨rfl, hswap.trans hsc.symm⟩

/-! ### Segments -/

/-- The sum of the data is that of the segment. -/
structure TcpSeg.Sums (seg : TcpSeg) : Prop where
  checksummed : seg.dataChecksummed = true
  sum : seg.sum.toNat ≡ dataSum seg.data [MOD 65535]

/-- The sum is exchanged if the number of bytes is odd. -/
def TcpSeg.Parity (seg : TcpSeg) : Prop :=
  seg.chksumSwapped = decide (seg.data.length % 2 = 1)

instance (seg : TcpSeg) : Decidable seg.Parity :=
  inferInstanceAs (Decidable (_ = _))

theorem xor_parity (a b : Nat) :
    (decide (a % 2 = 1) ^^ decide (b % 2 = 1)) =
      decide ((a + b) % 2 = 1) := by
  rcases Nat.mod_two_eq_zero_or_one a with ha | ha <;>
    rcases Nat.mod_two_eq_zero_or_one b with hb | hb <;>
    simp [Nat.add_mod, ha, hb]

/-- More data are summed up. -/
theorem TcpSeg.Sums.add {seg : TcpSeg} {c n : UInt16} {new : List UInt8}
    (h : seg.Sums) (hpar : seg.Parity) (hn : n.toNat = new.length)
    (hc : c.toNat ≡ dataSum new [MOD 65535]) :
    (tcpSegAddChksum c n (seg.chksum, seg.chksumSwapped)).2 =
        decide ((seg.data ++ new).length % 2 = 1) ∧
      (unswapped (tcpSegAddChksum c n
        (seg.chksum, seg.chksumSwapped))).toNat ≡ dataSum (seg.data ++ new)
          [MOD 65535] := by
  obtain ⟨hsw, hsum⟩ := tcpSegAddChksum_spec c n seg.chksum
    seg.chksumSwapped
  rw [TcpSeg.Parity] at hpar
  refine ⟨?_, (hsum.trans ?_).trans (dataSum_append seg.data new).symm⟩
  · rw [hsw, hpar, hn, xor_parity, List.length_append]
  · have hseg : (unswapped (seg.chksum, seg.chksumSwapped)).toNat ≡
        dataSum seg.data [MOD 65535] := h.sum
    refine hseg.add ?_
    simp only [hpar, decide_eq_true_eq]
    split
    · exact hc.mul_left 256
    · exact hc

theorem lasting_sums : Lasting TcpSeg.Sums where
  fresh := by
    intro data n hn room seqno
    have hlt := n.toNat_lt
    refine ⟨rfl, ?_⟩
    obtain ⟨-, hsum⟩ := tcpSegAddChksum_spec (lwipStandardChksum data) n 0
      false
    have hdata : (freshSeg data n room seqno).data = data :=
      List.append_nil data
    rw [hdata]
    refine hsum.trans ?_
    show 0 + (lwipStandardChksum data).toNat ≡ _ [MOD 65535]
    rw [Nat.zero_add]
    exact lwipStandardChksum_modEq (by omega)
  checksummed h := h.checksummed
  flags h _ := ⟨h.checksummed, h.sum⟩
  unswap h := ⟨h.checksummed, h.sum⟩

theorem fill_sums {seg seg' : TcpSeg} {data : List UInt8} {n : UInt16}
    (h : seg.Sums) (hpar : seg.Parity) (hn : n.toNat = data.length)
    (hfill : seg.fill data n = some seg') : seg'.Sums ∧ seg'.Parity := by
  have hlt := n.toNat_lt
  rw [TcpSeg.fill] at hfill
  split at hfill
  · rw [← Option.some.inj hfill]
    exact ⟨h, hpar⟩
  · rcases List.eq_nil_or_concat seg.p with hnil | ⟨front, q, hq⟩
    · rw [hnil] at hfill
      cases hfill
    · rw [List.concat_eq_append] at hq
      have hlast : seg.p.getLast? = some q := by
        rw [hq, List.getLast?_concat]
      simp only [hlast] at hfill
      split at hfill
      · obtain ⟨hsw, hsum⟩ := h.add hpar hn
          (lwipStandardChksum_modEq (by omega))
        obtain rfl := Option.some.inj hfill
        have hdata : seg.data ++ data = ((seg.p.dropLast ++
            [(⟨q.payload ++ data, q.room - data.length⟩ : Pbuf)]).map
              Pbuf.payload).flatten := by
          simp [TcpSeg.data, hq]
        rw [hdata] at hsw hsum
        exact ⟨⟨rfl, hsum⟩, hsw⟩
      · cases hfill

theorem cat_sums {seg : TcpSeg} {c : Concat} (h : seg.Sums)
    (hpar : seg.Parity) (hn : c.chksummed.toNat = c.p.payload.length)
    (hc : c.chksum.toNat ≡ dataSum c.p.payload [MOD 65535]) :
    (seg.cat (some c)).Sums := by
  obtain ⟨-, hsum⟩ := h.add hpar hn hc
  have hdata : seg.data ++ c.p.payload = (seg.cat (some c)).data := by
    simp [TcpSeg.cat, TcpSeg.data]
  rw [hdata] at hsum
  exact ⟨rfl, hsum⟩

/-- What `tcp_write` relies on where it adds to the last segment. -/
def TcpSender.SumsKept (s : TcpSender) (arg : List UInt8) (len : UInt16)
    (more : Bool) (mem : Nat → Bool) : Prop :=
  ∀ last ∈ s.unsent.getLast?, last.Parity ∧
    ∀ ph ∈ s.extend last arg len s.mssLocal more mem, ∀ c ∈ ph.concat,
      c.chksummed.toNat % 2 = 0

instance (s : TcpSender) (arg : List UInt8) (len : UInt16) (more : Bool)
    (mem : Nat → Bool) : Decidable (s.SumsKept arg len more mem) :=
  inferInstanceAs (Decidable (∀ _ ∈ _, _ ∧ ∀ _ ∈ _, ∀ _ ∈ _, _))

section Sends

variable {s₀ s : TcpSender} {stream arg : List UInt8} {a : Nat}
variable {U N : List (Nat × List UInt8)} {len : UInt16} {more : Bool}
variable {mem : Nat → Bool}

/-- The sum of an extended segment is right. -/
theorem TcpInv.extended_sums (h : TcpInv TcpSeg.Sums s₀ stream a U N s)
    (harg : len.toNat ≤ arg.length) (hkept : s.SumsKept arg len more mem)
    {seg : TcpSeg} (hseg : s.extended arg len more mem = some seg) :
    seg.Sums := by
  simp only [TcpSender.extended, Option.bind_eq_bind,
    Option.bind_eq_some_iff] at hseg
  obtain ⟨last, hs, ph, hph, seg', hfill, hcat⟩ := hseg
  obtain ⟨hpar, heven⟩ := hkept last hs
  have hspec := extend_spec (h.room last hs).1 h.queuelen_le hph
  obtain ⟨x, -, hlast⟩ := h.last hs
  have hpos := hspec.pos
  have hpos_le := hspec.pos_le
  obtain ⟨hsums, hpar'⟩ := fill_sums hlast.good hpar (by
    rw [List.length_take]
    omega) hfill
  rw [← Option.some.inj hcat]
  rcases hc : ph.concat with - | c
  · exact hsums
  · obtain ⟨-, hpay, -, hchk⟩ := hspec.concat c hc
    rw [hc] at hpos
    have hpos' : ph.pos.toNat =
        ph.oversizeUsed.toNat + c.chksummed.toNat := hpos
    have hn : c.chksummed.toNat = c.p.payload.length := by
      rw [hpay, List.length_take, List.length_drop]
      omega
    have hclt := c.chksummed.toNat_lt
    refine cat_sums hsums hpar' hn ?_
    -- the sum of an even number of bytes is not exchanged
    obtain ⟨hsw, hsum⟩ := tcpSegAddChksum_spec
      (lwipStandardChksum c.p.payload) c.chksummed 0 false
    rw [decide_eq_false (by have := heven ph hph c hc; omega)] at hsw
    have hun : unswapped (tcpSegAddChksum (lwipStandardChksum c.p.payload)
        c.chksummed (0, false)) = c.chksum := by
      rw [hchk]
      show (if (tcpSegAddChksum (lwipStandardChksum c.p.payload) c.chksummed
        (0, false)).2 = true then _ else _) = _
      rw [hsw]
      rfl
    rw [hun] at hsum
    refine hsum.trans ?_
    show 0 + (lwipStandardChksum c.p.payload).toNat ≡ _ [MOD 65535]
    rw [Nat.zero_add]
    exact lwipStandardChksum_modEq (by omega)

/-! ### What is sent -/

/-- The header up to the checksum. -/
def TcpHdr.front (hdr : TcpHdr) : List UInt8 :=
  bytesOf16 hdr.src ++ bytesOf16 hdr.dest ++ bytesOf32 hdr.seqno ++
    bytesOf32 hdr.ackno ++ [0x50, hdr.flags] ++ bytesOf16 hdr.wnd

theorem wire_flatten (hdr : TcpHdr) (p : List (List UInt8)) :
    (wire hdr p).flatten = hdr.front ++ hdr.chksum.toUInt8 ::
      (hdr.chksum >>> 8).toUInt8 :: 0 :: 0 :: p.flatten := by
  rcases p with - | ⟨q, p⟩
  · rfl
  · simp [wire, TcpHdr.bytes, TcpHdr.front]

theorem wire_chain {hdr : TcpHdr} {p : List (List UInt8)}
    (h : p.flatten.length ≤ 1460) : Chain16 (wire hdr p) := by
  have hq {q : List UInt8} (hq : q ∈ wire hdr p) :
      q.length ≤ (wire hdr p).flatten.length :=
    (List.sublist_flatten_of_mem hq).length_le
  intro q hmem
  have hle := hq hmem
  rw [wire_flatten, List.length_append] at hle
  have hfront : hdr.front.length = 16 := rfl
  simp only [List.length_cons] at hle
  omega

/-- A header whose checksum is right verifies. -/
theorem wire_verifies {hdr : TcpHdr} {p q : List (List UInt8)}
    {src dest : UInt32} {n c : UInt16} (hlen : p.flatten.length ≤ 1460)
    (hzero : hdr.chksum = 0)
    (hc : c.toNat ≡ (inetChksumPseudo (wire hdr p) src dest ipProtoTcp
      n).toNat [MOD 65535]) (hq : Chain16 q)
    (hflat : q.flatten = (wire { hdr with chksum := c } p).flatten) :
    inetChksumPseudo q src dest ipProtoTcp n = 0 := by
  rw [wire_flatten] at hflat
  have hflat₀ := wire_flatten hdr p
  rw [hzero] at hflat₀
  have hfront : hdr.front.length = 16 := rfl
  refine chksum_insert (wire_chain hlen) hq (by rw [hfront]) hflat₀ hc ?_
    hflat
  refine Nat.add_pos_left (Nat.add_pos_left ?_ _) _
  exact pseudoSum_pos (by decide)

/-- The checksum of `tcp_output_segment` is that of the whole segment. -/
theorem segmentChksum_modEq {hdr : TcpHdr} {seg : TcpSeg} {c : UInt16}
    (hsums : seg.Sums) (hlen : seg.data.length ≤ 1460)
    (hc : s.segmentChksum hdr seg.unswap seg.sum = some c) :
    c.toNat ≡ (inetChksumPseudo (wire hdr (seg.p.map Pbuf.payload)) s.localIp
      s.remoteIp ipProtoTcp (UInt16.ofNat (20 + seg.data.length))).toNat
        [MOD 65535] := by
  have hchecked : seg.unswap.dataChecksummed = true := hsums.checksummed
  have hdata : seg.unswap.data = seg.data := rfl
  rw [TcpSender.segmentChksum, if_neg (by simp [hchecked]),
    inetChksumPseudoPartial_wire, hdata, Option.bind_eq_bind,
    Option.bind_some] at hc
  generalize UInt16.ofNat (20 + seg.data.length) = n at hc ⊢
  -- the sum of the header
  have hhdr := (fold_modEq 65535 _).trans (lwipStandardChksum_modEq
    (show hdr.bytes.length < 2 ^ 16 by
      rw [hdr.bytes_length]
      decide))
  have hle : (foldU32 (lwipStandardChksum hdr.bytes).toUInt32).toNat ≤
      65535 := by
    rw [foldU32_toNat, UInt16.toNat_toUInt32]
    have := (lwipStandardChksum hdr.bytes).toNat_lt
    simp only [fold]
    omega
  rw [← UInt16.toNat_toUInt32, ← foldU32_toNat] at hhdr
  generalize foldU32 (lwipStandardChksum hdr.bytes).toUInt32 = x at hc hhdr hle
  -- the sum of all
  have hflat : dataSum (wire hdr (seg.p.map Pbuf.payload)).flatten ≡
      dataSum hdr.bytes + dataSum seg.data [MOD 65535] := by
    have hwire : (wire hdr (seg.p.map Pbuf.payload)).flatten =
        hdr.bytes ++ seg.data := by
      rw [wire_flatten, TcpHdr.bytes, TcpSeg.data]
      simp [TcpHdr.front]
    have happ := dataSum_append hdr.bytes seg.data
    rw [hdr.bytes_length, if_neg (by decide)] at happ
    rwa [hwire]
  have hacc : (addPseudo x s.localIp s.remoteIp ipProtoTcp n).toNat = 65535 -
      wrap 65535 (pseudoSum s.localIp s.remoteIp ipProtoTcp n + x.toNat) :=
    addPseudo_toNat hle
  have hnot : (~~~ seg.sum).toNat = 65535 - seg.sum.toNat :=
    UInt16.toNat_not seg.sum
  have hsum_lt := seg.sum.toNat_lt
  have hc' := fold16_modEq (addPseudo x s.localIp s.remoteIp ipProtoTcp n)
    (~~~ seg.sum)
  rw [Option.some.inj hc, hacc, hnot] at hc'
  rw [inetChksumPseudo_toNat (wire_chain hlen)]
  generalize pseudoSum s.localIp s.remoteIp ipProtoTcp n = k at hc' ⊢
  have hw := wrap_modEq 65535 (k + x.toNat)
  have hw_le := wrap_le (m := 65535) (n := k + x.toNat) (by decide)
  have hv := wrap_modEq 65535
    (k + dataSum (wire hdr (seg.p.map Pbuf.payload)).flatten)
  have hv_le := wrap_le (m := 65535)
    (n := k + dataSum (wire hdr (seg.p.map Pbuf.payload)).flatten) (by decide)
  have hvw : wrap 65535
      (k + dataSum (wire hdr (seg.p.map Pbuf.payload)).flatten) ≡
        wrap 65535 (k + x.toNat) + seg.sum.toNat [MOD 65535] := by
    refine hv.trans ((hflat.add_left k).trans ?_)
    rw [← Nat.add_assoc]
    exact ((hhdr.add_left k).symm.trans hw.symm).add hsums.sum.symm
  rw [← dataSum]
  generalize wrap 65535 (k + dataSum (wire hdr
    (seg.p.map Pbuf.payload)).flatten) = v at hv_le hvw ⊢
  generalize wrap 65535 (k + x.toNat) = w at hc' hw_le hvw
  -- both complements add up to nothing with the sum of all
  refine Nat.ModEq.add_right_cancel' v ?_
  have hleft := hc'.add hvw
  have hall : 65535 - w + (65535 - seg.sum.toNat) + (w + seg.sum.toNat) =
      2 * 65535 := by omega
  have hright : 65535 - v + v = 65535 := by omega
  rw [hall] at hleft
  rw [hright]
  exact hleft.trans (by decide)

/-- **What is sent verifies**, however it is cut. -/
theorem Sends.verifies {hdr : TcpHdr} {p q : List (List UInt8)}
    (h : Sends TcpSeg.Sums s₀ stream (.sent hdr p)) (hq : Chain16 q)
    (hflat : q.flatten = (wire hdr p).flatten) :
    inetChksumPseudo q s₀.localIp s₀.remoteIp ipProtoTcp
      (UInt16.ofNat (20 + p.flatten.length)) = 0 := by
  cases h with
  | @segment s seg x c ips carries sits short sum =>
    have hlen : seg.data.length ≤ 1460 := by
      rw [carries.data]
      exact short
    have hc := segmentChksum_modEq carries.good hlen sum
    rw [ips.1, ips.2] at hc
    exact wire_verifies hlen rfl hc hq hflat
  | @plain s n p flags ips sits short =>
    refine wire_verifies (Nat.le_trans short (by decide)) rfl ?_ hq hflat
    rw [ips.1, ips.2]

/-! ### Runs -/

/-- The buffer `[4, 5, 6]` is chained, and its sum is exchanged once too often:
the segment is sent with a checksum that does not verify. -/
example : ∃ hdr, .sent hdr [[1, 2, 3], [4, 5, 6]] ∈
      (run tcpStep { tcpStart with nodelay := true, mss := 100 }
        [.write [1, 2, 3] 3 false fun _ => true,
          .write [4, 5, 6] 3 false fun _ => true, .output false true]).out ∧
    inetChksumPseudo (wire hdr [[1, 2, 3], [4, 5, 6]]) 0xC901A8C0 0x0501A8C0
      ipProtoTcp 26 ≠ 0 :=
  ⟨⟨80, 50000, 0xFFFFFFFA, 7000, 0x18, 2920, 17715⟩, by decide +kernel⟩

end Sends

/-- What the run of `tcpOps` relies on for its checksums. -/
def sumsKept (s : TcpSender) : TcpOp → Bool
  | .write arg len more mem => s.SumsKept arg len more mem
  | _ => true

theorem tcpOps_sumsKept (o : List TcpAct) (s : TcpSender) (arg : List UInt8)
    (len : UInt16) (more : Bool) (mem : Nat → Bool)
    (hf : Feeds tcpStep tcpStart tcpOps o s (.write arg len more mem)) :
    s.SumsKept arg len more mem := by
  have hcheck : checkRun tcpStep sumsKept tcpStart tcpOps = true := by
    decide +kernel
  have hok := checkRun_feeds hcheck hf
  exact of_decide_eq_true hok

/-- The header of the segment to which the second write has added. -/
def tcpOpsHdr : TcpHdr where
  src := 80
  dest := 50000
  seqno := 2
  ackno := 7000
  flags := 0x18
  wnd := 2920
  chksum := 0x3020

end Roip
