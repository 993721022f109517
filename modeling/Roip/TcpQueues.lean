/-
Roip/TcpQueues.lean

The queues of a TCP sender hold the end of the stream.

The stream is what `tcp_write` has accepted.  Places in it are natural numbers
and never come round; `seqOf iss n` is the sequence number of the place `n`.
As everything in the queues lies close together, comparing sequence numbers
compares places (`seqLt_seqOf` and the like).

`TcpCore` connects the queues with the pieces of `Held`: each segment carries
a piece, in the same list, and the counters of the connection agree with what
is queued.  Sending and retransmitting move segments between the queues, and an
acknowledgement drops them.
-/
import Roip.Lib.Pieces
import Roip.TcpOut

namespace Roip

open Pieces OnesComplement

/-! ### Sequence numbers -/

/-- The sequence number of a place in the stream. -/
def seqOf (iss : UInt32) (n : Nat) : UInt32 := iss + UInt32.ofNat n

section Seq

variable {iss : UInt32} {p q r : Nat}

@[simp] theorem seqOf_zero (iss : UInt32) : seqOf iss 0 = iss := by
  rw [seqOf]
  exact UInt32.add_zero iss

theorem seqOf_add (iss : UInt32) (n k : Nat) :
    seqOf iss n + UInt32.ofNat k = seqOf iss (n + k) := by
  rw [seqOf, seqOf, UInt32.add_assoc, ← UInt32.ofNat_add]

theorem seqOf_sub (iss : UInt32) (p q : Nat) :
    (seqOf iss p - seqOf iss q).toNat =
      (2 ^ 32 - q % 2 ^ 32 + p % 2 ^ 32) % 2 ^ 32 := by
  have hshift : seqOf iss p - seqOf iss q =
      UInt32.ofNat p - UInt32.ofNat q := by
    rw [seqOf, seqOf]
    grind
  rw [hshift, UInt32.toNat_sub, UInt32.toNat_ofNat', UInt32.toNat_ofNat']

/-- The distance of two places. -/
theorem seqOf_sub_of_le (h : q ≤ p) (hfar : p < q + 2 ^ 32) :
    (seqOf iss p - seqOf iss q).toNat = p - q := by
  rw [seqOf_sub]
  omega

theorem seqOf_inj (h : p < q + 2 ^ 32) (h' : q < p + 2 ^ 32) :
    seqOf iss p = seqOf iss q ↔ p = q := by
  constructor
  · intro heq
    have hsub := seqOf_sub iss p q
    rw [heq, UInt32.sub_self, UInt32.toNat_zero] at hsub
    omega
  · rintro rfl
    rfl

theorem half_le_iff (n : UInt32) : 0x80000000 ≤ n ↔ 2 ^ 31 ≤ n.toNat :=
  UInt32.le_iff_toNat_le

/-- Two places are close to each other. -/
def Near (p q : Nat) : Prop := p < q + 2 ^ 31 ∧ q < p + 2 ^ 31

theorem seqLt_seqOf (h : Near p q) :
    seqLt (seqOf iss p) (seqOf iss q) = decide (p < q) := by
  rw [seqLt, decide_eq_decide, half_le_iff, seqOf_sub]
  obtain ⟨h, h'⟩ := h
  omega

theorem seqLeq_seqOf (h : Near p q) :
    seqLeq (seqOf iss p) (seqOf iss q) = decide (p ≤ q) := by
  obtain ⟨h, h'⟩ := h
  rw [seqLeq, ← Bool.decide_or, decide_eq_decide, half_le_iff, seqOf_sub,
    seqOf_inj (by omega) (by omega)]
  omega

theorem seqGeq_seqOf (h : Near p q) :
    seqGeq (seqOf iss p) (seqOf iss q) = decide (q ≤ p) := by
  obtain ⟨h, h'⟩ := h
  have hlt : seqOf iss p - seqOf iss q < 0x80000000 ↔
      (seqOf iss p - seqOf iss q).toNat < 2 ^ 31 := UInt32.lt_iff_toNat_lt
  rw [seqGeq, decide_eq_decide, hlt, seqOf_sub]
  omega

end Seq

/-! ### Segments and pieces -/

/-- A segment carries a piece of the stream; `Q` is what else is known about
segments. -/
structure Carries (Q : TcpSeg → Prop) (iss : UInt32) (seg : TcpSeg)
    (x : Nat × List UInt8) : Prop where
  seqno : seg.seqno = seqOf iss x.1
  data : seg.data = x.2
  len : seg.len.toNat = x.2.length
  good : Q seg

/-- The sum of the data, in the order of the bytes. -/
def TcpSeg.sum (seg : TcpSeg) : UInt16 :=
  if seg.chksumSwapped then (swapBytesInWord seg.chksum.toUInt32).toUInt16
  else seg.chksum

/-- A segment after it has been sent. -/
def TcpSeg.unswap (seg : TcpSeg) : TcpSeg :=
  { seg with chksum := seg.sum, chksumSwapped := false }

/-- A new segment, as `tcp_write` makes it. -/
def freshSeg (data : List UInt8) (len : UInt16) (room : Nat)
    (seqno : UInt32) : TcpSeg :=
  let chksum := tcpSegAddChksum (lwipStandardChksum data) len (0, false)
  { p := [⟨data, room⟩]
    len
    seqno
    flags := 0
    chksum := chksum.1
    chksumSwapped := chksum.2
    dataChecksummed := true }

/-- What is known about new segments survives their being sent. -/
structure Lasting (Q : TcpSeg → Prop) : Prop where
  fresh : ∀ {data len}, len.toNat = data.length → ∀ room seqno,
    Q (freshSeg data len room seqno)
  checksummed : ∀ {seg}, Q seg → seg.dataChecksummed = true
  flags : ∀ {seg}, Q seg → ∀ flags, Q { seg with flags }
  unswap : ∀ {seg}, Q seg → Q seg.unswap

/-- The buffers of a queue. -/
def buffers (segs : List TcpSeg) : Nat := (segs.map fun seg => seg.p.length).sum

section Carries

variable {Q : TcpSeg → Prop} {iss : UInt32} {seg : TcpSeg}
variable {segs segs' : List TcpSeg} {x : Nat × List UInt8}
variable {X : List (Nat × List UInt8)}

theorem buffers_append (segs segs' : List TcpSeg) :
    buffers (segs ++ segs') = buffers segs + buffers segs' := by
  rw [buffers, List.map_append, List.sum_append_nat]
  rfl

theorem buffers_cons (seg : TcpSeg) (segs : List TcpSeg) :
    buffers (seg :: segs) = seg.p.length + buffers segs := rfl

theorem buffers_perm (h : segs.Perm segs') : buffers segs = buffers segs' :=
  (h.map _).sum_nat

/-- A segment with data has a buffer. -/
theorem Carries.buffers_pos (h : Carries Q iss seg x) (hx : x.2 ≠ []) :
    seg.p ≠ [] := by
  rintro hnil
  have hdata := h.data
  rw [TcpSeg.data, hnil] at hdata
  exact hx hdata.symm

theorem buffers_eq_zero (h : List.Forall₂ (Carries Q iss) segs X)
    (hX : ∀ x ∈ X, x.2 ≠ []) (hzero : buffers segs = 0) : segs = [] := by
  rcases h with - | ⟨hseg, -⟩
  · rfl
  · rw [buffers_cons, Nat.add_eq_zero_iff, List.length_eq_zero_iff] at hzero
    exact absurd hzero.1 (hseg.buffers_pos (hX _ List.mem_cons_self))

theorem Carries.flags (h : Carries Q iss seg x) (hQ : Lasting Q)
    (flags : UInt8) : Carries Q iss { seg with flags } x :=
  ⟨h.seqno, h.data, h.len, hQ.flags h.good flags⟩

theorem Carries.unswap (h : Carries Q iss seg x) (hQ : Lasting Q) :
    Carries Q iss seg.unswap x :=
  ⟨h.seqno, h.data, h.len, hQ.unswap h.good⟩

/-- The end of the segment is the end of the piece. -/
theorem Carries.end_eq (h : Carries Q iss seg x) :
    seg.end = seqOf iss (stop List.length x) := by
  rw [TcpSeg.end, h.seqno, stop, ← seqOf_add, ← h.len,
    UInt32.ofNat_uInt16ToNat]

end Carries

/-! ### The invariant -/

/-- The queues of `s` hold the end of the `stream`, of which the first `a`
bytes are acknowledged, in the pieces `U` and `N`; `s₀` is the connection when
it was established. -/
structure TcpCore (Q : TcpSeg → Prop) (s₀ : TcpSender) (stream : List UInt8)
    (a : Nat) (U N : List (Nat × List UInt8)) (s : TcpSender) : Prop where
  held : Held stream a s.mssLocal.toNat U N
  unacked : List.Forall₂ (Carries Q s₀.sndLbb) s.unacked U
  unsent : List.Forall₂ (Carries Q s₀.sndLbb) s.unsent N
  lastack : s.lastack = seqOf s₀.sndLbb a
  sndLbb : s.sndLbb = seqOf s₀.sndLbb stream.length
  sndNxt : ∃ m, a ≤ m ∧ m ≤ stream.length ∧ s.sndNxt = seqOf s₀.sndLbb m
  sndBuf : s.sndBuf.toNat + (stream.length - a) = 2920
  queuelen : s.sndQueuelen.toNat = buffers (s.unacked ++ s.unsent)
  queuelen_le : s.sndQueuelen.toNat ≤ 8
  mss_pos : 0 < s.mss.toNat
  mss_le : s.mss.toNat ≤ 1460
  cwnd : 0 < s.cwnd.toNat
  ssthresh : s.inFastRexmit = true → 0 < s.ssthresh.toNat
  room : ∀ seg, s.unsent.getLast? = some seg →
    seg.len.toNat + s.unsentOversize.toNat ≤ s.mssLocal.toNat ∧
    ∀ q, seg.p.getLast? = some q → s.unsentOversize.toNat ≤ q.room
  ips : s.localIp = s₀.localIp ∧ s.remoteIp = s₀.remoteIp

/-- Nothing is left over of a segment that is not there. -/
structure TcpInv (Q : TcpSeg → Prop) (s₀ : TcpSender) (stream : List UInt8)
    (a : Nat) (U N : List (Nat × List UInt8)) (s : TcpSender) : Prop extends
    TcpCore Q s₀ stream a U N s where
  noRoom : s.unsent = [] → s.unsentOversize = 0

/-- What may be sent: a segment that carries a piece of the stream, or a
header with the checksum of all, with data of the stream or without. -/
inductive Sends (Q : TcpSeg → Prop) (s₀ : TcpSender) (stream : List UInt8) :
    TcpAct → Prop
  | segment {s : TcpSender} {seg : TcpSeg} {x : Nat × List UInt8}
      {chksum : UInt16}
      (ips : s.localIp = s₀.localIp ∧ s.remoteIp = s₀.remoteIp)
      (carries : Carries Q s₀.sndLbb seg x)
      (sits : x.2 <+: stream.drop x.1) (short : x.2.length ≤ 1460)
      (sum : s.segmentChksum (s.header seg.seqno seg.flags) seg.unswap
        seg.sum = some chksum) :
      Sends Q s₀ stream (.sent
        { s.header seg.seqno seg.flags with chksum }
        (seg.p.map Pbuf.payload))
  | plain {s : TcpSender} {n : Nat} {p : List (List UInt8)} {flags : UInt8}
      (ips : s.localIp = s₀.localIp ∧ s.remoteIp = s₀.remoteIp)
      (sits : p.flatten <+: stream.drop n) (short : p.flatten.length ≤ 1) :
      Sends Q s₀ stream (.sent
        { s.header (seqOf s₀.sndLbb n) flags with
          chksum := inetChksumPseudo
            (wire (s.header (seqOf s₀.sndLbb n) flags) p) s.localIp s.remoteIp
            ipProtoTcp (UInt16.ofNat (20 + p.flatten.length)) } p)

section Core

variable {Q : TcpSeg → Prop} {s₀ s s' : TcpSender} {stream : List UInt8}
variable {a : Nat} {U N : List (Nat × List UInt8)}

theorem uint16_min_toNat (m n : UInt16) :
    (min m n).toNat = min m.toNat n.toNat := by
  show (if m ≤ n then m else n).toNat = _
  split
  · next h => exact (Nat.min_eq_left (UInt16.le_iff_toNat_le.mp h)).symm
  · next h =>
    rw [UInt16.le_iff_toNat_le] at h
    exact (Nat.min_eq_right (by omega)).symm

theorem mssLocal_toNat (s : TcpSender) :
    s.mssLocal.toNat = min s.mss.toNat (s.sndWndMax.toNat / 2) := by
  rw [TcpSender.mssLocal, uint16_min_toNat, UInt16.toNat_div]
  rfl

theorem mssLocal_le (s : TcpSender) : s.mssLocal.toNat ≤ s.mss.toNat := by
  rw [mssLocal_toNat]
  exact Nat.min_le_left _ _

/-- Everything in the queues lies close to what is acknowledged. -/
theorem TcpCore.bounds (h : TcpCore Q s₀ stream a U N s)
    {x : Nat × List UInt8} (hx : x ∈ U ++ N) :
    a < stop List.length x ∧ stop List.length x ≤ stream.length ∧
      x.1 + x.2.length = stop List.length x ∧ 0 < x.2.length ∧
      x.2.length ≤ 1460 ∧ stream.length ≤ a + 2920 := by
  have hshort := h.held.short x hx
  have hmss := mssLocal_le s
  have hle := h.mss_le
  have hbuf := h.sndBuf
  have ha := h.held.le
  exact ⟨h.held.late x hx, h.held.stop_le hx, rfl, h.held.pos hx, by omega,
    by omega⟩

/-- Two places in the queues are close to each other. -/
theorem TcpCore.near (h : TcpCore Q s₀ stream a U N s)
    {x y : Nat × List UInt8} (hx : x ∈ U ++ N) (hy : y ∈ U ++ N) :
    Near x.1 y.1 := by
  have hbx := h.bounds hx
  have hby := h.bounds hy
  constructor <;> omega

/-! ### Sending -/

@[simp] theorem TcpHdr.bytes_length (hdr : TcpHdr) : hdr.bytes.length = 20 :=
  rfl

theorem swapBytesInWord_swap {w : UInt32} (hw : w.toNat ≤ 65535) :
    swapBytesInWord (swapBytesInWord w) = w := by
  have hswap := swapBytesInWord_toNat hw
  have hlt := swap_lt (Nat.lt_succ_of_le hw)
  rw [← UInt32.toNat_inj, swapBytesInWord_toNat (by omega), hswap]
  simp only [swap]
  omega

theorem sumPartial_done (p : List (List UInt8)) (sum : UInt32 × Bool) :
    sumPartial p 0 sum = some sum := by
  rcases p with - | ⟨q, p⟩
  · rfl
  · rw [sumPartial, if_neg (by decide)]

/-- The sum over the header alone.  That the first buffer has odd length is
undone in the end. -/
theorem inetChksumPseudoPartial_wire (hdr : TcpHdr) (p : List (List UInt8))
    (src dest : UInt32) (proto : UInt8) (protoLen : UInt16) :
    inetChksumPseudoPartial (wire hdr p) src dest proto protoLen 20 =
      some (addPseudo (foldU32 (lwipStandardChksum hdr.bytes).toUInt32)
        src dest proto protoLen) := by
  obtain ⟨q, p', hwire⟩ : ∃ q p', wire hdr p = (hdr.bytes ++ q) :: p' := by
    rcases p with - | ⟨q, p⟩
    · exact ⟨[], [], by rw [List.append_nil]; rfl⟩
    · exact ⟨q, p, rfl⟩
  have hchk : (if (hdr.bytes ++ q).length > (20 : UInt16).toNat then 20
      else UInt16.ofNat (hdr.bytes ++ q).length) = 20 := by
    split
    · rfl
    · next h =>
      rw [List.length_append, hdr.bytes_length] at h ⊢
      have hq : q.length = 0 := by
        have : (20 : UInt16).toNat = 20 := rfl
        omega
      rw [hq]
      rfl
  have htake : (hdr.bytes ++ q).take (20 : UInt16).toNat = hdr.bytes :=
    List.take_left' hdr.bytes_length
  have hle : (foldU32 (lwipStandardChksum hdr.bytes).toUInt32).toNat ≤
      65535 := by
    rw [foldU32_toNat, UInt16.toNat_toUInt32]
    have := (lwipStandardChksum hdr.bytes).toNat_lt
    simp only [fold]
    omega
  rw [inetChksumPseudoPartial, hwire, sumPartial, if_pos (by decide)]
  simp only [hchk, htake, UInt32.zero_add]
  rw [if_pos (by decide)]
  split
  · rw [UInt16.sub_self, sumPartial_done]
    simp [swapBytesInWord_swap hle]
  · rw [UInt16.sub_self, sumPartial_done]
    rfl

/-- The checksum of the header and the data is computed. -/
theorem segmentChksum_isSome (s : TcpSender) (hdr : TcpHdr) (seg : TcpSeg)
    (chksum : UInt16) (hseg : seg.dataChecksummed = true) :
    ∃ sum, s.segmentChksum hdr seg chksum = some sum := by
  rw [TcpSender.segmentChksum, if_neg (by simp [hseg]),
    inetChksumPseudoPartial_wire]
  exact ⟨_, rfl⟩

/-- A segment is sent. -/
theorem tcpOutputSegment_eq (s : TcpSender) (seg : TcpSeg)
    (hseg : seg.dataChecksummed = true) :
    ∃ chksum, s.segmentChksum (s.header seg.seqno seg.flags) seg.unswap
        seg.sum = some chksum ∧
      s.tcpOutputSegment seg =
        ⟨[.sent { s.header seg.seqno seg.flags with chksum }
          (seg.p.map Pbuf.payload)],
          some (seg.unswap, { s with timing := true })⟩ := by
  obtain ⟨chksum, hchksum⟩ := segmentChksum_isSome s
    (s.header seg.seqno seg.flags) seg.unswap seg.sum hseg
  refine ⟨chksum, hchksum, ?_⟩
  have hsum : s.segmentChksum (s.header seg.seqno seg.flags) { seg with
      chksum := seg.sum, chksumSwapped := false } seg.sum = some chksum :=
    hchksum
  simp only [TcpSender.tcpOutputSegment]
  rw [← TcpSeg.sum, hsum]
  rfl

/-- A segment that has been sent takes its place in `unacked`. -/
theorem insertUnacked_carries {seg : TcpSeg} {x : Nat × List UInt8}
    {segs : List TcpSeg} (hseg : Carries Q s₀.sndLbb seg x)
    (h : List.Forall₂ (Carries Q s₀.sndLbb) segs U)
    (hU : U.Pairwise Early) (hnear : ∀ y ∈ U, Near y.1 x.1) :
    (insertUnacked seg segs).Perm (seg :: segs) ∧
      ∃ U', List.Forall₂ (Carries Q s₀.sndLbb) (insertUnacked seg segs) U' ∧
        U'.Perm (x :: U) ∧ U'.Pairwise Early := by
  rcases List.eq_nil_or_concat segs with rfl | ⟨front, last, rfl⟩
  · obtain rfl := List.forall₂_nil_left_iff.mp h
    exact ⟨List.Perm.refl _, [x], List.Forall₂.cons hseg List.Forall₂.nil,
      List.Perm.refl _, List.pairwise_singleton _ _⟩
  · rw [List.concat_eq_append] at h ⊢
    have hlt {cur : TcpSeg} {y : Nat × List UInt8} (hy : y ∈ U)
        (hcur : Carries Q s₀.sndLbb cur y) :
        seqLt cur.seqno seg.seqno = decide (y.1 < x.1) := by
      rw [hcur.seqno, hseg.seqno, seqLt_seqOf (hnear y hy)]
    have hgt {y : Nat × List UInt8} (hy : y ∈ U)
        (hlast : Carries Q s₀.sndLbb last y) :
        seqLt seg.seqno last.seqno = decide (x.1 < y.1) := by
      rw [hlast.seqno, hseg.seqno, seqLt_seqOf (hnear y hy).symm]
    rw [insertUnacked, List.getLast?_concat]
    dsimp only
    split
    · refine ⟨?_, insertEarly x U, ?_, insertEarly_perm x U,
        pairwise_insertEarly x hU⟩
      · refine List.perm_middle.trans ?_
        rw [List.takeWhile_append_dropWhile]
      · exact List.rel_append
          (forall₂_takeWhile h fun cur y hy hcur => hlt hy hcur)
          (List.Forall₂.cons hseg
            (forall₂_dropWhile h fun cur y hy hcur => hlt hy hcur))
    · next hnlt =>
      obtain ⟨U₁, y, rfl, hfront, hlast⟩ := forall₂_concat h
      rw [hgt (by simp) hlast, decide_eq_true_eq] at hnlt
      exact ⟨List.perm_append_singleton _ _, U₁ ++ [y] ++ [x],
        List.rel_append h (List.Forall₂.cons hseg List.Forall₂.nil),
        List.perm_append_singleton _ _,
        pairwise_concat hU (Nat.le_of_not_lt hnlt)⟩

/-- The connection after the first segment of `unsent` has been sent. -/
def TcpSender.afterSegment (s : TcpSender) (seg : TcpSeg)
    (rest : List TcpSeg) : TcpSender :=
  { s with
    unsent := rest
    ackNow := false
    timing := true
    sndNxt := if seqLt s.sndNxt seg.end then seg.end else s.sndNxt
    unacked := if seg.len > 0 then
        insertUnacked { seg with flags := seg.flags ||| tcpAck }.unswap
          s.unacked
      else s.unacked }

/-- **A segment is sent** and waits for its acknowledgement. -/
theorem TcpCore.afterSegment (hQ : Lasting Q) {seg : TcpSeg}
    {rest : List TcpSeg} (h : TcpCore Q s₀ stream a U N s)
    (hs : s.unsent = seg :: rest) :
    ∃ x N' U', N = x :: N' ∧ Carries Q s₀.sndLbb seg x ∧
      TcpCore Q s₀ stream a U' N' (s.afterSegment seg rest) := by
  have hun := h.unsent
  rw [hs] at hun
  obtain ⟨x, N', hseg, hrest, rfl⟩ := List.forall₂_cons_left_iff.mp hun
  have hx : x ∈ U ++ x :: N' := by simp
  obtain ⟨hlate, hstop, hsplit, hpos, hshort, hend⟩ := h.bounds hx
  have hseg' := (hseg.flags hQ (seg.flags ||| tcpAck)).unswap hQ
  obtain ⟨hperm, U', hU', hpermU, hsorted⟩ := insertUnacked_carries hseg'
    h.unacked h.held.sortedU
    (fun y hy => h.near (List.mem_append_left _ hy) hx)
  have hlen : seg.len > 0 := by
    rw [gt_iff_lt, UInt16.lt_iff_toNat_lt, hseg.len]
    exact hpos
  have hunacked : (s.afterSegment seg rest).unacked =
      insertUnacked { seg with flags := seg.flags ||| tcpAck }.unswap
        s.unacked := if_pos hlen
  obtain ⟨m, ham, hm, hnxt⟩ := h.sndNxt
  refine ⟨x, N', U', rfl, hseg, ?_, by rwa [hunacked], hrest, h.lastack,
    h.sndLbb, ⟨max m (stop List.length x), by omega, by omega, ?_⟩, h.sndBuf,
    ?_, h.queuelen_le, h.mss_pos, h.mss_le, h.cwnd, h.ssthresh, ?_, h.ips⟩
  · refine h.held.perm ?_ hsorted (List.pairwise_cons.mp h.held.sortedN).2
    exact (hpermU.append_right N').trans List.perm_middle.symm
  · show (if seqLt s.sndNxt seg.end then seg.end else s.sndNxt) = _
    rw [hseg.end_eq, hnxt, seqLt_seqOf ⟨by omega, by omega⟩]
    rcases Nat.lt_or_ge m (stop List.length x) with hlt | hge
    · rw [if_pos (decide_eq_true hlt), Nat.max_eq_right (Nat.le_of_lt hlt)]
    · rw [if_neg (by simp [hge]), Nat.max_eq_left hge]
  · show s.sndQueuelen.toNat = buffers (_ ++ rest)
    rw [h.queuelen, hs, hunacked, buffers_append, buffers_append,
      buffers_perm hperm, buffers_cons, buffers_cons]
    show _ = seg.p.length + _ + _
    omega
  · intro last hlast
    refine h.room last ?_
    rw [hs]
    rcases rest with - | ⟨next, rest⟩
    · cases hlast
    · rwa [List.getLast?_cons_cons]

/-- The loop of `tcp_output` sends the first segment, or ends. -/
theorem sendLoop_cons (wnd : UInt32) {seg : TcpSeg} (rest : List TcpSeg)
    (hseg : seg.dataChecksummed = true) :
    TcpSender.sendLoop wnd (seg :: rest) s = pure s ∨
      ∃ chksum, s.segmentChksum (s.header seg.seqno (seg.flags ||| tcpAck))
          { seg with flags := seg.flags ||| tcpAck }.unswap seg.sum =
            some chksum ∧
        TcpSender.sendLoop wnd (seg :: rest) s =
          (TcpSender.sendLoop wnd rest (s.afterSegment seg rest)).after
            [.sent { s.header seg.seqno (seg.flags ||| tcpAck) with chksum }
              (seg.p.map Pbuf.payload)] := by
  rw [TcpSender.sendLoop]
  split
  · obtain ⟨chksum, hchksum, hout⟩ := tcpOutputSegment_eq
      { s with unsent := rest, ackNow := false }
      { seg with flags := seg.flags ||| tcpAck } hseg
    refine Or.inr ⟨chksum, hchksum, ?_⟩
    dsimp only
    rw [hout]
    rfl
  · exact Or.inl rfl

/-- **The loop of `tcp_output`** sends the stream. -/
theorem TcpCore.sendLoop (hQ : Lasting Q) (wnd : UInt32)
    (h : TcpCore Q s₀ stream a U N s) :
    ∃ o s' U' N', TcpSender.sendLoop wnd s.unsent s = ⟨o, some s'⟩ ∧
      TcpCore Q s₀ stream a U' N' s' ∧
      ∀ t ∈ o, Sends Q s₀ stream t := by
  induction hs : s.unsent generalizing s U N with
  | nil => exact ⟨[], s, U, N, rfl, h, nofun⟩
  | cons seg rest ih =>
    obtain ⟨x, N', U', rfl, hseg, h'⟩ := h.afterSegment hQ hs
    rcases sendLoop_cons wnd (s := s) rest
      (hQ.checksummed hseg.good) with hdone | ⟨chksum, hchksum, hturn⟩
    · exact ⟨[], s, U, _, hdone, h, nofun⟩
    · obtain ⟨o, s', U₂, N₂, hloop, h₂, ho⟩ := ih h' rfl
      refine ⟨_, s', U₂, N₂, by rw [hturn, hloop]; rfl, h₂, ?_⟩
      intro t ht
      rcases List.mem_cons.mp ht with rfl | ht
      · have hflags := hseg.flags hQ (seg.flags ||| tcpAck)
        have hx : x ∈ U ++ x :: N' := by simp
        exact Sends.segment h.ips hflags (h.held.sits x hx)
          (h.bounds hx).2.2.2.2.1 hchksum
      · exact ho t ht

/-- Two states with the same queues. -/
structure SameQueues (s s' : TcpSender) : Prop where
  unacked : s'.unacked = s.unacked
  unsent : s'.unsent = s.unsent
  lastack : s'.lastack = s.lastack
  sndLbb : s'.sndLbb = s.sndLbb
  sndNxt : s'.sndNxt = s.sndNxt
  sndBuf : s'.sndBuf = s.sndBuf
  queuelen : s'.sndQueuelen = s.sndQueuelen
  mss : s'.mss = s.mss
  mssLocal : s.mssLocal.toNat ≤ s'.mssLocal.toNat
  oversize : s'.unsentOversize = s.unsentOversize
  ips : s'.localIp = s.localIp ∧ s'.remoteIp = s.remoteIp

theorem TcpCore.same (h : TcpCore Q s₀ stream a U N s)
    (hs : SameQueues s s') (hcwnd : 0 < s'.cwnd.toNat)
    (hssthresh : s'.inFastRexmit = true → 0 < s'.ssthresh.toNat) :
    TcpCore Q s₀ stream a U N s' where
  held := h.held.mono hs.mssLocal
  unacked := hs.unacked ▸ h.unacked
  unsent := hs.unsent ▸ h.unsent
  lastack := hs.lastack.trans h.lastack
  sndLbb := hs.sndLbb.trans h.sndLbb
  sndNxt := hs.sndNxt ▸ h.sndNxt
  sndBuf := hs.sndBuf ▸ h.sndBuf
  queuelen := by rw [hs.queuelen, hs.unacked, hs.unsent, h.queuelen]
  queuelen_le := hs.queuelen ▸ h.queuelen_le
  mss_pos := hs.mss ▸ h.mss_pos
  mss_le := hs.mss ▸ h.mss_le
  cwnd := hcwnd
  ssthresh := hssthresh
  room seg hseg := by
    rw [hs.unsent] at hseg
    rw [hs.oversize]
    obtain ⟨hle, hroom⟩ := h.room seg hseg
    exact ⟨Nat.le_trans hle hs.mssLocal, hroom⟩
  ips := ⟨hs.ips.1.trans h.ips.1, hs.ips.2.trans h.ips.2⟩

theorem TcpInv.same (h : TcpInv Q s₀ stream a U N s)
    (hs : SameQueues s s') (hcwnd : 0 < s'.cwnd.toNat)
    (hssthresh : s'.inFastRexmit = true → 0 < s'.ssthresh.toNat) :
    TcpInv Q s₀ stream a U N s' :=
  ⟨h.toTcpCore.same hs hcwnd hssthresh, by
    rw [hs.unsent, hs.oversize]
    exact h.noRoom⟩

/-- What is not about the queues. -/
theorem sameQueues_set (s : TcpSender) (rcvNxt : UInt32) (rcvAnnWnd : UInt16)
    (dupacks : UInt8) (cwnd ssthresh : UInt16)
    (timing ackNow nagleMemErr inFastRexmit : Bool) :
    SameQueues s { s with
      rcvNxt, rcvAnnWnd, dupacks, cwnd, ssthresh, timing, ackNow, nagleMemErr,
      inFastRexmit } :=
  ⟨rfl, rfl, rfl, rfl, rfl, rfl, rfl, rfl, Nat.le_refl _, rfl, rfl, rfl⟩

/-- The connection when the loop of `tcp_output` has ended. -/
def TcpSender.endOutput (s : TcpSender) : TcpSender :=
  { s with
    unsentOversize := if s.unsent = [] then 0 else s.unsentOversize
    nagleMemErr := false }

theorem TcpCore.endOutput (h : TcpCore Q s₀ stream a U N s) :
    TcpInv Q s₀ stream a U N s.endOutput := by
  have h' := h.same (sameQueues_set s s.rcvNxt s.rcvAnnWnd s.dupacks s.cwnd
    s.ssthresh s.timing s.ackNow false s.inFastRexmit) h.cwnd h.ssthresh
  refine ⟨{ h' with room := fun seg hseg => ?_ }, fun hnil => if_pos hnil⟩
  have hne : s.unsent ≠ [] := by
    intro hnil
    rw [show s.endOutput.unsent = [] from hnil] at hseg
    cases hseg
  have hover : s.endOutput.unsentOversize = s.unsentOversize := if_neg hne
  rw [hover]
  exact h.room seg hseg

/-- What `tcp_output` does. -/
theorem tcpOutput_cases (s : TcpSender) (input mem : Bool) :
    s.tcpOutput input mem = pure s ∨
      s.tcpOutput input mem = s.tcpSendEmptyAck mem ∨
      s.tcpOutput input mem =
        TcpSender.sendLoop (min s.sndWnd s.cwnd).toUInt32 s.unsent s >>=
          fun s => pure s.endOutput := by
  rw [TcpSender.tcpOutput]
  dsimp only
  split_ifs
  · exact Or.inl rfl
  · exact Or.inr (Or.inl rfl)
  · exact Or.inr (Or.inr rfl)

/-- **`tcp_output`**. -/
theorem TcpInv.tcpOutput (hQ : Lasting Q) (input mem : Bool)
    (h : TcpInv Q s₀ stream a U N s) :
    ∃ o s' U' N', s.tcpOutput input mem = ⟨o, some s'⟩ ∧
      TcpInv Q s₀ stream a U' N' s' ∧ ∀ t ∈ o, Sends Q s₀ stream t := by
  rcases tcpOutput_cases s input mem with hout | hout | hout <;> rw [hout]
  · exact ⟨[], s, U, N, rfl, h, nofun⟩
  · rw [TcpSender.tcpSendEmptyAck]
    split
    · obtain ⟨m, -, hm, hnxt⟩ := h.sndNxt
      refine ⟨_, _, U, N, rfl,
        h.same (sameQueues_set s s.rcvNxt s.rcvAnnWnd s.dupacks s.cwnd
          s.ssthresh s.timing false s.nagleMemErr s.inFastRexmit) h.cwnd
          h.ssthresh, ?_⟩
      intro t ht
      rw [List.mem_singleton.mp ht, hnxt]
      exact Sends.plain h.ips (p := []) List.nil_prefix (Nat.zero_le 1)
    · exact ⟨[], s, U, N, rfl, h, nofun⟩
  · obtain ⟨o, s', U', N', hloop, h', ho⟩ := h.sendLoop hQ
      (min s.sndWnd s.cwnd).toUInt32
    refine ⟨o, s'.endOutput, U', N', ?_, h'.endOutput, ho⟩
    rw [hloop, Traced.mk_bind, Traced.pure_out, List.append_nil]
    rfl

/-! ### Retransmitting -/

/-- **`tcp_rexmit`** puts the first segment back among those that wait. -/
theorem TcpInv.tcpRexmit (h : TcpInv Q s₀ stream a U N s) :
    ∃ U' N', TcpInv Q s₀ stream a U' N' s.tcpRexmit := by
  rcases hs : s.unacked with - | ⟨seg, rest⟩
  · have heq : s.tcpRexmit = s := by rw [TcpSender.tcpRexmit, hs]
    rw [heq]
    exact ⟨U, N, h⟩
  have hun := h.unacked
  rw [hs] at hun
  obtain ⟨x, U', hseg, hrest, rfl⟩ := List.forall₂_cons_left_iff.mp hun
  have hx : x ∈ x :: U' ++ N := by simp
  have hlt (cur : TcpSeg) (y : Nat × List UInt8) (hy : y ∈ N)
      (hcur : Carries Q s₀.sndLbb cur y) :
      seqLt cur.seqno seg.seqno = decide (y.1 < x.1) := by
    rw [hcur.seqno, hseg.seqno,
      seqLt_seqOf (h.near (List.mem_append_right _ hy) hx)]
  have heq : s.tcpRexmit = { s with
      unacked := rest
      unsent := s.unsent.takeWhile (fun cur => seqLt cur.seqno seg.seqno) ++
        seg :: s.unsent.dropWhile fun cur => seqLt cur.seqno seg.seqno
      unsentOversize :=
        if s.unsent.dropWhile (fun cur => seqLt cur.seqno seg.seqno) = [] then
          0 else s.unsentOversize } := by
    rw [TcpSender.tcpRexmit, hs]
  rw [heq]
  refine ⟨U', insertEarly x N, ⟨?_, hrest, ?_, h.lastack, h.sndLbb, h.sndNxt,
    h.sndBuf, ?_, h.queuelen_le, h.mss_pos, h.mss_le, h.cwnd, h.ssthresh, ?_,
    h.ips⟩, fun hnil => absurd hnil (by simp)⟩
  · refine h.held.perm ?_ (List.pairwise_cons.mp h.held.sortedU).2
      (pairwise_insertEarly x h.held.sortedN)
    exact ((insertEarly_perm x N).append_left U').trans List.perm_middle
  · exact List.rel_append (forall₂_takeWhile h.unsent hlt)
      (List.Forall₂.cons hseg (forall₂_dropWhile h.unsent hlt))
  · dsimp only
    rw [h.queuelen, hs, buffers_append, buffers_append,
      buffers_perm List.perm_middle, buffers_cons, buffers_cons,
      List.takeWhile_append_dropWhile]
    omega
  · intro last hlast
    dsimp only at hlast ⊢
    by_cases hafter : s.unsent.dropWhile
      (fun cur => seqLt cur.seqno seg.seqno) = []
    · -- the segment is now the last one, and has no room
      rw [hafter, List.getLast?_concat] at hlast
      rw [if_pos hafter]
      obtain rfl := Option.some.inj hlast
      refine ⟨?_, fun q _ => Nat.zero_le _⟩
      have hshort := h.held.short x hx
      rw [hseg.len]
      exact hshort
    · rw [if_neg hafter]
      refine h.room last ?_
      rwa [← List.singleton_append, ← List.append_assoc,
        List.getLast?_append_of_ne_nil _ hafter, getLast?_dropWhile hafter]
        at hlast

/-- **`tcp_rexmit_fast`**. -/
theorem TcpInv.tcpRexmitFast (h : TcpInv Q s₀ stream a U N s) :
    ∃ U' N', TcpInv Q s₀ stream a U' N' s.tcpRexmitFast := by
  rw [TcpSender.tcpRexmitFast]
  split
  · obtain ⟨U', N', h'⟩ := h.tcpRexmit
    dsimp only
    generalize s.tcpRexmit = t at h'
    have hpos := h'.mss_pos
    have hle := h'.mss_le
    have hthree : (3 * t.mss).toNat = 3 * t.mss.toNat := by
      rw [UInt16.toNat_mul]
      exact Nat.mod_eq_of_lt (show 3 * t.mss.toNat < 2 ^ 16 by omega)
    have htwo : (2 * t.mss).toNat = 2 * t.mss.toNat := by
      rw [UInt16.toNat_mul]
      exact Nat.mod_eq_of_lt (show 2 * t.mss.toNat < 2 ^ 16 by omega)
    -- half a window leaves room for three segments more
    obtain ⟨half, hhalf, hhalf_le⟩ : ∃ half : UInt16,
        (if t.cwnd > t.sndWnd then t.sndWnd / 2 else t.cwnd / 2) = half ∧
          half.toNat < 2 ^ 15 := by
      refine ⟨_, rfl, ?_⟩
      have hwnd := t.sndWnd.toNat_lt
      have hcwnd := t.cwnd.toNat_lt
      have htwo : (2 : UInt16).toNat = 2 := rfl
      split <;> rw [UInt16.toNat_div, htwo] <;> omega
    rw [hhalf]
    obtain ⟨ssthresh, hss, hss_pos, hss_lt⟩ : ∃ ssthresh : UInt16,
        (if half.toNat < 2 * t.mss.toNat then 2 * t.mss else half) =
          ssthresh ∧ 0 < ssthresh.toNat ∧ ssthresh.toNat < 2 ^ 15 := by
      refine ⟨_, rfl, ?_⟩
      split <;> omega
    rw [hss]
    refine ⟨U', N', h'.same (sameQueues_set t t.rcvNxt t.rcvAnnWnd t.dupacks
      (ssthresh + 3 * t.mss) ssthresh t.timing t.ackNow t.nagleMemErr true)
      ?_ fun _ => hss_pos⟩
    dsimp only
    rw [UInt16.toNat_add, hthree, Nat.mod_eq_of_lt (by omega)]
    omega
  · exact ⟨U, N, h⟩

/-- Everything that is unacknowledged is older than what waits. -/
def TcpSender.InOrder (s : TcpSender) : Prop :=
  ∀ seg ∈ s.unacked.getLast?, ∀ next ∈ s.unsent.head?,
    seqLt seg.seqno next.seqno

instance (s : TcpSender) : Decidable s.InOrder :=
  inferInstanceAs (Decidable (∀ _ ∈ _, ∀ _ ∈ _, _))

theorem TcpCore.sorted (h : TcpCore Q s₀ stream a U N s) (hs : s.InOrder) :
    (U ++ N).Pairwise Early := by
  refine List.pairwise_append.mpr ⟨h.held.sortedU, h.held.sortedN,
    fun x hx y hy => ?_⟩
  rcases List.eq_nil_or_concat s.unacked with hnil | ⟨front, seg, hseg⟩
  · have hU := h.unacked
    rw [hnil] at hU
    rw [List.forall₂_nil_left_iff.mp hU] at hx
    cases hx
  rcases hnext : s.unsent with - | ⟨next, rest⟩
  · have hN := h.unsent
    rw [hnext] at hN
    rw [List.forall₂_nil_left_iff.mp hN] at hy
    cases hy
  have hU := h.unacked
  have hN := h.unsent
  rw [hseg, List.concat_eq_append] at hU
  rw [hnext] at hN
  obtain ⟨U', z, rfl, -, hz⟩ := forall₂_concat hU
  obtain ⟨w, N', hw, -, rfl⟩ := List.forall₂_cons_left_iff.mp hN
  have hlt := hs seg (by rw [hseg, List.concat_eq_append]; simp) next
    (by rw [hnext]; rfl)
  rw [hz.seqno, hw.seqno, seqLt_seqOf (h.near (by simp) (by simp)),
    decide_eq_true_eq] at hlt
  have hxz : x.1 ≤ z.1 := by
    rcases List.mem_append.mp hx with hx | hx
    · exact (List.pairwise_append.mp h.held.sortedU).2.2 x hx z
        (List.mem_singleton.mpr rfl)
    · rw [List.mem_singleton.mp hx]
  have hwy : w.1 ≤ y.1 := by
    rcases List.mem_cons.mp hy with rfl | hy
    · exact Nat.le_refl _
    · exact (List.pairwise_cons.mp h.held.sortedN).1 y hy
  rw [Early]
  omega

/-- **`tcp_rexmit_rto`** sends everything again. -/
theorem TcpInv.tcpRexmitRto (hQ : Lasting Q) (mem : Bool)
    (h : TcpInv Q s₀ stream a U N s) (hs : s.InOrder) :
    ∃ o s' U' N', s.tcpRexmitRto mem = ⟨o, some s'⟩ ∧
      TcpInv Q s₀ stream a U' N' s' ∧ ∀ t ∈ o, Sends Q s₀ stream t := by
  rw [TcpSender.tcpRexmitRto]
  split
  · next hne =>
    have hpos := h.mss_pos
    have hle := h.mss_le
    refine TcpInv.tcpOutput hQ false mem (a := a) (U := []) (N := U ++ N)
      ⟨⟨?_, List.Forall₂.nil, List.rel_append h.unacked h.unsent, h.lastack,
        h.sndLbb, h.sndNxt, h.sndBuf, h.queuelen, h.queuelen_le, hpos, hle,
        hpos, fun _ => ?_, fun last hlast => ?_, h.ips⟩,
        fun hnil => absurd (List.append_eq_nil_iff.mp hnil).1 hne⟩
    · exact h.held.perm (List.Perm.refl _) List.Pairwise.nil (h.sorted hs)
    · dsimp only
      split
      · rw [UInt16.toNat_shiftLeft, Nat.shiftLeft_eq]
        have hone : (1 : UInt16).toNat % 16 = 1 := rfl
        rw [hone]
        omega
      · omega
    · dsimp only at hlast ⊢
      rcases hun : s.unsent with - | ⟨next, rest⟩
      · rw [hun, List.append_nil] at hlast
        obtain ⟨front, hfront⟩ := List.getLast?_eq_some_iff.mp hlast
        have hU := h.unacked
        rw [hfront] at hU
        obtain ⟨U', x, rfl, -, hx⟩ := forall₂_concat hU
        have hshort := h.held.short x (by simp)
        rw [h.noRoom hun, hx.len]
        exact ⟨hshort, fun q _ => Nat.zero_le _⟩
      · refine h.room last ?_
        rw [List.getLast?_append_of_ne_nil _ (by rw [hun]; nofun)] at hlast
        exact hlast
  · exact ⟨[], s, U, N, rfl, h, nofun⟩

/-- **`tcp_zero_window_probe`** sends the first byte. -/
theorem TcpInv.tcpZeroWindowProbe (mem : Bool)
    (h : TcpInv Q s₀ stream a U N s) :
    ∃ o, s.tcpZeroWindowProbe mem = ⟨o, some s⟩ ∧
      ∀ t ∈ o, Sends Q s₀ stream t := by
  have hall : List.Forall₂ (Carries Q s₀.sndLbb) (s.unacked ++ s.unsent)
      (U ++ N) := List.rel_append h.unacked h.unsent
  rw [TcpSender.tcpZeroWindowProbe]
  split
  · exact ⟨[], rfl, nofun⟩
  · next seg rest hs =>
    rw [hs] at hall
    obtain ⟨x, X, hseg, -, hX⟩ := List.forall₂_cons_left_iff.mp hall
    have hx : x ∈ U ++ N := by
      rw [hX]
      exact List.mem_cons_self
    split
    · refine ⟨_, rfl, fun t ht => ?_⟩
      have hone : (seg.data.take 1).length = 1 := by
        have hpos := h.held.pos hx
        rw [hseg.data, List.length_take]
        omega
      have hsits : [seg.data.take 1].flatten <+: stream.drop x.1 := by
        rw [List.flatten_singleton, hseg.data]
        exact (List.take_prefix 1 x.2).trans (h.held.sits x hx)
      have hsend := @Sends.plain Q s₀ stream s x.1 [seg.data.take 1] tcpAck
        h.ips hsits (by rw [List.flatten_singleton, hone])
      rw [List.flatten_singleton, hone] at hsend
      rw [List.mem_singleton.mp ht, hseg.seqno]
      exact hsend
    · exact ⟨[], rfl, nofun⟩

/-! ### Acknowledgements -/

theorem seqLeq_iff (p q : UInt32) :
    seqLeq p q = true ↔ p = q ∨ 2 ^ 31 ≤ (p - q).toNat := by
  rw [seqLeq, Bool.or_eq_true, decide_eq_true_eq, decide_eq_true_eq,
    half_le_iff]

theorem seqGeq_iff (p q : UInt32) :
    seqGeq p q = true ↔ (p - q).toNat < 2 ^ 31 := by
  have hlt : p - q < 0x80000000 ↔ (p - q).toNat < 2 ^ 31 :=
    UInt32.lt_iff_toNat_lt
  rw [seqGeq, decide_eq_true_eq, hlt]

theorem buffers_dropWhile (p : TcpSeg → Bool) (segs : List TcpSeg) :
    buffers (segs.dropWhile p) ≤ buffers segs := by
  have hsplit := buffers_append (segs.takeWhile p) (segs.dropWhile p)
  rw [List.takeWhile_append_dropWhile] at hsplit
  omega

/-- A segment is freed: its buffers do not count any more. -/
theorem freeSeg_eq (seg : TcpSeg) (h : s.sndQueuelen.toNat =
    seg.p.length + buffers (s.unacked ++ s.unsent)) :
    s.freeSeg seg = some { s with
      sndQueuelen := UInt16.ofNat (buffers (s.unacked ++ s.unsent)) } := by
  have hlt := s.sndQueuelen.toNat_lt
  have hsub : s.sndQueuelen - UInt16.ofNat seg.p.length =
      UInt16.ofNat (buffers (s.unacked ++ s.unsent)) := by
    rw [← UInt16.toNat_inj, UInt16.toNat_sub, UInt16.toNat_ofNat',
      UInt16.toNat_ofNat', h]
    omega
  rw [TcpSender.freeSeg, if_neg (by omega)]
  dsimp only
  rw [hsub, if_neg]
  rintro ⟨hne, hun, hsent⟩
  rw [hun, hsent] at hne
  exact hne rfl

/-- The loop over `unacked`. -/
theorem freeUnacked_eq (ackno : UInt32)
    (h : s.sndQueuelen.toNat = buffers (s.unacked ++ s.unsent)) :
    TcpSender.freeUnacked ackno s.unacked s = some { s with
      unacked := s.unacked.dropWhile fun seg => seqLeq seg.end ackno
      sndQueuelen := UInt16.ofNat (buffers
        (s.unacked.dropWhile (fun seg => seqLeq seg.end ackno) ++
          s.unsent)) } := by
  have hsame {t : TcpSender} (ht : t.sndQueuelen.toNat =
      buffers (t.unacked ++ t.unsent)) :
      UInt16.ofNat (buffers (t.unacked ++ t.unsent)) = t.sndQueuelen := by
    rw [← ht]
    exact UInt16.ofNat_toNat
  induction hs : s.unacked generalizing s with
  | nil =>
    have := hsame h
    rw [hs] at this
    rw [TcpSender.freeUnacked, List.dropWhile_nil, this, ← hs]
  | cons seg rest ih =>
    rw [TcpSender.freeUnacked, List.dropWhile_cons]
    split
    · rw [hs] at h
      have hfree := freeSeg_eq (s := { s with unacked := rest }) seg h
      rw [hfree, Option.bind_eq_bind, Option.bind_some]
      exact ih (s := { s with
        unacked := rest
        sndQueuelen := UInt16.ofNat (buffers (rest ++ s.unsent)) })
        (by
          have hlt := s.sndQueuelen.toNat_lt
          rw [List.cons_append, buffers_cons] at h
          dsimp only
          rw [UInt16.toNat_ofNat', Nat.mod_eq_of_lt (by omega)]) rfl
    · have := hsame h
      rw [hs] at this
      rw [this, ← hs]

/-- The loop over `unsent`. -/
theorem freeUnsent_eq (ackno : UInt32)
    (h : s.sndQueuelen.toNat = buffers (s.unacked ++ s.unsent))
    (hroom : s.unsent = [] → s.unsentOversize = 0) :
    TcpSender.freeUnsent ackno s.unsent s = some { s with
      unsent := s.unsent.dropWhile fun seg =>
        seqBetween ackno seg.end s.sndNxt
      unsentOversize :=
        if s.unsent.dropWhile (fun seg => seqBetween ackno seg.end s.sndNxt) =
          [] then 0 else s.unsentOversize
      sndQueuelen := UInt16.ofNat (buffers (s.unacked ++
        s.unsent.dropWhile fun seg =>
          seqBetween ackno seg.end s.sndNxt)) } := by
  have hsame {t : TcpSender} (ht : t.sndQueuelen.toNat =
      buffers (t.unacked ++ t.unsent)) :
      UInt16.ofNat (buffers (t.unacked ++ t.unsent)) = t.sndQueuelen := by
    rw [← ht]
    exact UInt16.ofNat_toNat
  induction hs : s.unsent generalizing s with
  | nil =>
    have := hsame h
    rw [hs] at this
    rw [TcpSender.freeUnsent, List.dropWhile_nil, this, if_pos rfl, ← hs,
      ← hroom hs]
  | cons seg rest ih =>
    rw [TcpSender.freeUnsent, List.dropWhile_cons]
    split
    · rw [hs, buffers_perm List.perm_middle, buffers_cons] at h
      have hfree := freeSeg_eq (s := { s with
        unsent := rest
        unsentOversize := if rest = [] then 0 else s.unsentOversize })
        seg h
      have hnext := ih (s := { s with
        unsent := rest
        unsentOversize := if rest = [] then 0 else s.unsentOversize
        sndQueuelen := UInt16.ofNat (buffers (s.unacked ++ rest)) })
        (by
          have hlt := s.sndQueuelen.toNat_lt
          dsimp only
          rw [UInt16.toNat_ofNat', Nat.mod_eq_of_lt (by omega)])
        (fun hnil => if_pos hnil) rfl
      rw [hfree, Option.bind_eq_bind, Option.bind_some, hnext]
      by_cases hdrop : rest.dropWhile
          (fun seg => seqBetween ackno seg.end s.sndNxt) = []
      · simp only [hdrop, if_true]
      · have hrest : rest ≠ [] := by
          rintro rfl
          exact hdrop rfl
        simp only [if_neg hdrop, if_neg hrest]
    · have := hsame h
      rw [hs] at this
      rw [this, if_neg (by simp), ← hs]

/-- The congestion window stays open. -/
theorem growCwnd_eq (h : 0 < s.cwnd.toNat) :
    ∃ cwnd : UInt16, 0 < cwnd.toNat ∧
      s.growCwnd = some { s with cwnd } := by
  have hne : s.cwnd ≠ 0 := by
    intro hzero
    rw [hzero] at h
    exact absurd h (by decide)
  rw [TcpSender.growCwnd, if_neg hne]
  split_ifs with _ hgrow
  · rw [gt_iff_lt, UInt16.lt_iff_toNat_lt] at hgrow
    exact ⟨_, by omega, rfl⟩
  · exact ⟨s.cwnd, h, rfl⟩
  · dsimp only
    split
    · next hgrow =>
      rw [gt_iff_lt, UInt16.lt_iff_toNat_lt] at hgrow
      exact ⟨_, by omega, rfl⟩
    · exact ⟨s.cwnd, h, rfl⟩

/-- An acknowledgement of new data. -/
theorem TcpCore.newAck_eq (h : TcpCore Q s₀ stream a U N s)
    (ackno : UInt32) :
    ∃ cwnd timing, 0 < cwnd.toNat ∧ s.newAck ackno = some { s with
      cwnd
      timing
      inFastRexmit := false
      sndBuf := s.sndBuf + (ackno - s.lastack).toUInt16
      dupacks := 0
      lastack := ackno
      unacked := s.unacked.dropWhile fun seg => seqLeq seg.end ackno
      sndQueuelen := UInt16.ofNat (buffers
        (s.unacked.dropWhile (fun seg => seqLeq seg.end ackno) ++
          s.unsent)) } := by
  obtain ⟨cwnd₀, hrecover, hpos₀⟩ : ∃ cwnd₀ : UInt16,
      (if s.inFastRexmit then
        { s with inFastRexmit := false, cwnd := s.ssthresh } else s) =
        { s with inFastRexmit := false, cwnd := cwnd₀ } ∧
      0 < cwnd₀.toNat := by
    split
    · next hfast => exact ⟨s.ssthresh, rfl, h.ssthresh hfast⟩
    · next hfast =>
      rw [Bool.not_eq_true] at hfast
      refine ⟨s.cwnd, ?_, h.cwnd⟩
      rw [← hfast]
  obtain ⟨cwnd, hpos, hgrow⟩ := growCwnd_eq (s := { s with
    inFastRexmit := false
    cwnd := cwnd₀
    sndBuf := s.sndBuf + (ackno - s.lastack).toUInt16
    dupacks := 0
    lastack := ackno }) hpos₀
  have hfree := freeUnacked_eq (s := { s with
    inFastRexmit := false
    cwnd
    sndBuf := s.sndBuf + (ackno - s.lastack).toUInt16
    dupacks := 0
    lastack := ackno }) ackno h.queuelen
  refine ⟨cwnd, decide (s.unacked.dropWhile
    (fun seg => seqLeq seg.end ackno) ≠ []), hpos, ?_⟩
  rw [TcpSender.newAck, hrecover]
  dsimp only at hgrow hfree ⊢
  rw [hgrow, Option.bind_eq_bind, Option.bind_some]
  dsimp only
  rw [hfree]
  rfl

/-- The window is updated; the largest one only grows. -/
theorem TcpInv.updateWindow (h : TcpInv Q s₀ stream a U N s)
    (seqno ackno : UInt32) (wnd : UInt16) :
    TcpInv Q s₀ stream a U N (s.updateWindow seqno ackno wnd) := by
  rw [TcpSender.updateWindow]
  split
  · refine h.same ⟨rfl, rfl, rfl, rfl, rfl, rfl, rfl, rfl, ?_, rfl, rfl, rfl⟩
      h.cwnd h.ssthresh
    rw [mssLocal_toNat, mssLocal_toNat]
    have hmax : s.sndWndMax.toNat ≤
        (if s.sndWndMax < wnd then wnd else s.sndWndMax).toNat := by
      split
      · next hlt => exact Nat.le_of_lt (UInt16.lt_iff_toNat_lt.mp hlt)
      · exact Nat.le_refl _
    dsimp only
    omega
  · exact h

theorem updateWindow_sndNxt (s : TcpSender) (seqno ackno : UInt32)
    (wnd : UInt16) : (s.updateWindow seqno ackno wnd).sndNxt = s.sndNxt := by
  rw [TcpSender.updateWindow]
  split <;> rfl

theorem tcpRexmitFast_sndNxt (s : TcpSender) :
    s.tcpRexmitFast.sndNxt = s.sndNxt := by
  have hrexmit : s.tcpRexmit.sndNxt = s.sndNxt := by
    rw [TcpSender.tcpRexmit]
    split <;> rfl
  rw [TcpSender.tcpRexmitFast]
  split
  · exact hrexmit
  · rfl

/-- A duplicate may cause a retransmission. -/
theorem TcpInv.duplicateAck (h : TcpInv Q s₀ stream a U N s)
    (ackno edge : UInt32) (tcplen : Nat) :
    (∃ U' N', TcpInv Q s₀ stream a U' N' (s.duplicateAck ackno edge tcplen)) ∧
      (s.duplicateAck ackno edge tcplen).sndNxt = s.sndNxt := by
  have hset (dupacks : UInt8) (cwnd : UInt16) (hcwnd : 0 < cwnd.toNat) :
      TcpInv Q s₀ stream a U N { s with dupacks, cwnd } :=
    h.same (sameQueues_set s s.rcvNxt s.rcvAnnWnd dupacks cwnd s.ssthresh
      s.timing s.ackNow s.nagleMemErr s.inFastRexmit) hcwnd h.ssthresh
  rw [TcpSender.duplicateAck]
  dsimp only
  generalize (if s.dupacks + 1 > s.dupacks then s.dupacks + 1 else s.dupacks)
    = dupacks
  split_ifs with _ _ hgrow
  · rw [gt_iff_lt, UInt16.lt_iff_toNat_lt] at hgrow
    exact ⟨⟨U, N, hset _ _ (by omega)⟩, rfl⟩
  · exact ⟨⟨U, N, hset _ _ h.cwnd⟩, rfl⟩
  · exact ⟨(hset _ _ h.cwnd).tcpRexmitFast, tcpRexmitFast_sndNxt _⟩
  · exact ⟨⟨U, N, hset _ _ h.cwnd⟩, rfl⟩
  · exact ⟨⟨U, N, hset _ _ h.cwnd⟩, rfl⟩

/-- Nothing is freed from `unsent`. -/
theorem TcpInv.freeUnsent_none (h : TcpInv Q s₀ stream a U N s)
    {ackno : UInt32}
    (hno : ∀ x ∈ U ++ N, seqBetween ackno (seqOf s₀.sndLbb
      (stop List.length x)) s.sndNxt = false) :
    TcpSender.freeUnsent ackno s.unsent s = some s := by
  rcases hs : s.unsent with - | ⟨seg, rest⟩
  · rfl
  · have hN := h.unsent
    rw [hs] at hN
    obtain ⟨x, N', hseg, -, rfl⟩ := List.forall₂_cons_left_iff.mp hN
    rw [TcpSender.freeUnsent, hseg.end_eq, hno x (by simp)]
    rfl

/-- **New data are acknowledged**: what has arrived is freed. -/
theorem TcpInv.newAck (h : TcpInv Q s₀ stream a U N s) {a' m : Nat}
    (ha : a < a') (ham : a' ≤ m) (hm : m ≤ stream.length)
    (hnxt : s.sndNxt = seqOf s₀.sndLbb m) :
    ∃ s' t, s.newAck (seqOf s₀.sndLbb a') = some t ∧
      TcpSender.freeUnsent (seqOf s₀.sndLbb a') t.unsent t = some s' ∧
      TcpInv Q s₀ stream a'
        (U.dropWhile fun x => stop List.length x ≤ a')
        (N.dropWhile fun x => stop List.length x ≤ a') s' := by
  have hbuf := h.sndBuf
  have hlq := h.queuelen_le
  have hqueue := h.queuelen
  rw [buffers_append] at hqueue
  obtain ⟨cwnd, timing, hpos, hnew⟩ := h.newAck_eq (seqOf s₀.sndLbb a')
  -- both loops stop at the same place
  have hU (seg : TcpSeg) (x : Nat × List UInt8) (hx : x ∈ U)
      (hseg : Carries Q s₀.sndLbb seg x) :
      seqLeq seg.end (seqOf s₀.sndLbb a') =
        decide (stop List.length x ≤ a') := by
    have hb := h.bounds (List.mem_append_left _ hx)
    rw [hseg.end_eq, seqLeq_seqOf ⟨by omega, by omega⟩]
  have hN (seg : TcpSeg) (x : Nat × List UInt8) (hx : x ∈ N)
      (hseg : Carries Q s₀.sndLbb seg x) :
      seqBetween (seqOf s₀.sndLbb a') seg.end s.sndNxt =
        decide (stop List.length x ≤ a') := by
    have hb := h.bounds (List.mem_append_right _ hx)
    rw [seqBetween, hseg.end_eq, hnxt, seqGeq_seqOf ⟨by omega, by omega⟩,
      seqLeq_seqOf ⟨by omega, by omega⟩, decide_eq_true ham, Bool.and_true]
  have hUle := buffers_dropWhile
    (fun seg => seqLeq seg.end (seqOf s₀.sndLbb a')) s.unacked
  have hNle := buffers_dropWhile
    (fun seg => seqBetween (seqOf s₀.sndLbb a') seg.end s.sndNxt) s.unsent
  have hfree := freeUnsent_eq (s := { s with
      cwnd
      timing
      inFastRexmit := false
      sndBuf := s.sndBuf + (seqOf s₀.sndLbb a' - s.lastack).toUInt16
      dupacks := 0
      lastack := seqOf s₀.sndLbb a'
      unacked := s.unacked.dropWhile fun seg =>
        seqLeq seg.end (seqOf s₀.sndLbb a')
      sndQueuelen := UInt16.ofNat (buffers (s.unacked.dropWhile (fun seg =>
        seqLeq seg.end (seqOf s₀.sndLbb a')) ++ s.unsent)) })
    (seqOf s₀.sndLbb a') (by
      dsimp only
      rw [UInt16.toNat_ofNat', buffers_append]
      omega) h.noRoom
  refine ⟨_, _, hnew, hfree, ⟨?_, forall₂_dropWhile h.unacked hU,
    forall₂_dropWhile h.unsent hN, rfl, h.sndLbb, ⟨m, ham, hm, hnxt⟩, ?_, ?_,
    ?_, h.mss_pos, h.mss_le, hpos, nofun, ?_, h.ips⟩, fun hnil => if_pos hnil⟩
  · exact h.held.arrived (Nat.le_of_lt ha) (ham.trans hm)
  · have hacked : (seqOf s₀.sndLbb a' - s.lastack).toUInt16.toNat = a' - a := by
      rw [UInt32.toNat_toUInt16, h.lastack,
        seqOf_sub_of_le (Nat.le_of_lt ha) (by omega)]
      omega
    dsimp only
    rw [UInt16.toNat_add, hacked]
    omega
  · dsimp only
    rw [UInt16.toNat_ofNat', buffers_append]
    omega
  · dsimp only
    rw [UInt16.toNat_ofNat', buffers_append]
    omega
  · intro last hlast
    dsimp only at hlast ⊢
    by_cases hnil : s.unsent.dropWhile (fun seg =>
        seqBetween (seqOf s₀.sndLbb a') seg.end s.sndNxt) = []
    · rw [hnil] at hlast
      cases hlast
    · rw [if_neg hnil]
      rw [getLast?_dropWhile hnil] at hlast
      exact h.room last hlast

/-- An acknowledgement that is not half the sequence space away. -/
def TcpSender.Plausible (s : TcpSender) (ackno : UInt32) : Prop :=
  ¬ (0x80000000 ≤ ackno - s.sndNxt ∧ ackno - s.sndNxt < 0x80000000 + 2920)

instance (s : TcpSender) : DecidablePred s.Plausible := fun _ =>
  inferInstanceAs (Decidable (¬ (_ ∧ _)))

/-- **`tcp_receive`** frees what has arrived, and nothing else. -/
theorem TcpInv.tcpReceiveAck (h : TcpInv Q s₀ stream a U N s)
    (seqno : UInt32) {ackno : UInt32} (wnd : UInt16) (tcplen : Nat)
    (hack : s.Plausible ackno) :
    ∃ s' a' U' N', s.tcpReceiveAck seqno ackno wnd tcplen = some s' ∧
      TcpInv Q s₀ stream a' U' N' s' := by
  have hw := h.updateWindow seqno ackno wnd
  rw [TcpSender.tcpReceiveAck]
  dsimp only
  rw [TcpSender.Plausible, ← updateWindow_sndNxt s seqno ackno wnd] at hack
  generalize s.sndWnd.toUInt32 + s.sndWl2 = edge
  generalize s.updateWindow seqno ackno wnd = t at hw hack
  have hbuf := hw.sndBuf
  obtain ⟨m, ham, hm, hnxt⟩ := hw.sndNxt
  obtain ⟨j, hj, hackno⟩ : ∃ j < 2 ^ 32, ackno = seqOf s₀.sndLbb (a + j) := by
    refine ⟨(ackno - t.lastack).toNat, (ackno - t.lastack).toNat_lt, ?_⟩
    rw [← seqOf_add, ← hw.lastack, UInt32.ofNat_toNat]
    grind
  have hold : seqLeq ackno t.lastack = true ↔ j = 0 ∨ 2 ^ 31 ≤ j := by
    rw [seqLeq_iff, hw.lastack, hackno, seqOf_sub]
    have hzero : seqOf s₀.sndLbb (a + j) = seqOf s₀.sndLbb a ↔ j = 0 := by
      rw [seqOf_inj (by omega) (by omega)]
      omega
    rw [hzero]
    omega
  have hnew : seqLeq ackno t.sndNxt = true ↔
      a + j = m ∨ 2 ^ 31 ≤ (ackno - t.sndNxt).toNat := by
    rw [seqLeq_iff, hnxt, hackno, seqOf_inj (by omega) (by omega)]
  have hdist : (ackno - t.sndNxt).toNat =
      (2 ^ 32 - m % 2 ^ 32 + (a + j) % 2 ^ 32) % 2 ^ 32 := by
    rw [hackno, hnxt, seqOf_sub]
  by_cases hleq : seqLeq ackno t.lastack = true
  · -- nothing new: only what lies half the sequence space away is freed
    obtain ⟨⟨U', N', hd⟩, hdnxt⟩ := hw.duplicateAck ackno edge tcplen
    have hhalf : ¬ (2 ^ 31 ≤ (ackno - t.sndNxt).toNat ∧
        (ackno - t.sndNxt).toNat < 2 ^ 31 + 2920) := by
      rw [half_le_iff, UInt32.lt_iff_toNat_lt] at hack
      exact hack
    have hj0 := hold.mp hleq
    rw [if_pos hleq]
    refine ⟨_, a, U', N', hd.freeUnsent_none fun x hx => ?_, hd⟩
    have hb := hd.bounds hx
    rw [hdnxt, seqBetween, Bool.and_eq_false_iff, ← Bool.not_eq_true,
      ← Bool.not_eq_true, seqGeq_iff, hnew, hdist, hackno, seqOf_sub]
    rw [hdist] at hhalf
    omega
  · have hjpos : ¬ (j = 0 ∨ 2 ^ 31 ≤ j) := fun hj0 => hleq (hold.mpr hj0)
    rw [if_neg hleq]
    by_cases hbetween : seqBetween ackno (t.lastack + 1) t.sndNxt = true
    · have hin := (Bool.and_eq_true_iff.mp hbetween).2
      rw [hnew, hdist] at hin
      obtain ⟨s', u, hu, hfree, hs'⟩ := hw.newAck
        (show a < a + j by omega) (by omega) hm hnxt
      rw [if_pos hbetween, hackno, hu]
      exact ⟨s', _, _, _, hfree, hs'⟩
    · have hout : seqLeq ackno t.sndNxt = false := by
        rw [seqBetween, Bool.and_eq_true, seqGeq_iff, hw.lastack, hackno,
          show (1 : UInt32) = UInt32.ofNat 1 from rfl, seqOf_add, seqOf_sub]
          at hbetween
        rw [hackno, ← Bool.not_eq_true]
        intro hle
        exact hbetween ⟨by omega, hle⟩
      rw [if_neg hbetween]
      refine ⟨t, a, U, N, hw.freeUnsent_none fun x hx => ?_, hw⟩
      rw [seqBetween, hout, Bool.and_false]

end Core

end Roip
