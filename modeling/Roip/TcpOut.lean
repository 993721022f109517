/-
Roip/TcpOut.lean

The sending side of an established TCP connection, `tcp_out.c`, and what
`tcp_receive` does with an acknowledgement.

What the application writes is cut into segments, which wait in `unsent` until
the window lets them go and in `unacked` until they are acknowledged.
`tcp_write` fills the room that was left in the last buffer, then chains
another buffer to the last segment, then makes new segments; it changes
nothing unless all of this succeeds.  The checksum of the data of a segment is
kept up to date while it is copied, and the checksum of the segment is
assembled from it when it is sent.

The application always lets the data be copied.  A segment stands here for its
data; the headers in front of it are made when it is sent.
-/
import Mathlib.Algebra.Group.Nat.Defs
import Roip.Checksum
import Roip.Lib.Run

namespace Roip

/-! ### State -/

/-- `TCP_SND_BUF`. -/
def tcpSndBuf : UInt16 := 2920

/-- `TCP_SND_QUEUELEN`. -/
def tcpSndQueuelen : UInt16 := 8

/-- `TCP_SNDQUEUELEN_OVERFLOW`. -/
def tcpSndqueuelenOverflow : UInt16 := 0xFFFC

/-- `TCP_SEQ_LT`. -/
def seqLt (a b : UInt32) : Bool := 0x80000000 ≤ a - b

/-- `TCP_SEQ_LEQ`. -/
def seqLeq (a b : UInt32) : Bool := a = b || 0x80000000 ≤ a - b

/-- `TCP_SEQ_GEQ`. -/
def seqGeq (a b : UInt32) : Bool := a - b < 0x80000000

/-- `TCP_SEQ_BETWEEN`. -/
def seqBetween (a b c : UInt32) : Bool := seqGeq a b && seqLeq a c

/-- A buffer of a segment: its data, and how many more bytes were allocated
behind it. -/
structure Pbuf where
  payload : List UInt8
  room : Nat
deriving DecidableEq, Repr

/-- `struct tcp_seg`; `flags` are those of its header. -/
structure TcpSeg where
  p : List Pbuf
  len : UInt16
  seqno : UInt32
  flags : UInt8
  chksum : UInt16
  chksumSwapped : Bool
  /-- `TF_SEG_DATA_CHECKSUMMED` -/
  dataChecksummed : Bool
deriving DecidableEq, Repr

/-- The data of a segment. -/
def TcpSeg.data (seg : TcpSeg) : List UInt8 := (seg.p.map Pbuf.payload).flatten

/-- What the sending side uses of `struct tcp_pcb`. -/
structure TcpSender where
  localIp : UInt32
  remoteIp : UInt32
  localPort : UInt16
  remotePort : UInt16
  rcvNxt : UInt32
  rcvAnnWnd : UInt16
  mss : UInt16
  lastack : UInt32
  dupacks : UInt8
  cwnd : UInt16
  ssthresh : UInt16
  sndNxt : UInt32
  sndWl1 : UInt32
  sndWl2 : UInt32
  sndLbb : UInt32
  sndWnd : UInt16
  sndWndMax : UInt16
  sndBuf : UInt16
  sndQueuelen : UInt16
  unsentOversize : UInt16
  unsent : List TcpSeg
  unacked : List TcpSeg
  /-- `rtime >= 0` -/
  timing : Bool
  ackNow : Bool
  nodelay : Bool
  nagleMemErr : Bool
  inFastRexmit : Bool
deriving DecidableEq, Repr

/-- `mss_local`: at most half the largest window the peer has announced. -/
def TcpSender.mssLocal (s : TcpSender) : UInt16 := min s.mss (s.sndWndMax / 2)

/-- A TCP header without options. -/
structure TcpHdr where
  src : UInt16
  dest : UInt16
  seqno : UInt32
  ackno : UInt32
  flags : UInt8
  wnd : UInt16
  chksum : UInt16
deriving DecidableEq, Repr

/-- A word in network byte order. -/
def bytesOf16 (n : UInt16) : List UInt8 := [(n >>> 8).toUInt8, n.toUInt8]

def bytesOf32 (n : UInt32) : List UInt8 :=
  [(n >>> 24).toUInt8, (n >>> 16).toUInt8, (n >>> 8).toUInt8, n.toUInt8]

/-- The header in memory.  The checksum is stored as it is computed. -/
def TcpHdr.bytes (hdr : TcpHdr) : List UInt8 :=
  bytesOf16 hdr.src ++ bytesOf16 hdr.dest ++ bytesOf32 hdr.seqno ++
    bytesOf32 hdr.ackno ++ [0x50, hdr.flags] ++ bytesOf16 hdr.wnd ++
    [hdr.chksum.toUInt8, (hdr.chksum >>> 8).toUInt8] ++ [0, 0]

/-- `TCP_ACK` and `TCP_PSH`. -/
def tcpAck : UInt8 := 0x10

def tcpPsh : UInt8 := 0x08

inductive TcpAct
  /-- `tcp_write` has returned `ERR_OK` -/
  | accepted (data : List UInt8)
  /-- `tcp_write` has returned `ERR_MEM` -/
  | refused
  /-- a segment has been passed to IP, its data in these buffers -/
  | sent (hdr : TcpHdr) (p : List (List UInt8))
deriving DecidableEq, Repr

/-! ### Writing -/

/-- `tcp_seg_add_chksum`. -/
def tcpSegAddChksum (chksum len : UInt16) :
    UInt16 × Bool → UInt16 × Bool
  | (segChksum, segChksumSwapped) =>
    let chksum := (foldU32 (chksum.toUInt32 + segChksum.toUInt32)).toUInt16
    if len &&& 1 ≠ 0 then
      ((swapBytesInWord chksum.toUInt32).toUInt16, !segChksumSwapped)
    else (chksum, segChksumSwapped)

/-- `tcp_write_checks`: whether the data may be enqueued. -/
def TcpSender.tcpWriteChecks (s : TcpSender) (len : UInt16) :
    Option (Bool × TcpSender) :=
  if len = 0 then some (true, s)
  else if len > s.sndBuf then some (false, { s with nagleMemErr := true })
  else if s.sndQueuelen ≥ tcpSndQueuelen ∨
      s.sndQueuelen > tcpSndqueuelenOverflow then
    some (false, { s with nagleMemErr := true })
  else if s.sndQueuelen ≠ 0 then
    if s.unacked ≠ [] ∨ s.unsent ≠ [] then some (true, s) else none
  else if s.unacked = [] ∧ s.unsent = [] then some (true, s) else none

/-- `tcp_pbuf_prealloc`: the bytes that are allocated beyond `length`. -/
def TcpSender.tcpPbufPrealloc (s : TcpSender) (length maxLength : UInt16)
    (more firstSeg : Bool) : UInt16 :=
  let alloc :=
    if length < maxLength ∧ (more ∨ (¬ s.nodelay ∧
        (¬ firstSeg ∨ s.unsent ≠ [] ∨ s.unacked ≠ []))) then
      UInt16.ofNat (min maxLength.toNat ((length.toNat + 1460 + 3) / 4 * 4))
    else length
  alloc - length

/-- `concat_p`, with `concat_chksum` and `concat_chksummed`. -/
structure Concat where
  p : Pbuf
  chksum : UInt16
  chksummed : UInt16

/-- The variables of `tcp_write` after the first two phases.  `used` counts
the allocations made. -/
structure Phases where
  pos : UInt16
  oversize : UInt16
  oversizeUsed : UInt16
  concat : Option Concat
  queuelen : UInt16
  used : Nat

/-- Phases 1 and 2, with the last unsent segment.  No result means that there
is no memory. -/
def TcpSender.extend (s : TcpSender) (last : TcpSeg) (arg : List UInt8)
    (len mssLocal : UInt16) (more : Bool) (mem : Nat → Bool) :
    Option Phases :=
  let oversizeUsed := if s.unsentOversize < len then s.unsentOversize else len
  let pos := oversizeUsed
  let oversize := s.unsentOversize - oversizeUsed
  let space := mssLocal - last.len - oversizeUsed
  if pos < len ∧ 0 < space ∧ 0 < last.len then
    let seglen := if space < len - pos then space else len - pos
    if mem 0 then
      let oversize := s.tcpPbufPrealloc seglen space more true
      let data := (arg.drop pos.toNat).take seglen.toNat
      let chksum := tcpSegAddChksum (lwipStandardChksum data) seglen (0, false)
      some ⟨pos + seglen, oversize, oversizeUsed,
        some ⟨⟨data, oversize.toNat⟩, chksum.1, seglen⟩, s.sndQueuelen + 1, 1⟩
    else none
  else some ⟨pos, oversize, oversizeUsed, none, s.sndQueuelen, 0⟩

/-- Phase 3: new segments are chained to `queue`.  Also the oversize and the
length of the queue at the end; no result means that there is no memory. -/
def TcpSender.newSegments (s : TcpSender) (arg : List UInt8)
    (len mssLocal : UInt16) (more : Bool) (mem : Nat → Bool) :
    Nat → Nat → UInt16 → UInt16 → UInt16 → List TcpSeg →
      Option (Option (List TcpSeg × UInt16 × UInt16))
  | 0, _, _, _, _, _ => none
  | fuel + 1, used, pos, oversize, queuelen, queue =>
    if pos < len then
      let left := len - pos
      let seglen := if left > mssLocal then mssLocal else left
      let oversize := s.tcpPbufPrealloc seglen mssLocal more (queue = [])
      let data := (arg.drop pos.toNat).take seglen.toNat
      let chksum := tcpSegAddChksum (lwipStandardChksum data) seglen (0, false)
      let queuelen := queuelen + 1
      -- the buffer and the segment are allocated one after the other
      if ¬ mem used ∨ queuelen > tcpSndQueuelen ∨
          queuelen > tcpSndqueuelenOverflow ∨ ¬ mem (used + 1) then some none
      else
        newSegments s arg len mssLocal more mem fuel (used + 2) (pos + seglen)
          oversize queuelen (queue ++ [{
            p := [⟨data, oversize.toNat⟩]
            len := seglen
            seqno := s.sndLbb + pos.toUInt32
            flags := 0
            chksum := chksum.1
            chksumSwapped := chksum.2
            dataChecksummed := true }])
    else some (some (queue, oversize, queuelen))

/-- Phase 1 is committed: the last buffer is filled up. -/
def TcpSeg.fill (seg : TcpSeg) (data : List UInt8) (len : UInt16) :
    Option TcpSeg :=
  if len = 0 then some seg
  else match seg.p.getLast? with
    | none => none
    | some q =>
      if data.length ≤ q.room then
        let chksum := tcpSegAddChksum (lwipStandardChksum data) len
          (seg.chksum, seg.chksumSwapped)
        some { seg with
          p := seg.p.dropLast ++
            [⟨q.payload ++ data, q.room - data.length⟩]
          len := seg.len + len
          chksum := chksum.1
          chksumSwapped := chksum.2
          dataChecksummed := true }
      else none

/-- Phase 2 is committed: the buffer is chained. -/
def TcpSeg.cat (seg : TcpSeg) : Option Concat → TcpSeg
  | none => seg
  | some c =>
    let chksum := tcpSegAddChksum c.chksum c.chksummed
      (seg.chksum, seg.chksumSwapped)
    { seg with
      p := seg.p ++ [c.p]
      len := seg.len + c.chksummed
      chksum := chksum.1
      chksumSwapped := chksum.2
      dataChecksummed := true }

/-- `TCPH_SET_FLAG(seg->tcphdr, TCP_PSH)`. -/
def TcpSeg.push (seg : TcpSeg) : TcpSeg :=
  { seg with flags := seg.flags ||| tcpPsh }

/-- The flag goes to the last segment. -/
def pushLast (segs : List TcpSeg) : List TcpSeg :=
  match segs.getLast? with
  | none => []
  | some seg => segs.dropLast ++ [seg.push]

/-- Phases 1 and 2 are committed, and the new segments are chained. -/
def TcpSender.chain (s : TcpSender) (arg : List UInt8) (ph : Phases)
    (queue : List TcpSeg) : Option (List TcpSeg) :=
  match s.unsent.getLast? with
  | none => some queue
  | some last => do
    let last ← last.fill (arg.take ph.oversizeUsed.toNat) ph.oversizeUsed
    some (s.unsent.dropLast ++ [last.cat ph.concat] ++ queue)

/-- The commit of `tcp_write`. -/
def TcpSender.commit (s : TcpSender) (arg : List UInt8) (len : UInt16)
    (more : Bool) (ph : Phases) (queue : List TcpSeg)
    (oversize queuelen : UInt16) : Option TcpSender := do
  let unsent ← s.chain arg ph queue
  -- the segment last tampered with gets the flag
  let touched := queue ≠ [] ∨
    (s.unsent ≠ [] ∧ (s.unsentOversize > 0 ∨ ph.concat.isSome))
  let s := { s with
    unsent := if touched ∧ ¬ more then pushLast unsent else unsent
    unsentOversize := oversize
    sndLbb := s.sndLbb + len.toUInt32
    sndBuf := s.sndBuf - len
    sndQueuelen := queuelen }
  if s.sndQueuelen ≠ 0 ∧ s.unacked = [] ∧ s.unsent = [] then none else some s

/-- `tcp_write`, the data being copied.  Reading behind `arg` is undefined.
`more` is `TCP_WRITE_FLAG_MORE`. -/
def TcpSender.tcpWrite (s : TcpSender) (arg : List UInt8) (len : UInt16)
    (more : Bool) (mem : Nat → Bool) : Traced TcpAct TcpSender :=
  if arg.length < len.toNat then Traced.undef
  else do
    let mssLocal := s.mssLocal
    let (ok, s) ← Traced.ofOption (s.tcpWriteChecks len)
    let memerr : Traced TcpAct TcpSender := do
      Traced.emit .refused
      pure { s with nagleMemErr := true }
    if ok then
      let phases ← Traced.ofOption <| match s.unsent.getLast? with
        | none =>
          if s.unsentOversize = 0 then
            some (some ⟨0, 0, 0, none, s.sndQueuelen, 0⟩)
          else none
        | some last => some (s.extend last arg len mssLocal more mem)
      match phases with
      | none => memerr
      | some ph => do
        let queue ← Traced.ofOption (s.newSegments arg len mssLocal more mem
          (tcpSndQueuelen.toNat + 1) ph.used ph.pos ph.oversize ph.queuelen [])
        match queue with
        | none => memerr
        | some (queue, oversize, queuelen) => do
          let s ← Traced.ofOption
            (s.commit arg len more ph queue oversize queuelen)
          Traced.emit (.accepted (arg.take len.toNat))
          pure s
    else do
      Traced.emit .refused
      pure s

/-! ### Sending -/

/-- The loop of `inet_chksum_pseudo_partial`. -/
def sumPartial : List (List UInt8) → UInt16 → UInt32 × Bool →
    Option (UInt32 × Bool)
  | [], _, sum => some sum
  | q :: p, chksumLen, (acc, swapped) =>
    if chksumLen > 0 then
      let chklen := if q.length > chksumLen.toNat then chksumLen
        else UInt16.ofNat q.length
      let acc := acc + (lwipStandardChksum (q.take chklen.toNat)).toUInt32
      let chksumLen := chksumLen - chklen
      if chksumLen < 0x7FFF then
        let acc := foldU32 acc
        if q.length % 2 ≠ 0 then
          sumPartial p chksumLen (swapBytesInWord acc, !swapped)
        else sumPartial p chksumLen (acc, swapped)
      else none
    else some (acc, swapped)

/-- `inet_chksum_pseudo_partial`. -/
def inetChksumPseudoPartial (p : List (List UInt8)) (src dest : UInt32)
    (proto : UInt8) (protoLen chksumLen : UInt16) : Option UInt16 := do
  let (acc, swapped) ← sumPartial p chksumLen (0, false)
  let acc := if swapped then swapBytesInWord acc else acc
  some (addPseudo acc src dest proto protoLen)

/-- `IP_PROTO_TCP`. -/
def ipProtoTcp : UInt8 := 6

/-- A segment as it lies in memory: the header is in front of the first
buffer. -/
def wire (hdr : TcpHdr) : List (List UInt8) → List (List UInt8)
  | [] => [hdr.bytes]
  | q :: p => (hdr.bytes ++ q) :: p

/-- A header of the connection, its checksum not yet filled in. -/
def TcpSender.header (s : TcpSender) (seqno : UInt32) (flags : UInt8) :
    TcpHdr :=
  ⟨s.localPort, s.remotePort, seqno, s.rcvNxt, flags, s.rcvAnnWnd, 0⟩

/-- The checksum of `tcp_output_segment`, from that of the data. -/
def TcpSender.segmentChksum (s : TcpSender) (hdr : TcpHdr) (seg : TcpSeg)
    (chksum : UInt16) : Option UInt16 :=
  if ¬ seg.dataChecksummed ∧ seg.data.length ≠ 0 then none
  else do
    let acc ← inetChksumPseudoPartial (wire hdr (seg.p.map Pbuf.payload))
      s.localIp s.remoteIp ipProtoTcp (UInt16.ofNat (20 + seg.data.length)) 20
    some (foldU32 (acc.toUInt32 + (~~~ chksum).toUInt32)).toUInt16

/-- `tcp_output_segment`.  The sum of the data is exchanged back in the
segment, too. -/
def TcpSender.tcpOutputSegment (s : TcpSender) (seg : TcpSeg) :
    Traced TcpAct (TcpSeg × TcpSender) := do
  let hdr := s.header seg.seqno seg.flags
  let chksum := if seg.chksumSwapped then
      (swapBytesInWord seg.chksum.toUInt32).toUInt16
    else seg.chksum
  let seg := { seg with chksum, chksumSwapped := false }
  let sum ← Traced.ofOption (s.segmentChksum hdr seg chksum)
  Traced.emit (.sent { hdr with chksum := sum } (seg.p.map Pbuf.payload))
  pure (seg, { s with timing := true })

/-- `tcp_send_empty_ack`, `mem` telling whether a buffer can be allocated. -/
def TcpSender.tcpSendEmptyAck (s : TcpSender) (mem : Bool) :
    Traced TcpAct TcpSender :=
  if mem then do
    let hdr := s.header s.sndNxt tcpAck
    let chksum := inetChksumPseudo [hdr.bytes] s.localIp s.remoteIp ipProtoTcp
      20
    Traced.emit (.sent { hdr with chksum } [])
    pure { s with ackNow := false }
  else pure s

/-- `tcp_do_output_nagle`. -/
def TcpSender.tcpDoOutputNagle (s : TcpSender) : Bool :=
  s.unacked = [] || s.nodelay || s.inFastRexmit ||
    (match s.unsent with
      | [] => false
      | [seg] => s.mss ≤ seg.len
      | _ => true) ||
    s.sndBuf = 0 || tcpSndQueuelen ≤ s.sndQueuelen

/-- The place of a segment that has been sent, in `unacked`. -/
def insertUnacked (seg : TcpSeg) (unacked : List TcpSeg) : List TcpSeg :=
  match unacked.getLast? with
  | none => [seg]
  | some useg =>
    if seqLt seg.seqno useg.seqno then
      unacked.takeWhile (fun cur => seqLt cur.seqno seg.seqno) ++
        seg :: unacked.dropWhile fun cur => seqLt cur.seqno seg.seqno
    else unacked ++ [seg]

/-- The loop of `tcp_output`; `segs` is `unsent`. -/
def TcpSender.sendLoop (wnd : UInt32) :
    List TcpSeg → TcpSender → Traced TcpAct TcpSender
  | [], s => pure s
  | seg :: rest, s =>
    if seg.seqno - s.lastack + seg.len.toUInt32 ≤ wnd ∧
        (s.tcpDoOutputNagle ∨ s.nagleMemErr) then do
      let s := { s with unsent := rest, ackNow := false }
      let seg := { seg with flags := seg.flags ||| tcpAck }
      let (seg, s) ← s.tcpOutputSegment seg
      let sndNxt := seg.seqno + seg.len.toUInt32
      let s := { s with
        sndNxt := if seqLt s.sndNxt sndNxt then sndNxt else s.sndNxt
        unacked := if seg.len > 0 then insertUnacked seg s.unacked
          else s.unacked }
      sendLoop wnd rest s
    else pure s

/-- `tcp_output`.  While a segment for the connection is processed (`input`)
it does nothing. -/
def TcpSender.tcpOutput (s : TcpSender) (input mem : Bool) :
    Traced TcpAct TcpSender :=
  if input then pure s
  else
    let wnd := (min s.sndWnd s.cwnd).toUInt32
    let fits : Bool := match s.unsent with
      | [] => false
      | seg :: _ => seg.seqno - s.lastack + seg.len.toUInt32 ≤ wnd
    if s.ackNow ∧ ¬ fits then s.tcpSendEmptyAck mem
    else do
      let s ← TcpSender.sendLoop wnd s.unsent s
      pure { s with
        unsentOversize := if s.unsent = [] then 0 else s.unsentOversize
        nagleMemErr := false }

/-! ### Retransmitting -/

/-- `tcp_rexmit`: the first unacknowledged segment is put back, in order. -/
def TcpSender.tcpRexmit (s : TcpSender) : TcpSender :=
  match s.unacked with
  | [] => s
  | seg :: rest =>
    let before := s.unsent.takeWhile fun cur => seqLt cur.seqno seg.seqno
    let after := s.unsent.dropWhile fun cur => seqLt cur.seqno seg.seqno
    { s with
      unacked := rest
      unsent := before ++ seg :: after
      unsentOversize := if after = [] then 0 else s.unsentOversize }

/-- `tcp_rexmit_fast`. -/
def TcpSender.tcpRexmitFast (s : TcpSender) : TcpSender :=
  if s.unacked ≠ [] ∧ ¬ s.inFastRexmit then
    let s := s.tcpRexmit
    let ssthresh := if s.cwnd > s.sndWnd then s.sndWnd / 2 else s.cwnd / 2
    let ssthresh := if ssthresh.toNat < 2 * s.mss.toNat then 2 * s.mss
      else ssthresh
    { s with
      ssthresh
      cwnd := ssthresh + 3 * s.mss
      inFastRexmit := true }
  else s

/-- The retransmission in `tcp_slowtmr`, with `tcp_rexmit_rto`, when the timer
of the connection has run out. -/
def TcpSender.tcpRexmitRto (s : TcpSender) (mem : Bool) :
    Traced TcpAct TcpSender :=
  if s.unacked ≠ [] then
    let effWnd := min s.cwnd s.sndWnd
    let ssthresh := effWnd >>> 1
    { s with
      timing := true
      ssthresh := if ssthresh.toNat < 2 * s.mss.toNat then s.mss <<< 1
        else ssthresh
      cwnd := s.mss
      unsent := s.unacked ++ s.unsent
      unacked := [] }.tcpOutput false mem
  else pure s

/-- `tcp_zero_window_probe`: the first byte that is not acknowledged. -/
def TcpSender.tcpZeroWindowProbe (s : TcpSender) (mem : Bool) :
    Traced TcpAct TcpSender :=
  match s.unacked ++ s.unsent with
  | [] => pure s
  | seg :: _ =>
    if mem then do
      let hdr := s.header seg.seqno tcpAck
      let data := seg.data.take 1
      let chksum := inetChksumPseudo [hdr.bytes ++ data] s.localIp s.remoteIp
        ipProtoTcp 21
      Traced.emit (.sent { hdr with chksum } [data])
      pure s
    else pure s

/-! ### Acknowledgements -/

/-- The update of the window in `tcp_receive`. -/
def TcpSender.updateWindow (s : TcpSender) (seqno ackno : UInt32)
    (wnd : UInt16) : TcpSender :=
  if seqLt s.sndWl1 seqno ∨ (s.sndWl1 = seqno ∧ seqLt s.sndWl2 ackno) ∨
      (s.sndWl2 = ackno ∧ wnd > s.sndWnd) then
    { s with
      sndWnd := wnd
      sndWndMax := if s.sndWndMax < wnd then wnd else s.sndWndMax
      sndWl1 := seqno
      sndWl2 := ackno }
  else s

/-- An acknowledgement of nothing new; `rightWndEdge` is from before the
update of the window. -/
def TcpSender.duplicateAck (s : TcpSender) (ackno : UInt32)
    (rightWndEdge : UInt32) (tcplen : Nat) : TcpSender :=
  if tcplen = 0 ∧ s.sndWl2 + s.sndWnd.toUInt32 = rightWndEdge ∧ s.timing ∧
      s.lastack = ackno then
    let s := { s with
      dupacks := if s.dupacks + 1 > s.dupacks then s.dupacks + 1
        else s.dupacks }
    if s.dupacks > 3 then
      if s.cwnd + s.mss > s.cwnd then { s with cwnd := s.cwnd + s.mss } else s
    else if s.dupacks = 3 then s.tcpRexmitFast
    else s
  else { s with dupacks := 0 }

/-- The congestion window after an acknowledgement.  Division by zero is
undefined. -/
def TcpSender.growCwnd (s : TcpSender) : Option TcpSender :=
  if s.cwnd < s.ssthresh then
    some (if s.cwnd + s.mss > s.cwnd then { s with cwnd := s.cwnd + s.mss }
      else s)
  else if s.cwnd = 0 then none
  else
    let newCwnd := UInt16.ofNat
      (s.cwnd.toNat + s.mss.toNat * s.mss.toNat / s.cwnd.toNat)
    some (if newCwnd > s.cwnd then { s with cwnd := newCwnd } else s)

/-- `TCP_TCPLEN`, the end of a segment. -/
def TcpSeg.end (seg : TcpSeg) : UInt32 := seg.seqno + seg.len.toUInt32

/-- A segment is freed; that its buffers are counted is asserted. -/
def TcpSender.freeSeg (s : TcpSender) (seg : TcpSeg) : Option TcpSender :=
  if s.sndQueuelen.toNat < seg.p.length then none
  else
    let s := { s with
      sndQueuelen := s.sndQueuelen - UInt16.ofNat seg.p.length }
    if s.sndQueuelen ≠ 0 ∧ s.unacked = [] ∧ s.unsent = [] then none else some s

/-- The acknowledged segments of `unacked` are removed. -/
def TcpSender.freeUnacked (ackno : UInt32) :
    List TcpSeg → TcpSender → Option TcpSender
  | [], s => some s
  | seg :: rest, s =>
    if seqLeq seg.end ackno then do
      let s ← { s with unacked := rest }.freeSeg seg
      freeUnacked ackno rest s
    else some s

/-- Those of `unsent`, which have been sent before. -/
def TcpSender.freeUnsent (ackno : UInt32) :
    List TcpSeg → TcpSender → Option TcpSender
  | [], s => some s
  | seg :: rest, s =>
    if seqBetween ackno seg.end s.sndNxt then do
      let s ← { s with
        unsent := rest
        unsentOversize := if rest = [] then 0 else s.unsentOversize
        }.freeSeg seg
      freeUnsent ackno rest s
    else some s

/-- An acknowledgement of new data. -/
def TcpSender.newAck (s : TcpSender) (ackno : UInt32) : Option TcpSender := do
  let s := if s.inFastRexmit then
      { s with inFastRexmit := false, cwnd := s.ssthresh }
    else s
  let acked := (ackno - s.lastack).toUInt16
  let s := { s with
    sndBuf := s.sndBuf + acked
    dupacks := 0
    lastack := ackno }
  let s ← s.growCwnd
  let s ← TcpSender.freeUnacked ackno s.unacked s
  some { s with timing := s.unacked ≠ [] }

/-- What `tcp_receive` does with the acknowledgement in a segment. -/
def TcpSender.tcpReceiveAck (s : TcpSender) (seqno ackno : UInt32)
    (wnd : UInt16) (tcplen : Nat) : Option TcpSender := do
  let rightWndEdge := s.sndWnd.toUInt32 + s.sndWl2
  let s := s.updateWindow seqno ackno wnd
  let s ←
    if seqLeq ackno s.lastack then
      some (s.duplicateAck ackno rightWndEdge tcplen)
    else if seqBetween ackno (s.lastack + 1) s.sndNxt then s.newAck ackno
    else some s
  TcpSender.freeUnsent ackno s.unsent s

/-! ### Steps -/

/-- What happens to a connection.  `rcvNxt` and `rcvAnnWnd` are set by the
receiving side. -/
inductive TcpOp
  | write (arg : List UInt8) (len : UInt16) (more : Bool) (mem : Nat → Bool)
  | output (input mem : Bool)
  | ack (seqno ackno : UInt32) (wnd : UInt16) (tcplen : Nat)
  | rexmitRto (mem : Bool)
  | probe (mem : Bool)
  | received (rcvNxt : UInt32) (rcvAnnWnd : UInt16) (ackNow : Bool)

def tcpStep (s : TcpSender) : TcpOp → Traced TcpAct TcpSender
  | .write arg len more mem => s.tcpWrite arg len more mem
  | .output input mem => s.tcpOutput input mem
  | .ack seqno ackno wnd tcplen =>
    Traced.ofOption (s.tcpReceiveAck seqno ackno wnd tcplen)
  | .rexmitRto mem => s.tcpRexmitRto mem
  | .probe mem => s.tcpZeroWindowProbe mem
  | .received rcvNxt rcvAnnWnd ackNow =>
    pure { s with rcvNxt, rcvAnnWnd, ackNow }

end Roip
