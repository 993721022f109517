/-
Roip/SpeexUdp.lean

The connection to the servers, `speex_udp.c`.

Sync packets and forwarded text go out on the control block `pctl`, audio on
`dt.p`.  The state `dt.st` holds the number of the selected server and, in its
highest bit, whether that server has answered lately.

The Speex library is a parameter (`Speex`).  Readings of the millisecond
counter, the success of `pbuf_alloc` and of the layers below `udp_send`, and
the first contents of local variables that are not initialised are inputs.
-/
import Mathlib.Algebra.Group.Nat.Defs
import Roip.Lib.Run
import Roip.Udp

namespace Roip

/-- `BLOCK_LENGTH`. -/
def blockLength : Nat := 160

/-- `SPUDP_CONNECTED`. -/
def spudpConnected : UInt8 := 0x80

/-- `SPUDP_SERVER_MASK`. -/
def spudpServerMask : UInt8 := 0x7F

/-- `SPUDP_SERVER1`. -/
def spudpServer1 : UInt8 := 1

/-- `SPUDP_SERVER2`. -/
def spudpServer2 : UInt8 := 2

/-- The Speex encoder with the state `β` of its bits. -/
structure Speex (β : Type) where
  init : β
  encodeInt : List Int16 → β → β
  insertTerminator : β → β
  nbytes : β → Nat
  write : β → Nat → List UInt8
  reset : β → β

/-- `struct spudp_data`. -/
structure SpudpData where
  p : Option UdpPcb
  st : UInt8
  server1 : UInt32
  server2 : UInt32
deriving DecidableEq, Repr

/-- The global variables of `speex_udp.c`. -/
structure Spudp (β : Type) where
  dt : SpudpData
  pctl : Option UdpPcb
  tmCtlpacketSent : UInt32
  tmCtlpacketReceived : UInt32
  encBits : β
deriving DecidableEq, Repr

variable {β : Type}

/-! ### The state -/

/-- `dt.st & SPUDP_CONNECTED`. -/
def SpudpData.isConnected (dt : SpudpData) : Bool :=
  dt.st &&& spudpConnected != 0

/-- The address of the selected server, if `dt.st & SPUDP_SERVER_MASK` is the
number of one. -/
def SpudpData.serverAddr (dt : SpudpData) : Option UInt32 :=
  if dt.st &&& spudpServerMask = spudpServer1 then some dt.server1
  else if dt.st &&& spudpServerMask = spudpServer2 then some dt.server2
  else none

/-- The server tried after the one of state `st`. -/
def nextServer (st : UInt8) : UInt8 :=
  if st &&& spudpServerMask = spudpServer1 then spudpServer2
  else if st &&& spudpServerMask = spudpServer2 then spudpServer1
  else spudpServer1

/-- What `spudp_init` meets: whether `udp_new` and `udp_bind` succeed for the
two control blocks, and two readings of the counter. -/
structure InitEnv where
  new1 : Bool
  bind1 : Bool
  new2 : Bool
  bind2 : Bool
  now1 : UInt32
  now2 : UInt32
deriving DecidableEq, Repr

/-- `spudp_init`; a null pointer for a server keeps its address. -/
def spudpInit (speex : Speex β) (s : Spudp β) (server1 server2 : Option UInt32)
    (e : InitEnv) : Option (Spudp β) := do
  let dt := { s.dt with
    server1 := server1.getD s.dt.server1
    server2 := server2.getD s.dt.server2
    st := spudpServer1 }
  let s := { s with dt, encBits := speex.init }
  let p ← if e.new1 then some udpNew else none
  if e.bind1 then
    let s := { s with dt := { dt with p := some (udpRecv p) } }
    let pctl ← if e.new2 then some udpNew else none
    if e.bind2 then
      some { s with
        pctl := some (udpRecv pctl)
        tmCtlpacketSent := e.now1
        tmCtlpacketReceived := e.now2 }
    else some { s with pctl := some pctl }
  else some { s with dt := { dt with p := some p } }

/-- `handleControlInput`. -/
def handleControlInput (s : Spudp β) (addr now : UInt32) :
    Traced NetOp (Spudp β) := do
  let st :=
    if addr = s.dt.server1 then spudpConnected ||| spudpServer1
    else if addr = s.dt.server2 then spudpConnected ||| spudpServer2
    else s.dt.st
  -- the time is taken for a packet from any other address too
  Traced.emit (.pbufFree .control)
  pure { s with dt := { s.dt with st }, tmCtlpacketReceived := now }

/-! ### Sending -/

/-- Whether `pbuf_alloc` succeeds, and whether the layers below `udp_send`
accept the datagram. -/
structure SendEnv where
  alloc : Bool
  link : Bool
deriving DecidableEq, Repr

/-- `spudp_string_send`.  A violated assertion is undefined. -/
def spudpStringSend (s : Spudp β) (buf : List UInt8) (len : Nat)
    (e : SendEnv) : Traced NetOp (Nat × Spudp β) :=
  if 0 < len ∧ len < 256 then
    match s.dt.serverAddr with
    | none => pure (0, s)
    | some ip => do
      let pctl ← Traced.ofOption s.pctl
      let pctl := udpConnect pctl ip 5199
      Traced.emit (.pbufAlloc .control len)
      if e.alloc ∧ len ≤ buf.length then
        if udpSend pctl e.link then do
          Traced.emit (.sent .control pctl.remoteIp pctl.remotePort
            (buf.take len))
          Traced.emit (.pbufFree .control)
          pure (len, { s with pctl := some (udpDisconnect pctl) })
        else do
          Traced.emit (.refused .control pctl.remoteIp pctl.remotePort)
          Traced.emit (.pbufFree .control)
          pure (0, { s with pctl := some (udpDisconnect pctl) })
      else Traced.undef
  else Traced.undef

/-- `payload` of `spudp_control_send`. -/
def syncPayload : List UInt8 :=
  [1, 2, 3, 4, 5, 6, 7, 8].flatMap fun k => [k, 0, 0, 0]

/-- The readings of the counter in one call of `spudp_control_send`. -/
structure Readings where
  now1 : UInt32
  now2 : UInt32
  now3 : UInt32
deriving DecidableEq, Repr

/-- The transition of `spudp_control_send` before it sends. -/
def controlTransition (s : Spudp β) (now : UInt32) : Spudp β :=
  if s.dt.isConnected then
    if now - s.tmCtlpacketReceived > 10000 then
      { s with dt := { s.dt with
          st := nextServer (s.dt.st &&& ~~~spudpConnected) } }
    else s
  else { s with dt := { s.dt with st := nextServer s.dt.st } }

/-- `spudp_control_send`. -/
def spudpControlSend (s : Spudp β) (r : Readings) (e : SendEnv) :
    Traced NetOp (Spudp β) :=
  if r.now1 - s.tmCtlpacketSent > 5000 then do
    let (n, s) ← spudpStringSend (controlTransition s r.now2) syncPayload 32 e
    -- after a refused packet the next call tries again at once
    if n > 0 then pure { s with tmCtlpacketSent := r.now3 } else pure s
  else pure s

/-! ### Audio -/

/-- `strlen`; undefined without a zero in the array. -/
def strlen (s : List UInt8) : Option Nat :=
  if 0 ∈ s then some (cstr s).length else none

/-- What one call of `spudp_send` meets: the first contents of the local
`enc` and `nbytes`, and the environment of the send. -/
structure AudioEnv extends SendEnv where
  enc : CArray UInt8 256
  nbytes : UInt32
deriving DecidableEq

/-- The header: `all_len` and `enc`, the cursor `c` being behind it. -/
def buildHeader (enc : CArray UInt8 256) (id gid id2 : List UInt8) :
    Option (UInt8 × UInt8 × CArray UInt8 256) := do
  let idLen := UInt8.ofNat (← strlen id)
  let gidLen := UInt8.ofNat (← strlen gid)
  let id2Len := UInt8.ofNat (← strlen id2)
  let allLen := idLen + gidLen + id2Len + 3
  let enc ← enc.memcpy 0 [allLen]
  let c : UInt8 := 1
  let enc ← enc.memcpy c.toNat (id.take idLen.toNat)
  let c := c + idLen
  let enc ← enc.set c.toNat 44
  let c := c + 1
  let enc ← enc.memcpy c.toNat (gid.take gidLen.toNat)
  let c := c + gidLen
  let enc ← enc.set c.toNat 44
  let c := c + 1
  let enc ← enc.memcpy c.toNat (id2.take id2Len.toNat)
  let c := c + id2Len
  some (allLen, c, enc)

/-- The encoding loop, from sample `i` on. -/
def encodeLoop (speex : Speex β) (samples : List Int16) (len : Nat) :
    Nat → Nat → β → Option β
  | 0, _, bits => some bits
  | fuel + 1, i, bits =>
    if i < len then
      if i + blockLength ≤ samples.length then
        encodeLoop speex samples len fuel (i + blockLength)
          (speex.encodeInt ((samples.drop i).take blockLength) bits)
      else none
    else some bits

/-- The encoder output is appended at `c` if it may fit; otherwise `nbytes`
keeps its first contents. -/
def writeBits (speex : Speex β) (bits : β) (c : UInt8)
    (enc : CArray UInt8 256) (nbytes : UInt32) :
    Option (UInt32 × CArray UInt8 256) :=
  if speex.nbytes bits < 256 then do
    let out := speex.write bits 256
    let enc ← enc.memcpy c.toNat out
    some (UInt32.ofNat out.length, enc)
  else some (nbytes, enc)

/-- The send of `spudp_send` on the control block `p`. -/
def sendAudio (s : Spudp β) (p : UdpPcb) (enc : CArray UInt8 256)
    (count len : Nat) (e : SendEnv) : Traced NetOp (Nat × Spudp β) := do
  Traced.emit (.pbufAlloc .audio (count % 2 ^ 16))
  if e.alloc ∧ count ≤ 256 then
    if udpSend p e.link then do
      Traced.emit (.sent .audio p.remoteIp p.remotePort (enc.cells.take count))
      Traced.emit (.pbufFree .audio)
      pure (len, { s with dt := { s.dt with p := some (udpDisconnect p) } })
    else do
      Traced.emit (.refused .audio p.remoteIp p.remotePort)
      Traced.emit (.pbufFree .audio)
      -- there is no `udp_disconnect` on this way
      pure (0, { s with dt := { s.dt with p := some p } })
  else Traced.undef

/-- `spudp_send`. -/
def spudpSend (speex : Speex β) (s : Spudp β) (id gid id2 : List UInt8)
    (samples : List Int16) (len : Nat) (e : AudioEnv) :
    Traced NetOp (Nat × Spudp β) := do
  let (allLen, c, enc) ← Traced.ofOption (buildHeader e.enc id gid id2)
  match s.dt.p with
  | none => pure (0, s)
  | some p => do
    let bits ← Traced.ofOption (encodeLoop speex samples len len 0 s.encBits)
    let bits := speex.insertTerminator bits
    let (nbytes, enc) ← Traced.ofOption (writeBits speex bits c enc e.nbytes)
    let s := { s with encBits := speex.reset bits }
    let count := (nbytes + allLen.toUInt32).toNat
    if s.dt.isConnected then
      match s.dt.serverAddr with
      | some ip => sendAudio s (udpConnect p ip 5198) enc count len e.toSendEnv
      | none => pure (0, s)
    -- without a connection the block still has the address it had
    else sendAudio s p enc count len e.toSendEnv

end Roip
