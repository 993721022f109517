/-
Roip/Udp.lean

What the firmware uses of the UDP layer.

A control block keeps the remote address that `udp_connect` has set;
`udp_disconnect` clears it.  `udp_send` sends to the stored address.  Whether
the layers below accept the datagram is an input (`link`); a control block
without a remote address never succeeds.  Datagrams that arrive reach the
callback only after `udp_recv` has set one.
-/
import Roip.Lib.CArray

namespace Roip

/-- A `struct udp_pcb`: its remote end, and whether a callback is set. -/
structure UdpPcb where
  remoteIp : UInt32
  remotePort : UInt16
  connected : Bool
  recv : Bool
deriving DecidableEq, Repr

/-- `udp_new`. -/
def udpNew : UdpPcb := ⟨0, 0, false, false⟩

/-- `udp_recv`. -/
def udpRecv (pcb : UdpPcb) : UdpPcb := { pcb with recv := true }

/-- `udp_connect`. -/
def udpConnect (pcb : UdpPcb) (ipaddr : UInt32) (port : UInt16) : UdpPcb :=
  { pcb with remoteIp := ipaddr, remotePort := port, connected := true }

/-- `udp_disconnect`. -/
def udpDisconnect (pcb : UdpPcb) : UdpPcb :=
  { pcb with remoteIp := 0, remotePort := 0, connected := false }

/-- The two control blocks of `speex_udp.c`: `dt.p` and `pctl`. -/
inductive Chan
  | audio
  | control
deriving DecidableEq, Repr

/-- What the firmware asks of the UDP layer. -/
inductive NetOp
  | pbufAlloc (chan : Chan) (length : Nat)
  | pbufFree (chan : Chan)
  /-- `udp_send` has accepted the datagram -/
  | sent (chan : Chan) (ip : UInt32) (port : UInt16) (payload : List UInt8)
  /-- `udp_send` has returned an error -/
  | refused (chan : Chan) (ip : UInt32) (port : UInt16)
deriving DecidableEq, Repr

/-- `udp_send(pcb, p) == ERR_OK`.  That a datagram without a destination is
refused is assumed: the stack itself does not look at the address. -/
def udpSend (pcb : UdpPcb) (link : Bool) : Bool :=
  link && pcb.remoteIp != 0

end Roip
