/-
Roip/Httpd.lean

The web server, `httpd.c`.

`http_recv` gets a segment of a connection and looks at it through raw
pointers: `rq` is the payload with the memory behind it, and `packetEnd` the
length of the payload.  The login state `st` is a static variable, one for
all connections.

What the stack and the flash are asked to do, and the assignments to `st` and
`sysreset_req`, are the actions of a call.  The results of `tcp_write`,
`tcp_output` and `tcp_close` are only counted by the source in a variable that
is not looked at.  The payload of a segment is taken to be contiguous.
-/
import Roip.Lib.Run
import Roip.Pages

namespace Roip

/-! ### State -/

/-- `enum http_state`. -/
inductive HttpState
  | disconnected
  | passSent
  | configChanged
deriving DecidableEq, Repr

/-- A connection and the address of its client. -/
structure TcpPcb where
  id : Nat
  remoteIp : UInt32
deriving DecidableEq, Repr

inductive HttpAct
  /-- `tcp_recved` -/
  | recved (pcb : TcpPcb) (len : Nat)
  /-- an assignment to `st` -/
  | setState (st : HttpState)
  /-- `write_flash` -/
  | writeFlash
  /-- an assignment to `sysreset_req` -/
  | sysresetReq (now : UInt32)
  /-- `tcp_write` -/
  | write (pcb : TcpPcb) (page : Page)
  /-- `tcp_output` -/
  | output (pcb : TcpPcb)
  /-- `tcp_close` -/
  | close (pcb : TcpPcb)
  | pbufFree
deriving DecidableEq, Repr

/-- The variables `http_recv` uses.  `net` are the addresses of the network
interface and of the two servers. -/
structure Httpd where
  st : HttpState
  flashBuff : FlashImage
  flash : FlashImage
  sysresetReq : UInt32
  net : Addresses
deriving DecidableEq

/-- The state after a reset, when `main` has read the flash. -/
def Httpd.boot (flash : FlashImage) : Httpd where
  st := .disconnected
  flashBuff := flash
  flash := flash
  sysresetReq := 0
  net := bootAddresses flash

/-- The three local buffers of the password change. -/
structure Passwords where
  old : CArray UInt8 16
  new : CArray UInt8 16
  confirm : CArray UInt8 16
deriving DecidableEq

/-- What a call meets: the memory behind the payload and behind `flash_buff`,
the first contents of the local buffers, the results of the IAP commands and a
reading of the millisecond counter. -/
structure HttpEnv where
  behind : List UInt8
  behindBuff : List UInt8
  locals : Passwords
  iap : IapEnv
  now : UInt32
deriving DecidableEq

/-! ### Requests -/

/-- `FIND_EQUALS`. -/
def findEquals (rq : List UInt8) (packetEnd p : Nat) : Nat :=
  find rq 61 packetEnd p

/-- `FIND_SPACE`. -/
def findSpace (rq : List UInt8) (packetEnd p : Nat) : Nat :=
  find rq 32 packetEnd p

/-- `FIND_AMPERSAND`. -/
def findAmpersand (rq : List UInt8) (packetEnd p : Nat) : Nat :=
  find rq 38 packetEnd p

def request : List UInt8 := bytesOf "GET /"

def passSent : List UInt8 := bytesOf "pass_sent.cgi"

def ipSet : List UInt8 := bytesOf "ip_set.cgi"

def changePass : List UInt8 := bytesOf "change_pass.cgi"

def passSet : List UInt8 := bytesOf "pass_set.cgi"

/-- The requests that are answered. -/
inductive Request
  | root
  | passSent
  | ipSet
  | changePass
  | passSet
deriving DecidableEq, Repr

/-- `strncmp(s, name, strlen(name)) == 0`. -/
def startsWith (s name : List UInt8) : Bool := strncmpEq0 name s name.length

/-- The request at `rq`, if it is one that is answered. -/
def requestOf (rq : List UInt8) : Option Request :=
  if startsWith rq request then
    if byteAt rq 5 = 32 then some .root
    else if startsWith (rq.drop 5) passSent then some .passSent
    else if startsWith (rq.drop 5) ipSet then some .ipSet
    else if startsWith (rq.drop 5) changePass then some .changePass
    else if startsWith (rq.drop 5) passSet then some .passSet
    else none
  else none

/-! ### Answers -/

/-- `st = st'`. -/
def Httpd.setState (s : Httpd) (st' : HttpState) : Traced HttpAct Httpd := do
  Traced.emit (.setState st')
  pure { s with st := st' }

/-- `write_flash()`, its result being ignored. -/
def Httpd.writeFlash (s : Httpd) (e : HttpEnv) : Traced HttpAct Httpd := do
  Traced.emit .writeFlash
  pure { s with flash := (Roip.writeFlash s.flashBuff s.flash e.iap).2 }

/-- The check of the password `pass` in a login. -/
def passwordOk (rq : List UInt8) (packetEnd : Nat) (pass : List UInt8) :
    Bool :=
  -- `FIND_EQUALS` steps first: the search begins at index 19
  let newSetup := findEquals rq packetEnd 18
  let endOfString := findSpace rq packetEnd newSetup
  let newSetup := newSetup + 1
  strncmpEq0 pass (rq.drop newSetup) (strlen0 pass) &&
    endOfString - newSetup == strlen0 pass

/-- `GET /pass_sent.cgi`. -/
def answerPassSent (s : Httpd) (rq : List UInt8) (packetEnd : Nat)
    (e : HttpEnv) : Traced HttpAct (Page × Httpd) := do
  -- `get_flash()`
  let s := { s with flashBuff := s.flash }
  if passwordOk rq packetEnd (s.flashBuff.password ++ e.behindBuff) then
    let s ← s.setState .passSent
    pure (.setup s.net, s)
  else
    let s ← s.setState .disconnected
    pure (.wrongPassword, s)

/-- `n` octets from `p` on.  Behind each but the last one the next `=` is
searched. -/
def readOctets (rq : List UInt8) (packetEnd : Nat) : Nat → Nat → List UInt8
  | 0, _ => []
  | n + 1, p =>
    let (value, read) := strtoul (rq.drop p)
    (value &&& 0xFF).toUInt8 ::
      readOctets rq packetEnd n (findEquals rq packetEnd (p + read) + 1)

/-- The twenty octets of `GET /ip_set.cgi`, put together to addresses. -/
def readAddresses (rq : List UInt8) (packetEnd : Nat) : Addresses :=
  addressesAt (readOctets rq packetEnd 20 26)

/-- `GET /ip_set.cgi`. -/
def answerIpSet (s : Httpd) (rq : List UInt8) (packetEnd : Nat)
    (e : HttpEnv) : Traced HttpAct (Page × Httpd) := do
  if s.st = .passSent then
    let s ← s.setState .configChanged
    -- nothing tells whether the twenty octets are there
    let a := readAddresses rq packetEnd
    let flashBuff ← Traced.ofOption (s.flashBuff.storeAddresses a)
    let s ← { s with flashBuff }.writeFlash e
    Traced.emit (.sysresetReq e.now)
    pure (.changedConfiguration, { s with sysresetReq := e.now })
  else
    let s ← s.setState .disconnected
    pure (.wrongPassword, s)

/-- `GET /change_pass.cgi`. -/
def answerChangePass (s : Httpd) : Traced HttpAct (Page × Httpd) := do
  if s.st = .passSent then pure (.changePass, s)
  else
    let s ← s.setState .disconnected
    pure (.wrongPassword, s)

/-- `memcpy(buf, &rq[p], q - p); buf[q - p] = 0`, the buffer having been
emptied. -/
def copyField (buf : CArray UInt8 16) (rq : List UInt8) (p q : Nat) :
    Option (CArray UInt8 16) := do
  let buf ← buf.set 0 0
  let buf ← buf.memcpy 0 (bytesAt rq p (q - p))
  buf.set (q - p) 0

/-- The three passwords of `GET /pass_set.cgi`. -/
def readPasswords (rq : List UInt8) (packetEnd : Nat) (l : Passwords) :
    Option Passwords := do
  let newSetup := findEquals rq packetEnd 17 + 1
  let endOfString := findAmpersand rq packetEnd newSetup
  let old ← copyField l.old rq newSetup endOfString
  let newSetup := findEquals rq packetEnd newSetup + 1
  let endOfString := findAmpersand rq packetEnd newSetup
  let new ← copyField l.new rq newSetup endOfString
  let newSetup := findEquals rq packetEnd newSetup + 1
  let endOfString := findSpace rq packetEnd newSetup
  let confirm ← copyField l.confirm rq newSetup endOfString
  some ⟨old, new, confirm⟩

/-- Whether the new password is accepted. -/
def Passwords.changeOk (l : Passwords) : Bool :=
  strncmpEq0 l.new.cells l.confirm.cells (strlen0 l.new.cells) &&
    strlen0 l.new.cells != 0

/-- `GET /pass_set.cgi`. -/
def answerPassSet (s : Httpd) (rq : List UInt8) (packetEnd : Nat)
    (e : HttpEnv) : Traced HttpAct (Page × Httpd) := do
  if s.st = .passSent then
    -- a value that is too long overruns its buffer
    let l ← Traced.ofOption (readPasswords rq packetEnd e.locals)
    if l.changeOk then
      let flashBuff ← Traced.ofOption
        (s.flashBuff.storePassword (cstr l.new.cells))
      let s ← { s with flashBuff }.writeFlash e
      let s ← s.setState .disconnected
      pure (.changedPassword, s)
    else
      let s ← s.setState .disconnected
      pure (.changePasswordUnsuccessful, s)
  else
    let s ← s.setState .disconnected
    pure (.wrongPassword, s)

/-- The page that answers a request, and the state. -/
def answer (s : Httpd) (rq : List UInt8) (packetEnd : Nat) (e : HttpEnv) :
    Request → Traced HttpAct (Page × Httpd)
  | .root => pure (.login, s)
  | .passSent => answerPassSent s rq packetEnd e
  | .ipSet => answerIpSet s rq packetEnd e
  | .changePass => answerChangePass s
  | .passSet => answerPassSet s rq packetEnd e

/-- `tcp_write`, `tcp_output` and `tcp_close`. -/
def respond (pcb : TcpPcb) (page : Page) : Traced HttpAct Unit := do
  Traced.emit (.write pcb page)
  Traced.emit (.output pcb)
  Traced.emit (.close pcb)

/-! ### The callback -/

/-- `http_recv`; the payload is `none` when the remote end has closed the
connection. -/
def httpRecv (s : Httpd) (pcb : TcpPcb) (p : Option (List UInt8))
    (e : HttpEnv) : Traced HttpAct Httpd :=
  match p with
  | none => pure s
  | some payload => do
    let packetEnd := payload.length
    Traced.emit (.recved pcb packetEnd)
    let rq := payload ++ e.behind
    match requestOf rq with
    -- an unknown request: the connection stays open
    | none => do
      Traced.emit .pbufFree
      pure s
    | some r => do
      let (page, s) ← answer s rq packetEnd e r
      respond pcb page
      Traced.emit .pbufFree
      pure s

/-- A call of `http_recv`. -/
structure HttpCall where
  pcb : TcpPcb
  p : Option (List UInt8)
  env : HttpEnv
deriving DecidableEq

/-- The server as a machine. -/
def httpStep (s : Httpd) (x : HttpCall) : Traced HttpAct Httpd :=
  httpRecv s x.pcb x.p x.env

end Roip
