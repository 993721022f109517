/-
Roip/CommInit.lean

The initialisation of the radio, `radio_comm_init` of `parser.c`, over the
serial line of `serial.c`.

At the other end of the line is a modem: it takes the bytes that the handler
of the UART takes from the transmit ring, one an interrupt, and answers every
complete command line with one reply, in order.  The host step says how many
of the bytes on their way have arrived at `serial_read`, so replies arrive in
any chunks and with any delay.

A step of the host reads and sends.  An interrupt in between, or between the
test for space and the copy in `serial_send`, only takes bytes out of the ring,
as it would before the step.
-/
import Roip.Parser
import Roip.Serial

namespace Roip

/-! ### Commands and replies -/

/-- The five commands. -/
def str1 : List UInt8 := bytesOf "AT+CTSDS=12,0,0,0,0\r\n"

def str2 : List UInt8 := bytesOf "AT+CTSP=1,3,130\r\n"

def str3 : List UInt8 := bytesOf "AT+CTSP=1,1,11\r\n"

def str4 : List UInt8 := bytesOf "AT+CTSP=2,0,0\r\n"

def str5 : List UInt8 := bytesOf "AT+CTSP=2,2,20\r\n"

inductive Reply
  | ok
  | error
deriving DecidableEq, Repr

def Reply.text : Reply → List UInt8
  | .ok => bytesOf "OK\r\n"
  | .error => bytesOf "ERROR\r\n"

/-- A command line the modem has answered, and its reply. -/
abbrev Exchange := List UInt8 × Reply

/-! ### The two parties -/

structure CommInit where
  ser : SerialState
  nbytes : Nat
  /-- `serial_buffer` -/
  buf : CArray UInt8 256
  /-- whether `str1` has been accepted by `serial_send` -/
  started : Bool
  txring : TxRing
  /-- the replies not yet read -/
  rx : List UInt8
  /-- what the modem has received of a command line -/
  line : List UInt8
  /-- the command lines it has not answered yet -/
  unanswered : List (List UInt8)
deriving DecidableEq

/-- `memcpy(serial_buffer, str, strlen(str))` and `serial_send` of the copy,
whose result is not looked at. -/
def CommInit.send (s : CommInit) (str : List UInt8) : Option CommInit := do
  let buf ← s.buf.memcpy 0 str
  let (_, txring) ← serialSend s.txring (buf.cells.take str.length)
  some { s with buf, txring }

/-- `switch(ser)` after `OK`. -/
def CommInit.advance (s : CommInit) : Option CommInit :=
  match s.ser with
  | .cmd1Sent => (s.send str2).map fun s => { s with ser := .cmd2Sent }
  | .cmd2Sent => (s.send str3).map fun s => { s with ser := .cmd3Sent }
  | .cmd3Sent => (s.send str4).map fun s => { s with ser := .cmd4Sent }
  | .cmd4Sent => (s.send str5).map fun s => { s with ser := .cmd5Sent }
  | .cmd5Sent => some { s with ser := .activeWait }
  | _ => some s

/-- Some error: from the start. -/
def CommInit.restart (s : CommInit) : Option CommInit :=
  (s.send str1).map fun s => { s with ser := .cmd1Sent }

/-- `strncmp(&serial_buffer[nbytes-4],"OK\r\n",4) == 0`; undefined if the
pointer is in front of the buffer. -/
def CommInit.endsInOk (s : CommInit) : Option Bool :=
  if 4 ≤ s.nbytes then
    strncmpEq (s.buf.cells.drop (s.nbytes - 4)) (bytesOf "OK\r\n") 4
  else none

/-- The data that have been read, taken for a reply. -/
def CommInit.handleReply (s : CommInit) : Option CommInit := do
  let s ← if ← s.endsInOk then s.advance else s.restart
  some { s with nbytes := 0 }

/-- `ser < ACTIVE_WAIT`. -/
def SerialState.beforeActiveWait : SerialState → Bool
  | .noinit | .cmd1Sent | .cmd2Sent | .cmd3Sent | .cmd4Sent | .cmd5Sent => true
  | _ => false

/-- A turn of `while (ser < ACTIVE_WAIT)`, `n` bytes having arrived. -/
def CommInit.turn (s : CommInit) (n : Nat) : Option CommInit := do
  let (chunk, rx) := serialRead s.rx (256 - s.nbytes) n
  let buf ← s.buf.memcpy s.nbytes chunk
  let s := { s with buf, rx, nbytes := s.nbytes + chunk.length }
  if s.nbytes > 0 then s.handleReply else some s

/-- The next step of `radio_comm_init`, `n` bytes having arrived: a try of
`while(serial_send(...) == 0)`, a turn of the loop, or nothing. -/
def CommInit.hostStep (s : CommInit) (n : Nat) : Option CommInit :=
  if s.started then
    if s.ser.beforeActiveWait then s.turn n else some s
  else do
    let (sent, txring) ← serialSend s.txring (s.buf.cells.take str1.length)
    if sent = 0 then some s
    else some { s with txring, started := true, ser := .cmd1Sent }

/-- The modem takes a byte. -/
def CommInit.take (s : CommInit) (b : UInt8) : CommInit :=
  -- a newline completes the command line
  if b = 10 then
    { s with line := [], unanswered := s.unanswered ++ [s.line ++ [b]] }
  else { s with line := s.line ++ [b] }

/-- `UART1_IRQHandler`: the modem takes a byte from the ring, if there is one.
Several bytes in one interrupt are as many steps (`uart1IRQHandler_succ`). -/
def CommInit.receive (s : CommInit) : CommInit :=
  let (bytes, txring) := uart1IRQHandler s.txring 1
  bytes.foldl CommInit.take { s with txring }

inductive CommInitAct
  /-- the host goes on, `n` bytes having arrived -/
  | host (n : Nat)
  /-- the modem takes a byte from the ring -/
  | receive
  /-- the modem answers a command line, if there is one -/
  | answer (r : Reply)
deriving DecidableEq, Repr

/-- A step of the host or of the modem.  The exchanges are reported when the
modem answers. -/
def commInitStep (s : CommInit) : CommInitAct → Traced Exchange CommInit
  | .host n => Traced.ofOption (s.hostStep n)
  | .receive => pure s.receive
  | .answer r =>
    match s.unanswered with
    | [] => pure s
    | l :: ls =>
      ⟨[(l, r)], some { s with unanswered := ls, rx := s.rx ++ r.text }⟩

/-- The beginning of `radio_comm_init`, after `memcpy(serial_buffer,str1,..)`
into a buffer of any content; the transmit ring is as `serial_init` leaves
it. -/
def commInitStart (buf : CArray UInt8 256) (txbuff : CArray UInt8 txSize) :
    CommInit where
  ser := .noinit
  nbytes := 0
  buf := (buf.memcpy 0 str1).getD buf
  started := false
  txring := ⟨txbuff, 0, 0⟩
  rx := []
  line := []
  unanswered := []

end Roip
