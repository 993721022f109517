/-
Roip/Parser.lean

The event parser of the radio, `radio_comm` of `parser.c`.

A call of `radio_comm` appends what `serial_read` returns to a static buffer
of 256 bytes.  When the last byte is a newline the buffered text is forwarded
to the server and scanned for events, and the buffer is emptied.

Pointers into the buffer are the bytes from there to the end of the buffer
(`Ptr`, `none` for a null pointer).  A read or write outside its array is
undefined.  The local variable `len` of `radio_comm` is not initialised, so a
call takes its indeterminate first value as an input.
-/
import Mathlib.Algebra.Group.Nat.Defs
import Roip.Lib.Run
import Roip.Lib.CArray

namespace Roip

/-! ### Call state -/

/-- `enum serial_state`. -/
inductive SerialState
  | noinit
  | cmd1Sent
  | cmd2Sent
  | cmd3Sent
  | cmd4Sent
  | cmd5Sent
  | activeWait
  | activeIncomingCall
  | activeCallEstablished
  | activePtt
  | errorState
deriving DecidableEq, Repr

/-- The three identities `ssi`, `gssi` and `ssi2`. -/
inductive Identity
  | ssi
  | gssi
  | ssi2
deriving DecidableEq, Repr

/-- The global variables of `parser.c`. -/
structure Call where
  ser : SerialState
  ssi : CArray UInt8 32
  gssi : CArray UInt8 32
  ssi2 : CArray UInt8 32
deriving DecidableEq

/-- What `radio_comm` does to the rest of the device. -/
inductive RadioAct
  /-- `spudp_string_send(buf, nbytes)` -/
  | stringSend (buf : List UInt8)
  | adcStart
  | adcStop
  /-- an identity has got new contents -/
  | update (who : Identity) (s : CArray UInt8 32)
deriving DecidableEq

/-! ### Reading a value -/

/-- A pointer into the buffer: the bytes from there on. -/
abbrev Ptr := Option (List UInt8)

/-- `buf[c] >= 0x30 && buf[c] <= 0x39`. -/
def isDigit (b : UInt8) : Bool := 0x30 ≤ b && b ≤ 0x39

/-- How often the inner loop of `get_value` runs: the number of digits in
front. -/
def digitRun : List UInt8 → Option Nat
  | [] => none
  | b :: bs => if isDigit b then (digitRun bs).map (· + 1) else some 0

/-- The outer loop of `get_value`.  Returned are the pointer and, if it has
been assigned, `*out_len`. -/
def getValueLoop (buf : List UInt8) (len : Nat) (place : UInt8) :
    Nat → Nat → UInt8 → Ptr → Option (Ptr × Option UInt8)
  | 0, _, _, start => some (start, none)
  | fuel + 1, c, countPlace, start =>
    if c < len then do
      let start := buf.drop c
      -- a separator in front gives an empty segment
      let segLen ← digitRun start
      if countPlace = place then
        some (some start, some (UInt8.ofNat segLen))
      else
        -- the separator is skipped
        getValueLoop buf len place fuel (c + segLen + 1) (countPlace + 1)
          (some start)
    else some (start, none)

/-- `get_value`.  Every turn of the loop advances `c`, so `len` turns are
enough. -/
def getValue (buf : List UInt8) (len : Nat) (place : UInt8) :
    Option (Ptr × Option UInt8) :=
  getValueLoop buf len place len 0 1 none

/-- `memcpy(dst, s, len); dst[len] = 0;` -/
def storeIdentity (dst : CArray UInt8 32) (s : Ptr) (len : UInt8) :
    Option (CArray UInt8 32) := do
  let src ← match s with
    | some p => if len.toNat ≤ p.length then some (p.take len.toNat) else none
    | none => if len = 0 then some [] else none
  let dst ← dst.memcpy 0 src
  dst.set len.toNat 0

/-! ### Recognising an event -/

/-- `get_ssi`: incoming group call. -/
def getSsi : List UInt8 :=
  bytesOf "+CTICN:0,0,0,0,255,1,1,0,1,1,1,216216300000300,3"

/-- `call_est`: call established. -/
def callEst : List UInt8 := bytesOf "+CTCC:0,1,1,0,0,1,1,3"

/-- `ptt_pressed`: push-to-talk is at a station. -/
def pttPressed : List UInt8 := bytesOf "+CTXG:0,3,0,0,0,255"

/-- `ptt_released`: push-to-talk is released. -/
def pttReleased : List UInt8 := bytesOf "+CDTXC:0,0"

/-- `call_end`: call end. -/
def callEnd : List UInt8 := bytesOf "+CTCR:0,13"

/-- The five events. -/
inductive Event
  | getSsi
  | callEst
  | pttPressed
  | pttReleased
  | callEnd
deriving DecidableEq, Repr

/-- How far the cursor moves at an event: its prefix and one character. -/
def Event.skip : Event → Nat
  | .getSsi => 8
  | .callEst => 7
  | .pttPressed => 7
  | .pttReleased => 8
  | .callEnd => 7

/-- `strncmp(&buf[c], text, n) == 0` for each event, in the order of the
source. -/
def comparisons : List (List UInt8 × Nat × Event) :=
  [(getSsi, 7, .getSsi), (callEst, 6, .callEst), (pttPressed, 6, .pttPressed),
    (pttReleased, 7, .pttReleased), (callEnd, 6, .callEnd)]

/-- The first comparison that succeeds. -/
def firstMatch (p : List UInt8) :
    List (List UInt8 × Nat × Event) → Option (Option Event)
  | [] => some none
  | (text, n, ev) :: rest => do
    if ← strncmpEq p text n then some (some ev) else firstMatch p rest

/-- The conditions in the loop of `radio_comm`, at `&buf[c]`. -/
def recognise : List UInt8 → Option (Option Event)
  | [] => none
  | b :: bs =>
    -- line ends are passed over one by one
    if b = 13 || b = 10 then some none else firstMatch (b :: bs) comparisons

/-! ### Scanning the buffer -/

/-- Subtraction of 32-bit unsigned numbers. -/
def sub32 (a b : Nat) : Nat := (a + 2 ^ 32 - b) % 2 ^ 32

/-- `memset(dst, 0, 32)`. -/
def clearIdentity : CArray UInt8 32 := CArray.fill 32 0

/-- What the loop of `radio_comm` does at an event, the cursor being behind
its prefix; `p` is `&buf[c]` and `rest` is `nbytes-c`.  Returned are `len`
and the call state. -/
def handleEvent (ev : Event) (p : List UInt8) (rest : Nat) (len : UInt8)
    (s : Call) : Traced RadioAct (UInt8 × Call) :=
  match ev with
  | .getSsi => do
    -- both values are counted from the end of the prefix
    let (v, outLen) ← Traced.ofOption (getValue p rest 5)
    let len := outLen.getD len
    let ssi ← Traced.ofOption (storeIdentity s.ssi v len)
    Traced.emit (.update .ssi ssi)
    let (v, outLen) ← Traced.ofOption (getValue p rest 12)
    let len := outLen.getD len
    let gssi ← Traced.ofOption (storeIdentity s.gssi v len)
    Traced.emit (.update .gssi gssi)
    pure (len, { s with ssi, gssi, ser := .activeIncomingCall })
  | .callEst => pure (len, { s with ser := .activeCallEstablished })
  | .pttPressed => do
    let (v, outLen) ← Traced.ofOption (getValue p rest 6)
    let len := outLen.getD len
    let ssi2 ← Traced.ofOption (storeIdentity s.ssi2 v len)
    Traced.emit (.update .ssi2 ssi2)
    Traced.emit .adcStart
    pure (len, { s with ssi2, ser := .activePtt })
  | .pttReleased => do
    Traced.emit (.update .ssi2 clearIdentity)
    Traced.emit .adcStop
    pure (len, { s with
      ssi2 := clearIdentity
      ser := .activeCallEstablished })
  | .callEnd => do
    Traced.emit (.update .ssi clearIdentity)
    Traced.emit (.update .gssi clearIdentity)
    pure (len, { s with
      ssi := clearIdentity
      gssi := clearIdentity
      ser := .activeWait })

/-- One turn of the loop at cursor `c`: the new cursor, `len` and call
state. -/
def scanBody (buf : List UInt8) (nbytes c : Nat) (len : UInt8) (s : Call) :
    Traced RadioAct (Nat × UInt8 × Call) := do
  match ← Traced.ofOption (recognise (buf.drop c)) with
  | none => pure (c + 1, len, s)
  | some ev =>
    let c := c + ev.skip
    let (len, s) ← handleEvent ev (buf.drop c) (sub32 nbytes c) len s
    pure (c, len, s)

/-- `while(c < nbytes)`.  Every turn advances `c`, so `nbytes` turns are
enough. -/
def scan (buf : List UInt8) (nbytes : Nat) :
    Nat → Nat → UInt8 → Call → Traced RadioAct Call
  | 0, _, _, s => pure s
  | fuel + 1, c, len, s =>
    if c < nbytes then do
      let (c, len, s) ← scanBody buf nbytes c len s
      scan buf nbytes fuel c len s
    else pure s

/-! ### `radio_comm` -/

/-- The globals and the static locals of `radio_comm`. -/
structure Radio where
  call : Call
  nbytes : Nat
  buf : CArray UInt8 256
deriving DecidableEq

/-- What one call of `radio_comm` meets: the bytes `serial_read` returns, and
the indeterminate value of `len`. -/
structure RadioIn where
  chunk : List UInt8
  len : UInt8
deriving DecidableEq

/-- `nbytes += serial_read(&buf[nbytes], 256-nbytes)`. -/
def accumulate (r : Radio) (chunk : List UInt8) : Option Radio :=
  (r.buf.memcpy r.nbytes chunk).map fun buf =>
    { r with nbytes := r.nbytes + chunk.length, buf }

/-- `nbytes > 0 && buf[nbytes-1] == '\n'`. -/
def Radio.complete (r : Radio) : Bool :=
  r.nbytes > 0 && r.buf.cells[r.nbytes - 1]? = some 10

/-- `radio_comm`. -/
def radioComm (r : Radio) (i : RadioIn) : Traced RadioAct Radio := do
  let r ← Traced.ofOption (accumulate r i.chunk)
  if r.complete then do
    -- the text goes to the server before it is looked at
    Traced.emit (.stringSend (r.buf.cells.take r.nbytes))
    let call ← scan r.buf.cells r.nbytes r.nbytes 0 i.len r.call
    pure { r with call, nbytes := 0 }
  else pure r

/-- After `radio_comm_init`: the state is `ACTIVE_WAIT`, everything else has
its static initial value. -/
def radioInit : Radio where
  call :=
    { ser := .activeWait, ssi := clearIdentity, gssi := clearIdentity,
      ssi2 := clearIdentity }
  nbytes := 0
  buf := CArray.fill 256 0

end Roip
