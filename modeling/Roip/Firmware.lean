/-
Roip/Firmware.lean

The whole device: the main loop of `roip.c`, the interrupts of the converter
and of the serial line, and the connection to the servers.

A turn of the main loop hands on a control packet, calls `radio_comm` and
`spudp_control_send`, and sends a finished block.  Interrupts come between any
two steps.  Neither the call of `radio_comm` nor that of `spudp_send` is one
step: `spudp_send` encodes a block in pieces of `BLOCK_LENGTH` samples, and
reads each piece where `block_result` pointed to when it was called, while the
interrupt handler goes on filling blocks.

What happens inside the device is observed: the samples stored, the bytes
queued, the texts and blocks handed to `speex_udp.c`, and what that asks of
the network (`FirmwareOut`).  The other uses of the network, the timers of the
stack, the PHY and the reset are left out.
-/
import Roip.Device
import Roip.Framing
import Roip.Lib.Ring

namespace Roip

/-! ### The device -/

/-- The size of `rxbuff`. -/
def rxSize : Nat := 256

instance : Fact (0 < rxSize) := ⟨by decide⟩

/-- `rxring`, over `rxbuff`. -/
abbrev RxRing := Ring UInt8 rxSize

/-- A call of `spudp_send` in its encoding loop: what `buildHeader` has left,
the block it has got, the samples encoded so far, the bits, and what the call
meets. -/
structure Encoding (β : Type) where
  allLen : UInt8
  cursor : UInt8
  enc : CArray UInt8 256
  ptr : Block
  i : Nat
  bits : β
  env : AudioEnv
deriving DecidableEq

structure Firmware (β : Type) where
  dev : Device Int16
  spudp : Spudp β
  rxring : RxRing
  /-- whether the call in front of `radio_comm`, or in front of
  `if(n_conv_finished)`, has been made in this turn -/
  served : Bool
  encoding : Option (Encoding β)
deriving DecidableEq

/-- What a step of the main loop meets: the first contents of `len`, the
sender of the control packet that has arrived, if any, readings of the
counter, and what a send meets. -/
structure MainIn where
  len : UInt8
  packet : Option UInt32
  t₁ : Nat
  t₂ : Nat
  t₃ : Nat
  env : AudioEnv
deriving DecidableEq

inductive FirmwareAct
  /-- `ADC_IRQHandler`, with the reading of the data register -/
  | adc (dr : UInt32)
  /-- `UART1_IRQHandler` finds a byte -/
  | uart (b : UInt8)
  /-- the next step of the main loop -/
  | main (i : MainIn)
deriving DecidableEq

/-- What is observed. -/
inductive FirmwareOut
  /-- the interrupt handler has stored a sample -/
  | sample (x : Int16)
  /-- a byte has been queued in `rxring` -/
  | queued (b : UInt8)
  | device (o : DeviceOut Int16)
  | net (o : NetOp)
deriving DecidableEq

namespace Firmware

variable {β : Type}

/-- A call of `speex_udp.c`. -/
def call (f : Firmware β) (x : Traced NetOp (Spudp β)) :
    Traced FirmwareOut (Firmware β) :=
  x.image .net fun spudp => { f with spudp }

/-- `spudp_send` up to its encoding loop. -/
def beginSend (f : Firmware β) (h : Handed Int16) (e : AudioEnv) :
    Traced FirmwareOut (Firmware β) := do
  let (allLen, cursor, enc) ← Traced.ofOption
    (buildHeader e.enc h.id.cells h.gid.cells h.id2.cells)
  match f.spudp.dt.p with
  | none => pure f
  | some _ => pure { f with
      encoding := some ⟨allLen, cursor, enc, f.dev.adc.blockResult, 0,
        f.spudp.encBits, e⟩ }

/-- What follows the encoding loop. -/
def endSend (speex : Speex β) (f : Firmware β) (c : Encoding β) :
    Traced FirmwareOut (Firmware β) := do
  let bits := speex.insertTerminator c.bits
  let (nbytes, enc) ← Traced.ofOption
    (writeBits speex bits c.cursor c.enc c.env.nbytes)
  let s := { f.spudp with encBits := speex.reset bits }
  let count := (nbytes + c.allLen.toUInt32).toNat
  let f := { f with encoding := none }
  match s.dt.p with
  | none => pure { f with spudp := s }
  | some p =>
    if s.dt.isConnected then
      match s.dt.serverAddr with
      | some ip => f.call (Prod.snd <$>
          sendAudio s (udpConnect p ip 5198) enc count blockSize
            c.env.toSendEnv)
      | none => pure { f with spudp := s }
    else f.call (Prod.snd <$>
      sendAudio s p enc count blockSize c.env.toSendEnv)

/-- A turn of the encoding loop: the piece is read where the pointer points
to now. -/
def encodePiece (speex : Speex β) (f : Firmware β) (c : Encoding β) :
    Firmware β :=
  let piece := ((f.dev.adc.block c.ptr).cells.drop c.i).take blockLength
  { f with encoding := some { c with
      i := c.i + blockLength, bits := speex.encodeInt piece c.bits } }

/-- What a step of `radio_comm` or the test of `n_conv_finished` hands to
`speex_udp.c`. -/
def serve (f : Firmware β) (e : AudioEnv) (o : DeviceOut Int16) :
    Traced FirmwareOut (Firmware β) := do
  Traced.emit (.device o)
  match o with
  | .radio (.stringSend buf) =>
    f.call (Prod.snd <$>
      spudpStringSend f.spudp buf buf.length e.toSendEnv)
  | .handed h => f.beginSend h e
  | _ => pure f

/-- A step of the main loop inside `radio_comm`, at the test of
`n_conv_finished` or behind `spudp_send`. -/
def deviceMain (f : Firmware β) (chunk : List UInt8) (i : MainIn) :
    Traced FirmwareOut (Firmware β) := do
  let t := mainLoopStep f.dev ⟨chunk, i.len⟩
  let f ← t.out.foldlM (fun f o => f.serve i.env o) f
  let dev ← Traced.ofOption t.res
  pure { f with dev, served := false }

/-- `radio_comm` is entered: `serial_read(&buf[nbytes],256-nbytes)`, which
asserts that there is room. -/
def enterRadio (f : Firmware β) (i : MainIn) :
    Traced FirmwareOut (Firmware β) :=
  if 256 - f.dev.radio.nbytes = 0 then Traced.undef
  else
    let (chunk, rxring) := f.rxring.drain (256 - f.dev.radio.nbytes)
    { f with rxring }.deviceMain chunk i

/-- The head of the loop: a control packet is handed on, if one has arrived
and `handleControlInput` is registered. -/
def input (speex : Speex β) (f : Firmware β) (i : MainIn) :
    Traced FirmwareOut (Firmware β) :=
  match i.packet with
  | some addr =>
    { f with served := true }.call (spudpStep speex f.spudp (.input addr i.t₁))
  | none => pure { f with served := true }

/-- The next step of the main loop. -/
def mainStep (speex : Speex β) (f : Firmware β) (i : MainIn) :
    Traced FirmwareOut (Firmware β) :=
  match f.dev.main, f.served, f.encoding with
  | .radioComm, false, _ => f.input speex i
  | .radioComm, true, _ => f.enterRadio i
  | .test, false, _ =>
    { f with served := true }.call (spudpStep speex f.spudp
      (.controlSend i.t₁ i.t₂ i.t₃ i.env.toSendEnv))
  | .sending, _, some c =>
    if c.i < blockSize then pure (f.encodePiece speex c)
    else f.endSend speex c
  | _, _, _ => f.deviceMain [] i

/-- `ADC_IRQHandler`, if it is enabled. -/
def adcStep (f : Firmware β) (dr : UInt32) :
    Traced FirmwareOut (Firmware β) := do
  if f.dev.adc.irqEnabled then
    Traced.emit (.sample (toSample dr))
  (irqStep toSample f.dev dr).image .device fun dev => { f with dev }

/-- A byte the UART has received; it is dropped if the ring is full. -/
def uartStep (f : Firmware β) (b : UInt8) :
    Traced FirmwareOut (Firmware β) := do
  let (n, rxring) ← Traced.ofOption (f.rxring.insertMult [b])
  if n = 1 then Traced.emit (.queued b)
  pure { f with rxring }

end Firmware

variable {β : Type}

def firmwareStep (speex : Speex β) (f : Firmware β) :
    FirmwareAct → Traced FirmwareOut (Firmware β)
  | .adc dr => f.adcStep dr
  | .uart b => f.uartStep b
  | .main i => f.mainStep speex i

/-- At the beginning of the main loop, after `ADC_init` (without a callback),
`serial_init`, `spudp_init` and `radio_comm_init`, which has read the first `k`
bytes of the receive ring. -/
def firmwareInit (rxbuff : CArray UInt8 rxSize) (k : Nat) (s : Spudp β) :
    Firmware β where
  dev := deviceInit 0 false
  spudp := s
  rxring := ⟨rxbuff, k, k⟩
  served := false
  encoding := none

/-! ### What is observed -/

/-- The samples stored. -/
def samplesIn (o : List FirmwareOut) : List Int16 :=
  o.filterMap fun
    | .sample x => some x
    | _ => none

/-- The bytes queued. -/
def queuedIn (o : List FirmwareOut) : List UInt8 :=
  o.filterMap fun
    | .queued b => some b
    | _ => none

/-- The outputs of the device of `Roip.Device`. -/
def deviceIn (o : List FirmwareOut) : List (DeviceOut Int16) :=
  o.filterMap fun
    | .device a => some a
    | _ => none

/-- What has been asked of the network. -/
def netIn (o : List FirmwareOut) : List NetOp :=
  o.filterMap fun
    | .net a => some a
    | _ => none

section Observed

variable (o o' : List FirmwareOut) (os : List (DeviceOut Int16))
  (ns : List NetOp)

@[simp] theorem samplesIn_append :
    samplesIn (o ++ o') = samplesIn o ++ samplesIn o' :=
  List.filterMap_append

@[simp] theorem queuedIn_append :
    queuedIn (o ++ o') = queuedIn o ++ queuedIn o' := List.filterMap_append

@[simp] theorem deviceIn_append :
    deviceIn (o ++ o') = deviceIn o ++ deviceIn o' := List.filterMap_append

@[simp] theorem netIn_append : netIn (o ++ o') = netIn o ++ netIn o' :=
  List.filterMap_append

@[simp] theorem samplesIn_map_device : samplesIn (os.map .device) = [] := by
  simp [samplesIn]

@[simp] theorem queuedIn_map_device : queuedIn (os.map .device) = [] := by
  simp [queuedIn]

@[simp] theorem deviceIn_map_device : deviceIn (os.map .device) = os := by
  simp [deviceIn]

@[simp] theorem netIn_map_device : netIn (os.map .device) = [] := by
  simp [netIn]

@[simp] theorem samplesIn_map_net : samplesIn (ns.map .net) = [] := by
  simp [samplesIn]

@[simp] theorem queuedIn_map_net : queuedIn (ns.map .net) = [] := by
  simp [queuedIn]

@[simp] theorem deviceIn_map_net : deviceIn (ns.map .net) = [] := by
  simp [deviceIn]

@[simp] theorem netIn_map_net : netIn (ns.map .net) = ns := by
  simp [netIn]

end Observed

/-! ### What a step can do -/

/-- A step of the main loop that takes no byte from the ring, or the beginning
of `radio_comm`, which takes as many as there is room for. -/
inductive Reads (f : Firmware β) : List UInt8 → RxRing → Prop
  | enter (hmain : f.dev.main = .radioComm)
    (hroom : f.dev.radio.nbytes < 256) :
    Reads f (f.rxring.drain (256 - f.dev.radio.nbytes)).1
      (f.rxring.drain (256 - f.dev.radio.nbytes)).2
  | inside (hmain : f.dev.main ≠ .radioComm)
    (hdone : f.dev.main = .sending → f.encoding = none) : Reads f [] f.rxring

/-- What a step of the main loop can do. -/
inductive Move (speex : Speex β) (f : Firmware β) (i : MainIn) :
    List FirmwareOut → Firmware β → Prop
  /-- no control packet has arrived -/
  | quiet (hmain : f.dev.main = .radioComm) :
    Move speex f i [] { f with served := true }
  /-- a control packet -/
  | input {addr : UInt32} {o : List NetOp} {s : Spudp β}
    (hmain : f.dev.main = .radioComm)
    (h : spudpStep speex f.spudp (.input addr i.t₁) = ⟨o, some s⟩) :
    Move speex f i (o.map .net) { f with spudp := s, served := true }
  /-- `spudp_control_send` -/
  | control {o : List NetOp} {s : Spudp β} (hmain : f.dev.main = .test)
    (h : spudpStep speex f.spudp (.controlSend i.t₁ i.t₂ i.t₃
      i.env.toSendEnv) = ⟨o, some s⟩) :
    Move speex f i (o.map .net) { f with spudp := s, served := true }
  /-- a step of the device that hands nothing on -/
  | device {chunk : List UInt8} {rxring : RxRing}
    {os : List (DeviceOut Int16)} {dev : Device Int16}
    (hread : Reads f chunk rxring)
    (h : mainLoopStep f.dev ⟨chunk, i.len⟩ = ⟨os, some dev⟩)
    (hos : os = [] ∨ ∃ a, os = [.radio a] ∧ a.datagram? = none) :
    Move speex f i (os.map .device) { f with dev, rxring, served := false }
  /-- a text is handed to `spudp_string_send` -/
  | text {chunk : List UInt8} {rxring : RxRing} {buf : List UInt8}
    {dev : Device Int16} {o : List NetOp} {s : Spudp β}
    (hread : Reads f chunk rxring)
    (h : mainLoopStep f.dev ⟨chunk, i.len⟩ =
      ⟨[.radio (.stringSend buf)], some dev⟩)
    (hs : spudpStep speex f.spudp (.stringSend buf buf.length
      i.env.toSendEnv) = ⟨o, some s⟩) :
    Move speex f i (.device (.radio (.stringSend buf)) :: o.map .net)
      { f with dev, spudp := s, rxring, served := false }
  /-- a block is handed to `spudp_send`, which is off -/
  | off {b : Handed Int16} {dev : Device Int16}
    {hdr : UInt8 × UInt8 × CArray UInt8 256}
    (h : mainLoopStep f.dev ⟨[], i.len⟩ = ⟨[.handed b], some dev⟩)
    (hheader : buildHeader i.env.enc b.id.cells b.gid.cells b.id2.cells =
      some hdr)
    (hp : f.spudp.dt.p = none) :
    Move speex f i [.device (.handed b)] { f with dev, served := false }
  /-- a block is handed to `spudp_send`, which begins to encode it -/
  | begin {b : Handed Int16} {dev : Device Int16} {allLen cursor : UInt8}
    {enc : CArray UInt8 256} {p : UdpPcb}
    (h : mainLoopStep f.dev ⟨[], i.len⟩ = ⟨[.handed b], some dev⟩)
    (hheader : buildHeader i.env.enc b.id.cells b.gid.cells b.id2.cells =
      some (allLen, cursor, enc))
    (hp : f.spudp.dt.p = some p) :
    Move speex f i [.device (.handed b)] { f with
      dev
      served := false
      encoding := some ⟨allLen, cursor, enc, f.dev.adc.blockResult, 0,
        f.spudp.encBits, i.env⟩ }
  /-- a piece is encoded -/
  | piece {c : Encoding β} (hmain : f.dev.main = .sending)
    (hc : f.encoding = some c) (hi : c.i < blockSize) :
    Move speex f i [] (f.encodePiece speex c)
  /-- the rest of `spudp_send` -/
  | finish {c : Encoding β} {o : List FirmwareOut} {f' : Firmware β}
    (hmain : f.dev.main = .sending) (hc : f.encoding = some c)
    (hi : blockSize ≤ c.i) (h : f.endSend speex c = ⟨o, some f'⟩) :
    Move speex f i o f'

section Moves

variable {speex : Speex β} {f f' : Firmware β} {i : MainIn}
  {o : List FirmwareOut}

theorem call_eq_mk_iff {x : Traced NetOp (Spudp β)} :
    f.call x = ⟨o, some f'⟩ ↔
      ∃ ns s, x = ⟨ns, some s⟩ ∧ o = ns.map .net ∧
        f' = { f with spudp := s } := by
  obtain ⟨ns, - | s⟩ := x
  · constructor
    · intro h
      cases congrArg Traced.res h
    · rintro ⟨_, _, h, -⟩
      cases congrArg Traced.res h
  · constructor
    · intro h
      obtain ⟨ho, hf⟩ := Traced.mk.inj h
      exact ⟨ns, s, rfl, ho.symm, (Option.some.inj hf).symm⟩
    · rintro ⟨_, _, h, rfl, rfl⟩
      cases h
      rfl

theorem call_snd_eq_mk_iff {x : Traced NetOp (Nat × Spudp β)} :
    f.call (Prod.snd <$> x) = ⟨o, some f'⟩ ↔
      ∃ ns n s, x = ⟨ns, some (n, s)⟩ ∧ o = ns.map .net ∧
        f' = { f with spudp := s } := by
  rw [call_eq_mk_iff]
  constructor
  · rintro ⟨ns, s, hx, rfl, rfl⟩
    obtain ⟨⟨n, s⟩, hx', rfl⟩ := Traced.map_eq_mk_iff.mp hx
    exact ⟨ns, n, s, hx', rfl, rfl⟩
  · rintro ⟨ns, n, s, hx, rfl, rfl⟩
    exact ⟨ns, s, Traced.map_eq_mk_iff.mpr ⟨_, hx, rfl⟩, rfl, rfl⟩

/-- A step of the main loop performs one action of `radio_comm`, or hands on
a block, or does neither. -/
theorem mainLoopStep_out {d d' : Device Int16} {i : RadioIn}
    {os : List (DeviceOut Int16)} (h : mainLoopStep d i = ⟨os, some d'⟩) :
    os = [] ∨ (∃ a, os = [.radio a]) ∨ ∃ b, os = [.handed b] := by
  rcases hmain : d.main with - | ⟨c, len⟩ | ⟨- | ⟨a, todo⟩, next⟩ | - | - <;>
    simp only [mainLoopStep, hmain] at h
  · obtain ⟨r, -, hr⟩ := Traced.ofOption_bind_eq_mk_iff.mp h
    split at hr
    · obtain ⟨_, rfl, hret⟩ := Traced.emit_bind_eq_mk_iff.mp hr
      obtain ⟨rfl, -⟩ := Traced.pure_eq_mk_iff.mp hret
      exact Or.inr (Or.inl ⟨_, rfl⟩)
    · exact Or.inl (Traced.pure_eq_mk_iff.mp hr).1
  · unfold scanTurn at h
    split at h
    · split at h
      · exact Or.inl (Traced.pure_eq_mk_iff.mp h).1
      · cases congrArg Traced.res h
    · exact Or.inl (Traced.pure_eq_mk_iff.mp h).1
  · exact Or.inl (Traced.pure_eq_mk_iff.mp h).1
  · obtain ⟨_, rfl, hret⟩ := Traced.emit_bind_eq_mk_iff.mp h
    obtain ⟨rfl, -⟩ := Traced.pure_eq_mk_iff.mp hret
    exact Or.inr (Or.inl ⟨_, rfl⟩)
  · unfold testFinished at h
    split at h
    · obtain ⟨_, rfl, hret⟩ := Traced.emit_bind_eq_mk_iff.mp h
      obtain ⟨rfl, -⟩ := Traced.pure_eq_mk_iff.mp hret
      exact Or.inr (Or.inr ⟨_, rfl⟩)
    · exact Or.inl (Traced.pure_eq_mk_iff.mp h).1
  · exact Or.inl (Traced.pure_eq_mk_iff.mp h).1

/-- `spudp_send` up to its encoding loop. -/
theorem beginSend_cases {b : Handed Int16} {e : AudioEnv}
    (h : f.beginSend b e = ⟨o, some f'⟩) :
    o = [] ∧ ∃ allLen cursor enc,
      buildHeader e.enc b.id.cells b.gid.cells b.id2.cells =
        some (allLen, cursor, enc) ∧
      ((f.spudp.dt.p = none ∧ f' = f) ∨
        ∃ p, f.spudp.dt.p = some p ∧ f' = { f with
          encoding := some ⟨allLen, cursor, enc, f.dev.adc.blockResult, 0,
            f.spudp.encBits, e⟩ }) := by
  obtain ⟨⟨allLen, cursor, enc⟩, hheader, hrest⟩ :=
    Traced.ofOption_bind_eq_mk_iff.mp h
  dsimp only at hrest
  rcases hp : f.spudp.dt.p with - | p
  · rw [hp] at hrest
    obtain ⟨rfl, rfl⟩ := Traced.pure_eq_mk_iff.mp hrest
    exact ⟨rfl, _, _, _, hheader, Or.inl ⟨rfl, rfl⟩⟩
  · rw [hp] at hrest
    obtain ⟨rfl, rfl⟩ := Traced.pure_eq_mk_iff.mp hrest
    exact ⟨rfl, _, _, _, hheader, Or.inr ⟨p, rfl, rfl⟩⟩

theorem Reads.of_test (hmain : f.dev.main = .test) : Reads f [] f.rxring :=
  .inside (by rw [hmain]; nofun) (by rw [hmain]; nofun)

theorem Reads.eq_of_test {chunk : List UInt8} {rxring : RxRing}
    (h : Reads f chunk rxring) (hmain : f.dev.main = .test) :
    chunk = [] ∧ rxring = f.rxring := by
  cases h with
  | enter hradio => rw [hmain] at hradio; cases hradio
  | inside => exact ⟨rfl, rfl⟩

/-- What a step hands on is served. -/
theorem serve_singleton {g : Firmware β} {e : AudioEnv}
    {a : DeviceOut Int16}
    (h : [a].foldlM (fun f o => f.serve e o) f = ⟨o, some g⟩) :
    f.serve e a = ⟨o, some g⟩ := by
  simpa only [List.foldlM_cons, List.foldlM_nil, bind_pure] using h

theorem deviceMain_move {chunk : List UInt8} {rxring : RxRing}
    (hread : Reads f chunk rxring)
    (h : { f with rxring }.deviceMain chunk i = ⟨o, some f'⟩) :
    Move speex f i o f' := by
  obtain ⟨g, o', hserve, hdev, rfl⟩ := Traced.bind_eq_mk_iff.mp h
  obtain ⟨dev, hres, hret⟩ := Traced.ofOption_bind_eq_mk_iff.mp hdev
  obtain ⟨rfl, rfl⟩ := Traced.pure_eq_mk_iff.mp hret
  rw [List.append_nil]
  have hstep := Traced.eq_mk_of_res hres
  replace hserve := Traced.eq_mk_of_res hserve
  generalize (List.foldlM _ _ _ : Traced _ _).out = o at hserve ⊢
  rcases mainLoopStep_out hstep with hnil | ⟨a, hone⟩ | ⟨b, hone⟩
  · rw [hnil] at hstep hserve
    obtain ⟨rfl, rfl⟩ := Traced.pure_eq_mk_iff.mp hserve
    exact .device hread hstep (Or.inl rfl)
  all_goals
    rw [hone] at hstep hserve
    obtain ⟨ns, rfl, hcall⟩ :=
      Traced.emit_bind_eq_mk_iff.mp (serve_singleton hserve)
  · rcases a with buf | - | - | ⟨who, s⟩
    · obtain ⟨ns, s, hs, rfl, rfl⟩ := call_eq_mk_iff.mp hcall
      exact .text hread hstep hs
    all_goals
      obtain ⟨rfl, rfl⟩ := Traced.pure_eq_mk_iff.mp hcall
      exact .device hread hstep (Or.inr ⟨_, rfl, rfl⟩)
  · obtain ⟨hmain, -, -⟩ := mainLoopStep_handed (b := b) (by
      rw [hstep]
      exact List.mem_singleton.mpr rfl)
    obtain ⟨rfl, rfl⟩ := hread.eq_of_test hmain
    obtain ⟨rfl, allLen, cursor, enc, hheader, ⟨hp, rfl⟩ | ⟨p, hp, rfl⟩⟩ :=
      beginSend_cases hcall
    · exact .off hstep hheader hp
    · exact .begin hstep hheader hp

/-- **What a step of the main loop can do.** -/
theorem mainStep_move (h : f.mainStep speex i = ⟨o, some f'⟩) :
    Move speex f i o f' := by
  unfold Firmware.mainStep at h
  split at h
  · next hmain _ =>
    unfold Firmware.input at h
    split at h
    · obtain ⟨ns, s, hs, rfl, rfl⟩ := call_eq_mk_iff.mp h
      exact .input hmain hs
    · obtain ⟨rfl, rfl⟩ := Traced.pure_eq_mk_iff.mp h
      exact .quiet hmain
  · next hmain _ =>
    unfold Firmware.enterRadio at h
    split at h
    · cases congrArg Traced.res h
    · next hroom => exact deviceMain_move (.enter hmain (by omega)) h
  · next hmain _ =>
    obtain ⟨ns, s, hs, rfl, rfl⟩ := call_eq_mk_iff.mp h
    exact .control hmain hs
  · next c hmain hc =>
    split at h
    · next hi =>
      obtain ⟨rfl, rfl⟩ := Traced.pure_eq_mk_iff.mp h
      exact .piece hmain hc hi
    · next hi => exact .finish hmain hc (Nat.not_lt.mp hi) h
  · next hinput hradio hcontrol hsending =>
    refine deviceMain_move (.inside ?_ ?_) h
    · intro hmain
      rcases hserved : f.served with - | -
      · exact hinput hmain hserved
      · exact hradio hmain hserved
    · intro hmain
      rcases hc : f.encoding with - | c
      · rfl
      · exact absurd hc (hsending c hmain)

/-- **The rest of `spudp_send`**: the output of the encoder is written, and
the datagram is tried on the control block of audio. -/
theorem endSend_cases {c : Encoding β}
    (h : f.endSend speex c = ⟨o, some f'⟩) :
    ∃ nbytes enc s, writeBits speex (speex.insertTerminator c.bits) c.cursor
        c.enc c.env.nbytes = some (nbytes, enc) ∧
      f' = { f with spudp := s, encoding := none } ∧
      ((f.spudp.audioPcb = none ∧ o = [] ∧ s = { f.spudp with
          encBits := speex.reset (speex.insertTerminator c.bits) }) ∨
        ∃ q ns n, f.spudp.audioPcb = some q ∧ o = ns.map .net ∧
          sendAudio { f.spudp with
              encBits := speex.reset (speex.insertTerminator c.bits) }
            q enc (nbytes + c.allLen.toUInt32).toNat blockSize
            c.env.toSendEnv = ⟨ns, some (n, s)⟩) := by
  obtain ⟨⟨nbytes, enc⟩, hwrite, hrest⟩ :=
    Traced.ofOption_bind_eq_mk_iff.mp h
  dsimp only at hrest
  refine ⟨nbytes, enc, ?_⟩
  rcases hp : f.spudp.dt.p with - | p
  · rw [hp] at hrest
    obtain ⟨rfl, rfl⟩ := Traced.pure_eq_mk_iff.mp hrest
    exact ⟨_, hwrite, rfl, Or.inl ⟨by rw [Spudp.audioPcb, hp]; rfl, rfl, rfl⟩⟩
  rw [hp] at hrest
  dsimp only at hrest
  split at hrest
  · next hconn =>
    split at hrest
    · next ip hs =>
      obtain ⟨ns, n, s, hsend, rfl, rfl⟩ := call_snd_eq_mk_iff.mp hrest
      refine ⟨s, hwrite, rfl, Or.inr ⟨_, ns, n, ?_, rfl, hsend⟩⟩
      rw [Spudp.audioPcb, hp, Option.bind_some, if_pos hconn, hs]
      rfl
    · next hs =>
      obtain ⟨rfl, rfl⟩ := Traced.pure_eq_mk_iff.mp hrest
      refine ⟨_, hwrite, rfl, Or.inl ⟨?_, rfl, rfl⟩⟩
      rw [Spudp.audioPcb, hp, Option.bind_some, if_pos hconn, hs]
      rfl
  · next hconn =>
    obtain ⟨ns, n, s, hsend, rfl, rfl⟩ := call_snd_eq_mk_iff.mp hrest
    refine ⟨s, hwrite, rfl, Or.inr ⟨p, ns, n, ?_, rfl, hsend⟩⟩
    rw [Spudp.audioPcb, hp, Option.bind_some, if_neg hconn]

theorem sendAudio_chan {s : Spudp β} {q : UdpPcb} {enc : CArray UInt8 256}
    {count len n : Nat} {e : SendEnv} {ns : List NetOp} {s' : Spudp β}
    (h : sendAudio s q enc count len e = ⟨ns, some (n, s')⟩) :
    ∀ a ∈ ns, a.chan = .audio := by
  rcases sendAudio_cases s q enc count len e with hs | ⟨-, hs⟩ | ⟨-, hs⟩ <;>
    rw [hs] at h
  · cases congrArg Traced.res h
  all_goals
    obtain ⟨rfl, -⟩ := Traced.mk.inj h
    simp [NetOp.chan]

theorem uartStep_cases {b : UInt8} (h : f.uartStep b = ⟨o, some f'⟩) :
    ∃ r, f' = { f with rxring := r } ∧ (o = [] ∨ o = [.queued b]) := by
  obtain ⟨⟨n, r⟩, -, hrest⟩ := Traced.ofOption_bind_eq_mk_iff.mp h
  dsimp only at hrest
  split at hrest
  · obtain ⟨_, rfl, hret⟩ := Traced.emit_bind_eq_mk_iff.mp hrest
    obtain ⟨rfl, rfl⟩ := Traced.pure_eq_mk_iff.mp hret
    exact ⟨r, rfl, Or.inr rfl⟩
  · obtain ⟨rfl, rfl⟩ := Traced.pure_eq_mk_iff.mp hrest
    exact ⟨r, rfl, Or.inl rfl⟩

/-- **A byte from the serial line** joins the queue, or the ring is full and
stays as it is. -/
theorem uartStep_spec (h : f.rxring.Valid) (b : UInt8) :
    ∃ r' : RxRing, r'.Valid ∧
      ((r'.items = f.rxring.items ++ [b] ∧
          f.uartStep b = ⟨[.queued b], some { f with rxring := r' }⟩) ∨
        (f.rxring.getFree = 0 ∧ r'.items = f.rxring.items ∧
          f.uartStep b = pure { f with rxring := r' })) := by
  have hfits (n : Nat) (hn : n ≤ f.rxring.getFree) : f.rxring.Fits n :=
    Ring.fits_two_pow (n := 8) rfl h hn
  rw [Firmware.uartStep]
  rcases Nat.eq_zero_or_pos f.rxring.getFree with hfull | hfree
  · have hdrop : f.rxring.insertMult [b] = f.rxring.insertMult [] := by
      rw [Ring.insertMult, Ring.insertMult, hfull]
      rfl
    have hroom : ([] : List UInt8).length ≤ f.rxring.getFree := Nat.zero_le _
    obtain ⟨r', hins, hitems, hring⟩ := Ring.insertMult_of_fits h hroom
      (hfits 0 hroom)
    rw [List.append_nil] at hitems
    exact ⟨r', hring, Or.inr ⟨hfull, hitems, by rw [hdrop, hins]; rfl⟩⟩
  · have hroom : [b].length ≤ f.rxring.getFree := hfree
    obtain ⟨r', hins, hitems, hring⟩ := Ring.insertMult_of_fits h hroom
      (hfits 1 hroom)
    exact ⟨r', hring, Or.inl ⟨hitems, by rw [hins]; rfl⟩⟩

/-- **An interrupt of the converter** does nothing while it is disabled, and
runs the handler otherwise. -/
theorem adcStep_cases {dr : UInt32} (h : f.adcStep dr = ⟨o, some f'⟩) :
    (f.dev.adc.irqEnabled = false ∧ o = [] ∧ f' = f) ∨
    (f.dev.adc.irqEnabled = true ∧ ∃ fin adc,
      adcIRQHandler toSample f.dev.adc dr = ⟨fin, some adc⟩ ∧
      o = .sample (toSample dr) :: (fin.map DeviceOut.finished).map .device ∧
      f' = { f with dev.adc := adc }) := by
  rw [Firmware.adcStep, irqStep] at h
  rcases hen : f.dev.adc.irqEnabled with - | -
  · rw [hen] at h
    simp only [Bool.false_eq_true, if_false] at h
    obtain ⟨rfl, rfl⟩ := Traced.pure_eq_mk_iff.mp h
    exact Or.inl ⟨rfl, rfl, rfl⟩
  · rw [hen] at h
    simp only [if_true] at h
    obtain ⟨o₁, rfl, himage⟩ := Traced.emit_bind_eq_mk_iff.mp h
    obtain ⟨hout, hres⟩ := Traced.mk.inj himage
    rcases hadc : adcIRQHandler toSample f.dev.adc dr with ⟨fin, - | adc⟩
    · rw [hadc] at hres
      cases hres
    · rw [hadc] at hres hout
      obtain rfl := Option.some.inj hres
      obtain rfl := hout
      exact Or.inr ⟨rfl, fin, adc, rfl, rfl, rfl⟩

end Moves

/-! ### What the main loop does with the blocks -/

/-- The calls of `spudp_send`. -/
def handedOf (os : List (DeviceOut Int16)) : List (Handed Int16) :=
  os.filterMap fun
    | .handed h => some h
    | _ => none

@[simp] theorem handedOf_append (os os' : List (DeviceOut Int16)) :
    handedOf (os ++ os') = handedOf os ++ handedOf os' :=
  List.filterMap_append

/-- No block is completed while another one is being sent. -/
def Undisturbed (f : Firmware β) : FirmwareAct → Prop
  | .adc _ => f.dev.main = .sending → f.dev.adc.irqEnabled = true →
      f.dev.adc.nSamples + 1 < blockSize
  | _ => True

instance (f : Firmware β) : DecidablePred (Undisturbed f)
  | .adc _ => inferInstanceAs (Decidable (_ → _ → _))
  | .uart _ => inferInstanceAs (Decidable True)
  | .main _ => inferInstanceAs (Decidable True)

section Main

variable {d d' : Device Int16} {i : RadioIn} {os : List (DeviceOut Int16)}

theorem scanTurn_main {c : Nat} {len : UInt8}
    (h : scanTurn d c len = ⟨os, some d'⟩) :
    os = [] ∧ d'.main ≠ .sending ∧ d'.adc = d.adc := by
  unfold scanTurn at h
  split at h
  · split at h
    · obtain ⟨rfl, rfl⟩ := Traced.pure_eq_mk_iff.mp h
      exact ⟨rfl, nofun, rfl⟩
    · cases congrArg Traced.res h
  · obtain ⟨rfl, rfl⟩ := Traced.pure_eq_mk_iff.mp h
    exact ⟨rfl, nofun, rfl⟩

theorem enterRadioComm_main (h : enterRadioComm d i = ⟨os, some d'⟩) :
    handedOf os = [] ∧ d'.main ≠ .sending ∧ d'.adc = d.adc := by
  obtain ⟨t, -, hrest⟩ := Traced.ofOption_bind_eq_mk_iff.mp h
  split at hrest
  · obtain ⟨_, rfl, hret⟩ := Traced.emit_bind_eq_mk_iff.mp hrest
    obtain ⟨rfl, rfl⟩ := Traced.pure_eq_mk_iff.mp hret
    exact ⟨rfl, nofun, rfl⟩
  · obtain ⟨rfl, rfl⟩ := Traced.pure_eq_mk_iff.mp hrest
    exact ⟨rfl, nofun, rfl⟩

/-- **A step of the main loop** hands on the finished block, forgets it, or
leaves the blocks alone. -/
theorem mainLoopStep_handing (h : mainLoopStep d i = ⟨os, some d'⟩) :
    (d.main = .test ∧ d.adc.nConvFinished ≠ 0 ∧ os = [.handed d.handed] ∧
      d' = { d with main := .sending }) ∨
    (d.main = .sending ∧ os = [] ∧
      d' = { d with adc.nConvFinished := 0, main := .radioComm }) ∨
    (d.main ≠ .sending ∧ handedOf os = [] ∧ d'.main ≠ .sending ∧
      ∃ en, d'.adc = { d.adc with irqEnabled := en }) := by
  rcases hmain : d.main with - | ⟨c, len⟩ | ⟨- | ⟨a, todo⟩, next⟩ | - | - <;>
    simp only [mainLoopStep, hmain] at h
  · obtain ⟨hos, hm, hadc⟩ := enterRadioComm_main h
    exact Or.inr (Or.inr ⟨by simp, hos, hm, _, hadc⟩)
  · obtain ⟨rfl, hm, hadc⟩ := scanTurn_main h
    exact Or.inr (Or.inr ⟨by simp, rfl, hm, _, hadc⟩)
  · obtain ⟨rfl, rfl⟩ := Traced.pure_eq_mk_iff.mp h
    exact Or.inr (Or.inr ⟨by simp, rfl, by simp, _, rfl⟩)
  · obtain ⟨_, rfl, hret⟩ := Traced.emit_bind_eq_mk_iff.mp h
    obtain ⟨rfl, rfl⟩ := Traced.pure_eq_mk_iff.mp hret
    refine Or.inr (Or.inr ⟨by simp, rfl, by simp, ?_⟩)
    rcases a with - | - | - | ⟨- | - | -, s⟩ <;> exact ⟨_, rfl⟩
  · unfold testFinished at h
    split at h
    · next hc =>
      obtain ⟨_, rfl, hret⟩ := Traced.emit_bind_eq_mk_iff.mp h
      obtain ⟨rfl, rfl⟩ := Traced.pure_eq_mk_iff.mp hret
      exact Or.inl ⟨rfl, hc, rfl, rfl⟩
    · obtain ⟨rfl, rfl⟩ := Traced.pure_eq_mk_iff.mp h
      exact Or.inr (Or.inr ⟨by simp, rfl, by simp, _, rfl⟩)
  · obtain ⟨rfl, rfl⟩ := Traced.pure_eq_mk_iff.mp h
    exact Or.inr (Or.inl ⟨rfl, rfl, rfl⟩)

end Main

end Roip
