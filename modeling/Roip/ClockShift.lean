/-
Roip/ClockShift.lean

The connection manager under a shifted clock.

The counter is read in `spudp_init`, `handleControlInput` and
`spudp_control_send`, and only differences of two readings decide anything.
Shifting every reading by the same amount therefore shifts the two stored
times (`Spudp.shift`) and changes nothing else, whether or not the counter
wraps in between.  This is said once for each function and carried over to
runs.

A run starts with `spudp_init`: before it the stored times are no readings.
It sets them unless `udp_bind` fails, which happens only if another control
block is bound to the port.  The machine keeps the bindings, so the first call
always sets the times, and a later one may leave them as they are.
-/
import Roip.Manager

namespace Roip

variable {β : Type}

/-! ### The machine -/

/-- The local end of a control block on `udp_pcbs`. -/
structure Binding where
  localIp : UInt32
  localPort : UInt16
deriving DecidableEq, Repr

/-- `udp_bind(pcb, ipaddr, port) == ERR_OK`, for a new control block. -/
def udpBind (udpPcbs : List Binding) (ipaddr : UInt32) (port : UInt16) :
    Bool :=
  udpPcbs.all fun ipcb => !(ipcb.localPort == port &&
    (ipcb.localIp == 0 || ipaddr == 0 || ipcb.localIp == ipaddr))

/-- The connection manager, and the control blocks that are bound.  Those that
`udp_connect` binds are left out: it uses ports from 0xC000 on. -/
structure Bound (β : Type) where
  spudp : Spudp β
  udpPcbs : List Binding
deriving DecidableEq

/-- A call, with the readings of the counter it makes. -/
inductive ManagerCall
  /-- `spudp_init`; whether `udp_new` succeeds for the two control blocks -/
  | init (localIp : UInt32) (server1 server2 : Option UInt32)
    (new1 new2 : Bool) (now1 now2 : UInt32)
  | input (addr : UInt32) (now : UInt32)
  | controlSend (r : Readings) (e : SendEnv)
  | stringSend (buf : List UInt8) (len : Nat) (e : SendEnv)
  | send (id gid id2 : List UInt8) (samples : List Int16) (len : Nat)
    (e : AudioEnv)

inductive ManagerAct
  | net (op : NetOp)
  /-- the value a call returns -/
  | returned (n : Nat)
deriving DecidableEq, Repr

/-- The bindings after `udp_bind` of `dt.p`. -/
def Bound.bindAudio (s : Bound β) (localIp : UInt32) : List Binding :=
  if udpBind s.udpPcbs localIp 5198 then ⟨localIp, 5198⟩ :: s.udpPcbs
  else s.udpPcbs

/-- The bindings after `udp_bind` of `pctl`, if `spudp_init` gets so far. -/
def Bound.bindControl (s : Bound β) (localIp : UInt32) : List Binding :=
  if udpBind s.udpPcbs localIp 5198 ∧
      udpBind (s.bindAudio localIp) localIp 5199 then
    ⟨localIp, 5199⟩ :: s.bindAudio localIp
  else s.bindAudio localIp

/-- `spudp_init`, `udp_bind` deciding how far it gets. -/
def Bound.init (speex : Speex β) (s : Bound β) (localIp : UInt32)
    (server1 server2 : Option UInt32) (new1 new2 : Bool)
    (now1 now2 : UInt32) : Option (Bound β) :=
  (spudpInit speex s.spudp server1 server2
    ⟨new1, udpBind s.udpPcbs localIp 5198, new2,
      udpBind (s.bindAudio localIp) localIp 5199, now1, now2⟩).map
    fun spudp => ⟨spudp, s.bindControl localIp⟩

/-- When `main` calls `spudp_init`: only the resolver has a control block,
bound to any address and to the first port of `udp_new_port`. -/
def Bound.start (spudp : Spudp β) : Bound β := ⟨spudp, [⟨0, 0xC001⟩]⟩

/-- A call that returns no value. -/
def Bound.void (s : Bound β) (x : Traced NetOp (Spudp β)) :
    Traced ManagerAct (Bound β) :=
  x.image .net fun spudp => { s with spudp }

/-- A call that returns a value. -/
def Bound.returning (s : Bound β) (x : Traced NetOp (Nat × Spudp β)) :
    Traced ManagerAct (Bound β) := do
  let (n, spudp) ← x.image .net id
  Traced.emit (.returned n)
  pure { s with spudp }

def managerStep (speex : Speex β) (s : Bound β) :
    ManagerCall → Traced ManagerAct (Bound β)
  | .init localIp server1 server2 new1 new2 now1 now2 => Traced.ofOption
      (s.init speex localIp server1 server2 new1 new2 now1 now2)
  | .input addr now => s.void (handleControlInput s.spudp addr now)
  | .controlSend r e => s.void (spudpControlSend s.spudp r e)
  | .stringSend buf len e => s.returning (spudpStringSend s.spudp buf len e)
  | .send id gid id2 samples len e =>
    s.returning (spudpSend speex s.spudp id gid id2 samples len e)

/-! ### Shifting the clock -/

variable (d : UInt32)

/-- The readings of a call, shifted. -/
def ManagerCall.shift : ManagerCall → ManagerCall
  | .init localIp server1 server2 new1 new2 now1 now2 =>
    .init localIp server1 server2 new1 new2 (now1 + d) (now2 + d)
  | .input addr now => .input addr (now + d)
  | .controlSend r e =>
    .controlSend ⟨r.now1 + d, r.now2 + d, r.now3 + d⟩ e
  | x => x

/-- The stored times, shifted. -/
def Spudp.shift (s : Spudp β) : Spudp β :=
  { s with
    tmCtlpacketSent := s.tmCtlpacketSent + d
    tmCtlpacketReceived := s.tmCtlpacketReceived + d }

def Bound.shift (s : Bound β) : Bound β :=
  { s with spudp := s.spudp.shift d }

variable {d} {s : Spudp β}

theorem handleControlInput_shift (addr now : UInt32) :
    handleControlInput (s.shift d) addr (now + d) =
      (handleControlInput s addr now).image id (Spudp.shift d) := rfl

theorem controlTransition_shift (now : UInt32) :
    controlTransition (s.shift d) (now + d) =
      (controlTransition s now).shift d := by
  have hsub : now + d - (s.shift d).tmCtlpacketReceived =
      now - s.tmCtlpacketReceived := clk_shift now s.tmCtlpacketReceived d
  have hdt : (s.shift d).dt = s.dt := rfl
  rw [controlTransition, controlTransition, hsub, hdt]
  split
  · split <;> rfl
  · rfl

/-- Nothing that is sent depends on the stored times. -/
theorem spudpStringSend_shift (buf : List UInt8) (len : Nat) (e : SendEnv) :
    spudpStringSend (s.shift d) buf len e =
      (spudpStringSend s buf len e).image id (Prod.map id (Spudp.shift d)) := by
  rw [spudpStringSend, spudpStringSend]
  have hdt : (s.shift d).dt = s.dt := rfl
  have hpctl : (s.shift d).pctl = s.pctl := rfl
  rw [hdt, hpctl]
  by_cases hlen : 0 < len ∧ len < 256
  swap
  · rw [if_neg hlen, if_neg hlen]
    rfl
  rw [if_pos hlen, if_pos hlen]
  rcases s.dt.serverAddr with - | ip
  · rfl
  rcases s.pctl with - | p
  · rfl
  simp only [Traced.ofOption_some, pure_bind]
  by_cases halloc : e.alloc = true ∧ len ≤ buf.length
  swap
  · rw [if_neg halloc, if_neg halloc]
    rfl
  rw [if_pos halloc, if_pos halloc]
  split <;> rfl

theorem spudpControlSend_shift (r : Readings) (e : SendEnv) :
    spudpControlSend (s.shift d) ⟨r.now1 + d, r.now2 + d, r.now3 + d⟩ e =
      (spudpControlSend s r e).image id (Spudp.shift d) := by
  have hsub : r.now1 + d - (s.shift d).tmCtlpacketSent =
      r.now1 - s.tmCtlpacketSent := clk_shift r.now1 s.tmCtlpacketSent d
  rw [spudpControlSend, spudpControlSend, hsub]
  split
  swap
  · rfl
  rw [controlTransition_shift, spudpStringSend_shift]
  refine Traced.image_bind ?_
  rintro ⟨n, t⟩
  dsimp only [Prod.map]
  by_cases hn : n > 0
  · rw [if_pos hn, if_pos (show id n > 0 from hn)]
    rfl
  · rw [if_neg hn, if_neg (show ¬ id n > 0 from hn)]
    rfl

theorem sendAudio_shift (p : UdpPcb) (enc : CArray UInt8 256)
    (count len : Nat) (e : SendEnv) :
    sendAudio (s.shift d) p enc count len e =
      (sendAudio s p enc count len e).image id
        (Prod.map id (Spudp.shift d)) := by
  rw [sendAudio, sendAudio]
  by_cases halloc : e.alloc = true ∧ count ≤ 256
  swap
  · rw [if_neg halloc, if_neg halloc]
    rfl
  rw [if_pos halloc, if_pos halloc]
  split <;> rfl

theorem spudpSend_shift (speex : Speex β) (id₁ gid id₂ : List UInt8)
    (samples : List Int16) (len : Nat) (e : AudioEnv) :
    spudpSend speex (s.shift d) id₁ gid id₂ samples len e =
      (spudpSend speex s id₁ gid id₂ samples len e).image id
        (Prod.map id (Spudp.shift d)) := by
  rw [spudpSend, spudpSend]
  rcases buildHeader e.enc id₁ gid id₂ with - | ⟨allLen, c, enc⟩
  · rfl
  simp only [Traced.ofOption_some, pure_bind]
  have hdt : (s.shift d).dt = s.dt := rfl
  have hbits : (s.shift d).encBits = s.encBits := rfl
  rw [hdt, hbits]
  rcases s.dt.p with - | p
  · rfl
  dsimp only
  rcases encodeLoop speex samples len len 0 s.encBits with - | bits
  · rfl
  simp only [Traced.ofOption_some, pure_bind]
  rcases writeBits speex (speex.insertTerminator bits) c enc e.nbytes with
    - | ⟨nbytes, enc⟩
  · rfl
  simp only [Traced.ofOption_some, pure_bind]
  by_cases hconn : s.dt.isConnected = true
  · rw [if_pos hconn, if_pos hconn]
    rcases s.dt.serverAddr with - | ip
    · rfl
    · exact sendAudio_shift (d := d) (s := { s with
        encBits := speex.reset (speex.insertTerminator bits) }) _ _ _ _ _
  · rw [if_neg hconn, if_neg hconn]
    exact sendAudio_shift (d := d) (s := { s with
      encBits := speex.reset (speex.insertTerminator bits) }) _ _ _ _ _

theorem spudpInit_shift (speex : Speex β) (server1 server2 : Option UInt32)
    (e : InitEnv) :
    spudpInit speex (s.shift d) server1 server2
        { e with now1 := e.now1 + d, now2 := e.now2 + d } =
      (spudpInit speex s server1 server2 e).map (Spudp.shift d) := by
  -- by how far `spudp_init` gets: the times are kept or both are readings
  rcases e with ⟨_ | _, _ | _, _ | _, _ | _, now1, now2⟩ <;> rfl

/-! ### Shifted runs -/

section Runs

variable (speex : Speex β) (s : Bound β)

theorem Bound.void_shift (x : Traced NetOp (Spudp β)) :
    (s.shift d).void (x.image id (Spudp.shift d)) =
      (s.void x).image id (Bound.shift d) := by
  rcases x with ⟨o, - | t⟩
  · refine Traced.ext ?_ rfl
    simp [Bound.void, Traced.image]
  · refine Traced.ext ?_ rfl
    simp [Bound.void, Traced.image]

theorem Bound.returning_shift (x : Traced NetOp (Nat × Spudp β)) :
    (s.shift d).returning (x.image id (Prod.map id (Spudp.shift d))) =
      (s.returning x).image id (Bound.shift d) := by
  rcases x with ⟨o, - | ⟨n, t⟩⟩
  · refine Traced.ext ?_ rfl
    simp [Bound.returning, Traced.image]
  · refine Traced.ext ?_ rfl
    simp [Bound.returning, Traced.image]

theorem Bound.init_shift (localIp : UInt32) (server1 server2 : Option UInt32)
    (new1 new2 : Bool) (now1 now2 : UInt32) :
    (s.shift d).init speex localIp server1 server2 new1 new2 (now1 + d)
        (now2 + d) =
      (s.init speex localIp server1 server2 new1 new2 now1 now2).map
        (Bound.shift d) := by
  have h := spudpInit_shift (d := d) (s := s.spudp) speex server1 server2
    ⟨new1, udpBind s.udpPcbs localIp 5198, new2,
      udpBind (s.bindAudio localIp) localIp 5199, now1, now2⟩
  have hpcbs : (s.shift d).bindAudio localIp = s.bindAudio localIp := rfl
  rw [Bound.init, Bound.init, hpcbs, Option.map_map]
  exact (congrArg (Option.map _) h).trans (Option.map_map _ _ _)

/-- One call: with the stored times and the readings shifted, it does the same
and leaves the same state with the stored times shifted. -/
theorem managerStep_shift (x : ManagerCall) :
    managerStep speex (s.shift d) (x.shift d) =
      (managerStep speex s x).image id (Bound.shift d) := by
  cases x with
  | init localIp server1 server2 new1 new2 now1 now2 =>
    refine Traced.ext rfl ?_
    exact s.init_shift speex localIp server1 server2 new1 new2 now1 now2
  | input addr now =>
    have h := s.void_shift (d := d) (handleControlInput s.spudp addr now)
    rwa [← handleControlInput_shift] at h
  | controlSend r e =>
    have h := s.void_shift (d := d) (spudpControlSend s.spudp r e)
    rwa [← spudpControlSend_shift] at h
  | stringSend buf len e =>
    have h := s.returning_shift (d := d) (spudpStringSend s.spudp buf len e)
    rwa [← spudpStringSend_shift] at h
  | send id₁ gid id₂ samples len e =>
    have h := s.returning_shift (d := d)
      (spudpSend speex s.spudp id₁ gid id₂ samples len e)
    rwa [← spudpSend_shift] at h

/-- The first `spudp_init` takes both times. -/
theorem Bound.init_start (spudp : Spudp β) (localIp : UInt32)
    (server1 server2 : Option UInt32) (new1 new2 : Bool)
    (now1 now2 : UInt32) :
    (Bound.start spudp).init speex localIp server1 server2 new1 new2
        (now1 + d) (now2 + d) =
      ((Bound.start spudp).init speex localIp server1 server2 new1 new2 now1
        now2).map (Bound.shift d) := by
  -- the resolver's port is neither 5198 nor 5199
  have hbind1 : udpBind (Bound.start spudp).udpPcbs localIp 5198 = true := rfl
  have hbind2 : udpBind ((Bound.start spudp).bindAudio localIp) localIp 5199 =
      true := rfl
  rw [Bound.init, Bound.init, hbind1, hbind2]
  rcases new1 with _ | _
  · rfl
  rcases new2 with _ | _ <;> rfl

end Runs

/-- **The clock may be shifted.**  In every run that starts with `spudp_init`,
shifting every reading of the counter by `d` changes neither what is asked of
the UDP layer nor what the calls return, nor `dt.st` after the last call, for
any number of calls. -/
theorem clock_shift (speex : Speex β) (d : UInt32) (spudp : Spudp β)
    (localIp : UInt32) (server1 server2 : Option UInt32) (new1 new2 : Bool)
    (now1 now2 : UInt32) (later : List ManagerCall) :
    let calls :=
      .init localIp server1 server2 new1 new2 now1 now2 :: later
    let r := run (managerStep speex) (.start spudp) calls
    let r' := run (managerStep speex) (.start spudp)
      (calls.map (ManagerCall.shift d))
    r'.out = r.out ∧
      r'.res.map (fun s => s.spudp.dt.st) =
        r.res.map fun s => s.spudp.dt.st := by
  intro calls r r'
  have hfirst : managerStep speex (.start spudp)
      (.init localIp server1 server2 new1 new2 (now1 + d) (now2 + d)) =
      (managerStep speex (.start spudp)
        (.init localIp server1 server2 new1 new2 now1 now2)).image id
        (Bound.shift d) :=
    Traced.ext rfl (Bound.init_start speex spudp localIp server1 server2 new1
      new2 now1 now2)
  have himage : r' = r.image id (Bound.shift d) := by
    show run _ _ (ManagerCall.shift d _ :: later.map _) = _
    rw [run_cons]
    show managerStep speex _ (.init _ _ _ _ _ (now1 + d) (now2 + d)) >>= _ = _
    rw [hfirst]
    refine Traced.image_bind fun s => ?_
    rw [run_map]
    exact run_image (managerStep_shift speex) s later
  rw [himage]
  refine ⟨List.map_id _, ?_⟩
  show (r.res.map _).map _ = _
  rw [Option.map_map]
  rfl

end Roip
