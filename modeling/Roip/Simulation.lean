/-
Roip/Simulation.lean

The whole device is the device of `Roip.Device` and the connection manager of
`Roip.Manager`, side by side.

A run of the whole device is a run of each of the two, with the same outputs
and requests in the same order, and the texts and blocks the one hands on are
the ones the other gets (`firmware_simulates`).  What has been shown of runs
of the two therefore holds of the whole device.

The manager takes a block in one step.  The whole device encodes it piece by
piece, and while it does so the manager has not got the block yet.  That both
read the same samples is due to the double buffer, and holds as long as no
block is completed while another one is being sent.
-/
import Roip.AudioPath

namespace Roip

variable {β : Type}

/-! ### The calls between the two -/

/-- A call from the main loop to `speex_udp.c`. -/
inductive UdpCall
  | text (buf : List UInt8)
  | block (id gid id2 : List UInt8) (samples : List Int16)
deriving DecidableEq

/-- The call of a block. -/
def Handed.udpCall (h : Handed Int16) : UdpCall :=
  .block h.id.cells h.gid.cells h.id2.cells h.samples.cells

/-- The calls the device makes. -/
def callsMade (os : List (DeviceOut Int16)) : List UdpCall :=
  os.filterMap fun
    | .radio (.stringSend buf) => some (.text buf)
    | .handed h => some h.udpCall
    | _ => none

/-- The calls the manager gets. -/
def callsGot (ops : List SpudpOp) : List UdpCall :=
  ops.filterMap fun
    | .stringSend buf _ _ => some (.text buf)
    | .send id gid id2 samples _ _ => some (.block id gid id2 samples)
    | _ => none

@[simp] theorem callsMade_append (os os' : List (DeviceOut Int16)) :
    callsMade (os ++ os') = callsMade os ++ callsMade os' :=
  List.filterMap_append

@[simp] theorem callsGot_append (ops ops' : List SpudpOp) :
    callsGot (ops ++ ops') = callsGot ops ++ callsGot ops' :=
  List.filterMap_append

/-- The manager has come to `s`, and has got the calls `calls`. -/
def ManagerAt (speex : Speex β) (s₀ : Spudp β) (ns : List NetOp) (s : Spudp β)
    (calls : List UdpCall) : Prop :=
  ∃ ops, run (spudpStep speex) s₀ ops = ⟨ns, some s⟩ ∧ callsGot ops = calls

/-- A call of `spudp_send` stands in its encoding loop, as the manager would
in the middle of its step. -/
structure Encoding.Inside (speex : Speex β) (a : Adc Int16) (bits : β)
    (h : Handed Int16) (c : Encoding β) : Prop where
  header : buildHeader c.env.enc h.id.cells h.gid.cells h.id2.cells =
    some (c.allLen, c.cursor, c.enc)
  ptr : c.ptr = a.blockResult
  samples : (a.block c.ptr).cells = h.samples.cells
  aligned : blockLength ∣ c.i
  loop : ∃ fuel, blockSize ≤ c.i + fuel ∧
    encodeLoop speex h.samples.cells blockSize blockSize 0 bits =
      encodeLoop speex h.samples.cells blockSize fuel c.i c.bits

/-- The two parts, and how they stand to each other. -/
structure SimInv (speex : Speex β) (s₀ : Spudp β) (o : List FirmwareOut)
    (f : Firmware β) : Prop where
  blocks_ne : f.dev.adc.blockFill ≠ f.dev.adc.blockResult
  nSamples : f.dev.adc.nSamples < blockSize
  device : ∃ acts, run (deviceStep toSample) (deviceInit 0 false) acts =
    ⟨deviceIn o, some f.dev⟩
  idle : f.encoding = none →
    ManagerAt speex s₀ (netIn o) f.spudp (callsMade (deviceIn o))
  busy : ∀ c, f.encoding = some c → f.dev.main = .sending ∧
    f.spudp.dt.p ≠ none ∧ ∃ h calls,
      callsMade (deviceIn o) = calls ++ [h.udpCall] ∧
      ManagerAt speex s₀ (netIn o) f.spudp calls ∧
      c.Inside speex f.dev.adc f.spudp.encBits h

section Step

variable {speex : Speex β} {s₀ s s' : Spudp β} {ns ns' : List NetOp}
  {calls : List UdpCall} {f f' : Firmware β} {i : MainIn}
  {o o' : List FirmwareOut}

/-- The manager takes a call. -/
theorem ManagerAt.step (h : ManagerAt speex s₀ ns s calls) {op : SpudpOp}
    (hstep : spudpStep speex s op = ⟨ns', some s'⟩) :
    ManagerAt speex s₀ (ns ++ ns') s' (calls ++ callsGot [op]) := by
  obtain ⟨ops, hrun, rfl⟩ := h
  exact ⟨ops ++ [op],
    run_concat_eq_mk_iff.mpr ⟨s, ns, ns', hrun, hstep, rfl⟩,
    callsGot_append ops [op]⟩

/-- A piece. -/
theorem Encoding.Inside.piece {h : Handed Int16} {c : Encoding β} {bits : β}
    (hin : c.Inside speex f.dev.adc bits h) (hi : c.i < blockSize) :
    ∃ c', f.encodePiece speex c = { f with encoding := some c' } ∧
      c'.Inside speex f.dev.adc bits h := by
  obtain ⟨n, hn⟩ := hin.aligned
  obtain ⟨fuel, hfuel, hloop⟩ := hin.loop
  have hroom : c.i + blockLength ≤ blockSize := by
    have hlt : blockLength * n < blockLength * 4 := hn ▸ hi
    have := Nat.lt_of_mul_lt_mul_left hlt
    calc c.i + blockLength = blockLength * (n + 1) := by
          rw [hn, Nat.mul_succ]
      _ ≤ blockLength * 4 := Nat.mul_le_mul_left _ this
  refine ⟨_, rfl, hin.header, hin.ptr, hin.samples, ?_, ?_⟩
  · exact Nat.dvd_add hin.aligned (Nat.dvd_refl _)
  · obtain ⟨fuel, rfl⟩ : ∃ k, fuel = k + 1 := ⟨fuel - 1, by omega⟩
    refine ⟨fuel, ?_, ?_⟩
    · show blockSize ≤ c.i + blockLength + fuel
      have : 1 ≤ blockLength := by decide
      omega
    · rw [hloop, encodeLoop, if_pos hi, if_pos (by
        rw [h.samples.size]
        exact hroom)]
      rw [← hin.samples]

/-- **The rest of `spudp_send`** is what the manager does in its step. -/
theorem Encoding.Inside.finish {h : Handed Int16} {c : Encoding β}
    (hin : c.Inside speex f.dev.adc f.spudp.encBits h) (hi : blockSize ≤ c.i)
    (hp : f.spudp.dt.p ≠ none) (hend : f.endSend speex c = ⟨o, some f'⟩) :
    ∃ ns s, o = ns.map .net ∧ f' = { f with spudp := s, encoding := none } ∧
      spudpStep speex f.spudp (.send h.id.cells h.gid.cells h.id2.cells
        h.samples.cells blockSize c.env) = ⟨ns, some s⟩ := by
  obtain ⟨fuel, hfuel, hloop⟩ := hin.loop
  have hbits : encodeLoop speex h.samples.cells blockSize blockSize 0
      f.spudp.encBits = some c.bits := by
    rw [hloop]
    rcases fuel with - | fuel
    · rfl
    · rw [encodeLoop, if_neg (Nat.not_lt.mpr hi)]
  obtain ⟨q, hq⟩ := Option.ne_none_iff_exists'.mp hp
  let call : AudioCall β := ⟨f.spudp, h.id.cells, h.gid.cells, h.id2.cells,
    h.samples.cells, blockSize, c.env⟩
  obtain ⟨nbytes, enc, s, hwrite, rfl, hsend⟩ := endSend_cases hend
  have hframe : call.frame speex = some
      (speex.reset (speex.insertTerminator c.bits), enc,
        (nbytes + c.allLen.toUInt32).toNat) := by
    simp only [AudioCall.frame, call, hin.header, hbits, hwrite,
      Option.bind_eq_bind, Option.bind_some]
  have heq : spudpStep speex f.spudp (.send h.id.cells h.gid.cells
      h.id2.cells h.samples.cells blockSize c.env) =
        Prod.snd <$> call.send speex := rfl
  rw [heq, send_framed hframe hq]
  rcases hsend with ⟨hpcb, rfl, rfl⟩ | ⟨r, ns, k, hpcb, rfl, hsend⟩
  · exact ⟨[], _, rfl, rfl, by rw [show call.s.audioPcb = none from hpcb]; rfl⟩
  · refine ⟨ns, s, rfl, rfl, ?_⟩
    rw [show call.s.audioPcb = some r from hpcb]
    exact Traced.map_eq_mk_iff.mpr ⟨_, hsend, rfl⟩

theorem SimInv.encoding_eq_none (h : SimInv speex s₀ o f)
    (hmain : f.dev.main ≠ .sending) : f.encoding = none := by
  rcases hc : f.encoding with - | c
  · rfl
  · exact absurd (h.busy c hc).1 hmain

/-- The device takes a step. -/
theorem SimInv.device_step (h : SimInv speex s₀ o f) {a : DeviceAct}
    {os : List (DeviceOut Int16)} {d : Device Int16}
    (hstep : deviceStep toSample f.dev a = ⟨os, some d⟩) :
    ∃ acts, run (deviceStep toSample) (deviceInit 0 false) acts =
      ⟨deviceIn o ++ os, some d⟩ := by
  obtain ⟨acts, hrun⟩ := h.device
  exact ⟨acts ++ [a],
    run_concat_eq_mk_iff.mpr ⟨f.dev, _, _, hrun, hstep, rfl⟩⟩

/-- A call that is neither a text nor a block. -/
theorem SimInv.call (h : SimInv speex s₀ o f) (hidle : f.encoding = none)
    {op : SpudpOp} (hstep : spudpStep speex f.spudp op = ⟨ns, some s⟩)
    (hop : callsGot [op] = []) :
    SimInv speex s₀ (o ++ ns.map .net)
      { f with spudp := s, served := true } := by
  refine ⟨h.blocks_ne, h.nSamples, ?_, fun _ => ?_, ?_⟩
  · simpa using h.device
  · have hcall := (h.idle hidle).step hstep
    rw [hop, List.append_nil] at hcall
    simpa using hcall
  · intro c hc
    rw [hidle] at hc
    cases hc

/-- A step of the device, and the call it makes, if any. -/
theorem SimInv.serve (h : SimInv speex s₀ o f) {i : RadioIn}
    (ns : List NetOp) (rxring : RxRing) {os : List (DeviceOut Int16)} {dev : Device Int16}
    (hidle : f.encoding = none)
    (hstep : mainLoopStep f.dev i = ⟨os, some dev⟩)
    (hcall : ManagerAt speex s₀ (netIn o ++ ns) s
      (callsMade (deviceIn o) ++ callsMade os)) :
    SimInv speex s₀ (o ++ (os.map .device ++ ns.map .net))
      { f with dev, spudp := s, rxring, served := false } := by
  have hadc : dev.adc.blockFill = f.dev.adc.blockFill ∧
      dev.adc.blockResult = f.dev.adc.blockResult ∧
      dev.adc.nSamples = f.dev.adc.nSamples := by
    rcases mainLoopStep_handing hstep with ⟨-, -, -, rfl⟩ | ⟨-, -, rfl⟩ |
      ⟨-, -, -, en, hadc⟩
    · exact ⟨rfl, rfl, rfl⟩
    · exact ⟨rfl, rfl, rfl⟩
    · rw [hadc]
      exact ⟨rfl, rfl, rfl⟩
  obtain ⟨hfill, hresult, hsamples⟩ := hadc
  refine ⟨?_, hsamples ▸ h.nSamples, ?_, fun _ => ?_, ?_⟩
  · show dev.adc.blockFill ≠ dev.adc.blockResult
    rw [hfill, hresult]
    exact h.blocks_ne
  · simpa using h.device_step (a := .main i) hstep
  · simpa using hcall
  · intro c hc
    rw [hidle] at hc
    cases hc

theorem SimInv.read (h : SimInv speex s₀ o f) {chunk : List UInt8}
    {rxring : RxRing} (hread : Reads f chunk rxring) :
    f.encoding = none := by
  cases hread with
  | enter hmain => exact h.encoding_eq_none (by rw [hmain]; nofun)
  | inside _ hdone =>
    by_cases hmain : f.dev.main = .sending
    · exact hdone hmain
    · exact h.encoding_eq_none hmain

/-- A step of the main loop. -/
theorem SimInv.move (h : SimInv speex s₀ o f) (hm : Move speex f i o' f') :
    SimInv speex s₀ (o ++ o') f' := by
  cases hm with
  | quiet hmain =>
    rw [List.append_nil]
    exact ⟨h.blocks_ne, h.nSamples, h.device, h.idle, h.busy⟩
  | input hmain hs =>
    exact h.call (h.encoding_eq_none (by simp [hmain])) hs rfl
  | control hmain hs =>
    exact h.call (h.encoding_eq_none (by simp [hmain])) hs rfl
  | @device _ rxring os _ hread hstep hos =>
    have hidle := h.read hread
    have hnone : callsMade os = [] := by
      rcases hos with rfl | ⟨a, rfl, ha⟩
      · rfl
      · cases a with
        | stringSend buf => cases ha
        | adcStart | adcStop | update => rfl
    have hserve := h.serve [] (s := f.spudp) rxring hidle hstep (by
      rw [hnone, List.append_nil, List.append_nil]
      exact h.idle hidle)
    rwa [List.map_nil, List.append_nil] at hserve
  | text hread hstep hs =>
    have hidle := h.read hread
    exact h.serve _ _ hidle hstep ((h.idle hidle).step hs)
  | @off b _ _ hstep hheader hp =>
    obtain ⟨hmain, -, -⟩ := mainLoopStep_handed (b := b) (by
      rw [hstep]
      exact List.mem_singleton.mpr rfl)
    have hidle := h.encoding_eq_none (by simp [hmain])
    -- the manager gets the block too, and does nothing
    have hsend : spudpStep speex f.spudp (.send b.id.cells b.gid.cells
        b.id2.cells b.samples.cells blockSize i.env) =
          ⟨[], some f.spudp⟩ := by
      let call : AudioCall β := ⟨f.spudp, b.id.cells, b.gid.cells,
        b.id2.cells, b.samples.cells, blockSize, i.env⟩
      have hoff : call.send speex = pure (0, f.spudp) := send_off hheader hp
      exact congrArg (Prod.snd <$> ·) hoff
    exact h.serve [] _ hidle hstep ((h.idle hidle).step hsend)
  | @begin b dev allLen cursor enc p hstep hheader hp =>
    rcases mainLoopStep_handing hstep with ⟨htest, hfin, hb, rfl⟩ |
      ⟨-, hnil, -⟩ | ⟨-, hnil, -⟩
    swap
    · cases hnil
    swap
    · cases hnil
    obtain rfl : b = f.dev.handed := by simpa using hb
    have hidle := h.encoding_eq_none (by simp [htest])
    refine ⟨h.blocks_ne, h.nSamples, ?_, by rintro ⟨⟩, ?_⟩
    · simpa [deviceIn] using h.device_step (a := .main ⟨[], i.len⟩) hstep
    · rintro c ⟨⟩
      refine ⟨rfl, by simp [hp], f.dev.handed,
        callsMade (deviceIn o), ?_, ?_, ?_⟩
      · rw [deviceIn_append, callsMade_append]
        rfl
      · simpa [netIn] using h.idle hidle
      · exact ⟨hheader, rfl, rfl, Nat.dvd_zero _, blockSize, by simp, rfl⟩
  | piece hmain hc hi =>
    obtain ⟨-, hp, b, calls, hcalls, hat, hin⟩ := h.busy _ hc
    obtain ⟨c', heq, hin'⟩ := hin.piece hi
    rw [heq, List.append_nil]
    refine ⟨h.blocks_ne, h.nSamples, h.device, by rintro ⟨⟩, ?_⟩
    rintro _ ⟨⟩
    exact ⟨hmain, hp, b, calls, hcalls, hat, hin'⟩
  | finish hmain hc hi hend =>
    obtain ⟨-, hp, b, calls, hcalls, hat, hin⟩ := h.busy _ hc
    obtain ⟨ns, s, rfl, rfl, hstep⟩ := hin.finish hi hp hend
    refine ⟨h.blocks_ne, h.nSamples, ?_, fun _ => ?_, by rintro _ ⟨⟩⟩
    · simpa using h.device
    · rw [netIn_append, netIn_map_net, deviceIn_append, deviceIn_map_net,
        List.append_nil, hcalls]
      exact hat.step hstep

/-- An interrupt of the converter. -/
theorem SimInv.adc (h : SimInv speex s₀ o f) {dr : UInt32}
    (hun : Undisturbed f (.adc dr)) (hstep : f.adcStep dr = ⟨o', some f'⟩) :
    SimInv speex s₀ (o ++ o') f' := by
  rcases adcStep_cases hstep with ⟨-, rfl, rfl⟩ |
    ⟨hen, fin, adc, hirq, rfl, rfl⟩
  · rwa [List.append_nil]
  have hdevice : deviceIn (o ++ .sample (toSample dr) ::
      (fin.map DeviceOut.finished).map .device) =
        deviceIn o ++ fin.map .finished := by
    rw [deviceIn_append]
    exact congrArg _ (deviceIn_map_device _)
  have hnet : netIn (o ++ .sample (toSample dr) ::
      (fin.map DeviceOut.finished).map .device) = netIn o := by
    rw [netIn_append]
    exact (congrArg _ (netIn_map_device _)).trans (List.append_nil _)
  have hcalls : callsMade (deviceIn (o ++ .sample (toSample dr) ::
      (fin.map DeviceOut.finished).map .device)) = callsMade (deviceIn o) := by
    rw [hdevice, callsMade_append]
    refine (congrArg _ ?_).trans (List.append_nil _)
    simp [callsMade]
  have hirqStep : deviceStep toSample f.dev (.irq dr) =
      ⟨fin.map .finished, some { f.dev with adc }⟩ := by
    rw [deviceStep, irqStep, if_pos hen, hirq]
    rfl
  rcases Nat.lt_or_eq_of_le h.nSamples with hmore | hlast
  · rw [adcIRQHandler_more hmore] at hirq
    obtain ⟨rfl, rfl⟩ := Traced.pure_eq_mk_iff.mp hirq
    refine ⟨by simpa [afterMore] using h.blocks_ne, hmore, ?_, ?_, ?_⟩
    · rw [hdevice]
      exact h.device_step hirqStep
    · rw [hnet, hcalls]
      exact h.idle
    · rw [hnet, hcalls]
      intro c hc
      obtain ⟨hmain, hp, b, calls, hmade, hat, hin⟩ := h.busy c hc
      refine ⟨hmain, hp, b, calls, hmade, hat,
        { hin with ptr := ?_, samples := ?_ }⟩
      · simpa [afterMore] using hin.ptr
      · have hother := block_afterMore_result (v := toSample dr) h.blocks_ne
        rw [← hin.samples, hin.ptr]
        simpa [afterMore] using congrArg CArray.cells hother
  · rw [adcIRQHandler_last hlast] at hirq
    obtain ⟨-, hres⟩ := Traced.mk.inj hirq
    obtain rfl := Option.some.inj hres
    refine ⟨fun e => h.blocks_ne e.symm, blockSize_pos, ?_, ?_, ?_⟩
    · rw [hdevice]
      exact h.device_step hirqStep
    · rw [hnet, hcalls]
      exact h.idle
    · intro c hc
      have := hun (h.busy c hc).1 hen
      omega

/-- A step that disturbs no call of `spudp_send`. -/
theorem SimInv.step (h : SimInv speex s₀ o f) {a : FirmwareAct}
    (hun : Undisturbed f a)
    (hstep : firmwareStep speex f a = ⟨o', some f'⟩) :
    SimInv speex s₀ (o ++ o') f' := by
  cases a with
  | adc dr => exact h.adc hun hstep
  | uart b =>
    obtain ⟨r, rfl, hout⟩ := uartStep_cases hstep
    have hsame : deviceIn o' = [] ∧ netIn o' = [] := by
      rcases hout with rfl | rfl <;> exact ⟨rfl, rfl⟩
    obtain ⟨h₁, h₂⟩ := hsame
    refine ⟨h.blocks_ne, h.nSamples, ?_, ?_, ?_⟩ <;>
      simp only [deviceIn_append, netIn_append, h₁, h₂, List.append_nil]
    · exact h.device
    · exact h.idle
    · exact h.busy
  | main i => exact h.move (mainStep_move hstep)

theorem simInv_init (s₀ : Spudp β) (rxbuff : CArray UInt8 rxSize) (k : Nat) :
    SimInv speex s₀ [] (firmwareInit rxbuff k s₀) where
  blocks_ne := by simp [firmwareInit, deviceInit, adcInit]
  nSamples := blockSize_pos
  device := ⟨[], rfl⟩
  idle _ := ⟨[], rfl, rfl⟩
  busy := nofun

end Step

/-- **Simulation.**  A run of the whole device in which no block is completed
while another one is being sent is a run of the device and a run of the
connection manager, with the same outputs and the same requests.  The manager
has got the calls the device has made, in the same order, except that a block
that is being encoded is still to come. -/
theorem firmware_simulates {speex : Speex β} {s₀ : Spudp β}
    {rxbuff : CArray UInt8 rxSize} {k : Nat} {acts : List FirmwareAct}
    (hun : ∀ o f a, Feeds (firmwareStep speex) (firmwareInit rxbuff k s₀) acts
      o f a → Undisturbed f a)
    {o : List FirmwareOut} {f : Firmware β}
    (h : Visits (firmwareStep speex) (firmwareInit rxbuff k s₀) acts o f) :
    ∃ dacts ops,
      run (deviceStep toSample) (deviceInit 0 false) dacts =
        ⟨deviceIn o, some f.dev⟩ ∧
      run (spudpStep speex) s₀ ops = ⟨netIn o, some f.spudp⟩ ∧
      (callsGot ops = callsMade (deviceIn o) ∨
        f.dev.main = .sending ∧ ∃ b : Handed Int16,
          callsGot ops ++ [b.udpCall] = callsMade (deviceIn o)) := by
  have hinv : SimInv speex s₀ o f := visits_inv (simInv_init s₀ rxbuff k)
    (fun o f a _ _ hf ht hstep => ht.step (hun o f a hf) hstep) h
  obtain ⟨dacts, hdev⟩ := hinv.device
  rcases hc : f.encoding with - | c
  · obtain ⟨ops, hrun, hcalls⟩ := hinv.idle hc
    exact ⟨dacts, ops, hdev, hrun, Or.inl hcalls⟩
  · obtain ⟨hmain, -, b, -, hmade, ⟨ops, hrun, rfl⟩, -⟩ := hinv.busy c hc
    exact ⟨dacts, ops, hdev, hrun, Or.inr ⟨hmain, b, hmade.symm⟩⟩

theorem firmware_simulates_talk :
    let r := run (firmwareStep countingSpeex)
      (firmwareInit (CArray.fill rxSize 0) 20 spudpStart) talk
    ∃ f dacts ops, r.res = some f ∧
      run (deviceStep toSample) (deviceInit 0 false) dacts =
        ⟨deviceIn r.out, some f.dev⟩ ∧
      run (spudpStep countingSpeex) spudpStart ops =
        ⟨netIn r.out, some f.spudp⟩ := by
  intro r
  have hrun : r.res.isSome = true := by decide +kernel
  obtain ⟨f, hf⟩ := Option.isSome_iff_exists.mp hrun
  have hcheck : checkRun (firmwareStep countingSpeex)
      (fun f a => decide (Undisturbed f a))
      (firmwareInit (CArray.fill rxSize 0) 20 spudpStart) talk = true := by
    decide +kernel
  have hun (o f a) (hfeed : Feeds (firmwareStep countingSpeex)
      (firmwareInit (CArray.fill rxSize 0) 20 spudpStart) talk o f a) :
      Undisturbed f a := by
    have hok := checkRun_feeds hcheck hfeed
    exact of_decide_eq_true hok
  obtain ⟨dacts, ops, hdev, hops, -⟩ := firmware_simulates hun
    (Visits.end (Traced.eq_mk_of_res hf))
  exact ⟨f, dacts, ops, hf, hdev, hops⟩

end Roip
