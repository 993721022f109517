/-
Roip/Safety.lean

The whole device does nothing undefined.

Undefined are a read or write outside an array, a null pointer that is
followed, a violated assertion, and a `pbuf_alloc` that fails.  A run avoids
all of them, whatever the servers, the clock and the interrupts do, if the
steps are `Benign`: memory for packets is available, whenever `radio_comm` is
entered what it has collected and what it reads now come to at most 255 bytes,
in the syntax of the radio if they end in a newline, and no block is completed
while another one is being sent (`firmware_safe`).

Newlines that are near enough do not do: the text is taken up only when the
last byte read is one.
-/
import Roip.AudioPath
import Roip.Chunking

namespace Roip

variable {β : Type}

/-! ### The conditions -/

/-- In every line of the text, the events find their fields. -/
def TextOk (text : List UInt8) : Prop :=
  ∀ k < text.length, LineOk ((text.drop k).takeWhile (· ≠ 10))

instance : DecidablePred TextOk := fun text =>
  inferInstanceAs (Decidable (∀ k < text.length, _))

/-- What `radio_comm` has collected when it is entered now. -/
def Firmware.arrived (f : Firmware β) : List UInt8 :=
  f.dev.radio.pending ++ (f.rxring.drain (256 - f.dev.radio.nbytes)).1

/-- What a step relies on: memory for a packet; a text of at most 255 bytes,
whose events find their fields, when `radio_comm` is entered; and an interrupt
that does not complete a block while another one is being sent. -/
def Benign (f : Firmware β) : FirmwareAct → Prop
  | .adc dr => Undisturbed f (.adc dr)
  | .uart _ => True
  | .main i => i.env.alloc = true ∧
    (f.dev.main = .radioComm → f.served = true → f.arrived.length ≤ 255 ∧
      (f.arrived.getLast? = some 10 → TextOk f.arrived))

instance (f : Firmware β) : DecidablePred (Benign f)
  | .adc dr => inferInstanceAs (Decidable (Undisturbed f (.adc dr)))
  | .uart _ => inferInstanceAs (Decidable True)
  | .main _ => inferInstanceAs (Decidable (_ ∧ (_ → _ → _ ∧ (_ → _))))

/-! ### The scanner -/

/-- The lines of a text whose events find their fields. -/
theorem TextOk.lines {text : List UInt8} (h : TextOk text)
    (hlast : text.getLast? = some 10) :
    ∃ ls, text = unlines 10 ls ∧ ∀ l ∈ ls, LineOk l := by
  obtain ⟨ls, rfl, hls⟩ := exists_lines_of_getLast? hlast
  refine ⟨ls, rfl, fun l hl => ?_⟩
  obtain ⟨before, behind, rfl⟩ := List.append_of_mem hl
  rw [unlines_append, unlines_cons] at h
  have hline := h (unlines 10 before).length (by
    simp only [List.length_append, List.length_cons]
    omega)
  rwa [List.drop_left, takeWhile_ne_of_split rfl (hls l hl)] at hline

/-- The scan of a text whose events find their fields returns. -/
theorem scanFrom_textOk {buf : List UInt8} {nbytes : Nat}
    (hlast : (buf.take nbytes).getLast? = some 10) (hn : nbytes < 2 ^ 32)
    (hlen : nbytes ≤ buf.length) (hok : TextOk (buf.take nbytes))
    (len : UInt8) (s : Call) :
    ∃ t, (scanFrom buf nbytes 0 len s).res = some t := by
  obtain ⟨ls, htext, hls⟩ := hok.lines hlast
  have hbuf : buf.drop 0 = unlines 10 ls ++ buf.drop nbytes := by
    rw [List.drop_zero, ← htext, List.take_append_drop]
  have hsize : 0 + (unlines 10 ls).length = nbytes := by
    rw [Nat.zero_add, ← htext, List.length_take, Nat.min_eq_left hlen]
  rw [scanFrom_lines hbuf hsize hn hls]
  exact ⟨_, rfl⟩

/-- The rest of the loop over the text returns. -/
def Device.Scannable (d : Device Int16) : Prop :=
  match d.main with
  | .scanning c len => ∃ t, (scanFrom d.radio.buf.cells d.radio.nbytes c len
      d.radio.call).res = some t
  | .acting _ (c, len, call) => ∃ t, (scanFrom d.radio.buf.cells
      d.radio.nbytes c len call).res = some t
  | _ => True

section Device

variable {d d' : Device Int16} {i : RadioIn} {os : List (DeviceOut Int16)}

/-- What `radio_comm` needs when it is entered. -/
def Device.Enters (d : Device Int16) (chunk : List UInt8) : Prop :=
  d.main = .radioComm → (d.radio.pending ++ chunk).length ≤ 255 ∧
    ((d.radio.pending ++ chunk).getLast? = some 10 →
      TextOk (d.radio.pending ++ chunk))

/-- A turn of the loop returns if the rest of the loop does. -/
theorem scanBody_returns {buf : List UInt8} {nbytes c : Nat} {len : UInt8}
    {s : Call} (hc : c < nbytes)
    (h : ∃ t, (scanFrom buf nbytes c len s).res = some t) :
    ∃ o c' len' s', scanBody buf nbytes c len s =
        ⟨o, some (c', len', s')⟩ ∧
      ∃ t, (scanFrom buf nbytes c' len' s').res = some t := by
  obtain ⟨t, ht⟩ := h
  rw [scanFrom_step hc, Traced.bind_res, Option.bind_eq_some_iff] at ht
  obtain ⟨⟨c', len', s'⟩, hbody, hrest⟩ := ht
  exact ⟨_, c', len', s', Traced.eq_mk_of_res hbody, t, hrest⟩

/-- **A step of the main loop returns.** -/
theorem mainLoopStep_returns (hs : d.Scannable) (hn : d.radio.nbytes ≤ 256)
    (henter : d.Enters i.chunk) :
    ∃ os d', mainLoopStep d i = ⟨os, some d'⟩ ∧ d'.Scannable := by
  rcases hmain : d.main with - | ⟨c, len⟩ | ⟨- | ⟨a, todo⟩, next⟩ | - | - <;>
    simp only [mainLoopStep, hmain]
  · obtain ⟨h255, htext⟩ := henter hmain
    rw [List.length_append, Radio.pending_length hn] at h255
    have hsize : d.radio.nbytes + i.chunk.length ≤ 256 := by omega
    obtain ⟨buf, hacc, hbuf⟩ := accumulate_eq hsize
    rw [enterRadioComm, hacc, Traced.ofOption_some, pure_bind]
    split
    · next hc =>
      refine ⟨_, _, rfl, ?_⟩
      rw [← hbuf] at htext
      have hlast := (complete_iff hsize).mp hc
      exact scanFrom_textOk hlast (Nat.lt_of_le_of_lt hsize (by decide))
        (hsize.trans_eq buf.size.symm) (htext hlast) i.len
        d.radio.call
    · exact ⟨_, _, rfl, trivial⟩
  · rw [scanTurn]
    split
    · next hc =>
      rw [Device.Scannable, hmain] at hs
      obtain ⟨o, c', len', call, hbody, hrest⟩ := scanBody_returns hc hs
      rw [hbody]
      exact ⟨_, _, rfl, hrest⟩
    · exact ⟨_, _, rfl, trivial⟩
  · rw [Device.Scannable, hmain] at hs
    exact ⟨_, _, rfl, hs⟩
  · rw [Device.Scannable, hmain] at hs
    obtain ⟨hnbytes, hbuf⟩ := d.perform_text a
    refine ⟨_, _, rfl, ?_⟩
    rw [Device.Scannable, hnbytes, hbuf]
    exact hs
  · rw [testFinished]
    split <;> exact ⟨_, _, rfl, trivial⟩
  · exact ⟨_, _, rfl, trivial⟩

end Device

/-! ### The calls of `speex_udp.c` -/

section Calls

variable {speex : Speex β} {s s' : Spudp β} {e : SendEnv} {ns : List NetOp}

/-- A send on the control channel returns. -/
theorem spudpStringSend_returns {buf : List UInt8} {len : Nat}
    (hp : s.pctl ≠ none) (halloc : e.alloc = true) (hpos : 0 < len)
    (hlen : len < 256) (hbuf : len ≤ buf.length) :
    ∃ ns n s', spudpStringSend s buf len e = ⟨ns, some (n, s')⟩ ∧
      s'.pctl ≠ none := by
  rw [spudpStringSend, if_pos ⟨hpos, hlen⟩]
  rcases s.dt.serverAddr with - | ip
  · exact ⟨_, _, _, rfl, hp⟩
  · obtain ⟨p, hpctl⟩ := Option.ne_none_iff_exists'.mp hp
    simp only [hpctl, Traced.ofOption_some, pure_bind]
    rw [if_pos ⟨halloc, hbuf⟩]
    split <;> exact ⟨_, _, _, rfl, Option.some_ne_none _⟩

theorem input_returns (hp : s.pctl ≠ none) (addr : UInt32) (t : Nat) :
    ∃ ns s', spudpStep speex s (.input addr t) = ⟨ns, some s'⟩ ∧
      s'.pctl ≠ none := by
  rw [spudpStep]
  split
  · exact ⟨_, _, rfl, hp⟩
  · exact ⟨_, _, rfl, hp⟩

theorem controlSend_returns (hp : s.pctl ≠ none) (halloc : e.alloc = true)
    (t₁ t₂ t₃ : Nat) :
    ∃ ns s', spudpStep speex s (.controlSend t₁ t₂ t₃ e) = ⟨ns, some s'⟩ ∧
      s'.pctl ≠ none := by
  rw [spudpStep, spudpControlSend]
  split
  · obtain ⟨st, htr⟩ := controlTransition_st s (clk t₂)
    have hp' : (controlTransition s (clk t₂)).pctl ≠ none := by
      rw [htr]
      exact hp
    have hlen : 32 ≤ syncPayload.length := by decide
    obtain ⟨ns, n, s', hsend, hp''⟩ := spudpStringSend_returns hp' halloc
      (by decide) (by decide) hlen
    simp only [hsend, Traced.mk_bind]
    split <;> exact ⟨_, _, rfl, hp''⟩
  · exact ⟨_, _, rfl, hp⟩

theorem stringSend_returns (speex : Speex β) (hp : s.pctl ≠ none)
    (halloc : e.alloc = true)
    {buf : List UInt8} (hpos : 0 < buf.length) (hlen : buf.length < 256) :
    ∃ ns s', spudpStep speex s (.stringSend buf buf.length e) =
      ⟨ns, some s'⟩ ∧ s'.pctl ≠ none := by
  obtain ⟨ns, n, s', hsend, hp'⟩ := spudpStringSend_returns hp halloc hpos
    hlen (Nat.le_refl buf.length)
  rw [spudpStep, hsend]
  exact ⟨ns, s', by simp [Traced.ext_iff], hp'⟩

/-- The last part of `spudp_send` returns if the frame fits. -/
theorem sendAudio_returns (q : UdpPcb) {enc : CArray UInt8 256} {count : Nat}
    (len : Nat) (halloc : e.alloc = true) (hcount : count ≤ 256) :
    ∃ ns n s', sendAudio s q enc count len e = ⟨ns, some (n, s')⟩ ∧
      s'.pctl = s.pctl := by
  rw [sendAudio, if_pos ⟨halloc, hcount⟩]
  split <;> exact ⟨_, _, _, rfl, rfl⟩

end Calls

/-! ### Every step returns -/

/-- A text is handed on when `radio_comm` is entered. -/
theorem mainLoopStep_stringSend {d d' : Device Int16} {i : RadioIn}
    {buf : List UInt8}
    (h : mainLoopStep d i = ⟨[.radio (.stringSend buf)], some d'⟩)
    (hlocal : d.Local) :
    d.main = .radioComm ∧ buf = d.radio.pending ++ i.chunk := by
  rcases hmain : d.main with - | ⟨c, len⟩ | ⟨- | ⟨a, todo⟩, next⟩ | - | - <;>
    simp only [mainLoopStep, hmain] at h
  · refine ⟨rfl, ?_⟩
    obtain ⟨t, hacc, hrest⟩ := Traced.ofOption_bind_eq_mk_iff.mp h
    rw [← (accumulate_some hacc).2.2]
    split at hrest
    · obtain ⟨_, hout, -⟩ := Traced.emit_bind_eq_mk_iff.mp hrest
      simp only [List.cons.injEq, DeviceOut.radio.injEq,
        RadioAct.stringSend.injEq] at hout
      exact hout.1
    · cases (Traced.pure_eq_mk_iff.mp hrest).1
  · cases (scanTurn_main h).1
  · cases (Traced.pure_eq_mk_iff.mp h).1
  · obtain ⟨_, hout, -⟩ := Traced.emit_bind_eq_mk_iff.mp h
    obtain rfl : RadioAct.stringSend buf = a := by simpa using (List.cons.inj hout).1
    cases hlocal _ _ hmain _ List.mem_cons_self
  · rw [testFinished] at h
    split at h
    · obtain ⟨_, hout, -⟩ := Traced.emit_bind_eq_mk_iff.mp h
      cases (List.cons.inj hout).1
    · cases (Traced.pure_eq_mk_iff.mp h).1
  · cases (Traced.pure_eq_mk_iff.mp h).1

/-- What keeps the whole device defined. -/
structure SafeInv (speex : Speex β) (o : List FirmwareOut)
    (f : Firmware β) : Prop where
  audio : AudioInv speex o f
  text : TextInv o f
  pctl : f.spudp.pctl ≠ none
  scan : f.dev.Scannable
  alloc : ∀ c, f.encoding = some c → c.env.alloc = true

/-- A step returns, and leaves `pctl`, the scanner and the call of
`spudp_send` as they should be. -/
def Returns (x : Traced FirmwareOut (Firmware β)) : Prop :=
  ∃ o f, x = ⟨o, some f⟩ ∧ f.spudp.pctl ≠ none ∧ f.dev.Scannable ∧
    ∀ c, f.encoding = some c → c.env.alloc = true

section Steps

variable {speex : Speex β} {f : Firmware β} {i : MainIn}
  {o : List FirmwareOut}

theorem returns_call {x : Traced NetOp (Spudp β)} (hs : f.dev.Scannable)
    (hc : ∀ c, f.encoding = some c → c.env.alloc = true)
    (h : ∃ ns s, x = ⟨ns, some s⟩ ∧ s.pctl ≠ none) : Returns (f.call x) := by
  obtain ⟨ns, s, rfl, hp⟩ := h
  exact ⟨_, _, rfl, hp, hs, hc⟩

/-- What is handed on is taken. -/
theorem serve_returns (h : SafeInv speex o f) {chunk : List UInt8}
    (halloc : i.env.alloc = true) (henter : f.dev.Enters chunk)
    {a : DeviceOut Int16} {d' : Device Int16}
    (hstep : mainLoopStep f.dev ⟨chunk, i.len⟩ = ⟨[a], some d'⟩)
    (rxring : RxRing) :
    ∃ o' g, ({ f with rxring } : Firmware β).serve i.env a = ⟨o', some g⟩ ∧
      g.spudp.pctl ≠ none ∧
      ∀ c, g.encoding = some c → c.env.alloc = true := by
  rcases mainLoopStep_out hstep with hnil | ⟨r, hr⟩ | ⟨b, hb⟩
  · cases hnil
  · obtain rfl : a = .radio r := (List.cons.inj hr).1
    rcases r with buf | - | - | ⟨who, x⟩
    · -- a text, which has a length that is allowed
      obtain ⟨hmain, rfl⟩ := mainLoopStep_stringSend hstep h.text.inside
      obtain ⟨h255, -⟩ := henter hmain
      have hlast : (f.dev.radio.pending ++ chunk).getLast? = some 10 :=
        (mainLoopStep_texts hstep h.text.room h.text.inside
          fun hne => absurd hmain hne).2.2.2 _ (List.mem_singleton.mpr rfl)
      have hpos : 0 < (f.dev.radio.pending ++ chunk).length := by
        rw [List.length_pos_iff]
        intro hnil
        rw [hnil] at hlast
        cases hlast
      obtain ⟨ns, s, hsend, hp⟩ := stringSend_returns speex
        (e := i.env.toSendEnv) h.pctl halloc hpos (by omega)
      exact ⟨_, _, congrArg (fun x => Traced.emit _ >>= fun _ =>
        Firmware.call _ x) hsend, hp, h.alloc⟩
    all_goals exact ⟨_, _, rfl, h.pctl, h.alloc⟩
  · obtain rfl : a = .handed b := (List.cons.inj hb).1
    obtain ⟨-, -, rfl⟩ := mainLoopStep_handed (b := b) (by
      rw [hstep]
      exact List.mem_singleton.mpr rfl)
    have hcall := h.audio.named.call
    obtain ⟨n, enc, back, hbuild, -⟩ := buildHeader_handed
      (h := f.dev.handed) hcall.ssi hcall.gssi hcall.ssi2 i.env.enc
    simp only [Firmware.serve, Firmware.beginSend, hbuild,
      Traced.ofOption_some, pure_bind]
    split
    · exact ⟨_, _, rfl, h.pctl, h.alloc⟩
    · refine ⟨_, _, rfl, h.pctl, ?_⟩
      rintro _ ⟨⟩
      exact halloc

/-- A step of the device returns. -/
theorem deviceMain_returns (h : SafeInv speex o f) {chunk : List UInt8}
    (halloc : i.env.alloc = true) (henter : f.dev.Enters chunk)
    (rxring : RxRing) :
    Returns (({ f with rxring } : Firmware β).deviceMain chunk i) := by
  obtain ⟨os, d', hstep, hscan⟩ := mainLoopStep_returns
    (i := ⟨chunk, i.len⟩) h.scan h.text.room henter
  have hserve : ∃ o' g, os.foldlM (fun f a => f.serve i.env a)
      ({ f with rxring } : Firmware β) = ⟨o', some g⟩ ∧
        g.spudp.pctl ≠ none ∧
        ∀ c, g.encoding = some c → c.env.alloc = true := by
    rcases mainLoopStep_out hstep with rfl | ⟨r, rfl⟩ | ⟨b, rfl⟩
    · exact ⟨_, _, rfl, h.pctl, h.alloc⟩
    all_goals
      obtain ⟨o', g, hg, hp, hc⟩ := serve_returns h halloc henter hstep rxring
      refine ⟨o', g, ?_, hp, hc⟩
      rw [List.foldlM_cons, hg]
      exact congrArg₂ Traced.mk (List.append_nil _) rfl
  obtain ⟨o', g, hg, hp, hc⟩ := hserve
  rw [Firmware.deviceMain]
  dsimp only
  rw [hstep, hg]
  exact ⟨_, _, rfl, hp, hscan, hc⟩

/-- The rest of `spudp_send` returns. -/
theorem endSend_returns (h : SafeInv speex o f) (hw : speex.Compact)
    {c : Encoding β} (hc : f.encoding = some c) (hi : blockSize ≤ c.i) :
    Returns (f.endSend speex c) := by
  obtain ⟨-, hs, b, -, hbits, -, hof⟩ := h.audio.busy c hc
  have hready : speex.Ready f.spudp.encBits := by
    rw [hbits]
    exact ready_bitsAfter speex hs
  obtain ⟨nbytes, enc, hwrite, -, hcount, -⟩ := hof.frame hw hready hi
  have hcall (q : UdpPcb) : Returns (({ f with encoding := none } :
      Firmware β).call (Prod.snd <$> sendAudio { f.spudp with
          encBits := speex.reset (speex.insertTerminator c.bits) }
        q enc (nbytes + c.allLen.toUInt32).toNat blockSize
        c.env.toSendEnv)) := by
    obtain ⟨ns, n, s, hsend, hp⟩ := sendAudio_returns
      (s := { f.spudp with
        encBits := speex.reset (speex.insertTerminator c.bits) })
      q blockSize (h.alloc c hc) hcount
    refine returns_call h.scan nofun ⟨ns, s, ?_, hp ▸ h.pctl⟩
    rw [hsend]
    simp [Traced.ext_iff]
  simp only [Firmware.endSend, hwrite, Traced.ofOption_some, pure_bind]
  split
  · exact ⟨_, _, rfl, h.pctl, h.scan, nofun⟩
  · split
    · split
      · exact hcall _
      · exact ⟨_, _, rfl, h.pctl, h.scan, nofun⟩
    · exact hcall _

/-- An interrupt of the converter returns. -/
theorem adcStep_returns (h : SafeInv speex o f) (dr : UInt32) :
    Returns (f.adcStep dr) := by
  rw [Firmware.adcStep, irqStep]
  have hlt := h.audio.filled.nSamples
  split
  · rcases Nat.lt_or_eq_of_le hlt with hmore | hlast
    · rw [adcIRQHandler_more hmore]
      exact ⟨_, _, rfl, h.pctl, h.scan, h.alloc⟩
    · rw [adcIRQHandler_last hlast]
      exact ⟨_, _, rfl, h.pctl, h.scan, h.alloc⟩
  · exact ⟨_, _, rfl, h.pctl, h.scan, h.alloc⟩

/-- **Every benign step returns.** -/
theorem firmwareStep_returns (h : SafeInv speex o f) (hw : speex.Compact)
    {a : FirmwareAct} (hb : Benign f a) :
    Returns (firmwareStep speex f a) := by
  cases a with
  | adc dr => exact adcStep_returns h dr
  | uart b =>
    obtain ⟨r, -, ⟨-, heq⟩ | ⟨-, -, heq⟩⟩ := uartStep_spec h.text.ring b
    · exact ⟨_, _, heq, h.pctl, h.scan, h.alloc⟩
    · exact ⟨_, _, heq, h.pctl, h.scan, h.alloc⟩
  | main i =>
    obtain ⟨halloc, henter⟩ := hb
    rw [firmwareStep, Firmware.mainStep]
    split
    · rw [Firmware.input]
      split
      · exact returns_call h.scan h.alloc (input_returns h.pctl _ _)
      · exact ⟨_, _, rfl, h.pctl, h.scan, h.alloc⟩
    · next hmain hserved =>
      obtain ⟨h255, htext⟩ := henter hmain hserved
      rw [Firmware.arrived, List.length_append,
        Radio.pending_length h.text.room] at h255
      rw [Firmware.enterRadio, if_neg (by omega)]
      exact deviceMain_returns h halloc (fun _ => henter hmain hserved) _
    · exact returns_call h.scan h.alloc
        (controlSend_returns (e := i.env.toSendEnv) h.pctl halloc _ _ _)
    · next c hmain hc =>
      split
      · refine ⟨_, _, rfl, h.pctl, h.scan, ?_⟩
        rintro _ ⟨⟩
        exact h.alloc c hc
      · next hi => exact endSend_returns h hw hc (Nat.not_lt.mp hi)
    · next hinput hradio hcontrol hsending =>
      refine deviceMain_returns h halloc (fun hmain => ?_) f.rxring
      rcases hserved : f.served with - | -
      · exact absurd hserved (hinput hmain)
      · exact absurd hserved (hradio hmain)

end Steps

/-! ### Whole runs -/

/-- **Safety.**  A run whose steps are benign, with an encoder that makes at
most 160 bytes of a block, is defined: no array is left, no null pointer
followed and no assertion violated. -/
theorem firmware_safe {speex : Speex β} (hw : speex.Compact)
    {s s₀ : Spudp β} {server1 server2 : Option UInt32} {e : InitEnv}
    (hinit : spudpInit speex s server1 server2 e = some s₀)
    (hbind : e.bind1 = true) {rxbuff : CArray UInt8 rxSize} {k : Nat}
    {acts : List FirmwareAct}
    (hb : ∀ o f a, Feeds (firmwareStep speex) (firmwareInit rxbuff k s₀) acts
      o f a → Benign f a) :
    ∃ o f, run (firmwareStep speex) (firmwareInit rxbuff k s₀) acts =
      ⟨o, some f⟩ := by
  have hpctl : s₀.pctl ≠ none := by
    unfold spudpInit at hinit
    rcases e with ⟨_ | _, _ | _, _ | _, _ | _, now1, now2⟩ <;>
      cases hinit <;> simp at hbind ⊢
  have h0 : SafeInv speex [] (firmwareInit rxbuff k s₀) :=
    ⟨audioInv_init hinit rxbuff k, textInv_init rxbuff k s₀, hpctl, trivial,
      nofun⟩
  obtain ⟨o, f, hrun, -⟩ := run_total (I := SafeInv speex) h0 (by
    intro o f a hfeed h
    have hbenign := hb o f a hfeed
    obtain ⟨o', f', hstep, hp, hscan, halloc⟩ :=
      firmwareStep_returns h hw hbenign
    have hun : Undisturbed f a := by
      cases a with
      | adc dr => exact hbenign
      | uart | main => trivial
    exact ⟨o', f', hstep, h.audio.step hw hun hstep, h.text.step hstep, hp,
      hscan, halloc⟩)
  exact ⟨o, f, hrun⟩

/-- A transmission. -/
theorem firmware_safe_talk :
    ∃ o f, run (firmwareStep countingSpeex)
      (firmwareInit (CArray.fill rxSize 0) 20 spudpStart) talk =
        ⟨o, some f⟩ := by
  have hcheck : checkRun (firmwareStep countingSpeex)
      (fun f a => decide (Benign f a))
      (firmwareInit (CArray.fill rxSize 0) 20 spudpStart) talk = true := by
    decide +kernel
  refine firmware_safe countingSpeex_compact spudpStart_init rfl
    fun o f a hfeed => ?_
  have hok := checkRun_feeds hcheck hfeed
  exact of_decide_eq_true hok

end Roip
