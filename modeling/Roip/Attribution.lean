/-
Roip/Attribution.lean

Whose voice is it?

Every sample is observed together with the push-to-talk interval it was
converted in.  An interval begins when a `+CTXG` starts the converter and
keeps the identity stored by it; it ends with the `+CDTXC` that stops the
converter, with a `+CTCR`, and with the next `+CTXG`.  A block handed to
`spudp_send` is attributed when all its samples lie in one interval and the
identity sent with it is that of the interval.

The observation does not influence the device (`observed_erases`).  Blocks
are attributed in every run that keeps out of four windows (`OutOfWindow`):

* `ssi2` is rewritten with another identity while a finished block waits for
  the main loop;
* a block is finished between the rewriting of `ssi2` with another identity
  and the start or stop of the converter that belongs to it;
* the converter is started while the block being filled still holds samples;
* a call ends while the converter is running, which goes on then.
-/
import Roip.Device

namespace Roip

/-! ### Intervals -/

/-- A push-to-talk interval: its number, and the `ssi2` stored by its
`+CTXG`. -/
structure Interval where
  number : Nat
  id2 : List UInt8
deriving DecidableEq

/-- A sample and the interval it was converted in, if any. -/
abbrev Tagged := Int16 × Option Interval

/-- The device, the current interval, and the number of intervals so far. -/
structure Observed where
  dev : Device Tagged
  cur : Option Interval
  opened : Nat
deriving DecidableEq

/-- The current interval and the number of intervals after a step. -/
def intervalAfter (s : Observed) : DeviceAct → Option Interval × Nat
  | .irq _ => (s.cur, s.opened)
  | .main _ =>
    match s.dev.main with
    | .acting (.adcStart :: _) _ =>
      (some ⟨s.opened, cstr s.dev.radio.call.ssi2.cells⟩, s.opened + 1)
    | .acting (.adcStop :: _) _ => (none, s.opened)
    | .scanning c _ =>
      if c < s.dev.radio.nbytes ∧
          recognise (s.dev.radio.buf.cells.drop c) = some (some .callEnd) then
        (none, s.opened)
      else (s.cur, s.opened)
    | _ => (s.cur, s.opened)

/-- A step of the device, observed. -/
def observedStep (s : Observed) (a : DeviceAct) :
    Traced (DeviceOut Tagged) Observed := do
  let dev ← deviceStep (fun dr => (toSample dr, s.cur)) s.dev a
  pure ⟨dev, (intervalAfter s a).1, (intervalAfter s a).2⟩

def observedInit (fn : Bool) : Observed := ⟨deviceInit (0, none) fn, none, 0⟩

/-- All samples are of one interval, and the identity is that of the
interval. -/
def Handed.Attributed (h : Handed Tagged) : Prop :=
  ∃ iv : Interval, (∀ x ∈ h.samples.cells, x.2 = some iv) ∧
    cstr h.id2.cells = iv.id2

theorem observedStep_out (s : Observed) (a : DeviceAct) :
    (observedStep s a).out =
      (deviceStep (fun dr => (toSample dr, s.cur)) s.dev a).out := by
  rw [observedStep, Traced.bind_out]
  rcases (deviceStep (fun dr => (toSample dr, s.cur)) s.dev a).res with
    - | dev <;> exact List.append_nil _

/-- **The observation does not influence the device.** -/
theorem observed_erases (fn : Bool) (acts : List DeviceAct) :
    run (deviceStep toSample) (deviceInit 0 fn) acts =
      (run observedStep (observedInit fn) acts).image
        (DeviceOut.map Prod.fst) (fun s => s.dev.map Prod.fst) := by
  have hinit : (observedInit fn).dev.map Prod.fst = deviceInit 0 fn := by
    simp only [observedInit, deviceInit, adcInit, Device.map, Adc.map,
      CArray.map_fill]
  rw [← hinit]
  refine run_image (f := fun s : Observed => s.dev.map Prod.fst) ?_
    (observedInit fn) acts
  intro s a
  rw [deviceStep_map Prod.fst (fun dr => (toSample dr, s.cur)), observedStep]
  rcases deviceStep (fun dr => (toSample dr, s.cur)) s.dev a with
    ⟨o, - | dev⟩
  · rfl
  · simp [Traced.image]

/-! ### The windows -/

/-- `ssi2` has been rewritten, and the converter is about to be started or
stopped. -/
def MainLoop.switching : MainLoop → Bool
  | .acting (.adcStart :: _) _ => true
  | .acting (.adcStop :: _) _ => true
  | _ => false

/-- The waiting block is being sent. -/
def MainLoop.isSending : MainLoop → Bool
  | .sending => true
  | _ => false

/-- The step hits none of the windows. -/
def OutOfWindow (d : Device Tagged) (cur : Option Interval) :
    DeviceAct → Prop
  | .irq _ => d.adc.irqEnabled = true → d.main.switching = true →
      d.adc.nSamples + 1 = blockSize →
        ∀ iv ∈ cur, cstr d.radio.call.ssi2.cells = iv.id2
  | .main _ =>
    match d.main with
    | .acting (.update .ssi2 s :: _) _ => d.adc.nConvFinished = 0 ∨
        cstr s.cells = cstr d.radio.call.ssi2.cells
    | .acting (.adcStart :: _) _ => d.adc.nSamples = 0
    | .scanning c _ => c < d.radio.nbytes →
        recognise (d.radio.buf.cells.drop c) = some (some .callEnd) →
          d.adc.irqEnabled = false
    | _ => True

instance (d : Device Tagged) (cur : Option Interval) :
    DecidablePred (OutOfWindow d cur)
  | .irq _ => inferInstanceAs (Decidable (_ → _ → _ → ∀ iv ∈ cur, _))
  | .main _ => by
    unfold OutOfWindow
    dsimp only
    split <;> infer_instance

/-! ### The invariant -/

/-- What holds of the blocks, `ssi2` and the current interval between any two
steps. -/
structure Sound (adc : Adc Tagged) (ssi2 : CArray UInt8 32)
    (cur : Option Interval) (switching sending : Bool) : Prop where
  blocks_ne : adc.blockFill ≠ adc.blockResult
  inside : adc.nSamples < blockSize
  held : adc.irqEnabled = true → ∃ iv, cur = some iv ∧
    (switching = false → cstr ssi2.cells = iv.id2)
  part : adc.irqEnabled = true →
    ∀ x ∈ (adc.block adc.blockFill).cells.take adc.nSamples, x.2 = cur
  waiting : adc.nConvFinished ≠ 0 → sending = false → ∃ iv : Interval,
    (∀ x ∈ (adc.block adc.blockResult).cells, x.2 = some iv) ∧
      cstr ssi2.cells = iv.id2

section Sound

variable {adc : Adc Tagged} {ssi2 : CArray UInt8 32} {cur : Option Interval}
  {switching sending : Bool}

theorem sound_init (fn : Bool) :
    Sound (adcInit (0, none) fn) clearIdentity none false false where
  blocks_ne := by simp [adcInit]
  inside := blockSize_pos
  held h := by cases h
  part h := by cases h
  waiting h := absurd rfl h

/-- A sample inside the block. -/
theorem Sound.more (h : Sound adc ssi2 cur switching sending)
    (hen : adc.irqEnabled = true) (hn : adc.nSamples + 1 < blockSize)
    (x : Int16) :
    Sound (afterMore adc (x, cur)) ssi2 cur switching sending where
  blocks_ne := by simpa [afterMore] using h.blocks_ne
  inside := hn
  held _ := h.held hen
  part _ := by
    have htake := take_stored (v := (x, cur)) adc h.inside
    rw [block_afterMore_fill]
    change ∀ y ∈ (stored adc (x, cur)).cells.take (adc.nSamples + 1), _
    rw [htake]
    intro y hy
    rcases List.mem_append.mp hy with hy | hy
    · exact h.part hen y hy
    · rw [List.mem_singleton.mp hy]
  waiting hc hs := by
    rw [block_afterMore_result h.blocks_ne]
    exact h.waiting (by simpa [afterMore] using hc) hs

/-- The sample that completes the block. -/
theorem Sound.last (h : Sound adc ssi2 cur switching sending)
    (hen : adc.irqEnabled = true) (hn : adc.nSamples + 1 = blockSize)
    (hid : switching = true → ∀ iv ∈ cur, cstr ssi2.cells = iv.id2)
    (x : Int16) :
    Sound (afterLast adc (x, cur)) ssi2 cur switching sending where
  blocks_ne := h.blocks_ne.symm
  inside := blockSize_pos
  held _ := h.held hen
  part _ := by
    intro y hy
    cases hy
  waiting _ _ := by
    obtain ⟨iv, rfl, hheld⟩ := h.held hen
    have hssi2 : cstr ssi2.cells = iv.id2 := by
      rcases hsw : switching with - | -
      · exact hheld hsw
      · exact hid hsw iv rfl
    refine ⟨iv, ?_, hssi2⟩
    rw [cells_afterLast_result hn]
    intro y hy
    rcases List.mem_append.mp hy with hy | hy
    · exact h.part hen y hy
    · rw [List.mem_singleton.mp hy]

/-- `ssi2` is rewritten while no block waits, or with the same identity. -/
theorem Sound.rewrite (h : Sound adc ssi2 cur switching sending)
    {s : CArray UInt8 32}
    (hw : adc.nConvFinished = 0 ∨ cstr s.cells = cstr ssi2.cells) :
    Sound adc s cur true sending where
  blocks_ne := h.blocks_ne
  inside := h.inside
  held hen := by
    obtain ⟨iv, hcur, -⟩ := h.held hen
    exact ⟨iv, hcur, nofun⟩
  part := h.part
  waiting hc hs := by
    rw [hw.resolve_left hc]
    exact h.waiting hc hs

/-- Outside the windows less is known of `ssi2` while switching. -/
theorem Sound.relax (h : Sound adc ssi2 cur false sending) (sw : Bool) :
    Sound adc ssi2 cur sw sending :=
  { h with
    held := fun hen => (h.held hen).imp fun _ hiv =>
      ⟨hiv.1, fun _ => hiv.2 rfl⟩ }

/-- The converter is started, and with it an interval. -/
theorem Sound.start (h : Sound adc ssi2 cur switching sending)
    (hn : adc.nSamples = 0) (number : Nat) (sw : Bool) :
    Sound (adcStart adc) ssi2 (some ⟨number, cstr ssi2.cells⟩) sw
      sending where
  blocks_ne := h.blocks_ne
  inside := h.inside
  held _ := ⟨_, rfl, fun _ => rfl⟩
  part _ := by
    change ∀ x ∈ List.take adc.nSamples _, _
    rw [hn]
    nofun
  waiting := h.waiting

/-- The converter is stopped. -/
theorem Sound.stop (h : Sound adc ssi2 cur switching sending) (sw : Bool) :
    Sound (adcStop adc) ssi2 none sw sending where
  blocks_ne := h.blocks_ne
  inside := h.inside
  held := nofun
  part := nofun
  waiting := h.waiting

/-- Nothing is observed while the converter is stopped. -/
theorem Sound.idle (h : Sound adc ssi2 cur switching sending)
    (hen : adc.irqEnabled = false) (cur' : Option Interval) (sw : Bool) :
    Sound adc ssi2 cur' sw sending where
  blocks_ne := h.blocks_ne
  inside := h.inside
  held hen' := absurd (hen'.symm.trans hen) (by decide)
  part hen' := absurd (hen'.symm.trans hen) (by decide)
  waiting := h.waiting

/-- The waiting block is handed on. -/
theorem Sound.hand (h : Sound adc ssi2 cur switching sending) :
    Sound adc ssi2 cur switching true :=
  { h with waiting := nofun }

/-- No block waits any more. -/
theorem Sound.clear (h : Sound adc ssi2 cur switching sending) (sd : Bool) :
    Sound { adc with nConvFinished := 0 } ssi2 cur switching sd where
  blocks_ne := h.blocks_ne
  inside := h.inside
  held := h.held
  part := h.part
  waiting hc := absurd rfl hc

end Sound

/-- The actions left of a turn come to the identity `t`: a rewriting of
`ssi2` is followed by a start or stop of the converter, and nothing else
follows these. -/
def Settles (ssi2 : CArray UInt8 32) : List RadioAct → CArray UInt8 32 → Prop
  | [], t => t = ssi2
  | .update .ssi2 s :: todo, t =>
    (todo = [.adcStart] ∨ todo = [.adcStop]) ∧ t = s
  | .adcStart :: todo, t => todo = [] ∧ t = ssi2
  | .adcStop :: todo, t => todo = [] ∧ t = ssi2
  | _ :: todo, t => Settles ssi2 todo t

/-- A turn settles, and it does not begin with a start or stop. -/
theorem Effect.settles {ev : Event} {s s' : Call} {o : List RadioAct}
    (h : Effect ev s o s') : Settles s.ssi2 o s'.ssi2 ∧
      ∀ next, (MainLoop.acting o next).switching = false := by
  cases h with
  | getSsi => exact ⟨rfl, fun _ => rfl⟩
  | callEst => exact ⟨rfl, fun _ => rfl⟩
  | pttPressed => exact ⟨⟨Or.inl rfl, rfl⟩, fun _ => rfl⟩
  | pttReleased => exact ⟨⟨Or.inr rfl, rfl⟩, fun _ => rfl⟩
  | callEnd => exact ⟨rfl, fun _ => rfl⟩

/-- The invariant of the observed device. -/
structure AttributionInv (d : Device Tagged) (cur : Option Interval) :
    Prop where
  sound : Sound d.adc d.radio.call.ssi2 cur d.main.switching d.main.isSending
  settles : ∀ todo c len call, d.main = .acting todo (c, len, call) →
    Settles d.radio.call.ssi2 todo call.ssi2

theorem attributionInv_init (fn : Bool) :
    AttributionInv (deviceInit (0, none) fn) none where
  sound := sound_init fn
  settles := by rintro _ _ _ _ ⟨⟩

section Step

variable {d d' : Device Tagged} {cur : Option Interval} {n : Nat}
  {o : List (DeviceOut Tagged)} {i : RadioIn}

/-- An interrupt. -/
theorem AttributionInv.irq (h : AttributionInv d cur) {dr : UInt32}
    (hok : OutOfWindow d cur (.irq dr))
    (hstep : irqStep (fun dr => (toSample dr, cur)) d dr = ⟨o, some d'⟩) :
    AttributionInv d' cur := by
  unfold irqStep at hstep
  by_cases hen : d.adc.irqEnabled = true
  · rw [if_pos hen] at hstep
    rcases Nat.lt_or_eq_of_le h.sound.inside with hn | hn
    · rw [adcIRQHandler_more hn] at hstep
      obtain ⟨-, hres⟩ := Traced.mk.inj hstep
      obtain rfl := Option.some.inj hres
      exact ⟨h.sound.more hen hn _, h.settles⟩
    · rw [adcIRQHandler_last hn] at hstep
      obtain ⟨-, hres⟩ := Traced.mk.inj hstep
      obtain rfl := Option.some.inj hres
      exact ⟨h.sound.last hen hn (hok hen · hn) _, h.settles⟩
  · rw [if_neg hen] at hstep
    obtain ⟨-, rfl⟩ := Traced.pure_eq_mk_iff.mp hstep
    exact h

/-- `radio_comm` is entered. -/
theorem AttributionInv.enter (h : AttributionInv d cur)
    (hmain : d.main = .radioComm)
    (hstep : enterRadioComm d i = ⟨o, some d'⟩) :
    AttributionInv d' cur := by
  have hsound := h.sound
  rw [hmain] at hsound
  obtain ⟨t, hacc, hrest⟩ := Traced.ofOption_bind_eq_mk_iff.mp hstep
  have hcall : t.call = d.radio.call := by
    obtain ⟨buf, -, rfl⟩ := Option.map_eq_some_iff.mp hacc
    rfl
  rw [← hcall] at hsound
  rcases e : t.complete with - | -
  · rw [e, if_neg (by decide)] at hrest
    obtain ⟨-, rfl⟩ := Traced.pure_eq_mk_iff.mp hrest
    exact ⟨hsound, by rintro _ _ _ _ ⟨⟩⟩
  · rw [e, if_pos rfl] at hrest
    obtain ⟨_, -, hret⟩ := Traced.emit_bind_eq_mk_iff.mp hrest
    obtain ⟨-, rfl⟩ := Traced.pure_eq_mk_iff.mp hret
    exact ⟨hsound, by rintro _ _ _ _ ⟨⟩⟩

/-- A turn of the loop over the text begins, or the loop ends. -/
theorem AttributionInv.turn (h : AttributionInv d cur) {c : Nat} {len : UInt8}
    (hmain : d.main = .scanning c len) (hok : OutOfWindow d cur (.main i))
    (hstep : scanTurn d c len = ⟨o, some d'⟩) :
    AttributionInv d' (intervalAfter ⟨d, cur, n⟩ (.main i)).1 := by
  have hsound := h.sound
  rw [hmain] at hsound
  simp only [OutOfWindow, hmain] at hok
  simp only [intervalAfter, hmain]
  by_cases hc : c < d.radio.nbytes
  · rw [scanTurn, if_pos hc] at hstep
    rcases hbody : scanBody d.radio.buf.cells d.radio.nbytes c len
      d.radio.call with ⟨todo, - | ⟨c', len', call⟩⟩
    · rw [hbody] at hstep
      cases hstep
    · rw [hbody] at hstep
      obtain ⟨-, rfl⟩ := Traced.pure_eq_mk_iff.mp hstep
      have hset : Settles d.radio.call.ssi2 todo call.ssi2 ∧
          ∀ next, (MainLoop.acting todo next).switching = false := by
        rcases scanBody_effect hbody with ⟨-, -, rfl, rfl⟩ | ⟨ev, -, -, heff⟩
        · exact ⟨rfl, fun _ => rfl⟩
        · exact heff.settles
      refine ⟨?_, ?_⟩
      · change Sound _ _ _ (MainLoop.switching (.acting todo _)) false
        rw [hset.2]
        split
        · -- the end of a call, while nothing is sampled
          next hend => exact hsound.idle (hok hc hend.2) none false
        · exact hsound
      · rintro _ _ _ _ ⟨⟩
        exact hset.1
  · rw [scanTurn, if_neg hc] at hstep
    obtain ⟨-, rfl⟩ := Traced.pure_eq_mk_iff.mp hstep
    rw [if_neg fun hend => hc hend.1]
    exact ⟨hsound, by rintro _ _ _ _ ⟨⟩⟩

/-- An action of a turn. -/
theorem AttributionInv.act (h : AttributionInv d cur) {a : RadioAct}
    {todo : List RadioAct} {next : Nat × UInt8 × Call}
    (hmain : d.main = .acting (a :: todo) next)
    (hok : OutOfWindow d cur (.main i)) :
    AttributionInv { d.perform a with main := .acting todo next }
      (intervalAfter ⟨d, cur, n⟩ (.main i)).1 := by
  have hsound := h.sound
  have hset := h.settles _ _ _ _ hmain
  rw [hmain] at hsound
  simp only [OutOfWindow, hmain] at hok
  simp only [intervalAfter, hmain]
  rcases a with _ | - | - | ⟨- | - | -, s⟩
  · -- forwarding
    exact ⟨hsound.relax _, by rintro _ _ _ _ ⟨⟩; exact hset⟩
  · -- start
    obtain ⟨rfl, hset⟩ := hset
    exact ⟨hsound.start hok n _, by rintro _ _ _ _ ⟨⟩; exact hset⟩
  · -- stop
    obtain ⟨rfl, hset⟩ := hset
    exact ⟨hsound.stop _, by rintro _ _ _ _ ⟨⟩; exact hset⟩
  · -- `ssi`
    exact ⟨hsound.relax _, by rintro _ _ _ _ ⟨⟩; exact hset⟩
  · -- `gssi`
    exact ⟨hsound.relax _, by rintro _ _ _ _ ⟨⟩; exact hset⟩
  · -- `ssi2`: the converter is switched next
    obtain ⟨rfl | rfl, hset⟩ := hset
    · exact ⟨hsound.rewrite hok, by rintro _ _ _ _ ⟨⟩; exact ⟨rfl, hset⟩⟩
    · exact ⟨hsound.rewrite hok, by rintro _ _ _ _ ⟨⟩; exact ⟨rfl, hset⟩⟩

/-- The test of `n_conv_finished`. -/
theorem AttributionInv.test (h : AttributionInv d cur)
    (hmain : d.main = .test) (hstep : testFinished d = ⟨o, some d'⟩) :
    AttributionInv d' cur := by
  have hsound := h.sound
  rw [hmain] at hsound
  by_cases hc : d.adc.nConvFinished ≠ 0
  · rw [testFinished, if_pos hc] at hstep
    obtain ⟨_, -, hret⟩ := Traced.emit_bind_eq_mk_iff.mp hstep
    obtain ⟨-, rfl⟩ := Traced.pure_eq_mk_iff.mp hret
    exact ⟨hsound.hand, by rintro _ _ _ _ ⟨⟩⟩
  · rw [testFinished, if_neg hc] at hstep
    obtain ⟨-, rfl⟩ := Traced.pure_eq_mk_iff.mp hstep
    exact ⟨hsound, by rintro _ _ _ _ ⟨⟩⟩

/-- A step of the main loop. -/
theorem AttributionInv.main (h : AttributionInv d cur)
    (hok : OutOfWindow d cur (.main i))
    (hstep : mainLoopStep d i = ⟨o, some d'⟩) :
    AttributionInv d' (intervalAfter ⟨d, cur, n⟩ (.main i)).1 := by
  have hsound := h.sound
  rcases hmain : d.main with - | ⟨c, len⟩ | ⟨- | ⟨a, todo⟩, c, len, call⟩ |
    - | -
  · have hcur : (intervalAfter ⟨d, cur, n⟩ (.main i)).1 = cur := by
      simp only [intervalAfter, hmain]
    rw [mainLoopStep, hmain] at hstep
    rw [hcur]
    exact h.enter hmain hstep
  · rw [mainLoopStep, hmain] at hstep
    exact h.turn hmain hok hstep
  · -- the variables have got their values already
    have hcur : (intervalAfter ⟨d, cur, n⟩ (.main i)).1 = cur := by
      simp only [intervalAfter, hmain]
    have hset : call.ssi2 = d.radio.call.ssi2 := h.settles _ _ _ _ hmain
    rw [mainLoopStep, hmain] at hstep
    obtain ⟨-, rfl⟩ := Traced.pure_eq_mk_iff.mp hstep
    rw [hmain] at hsound
    rw [hcur]
    refine ⟨?_, by rintro _ _ _ _ ⟨⟩⟩
    change Sound _ call.ssi2 _ _ _
    rw [hset]
    exact hsound
  · have hact := h.act (n := n) hmain hok
    rw [mainLoopStep, hmain] at hstep
    obtain ⟨_, -, hret⟩ := Traced.emit_bind_eq_mk_iff.mp hstep
    obtain ⟨-, rfl⟩ := Traced.pure_eq_mk_iff.mp hret
    exact hact
  · have hcur : (intervalAfter ⟨d, cur, n⟩ (.main i)).1 = cur := by
      simp only [intervalAfter, hmain]
    rw [mainLoopStep, hmain] at hstep
    rw [hcur]
    exact h.test hmain hstep
  · have hcur : (intervalAfter ⟨d, cur, n⟩ (.main i)).1 = cur := by
      simp only [intervalAfter, hmain]
    rw [mainLoopStep, hmain] at hstep
    obtain ⟨-, rfl⟩ := Traced.pure_eq_mk_iff.mp hstep
    rw [hmain] at hsound
    rw [hcur]
    exact ⟨hsound.clear false, by rintro _ _ _ _ ⟨⟩⟩

end Step

/-- **One step** of the observed device, outside the windows. -/
theorem AttributionInv.step {s s' : Observed} {a : DeviceAct}
    {o : List (DeviceOut Tagged)} (h : AttributionInv s.dev s.cur)
    (hok : OutOfWindow s.dev s.cur a) (hstep : observedStep s a = ⟨o, some s'⟩) :
    AttributionInv s'.dev s'.cur := by
  obtain ⟨dev, o', hdev, hret, rfl⟩ := Traced.bind_eq_mk_iff.mp hstep
  obtain ⟨rfl, rfl⟩ := Traced.pure_eq_mk_iff.mp hret
  cases a with
  | irq dr => exact h.irq hok (Traced.eq_mk_of_res hdev)
  | main i => exact h.main hok (Traced.eq_mk_of_res hdev)

/-- **Attribution.**  In every run that keeps out of the windows, every block
handed to `spudp_send` consists of samples of one interval, and is sent with
the identity of that interval. -/
theorem attribution (fn : Bool) (acts : List DeviceAct)
    (hok : ∀ o t a, Feeds observedStep (observedInit fn) acts o t a →
      OutOfWindow t.dev t.cur a) (b : Handed Tagged)
    (hb : .handed b ∈ (run observedStep (observedInit fn) acts).out) :
    b.Attributed := by
  obtain ⟨o, t, a, hf, hmem⟩ := exists_feeds_of_mem_out hb
  have hinv : AttributionInv t.dev t.cur := by
    refine visits_inv (I := fun _ t => AttributionInv t.dev t.cur)
      (attributionInv_init fn) ?_ hf.visits
    intro o t a o' t' hf h hstep
    exact h.step (hok o t a hf) hstep
  rw [observedStep_out] at hmem
  obtain ⟨hmain, hc, rfl⟩ := deviceStep_handed hmem
  have hsound := hinv.sound
  rw [hmain] at hsound
  exact hsound.waiting hc rfl

/-- One turn of the main loop on `+CTXG`, and a block of samples. -/
def pressAndTalk : List DeviceAct :=
  List.replicate 35 (.main ⟨bytesOf "+CTXG:0,3,0,0,0,255\r\n", 0⟩) ++
    List.replicate blockSize (.irq 0x8000)

/-- Whether an action hands on a block that satisfies `p`. -/
def DeviceOut.handedAnd (p : Handed Tagged → Bool) :
    DeviceOut Tagged → Bool
  | .handed b => p b
  | _ => false

theorem exists_handed {p : Handed Tagged → Bool}
    {out : List (DeviceOut Tagged)}
    (h : out.any (DeviceOut.handedAnd p) = true) :
    ∃ b, .handed b ∈ out ∧ p b = true := by
  obtain ⟨a, hmem, ha⟩ := List.any_eq_true.mp h
  rcases a with a | f | b
  · cases ha
  · cases ha
  · exact ⟨b, hmem, ha⟩

/-- A block that is handed on while push-to-talk is held. -/
theorem attribution_held :
    ∃ b, .handed b ∈ (run observedStep (observedInit false)
      (pressAndTalk ++ List.replicate 2 (.main ⟨[], 0⟩))).out ∧
        b.Attributed := by
  have hcheck : checkRun observedStep
      (fun s a => decide (OutOfWindow s.dev s.cur a)) (observedInit false)
      (pressAndTalk ++ List.replicate 2 (.main ⟨[], 0⟩)) = true := by
    decide +kernel
  have hout : (run observedStep (observedInit false)
      (pressAndTalk ++ List.replicate 2 (.main ⟨[], 0⟩))).out.any
        (DeviceOut.handedAnd fun _ => true) = true := by
    decide +kernel
  obtain ⟨b, hmem, -⟩ := exists_handed hout
  refine ⟨b, hmem, attribution false _ ?_ b hmem⟩
  intro o t a hf
  have hstep := checkRun_feeds hcheck hf
  exact of_decide_eq_true hstep

/-- Push-to-talk is released before the main loop has seen the block that was
finished while it was held: the block is sent without an identity. -/
theorem attribution_lost :
    ∃ b, .handed b ∈ (run observedStep (observedInit false)
      (pressAndTalk ++ List.replicate 16
        (.main ⟨bytesOf "+CDTXC:0,0\r\n", 0⟩))).out ∧
      (∃ x ∈ b.samples.cells, x.2 = some ⟨0, bytesOf "255"⟩) ∧
      cstr b.id2.cells = [] ∧ ¬ b.Attributed := by
  have hout : (run observedStep (observedInit false)
      (pressAndTalk ++ List.replicate 16
        (.main ⟨bytesOf "+CDTXC:0,0\r\n", 0⟩))).out.any
        (DeviceOut.handedAnd fun b =>
          b.samples.cells.any (·.2 = some ⟨0, bytesOf "255"⟩) &&
            cstr b.id2.cells = []) = true := by
    decide +kernel
  obtain ⟨b, hmem, hb⟩ := exists_handed hout
  rw [Bool.and_eq_true, List.any_eq_true, decide_eq_true_eq] at hb
  obtain ⟨⟨x, hx, htag⟩, hid⟩ := hb
  have htag := of_decide_eq_true htag
  refine ⟨b, hmem, ⟨x, hx, htag⟩, hid, ?_⟩
  rintro ⟨iv, hall, hiv⟩
  obtain rfl := Option.some.inj (htag.symm.trans (hall x hx))
  rw [hid] at hiv
  exact absurd hiv (by decide)

end Roip
