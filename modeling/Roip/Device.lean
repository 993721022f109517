/-
Roip/Device.lean

The main loop of `roip.c` together with the ADC interrupt.

Of the main loop the parts that touch the sample blocks or the identities are
modelled: `radio_comm`, and the hand-off of a finished block to `spudp_send`.
An interrupt may come between any two of its steps.  Inside `radio_comm` these
are the turns of the loop over the text and the single actions of a turn, so
an interrupt may find an identity already rewritten and the converter not yet
switched.

Without interrupts the main loop computes `radio_comm` (`run_main_radioComm`).
The model is generic in what a sample is, as the interrupt handler is, and what
is attached to the samples can be forgotten (`run_deviceStep_map`).
-/
import Roip.Adc
import Roip.Events

namespace Roip

/-! ### The device -/

/-- Where the main loop stands. -/
inductive MainLoop
  /-- before `radio_comm` -/
  | radioComm
  /-- inside `radio_comm`, at `while(c < nbytes)` -/
  | scanning (c : Nat) (len : UInt8)
  /-- inside a turn of that loop: the actions left to perform, and the
  variables after them -/
  | acting (todo : List RadioAct) (next : Nat × UInt8 × Call)
  /-- at `if(n_conv_finished)` -/
  | test
  /-- in `spudp_send`, before `n_conv_finished = 0` -/
  | sending
deriving DecidableEq

structure Device (α : Type) where
  adc : Adc α
  radio : Radio
  main : MainLoop
deriving DecidableEq

/-- The arguments of `spudp_send(ssi,gssi,ssi2,block_result,BLOCK_SIZE)`. -/
structure Handed (α : Type) where
  id : CArray UInt8 32
  gid : CArray UInt8 32
  id2 : CArray UInt8 32
  samples : CArray α blockSize
deriving DecidableEq

/-- What the device does. -/
inductive DeviceOut (α : Type)
  | radio (a : RadioAct)
  | finished (f : AdcFinished)
  | handed (h : Handed α)
deriving DecidableEq

/-- A step of the device: an ADC interrupt with the reading of the data
register, or a step of the main loop.  What `radio_comm` meets is used by the
step that enters it. -/
inductive DeviceAct
  | irq (dr : UInt32)
  | main (i : RadioIn)
deriving DecidableEq

/-- After the initialisation: `ADC_init` with or without a callback, and
`radio_comm_init`. -/
def deviceInit {α : Type} (zero : α) (fn : Bool) : Device α :=
  ⟨adcInit zero fn, radioInit, .radioComm⟩

namespace Device

variable {α β : Type}

/-- An action of `radio_comm`, on the device. -/
def perform (d : Device α) : RadioAct → Device α
  | .stringSend _ => d
  | .adcStart => { d with adc := Roip.adcStart d.adc }
  | .adcStop => { d with adc := Roip.adcStop d.adc }
  | .update .ssi s => { d with radio.call.ssi := s }
  | .update .gssi s => { d with radio.call.gssi := s }
  | .update .ssi2 s => { d with radio.call.ssi2 := s }

/-- `spudp_send` is called with these arguments. -/
def handed (d : Device α) : Handed α where
  id := d.radio.call.ssi
  gid := d.radio.call.gssi
  id2 := d.radio.call.ssi2
  samples := d.adc.block d.adc.blockResult

/-- Apply a function to every sample. -/
def map (f : α → β) (d : Device α) : Device β :=
  { d with adc := d.adc.map f }

end Device

/-- Apply a function to every sample handed on. -/
def DeviceOut.map {α β : Type} (f : α → β) : DeviceOut α → DeviceOut β
  | .radio a => .radio a
  | .finished e => .finished e
  | .handed h => .handed { h with samples := h.samples.map f }

section Step

variable {α : Type}

/-- `radio_comm` is entered: the text goes on, or it is forwarded and the loop
over it begins. -/
def enterRadioComm (d : Device α) (i : RadioIn) :
    Traced (DeviceOut α) (Device α) := do
  let radio ← Traced.ofOption (accumulate d.radio i.chunk)
  if radio.complete then do
    Traced.emit (.radio (.stringSend (radio.buf.cells.take radio.nbytes)))
    pure { d with radio, main := .scanning 0 i.len }
  else pure { d with radio, main := .test }

/-- A turn of the loop begins, or the loop ends. -/
def scanTurn (d : Device α) (c : Nat) (len : UInt8) :
    Traced (DeviceOut α) (Device α) :=
  if c < d.radio.nbytes then
    match scanBody d.radio.buf.cells d.radio.nbytes c len d.radio.call with
    | ⟨todo, some next⟩ => pure { d with main := .acting todo next }
    | ⟨out, none⟩ => ⟨out.map .radio, none⟩
  else pure { d with radio.nbytes := 0, main := .test }

/-- `if(n_conv_finished)`. -/
def testFinished (d : Device α) : Traced (DeviceOut α) (Device α) :=
  if d.adc.nConvFinished ≠ 0 then do
    Traced.emit (.handed d.handed)
    pure { d with main := .sending }
  else pure { d with main := .radioComm }

/-- The next step of the main loop. -/
def mainLoopStep (d : Device α) (i : RadioIn) :
    Traced (DeviceOut α) (Device α) :=
  match d.main with
  | .radioComm => enterRadioComm d i
  | .scanning c len => scanTurn d c len
  | .acting (a :: todo) next => do
    Traced.emit (.radio a)
    pure { d.perform a with main := .acting todo next }
  | .acting [] (c, len, call) =>
    pure { d with radio.call := call, main := .scanning c len }
  | .test => testFinished d
  | .sending => pure { d with adc.nConvFinished := 0, main := .radioComm }

/-- An interrupt, if it is enabled. -/
def irqStep (conv : UInt32 → α) (d : Device α) (dr : UInt32) :
    Traced (DeviceOut α) (Device α) :=
  if d.adc.irqEnabled then
    let t := adcIRQHandler conv d.adc dr
    ⟨t.out.map .finished, t.res.map fun adc => { d with adc }⟩
  else pure d

def deviceStep (conv : UInt32 → α) (d : Device α) :
    DeviceAct → Traced (DeviceOut α) (Device α)
  | .irq dr => irqStep conv d dr
  | .main i => mainLoopStep d i

end Step

/-! ### What is handed on -/

section Handed

variable {α : Type} {d : Device α} {b : Handed α}

theorem enterRadioComm_handed {i : RadioIn} :
    .handed b ∉ (enterRadioComm d i).out := by
  unfold enterRadioComm
  rcases accumulate d.radio i.chunk with - | r
  · simp
  · rcases e : r.complete with - | - <;> simp [e]

theorem scanTurn_handed {c : Nat} {len : UInt8} :
    .handed b ∉ (scanTurn d c len).out := by
  unfold scanTurn
  split
  · rcases scanBody d.radio.buf.cells d.radio.nbytes c len d.radio.call
      with ⟨out, - | t⟩ <;> simp
  · simp

theorem testFinished_handed (h : .handed b ∈ (testFinished d).out) :
    d.adc.nConvFinished ≠ 0 ∧ b = d.handed := by
  unfold testFinished at h
  by_cases hc : d.adc.nConvFinished ≠ 0
  · rw [if_pos hc] at h
    exact ⟨hc, by simpa using h⟩
  · rw [if_neg hc] at h
    cases h

/-- Only the test of `n_conv_finished` hands on a block. -/
theorem mainLoopStep_handed {i : RadioIn}
    (h : .handed b ∈ (mainLoopStep d i).out) :
    d.main = .test ∧ d.adc.nConvFinished ≠ 0 ∧ b = d.handed := by
  rcases hmain : d.main with - | ⟨c, len⟩ | ⟨- | ⟨a, todo⟩, next⟩ | - | - <;>
    simp only [mainLoopStep, hmain] at h
  · exact absurd h enterRadioComm_handed
  · exact absurd h scanTurn_handed
  · cases h
  · simp at h
  · exact ⟨rfl, testFinished_handed h⟩
  · cases h

theorem deviceStep_handed {conv : UInt32 → α} {a : DeviceAct}
    (h : .handed b ∈ (deviceStep conv d a).out) :
    d.main = .test ∧ d.adc.nConvFinished ≠ 0 ∧ b = d.handed := by
  cases a with
  | irq dr =>
    exfalso
    simp only [deviceStep, irqStep] at h
    split at h <;> simp at h
  | main i => exact mainLoopStep_handed h

end Handed

/-! ### Without interrupts -/

section Main

variable {α : Type} {conv : UInt32 → α} {d : Device α} {i : RadioIn}

/-- The steps of the main loop alone. -/
def mainRun (conv : UInt32 → α) (d : Device α) (i : RadioIn) (n : Nat) :
    Traced (DeviceOut α) (Device α) :=
  run (deviceStep conv) d (List.replicate n (.main i))

theorem mainRun_add (m n : Nat) : mainRun conv d i (m + n) =
    mainRun conv d i m >>= fun t => mainRun conv t i n := by
  rw [mainRun, List.replicate_add, run_append]
  rfl

theorem mainRun_one : mainRun conv d i 1 = mainLoopStep d i := by
  rw [mainRun, List.replicate_one, run_cons]
  exact bind_pure _

/-- What is left of the device when an undisturbed `radio_comm` has performed
the actions `o`. -/
def Device.afterActs (d : Device α) (o : List RadioAct) (radio : Radio)
    (main : MainLoop) : Device α :=
  { d with adc.irqEnabled := adcAfter d.adc.irqEnabled o, radio, main }

theorem Device.afterActs_main (d : Device α) (o : List RadioAct)
    (radio : Radio) (main main' : MainLoop) :
    Device.afterActs { d with main := main' } o radio main =
      d.afterActs o radio main := rfl

theorem Device.afterActs_append (d : Device α) (o o' : List RadioAct)
    (radio radio' : Radio) (main main' : MainLoop) :
    d.afterActs (o ++ o') radio' main' =
      (d.afterActs o radio main).afterActs o' radio' main' := by
  rw [afterActs, adcAfter_append]
  rfl

/-- The actions of a turn, one after the other. -/
theorem mainRun_acting {todo : List RadioAct} {c : Nat} {len : UInt8}
    {call : Call} (hmain : d.main = .acting todo (c, len, call)) :
    mainRun conv d i (todo.length + 1) = ⟨todo.map .radio,
      some (d.afterActs todo { d.radio with call } (.scanning c len))⟩ := by
  induction todo generalizing d with
  | nil =>
    rw [List.length_nil, mainRun_one, mainLoopStep, hmain]
    rfl
  | cons a todo ih =>
    have hstep : mainLoopStep d i = ⟨[.radio a], some
        { d.perform a with main := .acting todo (c, len, call) }⟩ := by
      rw [mainLoopStep, hmain]
      rfl
    rw [List.length_cons, Nat.add_comm, mainRun_add, mainRun_one, hstep,
      Traced.mk_bind, ih rfl]
    rcases a with - | - | - | ⟨- | - | -, s⟩ <;> rfl

/-- Every turn of the loop moves the cursor on. -/
theorem lt_of_scanBody {buf : List UInt8} {nbytes c c' : Nat}
    {len len' : UInt8} {s s' : Call} {o : List RadioAct}
    (h : scanBody buf nbytes c len s = ⟨o, some (c', len', s')⟩) :
    c < c' := by
  rcases scanBody_effect h with ⟨-, rfl, -⟩ | ⟨ev, -, rfl, -⟩
  · exact Nat.lt_succ_self c
  · have : 0 < ev.skip := by cases ev <;> decide
    exact Nat.lt_add_of_pos_right this

/-- The loop over the text. -/
theorem mainRun_scanning (conv : UInt32 → α) {fuel c : Nat} {len : UInt8} {o : List RadioAct}
    {call : Call} (hmain : d.main = .scanning c len)
    (hfuel : d.radio.nbytes ≤ c + fuel)
    (h : scan d.radio.buf.cells d.radio.nbytes fuel c len d.radio.call =
      ⟨o, some call⟩) :
    ∃ n, mainRun conv d i n = ⟨o.map .radio,
      some (d.afterActs o { d.radio with call, nbytes := 0 } .test)⟩ := by
  induction fuel generalizing d c len o with
  | zero =>
    obtain ⟨rfl, rfl⟩ := Traced.pure_eq_mk_iff.mp h
    refine ⟨1, ?_⟩
    rw [mainRun_one, mainLoopStep, hmain]
    exact if_neg (Nat.not_lt.mpr hfuel)
  | succ fuel ih =>
    rw [scan] at h
    by_cases hc : c < d.radio.nbytes
    · rw [if_pos hc, Traced.bind_eq_mk_iff] at h
      obtain ⟨⟨c', len', t⟩, o', hbody, hrest, rfl⟩ := h
      have hbody := Traced.eq_mk_of_res hbody
      generalize (scanBody d.radio.buf.cells d.radio.nbytes c len
        d.radio.call).out = todo at hbody ⊢
      have hlt := lt_of_scanBody hbody
      -- enter the turn, perform its actions, go on with the rest
      have henter : mainLoopStep d i = (pure
          { d with main := .acting todo (c', len', t) } :
            Traced (DeviceOut α) _) := by
        rw [mainLoopStep, hmain]
        simp only [scanTurn, hc, if_true, hbody]
      obtain ⟨n, hn⟩ := ih (d := d.afterActs todo { d.radio with call := t }
        (.scanning c' len')) rfl (by
          change d.radio.nbytes ≤ _
          omega) hrest
      refine ⟨1 + (todo.length + 1 + n), ?_⟩
      rw [mainRun_add, mainRun_one, henter, pure_bind, mainRun_add,
        mainRun_acting rfl, Traced.mk_bind, Device.afterActs_main, hn,
        ← List.map_append, ← Device.afterActs_append]
      rfl
    · rw [if_neg hc] at h
      obtain ⟨rfl, rfl⟩ := Traced.pure_eq_mk_iff.mp h
      refine ⟨1, ?_⟩
      rw [mainRun_one, mainLoopStep, hmain]
      exact if_neg hc

/-- **Without interrupts** the main loop computes `radio_comm`, and the actions
of the call start and stop the converter. -/
theorem mainRun_radioComm {o : List RadioAct} {r : Radio}
    (hmain : d.main = .radioComm)
    (h : radioComm d.radio i = ⟨o, some r⟩) :
    ∃ n, mainRun conv d i n =
      ⟨o.map .radio, some (d.afterActs o r .test)⟩ := by
  obtain ⟨t, hacc, hrest⟩ := Traced.ofOption_bind_eq_mk_iff.mp h
  have hcall : t.call = d.radio.call := by
    obtain ⟨buf, -, rfl⟩ := Option.map_eq_some_iff.mp hacc
    rfl
  by_cases hc : t.complete
  · rw [if_pos hc] at hrest
    obtain ⟨o', rfl, hloop⟩ := Traced.emit_bind_eq_mk_iff.mp hrest
    obtain ⟨call, o₁, hscan, hret, rfl⟩ := Traced.bind_eq_mk_iff.mp hloop
    obtain ⟨rfl, rfl⟩ := Traced.pure_eq_mk_iff.mp hret
    have henter : mainLoopStep d i =
        ⟨[.radio (.stringSend (t.buf.cells.take t.nbytes))],
          some { d with radio := t, main := .scanning 0 i.len }⟩ := by
      rw [mainLoopStep, hmain]
      simp only [enterRadioComm, hacc, Traced.ofOption_some, pure_bind,
        if_pos hc]
      rfl
    obtain ⟨n, hn⟩ := mainRun_scanning conv (i := i)
      (d := { d with radio := t, main := .scanning 0 i.len }) rfl
      (Nat.le_add_left _ _) (Traced.eq_mk_of_res hscan)
    refine ⟨1 + n, ?_⟩
    rw [mainRun_add, mainRun_one, henter, Traced.mk_bind, hn, List.append_nil]
    rfl
  · rw [if_neg hc] at hrest
    obtain ⟨rfl, rfl⟩ := Traced.pure_eq_mk_iff.mp hrest
    refine ⟨1, ?_⟩
    rw [mainRun_one, mainLoopStep, hmain]
    simp only [enterRadioComm, hacc, Traced.ofOption_some, pure_bind,
      if_neg hc]
    rfl

end Main

/-! ### Forgetting what is attached to the samples -/

section Map

variable {α β : Type} (f : α → β)

theorem Device.handed_map (d : Device α) : (d.map f).handed =
    { d.handed with samples := d.handed.samples.map f } :=
  congrArg (Handed.mk _ _ _) (Adc.block_map f d.adc _)

theorem enterRadioComm_map (d : Device α) (i : RadioIn) :
    enterRadioComm (d.map f) i =
      (enterRadioComm d i).image (DeviceOut.map f) (Device.map f) := by
  have hradio : (d.map f).radio = d.radio := rfl
  unfold enterRadioComm
  rw [hradio]
  rcases accumulate d.radio i.chunk with - | r
  · rfl
  · rw [Traced.ofOption_some, Traced.ofOption_some, pure_bind, pure_bind]
    rcases r.complete with - | - <;> rfl

theorem scanTurn_map (d : Device α) (c : Nat) (len : UInt8) :
    scanTurn (d.map f) c len =
      (scanTurn d c len).image (DeviceOut.map f) (Device.map f) := by
  have hradio : (d.map f).radio = d.radio := rfl
  unfold scanTurn
  rw [hradio]
  by_cases hc : c < d.radio.nbytes
  · rw [if_pos hc, if_pos hc]
    rcases scanBody d.radio.buf.cells d.radio.nbytes c len d.radio.call with
      ⟨out, - | next⟩
    · simp [Traced.image, DeviceOut.map]
    · rfl
  · rw [if_neg hc, if_neg hc]
    rfl

theorem testFinished_map (d : Device α) : testFinished (d.map f) =
    (testFinished d).image (DeviceOut.map f) (Device.map f) := by
  have hn : (d.map f).adc.nConvFinished = d.adc.nConvFinished := rfl
  unfold testFinished
  rw [hn, Device.handed_map]
  by_cases hc : d.adc.nConvFinished ≠ 0
  · rw [if_pos hc, if_pos hc]
    rfl
  · rw [if_neg hc, if_neg hc]
    rfl

theorem mainLoopStep_map (d : Device α) (i : RadioIn) :
    mainLoopStep (d.map f) i =
      (mainLoopStep d i).image (DeviceOut.map f) (Device.map f) := by
  obtain ⟨adc, radio, main⟩ := d
  rcases main with - | ⟨c, len⟩ | ⟨- | ⟨a, todo⟩, next⟩ | - | -
  · exact enterRadioComm_map f _ i
  · exact scanTurn_map f _ c len
  · rfl
  · rcases a with - | - | - | ⟨- | - | -, s⟩ <;> rfl
  · exact testFinished_map f _
  · rfl

theorem irqStep_map (conv : UInt32 → α) (d : Device α) (dr : UInt32) :
    irqStep (fun r => f (conv r)) (d.map f) dr =
      (irqStep conv d dr).image (DeviceOut.map f) (Device.map f) := by
  unfold irqStep
  have hen : (d.map f).adc.irqEnabled = d.adc.irqEnabled := rfl
  have hirq := adcIRQHandler_map f conv d.adc dr
  rw [hen]
  by_cases h : d.adc.irqEnabled
  · simp only [if_pos h, Traced.image, List.map_map, Option.map_map]
    change Traced.mk ((adcIRQHandler (fun r => f (conv r)) (d.adc.map f)
      dr).out.map _) (Option.map _ (adcIRQHandler (fun r => f (conv r))
        (d.adc.map f) dr).res) = _
    rw [hirq, Traced.map_out, Traced.map_res, Option.map_map]
    rfl
  · simp only [if_neg h]
    rfl

/-- **Erasure.**  What is attached to the samples does not influence the
device. -/
theorem deviceStep_map (conv : UInt32 → α) (d : Device α) (a : DeviceAct) :
    deviceStep (fun r => f (conv r)) (d.map f) a =
      (deviceStep conv d a).image (DeviceOut.map f) (Device.map f) := by
  cases a with
  | irq dr => exact irqStep_map f conv d dr
  | main i => exact mainLoopStep_map f d i

end Map

end Roip
