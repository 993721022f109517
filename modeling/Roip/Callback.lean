/-
Roip/Callback.lean

The callback of the ADC interrupt handler.

A finished block can be taken in two ways: the main loop reads `BLOCK_SIZE`
samples behind `block_result`, and a callback given to `ADC_init` gets a
pointer and a length.  The handler counts the last sample before it calls
back, and adds one to the count once more: the pointer is the one of the main
loop (`callback_block`), and the length is one too large.  What the two say
about a block therefore never agrees (`callbacks_iff`).
-/
import Roip.Adc
import Roip.Lib.Mailbox

namespace Roip

universe u

variable {α : Type u}

/-! ### Runs of the handler -/

/-- A run of the handler, with the reading of the data register, and what the
main loop does to the variables of `adc.c` between two of them. -/
inductive AdcAct
  | irq (dr : UInt32)
  | start
  | stop
  /-- `n_conv_finished = 0` -/
  | clear
deriving DecidableEq

def adcStep (conv : UInt32 → α) (a : Adc α) :
    AdcAct → Traced AdcFinished (Adc α)
  | .irq dr => adcIRQHandler conv a dr
  | .start => pure (adcStart a)
  | .stop => pure (adcStop a)
  | .clear => pure { a with nConvFinished := 0 }

/-- The samples of the interrupts among the steps. -/
def sampled (conv : UInt32 → α) (acts : List AdcAct) : List α :=
  acts.filterMap fun
    | .irq dr => some (conv dr)
    | _ => none

/-- The `f.len` samples behind the pointer of a callback, unless some of them
lie outside the block. -/
def Adc.behind (a : Adc α) (f : AdcFinished) : Option (List α) :=
  if f.len ≤ blockSize then some ((a.block f.ptr).cells.take f.len) else none

/-- The `k`-th callback (from zero) denotes the `k`-th block of the samples,
and so does `block_result`.  The variables are those behind the handler, which
changes no block after the callback. -/
def CallbacksAgree (zero : α) (conv : UInt32 → α) (acts : List AdcAct) :
    Prop :=
  ∀ pre act post o a o' a' f, acts = pre ++ act :: post →
    run (adcStep conv) (adcInit zero true) pre = ⟨o, some a⟩ →
    adcStep conv a act = ⟨o', some a'⟩ → f ∈ o' →
    let block := blockAt blockSize (sampled conv (pre ++ [act])) o.length
    a'.behind f = some block ∧ (a'.block a'.blockResult).cells = block

/-! ### The blocks as a mailbox -/

section Steps

variable {xs : List α} {blocks : List (List α)} {a : Adc α}

/-- The part of the block being filled that has been filled. -/
def Adc.part (a : Adc α) : List α :=
  (a.block a.blockFill).cells.take a.nSamples

/-- The samples `xs` have been put, and the completed `blocks` have been
called back; nothing waits. -/
structure Sampled (xs : List α) (blocks : List (List α)) (a : Adc α) :
    Prop where
  blocks_ne : a.blockFill ≠ a.blockResult
  registered : a.sendSamples = true
  nSamples : a.nSamples < blockSize
  accounts : Mailbox.Accounts blockSize xs blocks ⟨none, a.part⟩

theorem Adc.part_length (h : a.nSamples < blockSize) :
    a.part.length = a.nSamples := by
  rw [Adc.part, List.length_take, (a.block a.blockFill).size]
  exact Nat.min_eq_left (Nat.le_of_lt h)

theorem sampled_init (zero : α) : Sampled [] [] (adcInit zero true) where
  blocks_ne := by simp [adcInit]
  registered := rfl
  nSamples := blockSize_pos
  accounts := .init blockSize_pos

/-- **An interrupt** puts its sample.  With the last sample of a block the
handler calls back: the pointer is `block_result`, behind which the block now
stands, and the length is one too large. -/
theorem Sampled.irq (h : Sampled xs blocks a) (conv : UInt32 → α)
    (dr : UInt32) :
    (∃ a', adcStep conv a (.irq dr) = pure a' ∧
      Sampled (xs ++ [conv dr]) blocks a') ∨
    ∃ a' b, adcStep conv a (.irq dr) =
        ⟨[⟨a'.blockResult, blockSize + 1⟩], some a'⟩ ∧
      (a'.block a'.blockResult).cells =
        blockAt blockSize (xs ++ [conv dr]) blocks.length ∧
      Sampled (xs ++ [conv dr]) (blocks ++ [b]) a' := by
  have hlen := Adc.part_length h.nSamples
  have hput := h.accounts.put (conv dr) fun _ => rfl
  by_cases hmore : a.nSamples + 1 < blockSize
  · left
    refine ⟨afterMore a (conv dr), adcIRQHandler_more hmore, ?_, ?_, hmore, ?_⟩
    · simpa [afterMore] using h.blocks_ne
    · simpa [afterMore] using h.registered
    · have hpart := take_stored (v := conv dr) a h.nSamples
      rw [Mailbox.put, if_pos (by simp [hlen, hmore])] at hput
      rw [Adc.part, block_afterMore_fill]
      exact hpart ▸ hput
  · right
    have hlast : a.nSamples + 1 = blockSize := by have := h.nSamples; omega
    rw [Mailbox.put, if_neg (by simp [hlen, hmore])] at hput
    refine ⟨afterLast a (conv dr), a.part ++ [conv dr], ?_, ?_, ?_⟩
    · show adcIRQHandler conv a dr = _
      rw [adcIRQHandler_last hlast, if_pos h.registered]
      rfl
    · rw [cells_afterLast_result hlast]
      exact hput.pend_eq rfl
    · refine ⟨fun e => h.blocks_ne e.symm, ?_, blockSize_pos, hput.take rfl⟩
      simpa [afterLast] using h.registered

/-- What the main loop does puts no sample. -/
theorem Sampled.main (h : Sampled xs blocks a) (conv : UInt32 → α)
    {act : AdcAct} (hact : ∀ dr, act ≠ .irq dr) :
    ∃ a', adcStep conv a act = pure a' ∧ Sampled xs blocks a' := by
  have hsame : Sampled xs blocks (adcStart a) ∧ Sampled xs blocks (adcStop a) ∧
      Sampled xs blocks { a with nConvFinished := 0 } :=
    ⟨⟨h.1, h.2, h.3, h.4⟩, ⟨h.1, h.2, h.3, h.4⟩, ⟨h.1, h.2, h.3, h.4⟩⟩
  cases act with
  | irq dr => exact absurd rfl (hact dr)
  | start => exact ⟨_, rfl, hsame.1⟩
  | stop => exact ⟨_, rfl, hsame.2.1⟩
  | clear => exact ⟨_, rfl, hsame.2.2⟩

end Steps

/-! ### Whole runs -/

section Runs

variable {zero : α} {conv : UInt32 → α} {acts : List AdcAct}

@[simp] theorem sampled_append (acts acts' : List AdcAct) :
    sampled conv (acts ++ acts') = sampled conv acts ++ sampled conv acts' :=
  List.filterMap_append

theorem sampled_main {act : AdcAct} (h : ∀ dr, act ≠ .irq dr) :
    sampled conv [act] = [] := by
  cases act with
  | irq dr => exact absurd rfl (h dr)
  | start | stop | clear => rfl

/-- One step: the samples are put, and if there is a callback, it is the only
one, for the next block. -/
theorem Sampled.step {xs : List α} {blocks : List (List α)} {a : Adc α}
    (h : Sampled xs blocks a) (conv : UInt32 → α) (act : AdcAct) :
    ∃ o a' blocks', adcStep conv a act = ⟨o, some a'⟩ ∧
      Sampled (xs ++ sampled conv [act]) (blocks ++ blocks') a' ∧
      blocks'.length = o.length ∧
      ∀ f ∈ o, f = ⟨a'.blockResult, blockSize + 1⟩ ∧
        (a'.block a'.blockResult).cells =
          blockAt blockSize (xs ++ sampled conv [act]) blocks.length := by
  by_cases hact : ∃ dr, act = .irq dr
  · obtain ⟨dr, rfl⟩ := hact
    rcases h.irq conv dr with ⟨a', hstep, ha⟩ |
      ⟨a', b, hstep, hcells, ha⟩
    · exact ⟨[], a', [], hstep, by rwa [List.append_nil], rfl,
        fun f hf => absurd hf List.not_mem_nil⟩
    · exact ⟨_, a', [b], hstep, ha, rfl,
        List.forall_mem_singleton.mpr ⟨rfl, hcells⟩⟩
  · have hact' : ∀ dr, act ≠ .irq dr := fun dr e => hact ⟨dr, e⟩
    obtain ⟨a', hstep, ha⟩ := h.main conv hact'
    rw [sampled_main hact', List.append_nil]
    exact ⟨[], a', [], hstep, by rwa [List.append_nil], rfl,
      fun f hf => absurd hf List.not_mem_nil⟩

/-- In every run as many blocks are completed as callbacks are made. -/
theorem run_sampled (zero : α) (conv : UInt32 → α) (acts : List AdcAct) :
    ∃ o a blocks, run (adcStep conv) (adcInit zero true) acts =
        ⟨o, some a⟩ ∧
      Sampled (sampled conv acts) blocks a ∧ blocks.length = o.length := by
  induction acts using List.reverseRecOn with
  | nil => exact ⟨[], _, [], rfl, sampled_init zero, rfl⟩
  | append_singleton acts act ih =>
    obtain ⟨o, a, blocks, hr, ha, hlen⟩ := ih
    obtain ⟨o', a', blocks', hstep, ha', hlen', -⟩ := ha.step conv act
    rw [sampled_append]
    refine ⟨o ++ o', a', blocks ++ blocks', ?_, ha', ?_⟩
    · rw [run_concat, hr, Traced.mk_bind, hstep]
    · rw [List.length_append, List.length_append, hlen, hlen']

/-- A callback is made for every completed block. -/
theorem length_callbacks (zero : α) (conv : UInt32 → α)
    (acts : List AdcAct) :
    (run (adcStep conv) (adcInit zero true) acts).out.length =
      (sampled conv acts).length / blockSize := by
  obtain ⟨o, a, blocks, hr, ha, hlen⟩ := run_sampled zero conv acts
  have hcount := ha.accounts.completed
  rw [Option.toList_none, List.length_nil, Nat.add_zero, hlen] at hcount
  rw [hr, hcount]

/-- **The callbacks of a run**: the `k`-th one gets the pointer of the main
loop, behind which the `k`-th block stands, and a length that is one too
large. -/
theorem callback_block {pre : List AdcAct} {act : AdcAct}
    {o o' : List AdcFinished} {a a' : Adc α} {f : AdcFinished}
    (hr : run (adcStep conv) (adcInit zero true) pre = ⟨o, some a⟩)
    (hstep : adcStep conv a act = ⟨o', some a'⟩) (hf : f ∈ o') :
    f = ⟨a'.blockResult, blockSize + 1⟩ ∧
      (a'.block a'.blockResult).cells =
        blockAt blockSize (sampled conv (pre ++ [act])) o.length := by
  obtain ⟨o₁, a₁, blocks, hr₁, ha, hlen⟩ := run_sampled zero conv pre
  cases hr.symm.trans hr₁
  obtain ⟨o₂, a₂, blocks', hstep₂, -, -, hcall⟩ := ha.step conv act
  cases hstep.symm.trans hstep₂
  rw [sampled_append, ← hlen]
  exact hcall f hf

/-- The length of a callback leaves the block. -/
theorem callback_behind {pre : List AdcAct} {act : AdcAct}
    {o o' : List AdcFinished} {a a' : Adc α} {f : AdcFinished}
    (hr : run (adcStep conv) (adcInit zero true) pre = ⟨o, some a⟩)
    (hstep : adcStep conv a act = ⟨o', some a'⟩) (hf : f ∈ o') :
    a'.behind f = none := by
  rw [(callback_block hr hstep hf).1, Adc.behind,
    if_neg (Nat.not_succ_le_self _)]

/-- With a completed block the consumers disagree. -/
theorem callbacks_disagree (h : blockSize ≤ (sampled conv acts).length) :
    ¬ CallbacksAgree zero conv acts := by
  intro hagree
  have hpos :
      0 < (run (adcStep conv) (adcInit zero true) acts).out.length := by
    rw [length_callbacks]
    exact Nat.div_pos h blockSize_pos
  obtain ⟨f, hf⟩ := List.exists_mem_of_length_pos hpos
  obtain ⟨o, a, act, ⟨pre, post, hacts, hr⟩, hf⟩ := exists_feeds_of_mem_out hf
  obtain ⟨o₁, a₁, blocks, hr₁, ha, -⟩ := run_sampled zero conv pre
  cases hr.symm.trans hr₁
  obtain ⟨o', a', -, hstep, -, -, -⟩ := ha.step conv act
  rw [hstep] at hf
  have hsome := (hagree pre act post o a o' a' f hacts hr hstep hf).1
  rw [callback_behind hr hstep hf] at hsome
  cases hsome

end Runs

/-- **When the consumers agree.**  The callbacks of a run and the main loop
agree if and only if no block is completed in it. -/
theorem callbacks_iff (zero : α) (conv : UInt32 → α) (acts : List AdcAct) :
    CallbacksAgree zero conv acts ↔
      (sampled conv acts).length < blockSize := by
  constructor
  · intro h
    by_contra hfull
    exact callbacks_disagree (Nat.le_of_not_lt hfull) h
  · intro hfew pre act post o a o' a' f hacts hr hstep hf
    -- a callback needs a completed block
    exfalso
    have hone := length_callbacks zero conv (pre ++ [act])
    rw [run_concat, hr, Traced.mk_bind, hstep] at hone
    have hpos : 0 < (sampled conv (pre ++ [act])).length / blockSize := by
      rw [← hone]
      exact Nat.lt_of_lt_of_le (List.length_pos_of_mem hf) (by simp)
    have hle : blockSize ≤ (sampled conv (pre ++ [act])).length :=
      (Nat.div_pos_iff.mp hpos).2
    rw [hacts, ← List.singleton_append, ← List.append_assoc, sampled_append,
      List.length_append] at hfew
    omega

/-- One block of silence. -/
theorem not_callbacks : ¬ CallbacksAgree (0 : Int16) toSample
    (List.replicate blockSize (.irq 0x8000)) := by
  refine callbacks_disagree (Nat.le_of_eq ?_)
  rw [sampled, List.filterMap_replicate]
  exact List.length_replicate.symm

end Roip
