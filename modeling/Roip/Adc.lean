/-
Roip/Adc.lean

The sampling interrupt of `adc.c`: two blocks of `BLOCK_SIZE` samples, one
being filled by the interrupt handler and one holding the last result.

The handler is generic in what a sample is: `conv` turns the reading of the
data register into a cell of the block.  The device uses `toSample`; a ghost
reading may be attached to every sample by another `conv`, and `Adc.map`
forgets it again (`adcIRQHandler_map`).
-/
import Roip.Lib.Run
import Roip.Lib.CArray

namespace Roip

/-- `BLOCK_SIZE`. -/
def blockSize : Nat := 160 * 4

theorem blockSize_pos : 0 < blockSize := by decide

/-- The two blocks `x1` and `x2`. -/
inductive Block
  | x1
  | x2
deriving DecidableEq, Repr

/-- The variables of `adc.c`, and the enable bit of the ADC interrupt. -/
structure Adc (α : Type*) where
  x1 : CArray α blockSize
  x2 : CArray α blockSize
  blockResult : Block
  blockFill : Block
  nSamples : Nat
  nConvFinished : UInt8
  irqEnabled : Bool
  /-- whether `ADC_init` was given a callback -/
  sendSamples : Bool
deriving DecidableEq

/-- The arguments of a `send_samples` callback: pointer and length. -/
structure AdcFinished where
  ptr : Block
  len : Nat
deriving DecidableEq, Repr

namespace Adc

variable {α β : Type*}

/-- The block a pointer points to. -/
def block (a : Adc α) : Block → CArray α blockSize
  | .x1 => a.x1
  | .x2 => a.x2

/-- Replace the contents of a block. -/
def setBlock (a : Adc α) (b : Block) (c : CArray α blockSize) : Adc α :=
  match b with
  | .x1 => { a with x1 := c }
  | .x2 => { a with x2 := c }

/-- Apply a function to every sample of both blocks. -/
def map (f : α → β) (a : Adc α) : Adc β :=
  { a with x1 := a.x1.map f, x2 := a.x2.map f }

@[simp] theorem block_setBlock (a : Adc α) (b : Block)
    (c : CArray α blockSize) : (a.setBlock b c).block b = c := by
  cases b <;> rfl

@[simp] theorem setBlock_blockFill (a : Adc α) (b : Block)
    (c : CArray α blockSize) : (a.setBlock b c).blockFill = a.blockFill := by
  cases b <;> rfl

@[simp] theorem setBlock_blockResult (a : Adc α) (b : Block)
    (c : CArray α blockSize) :
    (a.setBlock b c).blockResult = a.blockResult := by
  cases b <;> rfl

@[simp] theorem setBlock_nSamples (a : Adc α) (b : Block)
    (c : CArray α blockSize) : (a.setBlock b c).nSamples = a.nSamples := by
  cases b <;> rfl

@[simp] theorem setBlock_nConvFinished (a : Adc α) (b : Block)
    (c : CArray α blockSize) :
    (a.setBlock b c).nConvFinished = a.nConvFinished := by
  cases b <;> rfl

@[simp] theorem setBlock_irqEnabled (a : Adc α) (b : Block)
    (c : CArray α blockSize) :
    (a.setBlock b c).irqEnabled = a.irqEnabled := by
  cases b <;> rfl

@[simp] theorem setBlock_sendSamples (a : Adc α) (b : Block)
    (c : CArray α blockSize) :
    (a.setBlock b c).sendSamples = a.sendSamples := by
  cases b <;> rfl

end Adc

section Interrupt

universe u

variable {α β : Type u}

/-- `ADC_init`: the interrupt stays disabled, the two pointers are set; the
blocks and counters have their static initial value. -/
def adcInit (zero : α) (fn : Bool) : Adc α where
  x1 := CArray.fill blockSize zero
  x2 := CArray.fill blockSize zero
  blockResult := .x2
  blockFill := .x1
  nSamples := 0
  nConvFinished := 0
  irqEnabled := false
  sendSamples := fn

/-- `ADC_start`. -/
def adcStart (a : Adc α) : Adc α := { a with irqEnabled := true }

/-- `ADC_stop`. -/
def adcStop (a : Adc α) : Adc α := { a with irqEnabled := false }

@[simp] theorem adcStart_blockFill (a : Adc α) :
    (adcStart a).blockFill = a.blockFill := rfl

@[simp] theorem adcStart_blockResult (a : Adc α) :
    (adcStart a).blockResult = a.blockResult := rfl

@[simp] theorem adcStart_nConvFinished (a : Adc α) :
    (adcStart a).nConvFinished = a.nConvFinished := rfl

@[simp] theorem adcStart_sendSamples (a : Adc α) :
    (adcStart a).sendSamples = a.sendSamples := rfl

@[simp] theorem adcStart_irqEnabled (a : Adc α) :
    (adcStart a).irqEnabled = true := rfl

/-- The sample the handler stores:
`(int16_t)((int16_t)(uaccept & 0xFFF0) - 0x8000)`, where `uaccept` is the
data register cut to 16 bits. -/
def toSample (dr : UInt32) : Int16 :=
  let uaccept : UInt16 := dr.toUInt16
  Int16.ofInt ((uaccept &&& 0xFFF0).toInt16.toInt - 0x8000)

/-- `block_fill[nSamples] = sample; nSamples++;`, undefined behind the end of
the block. -/
def storeSample (a : Adc α) (v : α) : Option (Adc α) :=
  ((a.block a.blockFill).set a.nSamples v).map fun fill =>
    { a.setBlock a.blockFill fill with nSamples := a.nSamples + 1 }

/-- The end of a block: exchange the pointers, call back, inform the main
loop. -/
def blockFinished (a : Adc α) : Traced AdcFinished (Adc α) := do
  let res := a.blockResult
  let a := { a with blockResult := a.blockFill, blockFill := res }
  -- the pointers have been exchanged, so the block just filled is reported
  if a.sendSamples then
    Traced.emit (AdcFinished.mk a.blockResult (a.nSamples + 1))
  pure { a with nConvFinished := a.nConvFinished + 1, nSamples := 0 }

/-- `ADC_IRQHandler`. -/
def adcIRQHandler (conv : UInt32 → α) (a : Adc α) (dr : UInt32) :
    Traced AdcFinished (Adc α) := do
  let a ← Traced.ofOption (storeSample (adcStart a) (conv dr))
  if a.nSamples ≥ blockSize then blockFinished a else pure a

/-! ### What one interrupt does -/

variable {conv : UInt32 → α} {a : Adc α} {dr : UInt32} {v : α}

/-- The block being filled, after the store. -/
def stored (a : Adc α) (v : α) : CArray α blockSize :=
  ⟨(a.block a.blockFill).cells.set a.nSamples v, by
    simp [(a.block a.blockFill).size]⟩

@[simp] theorem stored_cells : (stored a v).cells =
    (a.block a.blockFill).cells.set a.nSamples v := rfl

/-- The state after a sample that does not complete the block. -/
def afterMore (a : Adc α) (v : α) : Adc α :=
  { (adcStart a).setBlock a.blockFill (stored a v) with
    nSamples := a.nSamples + 1 }

/-- The state after the sample that completes the block. -/
def afterLast (a : Adc α) (v : α) : Adc α :=
  { (adcStart a).setBlock a.blockFill (stored a v) with
    nSamples := 0
    nConvFinished := a.nConvFinished + 1
    blockResult := a.blockFill
    blockFill := a.blockResult }

theorem storeSample_adcStart (h : a.nSamples < blockSize) :
    storeSample (adcStart a) v = some (afterMore a v) := by
  have hset : (a.block a.blockFill).set a.nSamples v = some (stored a v) :=
    CArray.set_eq_some_iff.mpr ⟨h, rfl⟩
  change Option.map _ ((a.block a.blockFill).set a.nSamples v) = _
  rw [hset]
  rfl

/-- What the end of a block does. -/
theorem blockFinished_eq (a : Adc α) : blockFinished a =
    ⟨if a.sendSamples then [⟨a.blockFill, a.nSamples + 1⟩] else [],
      some { a with
        nSamples := 0
        nConvFinished := a.nConvFinished + 1
        blockResult := a.blockFill
        blockFill := a.blockResult }⟩ := by
  unfold blockFinished
  rcases h : a.sendSamples with - | - <;> simp [Traced.ext_iff]

theorem blockFinished_afterMore (h : a.nSamples + 1 = blockSize) :
    blockFinished (afterMore a v) =
      ⟨if a.sendSamples then [⟨a.blockFill, blockSize + 1⟩] else [],
        some (afterLast a v)⟩ := by
  rw [blockFinished_eq, ← h]
  simp [afterMore, afterLast]

/-- A sample inside the block. -/
theorem adcIRQHandler_more (h : a.nSamples + 1 < blockSize) :
    adcIRQHandler conv a dr = pure (afterMore a (conv dr)) := by
  have hn : ¬ (afterMore a (conv dr)).nSamples ≥ blockSize :=
    Nat.not_le.mpr h
  unfold adcIRQHandler
  rw [storeSample_adcStart (Nat.lt_of_succ_lt h), Traced.ofOption_some,
    pure_bind, if_neg hn]

/-- The sample that completes the block. -/
theorem adcIRQHandler_last (h : a.nSamples + 1 = blockSize) :
    adcIRQHandler conv a dr =
      ⟨if a.sendSamples then [⟨a.blockFill, blockSize + 1⟩] else [],
        some (afterLast a (conv dr))⟩ := by
  have hlt : a.nSamples < blockSize := Nat.lt_of_lt_of_eq (Nat.lt_succ_self _) h
  have hn : (afterMore a (conv dr)).nSamples ≥ blockSize := Nat.le_of_eq h.symm
  unfold adcIRQHandler
  rw [storeSample_adcStart hlt, Traced.ofOption_some, pure_bind, if_pos hn,
    blockFinished_afterMore h]

/-- A store behind the end of the block. -/
theorem adcIRQHandler_over (h : blockSize ≤ a.nSamples) :
    adcIRQHandler conv a dr = Traced.undef := by
  have hset : (a.block a.blockFill).set a.nSamples (conv dr) = none :=
    if_neg (Nat.not_lt.mpr h)
  have hstore : storeSample (adcStart a) (conv dr) = none := by
    change Option.map _ ((a.block a.blockFill).set a.nSamples (conv dr)) = _
    rw [hset]
    rfl
  unfold adcIRQHandler
  rw [hstore, Traced.ofOption_none, Traced.undef_bind]

/-- The part filled so far, after the store. -/
theorem take_stored (a : Adc α) (h : a.nSamples < blockSize) :
    (stored a v).cells.take (a.nSamples + 1) =
      (a.block a.blockFill).cells.take a.nSamples ++ [v] := by
  have hlen : a.nSamples < (a.block a.blockFill).cells.length := by
    rwa [(a.block a.blockFill).size]
  rw [stored_cells, List.take_set, List.take_add_one,
    List.getElem?_eq_getElem hlen, Option.toList_some,
    List.set_append_right _ _ (List.length_take_le _ _), List.length_take,
    Nat.min_eq_left (Nat.le_of_lt hlen), Nat.sub_self]
  rfl

/-- The blocks after a sample inside the block ... -/
theorem block_afterMore_fill (a : Adc α) :
    (afterMore a v).block (afterMore a v).blockFill = stored a v := by
  cases h : a.blockFill <;> simp [afterMore, Adc.block, Adc.setBlock, h]

theorem block_afterMore_result {a : Adc α}
    (h : a.blockFill ≠ a.blockResult) :
    (afterMore a v).block (afterMore a v).blockResult =
      a.block a.blockResult := by
  cases hf : a.blockFill <;> cases hr : a.blockResult <;>
    simp_all [afterMore, Adc.block, Adc.setBlock, adcStart]

/-- ... and after the last one. -/
theorem block_afterLast_result (a : Adc α) :
    (afterLast a v).block (afterLast a v).blockResult = stored a v := by
  cases h : a.blockFill <;> simp [afterLast, Adc.block, Adc.setBlock, h]

/-- The completed block: what had been filled, and the last sample. -/
theorem cells_afterLast_result {a : Adc α} (h : a.nSamples + 1 = blockSize) :
    ((afterLast a v).block (afterLast a v).blockResult).cells =
      (a.block a.blockFill).cells.take a.nSamples ++ [v] := by
  have htake := take_stored (v := v) a (Nat.lt_of_succ_le (Nat.le_of_eq h))
  rw [h, List.take_of_length_le (Nat.le_of_eq (stored _ _).size)] at htake
  rw [block_afterLast_result, htake]

/-! ### Forgetting what is attached to the samples -/

theorem Adc.block_map (f : α → β) (a : Adc α) (b : Block) :
    (a.map f).block b = (a.block b).map f := by
  cases b <;> rfl

theorem stored_map (f : α → β) (a : Adc α) (v : α) :
    (stored a v).map f = stored (a.map f) (f v) := by
  refine CArray.ext ?_
  rw [CArray.map_cells, stored_cells, stored_cells, Adc.block_map,
    CArray.map_cells, List.map_set]
  rfl

theorem afterMore_map (f : α → β) (a : Adc α) (v : α) :
    (afterMore a v).map f = afterMore (a.map f) (f v) := by
  unfold afterMore
  rw [← stored_map]
  cases h : a.blockFill <;> simp [Adc.map, Adc.setBlock, adcStart, h]

theorem afterLast_map (f : α → β) (a : Adc α) (v : α) :
    (afterLast a v).map f = afterLast (a.map f) (f v) := by
  unfold afterLast
  rw [← stored_map]
  cases h : a.blockFill <;> simp [Adc.map, Adc.setBlock, adcStart, h]

/-- **Erasure.**  The handler does the same to samples with something
attached to them as to the samples themselves. -/
theorem adcIRQHandler_map (f : α → β) (conv : UInt32 → α) (a : Adc α)
    (dr : UInt32) :
    adcIRQHandler (fun r => f (conv r)) (a.map f) dr =
      Adc.map f <$> adcIRQHandler conv a dr := by
  have hn : (a.map f).nSamples = a.nSamples := rfl
  rcases Nat.lt_trichotomy (a.nSamples + 1) blockSize with h | h | h
  · rw [adcIRQHandler_more (by rwa [hn]), adcIRQHandler_more h, map_pure,
      afterMore_map]
  · rw [adcIRQHandler_last (by rwa [hn]), adcIRQHandler_last h]
    refine Traced.ext (by rw [Traced.map_out]; rfl) ?_
    simp [afterLast_map]
  · have h' : blockSize ≤ a.nSamples := Nat.le_of_lt_succ h
    rw [adcIRQHandler_over (by rwa [hn]), adcIRQHandler_over h']
    rfl

end Interrupt

end Roip
