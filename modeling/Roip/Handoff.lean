/-
Roip/Handoff.lean

The hand-off of sample blocks from the ADC interrupt to the main loop.

The interrupt handler is one atomic step.  The main loop takes a block in
many: it tests `n_conv_finished` and takes `block_result`, reads the samples
one by one (`spudp_send` does, in pieces of 160), and clears
`n_conv_finished` at the end.  Interrupts may come between any two of these.

The pair of blocks implements a mailbox with one place (`Represents`): an
interrupt puts a sample, the end of a consumption takes the waiting block,
everything else leaves the mailbox as it is.  As long as a consumption ends
before the next block is complete (`Timely`), the blocks read are therefore
the completed blocks (`handoff_exact`).
-/
import Roip.Adc
import Roip.Lib.Mailbox

namespace Roip

/-! ### The two parties -/

/-- Where the main loop stands: it polls `n_conv_finished`, or it is reading
the block behind `ptr` and has got the samples `got`. -/
inductive Consumer
  | poll
  | reading (ptr : Block) (got : List Int16)
deriving DecidableEq

structure Handoff where
  adc : Adc Int16
  main : Consumer
deriving DecidableEq

inductive HandoffAct
  /-- an ADC interrupt, with the reading of the data register -/
  | irq (dr : UInt32)
  /-- the next step of the main loop -/
  | main
deriving DecidableEq

/-- The next step of the main loop.  The block is reported when its
consumption ends. -/
def mainStep (s : Handoff) : Traced (List Int16) Handoff :=
  match s.main with
  | .poll =>
    if s.adc.nConvFinished ≠ 0 then
      pure { s with main := .reading s.adc.blockResult [] }
    else pure s
  | .reading ptr got =>
    if got.length < blockSize then do
      let x ← Traced.ofOption (s.adc.block ptr).cells[got.length]?
      pure { s with main := .reading ptr (got ++ [x]) }
    else
      ⟨[got], some { adc := { s.adc with nConvFinished := 0 }, main := .poll }⟩

def handoffStep (s : Handoff) : HandoffAct → Traced (List Int16) Handoff
  | .irq dr => Traced.ofOption
      ((adcIRQHandler toSample s.adc dr).res.map fun a => { s with adc := a })
  | .main => mainStep s

/-- After `ADC_init`, with or without a callback. -/
def handoffInit (fn : Bool) : Handoff := ⟨adcInit 0 fn, .poll⟩

/-- The samples of the interrupts among the steps. -/
def samplesOf (acts : List HandoffAct) : List Int16 :=
  acts.filterMap fun
    | .irq dr => some (toSample dr)
    | .main => none

@[simp] theorem samplesOf_append (xs ys : List HandoffAct) :
    samplesOf (xs ++ ys) = samplesOf xs ++ samplesOf ys := by
  simp [samplesOf]

@[simp] theorem samplesOf_irq (dr : UInt32) :
    samplesOf [.irq dr] = [toSample dr] := rfl

@[simp] theorem samplesOf_main : samplesOf [.main] = [] := rfl

theorem samplesOf_replicate_irq (n : Nat) (dr : UInt32) :
    samplesOf (List.replicate n (.irq dr)) =
      List.replicate n (toSample dr) := by
  simp [samplesOf]

theorem samplesOf_replicate_main (n : Nat) :
    samplesOf (List.replicate n .main) = [] := by
  simp [samplesOf]

/-- Fewer than `BLOCK_SIZE` interrupts between the one that completes a block
and the end of its consumption.  After `k` consumptions the next block to be
consumed is the one completed by interrupt number `BLOCK_SIZE * (k + 1)`, so
fewer than `BLOCK_SIZE * (k + 2)` interrupts have happened. -/
def Timely (fn : Bool) (acts : List HandoffAct) : Prop :=
  ∀ pre post, acts = pre ++ post → (samplesOf pre).length <
    blockSize * ((run handoffStep (handoffInit fn) pre).out.length + 2)

theorem Timely.of_append {fn : Bool} {xs ys : List HandoffAct}
    (h : Timely fn (xs ++ ys)) : Timely fn xs := by
  intro pre post hxs
  exact h pre (post ++ ys) (by rw [hxs, List.append_assoc])

/-! ### The double buffer is a mailbox -/

/-- The mailbox a state of the two parties stands for. -/
structure Represents (s : Handoff) (m : Mailbox Int16) : Prop where
  blocks_ne : s.adc.blockFill ≠ s.adc.blockResult
  nSamples : s.adc.nSamples = m.part.length
  part : (s.adc.block s.adc.blockFill).cells.take s.adc.nSamples = m.part
  waiting : ∀ b ∈ m.pend, (s.adc.block s.adc.blockResult).cells = b ∧
    s.adc.nConvFinished = 1
  free : m.pend = none → s.adc.nConvFinished = 0 ∧ s.main = .poll
  reading : ∀ ptr got, s.main = .reading ptr got →
    ptr = s.adc.blockResult ∧ ∃ b ∈ m.pend, got = b.take got.length

theorem represents_init (fn : Bool) :
    Represents (handoffInit fn) Mailbox.empty where
  blocks_ne := by simp [handoffInit, adcInit]
  nSamples := rfl
  part := rfl
  waiting := by simp [Mailbox.empty]
  free := fun _ => ⟨rfl, rfl⟩
  reading := by simp [handoffInit]

section Steps

variable {s : Handoff} {m : Mailbox Int16}

/-- An interrupt puts its sample into the mailbox. -/
theorem represents_irq (dr : UInt32) (h : Represents s m)
    (hlt : m.part.length < blockSize)
    (hfree : m.part.length + 1 = blockSize → m.pend = none) :
    ∃ s', handoffStep s (.irq dr) = pure s' ∧
      Represents s' (m.put blockSize (toSample dr)) := by
  have hn : s.adc.nSamples < blockSize := h.nSamples ▸ hlt
  have hpart := take_stored (v := toSample dr) s.adc hn
  rw [h.part] at hpart
  have hlen : (m.part ++ [toSample dr]).length = m.part.length + 1 := by simp
  unfold Mailbox.put
  by_cases hc : (m.part ++ [toSample dr]).length < blockSize
  · -- the block goes on
    have hmore : s.adc.nSamples + 1 < blockSize := by
      rw [h.nSamples, ← hlen]; exact hc
    refine ⟨{ s with adc := afterMore s.adc (toSample dr) }, ?_, ?_⟩
    · simp [handoffStep, adcIRQHandler_more hmore]
    · rw [if_pos hc]
      refine ⟨by simpa [afterMore] using h.blocks_ne, ?_, ?_, ?_, ?_, ?_⟩
      · simpa [afterMore] using h.nSamples
      · rw [block_afterMore_fill]
        exact hpart
      · intro b hb
        rw [block_afterMore_result h.blocks_ne]
        exact ⟨(h.waiting b hb).1, by simpa [afterMore] using (h.waiting b hb).2⟩
      · intro hnone
        exact ⟨by simpa [afterMore] using (h.free hnone).1, (h.free hnone).2⟩
      · intro ptr got hr
        simpa [afterMore] using h.reading ptr got hr
  · -- the block is complete, and the place in the mailbox is free
    have hfull : m.part.length + 1 = blockSize := by omega
    have hlast : s.adc.nSamples + 1 = blockSize := by rw [h.nSamples, hfull]
    have hnone := hfree hfull
    obtain ⟨hzero, hpoll⟩ := h.free hnone
    refine ⟨{ s with adc := afterLast s.adc (toSample dr) }, ?_, ?_⟩
    · simp [handoffStep, adcIRQHandler_last hlast]
    · rw [if_neg hc]
      refine ⟨fun e => h.blocks_ne e.symm, rfl, rfl, ?_, by simp, ?_⟩
      · intro b hb
        obtain rfl : m.part ++ [toSample dr] = b := by simpa using hb
        refine ⟨?_, by simp [afterLast, hzero]⟩
        rw [cells_afterLast_result hlast, h.part]
      · intro ptr got hr
        rw [hpoll] at hr
        cases hr

/-- A step of the main loop leaves the mailbox as it is, or ends the
consumption of the waiting block. -/
theorem represents_main (h : Represents s m)
    (hpend : ∀ b ∈ m.pend, b.length = blockSize) :
    (∃ s', handoffStep s .main = pure s' ∧ Represents s' m) ∨
      ∃ b s', m.pend = some b ∧ handoffStep s .main = ⟨[b], some s'⟩ ∧
        Represents s' m.take := by
  rcases hm : s.main with - | ⟨ptr, got⟩
  · -- polling
    left
    by_cases hc : s.adc.nConvFinished ≠ 0
    · refine ⟨{ s with main := .reading s.adc.blockResult [] }, ?_, ?_⟩
      · simp only [handoffStep, mainStep, hm, if_pos hc]
      · rcases hp : m.pend with - | b
        · exact absurd (h.free hp).1 hc
        · refine ⟨h.blocks_ne, h.nSamples, h.part, h.waiting, ?_, ?_⟩
          · intro e
            rw [hp] at e
            cases e
          · rintro ptr got hr
            cases hr
            exact ⟨rfl, b, by simp [hp], by simp⟩
    · exact ⟨s, by simp only [handoffStep, mainStep, hm, if_neg hc], h⟩
  · obtain ⟨rfl, b, hb, hgot⟩ := h.reading ptr got hm
    have hlen := hpend b hb
    have hcells := (h.waiting b hb).1
    by_cases hc : got.length < blockSize
    · -- one more sample of the waiting block
      left
      have hk : got.length < b.length := by omega
      have hx : (s.adc.block s.adc.blockResult).cells[got.length]? =
          some b[got.length] := by
        rw [hcells, List.getElem?_eq_getElem hk]
      refine ⟨⟨s.adc, .reading s.adc.blockResult (got ++ [b[got.length]])⟩,
        ?_, ?_⟩
      · simp only [handoffStep, mainStep, hm, if_pos hc, hx,
          Traced.ofOption_some, pure_bind]
      · refine ⟨h.blocks_ne, h.nSamples, h.part, h.waiting, ?_, ?_⟩
        · intro e
          rw [e] at hb
          cases hb
        · rintro ptr got' hr
          cases hr
          refine ⟨rfl, b, hb, ?_⟩
          rw [List.length_append, List.length_singleton, List.take_add_one,
            List.getElem?_eq_getElem hk, Option.toList_some, ← hgot]
    · -- the end of the consumption
      right
      have hall : got = b := by
        rw [hgot, List.take_of_length_le (by omega)]
      refine ⟨b, ⟨{ s.adc with nConvFinished := 0 }, .poll⟩, hb, ?_, ?_⟩
      · simp only [handoffStep, mainStep, hm]
        rw [if_neg hc, hall]
      · exact ⟨h.blocks_ne, h.nSamples, h.part, by simp [Mailbox.take],
          fun _ => ⟨rfl, rfl⟩, by simp⟩

end Steps

/-! ### Whole runs -/

/-- An interrupt reports no block. -/
theorem run_irq_out (s : Handoff) (acts : List HandoffAct) (dr : UInt32) :
    (run handoffStep s (acts ++ [.irq dr])).out =
      (run handoffStep s acts).out := by
  rw [run_concat, Traced.bind_out]
  rcases (run handoffStep s acts).res with - | t <;> simp [handoffStep]

/-- In a timely run the two parties stand for a mailbox that has lost
nothing. -/
theorem run_represents (fn : Bool) {acts : List HandoffAct}
    (ht : Timely fn acts) :
    ∃ out s m, run handoffStep (handoffInit fn) acts = ⟨out, some s⟩ ∧
      Represents s m ∧ Mailbox.Accounts blockSize (samplesOf acts) out m := by
  induction acts using List.reverseRecOn with
  | nil =>
    exact ⟨[], _, _, rfl, represents_init fn, .init blockSize_pos⟩
  | append_singleton acts a ih =>
    obtain ⟨out, s, m, hr, hrep, hacc⟩ := ih ht.of_append
    cases a with
    | irq dr =>
      have hfree : m.part.length + 1 = blockSize → m.pend = none := by
        intro hfull
        rcases hp : m.pend with - | b
        · rfl
        · -- two blocks complete and neither consumed: not timely
          exfalso
          have hlt := ht (acts ++ [.irq dr]) [] (by simp)
          rw [run_irq_out, hr, samplesOf_append, samplesOf_irq,
            List.length_append, List.length_singleton, hacc.length_eq, hp,
            Option.toList_some, List.length_singleton, Nat.add_assoc, hfull,
            ← Nat.mul_succ] at hlt
          exact Nat.lt_irrefl _ hlt
      obtain ⟨s', hs', hrep'⟩ :=
        represents_irq dr hrep hacc.part_length hfree
      refine ⟨out, s', m.put blockSize (toSample dr), ?_, hrep', ?_⟩
      · rw [run_concat, hr, Traced.mk_bind, hs']
        simp
      · rw [samplesOf_append, samplesOf_irq]
        exact hacc.put _ hfree
    | main =>
      rw [samplesOf_append, samplesOf_main, List.append_nil]
      rcases represents_main hrep hacc.pend_length with
        ⟨s', hs', hrep'⟩ | ⟨b, s', hb, hs', hrep'⟩
      · refine ⟨out, s', m, ?_, hrep', hacc⟩
        rw [run_concat, hr, Traced.mk_bind, hs']
        simp
      · refine ⟨out ++ [b], s', m.take, ?_, hrep', hacc.take hb⟩
        rw [run_concat, hr, Traced.mk_bind, hs']

/-- A run too short for a third block is timely. -/
theorem timely_of_few (fn : Bool) {acts : List HandoffAct}
    (h : (samplesOf acts).length < blockSize * 2) : Timely fn acts := by
  rintro pre post rfl
  rw [samplesOf_append, List.length_append] at h
  calc (samplesOf pre).length < blockSize * 2 := by omega
    _ ≤ _ := Nat.mul_le_mul_left _ (Nat.le_add_left _ _)

/-- **The hand-off is exact.**  In every timely run nothing is undefined, the
blocks the main loop has read are the completed blocks in order, except that
the last one may still be waiting; it is then announced by `n_conv_finished`
and stands unchanged in `block_result`.  What has been read of it so far is
its beginning, the two pointers differ, and `nSamples` is inside the block. -/
theorem handoff_exact (fn : Bool) (acts : List HandoffAct)
    (ht : Timely fn acts) :
    ∃ out s, run handoffStep (handoffInit fn) acts = ⟨out, some s⟩ ∧
      out = (List.range out.length).map
        (blockAt blockSize (samplesOf acts)) ∧
      (out.length = (samplesOf acts).length / blockSize ∨
        out.length + 1 = (samplesOf acts).length / blockSize ∧
        s.adc.nConvFinished ≠ 0 ∧
        (s.adc.block s.adc.blockResult).cells =
          blockAt blockSize (samplesOf acts) out.length) ∧
      (∀ ptr got, s.main = .reading ptr got → ptr = s.adc.blockResult ∧
        got = (blockAt blockSize (samplesOf acts) out.length).take
          got.length) ∧
      s.adc.blockFill ≠ s.adc.blockResult ∧ s.adc.nSamples < blockSize := by
  obtain ⟨out, s, m, hr, hrep, hacc⟩ := run_represents fn ht
  refine ⟨out, s, hr, hacc.taken_eq, ?_, ?_, hrep.blocks_ne,
    hrep.nSamples ▸ hacc.part_length⟩
  · have hcount := hacc.completed
    rcases hp : m.pend with - | b
    · left
      rw [hcount, hp, Option.toList_none, List.length_nil, Nat.add_zero]
    · right
      obtain ⟨hcells, hone⟩ := hrep.waiting b (by simp [hp])
      refine ⟨by rw [hcount, hp]; rfl, by rw [hone]; decide, ?_⟩
      rw [hcells, hacc.pend_eq hp]
  · intro ptr got hm
    obtain ⟨hptr, b, hb, hgot⟩ := hrep.reading ptr got hm
    refine ⟨hptr, ?_⟩
    rw [← hacc.pend_eq hb]
    exact hgot

/-- The main loop reads what is left of a block, and reports it. -/
theorem run_reading (a : Adc Int16) (ptr : Block) {k : Nat} {got : List Int16}
    (hk : got.length + k = blockSize)
    (hgot : got = (a.block ptr).cells.take got.length) :
    run handoffStep ⟨a, .reading ptr got⟩ (List.replicate (k + 1) .main) =
      ⟨[(a.block ptr).cells], some ⟨{ a with nConvFinished := 0 }, .poll⟩⟩ := by
  have hsize := (a.block ptr).size
  induction k generalizing got with
  | zero =>
    have hall : got = (a.block ptr).cells := by
      rw [hgot]
      exact List.take_of_length_le (by omega)
    have hend : ¬ got.length < blockSize := by omega
    show run handoffStep _ [.main] = _
    rw [run_cons]
    simp only [handoffStep, mainStep, if_neg hend]
    rw [hall]
    rfl
  | succ k ih =>
    have hlt : got.length < blockSize := by omega
    have hcell : (a.block ptr).cells[got.length]? =
        some (a.block ptr).cells[got.length] :=
      List.getElem?_eq_getElem (by omega)
    rw [List.replicate_succ, run_cons]
    simp only [handoffStep, mainStep, if_pos hlt, hcell, Traced.ofOption_some,
      pure_bind]
    refine ih (by simp; omega) ?_
    rw [List.length_append, List.length_singleton,
      List.take_succ_eq_append_getElem (by omega), ← hgot]

/-- A block that is waiting is read in `BLOCK_SIZE + 2` steps of the main
loop. -/
theorem run_consume {a : Adc Int16} (h : a.nConvFinished ≠ 0) :
    run handoffStep ⟨a, .poll⟩ (List.replicate (blockSize + 2) .main) =
      ⟨[(a.block a.blockResult).cells],
        some ⟨{ a with nConvFinished := 0 }, .poll⟩⟩ := by
  rw [List.replicate_succ, run_cons]
  simp only [handoffStep, mainStep, if_pos h, pure_bind]
  exact run_reading a a.blockResult (Nat.zero_add _) rfl

/-- Interrupts report nothing and leave the main loop where it is. -/
theorem run_irqs {s t : Handoff} {o : List (List Int16)} {n : Nat}
    {dr : UInt32}
    (h : run handoffStep s (List.replicate n (.irq dr)) = ⟨o, some t⟩) :
    o = [] ∧ t.main = s.main := by
  induction n generalizing s o with
  | zero =>
    obtain ⟨rfl, rfl⟩ := Traced.pure_eq_mk_iff.mp h
    exact ⟨rfl, rfl⟩
  | succ n ih =>
    rw [List.replicate_succ, run_cons] at h
    obtain ⟨s', hstep, hrest⟩ := Traced.ofOption_bind_eq_mk_iff.mp h
    obtain ⟨a, -, rfl⟩ := Option.map_eq_some_iff.mp hstep
    obtain ⟨ho, hmain⟩ := ih hrest
    exact ⟨ho, hmain⟩

/-- One whole block, read to its end. -/
theorem handoff_exact_one_block :
    let acts := List.replicate blockSize (HandoffAct.irq 0x8000) ++
      List.replicate (blockSize + 2) HandoffAct.main
    ∃ out s, run handoffStep (handoffInit false) acts = ⟨out, some s⟩ ∧
      out.length = 1 ∧
      out = (List.range out.length).map
        (blockAt blockSize (samplesOf acts)) ∧
      s.adc.blockFill ≠ s.adc.blockResult ∧ s.adc.nSamples < blockSize := by
  intro acts
  have ht : Timely false acts := by
    refine timely_of_few false ?_
    rw [samplesOf_append, samplesOf_replicate_irq, samplesOf_replicate_main,
      List.append_nil, List.length_replicate]
    decide
  obtain ⟨out, s, hr, hout, -, -, hne, hlt⟩ := handoff_exact false acts ht
  refine ⟨out, s, hr, ?_, hout, hne, hlt⟩
  -- after the interrupts the block is waiting
  obtain ⟨o, ⟨a, p⟩, hirqs, -, hwait, -⟩ := handoff_exact false _ ht.of_append
  obtain ⟨rfl, hp⟩ := run_irqs hirqs
  obtain rfl : p = .poll := hp
  have hfull : (samplesOf (List.replicate blockSize
      (HandoffAct.irq 0x8000))).length / blockSize = 1 := by
    rw [samplesOf_replicate_irq, List.length_replicate]
    exact Nat.div_self blockSize_pos
  have hconv : a.nConvFinished ≠ 0 := by
    rcases hwait with hnone | ⟨-, hconv, -⟩
    · rw [hfull] at hnone
      cases hnone
    · exact hconv
  rw [run_append, hirqs, Traced.mk_bind, run_consume hconv] at hr
  rw [← (Traced.mk.inj hr).1]
  rfl

end Roip
