/-
Roip/Chunking.lean

The running parser does not depend on how the serial stream is cut.

`radio_comm` simulates a line buffer (`lineBuffer`): it keeps the text until
it ends in a newline, forwards the block and scans it.  A block consists of
whole lines, and the scanner is a fold over lines, so what a run does is a
fold over the lines of the stream (`radioComm_lines`), whatever the blocks
are.  The buffer behind the block, which still holds older text, and the
indeterminate `len` play no part.
-/
import Roip.Accumulator
import Roip.Scan

namespace Roip

/-! ### Blocks of lines -/

/-- The scanner on a block of lines. -/
theorem scanFrom_lines {buf : List UInt8} {nbytes c : Nat}
    {ls : List (List UInt8)} {r : List UInt8}
    (hbuf : buf.drop c = unlines 10 ls ++ r)
    (hc : c + (unlines 10 ls).length = nbytes) (hn : nbytes < 2 ^ 32)
    (hok : ∀ l ∈ ls, LineOk l) (len : UInt8) (s : Call) :
    scanFrom buf nbytes c len s =
      ⟨(linesScan ls s).1, some (linesScan ls s).2⟩ := by
  induction ls generalizing c len s with
  | nil => exact scanFrom_end (by simp [← hc]) len s
  | cons l ls ih =>
    rw [List.forall_mem_cons] at hok
    rw [unlines_cons, List.append_assoc, List.cons_append] at hbuf
    rw [unlines_cons, List.length_append, List.length_cons] at hc
    obtain ⟨len', h⟩ := scanFrom_line hbuf (by omega) hn hok.1 len s
    have hrest : buf.drop (c + l.length + 1) = unlines 10 ls ++ r := by
      rw [Nat.add_assoc, ← List.drop_drop, hbuf, ← List.drop_drop,
        List.drop_left]
      rfl
    rw [h, ih hrest (by omega) hok.2]
    rfl

/-- What is done at a sequence of blocks. -/
def blocksScan : List (List (List UInt8)) → Call → List RadioAct × Call
  | [], s => ([], s)
  | ls :: lss, s =>
    let e := linesScan ls s
    let r := blocksScan lss e.2
    (.stringSend (unlines 10 ls) :: e.1 ++ r.1, r.2)

/-- No accumulation exceeds 255 bytes. -/
def NoOverflow (r : Radio) (ins : List RadioIn) : Prop :=
  ∀ o t i, Feeds radioComm r ins o t i → t.nbytes + i.chunk.length ≤ 255

/-- **`radio_comm` simulates the line buffer**, and does at each block what
its lines say. -/
theorem radioComm_blocks {ins : List RadioIn} {r : Radio}
    {lss : List (List (List UInt8))} {p : List UInt8}
    (hfit : NoOverflow r ins) (hr : r.nbytes ≤ 255)
    (hok : ∀ ls ∈ lss, ∀ l ∈ ls, LineOk l)
    (hrun : run (lineBuffer 10) r.pending (ins.map (·.chunk)) =
      ⟨lss.map (unlines 10), some p⟩) :
    ∃ r', run radioComm r ins =
        ⟨(blocksScan lss r.call).1, some r'⟩ ∧
      r'.call = (blocksScan lss r.call).2 ∧ r'.pending = p := by
  induction ins generalizing r lss with
  | nil =>
    obtain ⟨hnil, hp⟩ := Traced.mk.inj hrun
    obtain rfl := List.map_eq_nil_iff.mp hnil.symm
    exact ⟨r, rfl, rfl, Option.some.inj hp⟩
  | cons i ins ih =>
    have hroom := hfit [] r i (feeds_cons.mpr (Or.inl ⟨rfl, rfl, rfl⟩))
    rw [List.map_cons, run_cons, lineBuffer] at hrun
    by_cases hlast : (r.pending ++ i.chunk).getLast? = some 10
    · rw [if_pos hlast, Traced.mk_bind] at hrun
      obtain ⟨hout, hres⟩ := Traced.mk.inj hrun
      -- the block ends here: it is scanned, and the buffer is empty again
      rcases lss with - | ⟨ls, lss⟩
      · cases hout
      rw [List.forall_mem_cons] at hok
      obtain ⟨hblock, hout⟩ := List.cons.inj hout
      obtain ⟨buf, hcomm, hbuf⟩ := radioComm_complete (by omega) hlast
      have hdrop : buf.cells.drop 0 = unlines 10 ls ++
          buf.cells.drop (r.nbytes + i.chunk.length) := by
        rw [List.drop_zero, ← hblock, ← hbuf, List.take_append_drop]
      have hlen : 0 + (unlines 10 ls).length =
          r.nbytes + i.chunk.length := by
        rw [Nat.zero_add, ← hblock, List.length_append,
          Radio.pending_length (by omega)]
      rw [scan_fuel _ 0 _ _ (Nat.sub_le _ _),
        scanFrom_lines hdrop hlen (by omega) hok.1, Traced.mk_bind,
        hblock] at hcomm
      replace hcomm : radioComm r i =
          ⟨.stringSend (unlines 10 ls) :: (linesScan ls r.call).1,
            some ⟨(linesScan ls r.call).2, 0, buf⟩⟩ :=
        hcomm.trans (Traced.ext (by simp) rfl)
      obtain ⟨r', hrun', hcall, hp⟩ := ih
        (r := ⟨(linesScan ls r.call).2, 0, buf⟩)
        (fun _ t j hf => hfit _ t j
          (feeds_cons.mpr (Or.inr ⟨_, _, _, hcomm, hf, rfl⟩)))
        (Nat.zero_le _) hok.2 (Traced.ext hout hres)
      refine ⟨r', ?_, hcall, hp⟩
      rw [run_cons, hcomm, Traced.mk_bind, hrun']
      rfl
    · rw [if_neg hlast, Traced.mk_bind] at hrun
      -- no newline yet: the chunk is appended to what is pending
      obtain ⟨buf, hcomm, hbuf⟩ := radioComm_open (by omega) hlast
      obtain ⟨r', hrun', hcall, hp⟩ := ih
        (r := ⟨r.call, r.nbytes + i.chunk.length, buf⟩)
        (fun _ t j hf => hfit _ t j
          (feeds_cons.mpr (Or.inr ⟨_, _, _, hcomm, hf, rfl⟩)))
        hroom hok (by rw [Radio.pending, hbuf]; exact hrun)
      exact ⟨r', by rw [run_cons, hcomm, pure_bind, hrun'], hcall, hp⟩

/-! ### What does not depend on the blocks -/

/-- The datagrams forwarded, one after the other. -/
def datagrams (o : List RadioAct) : List UInt8 :=
  (o.filterMap RadioAct.datagram?).flatten

/-- The actions on the converter and on the identities. -/
def localActs (o : List RadioAct) : List RadioAct :=
  o.filter fun a => a.datagram?.isNone

@[simp] theorem datagrams_append (o o' : List RadioAct) :
    datagrams (o ++ o') = datagrams o ++ datagrams o' := by
  simp [datagrams]

@[simp] theorem localActs_append (o o' : List RadioAct) :
    localActs (o ++ o') = localActs o ++ localActs o' := by
  simp [localActs]

theorem eventEffect_local (x : List UInt8) (s : Call) (ev : Event) :
    datagrams (eventEffect x s ev).1 = [] ∧
      localActs (eventEffect x s ev).1 = (eventEffect x s ev).1 := by
  cases ev <;> exact ⟨rfl, rfl⟩

theorem lineScan_local (k : Nat) (l : List UInt8) (s : Call) :
    datagrams (lineScan k l s).1 = [] ∧
      localActs (lineScan k l s).1 = (lineScan k l s).1 := by
  induction l generalizing k s with
  | nil => cases k <;> exact ⟨rfl, rfl⟩
  | cons b l ih =>
    rcases k with - | k
    · rw [lineScan]
      rcases eventAt (b :: l) with - | ev
      · exact ih 0 s
      · have hev := eventEffect_local ((b :: l).drop ev.skip) s ev
        have hl := ih (ev.skip - 1)
          (eventEffect ((b :: l).drop ev.skip) s ev).2
        simp [hev, hl]
    · exact ih k s

theorem linesScan_local (ls : List (List UInt8)) (s : Call) :
    datagrams (linesScan ls s).1 = [] ∧
      localActs (linesScan ls s).1 = (linesScan ls s).1 := by
  induction ls generalizing s with
  | nil => exact ⟨rfl, rfl⟩
  | cons l ls ih =>
    have hl := lineScan_local 0 l s
    have hls := ih (lineScan 0 l s).2
    simp [linesScan, hl, hls]

/-- What is done at the blocks is what is done at their lines, and the blocks
are forwarded. -/
theorem blocksScan_eq (lss : List (List (List UInt8))) (s : Call) :
    (blocksScan lss s).2 = (linesScan lss.flatten s).2 ∧
      localActs (blocksScan lss s).1 = (linesScan lss.flatten s).1 ∧
      datagrams (blocksScan lss s).1 = unlines 10 lss.flatten := by
  induction lss generalizing s with
  | nil => exact ⟨rfl, rfl, rfl⟩
  | cons ls lss ih =>
    obtain ⟨hcall, hacts, hsend⟩ := ih (linesScan ls s).2
    have hls := linesScan_local ls s
    have hone (b : List UInt8) (o : List RadioAct) :
        localActs (.stringSend b :: o) = localActs o ∧
          datagrams (.stringSend b :: o) = b ++ datagrams o := ⟨rfl, rfl⟩
    simp [blocksScan, linesScan_append, hcall, hacts, hsend, hls, hone]

/-- **A run is a fold over the lines of its stream.** -/
theorem radioComm_lines {r : Radio} {ins : List RadioIn}
    {lines : List (List UInt8)} (h0 : r.nbytes = 0)
    (hlines : ∀ l ∈ lines, 10 ∉ l) (hok : ∀ l ∈ lines, LineOk l)
    (hcat : (ins.map (·.chunk)).flatten = unlines 10 lines)
    (hfit : NoOverflow r ins) :
    ∃ o r', run radioComm r ins = ⟨o, some r'⟩ ∧
      r'.call = (linesScan lines r.call).2 ∧
      localActs o = (linesScan lines r.call).1 ∧
      datagrams o = unlines 10 lines := by
  obtain ⟨lss, rfl, hrun⟩ := run_lineBuffer_unlines hlines hcat
  have hempty : r.pending = [] := by rw [Radio.pending, h0, List.take_zero]
  obtain ⟨r', hrun', hcall, -⟩ := radioComm_blocks hfit (by omega)
    (fun ls hls l hl => hok l (List.mem_flatten_of_mem hls hl))
    (by rw [hempty]; exact hrun)
  obtain ⟨hc, ha, hd⟩ := blocksScan_eq lss r.call
  exact ⟨_, r', hrun', hcall.trans hc, ha, hd⟩

/-- **Chunking independence.**  Two ways of cutting a stream of lines give the
same call state and the same actions on the converter and the identities, and
both forward exactly the stream. -/
theorem chunking_independent {r₁ r₂ : Radio} {ins₁ ins₂ : List RadioIn}
    {lines : List (List UInt8)} (h₁ : r₁.nbytes = 0) (h₂ : r₂.nbytes = 0)
    (hcall : r₁.call = r₂.call) (hlines : ∀ l ∈ lines, 10 ∉ l)
    (hok : ∀ l ∈ lines, LineOk l)
    (hcat₁ : (ins₁.map (·.chunk)).flatten = unlines 10 lines)
    (hcat₂ : (ins₂.map (·.chunk)).flatten = unlines 10 lines)
    (hfit₁ : NoOverflow r₁ ins₁) (hfit₂ : NoOverflow r₂ ins₂) :
    ∃ o₁ t₁ o₂ t₂, run radioComm r₁ ins₁ = ⟨o₁, some t₁⟩ ∧
      run radioComm r₂ ins₂ = ⟨o₂, some t₂⟩ ∧
      t₁.call = t₂.call ∧ localActs o₁ = localActs o₂ ∧
      datagrams o₁ = unlines 10 lines ∧ datagrams o₂ = unlines 10 lines := by
  obtain ⟨o₁, t₁, hrun₁, hc₁, ha₁, hd₁⟩ :=
    radioComm_lines h₁ hlines hok hcat₁ hfit₁
  obtain ⟨o₂, t₂, hrun₂, hc₂, ha₂, hd₂⟩ :=
    radioComm_lines h₂ hlines hok hcat₂ hfit₂
  refine ⟨o₁, t₁, o₂, t₂, hrun₁, hrun₂, ?_, ?_, hd₁, hd₂⟩
  · rw [hc₁, hc₂, hcall]
  · rw [ha₁, ha₂, hcall]

/-- A stream of at most 255 bytes fits however it is cut. -/
theorem noOverflow_of_length {r : Radio} {ins : List RadioIn}
    (h : r.nbytes + (ins.map (·.chunk)).flatten.length ≤ 255) :
    NoOverflow r ins := by
  induction ins generalizing r with
  | nil => exact fun o t i hf => absurd hf feeds_nil
  | cons i ins ih =>
    rw [List.map_cons, List.flatten_cons, List.length_append] at h
    intro o t j hf
    rcases feeds_cons.mp hf with ⟨-, rfl, rfl⟩ | ⟨_, _, u, hcomm, hf, -⟩
    · omega
    · refine ih ?_ _ t j hf
      rcases radioComm_nbytes (by omega) hcomm with hu | hu <;> omega

/-- A transmission that arrives at once, and in three pieces. -/
theorem chunking_independent_ptt :
    let lines := [bytesOf "+CTXG:0,3,0,0,0,255\r", bytesOf "+CDTXC:0,0\r"]
    let whole : List RadioIn := [⟨unlines 10 lines, 0⟩]
    let cut : List RadioIn := [⟨bytesOf "+CT", 7⟩,
      ⟨bytesOf "XG:0,3,0,0,0,255\r\n+CDT", 9⟩, ⟨bytesOf "XC:0,0\r\n", 1⟩]
    ∃ o₁ t₁ o₂ t₂, run radioComm radioInit whole = ⟨o₁, some t₁⟩ ∧
      run radioComm radioInit cut = ⟨o₂, some t₂⟩ ∧
      t₁.call = t₂.call ∧ localActs o₁ = localActs o₂ ∧
      datagrams o₁ = unlines 10 lines ∧
      datagrams o₂ = unlines 10 lines :=
  chunking_independent rfl rfl rfl (by decide) (by decide +kernel) (by decide)
    (by decide) (noOverflow_of_length (by decide))
    (noOverflow_of_length (by decide))

end Roip
