/-
Roip/Accumulator.lean

The static buffer of `radio_comm`.

`Radio.pending` is the text collected so far.  A call appends its chunk, and
either keeps the text (`radioComm_open`) or, if it ends in a newline, forwards
and scans it and empties the buffer (`radioComm_complete`).

The buffer is emptied only when the last byte that has arrived is a newline.
A text that fills all 256 bytes therefore either leaves no room for the next
`serial_read`, for good, or is forwarded with a length that
`spudp_string_send` does not allow; `accumulator_safe_iff` says that this is
the only way the asserted lengths are violated.
-/
import Roip.Lib.Lines
import Roip.Parser

namespace Roip

/-! ### The collected text -/

/-- The text in the buffer. -/
def Radio.pending (r : Radio) : List UInt8 := r.buf.cells.take r.nbytes

theorem Radio.pending_length {r : Radio} (h : r.nbytes ≤ 256) :
    r.pending.length = r.nbytes := by
  rw [Radio.pending, List.length_take, r.buf.size, Nat.min_eq_left h]

/-- Appending a chunk that fits. -/
theorem accumulate_eq {r : Radio} {chunk : List UInt8}
    (h : r.nbytes + chunk.length ≤ 256) :
    ∃ buf, accumulate r chunk =
        some ⟨r.call, r.nbytes + chunk.length, buf⟩ ∧
      buf.cells.take (r.nbytes + chunk.length) = r.pending ++ chunk := by
  have hp := Radio.pending_length (r := r) (by omega)
  refine ⟨⟨r.pending ++ chunk ++ r.buf.cells.drop (r.nbytes + chunk.length),
    ?_⟩, ?_, ?_⟩
  · have := r.buf.size
    simp only [List.length_append, List.length_drop, hp]
    omega
  · rw [accumulate, Option.map_eq_some_iff]
    exact ⟨_, CArray.memcpy_eq_some_iff.mpr ⟨h, rfl⟩, rfl⟩
  · exact List.take_left' (by rw [List.length_append, hp])

/-- The text is complete when it ends in a newline. -/
theorem complete_iff {r : Radio} (h : r.nbytes ≤ 256) :
    r.complete = true ↔ r.pending.getLast? = some 10 := by
  have hlen := Radio.pending_length h
  rw [Radio.complete, List.getLast?_eq_getElem?, hlen, Bool.and_eq_true,
    decide_eq_true_eq, decide_eq_true_eq, Radio.pending]
  constructor
  · rintro ⟨h0, h10⟩
    rw [List.getElem?_take_of_lt (by omega), h10]
  · intro h10
    have h0 : 0 < r.nbytes := by
      by_contra hzero
      simp [Nat.eq_zero_of_not_pos hzero] at h10
    rw [List.getElem?_take_of_lt (by omega)] at h10
    exact ⟨h0, h10⟩

/-- A call that does not complete the text. -/
theorem radioComm_open {r : Radio} {i : RadioIn}
    (h : r.nbytes + i.chunk.length ≤ 256)
    (hopen : (r.pending ++ i.chunk).getLast? ≠ some 10) :
    ∃ buf, radioComm r i =
        pure ⟨r.call, r.nbytes + i.chunk.length, buf⟩ ∧
      buf.cells.take (r.nbytes + i.chunk.length) = r.pending ++ i.chunk := by
  obtain ⟨buf, hacc, hbuf⟩ := accumulate_eq h
  refine ⟨buf, ?_, hbuf⟩
  have hc : ¬ (Radio.mk r.call (r.nbytes + i.chunk.length) buf).complete := by
    rw [complete_iff h, Radio.pending, hbuf]
    exact hopen
  simp only [radioComm, hacc, Traced.ofOption_some, pure_bind, hc,
    Bool.false_eq_true, if_false]

/-- A call that completes the text. -/
theorem radioComm_complete {r : Radio} {i : RadioIn}
    (h : r.nbytes + i.chunk.length ≤ 256)
    (hlast : (r.pending ++ i.chunk).getLast? = some 10) :
    ∃ buf : CArray UInt8 256,
      radioComm r i =
        (scan buf.cells (r.nbytes + i.chunk.length)
          (r.nbytes + i.chunk.length) 0 i.len r.call >>= fun call =>
            pure ⟨call, 0, buf⟩).after [.stringSend (r.pending ++ i.chunk)] ∧
      buf.cells.take (r.nbytes + i.chunk.length) = r.pending ++ i.chunk := by
  obtain ⟨buf, hacc, hbuf⟩ := accumulate_eq h
  refine ⟨buf, ?_, hbuf⟩
  have hc : (Radio.mk r.call (r.nbytes + i.chunk.length) buf).complete := by
    rw [complete_iff h, Radio.pending, hbuf]
    exact hlast
  simp only [radioComm, hacc, Traced.ofOption_some, pure_bind, hc, if_true,
    hbuf]
  rfl

/-! ### What is forwarded -/

/-- The datagram of a `spudp_string_send`. -/
def RadioAct.datagram? : RadioAct → Option (List UInt8)
  | .stringSend b => some b
  | _ => none

/-- Only `radio_comm` itself forwards; its loop does not. -/
theorem handleEvent_noSend (ev : Event) (p : List UInt8) (rest : Nat)
    (len : UInt8) (s : Call) :
    (handleEvent ev p rest len s).Only fun o => o.datagram? = none := by
  have hopt {β : Type} (x : Option β) :
      (Traced.ofOption x : Traced RadioAct β).Only (·.datagram? = none) :=
    Traced.only_ofOption _ x
  have hact (o : RadioAct) (h : o.datagram? = none) :
      (Traced.emit o).Only (·.datagram? = none) := Traced.only_emit h
  have hdone (x : UInt8 × Call) :
      (pure x : Traced RadioAct _).Only (·.datagram? = none) :=
    Traced.only_pure _ x
  cases ev with
  | getSsi =>
    exact (hopt _).bind fun _ => (hopt _).bind fun _ => (hact _ rfl).bind
      fun _ => (hopt _).bind fun _ => (hopt _).bind fun _ =>
        (hact _ rfl).bind fun _ => hdone _
  | callEst => exact hdone _
  | pttPressed =>
    exact (hopt _).bind fun _ => (hopt _).bind fun _ => (hact _ rfl).bind
      fun _ => (hact _ rfl).bind fun _ => hdone _
  | pttReleased =>
    exact (hact _ rfl).bind fun _ => (hact _ rfl).bind
      fun _ => hdone _
  | callEnd => exact (hact _ rfl).bind fun _ => (hact _ rfl).bind fun _ => hdone _

theorem scan_noSend (buf : List UInt8) (nbytes fuel c : Nat) (len : UInt8)
    (s : Call) :
    (scan buf nbytes fuel c len s).Only fun o => o.datagram? = none := by
  induction fuel generalizing c len s with
  | zero => exact Traced.only_pure _ _
  | succ fuel ih =>
    rw [scan]
    split
    · refine Traced.Only.bind ?_ fun e => ih e.1 e.2.1 e.2.2
      refine (Traced.only_ofOption _ _).bind ?_
      rintro (- | ev)
      · exact Traced.only_pure _ _
      · exact (handleEvent_noSend ev _ _ _ _).bind
          fun _ => Traced.only_pure _ _
    · exact Traced.only_pure _ _

/-- A call forwards the collected text, and nothing else. -/
theorem stringSend_mem_radioComm {r : Radio} {i : RadioIn}
    (h : r.nbytes + i.chunk.length ≤ 256) (b : List UInt8) :
    .stringSend b ∈ (radioComm r i).out ↔
      b = r.pending ++ i.chunk ∧ b.getLast? = some 10 := by
  by_cases hlast : (r.pending ++ i.chunk).getLast? = some 10
  · obtain ⟨buf, hcomm, -⟩ := radioComm_complete h hlast
    have hscan : RadioAct.stringSend b ∉ (scan buf.cells
        (r.nbytes + i.chunk.length) (r.nbytes + i.chunk.length) 0 i.len
        r.call >>= fun call => pure (Radio.mk call 0 buf)).out := by
      intro hmem
      have := Traced.Only.bind (scan_noSend _ _ _ _ _ _)
        (fun _ => Traced.only_pure _ _) _ hmem
      cases this
    rw [hcomm, Traced.after_out, List.mem_append]
    constructor
    · rintro (hb | hb)
      · obtain rfl : b = r.pending ++ i.chunk := by simpa using hb
        exact ⟨rfl, hlast⟩
      · exact absurd hb hscan
    · rintro ⟨rfl, -⟩
      exact Or.inl (by simp)
  · obtain ⟨buf, hcomm, -⟩ := radioComm_open h hlast
    rw [hcomm, Traced.pure_out]
    constructor
    · intro hb
      cases hb
    · rintro ⟨rfl, hb⟩
      exact absurd hb hlast

/-! ### The asserted lengths -/

/-- `serial_read` returns at most the number of bytes asked for. -/
def ChunksFit (r : Radio) (ins : List RadioIn) : Prop :=
  ∀ o t i, Feeds radioComm r ins o t i → i.chunk.length ≤ 256 - t.nbytes

/-- Between any two calls there is room in the buffer, so `serial_read` is
asked for a positive number of bytes, and every string forwarded has the
length `spudp_string_send` asserts. -/
def AccumulatorSafe (r : Radio) (ins : List RadioIn) : Prop :=
  (∀ o t, Visits radioComm r ins o t → t.nbytes < 256) ∧
  ∀ o t i, Feeds radioComm r ins o t i → ∀ b,
    .stringSend b ∈ (radioComm t i).out → 0 < b.length ∧ b.length < 256

/-- What a call leaves in the buffer. -/
theorem radioComm_nbytes {r r' : Radio} {i : RadioIn} {o : List RadioAct}
    (h : r.nbytes + i.chunk.length ≤ 256)
    (hcomm : radioComm r i = ⟨o, some r'⟩) :
    r'.nbytes = 0 ∨ r'.nbytes = r.nbytes + i.chunk.length := by
  by_cases hlast : (r.pending ++ i.chunk).getLast? = some 10
  · obtain ⟨buf, heq, -⟩ := radioComm_complete h hlast
    have hres := congrArg Traced.res (heq.symm.trans hcomm)
    simp only [Traced.after_res, Traced.bind_res, Traced.pure_res,
      Option.bind_eq_some_iff, Option.some.injEq] at hres
    obtain ⟨call, -, rfl⟩ := hres
    exact Or.inl rfl
  · obtain ⟨buf, heq, -⟩ := radioComm_open h hlast
    obtain rfl := Option.some.inj (congrArg Traced.res (heq.symm.trans hcomm))
    exact Or.inr rfl

/-- **The accumulator is safe exactly when it is never filled.** -/
theorem accumulator_safe_iff {r : Radio} {ins : List RadioIn}
    (h0 : r.nbytes < 256) (hfit : ChunksFit r ins) :
    AccumulatorSafe r ins ↔ ∀ o t i, Feeds radioComm r ins o t i →
      t.nbytes + i.chunk.length < 256 := by
  constructor
  · rintro ⟨hroom, hsend⟩ o t i hf
    have hle : t.nbytes + i.chunk.length ≤ 256 := by
      have := hroom o t hf.visits
      have := hfit o t i hf
      omega
    refine Nat.lt_of_le_of_ne hle fun hfull => ?_
    by_cases hlast : (t.pending ++ i.chunk).getLast? = some 10
    · -- the full buffer is forwarded
      have := (hsend o t i hf _
        ((stringSend_mem_radioComm hle _).mpr ⟨rfl, hlast⟩)).2
      rw [List.length_append, Radio.pending_length (by omega)] at this
      omega
    · -- the full buffer stays
      obtain ⟨buf, hcomm, -⟩ := radioComm_open hle hlast
      have : t.nbytes + i.chunk.length < 256 := hroom _ _ (hf.next hcomm)
      omega
  · intro hlt
    refine ⟨fun o t hv => ?_, fun o t i hf b hb => ?_⟩
    · refine visits_inv (I := fun _ t => t.nbytes < 256) h0 ?_ hv
      intro o t i o' t' hf _ hcomm
      have := hlt o t i hf
      rcases radioComm_nbytes (by omega) hcomm with h | h <;> omega
    · have hlt := hlt o t i hf
      rw [stringSend_mem_radioComm (by omega)] at hb
      obtain ⟨rfl, hb⟩ := hb
      rw [List.length_append, Radio.pending_length (by omega)] at *
      refine ⟨Nat.pos_of_ne_zero fun hzero => ?_, hlt⟩
      rw [← Radio.pending_length (r := t) (by omega), ← List.length_append,
        List.length_eq_zero_iff] at hzero
      simp [hzero] at hb

/-- A run that never fills the buffer. -/
theorem accumulator_safe_call_end :
    AccumulatorSafe radioInit [⟨bytesOf "+CTCR:0,13\r\n", 0⟩] := by
  refine (accumulator_safe_iff (by decide) ?_).mpr ?_
  · rintro o t i hf
    obtain ⟨rfl, rfl, rfl⟩ := feeds_singleton.mp hf
    decide
  · rintro o t i hf
    obtain ⟨rfl, rfl, rfl⟩ := feeds_singleton.mp hf
    decide

/-- 256 bytes without a newline leave no room for the next `serial_read`, and
with a newline at their end they are forwarded with the length 256. -/
theorem accumulator_unsafe_full :
    let wedged : List RadioIn := [⟨List.replicate 256 65, 0⟩]
    let long : List RadioIn := [⟨List.replicate 255 65 ++ [10], 0⟩]
    ChunksFit radioInit wedged ∧ ChunksFit radioInit long ∧
      (∃ o t, Visits radioComm radioInit wedged o t ∧ t.nbytes = 256) ∧
      (∃ o t i b, Feeds radioComm radioInit long o t i ∧
        .stringSend b ∈ (radioComm t i).out ∧ b.length = 256) ∧
      ¬ AccumulatorSafe radioInit wedged ∧
      ¬ AccumulatorSafe radioInit long := by
  intro wedged long
  have hwlen : (List.replicate 256 (65 : UInt8)).length = 256 :=
    List.length_replicate
  have hllen : (List.replicate 255 (65 : UInt8) ++ [10]).length = 256 := by
    rw [List.length_append, List.length_replicate, List.length_singleton]
  have hw : ∃ o t, Visits radioComm radioInit wedged o t ∧
      t.nbytes = 256 := by
    obtain ⟨buf, h, -⟩ := radioComm_open (r := radioInit)
      (i := ⟨List.replicate 256 65, 0⟩) (by decide +kernel)
      (by decide +kernel)
    refine ⟨[], ⟨radioInit.call, 256, buf⟩, .end ?_, rfl⟩
    rw [run_cons, h, hwlen]
    rfl
  have hl : ∃ o t i b, Feeds radioComm radioInit long o t i ∧
      .stringSend b ∈ (radioComm t i).out ∧ b.length = 256 := by
    refine ⟨[], radioInit, _, List.replicate 255 65 ++ [10],
      feeds_singleton.mpr ⟨rfl, rfl, rfl⟩, ?_, hllen⟩
    exact (stringSend_mem_radioComm (by decide +kernel) _).mpr
      ⟨rfl, List.getLast?_concat⟩
  refine ⟨?_, ?_, hw, hl, ?_, ?_⟩
  · rintro o t i hf
    obtain ⟨rfl, rfl, rfl⟩ := feeds_singleton.mp hf
    exact Nat.le_of_eq hwlen
  · rintro o t i hf
    obtain ⟨rfl, rfl, rfl⟩ := feeds_singleton.mp hf
    exact Nat.le_of_eq hllen
  · rintro ⟨hroom, -⟩
    obtain ⟨o, t, hv, hfull⟩ := hw
    exact Nat.ne_of_lt (hroom o t hv) hfull
  · rintro ⟨-, hsend⟩
    obtain ⟨o, t, i, b, hf, hb, hfull⟩ := hl
    exact Nat.ne_of_lt (hsend o t i hf b hb).2 hfull

end Roip
