/-
Roip/SerialTx.lean

The transmit side of `serial.c`.

`serial_send` runs in the main loop and `UART1_IRQHandler` interrupts it.  It
looks for free space with the interrupts enabled and copies the message with
the interrupts disabled, so a call is two steps and there may be interrupts
between them.  The bytes handed to the UART and the results of `serial_send`
are reported.

The ring has 192 cells, so the mask of its slots is 191 and drops bit 6 of the
number of an item: items 64 apart may share a slot, and a message that is
copied on past the 64th cell leaves the slots it is read from.  A message fits
if this does not happen (`Ring.Fits`, which is exact, `fits_iff`).  As long as
the messages fit the ring is a queue (`serial_fifo`).
-/
import Roip.CommInit

namespace Roip

/-! ### The two parties -/

structure SerialTx where
  txring : TxRing
  /-- the message of a `serial_send` that has found space for it -/
  sending : Option (List UInt8)
deriving DecidableEq

inductive SerialTxAct
  /-- `serial_send`, up to `__disable_irq()` -/
  | call (buf : List UInt8)
  /-- the rest of `serial_send` -/
  | insert
  /-- `UART1_IRQHandler`; the UART takes at most `n` bytes -/
  | irq (n : Nat)
deriving DecidableEq, Repr

inductive SerialTxEvent
  /-- a byte is handed to the UART -/
  | sent (b : UInt8)
  /-- `serial_send` of a message returns `n` -/
  | returned (buf : List UInt8) (n : Nat)
deriving DecidableEq, Repr

/-- A step of the main loop or an interrupt.  While a call has not returned
there is no other call. -/
def serialTxStep (s : SerialTx) :
    SerialTxAct → Traced SerialTxEvent SerialTx
  | .call buf =>
    match s.sending with
    | some _ => pure s
    | none =>
      -- the two assertions
      if buf.length = 0 ∨ txSize < buf.length then Traced.undef
      else if s.txring.getFree < buf.length then
        ⟨[.returned buf 0], some s⟩
      else pure { s with sending := some buf }
  | .insert =>
    match s.sending with
    | none => pure s
    | some buf => do
      let (receivedData, txring) ← Traced.ofOption (s.txring.insertMult buf)
      ⟨[.returned buf receivedData], some ⟨txring, none⟩⟩
  | .irq n =>
    let (bytes, txring) := uart1IRQHandler s.txring n
    ⟨bytes.map .sent, some { s with txring }⟩

/-- After `serial_init`. -/
def serialTxInit (txbuff : CArray UInt8 txSize) : SerialTx :=
  ⟨⟨txbuff, 0, 0⟩, none⟩

/-! ### The order of the bytes -/

/-- The bytes handed to the UART. -/
def handed (o : List SerialTxEvent) : List UInt8 :=
  o.filterMap fun
    | .sent b => some b
    | .returned _ _ => none

/-- The messages for which `serial_send` has returned non-zero, one after the
other. -/
def accepted (o : List SerialTxEvent) : List UInt8 :=
  o.flatMap fun
    | .sent _ => []
    | .returned buf n => if n ≠ 0 then buf else []

/-- What is promised of a run: it is defined; at every moment the bytes handed
to the UART are the first ones of the messages accepted; and a call returns
either the length of its message, which has been queued, or zero, the ring
being unchanged. -/
structure SerialFifo (s : SerialTx) (xs : List SerialTxAct) : Prop where
  defined : (run serialTxStep s xs).res.isSome
  fifo : ∀ o, o <+: (run serialTxStep s xs).out → handed o <+: accepted o
  returns : ∀ o t x buf n, Feeds serialTxStep s xs o t x →
    .returned buf n ∈ (serialTxStep t x).out →
    ∃ t', (serialTxStep t x).res = some t' ∧
      (n = buf.length ∧ t'.txring.items = t.txring.items ++ buf ∨
        n = 0 ∧ t'.txring = t.txring)

section Events

variable (o o' : List SerialTxEvent) (bytes : List UInt8)

@[simp] theorem handed_append :
    handed (o ++ o') = handed o ++ handed o' := List.filterMap_append

@[simp] theorem accepted_append :
    accepted (o ++ o') = accepted o ++ accepted o' := List.flatMap_append

@[simp] theorem handed_sent : handed (bytes.map .sent) = bytes := by
  induction bytes with
  | nil => rfl
  | cons b bytes ih => exact congrArg (b :: ·) ih

@[simp] theorem accepted_sent : accepted (bytes.map .sent) = [] := by
  induction bytes with
  | nil => rfl
  | cons b bytes ih => exact ih

end Events

/-! ### What fits -/

/-- A message of zeros but for the byte at `i`. -/
def mark (n i : Nat) : List UInt8 := (List.replicate n 0).set i 1

theorem mark_length (n i : Nat) : (mark n i).length = n := by
  rw [mark, List.length_set, List.length_replicate]

theorem mark_getElem {n i k : Nat} (hk : k < (mark n i).length) :
    (mark n i)[k] = if i = k then 1 else 0 := by
  simp only [mark, List.getElem_set, List.getElem_replicate]

/-- In a ring of zeros a mark is found at its item and nowhere else. -/
theorem mark_found {r r' : TxRing} {n i : Nat} (hv : r.Valid)
    (hfree : n ≤ r.getFree) (hdata : r.data = .fill txSize 0)
    (hr : r.insertMult (mark n i) = some (n, r'))
    (hitems : r'.items = r.items ++ mark n i) :
    (∀ k, r.tail ≤ k → k < r.head → r'.item k = 0) ∧
      (∀ k < n, r'.item (r.head + k) = if i = k then 1 else 0) ∧
      ∀ a : Fin txSize, r'.data.get a = 0 ∨
        ∃ k, Ring.addr txSize r.head n k = a ∧
          r'.data.get a = if i = k then 1 else 0 := by
  have hlen := mark_length n i
  have hzero (a : Fin txSize) : r.data.get a = 0 := by
    rw [hdata]
    exact CArray.get_fill 0 a
  have hfree' : (mark n i).length ≤ r.getFree := by
    rw [hlen]
    exact hfree
  obtain ⟨-, hhead, htail, hcell⟩ := Ring.insertMult_spec hfree' hr
  rw [Ring.items_eq_append_iff hv hhead htail] at hitems
  obtain ⟨hold, hnew⟩ := hitems
  refine ⟨?_, ?_, ?_⟩
  · intro k hk hkh
    exact (hold k hk hkh).trans (hzero _)
  · intro k hk
    rw [← hlen] at hk
    exact (hnew k hk).trans (mark_getElem hk)
  · intro a
    -- a cell that is not 0 has been copied from the message
    rcases hcell a with ⟨k, hk, haddr, hget⟩ | ⟨-, hget⟩
    · rw [hlen] at haddr
      exact Or.inr ⟨k, haddr, hget.trans (mark_getElem hk)⟩
    · exact Or.inl (hget.trans (hzero a))

/-- **The condition is exact.**  If the bytes in the ring have slots of their
own, a message of `n` bytes fits if and only if messages of `n` bytes join the
queue, whatever the bytes are. -/
theorem fits_iff {r : TxRing} {n : Nat} (hv : r.Valid) (hfree : n ≤ r.getFree)
    (hapart : ∀ k < r.head, ∀ j < k, r.tail ≤ j →
      Ring.slot txSize j ≠ Ring.slot txSize k) :
    r.Fits n ↔ ∀ (data : CArray UInt8 txSize) (buf : List UInt8),
      buf.length = n → ∃ r', { r with data }.insertMult buf = some (n, r') ∧
        r'.items = { r with data }.items ++ buf := by
  constructor
  · rintro hf data buf rfl
    obtain ⟨r', hr', hitems, -⟩ := Ring.insertMult_of_fits
      (r := { r with data }) ⟨hv.le, hv.room⟩ hfree ⟨hf.placed, hf.apart⟩
    exact ⟨r', hr', hitems⟩
  intro h
  constructor
  · -- a byte that is not copied to its slot is not found
    intro i hi
    by_contra hne
    obtain ⟨r', hr', hitems⟩ := h (.fill txSize 0) (mark n i) (mark_length n i)
    obtain ⟨-, hnew, hcell⟩ := mark_found
      (r := { r with data := .fill txSize 0 })
      ⟨hv.le, hv.room⟩ hfree rfl hr' hitems
    have hone : r'.data.get (Ring.slot txSize (r.head + i)) = 1 :=
      (hnew i hi).trans (if_pos rfl)
    rcases hcell (Ring.slot txSize (r.head + i)) with hzero | ⟨k, haddr, hget⟩
    · rw [hone] at hzero
      cases hzero
    · have hik : i ≠ k := by
        rintro rfl
        exact hne haddr
      rw [hone, if_neg hik] at hget
      cases hget
  · -- of two bytes in one slot only one is found
    intro k hk j hjk hj heq
    rcases Nat.lt_or_ge k r.head with hkh | hkh
    · exact hapart k hkh j hjk hj heq
    obtain ⟨i, rfl⟩ := Nat.exists_eq_add_of_le hkh
    obtain ⟨r', hr', hitems⟩ := h (.fill txSize 0) (mark n i) (mark_length n i)
    obtain ⟨hold, hnew, -⟩ := mark_found
      (r := { r with data := .fill txSize 0 })
      ⟨hv.le, hv.room⟩ hfree rfl hr' hitems
    have hone : r'.item j = 1 := by
      rw [Ring.item, heq]
      exact (hnew i (by omega)).trans (if_pos rfl)
    rcases Nat.lt_or_ge j r.head with hjh | hjh
    · rw [hold j hj hjh] at hone
      cases hone
    · obtain ⟨l, rfl⟩ := Nat.exists_eq_add_of_le hjh
      rw [hnew l (by omega), if_neg (by omega)] at hone
      cases hone

/-! ### The invariant -/

/-- The bytes accepted are those handed to the UART and then those in the
ring, and a call that is going on finds the space it has seen. -/
structure SerialTx.Inv (o : List SerialTxEvent) (s : SerialTx) : Prop where
  fifo : ∀ p, p <+: o → handed p <+: accepted p
  queue : accepted o = handed o ++ s.txring.items
  valid : s.txring.Valid
  room : ∀ buf, s.sending = some buf →
    buf ≠ [] ∧ buf.length ≤ s.txring.getFree

/-- What a step from `s` to `t` reports of calls is what has happened. -/
def SerialTx.Reports (s t : SerialTx) (o : List SerialTxEvent) : Prop :=
  ∀ buf n, .returned buf n ∈ o →
    n = buf.length ∧ t.txring.items = s.txring.items ++ buf ∨
      n = 0 ∧ t.txring = s.txring

namespace SerialTx.Inv

variable {o o' : List SerialTxEvent} {s t : SerialTx} {buf : List UInt8}

theorem start (txbuff : CArray UInt8 txSize) :
    (serialTxInit txbuff).Inv [] where
  fifo := by
    intro p hp
    rw [List.prefix_nil.mp hp]
    exact List.prefix_rfl
  queue := rfl
  valid := ⟨Nat.le_refl 0, Nat.zero_le _⟩
  room := by rintro _ ⟨⟩

/-- The order after a step, if it is kept during the step. -/
theorem fifo_append (h : s.Inv o)
    (h' : ∀ p, p <+: o' → handed (o ++ p) <+: accepted (o ++ p)) :
    ∀ p, p <+: o ++ o' → handed p <+: accepted p := by
  rintro p ⟨z, hz⟩
  rcases List.append_eq_append_iff.mp hz with ⟨a, ho, -⟩ | ⟨a, rfl, ha⟩
  · exact h.fifo p ⟨a, ho.symm⟩
  · exact h' a ⟨z, ha.symm⟩

theorem handed_prefix (h : s.Inv o) : handed o <+: accepted o :=
  h.fifo o List.prefix_rfl

theorem fifo_returned (h : s.Inv o) (buf : List UInt8) (n : Nat) :
    ∀ p, p <+: o ++ [.returned buf n] → handed p <+: accepted p := by
  intro p hp
  rcases List.prefix_concat_iff.mp hp with rfl | hp
  · have hnone : handed [.returned buf n] = [] := rfl
    rw [handed_append, hnone, List.append_nil, accepted_append]
    exact h.handed_prefix.trans (List.prefix_append _ _)
  · exact h.fifo p hp

/-- An interrupt. -/
theorem irq (h : s.Inv o) (n : Nat) :
    ∃ o' t, serialTxStep s (.irq n) = ⟨o', some t⟩ ∧ t.Inv (o ++ o') ∧
      ∀ buf n, .returned buf n ∉ o' := by
  obtain ⟨hsplit, hvalid, hfree⟩ := uart1IRQHandler_spec h.valid n
  generalize e : uart1IRQHandler s.txring n = a at hsplit hvalid hfree
  have hqueue : accepted o = handed o ++ (a.1 ++ a.2.items) := by
    rw [h.queue, hsplit]
  refine ⟨a.1.map .sent, { s with txring := a.2 }, ?_, ⟨?_, ?_, hvalid, ?_⟩,
    ?_⟩
  · rw [serialTxStep, e]
  · refine h.fifo_append fun p hp => ?_
    obtain ⟨bytes, hb, rfl⟩ := List.prefix_map_iff.mp hp
    rw [handed_append, handed_sent, accepted_append, accepted_sent,
      List.append_nil, hqueue, List.prefix_append_right_inj]
    exact hb.trans (List.prefix_append _ _)
  · rw [accepted_append, accepted_sent, handed_append, handed_sent,
      List.append_nil, hqueue, List.append_assoc]
  · intro buf hbuf
    obtain ⟨hne, hroom⟩ := h.room buf hbuf
    exact ⟨hne, Nat.le_trans hroom hfree⟩
  · intro buf m hm
    obtain ⟨b, -, hb⟩ := List.mem_map.mp hm
    cases hb

/-- A call that finds no space. -/
theorem refuse (h : s.Inv o) (hs : s.sending = none) (hpos : 0 < buf.length)
    (hle : buf.length ≤ txSize) (hroom : s.txring.getFree < buf.length) :
    serialTxStep s (.call buf) = ⟨[.returned buf 0], some s⟩ ∧
      s.Inv (o ++ [.returned buf 0]) := by
  refine ⟨?_, h.fifo_returned buf 0, ?_, h.valid, h.room⟩
  · simp only [serialTxStep, hs]
    rw [if_neg (by omega), if_pos hroom]
  · simpa [handed, accepted] using h.queue

/-- A call that finds space. -/
theorem call (h : s.Inv o) (hs : s.sending = none) (hpos : 0 < buf.length)
    (hle : buf.length ≤ txSize) (hroom : ¬ s.txring.getFree < buf.length) :
    serialTxStep s (.call buf) = pure { s with sending := some buf } ∧
      ({ s with sending := some buf } : SerialTx).Inv o := by
  refine ⟨?_, h.fifo, h.queue, h.valid, ?_⟩
  · simp only [serialTxStep, hs]
    rw [if_neg (by omega), if_neg hroom]
  · rintro _ ⟨⟩
    exact ⟨List.ne_nil_of_length_pos hpos, Nat.le_of_not_lt hroom⟩

/-- The rest of a call whose message fits. -/
theorem insert (h : s.Inv o) (hs : s.sending = some buf)
    (hf : s.txring.Fits buf.length) :
    ∃ t, serialTxStep s .insert =
        ⟨[.returned buf buf.length], some t⟩ ∧
      t.txring.items = s.txring.items ++ buf ∧
      t.Inv (o ++ [.returned buf buf.length]) := by
  obtain ⟨hne, hroom⟩ := h.room buf hs
  obtain ⟨r, hr, hitems, hvalid⟩ := Ring.insertMult_of_fits h.valid hroom hf
  have hlen : buf.length ≠ 0 := mt List.length_eq_zero_iff.mp hne
  have hevent : handed [.returned buf buf.length] = [] ∧
      accepted [.returned buf buf.length] = buf := by
    refine ⟨rfl, ?_⟩
    show (if buf.length ≠ 0 then buf else []) ++ [] = buf
    rw [if_pos hlen, List.append_nil]
  refine ⟨⟨r, none⟩, ?_, hitems,
    ⟨h.fifo_returned buf _, ?_, hvalid, by rintro _ ⟨⟩⟩⟩
  · simp only [serialTxStep, hs, hr]
    rfl
  · show accepted _ = handed _ ++ r.items
    rw [accepted_append, handed_append, hevent.1, hevent.2, hitems, h.queue,
      List.append_nil, List.append_assoc]

/-- A step that meets the conditions. -/
theorem step (h : s.Inv o) {x : SerialTxAct}
    (hlen : ∀ buf, x = .call buf → 0 < buf.length ∧ buf.length ≤ txSize)
    (hf : ∀ buf, x = .insert → s.sending = some buf →
      s.txring.Fits buf.length) :
    ∃ o' t, serialTxStep s x = ⟨o', some t⟩ ∧ t.Inv (o ++ o') ∧
      s.Reports t o' := by
  -- an action that is not enabled changes nothing
  have hidle : ∃ o' t, (pure s : Traced SerialTxEvent SerialTx) =
      ⟨o', some t⟩ ∧ t.Inv (o ++ o') ∧ s.Reports t o' := by
    refine ⟨[], s, rfl, ?_, by rintro _ _ ⟨⟩⟩
    rwa [List.append_nil]
  have hone {buf : List UInt8} {n : Nat} {t : SerialTx}
      (hret : n = buf.length ∧ t.txring.items = s.txring.items ++ buf ∨
        n = 0 ∧ t.txring = s.txring) : s.Reports t [.returned buf n] := by
    intro buf' n' hn
    obtain ⟨rfl, rfl⟩ := SerialTxEvent.returned.inj (List.mem_singleton.mp hn)
    exact hret
  rcases x with buf | - | n
  · rcases hs : s.sending with - | buf'
    swap
    · rw [serialTxStep, hs]
      exact hidle
    obtain ⟨hpos, hle⟩ := hlen buf rfl
    by_cases hroom : s.txring.getFree < buf.length
    · obtain ⟨hcall, hinv⟩ := h.refuse hs hpos hle hroom
      exact ⟨_, s, hcall, hinv, hone (Or.inr ⟨rfl, rfl⟩)⟩
    · obtain ⟨hcall, hinv⟩ := h.call hs hpos hle hroom
      refine ⟨[], _, hcall, ?_, by rintro _ _ ⟨⟩⟩
      rw [List.append_nil]
      exact hinv
  · rcases hs : s.sending with - | buf
    · rw [serialTxStep, hs]
      exact hidle
    obtain ⟨t, ht, hitems, hinv⟩ := h.insert hs (hf buf rfl hs)
    exact ⟨_, t, ht, hinv, hone (Or.inl ⟨rfl, hitems⟩)⟩
  · obtain ⟨o', t, ht, hinv, hnone⟩ := h.irq n
    exact ⟨o', t, ht, hinv, fun buf m hm => absurd hm (hnone buf m)⟩

end SerialTx.Inv

/-- Without an interrupt in between, a call is `serialSend`. -/
theorem run_call_insert {txring : TxRing} {buf : List UInt8} :
    run serialTxStep ⟨txring, none⟩ [.call buf, .insert] =
      Traced.ofOption (serialSend txring buf) >>= fun (n, txring) =>
        ⟨[.returned buf n], some ⟨txring, none⟩⟩ := by
  rw [run_cons, serialTxStep, serialSend]
  by_cases hassert : buf.length = 0 ∨ txSize < buf.length
  · rw [if_pos hassert, if_pos hassert]
    rfl
  rw [if_neg hassert, if_neg hassert]
  by_cases hroom : txring.getFree < buf.length
  · rw [if_pos hroom, if_pos hroom]
    rfl
  · rw [if_neg hroom, if_neg hroom, pure_bind, run_cons, serialTxStep]
    rcases hinsert : txring.insertMult buf with - | ⟨n, txring'⟩ <;>
      simp only [hinsert] <;> rfl

/-- **The transmit ring is a queue while its messages fit.**  In any order of
calls, with messages the assertions allow, and interrupts: if every message
that is copied into the ring fits there, the run is as promised. -/
theorem serial_fifo (txbuff : CArray UInt8 txSize) {xs : List SerialTxAct}
    (hlen : ∀ buf, .call buf ∈ xs → 0 < buf.length ∧ buf.length ≤ txSize)
    (hfits : ∀ o t buf,
      Feeds serialTxStep (serialTxInit txbuff) xs o t .insert →
      t.sending = some buf → t.txring.Fits buf.length) :
    SerialFifo (serialTxInit txbuff) xs := by
  have hstep {o : List SerialTxEvent} {t : SerialTx} {x : SerialTxAct}
      (hf : Feeds serialTxStep (serialTxInit txbuff) xs o t x)
      (hI : t.Inv o) := by
    refine hI.step (x := x) ?_ ?_
    · rintro buf rfl
      obtain ⟨pre, post, rfl, -⟩ := hf
      exact hlen buf (List.mem_append_right _ List.mem_cons_self)
    · rintro buf rfl hs
      exact hfits o t buf hf hs
  have hinv := SerialTx.Inv.start txbuff
  obtain ⟨o, t, hr, hI⟩ := run_total (I := fun o s => SerialTx.Inv o s) hinv
    fun o t x hf hI => by
      obtain ⟨o', t', hx, hI', -⟩ := hstep hf hI
      exact ⟨o', t', hx, hI'⟩
  refine ⟨?_, ?_, ?_⟩
  · rw [hr]
    rfl
  · rw [hr]
    exact hI.fifo
  · intro o t x buf n hf hn
    have hIt : t.Inv o := by
      refine visits_inv (I := fun o s => SerialTx.Inv o s) hinv ?_ hf.visits
      intro o t y o' t' hf hI hy
      obtain ⟨o'', t'', hy', hI', -⟩ := hstep hf hI
      obtain ⟨rfl, ht⟩ := Traced.mk.inj (hy'.symm.trans hy)
      cases ht
      exact hI'
    obtain ⟨o', t', hx, -, hret⟩ := hstep hf hIt
    rw [hx] at hn ⊢
    exact ⟨t', rfl, hret buf n hn⟩

/-- Two commands, the first one being sent while the second one is queued. -/
def twoCommands : List SerialTxAct :=
  [.call str4, .insert, .irq 4, .call str2, .irq 3, .insert, .irq 14, .irq 14]

theorem serial_fifo_twoCommands :
    SerialFifo (serialTxInit (.fill txSize 0)) twoCommands := by
  refine serial_fifo _ ?_ ?_
  · intro buf hbuf
    have hcases : buf = str4 ∨ buf = str2 := by
      simpa [twoCommands] using hbuf
    rcases hcases with rfl | rfl <;> decide
  · intro o t buf hf hs
    have hcheck := checkRun_feeds (C := fun t x =>
      x ≠ .insert || t.sending.all fun buf => t.txring.Fits buf.length)
      (by decide +kernel) hf
    simpa [hs] using hcheck

/-- A message of 65 bytes, alone in the ring: its last byte is copied behind
the slots of the first 64 and read from the slot of the first one. -/
def longMessage : List UInt8 := List.replicate 64 0 ++ [1]

theorem not_serialFifo :
    ¬ ∀ (txbuff : CArray UInt8 txSize) (xs : List SerialTxAct),
      (∀ buf, .call buf ∈ xs → 0 < buf.length ∧ buf.length ≤ txSize) →
      SerialFifo (serialTxInit txbuff) xs := by
  intro h
  have hfifo := (h (.fill txSize 0) [.call longMessage, .insert, .irq 65]
    (by simp [longMessage, txSize])).fifo _ List.prefix_rfl
  exact absurd hfifo (by decide +kernel)

end Roip
