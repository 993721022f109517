/-
Roip/Serial.lean

The serial line of `serial.c` as the main loop sees it.

`serial_send` queues a whole message in the transmit ring, if there is space,
and `UART1_IRQHandler` takes the bytes out again.  The ring has 192 cells and
forgets the order of its bytes beyond the first 64 slots; but the handler
flushes a ring that has become empty, so what is sent over an empty ring is
queued from the first slot on.  For messages of at most 64 bytes such a ring is
a queue (`Queued`).
-/
import Roip.Lib.Ring

namespace Roip

/-- The size of `txbuff`. -/
def txSize : Nat := 192

instance : Fact (0 < txSize) := ⟨by decide⟩

/-- `txring`, over `txbuff`. -/
abbrev TxRing := Ring UInt8 txSize

/-- `serial_send`: the number of bytes queued, and the ring; undefined if one
of the two assertions fails. -/
def serialSend (txring : TxRing) (buf : List UInt8) : Option (Nat × TxRing) :=
  if buf.length = 0 ∨ txSize < buf.length then none
  else if txring.getFree < buf.length then some (0, txring)
  else txring.insertMult buf

/-- `serial_read` of at most `len` bytes, `n` having arrived: the bytes read,
and those left. -/
def serialRead (rx : List UInt8) (len n : Nat) : List UInt8 × List UInt8 :=
  (rx.take (min n len), rx.drop (min n len))

/-- What `UART1_IRQHandler` does with the transmit ring, the UART taking at
most `n` bytes: the bytes sent, and the ring. -/
def uart1IRQHandler (txring : TxRing) (n : Nat) : List UInt8 × TxRing :=
  if txring.getCount > 0 then
    let (bytes, txring) := txring.drain n
    (bytes, if txring.isEmpty then txring.flush else txring)
  else ([], txring)

section Handler

variable {r : TxRing} {b : UInt8} {tx str : List UInt8}

/-- The handler takes bytes from the front of the queue, and never takes
space. -/
theorem uart1IRQHandler_spec (h : r.Valid) (n : Nat) :
    r.items = (uart1IRQHandler r n).1 ++ (uart1IRQHandler r n).2.items ∧
      (uart1IRQHandler r n).2.Valid ∧
      r.getFree ≤ (uart1IRQHandler r n).2.getFree := by
  obtain ⟨htake, hdrop, hvalid⟩ := Ring.drain_spec h n
  have hsplit : r.items = (r.drain n).1 ++ (r.drain n).2.items := by
    rw [htake, hdrop, List.take_append_drop]
  rw [uart1IRQHandler]
  split
  swap
  · exact ⟨rfl, h, Nat.le_refl _⟩
  dsimp only
  by_cases he : (r.drain n).2.isEmpty = true
  · -- the ring is flushed
    have hnil : (r.drain n).2.items = [] := Ring.items_of_isEmpty he
    rw [if_pos he, Ring.items_flush, ← hnil]
    exact ⟨hsplit, Ring.valid_flush _, Nat.sub_le_sub_left (Nat.zero_le _) _⟩
  · rw [if_neg he]
    refine ⟨hsplit, hvalid, Nat.sub_le_sub_left ?_ _⟩
    rw [← Ring.length_items, hdrop, List.length_drop, Ring.length_items]
    exact Nat.sub_le _ _

/-- Nothing is taken from an empty ring. -/
theorem uart1IRQHandler_empty (h : r.items = []) (n : Nat) :
    uart1IRQHandler r n = ([], r) := by
  have hcount : r.getCount = 0 := by
    rw [← Ring.length_items, h, List.length_nil]
  rw [uart1IRQHandler, hcount, if_neg (Nat.lt_irrefl 0)]

/-- The first byte of a ring that is not empty. -/
theorem pop_of_items (h : r.Valid) (hitems : r.items = b :: tx) :
    ∃ r' : TxRing, r.pop = some (b, r') ∧ r'.items = tx ∧ r'.Valid ∧
      r.getCount > 0 := by
  rcases Ring.pop_spec h with ⟨hnil, -⟩ | ⟨x, r', hpop, hcons, h'⟩
  · rw [hnil] at hitems
    cases hitems
  · have hlen : r.items.length = tx.length + 1 := by
      rw [hitems, List.length_cons]
    obtain ⟨rfl, htx⟩ := List.cons.inj (hcons.symm.trans hitems)
    refine ⟨r', hpop, htx, h', ?_⟩
    rw [Ring.length_items] at hlen
    omega

/-- The UART takes several bytes in one interrupt or in one after the
other. -/
theorem uart1IRQHandler_succ (h : r.Valid) (n : Nat) :
    uart1IRQHandler r (n + 1) =
      ((uart1IRQHandler r 1).1 ++
          (uart1IRQHandler (uart1IRQHandler r 1).2 n).1,
        (uart1IRQHandler (uart1IRQHandler r 1).2 n).2) := by
  rcases hitems : r.items with - | ⟨b, tx⟩
  · simp only [uart1IRQHandler_empty hitems, List.append_nil]
  obtain ⟨r', hpop, -, h', hcount⟩ := pop_of_items h hitems
  have hstep (k : Nat) : uart1IRQHandler r (k + 1) = (b :: (r'.drain k).1,
      if (r'.drain k).2.isEmpty then (r'.drain k).2.flush
      else (r'.drain k).2) := by
    simp only [uart1IRQHandler, if_pos hcount, Ring.drain, hpop]
  rw [hstep n, hstep 0]
  by_cases he : r'.isEmpty = true
  · -- the first interrupt flushes the ring
    have hdrain : r'.drain n = ([], r') := by
      have hnone : r'.pop = none := if_pos he
      cases n with
      | zero => rfl
      | succ n => simp only [Ring.drain, hnone]
    simp only [hdrain, Ring.drain, he, if_true,
      uart1IRQHandler_empty (Ring.items_flush r'), List.append_nil]
  · have hcount' : r'.getCount > 0 := by
      have hle := h'.le
      rw [Ring.isEmpty, beq_iff_eq] at he
      rw [Ring.getCount]
      omega
    simp only [Ring.drain, he, Bool.false_eq_true, if_false, uart1IRQHandler,
      if_pos hcount', List.cons_append, List.nil_append]

end Handler

/-! ### Short messages over an empty ring -/

/-- The ring holds the bytes `tx`, and is flushed if it holds none. -/
structure Queued (r : TxRing) (tx : List UInt8) : Prop where
  items : r.items = tx
  valid : r.Valid
  flushed : tx = [] → r.head = 0 ∧ r.tail = 0

namespace Queued

variable {r : TxRing} {b : UInt8} {tx str : List UInt8}

/-- After `serial_init`. -/
theorem init (txbuff : CArray UInt8 txSize) : Queued ⟨txbuff, 0, 0⟩ [] :=
  ⟨rfl, ⟨Nat.le_refl 0, Nat.zero_le _⟩, fun _ => ⟨rfl, rfl⟩⟩

/-- A short message is queued in the empty ring. -/
theorem send (h : Queued r []) (hpos : str ≠ []) (hlen : str.length ≤ 64) :
    ∃ r', serialSend r str = some (str.length, r') ∧ Queued r' str := by
  obtain ⟨hhead, htail⟩ := h.flushed rfl
  have hsize : txSize = 192 := rfl
  have hfree : str.length ≤ r.getFree := by
    rw [Ring.getFree, Ring.getCount, hhead, htail]
    omega
  have hslot : ∀ k < 64, (Ring.slot txSize k).1 = k := by decide
  obtain ⟨r', hr', hitems, hvalid⟩ := Ring.insertMult_of_fits h.valid hfree
    (Ring.fits_of_start (fun k hk => hslot k (by omega)) hhead)
  refine ⟨r', ?_, ?_, hvalid, fun hnil => absurd hnil hpos⟩
  · have hlen0 := mt List.length_eq_zero_iff.mp hpos
    rw [serialSend, if_neg (by omega), if_neg (by omega), hr']
  · rw [hitems, h.items, List.nil_append]

/-- The handler takes a byte. -/
theorem irq (h : Queued r (b :: tx)) :
    ∃ r', uart1IRQHandler r 1 = ([b], r') ∧ Queued r' tx := by
  obtain ⟨r', hpop, hitems, hvalid, hcount⟩ := pop_of_items h.valid h.items
  have hone : uart1IRQHandler r 1 =
      ([b], if r'.isEmpty then r'.flush else r') := by
    simp only [uart1IRQHandler, if_pos hcount, Ring.drain, hpop]
  refine ⟨_, hone, ?_⟩
  by_cases he : r'.isEmpty = true
  · rw [if_pos he]
    rw [Ring.items_of_isEmpty he] at hitems
    exact ⟨hitems, Ring.valid_flush _, fun _ => ⟨rfl, rfl⟩⟩
  · rw [if_neg he]
    refine ⟨hitems, hvalid, fun htx => absurd ?_ he⟩
    have hlen : r'.getCount = 0 := by
      rw [← Ring.length_items, hitems, htx, List.length_nil]
    have hle := hvalid.le
    rw [Ring.getCount] at hlen
    rw [Ring.isEmpty, beq_iff_eq]
    omega

/-- The handler finds nothing. -/
theorem irq_nil (h : Queued r []) : uart1IRQHandler r 1 = ([], r) :=
  uart1IRQHandler_empty h.items 1

end Queued

end Roip
