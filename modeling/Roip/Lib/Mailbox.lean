/-
Roip/Lib/Mailbox.lean

A one-place mailbox of blocks.

A producer delivers single items; every `n` items form a block, and the
mailbox holds the last block formed until the consumer takes it.  This is the
purpose of a double buffer: `part` is the block being filled and `pend` the
block waiting to be taken.

`Accounts n xs taken m` says that nothing is lost, repeated or reordered: the
items `xs` put so far are the blocks `taken` so far, then the waiting block,
then the part block.  `put` keeps it unless it completes a block while another
one waits (`Accounts.put`); `take` keeps it always (`Accounts.take`).
-/
import Mathlib.Data.List.Basic
import Mathlib.Tactic.Common

namespace Roip

variable {α β : Type*} {n : Nat}

/-- The block of `n` items at position `k` (from zero) of a stream. -/
def blockAt (n : Nat) (xs : List α) (k : Nat) : List α :=
  (xs.drop (n * k)).take n

/-! ### Streams cut into blocks -/

theorem length_flatten_blocks {bs : List (List α)}
    (h : ∀ b ∈ bs, b.length = n) : bs.flatten.length = n * bs.length := by
  induction bs with
  | nil => simp
  | cons b bs ih =>
    have hb := h b (by simp)
    have ih := ih fun c hc => h c (by simp [hc])
    rw [List.flatten_cons, List.length_append, hb, ih, List.length_cons,
      Nat.mul_succ, Nat.add_comm]

/-- The blocks of a stream are the blocks it was put together from. -/
theorem blockAt_flatten {bs : List (List α)} (h : ∀ b ∈ bs, b.length = n)
    (rest : List α) {k : Nat} (hk : k < bs.length) :
    blockAt n (bs.flatten ++ rest) k = bs[k] := by
  induction bs generalizing k with
  | nil => simp at hk
  | cons b bs ih =>
    have hb := h b (by simp)
    rcases k with - | k
    · simp [blockAt, ← hb]
    · have hk' : k < bs.length := by simpa using hk
      have := ih (fun c hc => h c (by simp [hc])) hk'
      rw [List.getElem_cons_succ, ← this]
      unfold blockAt
      rw [List.flatten_cons, List.append_assoc, Nat.mul_succ, Nat.add_comm,
        ← List.drop_drop, ← hb, List.drop_left]

/-! ### The mailbox -/

/-- The block waiting to be taken, and the block being filled. -/
structure Mailbox (α : Type*) where
  pend : Option (List α)
  part : List α
deriving DecidableEq

namespace Mailbox

/-- Nothing waits, nothing has been put. -/
def empty : Mailbox α := ⟨none, []⟩

/-- The producer puts one item; the `n`-th item of a block sends it off. -/
def put (n : Nat) (m : Mailbox α) (x : α) : Mailbox α :=
  if (m.part ++ [x]).length < n then ⟨m.pend, m.part ++ [x]⟩
  else ⟨some (m.part ++ [x]), []⟩

/-- The consumer has taken the waiting block. -/
def take (m : Mailbox α) : Mailbox α := ⟨none, m.part⟩

/-- The items put so far are the blocks taken, then the waiting block, then
the part block. -/
structure Accounts (n : Nat) (xs : List α) (taken : List (List α))
    (m : Mailbox α) : Prop where
  stream : xs = (taken ++ m.pend.toList).flatten ++ m.part
  taken_length : ∀ b ∈ taken, b.length = n
  pend_length : ∀ b ∈ m.pend, b.length = n
  part_length : m.part.length < n

namespace Accounts

variable {xs : List α} {taken : List (List α)} {m : Mailbox α}

theorem init (hn : 0 < n) : Accounts n ([] : List α) [] empty :=
  ⟨rfl, by simp, by simp [empty], hn⟩

/-- Putting an item loses nothing, unless it completes a block while another
one waits. -/
theorem put (h : Accounts n xs taken m) (x : α)
    (hfree : m.part.length + 1 = n → m.pend = none) :
    Accounts n (xs ++ [x]) taken (m.put n x) := by
  unfold Mailbox.put
  have hlen : (m.part ++ [x]).length = m.part.length + 1 := by simp
  by_cases hc : (m.part ++ [x]).length < n
  · rw [if_pos hc]
    exact ⟨by simp [h.stream], h.taken_length, h.pend_length, hc⟩
  · rw [if_neg hc]
    have hfull : m.part.length + 1 = n := by have := h.part_length; omega
    have hnone : m.pend = none := hfree hfull
    refine ⟨by simp [h.stream, hnone], h.taken_length, ?_, by simp; omega⟩
    intro b hb
    obtain rfl : m.part ++ [x] = b := by simpa using hb
    rw [hlen, hfull]

/-- Taking the waiting block moves it to the blocks taken. -/
theorem take (h : Accounts n xs taken m) {b : List α} (hb : m.pend = some b) :
    Accounts n xs (taken ++ [b]) m.take := by
  refine ⟨by simp [h.stream, hb, Mailbox.take], ?_, by simp [Mailbox.take],
    h.part_length⟩
  intro c hc
  rcases List.mem_append.mp hc with hc | hc
  · exact h.taken_length c hc
  · obtain rfl := List.mem_singleton.mp hc
    exact h.pend_length c (by simp [hb])

theorem blocks_length (h : Accounts n xs taken m) :
    ∀ b ∈ taken ++ m.pend.toList, b.length = n := by
  intro b hb
  rcases List.mem_append.mp hb with hb | hb
  · exact h.taken_length b hb
  · exact h.pend_length b (by simpa using hb)

/-- The number of items put. -/
theorem length_eq (h : Accounts n xs taken m) :
    xs.length = n * (taken.length + m.pend.toList.length) +
      m.part.length := by
  rw [h.stream, List.length_append, length_flatten_blocks h.blocks_length,
    List.length_append]

/-- The number of blocks formed so far. -/
theorem completed (h : Accounts n xs taken m) :
    xs.length / n = taken.length + m.pend.toList.length := by
  have hn : 0 < n := Nat.zero_lt_of_lt h.part_length
  rw [h.length_eq, Nat.mul_add_div hn, Nat.div_eq_of_lt h.part_length,
    Nat.add_zero]

/-- The blocks taken are the first blocks of the stream, in order. -/
theorem taken_eq (h : Accounts n xs taken m) :
    taken = (List.range taken.length).map (blockAt n xs) := by
  refine List.ext_getElem (by simp) ?_
  intro k hk _
  have hk' : k < (taken ++ m.pend.toList).length := by simp; omega
  have := blockAt_flatten h.blocks_length m.part hk'
  rw [← h.stream, List.getElem_append_left hk] at this
  simp [this]

/-- The waiting block is the next block of the stream. -/
theorem pend_eq (h : Accounts n xs taken m) {b : List α}
    (hb : m.pend = some b) : b = blockAt n xs taken.length := by
  have hk : taken.length < (taken ++ m.pend.toList).length := by simp [hb]
  have := blockAt_flatten h.blocks_length m.part hk
  rw [← h.stream] at this
  rw [this]
  simp [hb]

end Accounts

end Mailbox

end Roip
