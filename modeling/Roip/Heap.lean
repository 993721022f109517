/-
Roip/Heap.lean

The heap of the network stack, `mem.c`.

The heap is a region of bytes, `ram`, in which every block has a `struct mem`
in front of its data.  The structures are linked by offsets into the region;
the last one, at `MEM_SIZE_ALIGNED`, is always in use.  Pointers into the
region are their offsets.  An access outside the region, an assertion that
fails and a loop that does not end are undefined.

`NO_SYS` is set, so nothing runs in between.
-/
import Roip.Lib.Tiling
import Roip.Lib.Run

namespace Roip

/-! ### Memory -/

/-- `struct mem`. -/
@[ext] structure Mem where
  next : UInt16
  prev : UInt16
  used : UInt8
deriving DecidableEq, Repr

/-- `SIZEOF_STRUCT_MEM`. -/
abbrev sizeofStructMem : Nat := 8

/-- `MEM_SIZE_ALIGNED`, the place of `ram_end`. -/
abbrev memSizeAligned : Nat := 12288

/-- `MIN_SIZE_ALIGNED`. -/
abbrev minSizeAligned : Nat := 12

/-- The bytes from `ram` on that are part of `ram_heap`, however it is
aligned. -/
abbrev ramSize : Nat := memSizeAligned + 2 * sizeofStructMem

/-- `ram` and `lfree`. -/
structure Heap where
  ram : Nat → UInt8
  lfree : Nat

/-- Bytes stored from `p` on. -/
def poke (ram : Nat → UInt8) (p : Nat) (bytes : List UInt8) : Nat → UInt8 :=
  fun a => if p ≤ a then bytes[a - p]?.getD (ram a) else ram a

/-- A `mem_size_t` in memory. -/
def memSize (low high : UInt8) : UInt16 :=
  (low.toNat + 256 * high.toNat).toUInt16

/-- The bytes of a `struct mem`.  Three bytes behind them are padding. -/
def Mem.bytes (m : Mem) : List UInt8 :=
  [m.next.toUInt8, (m.next.toNat / 256).toUInt8,
    m.prev.toUInt8, (m.prev.toNat / 256).toUInt8, m.used]

/-- The structure at `ram[p]`. -/
def Heap.mem (h : Heap) (p : Nat) : Option Mem :=
  if p + sizeofStructMem ≤ ramSize then
    some ⟨memSize (h.ram p) (h.ram (p + 1)),
      memSize (h.ram (p + 2)) (h.ram (p + 3)), h.ram (p + 4)⟩
  else none

/-- An assignment to the structure at `ram[p]`. -/
def Heap.setMem (h : Heap) (p : Nat) (m : Mem) : Option Heap :=
  if p + sizeofStructMem ≤ ramSize then
    some { h with ram := poke h.ram p m.bytes }
  else none

/-- `((struct mem *)&ram[p])->prev = v`. -/
def Heap.setPrev (h : Heap) (p : Nat) (v : UInt16) : Option Heap := do
  let m ← h.mem p
  h.setMem p { m with prev := v }

/-- `mem->next - (ptr + SIZEOF_STRUCT_MEM)`, computed with 32 bits. -/
def Mem.room (m : Mem) (ptr : Nat) : Nat :=
  (m.next.toNat + 2 ^ 32 - (ptr + sizeofStructMem)) % 2 ^ 32

/-- `LWIP_MEM_ALIGN_SIZE`, assigned to a `mem_size_t`, and at least
`MIN_SIZE_ALIGNED`. -/
def memAlignSize (size : UInt16) : Nat :=
  let size := (size.toNat + 3) / 4 * 4 % 2 ^ 16
  if size < minSizeAligned then minSizeAligned else size

/-! ### The functions -/

/-- `mem_init`.  Nothing is written but the two structures. -/
def memInit (ram : Nat → UInt8) : Heap where
  ram := poke (poke ram 0 (Mem.mk memSizeAligned.toUInt16 0 0).bytes)
    memSizeAligned
    (Mem.mk memSizeAligned.toUInt16 memSizeAligned.toUInt16 1).bytes
  lfree := 0

/-- The first half of `plug_holes`. -/
def Heap.plugForward (h : Heap) (mem : Nat) : Option Heap := do
  let m ← h.mem mem
  let nmem := m.next.toNat
  let n ← h.mem nmem
  if mem ≠ nmem ∧ n.used = 0 ∧ nmem ≠ memSizeAligned then
    let h := if h.lfree = nmem then { h with lfree := mem } else h
    let h ← h.setMem mem { m with next := n.next }
    h.setPrev n.next.toNat mem.toUInt16
  else some h

/-- The second half of `plug_holes`. -/
def Heap.plugBackward (h : Heap) (mem : Nat) : Option Heap := do
  let m ← h.mem mem
  let pmem := m.prev.toNat
  let p ← h.mem pmem
  if pmem ≠ mem ∧ p.used = 0 then
    let h := if h.lfree = mem then { h with lfree := pmem } else h
    let h ← h.setMem pmem { p with next := m.next }
    h.setPrev m.next.toNat pmem.toUInt16
  else some h

/-- `plug_holes`. -/
def Heap.plugHoles (h : Heap) (mem : Nat) : Option Heap := do
  guard (mem < memSizeAligned)
  let m ← h.mem mem
  guard (m.used = 0)
  guard (m.next.toNat ≤ memSizeAligned)
  let h ← h.plugForward mem
  h.plugBackward mem

/-- `mem_free`. -/
def Heap.memFree (h : Heap) (rmem : Option Nat) : Option Heap :=
  match rmem with
  | none => some h
  | some rmem => do
    guard (rmem % 4 = 0)
    guard (rmem < memSizeAligned)
    guard (sizeofStructMem ≤ rmem)
    let mem := rmem - sizeofStructMem
    let m ← h.mem mem
    guard (m.used ≠ 0)
    let h ← h.setMem mem { m with used := 0 }
    let h := if mem < h.lfree then { h with lfree := mem } else h
    h.plugHoles mem

/-- A free `mem2` is put between `mem`, at `ptr`, and the structure at
`next`. -/
def Heap.putMem2 (h : Heap) (ptr : Nat) (mem : Mem) (ptr2 next : UInt16) :
    Option Heap := do
  let h ← h.setMem ptr2.toNat ⟨next, ptr.toUInt16, 0⟩
  let h ← h.setMem ptr { mem with next := ptr2 }
  if next.toNat ≠ memSizeAligned then h.setPrev next.toNat ptr2 else some h

/-- `mem_trim`.  That the block does not grow is asserted. -/
def Heap.memTrim (h : Heap) (rmem : Nat) (newsize : UInt16) :
    Option (Option Nat × Heap) := do
  let newsize := memAlignSize newsize
  if memSizeAligned < newsize then some (none, h)
  else
    guard (rmem < memSizeAligned)
    guard (sizeofStructMem ≤ rmem)
    let ptr := rmem - sizeofStructMem
    let mem ← h.mem ptr
    let size := mem.room ptr % 2 ^ 16
    guard (newsize ≤ size)
    if newsize = size then some (some rmem, h)
    else
      let mem2 ← h.mem mem.next.toNat
      let ptr2 := (ptr + sizeofStructMem + newsize).toUInt16
      if mem2.used = 0 then
        let h := if h.lfree = mem.next.toNat then { h with lfree := ptr2.toNat }
          else h
        let h ← h.putMem2 ptr mem ptr2 mem2.next
        some (some rmem, h)
      else if newsize + sizeofStructMem + minSizeAligned ≤ size then
        let h := if ptr2.toNat < h.lfree then { h with lfree := ptr2.toNat }
          else h
        let h ← h.putMem2 ptr mem ptr2 mem.next
        some (some rmem, h)
      else some (some rmem, h)

/-- The search of `mem_malloc`, from `ptr` on. -/
def Heap.search (h : Heap) (size : Nat) : Nat → Nat → Option (Option Nat)
  | 0, _ => none
  | fuel + 1, ptr =>
    if ptr < memSizeAligned - size then do
      let mem ← h.mem ptr
      if mem.used = 0 ∧ size ≤ mem.room ptr then some (some ptr)
      else h.search size fuel mem.next.toNat
    else some none

/-- The search for the next free block, from `cur` on. -/
def Heap.nextFree (h : Heap) : Nat → Nat → Option Nat
  | 0, _ => none
  | fuel + 1, cur => do
    let c ← h.mem cur
    if c.used ≠ 0 ∧ cur ≠ memSizeAligned then h.nextFree fuel c.next.toNat
    else some cur

/-- The block at `ptr` is taken, and split when the rest is large enough. -/
def Heap.split (h : Heap) (ptr size : Nat) : Option Heap := do
  let mem ← h.mem ptr
  if size + sizeofStructMem + minSizeAligned ≤ mem.room ptr then
    let ptr2 := (ptr + sizeofStructMem + size).toUInt16
    h.putMem2 ptr { mem with used := 1 } ptr2 mem.next
  else h.setMem ptr { mem with used := 1 }

/-- The lowest free block is searched again, if it was taken. -/
def Heap.adjustLfree (h : Heap) (mem : Nat) : Option Heap :=
  if mem = h.lfree then do
    let lfree ← h.nextFree (memSizeAligned + 1) h.lfree
    let l ← h.mem lfree
    guard (lfree = memSizeAligned ∨ l.used = 0)
    some { h with lfree }
  else some h

/-- `mem_malloc`. -/
def Heap.memMalloc (h : Heap) (size : UInt16) : Option (Option Nat × Heap) :=
  if size = 0 then some (none, h)
  else
    let size := memAlignSize size
    if memSizeAligned < size then some (none, h)
    else do
      match ← h.search size (memSizeAligned + 1) h.lfree with
      | none => some (none, h)
      | some ptr =>
        let h ← h.split ptr size
        let h ← h.adjustLfree ptr
        guard (ptr + sizeofStructMem + size ≤ memSizeAligned)
        guard ((ptr + sizeofStructMem) % 4 = 0)
        guard (ptr % 4 = 0)
        some (some (ptr + sizeofStructMem), h)

/-! ### Reading and writing -/

theorem heapSizes : sizeofStructMem = 8 ∧ minSizeAligned = 12 ∧
    memSizeAligned = 12288 ∧ ramSize = 12304 := ⟨rfl, rfl, rfl, rfl⟩

section Memory

variable {h h' h'' : Heap} {m : Mem} {p q : Nat}

theorem poke_outside {ram : Nat → UInt8} {bytes : List UInt8} {a : Nat}
    (h : a < p ∨ p + bytes.length ≤ a) : poke ram p bytes a = ram a := by
  unfold poke
  split
  · rw [List.getElem?_eq_none (by omega)]
    rfl
  · rfl

theorem poke_inside (ram : Nat → UInt8) {bytes : List UInt8} {i : Nat}
    {b : UInt8} (h : bytes[i]? = some b) : poke ram p bytes (p + i) = b := by
  rw [poke, if_pos (Nat.le_add_right p i), Nat.add_sub_cancel_left, h]
  rfl

/-- A `mem_size_t` is read back. -/
theorem memSize_bytes (n : UInt16) :
    memSize n.toUInt8 (n.toNat / 256).toUInt8 = n := by
  have hn := n.toNat_lt
  have hlow : n.toUInt8.toNat = n.toNat % 256 := UInt16.toNat_toUInt8 n
  have hhigh : (n.toNat / 256).toUInt8.toNat = n.toNat / 256 :=
    UInt8.toNat_ofNat_of_lt' (by
      show n.toNat / 256 < 256
      omega)
  rw [memSize, hlow, hhigh, Nat.mod_add_div]
  exact UInt16.ofNat_toNat

/-- A structure is read back. -/
theorem mem_poke (h : Heap) (m : Mem) (hp : p + sizeofStructMem ≤ ramSize)
    (hram : ∀ i b, m.bytes[i]? = some b → h.ram (p + i) = b) :
    h.mem p = some m := by
  have h0 := hram 0 _ rfl
  rw [Nat.add_zero] at h0
  rw [Heap.mem, if_pos hp, h0, hram 1 _ rfl, hram 2 _ rfl, hram 3 _ rfl,
    hram 4 _ rfl, memSize_bytes, memSize_bytes]

/-- The same bytes, except in the structures at `ps`. -/
def Keeps (h h' : Heap) (ps : List Nat) : Prop :=
  ∀ a, (∀ p ∈ ps, a < p ∨ p + sizeofStructMem ≤ a) → h'.ram a = h.ram a

theorem Keeps.refl (h : Heap) : Keeps h h [] := fun _ _ => rfl

theorem Keeps.trans {ps qs : List Nat} (h₁ : Keeps h h' ps)
    (h₂ : Keeps h' h'' qs) : Keeps h h'' (ps ++ qs) := by
  intro a ha
  rw [h₂ a fun p hp => ha p (List.mem_append_right ps hp),
    h₁ a fun p hp => ha p (List.mem_append_left qs hp)]

theorem Keeps.mono {ps qs : List Nat} (h₁ : Keeps h h' ps) (hsub : ps ⊆ qs) :
    Keeps h h' qs := fun a ha => h₁ a fun p hp => ha p (hsub hp)

/-- A structure is a matter of its bytes. -/
theorem mem_congr (hram : ∀ i < sizeofStructMem,
    h'.ram (q + i) = h.ram (q + i)) : h'.mem q = h.mem q := by
  have h0 := hram 0 (by decide)
  rw [Nat.add_zero] at h0
  rw [Heap.mem, Heap.mem, h0, hram 1 (by decide), hram 2 (by decide),
    hram 3 (by decide), hram 4 (by decide)]

/-- A structure apart from those that were written. -/
theorem Keeps.mem {ps : List Nat} (hf : Keeps h h' ps)
    (hq : ∀ p ∈ ps, p + sizeofStructMem ≤ q ∨ q + sizeofStructMem ≤ p) :
    h'.mem q = h.mem q := by
  refine mem_congr fun i hi => hf _ fun p hp => ?_
  have := hq p hp
  omega

theorem setMem_spec (h : Heap) (m : Mem) (hp : p ≤ memSizeAligned) :
    ∃ h', h.setMem p m = some h' ∧ h'.mem p = some m ∧ Keeps h h' [p] ∧
      h'.lfree = h.lfree := by
  have hsizes := heapSizes
  have hroom : p + sizeofStructMem ≤ ramSize := by omega
  refine ⟨_, if_pos hroom, ?_, fun a ha => ?_, rfl⟩
  · exact mem_poke _ m hroom fun i b hb => poke_inside h.ram hb
  · have := ha p List.mem_cons_self
    have hlen : m.bytes.length = 5 := rfl
    exact poke_outside (by omega)

theorem setPrev_spec (h : Heap) (v : UInt16) (hp : p ≤ memSizeAligned)
    (hm : h.mem p = some m) :
    ∃ h', h.setPrev p v = some h' ∧ h'.mem p = some { m with prev := v } ∧
      Keeps h h' [p] ∧ h'.lfree = h.lfree := by
  rw [Heap.setPrev, hm]
  exact setMem_spec h _ hp

end Memory

end Roip
