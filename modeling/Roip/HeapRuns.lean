/-
Roip/HeapRuns.lean

The heap and its users.

The users of the heap get blocks from `mem_malloc`, write to them, shorten
them with `mem_trim` and give them back with `mem_free`.  As long as they keep
to what they have got, and ask for no size that comes round when it is
aligned, the heap never fails, no two of them share a byte, and what they have
written stays as it is (`heap_safe`).  No block is refused as long as there is
a free one that is large enough (`malloc_refused`), and a block that is given
back leaves no trace (`malloc_free`).
-/
import Mathlib.Data.List.Nodup
import Roip.Allocation

namespace Roip

open Tiling

/-! ### The users -/

/-- What a user of the heap does. -/
inductive HeapAct
  | malloc (size : UInt16)
  | free (rmem : Nat)
  | trim (rmem : Nat) (newsize : UInt16)
  | write (a : Nat) (b : UInt8)
deriving DecidableEq

/-- The heap, the blocks its users have, each with the size they asked for,
and what they have written to them. -/
structure HeapUse where
  heap : Heap
  live : List (Nat × Nat)
  written : Nat → Option UInt8

/-- A step, with the pointer it returns. -/
def heapStep (c : HeapUse) : HeapAct → Traced (Option Nat) HeapUse
  | .malloc size => do
    let (rmem, heap) ← Traced.ofOption (c.heap.memMalloc size)
    Traced.emit rmem
    match rmem with
    | none => pure { c with heap }
    | some p => pure {
        heap
        live := (p, size.toNat) :: c.live
        written := fun a =>
          if p ≤ a ∧ a < p + size.toNat then none else c.written a }
  | .free rmem => do
    let heap ← Traced.ofOption (c.heap.memFree (some rmem))
    pure { c with heap, live := c.live.filter fun x => x.1 != rmem }
  | .trim rmem newsize => do
    let (r, heap) ← Traced.ofOption (c.heap.memTrim rmem newsize)
    Traced.emit r
    match r with
    | none => pure { c with heap }
    | some p => pure { c with
        heap
        live := c.live.map fun x =>
          if x.1 = p then (p, newsize.toNat) else x }
  | .write a b => pure { c with
      heap := { c.heap with ram := poke c.heap.ram a [b] }
      written := fun i => if i = a then some b else c.written i }

/-- A user keeps to the blocks it has, and asks for at most 65532 bytes: a
larger size comes round to 0 when it is aligned, and `mem_malloc` then returns a
block of 12 bytes (`memMalloc_wraps`). -/
def Legal (c : HeapUse) : HeapAct → Prop
  | .malloc size => size.toNat ≤ 65532
  | .free rmem => ∃ x ∈ c.live, x.1 = rmem
  | .trim rmem newsize => ∃ x ∈ c.live, x.1 = rmem ∧ newsize.toNat ≤ x.2
  | .write a _ => ∃ x ∈ c.live, x.1 ≤ a ∧ a < x.1 + x.2

instance (c : HeapUse) : DecidablePred (Legal c)
  | .malloc _ => inferInstanceAs (Decidable (_ ≤ _))
  | .free _ => inferInstanceAs (Decidable (∃ x ∈ c.live, _))
  | .trim _ _ => inferInstanceAs (Decidable (∃ x ∈ c.live, _))
  | .write _ _ => inferInstanceAs (Decidable (∃ x ∈ c.live, _))

/-- The heap after `mem_init`. -/
def heapInit (ram : Nat → UInt8) : HeapUse := ⟨memInit ram, [], fun _ => none⟩

/-! ### What holds of every run -/

/-- The users' blocks are the blocks in use, and hold what was written. -/
structure HeapInv (c : HeapUse) (bs : List Tile) : Prop where
  tiled : c.heap.Tiled bs
  nodup : (c.live.map Prod.fst).Nodup
  block : ∀ x ∈ c.live, ∃ y ∈ inUse sizeofStructMem 0 bs,
    x.1 = y.1 + sizeofStructMem ∧ x.2 ≤ y.2
  live : ∀ y ∈ inUse sizeofStructMem 0 bs,
    y.1 + sizeofStructMem ∈ c.live.map Prod.fst
  bytes : ∀ x ∈ c.live, ∀ a, x.1 ≤ a → a < x.1 + x.2 →
    ∀ b, c.written a = some b → c.heap.ram a = b

section Steps

variable {c c' : HeapUse} {bs : List Tile}

theorem memInit_tiled (ram : Nat → UInt8) :
    (memInit ram).Tiled [⟨memSizeAligned - sizeofStructMem, false⟩] := by
  have hfirst : (memInit ram).mem 0 = some ⟨memSizeAligned.toUInt16, 0, 0⟩ := by
    refine mem_poke _ _ (by decide) fun i b hb => ?_
    rw [Nat.zero_add]
    have hi : i < 5 := (List.getElem?_eq_some_iff.mp hb).1
    have hlen : (Mem.mk memSizeAligned.toUInt16 memSizeAligned.toUInt16
      1).bytes.length = 5 := rfl
    have hsizes := heapSizes
    show poke (poke ram 0 _) memSizeAligned _ i = b
    rw [poke_outside (by omega)]
    have := poke_inside (p := 0) ram hb
    rwa [Nat.zero_add] at this
  have hlast : (memInit ram).mem memSizeAligned =
      some ⟨memSizeAligned.toUInt16, memSizeAligned.toUInt16, 1⟩ :=
    mem_poke _ _ (by decide) fun i b hb => poke_inside _ hb
  refine ⟨⟨⟨0, ?_, rfl, rfl⟩, _, hlast, by decide⟩, rfl, ?_, ?_, ?_⟩
  · exact link_of_mem hfirst (by decide) rfl (by decide)
  · exact List.IsChain.singleton _
  · exact List.forall_mem_singleton.mpr (by decide)
  · exact List.forall_mem_singleton.mpr (by decide)

theorem heapInv_init (ram : Nat → UInt8) :
    HeapInv (heapInit ram) [⟨memSizeAligned - sizeofStructMem, false⟩] where
  tiled := memInit_tiled ram
  nodup := List.nodup_nil
  block := nofun
  live := by simp
  bytes := nofun

/-- What was written is still there. -/
theorem HeapInv.kept {h' : Heap} {bs' : List Tile} (hi : HeapInv c bs)
    (ht : c.heap.Touches h' bs bs') {x y z : Nat × Nat} (hx : x ∈ c.live)
    (hxy : x.1 = y.1 + sizeofStructMem) (hy : y ∈ inUse sizeofStructMem 0 bs)
    (hz : z ∈ inUse sizeofStructMem 0 bs') (hzy : z.1 = y.1) {n a : Nat}
    (hny : n ≤ y.2) (hnz : n ≤ z.2) (hnx : n ≤ x.2) (ha : x.1 ≤ a)
    (ha' : a < x.1 + n) {b : UInt8} (hb : c.written a = some b) :
    h'.ram a = b := by
  obtain ⟨q, t⟩ := z
  dsimp only at hzy hnz
  subst hzy
  rw [ht.data hy hz (by omega) (by omega) (by omega)]
  exact hi.bytes x hx a ha (by omega) b hb

theorem HeapInv.malloc (hi : HeapInv c bs) {size : UInt16}
    (hsize : size.toNat ≤ 65532) (hpos : size ≠ 0)
    {pre post : List Tile} {s : Nat}
    (hfit : firstFit (memAlignSize size) bs = some (pre, s, post)) :
    ∃ c', heapStep c (.malloc size) =
        ⟨[some (extent sizeofStructMem pre + sizeofStructMem)], some c'⟩ ∧
      HeapInv c' (pre ++ carve sizeofStructMem minSizeAligned
        (memAlignSize size) s ++ post) := by
  obtain ⟨h', hmalloc, ht, htouch⟩ := memMalloc_spec hi.tiled hpos hfit
  obtain ⟨rfl, hs, -⟩ := firstFit_eq_some hfit
  have hround := (memAlignSize_spec size).2.2 hsize
  obtain ⟨t, hnt, hcarve⟩ := inUse_carve (k := sizeofStructMem)
    (m := minSizeAligned) (extent sizeofStructMem pre) hs
  -- the blocks in use, before and after
  obtain ⟨us, vs, hbs, hbs'⟩ : ∃ us vs,
      inUse sizeofStructMem 0 (pre ++ ⟨s, false⟩ :: post) = us ++ vs ∧
      inUse sizeofStructMem 0 (pre ++ carve sizeofStructMem minSizeAligned
        (memAlignSize size) s ++ post) =
          us ++ (extent sizeofStructMem pre, t) :: vs := by
    refine ⟨_, _, inUse_append _ 0 pre _, ?_⟩
    rw [List.append_assoc, inUse_append, inUse_append, Nat.zero_add, hcarve,
      extent_carve]
    simp [Nat.add_assoc]
  have hne := ne_of_inUse (by decide) hbs'
  refine ⟨_, by simp only [heapStep, hmalloc]; rfl, ht, ?_, ?_, ?_, ?_⟩
  · refine List.nodup_cons.mpr ⟨fun hmem => ?_, hi.nodup⟩
    obtain ⟨x, hx, hxp⟩ := List.mem_map.mp hmem
    obtain ⟨y, hy, hxy, -⟩ := hi.block x hx
    rw [hbs] at hy
    have := hne y hy
    dsimp only at hxp
    omega
  · intro x hx
    rcases List.mem_cons.mp hx with rfl | hx
    · refine ⟨(extent sizeofStructMem pre, t), ?_, rfl, hround.trans hnt⟩
      rw [hbs']
      exact List.mem_append_right _ List.mem_cons_self
    · obtain ⟨y, hy, hxy, hle⟩ := hi.block x hx
      rw [hbs, List.mem_append] at hy
      refine ⟨y, ?_, hxy, hle⟩
      rw [hbs', List.mem_append, List.mem_cons]
      exact hy.imp_right Or.inr
  · intro y hy
    rw [hbs', List.mem_append, List.mem_cons] at hy
    rcases hy with hy | rfl | hy
    · exact List.mem_cons_of_mem _
        (hi.live y (hbs ▸ List.mem_append_left _ hy))
    · exact List.mem_cons_self
    · exact List.mem_cons_of_mem _
        (hi.live y (hbs ▸ List.mem_append_right _ hy))
  · intro x hx a ha ha' b hb
    dsimp only at hb
    split at hb
    · cases hb
    · next hout =>
      rcases List.mem_cons.mp hx with rfl | hx
      · exact absurd ⟨ha, ha'⟩ hout
      · obtain ⟨y, hy, hxy, hle⟩ := hi.block x hx
        have hy' : y ∈ inUse sizeofStructMem 0 (pre ++ carve sizeofStructMem
            minSizeAligned (memAlignSize size) s ++ post) := by
          rw [hbs, List.mem_append] at hy
          rw [hbs', List.mem_append, List.mem_cons]
          exact hy.imp_right Or.inr
        exact hi.kept htouch hx hxy hy hy' rfl
          hle hle (Nat.le_refl _) ha ha' hb

/-- The block of a user. -/
theorem HeapInv.place (hi : HeapInv c bs) {x : Nat × Nat} (hx : x ∈ c.live) :
    ∃ pre s post, bs = pre ++ ⟨s, true⟩ :: post ∧ x.2 ≤ s ∧
      x.1 = extent sizeofStructMem pre + sizeofStructMem := by
  obtain ⟨⟨q, s⟩, hy, hxy, hle⟩ := hi.block x hx
  obtain ⟨pre, post, rfl, rfl⟩ := exists_of_mem_inUse hy
  exact ⟨pre, s, post, rfl, hle, by rw [hxy, Nat.zero_add]⟩

theorem HeapInv.free (hi : HeapInv c bs) {x : Nat × Nat} (hx : x ∈ c.live) :
    ∃ c' bs', heapStep c (.free x.1) = ⟨[], some c'⟩ ∧ HeapInv c' bs' := by
  obtain ⟨pre, s, post, rfl, -, hxp⟩ := hi.place hx
  obtain ⟨h', hfree, ht, htouch⟩ := memFree_spec hi.tiled
  rw [← hxp] at hfree
  obtain ⟨us, vs, hbs, hbs'⟩ : ∃ us vs,
      inUse sizeofStructMem 0 (pre ++ ⟨s, true⟩ :: post) =
        us ++ (extent sizeofStructMem pre, s) :: vs ∧
      inUse sizeofStructMem 0 (release sizeofStructMem pre s post) =
        us ++ vs := by
    refine ⟨_, _, inUse_middle _ pre post s, ?_⟩
    rw [inUse_release, Nat.zero_add]
  have hne := ne_of_inUse (by decide) hbs
  -- the blocks that stay
  have hother {z : Nat × Nat} (hz : z ∈ c.live) (hzx : z.1 ≠ x.1) :
      ∃ y ∈ us ++ vs, z.1 = y.1 + sizeofStructMem ∧ z.2 ≤ y.2 := by
    obtain ⟨y, hy, hzy, hle⟩ := hi.block z hz
    rw [hbs, List.mem_append, List.mem_cons] at hy
    rcases hy with hy | rfl | hy
    · exact ⟨y, List.mem_append_left _ hy, hzy, hle⟩
    · exact absurd (hzy.trans hxp.symm) hzx
    · exact ⟨y, List.mem_append_right _ hy, hzy, hle⟩
  have hold {y : Nat × Nat} (hy : y ∈ us ++ vs) :
      y ∈ inUse sizeofStructMem 0 (pre ++ ⟨s, true⟩ :: post) := by
    rw [hbs, List.mem_append, List.mem_cons]
    exact (List.mem_append.mp hy).imp_right Or.inr
  refine ⟨_, _, by simp only [heapStep, hfree]; rfl, ht, ?_, ?_, ?_, ?_⟩
  · exact hi.nodup.sublist (List.filter_sublist.map _)
  · intro z hz
    rw [List.mem_filter, bne_iff_ne] at hz
    rw [hbs']
    exact hother hz.1 hz.2
  · intro y hy
    rw [hbs'] at hy
    obtain ⟨z, hz, hzy⟩ := List.mem_map.mp (hi.live y (hold hy))
    have := hne y hy
    refine List.mem_map.mpr ⟨z, List.mem_filter.mpr ⟨hz, ?_⟩, hzy⟩
    rw [bne_iff_ne]
    omega
  · intro z hz a ha ha' b hb
    rw [List.mem_filter, bne_iff_ne] at hz
    obtain ⟨y, hy, hzy, hle⟩ := hother hz.1 hz.2
    exact hi.kept htouch hz.1 hzy (hold hy) (hbs' ▸ hy) rfl hle hle
      (Nat.le_refl _) ha ha' hb

theorem HeapInv.trim (hi : HeapInv c bs) {x : Nat × Nat} (hx : x ∈ c.live)
    {newsize : UInt16} (hn : newsize.toNat ≤ x.2) :
    ∃ o c' bs', heapStep c (.trim x.1 newsize) = ⟨o, some c'⟩ ∧
      HeapInv c' bs' := by
  obtain ⟨pre, s, post, rfl, hle, hxp⟩ := hi.place hx
  obtain ⟨-, hleast, hfour, hend⟩ := hi.tiled.place
  have hsizes := heapSizes
  have hround := (memAlignSize_spec newsize).2.2 (by omega)
  have hs : memAlignSize newsize ≤ s := by
    unfold memAlignSize
    dsimp only
    split <;> omega
  obtain ⟨h', htrim, ht, htouch⟩ := memTrim_spec hi.tiled hs
  rw [← hxp] at htrim
  obtain ⟨t, hnt, hshort⟩ := inUse_shorten (k := sizeofStructMem)
    (m := minSizeAligned) post hs (extent sizeofStructMem pre)
  obtain ⟨us, vs, hbs, hbs'⟩ : ∃ us vs,
      inUse sizeofStructMem 0 (pre ++ ⟨s, true⟩ :: post) =
        us ++ (extent sizeofStructMem pre, s) :: vs ∧
      inUse sizeofStructMem 0 (pre ++ shorten sizeofStructMem minSizeAligned
        (memAlignSize newsize) s post) =
          us ++ (extent sizeofStructMem pre, t) :: vs := by
    refine ⟨_, _, inUse_middle _ pre post s, ?_⟩
    rw [inUse_append, Nat.zero_add, hshort]
  have hne := ne_of_inUse (by decide) hbs'
  let f : Nat × Nat → Nat × Nat := fun z =>
    if z.1 = x.1 then (x.1, newsize.toNat) else z
  have hf (z : Nat × Nat) : (f z).1 = z.1 := by
    show (if z.1 = x.1 then (x.1, newsize.toNat) else z).1 = z.1
    split
    · next h => exact h.symm
    · rfl
  have hmap : (c.live.map f).map Prod.fst = c.live.map Prod.fst := by
    rw [List.map_map]
    exact List.map_congr_left fun z _ => hf z
  -- the block of each of the users, before and after
  have hblock {z : Nat × Nat} (hz : z ∈ c.live) :
      ∃ y ∈ inUse sizeofStructMem 0 (pre ++ ⟨s, true⟩ :: post),
        z.1 = y.1 + sizeofStructMem ∧ (f z).2 ≤ z.2 ∧ (f z).2 ≤ y.2 ∧
        ∃ w ∈ inUse sizeofStructMem 0 (pre ++ shorten sizeofStructMem
          minSizeAligned (memAlignSize newsize) s post),
          w.1 = y.1 ∧ (f z).2 ≤ w.2 := by
    obtain ⟨y, hy, hzy, hle'⟩ := hi.block z hz
    by_cases hzx : z.1 = x.1
    · have hfz : (f z).2 = newsize.toNat := by
        show (if z.1 = x.1 then (x.1, newsize.toNat) else z).2 = _
        rw [if_pos hzx]
      obtain rfl : z = x :=
        List.inj_on_of_nodup_map hi.nodup hz hx hzx
      refine ⟨(extent sizeofStructMem pre, s), ?_, hxp, ?_, ?_,
        (extent sizeofStructMem pre, t), ?_, rfl, ?_⟩
      · rw [hbs]
        exact List.mem_append_right _ List.mem_cons_self
      · rwa [hfz]
      · rw [hfz]
        exact hn.trans hle
      · rw [hbs']
        exact List.mem_append_right _ List.mem_cons_self
      · rw [hfz]
        exact hround.trans hnt
    · have hfz : f z = z := if_neg hzx
      rw [hfz]
      refine ⟨y, hy, hzy, Nat.le_refl _, hle', y, ?_, rfl, hle'⟩
      rw [hbs, List.mem_append, List.mem_cons] at hy
      rw [hbs', List.mem_append, List.mem_cons]
      rcases hy with hy | rfl | hy
      · exact Or.inl hy
      · exact absurd (hzy.trans hxp.symm) hzx
      · exact Or.inr (Or.inr hy)
  refine ⟨_, ⟨h', c.live.map f, c.written⟩, _,
    by simp only [heapStep, htrim]; rfl, ht, hmap ▸ hi.nodup, ?_, ?_, ?_⟩
  · intro z hfz
    obtain ⟨z, hz, rfl⟩ := List.mem_map.mp hfz
    obtain ⟨y, -, hzy, -, -, w, hw, hwy, hle'⟩ := hblock hz
    exact ⟨w, hw, by rw [hf, hzy, hwy], hle'⟩
  · intro y hy
    rw [hmap]
    have hlive := hi.live (y.1, if y.1 = extent sizeofStructMem pre then s
      else y.2)
    refine hlive ?_
    rw [hbs', List.mem_append, List.mem_cons] at hy
    rw [hbs, List.mem_append, List.mem_cons]
    rcases hy with hy | rfl | hy
    · rw [if_neg (hne y (List.mem_append_left _ hy))]
      exact Or.inl hy
    · exact Or.inr (Or.inl (by rw [if_pos rfl]))
    · rw [if_neg (hne y (List.mem_append_right _ hy))]
      exact Or.inr (Or.inr hy)
  · intro z hfz a ha ha' b hb
    obtain ⟨z, hz, rfl⟩ := List.mem_map.mp hfz
    rw [hf] at ha ha'
    obtain ⟨y, hy, hzy, hlz, hly, w, hw, hwy, hlw⟩ := hblock hz
    exact hi.kept htouch hz hzy hy hw hwy hly hlw hlz ha ha' hb

theorem HeapInv.write (hi : HeapInv c bs) {x : Nat × Nat} (hx : x ∈ c.live)
    {a : Nat} {b : UInt8} (ha : x.1 ≤ a) (ha' : a < x.1 + x.2) :
    ∃ c', heapStep c (.write a b) = ⟨[], some c'⟩ ∧ HeapInv c' bs := by
  obtain ⟨⟨q, s⟩, hy, hxy, hle⟩ := hi.block x hx
  dsimp only at hxy hle
  refine ⟨_, rfl, hi.tiled.write hy (by omega) (by omega), hi.nodup, hi.block,
    hi.live, fun z hz i hi₁ hi₂ b' hb' => ?_⟩
  dsimp only at hb' ⊢
  split at hb'
  · next heq =>
    cases hb'
    have hpoke := poke_inside (p := a) c.heap.ram
      (show [b][0]? = some b from rfl)
    rw [heq]
    exact hpoke
  · next hne =>
    rw [poke_outside (by rw [List.length_singleton]; omega)]
    exact hi.bytes z hz i hi₁ hi₂ b' hb'

/-- **A legal step** is defined, and keeps the invariant. -/
theorem HeapInv.step (hi : HeapInv c bs) {a : HeapAct} (hl : Legal c a) :
    ∃ o c' bs', heapStep c a = ⟨o, some c'⟩ ∧ HeapInv c' bs' := by
  cases a with
  | malloc size =>
    by_cases hpos : size = 0
    · have hnone := memMalloc_none hi.tiled (Or.inl hpos)
      refine ⟨[none], c, bs, ?_, hi⟩
      simp only [heapStep, hnone]
      rfl
    · rcases hfit : firstFit (memAlignSize size) bs with - | ⟨pre, s, post⟩
      · have hnone := memMalloc_none hi.tiled (Or.inr hfit)
        refine ⟨[none], c, bs, ?_, hi⟩
        simp only [heapStep, hnone]
        rfl
      · obtain ⟨c', hstep, hi'⟩ := hi.malloc hl hpos hfit
        exact ⟨_, c', _, hstep, hi'⟩
  | free rmem =>
    obtain ⟨x, hx, rfl⟩ := hl
    obtain ⟨c', bs', hstep, hi'⟩ := hi.free hx
    exact ⟨_, c', bs', hstep, hi'⟩
  | trim rmem newsize =>
    obtain ⟨x, hx, rfl, hn⟩ := hl
    exact hi.trim hx hn
  | write a b =>
    obtain ⟨x, hx, ha, ha'⟩ := hl
    obtain ⟨c', hstep, hi'⟩ := hi.write hx ha ha' (b := b)
    exact ⟨_, c', bs, hstep, hi'⟩

end Steps

/-! ### Whole runs -/

/-- What the users may rely on. -/
structure HeapUse.Safe (c : HeapUse) : Prop where
  inside : ∀ x ∈ c.live, x.1 % 4 = 0 ∧ sizeofStructMem ≤ x.1 ∧
    x.1 + x.2 ≤ memSizeAligned
  disjoint : c.live.Pairwise fun x y => x.1 + x.2 ≤ y.1 ∨ y.1 + y.2 ≤ x.1
  bytes : ∀ x ∈ c.live, ∀ a, x.1 ≤ a → a < x.1 + x.2 →
    ∀ b, c.written a = some b → c.heap.ram a = b
  empty : c.live = [] → c.heap.lfree = 0 ∧
    c.heap.blocks = [⟨memSizeAligned - sizeofStructMem, false⟩]

theorem HeapInv.safe {c : HeapUse} {bs : List Tile} (hi : HeapInv c bs) :
    c.Safe where
  inside x hx := by
    obtain ⟨pre, s, post, rfl, hle, hxp⟩ := hi.place hx
    obtain ⟨hfour, -, -, hend⟩ := hi.tiled.place
    have hsizes := heapSizes
    omega
  disjoint := by
    refine (List.pairwise_map.mp hi.nodup).imp_of_mem fun hx hy hne => ?_
    obtain ⟨u, hu, hxu, hlu⟩ := hi.block _ hx
    obtain ⟨v, hv, hyv, hlv⟩ := hi.block _ hy
    have huv : u ≠ v := by
      rintro rfl
      exact hne (hxu.trans hyv.symm)
    have := inUse_apart hu hv huv
    omega
  bytes := hi.bytes
  empty hnil := by
    have hnone : inUse sizeofStructMem 0 bs = [] := by
      refine List.eq_nil_iff_forall_not_mem.mpr fun y hy => ?_
      have := hi.live y hy
      rw [hnil] at this
      cases this
    obtain ⟨q, hchain⟩ := hi.tiled.chain
    have hend := hchain.end_eq
    have hsizes := heapSizes
    have hne : bs ≠ [] := by
      rintro rfl
      rw [extent_nil] at hend
      omega
    have hone := hi.tiled.tidy.eq_singleton hnone hne
    rw [Nat.zero_add] at hend
    rw [← hend] at hone
    refine ⟨?_, hi.tiled.blocks_eq.trans hone⟩
    rw [hi.tiled.lfree, hone]
    rfl

/-- The states of a legal run. -/
theorem heapInv_run {ram : Nat → UInt8} {acts : List HeapAct}
    (hl : ∀ o c a, Feeds heapStep (heapInit ram) acts o c a → Legal c a) :
    (∃ o c, run heapStep (heapInit ram) acts = ⟨o, some c⟩) ∧
      ∀ o c, Visits heapStep (heapInit ram) acts o c →
        ∃ bs, HeapInv c bs := by
  have hinit : ∃ bs, HeapInv (heapInit ram) bs := ⟨_, heapInv_init ram⟩
  constructor
  · obtain ⟨o, c, hrun, -⟩ := run_total (I := fun _ c => ∃ bs, HeapInv c bs)
      hinit fun o c a hf hi => by
        obtain ⟨bs, hi⟩ := hi
        obtain ⟨o', c', bs', hstep, hi'⟩ := hi.step (hl o c a hf)
        exact ⟨o', c', hstep, bs', hi'⟩
    exact ⟨o, c, hrun⟩
  · intro o c hv
    refine visits_inv (I := fun _ c => ∃ bs, HeapInv c bs) hinit ?_ hv
    rintro o c a o' c' hf ⟨bs, hi⟩ hstep
    obtain ⟨o'', c'', bs', hstep', hi'⟩ := hi.step (hl o c a hf)
    obtain rfl : c'' = c' := by
      rw [hstep] at hstep'
      exact (Option.some.inj (congrArg Traced.res hstep')).symm
    exact ⟨bs', hi'⟩

/-- **The heap serves its users.**  In every run in which they keep to what
they have got and ask for at most 65532 bytes, nothing fails; in every state
their blocks are aligned, lie apart from one another inside the heap, and hold
what was written to them; and when all have been given back, the heap is one
free block again. -/
theorem heap_safe {ram : Nat → UInt8} {acts : List HeapAct}
    (hl : ∀ o c a, Feeds heapStep (heapInit ram) acts o c a → Legal c a) :
    (∃ o c, run heapStep (heapInit ram) acts = ⟨o, some c⟩) ∧
      ∀ o c, Visits heapStep (heapInit ram) acts o c → c.Safe := by
  obtain ⟨hrun, hinv⟩ := heapInv_run hl
  refine ⟨hrun, fun o c hv => ?_⟩
  obtain ⟨bs, hi⟩ := hinv o c hv
  exact hi.safe

/-- Three blocks, one of them shortened and one given back. -/
def heapActs : List HeapAct :=
  [.malloc 100, .malloc 50, .write 13 7, .trim 8 20, .malloc 30, .free 116]

theorem heapActs_legal (o : List (Option Nat)) (c : HeapUse) (a : HeapAct)
    (hf : Feeds heapStep (heapInit fun _ => 0) heapActs o c a) : Legal c a := by
  have hcheck : checkRun heapStep (fun c a => decide (Legal c a))
      (heapInit fun _ => 0) heapActs = true := by decide +kernel
  have hok := checkRun_feeds hcheck hf
  exact of_decide_eq_true hok

theorem heap_safe_acts :
    ∃ o c, run heapStep (heapInit fun _ => 0) heapActs = ⟨o, some c⟩ ∧
      c.Safe := by
  obtain ⟨⟨o, c, hrun⟩, hsafe⟩ := heap_safe heapActs_legal
  exact ⟨o, c, hrun, hsafe o c (Visits.end hrun)⟩

/-- **A request is refused**, after such a run, only when no free block is
large enough. -/
theorem malloc_refused {ram : Nat → UInt8} {acts : List HeapAct}
    (hl : ∀ o c a, Feeds heapStep (heapInit ram) acts o c a → Legal c a)
    {o : List (Option Nat)} {c : HeapUse}
    (hv : Visits heapStep (heapInit ram) acts o c) (size : UInt16) :
    (c.heap.memMalloc size).map Prod.fst = some none ↔
      size = 0 ∨ ∀ b ∈ c.heap.blocks, b.used = false →
        b.size < memAlignSize size := by
  obtain ⟨bs, hi⟩ := (heapInv_run hl).2 o c hv
  rw [hi.tiled.blocks_eq, ← firstFit_eq_none_iff]
  constructor
  · intro hnone
    by_contra hno
    obtain ⟨hpos, hfit⟩ := not_or.mp hno
    obtain ⟨⟨pre, s, post⟩, hfit⟩ := Option.ne_none_iff_exists'.mp hfit
    obtain ⟨h', hmalloc, -, -⟩ := memMalloc_spec hi.tiled hpos hfit
    rw [hmalloc] at hnone
    cases hnone
  · intro hnone
    rw [memMalloc_none hi.tiled hnone]
    rfl

/-- Two blocks, the first of which is given back: the lowest free block is a
small one. -/
def heapHole : List HeapAct := [.malloc 100, .malloc 50, .free 8]

theorem heapHole_legal (o : List (Option Nat)) (c : HeapUse) (a : HeapAct)
    (hf : Feeds heapStep (heapInit fun _ => 0) heapHole o c a) :
    Legal c a := by
  have hcheck : checkRun heapStep (fun c a => decide (Legal c a))
      (heapInit fun _ => 0) heapHole = true := by decide +kernel
  have hok := checkRun_feeds hcheck hf
  exact of_decide_eq_true hok

theorem malloc_refused_acts :
    ∃ o c, run heapStep (heapInit fun _ => 0) heapHole = ⟨o, some c⟩ ∧
      (c.heap.memMalloc 12200).map Prod.fst = some none ∧
      ((12200 : UInt16) = 0 ∨ ∀ b ∈ c.heap.blocks, b.used = false →
        b.size < memAlignSize 12200) := by
  have hend : (run heapStep (heapInit fun _ => 0) heapHole).res.map (fun c =>
      (c.heap.memMalloc 12200).map Prod.fst) = some (some none) := by
    decide +kernel
  obtain ⟨c, hres, hnone⟩ := Option.map_eq_some_iff.mp hend
  have hrun := Traced.eq_mk_of_res hres
  exact ⟨_, c, hrun, hnone,
    (malloc_refused heapHole_legal (Visits.end hrun) 12200).mp hnone⟩

/-- **Round trip.**  After such a run, a block that is taken and given back
leaves the blocks of the heap as they were, and the lowest free one too. -/
theorem malloc_free {ram : Nat → UInt8} {acts : List HeapAct}
    (hl : ∀ o c a, Feeds heapStep (heapInit ram) acts o c a → Legal c a)
    {o : List (Option Nat)} {c : HeapUse}
    (hv : Visits heapStep (heapInit ram) acts o c) {size : UInt16} {p : Nat}
    {h : Heap} (hmalloc : c.heap.memMalloc size = some (some p, h)) :
    ∃ h', h.memFree (some p) = some h' ∧ h'.blocks = c.heap.blocks ∧
      h'.lfree = c.heap.lfree := by
  obtain ⟨bs, hi⟩ := (heapInv_run hl).2 o c hv
  have hpos : size ≠ 0 := by
    rintro rfl
    rw [memMalloc_none hi.tiled (Or.inl rfl)] at hmalloc
    cases hmalloc
  rcases hfit : firstFit (memAlignSize size) bs with - | ⟨pre, s, post⟩
  · rw [memMalloc_none hi.tiled (Or.inr hfit)] at hmalloc
    cases hmalloc
  obtain ⟨h₁, hmalloc', ht, -⟩ := memMalloc_spec hi.tiled hpos hfit
  obtain ⟨rfl, -, -⟩ := firstFit_eq_some hfit
  obtain ⟨rfl, rfl⟩ : extent sizeofStructMem pre + sizeofStructMem = p ∧
      h₁ = h := by
    rw [hmalloc] at hmalloc'
    cases hmalloc'
    exact ⟨rfl, rfl⟩
  obtain ⟨t, rest, hcarve, hrelease⟩ := release_carve (k := sizeofStructMem)
    (m := minSizeAligned) (n := memAlignSize size) hi.tiled.tidy.apart
  rw [hcarve, List.append_assoc, List.cons_append] at ht
  obtain ⟨h', hfree, ht', -⟩ := memFree_spec ht
  rw [hrelease] at ht'
  exact ⟨h', hfree, ht'.blocks_eq.trans hi.tiled.blocks_eq.symm,
    ht'.lfree.trans hi.tiled.lfree.symm⟩

theorem malloc_free_acts :
    ∃ o c h h', run heapStep (heapInit fun _ => 0) heapHole = ⟨o, some c⟩ ∧
      c.heap.memMalloc 150 = some (some 176, h) ∧
      h.memFree (some 176) = some h' ∧
      h'.blocks = c.heap.blocks ∧ h'.lfree = c.heap.lfree := by
  have hend : (run heapStep (heapInit fun _ => 0) heapHole).res.map (fun c =>
      (c.heap.memMalloc 150).map Prod.fst) = some (some (some 176)) := by
    decide +kernel
  obtain ⟨c, hres, hsome⟩ := Option.map_eq_some_iff.mp hend
  obtain ⟨⟨p, h⟩, hmalloc, hp⟩ := Option.map_eq_some_iff.mp hsome
  obtain rfl : p = some 176 := hp
  have hrun := Traced.eq_mk_of_res hres
  obtain ⟨h', hfree, hblocks, hlf⟩ := malloc_free heapHole_legal
    (Visits.end hrun) hmalloc
  exact ⟨_, c, h, h', hrun, hmalloc, hfree, hblocks, hlf⟩

end Roip
