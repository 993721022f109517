/-
Roip/IdentityBounds.lean

Whether the copies into the identities fit.

An identity has 32 bytes, so a copy of at most 31 leaves room for the
terminating zero.  The length of a copy is what `get_value` has assigned, or,
if it has assigned nothing, what `len` has been before: the length of the copy
before, or in the first copy of a call an indeterminate value.  Nothing bounds
a digit run but the end of the text.  The copies of a call therefore fit
exactly when each digit run that is there fits and an indeterminate `len` that
is used happens to fit (`identities_bounded_iff`).
-/
import Roip.Events
import Roip.FieldLine

namespace Roip

/-! ### Values that are carried along -/

section Carried

variable {α β : Type*}

/-- The values of a variable that each step assigns or leaves alone. -/
def carried (f : α → Option β) : List α → β → List β
  | [], _ => []
  | a :: l, b => (f a).getD b :: carried f l ((f a).getD b)

theorem carried_append (f : α → Option β) (l l' : List α) (b : β) :
    carried f (l ++ l') b =
      carried f l b ++ carried f l' ((carried f l b).getLastD b) := by
  induction l generalizing b with
  | nil => rfl
  | cons a l ih =>
    rw [List.cons_append, carried, carried, ih, List.getLastD_cons]
    rfl

theorem carried_map {γ : Type*} (f : α → Option β) (g : γ → α) (l : List γ)
    (b : β) : carried f (l.map g) b = carried (fun a => f (g a)) l b := by
  induction l generalizing b with
  | nil => rfl
  | cons a l ih => rw [List.map_cons, carried, carried, ih]

/-- Everything carried satisfies `P` if everything assigned does, and also the
first value if nothing has been assigned to begin with. -/
theorem forall_carried_iff {f : α → Option β} {P : β → Prop} {l : List α}
    {b : β} :
    (∀ n ∈ carried f l b, P n) ↔
      (∀ a ∈ l, ∀ n, f a = some n → P n) ∧
        ∀ a, l.head? = some a → f a = none → P b := by
  induction l generalizing b with
  | nil => simp [carried]
  | cons a l ih =>
    rw [carried, List.forall_mem_cons, List.forall_mem_cons, ih]
    constructor
    · rintro ⟨ha, hl, -⟩
      refine ⟨⟨fun n hn => ?_, hl⟩, fun a' ha' hnone => ?_⟩
      · rwa [hn] at ha
      · cases ha'
        rwa [hnone] at ha
    · rintro ⟨⟨ha, hl⟩, hb⟩
      have hhere : P ((f a).getD b) := by
        rcases hf : f a with - | n
        · exact hb a rfl hf
        · exact ha n hf
      exact ⟨hhere, hl, fun _ _ _ => hhere⟩

end Carried

/-! ### The copies of a call -/

/-- What `get_value` assigns to `*out_len`. -/
def assigned (p : List UInt8) (rest place : Nat) : Option UInt8 :=
  (getValue p rest (UInt8.ofNat place)).bind Prod.snd

/-- The same, at a cursor. -/
def assignedAt (buf : List UInt8) (nbytes : Nat) (read : Nat × Nat) :
    Option UInt8 :=
  assigned (buf.drop read.1) (sub32 nbytes read.1) read.2

/-- The calls of `get_value`: the cursor and the place. -/
def readsOf (evs : List (Event × Nat)) : List (Nat × Nat) :=
  evs.flatMap fun e => e.1.places.map (e.2, ·)

/-- The lengths of the copies of a call of `radio_comm`: the values of `len`
behind each `get_value`. -/
def copiesOf (r : Radio) (i : RadioIn) : List UInt8 :=
  match accumulate r i.chunk with
  | some t =>
    if t.complete then
      carried (assignedAt t.buf.cells t.nbytes)
        (readsOf (eventsIn t.buf.cells t.nbytes)) i.len
    else []
  | none => []

/-- The three identities are strings in their own arrays. -/
structure Terminated (s : Call) : Prop where
  ssi : 0 ∈ s.ssi.cells
  gssi : 0 ∈ s.gssi.cells
  ssi2 : 0 ∈ s.ssi2.cells

theorem zero_mem_clearIdentity : 0 ∈ clearIdentity.cells := by decide

/-- A copy that is defined fits, and ends in a zero. -/
theorem storeIdentity_some {dst a : CArray UInt8 32} {s : Ptr} {n : UInt8}
    (h : storeIdentity dst s n = some a) : n.toNat ≤ 31 ∧ 0 ∈ a.cells := by
  have hset : ∃ b : CArray UInt8 32, b.set n.toNat 0 = some a := by
    unfold storeIdentity at h
    simp only [Option.bind_eq_bind] at h
    split at h <;> split at h
    · obtain ⟨b, -, hset⟩ := Option.bind_eq_some_iff.mp h
      exact Option.bind_eq_some_iff.mp hset |>.imp fun _ hb => hb.2
    · cases h
    · obtain ⟨b, -, hset⟩ := Option.bind_eq_some_iff.mp h
      exact Option.bind_eq_some_iff.mp hset |>.imp fun _ hb => hb.2
    · cases h
  obtain ⟨b, hset⟩ := hset
  obtain ⟨hn, hcells⟩ := CArray.set_eq_some_iff.mp hset
  refine ⟨Nat.le_of_lt_succ hn, ?_⟩
  rw [hcells]
  exact List.mem_set (by rw [b.size]; exact hn) 0

/-- **An event that is defined** has made only copies that fit; it leaves
`len` as the last of them. -/
theorem handleEvent_copies {ev : Event} {p : List UInt8} {rest : Nat}
    {len len' : UInt8} {s s' : Call} {o : List RadioAct}
    (h : handleEvent ev p rest len s = ⟨o, some (len', s')⟩) :
    (∀ n ∈ carried (assigned p rest) ev.places len, n.toNat ≤ 31) ∧
      (carried (assigned p rest) ev.places len).getLastD len = len' ∧
      (Terminated s → Terminated s') := by
  have hassigned (place : Nat) {v : Ptr × Option UInt8}
      (hv : getValue p rest (UInt8.ofNat place) = some v) :
      assigned p rest place = v.2 := by
    rw [assigned, hv]
    rfl
  cases ev with
  | getSsi =>
    simp only [handleEvent, Traced.ofOption_bind_eq_mk_iff,
      Traced.emit_bind_eq_mk_iff, Traced.pure_eq_mk_iff,
      Prod.mk.injEq] at h
    -- two copies: the second one begins with the `len` of the first
    obtain ⟨v, hv, ssi, hssi, _, -, v', hv', gssi, hgssi, _, -, -, rfl, rfl⟩ :=
      h
    have h5 := hassigned 5 hv
    have h12 := hassigned 12 hv'
    simp only [Event.places, carried, h5, h12]
    exact ⟨List.forall_mem_cons.mpr ⟨(storeIdentity_some hssi).1,
        List.forall_mem_singleton.mpr (storeIdentity_some hgssi).1⟩,
      rfl, fun hs => ⟨(storeIdentity_some hssi).2,
        (storeIdentity_some hgssi).2, hs.ssi2⟩⟩
  | pttPressed =>
    simp only [handleEvent, Traced.ofOption_bind_eq_mk_iff,
      Traced.emit_bind_eq_mk_iff, Traced.pure_eq_mk_iff,
      Prod.mk.injEq] at h
    obtain ⟨v, hv, ssi2, hssi2, _, -, _, -, -, rfl, rfl⟩ := h
    have h6 := hassigned 6 hv
    simp only [Event.places, carried, h6]
    exact ⟨List.forall_mem_singleton.mpr (storeIdentity_some hssi2).1, rfl,
      fun hs => ⟨hs.ssi, hs.gssi, (storeIdentity_some hssi2).2⟩⟩
  | callEst =>
    simp only [handleEvent, Traced.pure_eq_mk_iff, Prod.mk.injEq] at h
    obtain ⟨-, rfl, rfl⟩ := h
    exact ⟨fun _ hn => absurd hn List.not_mem_nil, rfl,
      fun hs => ⟨hs.ssi, hs.gssi, hs.ssi2⟩⟩
  | pttReleased =>
    simp only [handleEvent, Traced.emit_bind_eq_mk_iff,
      Traced.pure_eq_mk_iff, Prod.mk.injEq] at h
    obtain ⟨_, -, _, -, -, rfl, rfl⟩ := h
    exact ⟨fun _ hn => absurd hn List.not_mem_nil, rfl,
      fun hs => ⟨hs.ssi, hs.gssi, zero_mem_clearIdentity⟩⟩
  | callEnd =>
    simp only [handleEvent, Traced.emit_bind_eq_mk_iff,
      Traced.pure_eq_mk_iff, Prod.mk.injEq] at h
    obtain ⟨_, -, _, -, -, rfl, rfl⟩ := h
    exact ⟨fun _ hn => absurd hn List.not_mem_nil, rfl, fun hs =>
      ⟨zero_mem_clearIdentity, zero_mem_clearIdentity, hs.ssi2⟩⟩

/-- The events of a text, one after the other. -/
theorem handleAll_copies {buf : List UInt8} {nbytes : Nat}
    {evs : List (Event × Nat)} {len : UInt8} {s s' : Call} {o : List RadioAct}
    (h : handleAll buf nbytes evs len s = ⟨o, some s'⟩) :
    (∀ n ∈ carried (assignedAt buf nbytes) (readsOf evs) len, n.toNat ≤ 31) ∧
      (Terminated s → Terminated s') := by
  induction evs generalizing len s o with
  | nil =>
    obtain ⟨-, rfl⟩ := Traced.pure_eq_mk_iff.mp h
    rw [readsOf, List.flatMap_nil, carried]
    exact ⟨fun n hn => absurd hn List.not_mem_nil, id⟩
  | cons e evs ih =>
    rw [handleAll, Traced.bind_eq_mk_iff] at h
    obtain ⟨⟨len₁, s₁⟩, o₁, hev, hrest, -⟩ := h
    obtain ⟨hfit, hlast, hterm⟩ := handleEvent_copies (Traced.eq_mk_of_res hev)
    obtain ⟨hfit', hterm'⟩ := ih hrest
    rw [readsOf, List.flatMap_cons, carried_append, carried_map]
    show (∀ n ∈ carried (assigned (buf.drop e.2) (sub32 nbytes e.2))
      e.1.places len ++ carried (assignedAt buf nbytes) (readsOf evs)
        ((carried (assigned (buf.drop e.2) (sub32 nbytes e.2))
          e.1.places len).getLastD len), n.toNat ≤ 31) ∧ _
    rw [hlast, List.forall_mem_append]
    exact ⟨⟨hfit, hfit'⟩, hterm' ∘ hterm⟩

/-! ### The lengths of a text -/

/-- What is assigned at a cursor of a text: the length of the segment, if it
is there. -/
theorem assignedAt_text {x : List UInt8} (r : List UInt8) {c place : Nat}
    (hx : x.length < 256) (hc : c ≤ x.length + 1) (h2 : 2 ≤ place)
    (h256 : place ≤ 256) :
    assignedAt (x ++ 10 :: r) (x.length + 1) (c, place) =
      if place - 1 ≤ separators (x.drop c) then
        some (UInt8.ofNat (segment place (x.drop c)).length)
      else none := by
  rw [assignedAt, assigned, sub32_of_le (by omega) hc]
  by_cases hlt : c < x.length + 1
  · rw [getValue_at x r hlt (by omega) h256, valueIn]
    split <;> rfl
  · rw [if_neg (mt (lt_of_separators h2) hlt), getValue_behind hlt]
    rfl

/-- The digit runs a text has at the places asked for have at most 31 digits;
and if it has none for the first of them, the indeterminate `len` is at most
31. -/
def FieldsFit (m : List UInt8) (len : UInt8) : Prop :=
  (∀ read ∈ readsOf (eventsIn m m.length),
    read.2 - 1 ≤ separators (restOfText m read.1) →
      (segment read.2 (restOfText m read.1)).length ≤ 31) ∧
  ∀ read, (readsOf (eventsIn m m.length)).head? = some read →
    separators (restOfText m read.1) < read.2 - 1 → len.toNat ≤ 31

theorem eventsIn_behind (x r : List UInt8) :
    eventsIn (x ++ 10 :: r) (x.length + 1) =
      eventsIn (x ++ [10]) (x ++ [10]).length := by
  obtain ⟨evs, hpath, -⟩ := path_text x (Nat.zero_le _)
    (Nat.le_add_left (x.length + 1) 0)
  rw [List.length_append, List.length_singleton, eventsIn, eventsIn, hpath,
    hpath]

/-- Every read of a text is at a cursor inside it. -/
theorem readsOf_text {x r : List UInt8} {read : Nat × Nat}
    (h : read ∈ readsOf (eventsIn (x ++ 10 :: r) (x.length + 1))) :
    read.1 ≤ x.length + 1 ∧ 2 ≤ read.2 ∧ read.2 ≤ 256 := by
  obtain ⟨e, he, hread⟩ := List.mem_flatMap.mp h
  obtain ⟨place, hplace, rfl⟩ := List.mem_map.mp hread
  exact ⟨((path_eventsIn x r).2 e he).2, e.1.places_bounds place hplace⟩

/-- **The copies of a text fit** exactly when its fields do. -/
theorem copies_text_iff {x : List UInt8} (r : List UInt8)
    (hx : x.length < 256) (len : UInt8) :
    (∀ n ∈ carried (assignedAt (x ++ 10 :: r) (x.length + 1))
        (readsOf (eventsIn (x ++ 10 :: r) (x.length + 1))) len,
      n.toNat ≤ 31) ↔ FieldsFit (x ++ [10]) len := by
  have hreads {read : Nat × Nat}
      (h : read ∈ readsOf (eventsIn (x ++ 10 :: r) (x.length + 1))) :
      assignedAt (x ++ 10 :: r) (x.length + 1) read =
        if read.2 - 1 ≤ separators (x.drop read.1) then
          some (UInt8.ofNat (segment read.2 (x.drop read.1)).length)
        else none := by
    obtain ⟨hc, h2, h256⟩ := readsOf_text h
    exact assignedAt_text r hx hc h2 h256
  -- `len` is carried from one read to the next; only the first can find
  -- it indeterminate
  rw [forall_carried_iff, FieldsFit, ← eventsIn_behind x r]
  simp only [restOfText_text]
  refine and_congr (forall₂_congr fun read hread => ?_)
    (forall₂_congr fun read hread => ?_)
  · rw [hreads hread]
    have hlen := segment_length_le read.2 (x.drop read.1)
    rw [List.length_drop] at hlen
    by_cases hsep : read.2 - 1 ≤ separators (x.drop read.1)
    · rw [if_pos hsep, forall_prop_of_true hsep]
      simp only [Option.some.injEq, forall_eq', UInt8.toNat_ofNat']
      rw [Nat.mod_eq_of_lt (by omega)]
    · rw [if_neg hsep, forall_prop_of_false hsep]
      exact iff_of_true nofun trivial
  · rw [hreads (List.mem_of_mem_head? hread)]
    by_cases hsep : read.2 - 1 ≤ separators (x.drop read.1)
    · rw [if_pos hsep, forall_prop_of_false (Nat.not_lt.mpr hsep)]
      exact iff_of_true nofun trivial
    · rw [if_neg hsep, forall_prop_of_true rfl,
        forall_prop_of_true (Nat.lt_of_not_le hsep)]

/-! ### Runs -/

/-- A call that does not complete its text makes no copy; one that does makes
those of the text. -/
theorem copiesOf_iff {r : Radio} {i : RadioIn} :
    (∀ n ∈ copiesOf r i, n.toNat ≤ 31) ↔
      (r.nbytes + i.chunk.length ≤ 256 →
        (r.pending ++ i.chunk).getLast? = some 10 →
          FieldsFit (r.pending ++ i.chunk) i.len) := by
  by_cases hroom : r.nbytes + i.chunk.length ≤ 256
  · -- the chunk fits: the text is complete if it ends in a newline
    obtain ⟨buf, hacc, hbuf⟩ := accumulate_eq hroom
    have hcomplete := complete_iff (r := ⟨r.call, _, buf⟩) hroom
    rw [Radio.pending, hbuf] at hcomplete
    rw [forall_prop_of_true hroom, copiesOf, hacc]
    dsimp only
    by_cases hlast : (r.pending ++ i.chunk).getLast? = some 10
    · rw [if_pos (hcomplete.mpr hlast), forall_prop_of_true hlast]
      have hlen := congrArg List.length hbuf
      obtain ⟨x, hx⟩ := List.getLast?_eq_some_iff.mp hlast
      rw [hx] at hbuf hlen ⊢
      rw [List.length_take, buf.size, List.length_append,
        List.length_singleton, Nat.min_eq_left hroom] at hlen
      rw [hlen] at hbuf ⊢
      rw [eq_text hbuf]
      exact copies_text_iff _ (by omega) i.len
    · rw [if_neg (mt hcomplete.mp hlast), forall_prop_of_false hlast]
      exact iff_of_true (fun _ hn => absurd hn List.not_mem_nil) trivial
  · have hacc : accumulate r i.chunk = none := by
      rw [accumulate, CArray.memcpy, dif_neg hroom]
      rfl
    rw [forall_prop_of_false hroom, copiesOf, hacc]
    exact iff_of_true (fun _ hn => absurd hn List.not_mem_nil) trivial

/-- The text of a call that completes it. -/
theorem exists_text_of_complete {r : Radio} (h : r.complete) :
    ∃ x rest, r.buf.cells = x ++ 10 :: rest ∧ r.nbytes = x.length + 1 := by
  rw [Radio.complete, Bool.and_eq_true, decide_eq_true_eq,
    decide_eq_true_eq] at h
  obtain ⟨hlt, -⟩ := List.getElem?_eq_some_iff.mp h.2
  rw [r.buf.size] at hlt
  exact exists_text h.1 (by omega) h.2

/-- **A call that is defined** has made only copies that fit, and leaves
strings in the identities. -/
theorem radioComm_copies {r r' : Radio} {i : RadioIn} {o : List RadioAct}
    (h : radioComm r i = ⟨o, some r'⟩) :
    (∀ n ∈ copiesOf r i, n.toNat ≤ 31) ∧
      (Terminated r.call → Terminated r'.call) := by
  unfold radioComm at h
  obtain ⟨t, hacc, hrest⟩ := Traced.ofOption_bind_eq_mk_iff.mp h
  have hcall : t.call = r.call := by
    obtain ⟨buf, -, rfl⟩ := Option.map_eq_some_iff.mp hacc
    rfl
  rw [copiesOf, hacc, ← hcall]
  dsimp only
  by_cases hc : t.complete
  · rw [if_pos hc] at hrest ⊢
    obtain ⟨_, -, hloop⟩ := Traced.emit_bind_eq_mk_iff.mp hrest
    obtain ⟨call, _, hscan, hret, -⟩ := Traced.bind_eq_mk_iff.mp hloop
    obtain ⟨-, rfl⟩ := Traced.pure_eq_mk_iff.mp hret
    obtain ⟨x, rest, hbuf, hnbytes⟩ := exists_text_of_complete hc
    rw [hbuf, hnbytes] at hscan ⊢
    rw [scan_eq_handleAll (path_eventsIn x rest).1] at hscan
    exact handleAll_copies (Traced.eq_mk_of_res hscan)
  · rw [if_neg hc] at hrest ⊢
    obtain ⟨-, rfl⟩ := Traced.pure_eq_mk_iff.mp hrest
    exact ⟨fun n hn => absurd hn List.not_mem_nil, id⟩

/-- In a run, every copy into an identity leaves room for the terminating
zero, and the identities are strings in their own arrays. -/
structure IdentitiesBounded (r : Radio) (ins : List RadioIn) : Prop where
  copies : ∀ o t i, Feeds radioComm r ins o t i →
    ∀ n ∈ copiesOf t i, n.toNat ≤ 31
  terminated : ∀ o t, Visits radioComm r ins o t → Terminated t.call

/-- **The identities do not overflow** exactly when the fields of every text
fit. -/
theorem identities_bounded_iff {ins : List RadioIn} :
    IdentitiesBounded radioInit ins ↔
      ∀ o t i, Feeds radioComm radioInit ins o t i →
        t.nbytes + i.chunk.length ≤ 256 →
          (t.pending ++ i.chunk).getLast? = some 10 →
            FieldsFit (t.pending ++ i.chunk) i.len := by
  constructor
  · intro h o t i hf
    exact copiesOf_iff.mp (h.copies o t i hf)
  · intro h
    refine ⟨fun o t i hf => copiesOf_iff.mpr (h o t i hf), fun o t hv => ?_⟩
    refine visits_inv (I := fun _ t => Terminated t.call)
      ⟨zero_mem_clearIdentity, zero_mem_clearIdentity, zero_mem_clearIdentity⟩
      ?_ hv
    intro o t i o' t' _ ht hcomm
    exact (radioComm_copies hcomm).2 ht

/-- A station with 32 digits, and a transmission without a station, whose
copy is as long as the indeterminate `len`. -/
theorem not_identities_bounded :
    let long : RadioIn := ⟨bytesOf "+CTXG:0,3,0,0,0," ++
      List.replicate 32 0x31 ++ bytesOf "\r\n", 0⟩
    let short : RadioIn := ⟨bytesOf "+CTXG:0\r\n", 200⟩
    copiesOf radioInit long = [32] ∧
      ¬ IdentitiesBounded radioInit [long] ∧
      copiesOf radioInit short = [200] ∧
      ¬ IdentitiesBounded radioInit [short] := by
  intro long short
  have hlong : copiesOf radioInit long = [32] := by decide +kernel
  have hshort : copiesOf radioInit short = [200] := by decide +kernel
  have hunbounded (i : RadioIn) (n : UInt8) (hn : ¬ n.toNat ≤ 31)
      (hcopies : copiesOf radioInit i = [n]) :
      ¬ IdentitiesBounded radioInit [i] := by
    intro h
    refine hn (h.copies _ _ _ (feeds_singleton.mpr ⟨rfl, rfl, rfl⟩) n ?_)
    rw [hcopies]
    exact List.mem_singleton.mpr rfl
  exact ⟨hlong, hunbounded long 32 (by decide) hlong, hshort,
    hunbounded short 200 (by decide) hshort⟩

end Roip
