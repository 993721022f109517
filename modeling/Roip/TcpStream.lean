/-
Roip/TcpStream.lean

A TCP sender sends what has been written.

`tcp_write` extends the last segment by at most two parts of the data and
makes new segments of the rest; in any case the pieces then hold the longer
stream (`TcpInv.tcpWrite`).  With this, each operation keeps the invariant,
and whatever is written, acknowledged and lost, each segment that is sent
carries the part of the stream that its sequence number says (`tcp_stream`).
-/
import Roip.TcpQueues

namespace Roip

open Pieces

section Write

variable {Q : TcpSeg → Prop} {s₀ s s' : TcpSender} {stream : List UInt8}
variable {a : Nat} {U N : List (Nat × List UInt8)} {arg : List UInt8}
variable {len : UInt16} {more : Bool} {mem : Nat → Bool}

/-! ### The parts of `tcp_write` -/

/-- The data may be enqueued, or are refused. -/
theorem TcpInv.tcpWriteChecks (h : TcpInv Q s₀ stream a U N s)
    (len : UInt16) :
    (s.tcpWriteChecks len = some (true, s) ∧
        len.toNat ≤ s.sndBuf.toNat ∧
        (0 < len.toNat → s.sndQueuelen.toNat < 8)) ∨
      s.tcpWriteChecks len = some (false, { s with nagleMemErr := true }) := by
  have hall : List.Forall₂ (Carries Q s₀.sndLbb) (s.unacked ++ s.unsent)
      (U ++ N) := List.rel_append h.unacked h.unsent
  have hqueue := h.queuelen
  rw [TcpSender.tcpWriteChecks]
  split_ifs with hzero hbuf hfull hne hsome hnil
  · rw [hzero]
    exact Or.inl ⟨rfl, Nat.zero_le _, fun h => absurd h (by decide)⟩
  · exact Or.inr rfl
  · exact Or.inr rfl
  all_goals
    rw [gt_iff_lt, UInt16.lt_iff_toNat_lt] at hbuf
  · refine Or.inl ⟨rfl, by omega, fun _ => ?_⟩
    rw [not_or, ge_iff_le, UInt16.le_iff_toNat_le] at hfull
    exact Nat.lt_of_not_le hfull.1
  · -- there are buffers, so there are segments
    exfalso
    rw [not_or, not_not, not_not] at hsome
    rw [hsome.1, hsome.2] at hqueue
    exact hne (UInt16.toNat_inj.mp hqueue)
  · refine Or.inl ⟨rfl, by omega, fun _ => ?_⟩
    rw [not_or, ge_iff_le, UInt16.le_iff_toNat_le] at hfull
    exact Nat.lt_of_not_le hfull.1
  · exfalso
    rw [not_not] at hne
    rw [hne] at hqueue
    exact hnil (List.append_eq_nil_iff.mp
      (buffers_eq_zero hall h.held.nonempty hqueue.symm))

/-- What is allocated beyond the data still fits. -/
theorem tcpPbufPrealloc_le (s : TcpSender) {length maxLength : UInt16}
    (h : length.toNat ≤ maxLength.toNat) (more firstSeg : Bool) :
    length.toNat +
      (s.tcpPbufPrealloc length maxLength more firstSeg).toNat ≤
        maxLength.toNat := by
  have hlt := maxLength.toNat_lt
  rw [TcpSender.tcpPbufPrealloc]
  split
  · rw [UInt16.toNat_sub_of_le, UInt16.toNat_ofNat']
    · omega
    · rw [UInt16.le_iff_toNat_le, UInt16.toNat_ofNat']
      omega
  · rw [UInt16.sub_self]
    exact h

/-- What phases 1 and 2 have done. -/
structure Extends (s : TcpSender) (last : TcpSeg) (arg : List UInt8)
    (len mssLocal : UInt16) (ph : Phases) : Prop where
  used : ph.oversizeUsed.toNat ≤ s.unsentOversize.toNat
  pos : ph.pos.toNat = ph.oversizeUsed.toNat +
    (ph.concat.elim 0 fun c => c.chksummed.toNat)
  pos_le : ph.pos.toNat ≤ len.toNat
  fits : last.len.toNat + ph.pos.toNat + ph.oversize.toNat ≤ mssLocal.toNat
  concat : ∀ c, ph.concat = some c → 0 < len.toNat ∧
    c.p.payload = (arg.drop ph.oversizeUsed.toNat).take c.chksummed.toNat ∧
    c.p.room = ph.oversize.toNat ∧
    c.chksum = (tcpSegAddChksum (lwipStandardChksum c.p.payload) c.chksummed
      (0, false)).1
  oversize : ph.concat = none → ph.oversize.toNat =
    s.unsentOversize.toNat - ph.oversizeUsed.toNat
  queuelen : ph.queuelen.toNat = s.sndQueuelen.toNat +
    ph.concat.elim 0 fun _ => 1

theorem extend_spec {last : TcpSeg} {mssLocal : UInt16} {ph : Phases}
    (hfit : last.len.toNat + s.unsentOversize.toNat ≤ mssLocal.toNat)
    (hqueue : s.sndQueuelen.toNat ≤ 8)
    (h : s.extend last arg len mssLocal more mem = some ph) :
    Extends s last arg len mssLocal ph := by
  have hmss := mssLocal.toNat_lt
  obtain ⟨used, hused, hle, hlen⟩ : ∃ used : UInt16,
      (if s.unsentOversize < len then s.unsentOversize else len) = used ∧
        used.toNat ≤ s.unsentOversize.toNat ∧ used.toNat ≤ len.toNat := by
    refine ⟨_, rfl, ?_⟩
    split
    · next hlt => exact ⟨Nat.le_refl _,
        Nat.le_of_lt (UInt16.lt_iff_toNat_lt.mp hlt)⟩
    · next hge =>
      rw [UInt16.lt_iff_toNat_lt] at hge
      exact ⟨by omega, Nat.le_refl _⟩
  have hspace : (mssLocal - last.len - used).toNat =
      mssLocal.toNat - last.len.toNat - used.toNat := by
    rw [UInt16.toNat_sub_of_le, UInt16.toNat_sub_of_le]
    · rw [UInt16.le_iff_toNat_le]
      omega
    · rw [UInt16.le_iff_toNat_le, UInt16.toNat_sub_of_le]
      · omega
      · rw [UInt16.le_iff_toNat_le]
        omega
  have hleft : (len - used).toNat = len.toNat - used.toNat :=
    UInt16.toNat_sub_of_le _ _ (UInt16.le_iff_toNat_le.mpr hlen)
  have hrest : (s.unsentOversize - used).toNat =
      s.unsentOversize.toNat - used.toNat :=
    UInt16.toNat_sub_of_le _ _ (UInt16.le_iff_toNat_le.mpr hle)
  rw [TcpSender.extend] at h
  dsimp only at h
  rw [hused] at h
  split at h
  · next hcond =>
    split at h
    · -- another buffer is chained
      obtain ⟨seglen, hseglen, hs_space, hs_left⟩ : ∃ seglen : UInt16,
          (if mssLocal - last.len - used < len - used then
            mssLocal - last.len - used else len - used) = seglen ∧
          seglen.toNat ≤ (mssLocal - last.len - used).toNat ∧
          seglen.toNat ≤ (len - used).toNat := by
        refine ⟨_, rfl, ?_⟩
        split
        · next hlt => exact ⟨Nat.le_refl _,
            Nat.le_of_lt (UInt16.lt_iff_toNat_lt.mp hlt)⟩
        · next hge =>
          rw [UInt16.lt_iff_toNat_lt] at hge
          exact ⟨by omega, Nat.le_refl _⟩
      have hpre := tcpPbufPrealloc_le s hs_space more true
      have hsum : (used + seglen).toNat = used.toNat + seglen.toNat := by
        rw [UInt16.toNat_add]
        have := len.toNat_lt
        omega
      rw [hseglen] at h
      obtain rfl := Option.some.inj h
      refine ⟨hle, hsum, ?_, ?_, ?_, nofun, ?_⟩
      · dsimp only
        omega
      · dsimp only
        omega
      · rintro c ⟨⟩
        refine ⟨?_, rfl, rfl, rfl⟩
        have hlt := UInt16.lt_iff_toNat_lt.mp hcond.1
        omega
      · show (s.sndQueuelen + 1).toNat = s.sndQueuelen.toNat + 1
        rw [UInt16.toNat_add]
        show (s.sndQueuelen.toNat + 1) % 2 ^ 16 = _
        omega
    · cases h
  · obtain rfl := Option.some.inj h
    refine ⟨hle, rfl, hlen, ?_, nofun, fun _ => hrest, rfl⟩
    dsimp only
    omega

/-- The last buffer is filled up. -/
theorem fill_spec {seg : TcpSeg} {data : List UInt8} {n : UInt16} {r : Nat}
    (hn : n.toNat = data.length) (hp : seg.p ≠ [])
    (hroom : ∀ q, seg.p.getLast? = some q → data.length + r ≤ q.room)
    (hlen : seg.len.toNat + data.length < 2 ^ 16) :
    ∃ seg', seg.fill data n = some seg' ∧ seg'.data = seg.data ++ data ∧
      seg'.len.toNat = seg.len.toNat + data.length ∧
      seg'.seqno = seg.seqno ∧ seg'.p.length = seg.p.length ∧
      ∀ q, seg'.p.getLast? = some q → r ≤ q.room := by
  rw [TcpSeg.fill]
  split
  · next hzero =>
    rw [hzero] at hn
    obtain rfl : data = [] := List.length_eq_zero_iff.mp hn.symm
    exact ⟨seg, rfl, (List.append_nil _).symm, rfl, rfl, rfl,
      fun q hq => by simpa using hroom q hq⟩
  · rcases List.eq_nil_or_concat seg.p with hnil | ⟨front, q, hq⟩
    · exact absurd hnil hp
    · rw [List.concat_eq_append] at hq
      have hlast : seg.p.getLast? = some q := by
        rw [hq, List.getLast?_concat]
      have hfit := hroom q hlast
      have hsum : (seg.len + n).toNat = seg.len.toNat + data.length := by
        rw [UInt16.toNat_add, hn]
        exact Nat.mod_eq_of_lt hlen
      simp only [hlast, if_pos (show data.length ≤ q.room by omega)]
      refine ⟨_, rfl, ?_, hsum, rfl, ?_, ?_⟩
      · simp [TcpSeg.data, hq]
      · simp [hq]
      · intro q' hq'
        dsimp only at hq'
        rw [List.getLast?_concat] at hq'
        obtain rfl := Option.some.inj hq'
        dsimp only
        omega

theorem cat_spec (seg : TcpSeg) (c : Concat)
    (hlen : seg.len.toNat + c.chksummed.toNat < 2 ^ 16) :
    (seg.cat (some c)).data = seg.data ++ c.p.payload ∧
      (seg.cat (some c)).len.toNat = seg.len.toNat + c.chksummed.toNat ∧
      (seg.cat (some c)).seqno = seg.seqno ∧
      (seg.cat (some c)).p = seg.p ++ [c.p] := by
  refine ⟨?_, ?_, rfl, rfl⟩
  · simp [TcpSeg.cat, TcpSeg.data]
  · show (seg.len + c.chksummed).toNat = _
    rw [UInt16.toNat_add]
    exact Nat.mod_eq_of_lt hlen

/-- **Phases 1 and 2** extend the piece of the last segment. -/
theorem Carries.extend {last : TcpSeg} {x : Nat × List UInt8} {ph : Phases}
    {mssLocal : UInt16} (hlast : Carries Q s₀.sndLbb last x)
    (hp : last.p ≠ [])
    (hroom : ∀ q, last.p.getLast? = some q →
      s.unsentOversize.toNat ≤ q.room)
    (hph : Extends s last arg len mssLocal ph)
    (harg : len.toNat ≤ arg.length)
    (hQ : ∀ seg, last.fill (arg.take ph.oversizeUsed.toNat)
      ph.oversizeUsed = some seg → Q (seg.cat ph.concat)) :
    ∃ seg, last.fill (arg.take ph.oversizeUsed.toNat) ph.oversizeUsed =
        some seg ∧
      Carries Q s₀.sndLbb (seg.cat ph.concat)
        (x.1, x.2 ++ arg.take ph.pos.toNat) ∧
      (seg.cat ph.concat).p.length =
        last.p.length + ph.concat.elim 0 (fun _ => 1) ∧
      ∀ q, (seg.cat ph.concat).p.getLast? = some q →
        ph.oversize.toNat ≤ q.room := by
  have hmss := mssLocal.toNat_lt
  have hused := hph.used
  have hpos := hph.pos
  have hpos_le := hph.pos_le
  have hfits := hph.fits
  have htake : ph.oversizeUsed.toNat =
      (arg.take ph.oversizeUsed.toNat).length := by
    rw [List.length_take]
    omega
  obtain ⟨seg, hseg, hdata, hlen, hseqno, hbufs, hlastroom⟩ := fill_spec
    (r := s.unsentOversize.toNat - ph.oversizeUsed.toNat) htake hp
    (fun q hq => by
      have := hroom q hq
      rw [← htake]
      omega)
    (by rw [← htake]; omega)
  rw [← htake] at hlen
  refine ⟨seg, hseg, ?_⟩
  have hgood := hQ seg hseg
  rcases hc : ph.concat with - | c
  · rw [hc] at hgood hpos
    have hpos' : ph.pos.toNat = ph.oversizeUsed.toNat := hpos
    refine ⟨⟨hseqno.trans hlast.seqno, ?_, ?_, hgood⟩, hbufs, ?_⟩
    · rw [hpos', ← hlast.data]
      exact hdata
    · dsimp only
      rw [List.length_append, ← hlast.len, hpos', ← htake]
      exact hlen
    · rw [hph.oversize hc]
      exact hlastroom
  · obtain ⟨-, hpay, hcroom, -⟩ := hph.concat c hc
    rw [hc] at hgood hpos
    have hpos' : ph.pos.toNat =
        ph.oversizeUsed.toNat + c.chksummed.toNat := hpos
    obtain ⟨hcdata, hclen, hcseqno, hcp⟩ := cat_spec seg c
      (by omega)
    have hsplit : arg.take ph.pos.toNat =
        arg.take ph.oversizeUsed.toNat ++ c.p.payload := by
      rw [hpay, hpos', List.take_add]
    refine ⟨⟨hcseqno.trans (hseqno.trans hlast.seqno), ?_, ?_, hgood⟩, ?_, ?_⟩
    · rw [hcdata, hdata, hlast.data, hsplit, List.append_assoc]
    · have htakepos : (arg.take ph.pos.toNat).length = ph.pos.toNat := by
        rw [List.length_take]
        omega
      rw [hclen, hlen, List.length_append, ← hlast.len, htakepos]
      omega
    · rw [hcp, List.length_append, hbufs]
      rfl
    · intro q hq
      rw [hcp, List.getLast?_concat] at hq
      obtain rfl := Option.some.inj hq
      rw [hcroom]

/-- What holds in the loop of phase 3: `queue` carries the pieces `X` behind
those of `N`, up to the place `pos` of the data. -/
structure Queueing (Q : TcpSeg → Prop) (s₀ : TcpSender)
    (stream arg : List UInt8) (a m : Nat) (U N : List (Nat × List UInt8))
    (q₀ : Nat) (pos oversize queuelen : UInt16) (queue : List TcpSeg)
    (X : List (Nat × List UInt8)) : Prop where
  held : Held (stream ++ arg.take pos.toNat) a m U (N ++ X)
  carries : List.Forall₂ (Carries Q s₀.sndLbb) queue X
  counted : queuelen.toNat = q₀ + buffers queue
  counted_le : queuelen.toNat ≤ 8
  room : ∀ seg, queue.getLast? = some seg →
    seg.len.toNat + oversize.toNat ≤ m ∧
    ∀ q, seg.p.getLast? = some q → oversize.toNat ≤ q.room

/-- Without a window, no segment can be made. -/
theorem newSegments_stuck {pos : UInt16} (hpos : pos < len) :
    ∀ (fuel used : Nat) (oversize queuelen : UInt16) (queue : List TcpSeg),
      9 ≤ fuel + queuelen.toNat → queuelen.toNat ≤ 8 →
      s.newSegments arg len 0 more mem fuel used pos oversize queuelen queue =
        some none := by
  intro fuel
  induction fuel with
  | zero =>
    intro used oversize queuelen queue hfuel hle
    omega
  | succ fuel ih =>
    intro used oversize queuelen queue hfuel hle
    have hnext : (queuelen + 1).toNat = queuelen.toNat + 1 := by
      rw [UInt16.toNat_add]
      show (queuelen.toNat + 1) % 2 ^ 16 = _
      omega
    have hleft : len - pos > 0 := by
      rw [UInt16.lt_iff_toNat_lt] at hpos
      rw [gt_iff_lt, UInt16.lt_iff_toNat_lt, UInt16.toNat_sub_of_le _ _
        (UInt16.le_iff_toNat_le.mpr (Nat.le_of_lt hpos))]
      show 0 < _
      omega
    rw [TcpSender.newSegments, if_pos hpos]
    dsimp only
    rw [if_pos hleft, UInt16.add_zero]
    split
    · rfl
    · next hgo =>
      refine ih _ _ _ _ (by omega) ?_
      rw [not_or, not_or, gt_iff_lt, UInt16.lt_iff_toNat_lt] at hgo
      exact Nat.le_of_not_lt hgo.2.1

/-- **Phase 3** makes segments of the rest of the data. -/
theorem newSegments_spec (more : Bool) (mem : Nat → Bool) (hQ : Lasting Q)
    {mssLocal : UInt16} {q₀ : Nat}
    (hmss : 0 < mssLocal.toNat) (harg : len.toNat ≤ arg.length)
    (hlbb : s.sndLbb = seqOf s₀.sndLbb stream.length) :
    ∀ (fuel used : Nat) (pos oversize queuelen : UInt16)
      (queue : List TcpSeg) (X : List (Nat × List UInt8)),
      pos.toNat ≤ len.toNat → 9 ≤ fuel + queuelen.toNat →
      Queueing Q s₀ stream arg a mssLocal.toNat U N q₀ pos oversize queuelen
        queue X →
      s.newSegments arg len mssLocal more mem fuel used pos oversize queuelen
          queue = some none ∨
        ∃ queue' oversize' queuelen' X',
          s.newSegments arg len mssLocal more mem fuel used pos oversize
            queuelen queue = some (some (queue', oversize', queuelen')) ∧
          Queueing Q s₀ stream arg a mssLocal.toNat U N q₀ len oversize'
            queuelen' queue' X' ∧
          (queue' = [] → queue = [] ∧ oversize' = oversize) := by
  intro fuel
  induction fuel with
  | zero =>
    intro used pos oversize queuelen queue X hpos hfuel hq
    have hle := hq.counted_le
    omega
  | succ fuel ih =>
    intro used pos oversize queuelen queue X hpos hfuel hq
    have hle := hq.counted_le
    have hlen := len.toNat_lt
    rw [TcpSender.newSegments]
    split
    · next hlt =>
      rw [UInt16.lt_iff_toNat_lt] at hlt
      have hleft : (len - pos).toNat = len.toNat - pos.toNat :=
        UInt16.toNat_sub_of_le _ _ (UInt16.le_iff_toNat_le.mpr hpos)
      obtain ⟨seglen, hseglen, hs_pos, hs_left, hs_mss⟩ : ∃ seglen : UInt16,
          (if len - pos > mssLocal then mssLocal else len - pos) = seglen ∧
          0 < seglen.toNat ∧ seglen.toNat ≤ len.toNat - pos.toNat ∧
          seglen.toNat ≤ mssLocal.toNat := by
        refine ⟨_, rfl, ?_⟩
        split
        · next hgt =>
          rw [gt_iff_lt, UInt16.lt_iff_toNat_lt] at hgt
          omega
        · next hngt =>
          rw [gt_iff_lt, UInt16.lt_iff_toNat_lt] at hngt
          omega
      have hdata : seglen.toNat =
          ((arg.drop pos.toNat).take seglen.toNat).length := by
        rw [List.length_take, List.length_drop]
        omega
      have hnext : (queuelen + 1).toNat = queuelen.toNat + 1 := by
        rw [UInt16.toNat_add]
        show (queuelen.toNat + 1) % 2 ^ 16 = _
        omega
      have hsum : (pos + seglen).toNat = pos.toNat + seglen.toNat := by
        rw [UInt16.toNat_add]
        omega
      have htake : arg.take (pos + seglen).toNat = arg.take pos.toNat ++
          (arg.drop pos.toNat).take seglen.toNat := by
        rw [hsum, List.take_add]
      have hroom := tcpPbufPrealloc_le s hs_mss more (queue = [])
      dsimp only
      rw [hseglen]
      generalize s.tcpPbufPrealloc seglen mssLocal more (queue = []) = spare
        at hroom
      split
      · exact Or.inl rfl
      · next hgo =>
        rw [not_or, not_or, gt_iff_lt, UInt16.lt_iff_toNat_lt] at hgo
        have hq8 : (queuelen + 1).toNat ≤ 8 := Nat.le_of_not_lt hgo.2.1
        have hnew : (arg.drop pos.toNat).take seglen.toNat ≠ [] := by
          rw [← List.length_pos_iff, ← hdata]
          exact hs_pos
        have hheld := hq.held.append hnew (by rw [← hdata]; exact hs_mss)
        have hplace : (stream ++ arg.take pos.toNat).length =
            stream.length + pos.toNat := by
          rw [List.length_append, List.length_take]
          omega
        rw [List.append_assoc, ← htake, List.append_assoc, hplace] at hheld
        have hfresh : Carries Q s₀.sndLbb
            (freshSeg ((arg.drop pos.toNat).take seglen.toNat) seglen
              spare.toNat (s.sndLbb + pos.toUInt32))
            (stream.length + pos.toNat,
              (arg.drop pos.toNat).take seglen.toNat) := by
          refine ⟨?_, List.append_nil _, hdata, hQ.fresh hdata _ _⟩
          show s.sndLbb + pos.toUInt32 = _
          rw [hlbb, ← UInt32.ofNat_uInt16ToNat, seqOf_add]
        have hcounted : (queuelen + 1).toNat = q₀ + buffers (queue ++
            [freshSeg ((arg.drop pos.toNat).take seglen.toNat) seglen
              spare.toNat (s.sndLbb + pos.toUInt32)]) := by
          rw [hnext, hq.counted, buffers_append]
          rfl
        have hq' := ih (used + 2) (pos + seglen) spare (queuelen + 1) _ _
          (by omega) (by omega) ⟨hheld, List.rel_append hq.carries
            (List.Forall₂.cons hfresh List.Forall₂.nil), hcounted, hq8,
            fun seg hseg => by
              rw [List.getLast?_concat] at hseg
              obtain rfl := Option.some.inj hseg
              refine ⟨hroom, ?_⟩
              rintro q ⟨⟩
              exact Nat.le_refl _⟩
        refine hq'.imp id ?_
        rintro ⟨queue', oversize', queuelen', X', hsome, hq', hempty⟩
        exact ⟨queue', oversize', queuelen', X', hsome, hq',
          fun hnil => absurd (hempty hnil).1 (by simp)⟩
    · next hge =>
      rw [UInt16.lt_iff_toNat_lt] at hge
      obtain rfl : pos = len := UInt16.toNat_inj.mp (by omega)
      exact Or.inr ⟨queue, oversize, queuelen, X, rfl, hq,
        fun hnil => ⟨hnil, rfl⟩⟩

/-! ### The commit -/

/-- A flag changes neither the data nor the buffers. -/
theorem pushLast_spec (hQ : Lasting Q) {segs : List TcpSeg}
    {X : List (Nat × List UInt8)} {m : Nat} {r : UInt16}
    (h : List.Forall₂ (Carries Q s₀.sndLbb) segs X)
    (hroom : ∀ seg, segs.getLast? = some seg →
      seg.len.toNat + r.toNat ≤ m ∧
      ∀ q, seg.p.getLast? = some q → r.toNat ≤ q.room) :
    List.Forall₂ (Carries Q s₀.sndLbb) (pushLast segs) X ∧
      buffers (pushLast segs) = buffers segs ∧
      (∀ seg, (pushLast segs).getLast? = some seg →
        seg.len.toNat + r.toNat ≤ m ∧
        ∀ q, seg.p.getLast? = some q → r.toNat ≤ q.room) ∧
      (pushLast segs = [] → segs = []) := by
  rcases List.eq_nil_or_concat segs with rfl | ⟨front, seg, rfl⟩
  · exact ⟨h, rfl, hroom, fun hnil => hnil⟩
  · rw [List.concat_eq_append] at h hroom ⊢
    have hpush : pushLast (front ++ [seg]) = front ++ [seg.push] := by
      rw [pushLast, List.getLast?_concat]
      dsimp only
      rw [List.dropLast_concat]
    obtain ⟨X', x, rfl, hfront, hseg⟩ := forall₂_concat h
    rw [hpush]
    refine ⟨List.rel_append hfront (List.Forall₂.cons
      (hseg.flags hQ _) List.Forall₂.nil), ?_, ?_, fun hnil => ?_⟩
    · rw [buffers_append, buffers_append]
      rfl
    · intro last hlast
      rw [List.getLast?_concat] at hlast
      obtain rfl := Option.some.inj hlast
      exact hroom seg List.getLast?_concat
    · exact absurd hnil (by simp)

/-- The data have got into the queue. -/
theorem TcpInv.commit (more : Bool) (hQ : Lasting Q) {ph : Phases}
    {queue segs : List TcpSeg} {oversize queuelen : UInt16} {N' : List (Nat × List UInt8)}
    (h : TcpInv Q s₀ stream a U N s) (harg : len.toNat ≤ arg.length)
    (hbuf : len.toNat ≤ s.sndBuf.toNat)
    (hsegs : s.chain arg ph queue = some segs)
    (hheld : Held (stream ++ arg.take len.toNat) a s.mssLocal.toNat U N')
    (hcarries : List.Forall₂ (Carries Q s₀.sndLbb) segs N')
    (hqueue : queuelen.toNat = buffers (s.unacked ++ segs))
    (hle : queuelen.toNat ≤ 8)
    (hroom : ∀ seg, segs.getLast? = some seg →
      seg.len.toNat + oversize.toNat ≤ s.mssLocal.toNat ∧
      ∀ q, seg.p.getLast? = some q → oversize.toNat ≤ q.room)
    (hnil : segs = [] → oversize = 0) :
    ∃ s', s.commit arg len more ph queue oversize queuelen = some s' ∧
      TcpInv Q s₀ (stream ++ arg.take len.toNat) a U N' s' := by
  have htake : (arg.take len.toNat).length = len.toNat := by
    rw [List.length_take]
    omega
  obtain ⟨hpc, hpb, hpr, hpn⟩ := pushLast_spec hQ hcarries hroom
  -- with the flag or without it, the queue is the same
  obtain ⟨segs', hsegs', hc', hb', hr', hn'⟩ : ∃ segs',
      (if (queue ≠ [] ∨ (s.unsent ≠ [] ∧
          (s.unsentOversize > 0 ∨ ph.concat.isSome))) ∧ ¬ more then
        pushLast segs else segs) = segs' ∧
      List.Forall₂ (Carries Q s₀.sndLbb) segs' N' ∧
      buffers segs' = buffers segs ∧
      (∀ seg, segs'.getLast? = some seg →
        seg.len.toNat + oversize.toNat ≤ s.mssLocal.toNat ∧
        ∀ q, seg.p.getLast? = some q → oversize.toNat ≤ q.room) ∧
      (segs' = [] → segs = []) := by
    refine ⟨_, rfl, ?_⟩
    split
    · exact ⟨hpc, hpb, hpr, hpn⟩
    · exact ⟨hcarries, rfl, hroom, fun hnil => hnil⟩
  have hqueue' : queuelen.toNat = buffers (s.unacked ++ segs') := by
    rw [hqueue, buffers_append, buffers_append, hb']
  have hassert : ¬ (queuelen ≠ 0 ∧ s.unacked = [] ∧ segs' = []) := by
    rintro ⟨hne, hun, hsent⟩
    rw [hun, hsent] at hqueue'
    exact hne (UInt16.toNat_inj.mp hqueue')
  obtain ⟨m, ham, hm, hnxt⟩ := h.sndNxt
  have hsndBuf := h.sndBuf
  have ha := h.held.le
  refine ⟨{ s with
    unsent := segs'
    unsentOversize := oversize
    sndLbb := s.sndLbb + len.toUInt32
    sndBuf := s.sndBuf - len
    sndQueuelen := queuelen }, ?_, ⟨⟨hheld, h.unacked, hc', h.lastack, ?_,
      ⟨m, ham, ?_, hnxt⟩, ?_, hqueue', hle, h.mss_pos, h.mss_le, h.cwnd,
      h.ssthresh, hr', h.ips⟩, fun hnil' => hnil (hn' hnil')⟩⟩
  · rw [TcpSender.commit, hsegs, Option.bind_eq_bind, Option.bind_some]
    dsimp only
    rw [hsegs', if_neg hassert]
  · show s.sndLbb + len.toUInt32 = _
    rw [h.sndLbb, ← UInt32.ofNat_uInt16ToNat, seqOf_add, List.length_append,
      htake]
  · rw [List.length_append]
    omega
  · show (s.sndBuf - len).toNat + _ = 2920
    rw [UInt16.toNat_sub_of_le _ _ (UInt16.le_iff_toNat_le.mpr hbuf),
      List.length_append, htake]
    omega

/-! ### `tcp_write` -/

/-- What phases 1 and 2 leave of the last segment. -/
def TcpSender.extended (s : TcpSender) (arg : List UInt8) (len : UInt16)
    (more : Bool) (mem : Nat → Bool) : Option TcpSeg := do
  let last ← s.unsent.getLast?
  let ph ← s.extend last arg len s.mssLocal more mem
  let seg ← last.fill (arg.take ph.oversizeUsed.toNat) ph.oversizeUsed
  some (seg.cat ph.concat)

/-- The last segment that waits ends with the stream. -/
def TcpSender.AtEnd (s : TcpSender) : Prop :=
  ∀ last ∈ s.unsent.getLast?, last.end = s.sndLbb

instance (s : TcpSender) : Decidable s.AtEnd :=
  inferInstanceAs (Decidable (∀ _ ∈ _, _))

/-- Phase 3 and the commit, in a queue that holds the data up to `pos`. -/
theorem TcpInv.finish (more : Bool) (mem : Nat → Bool) (hQ : Lasting Q)
    (ph : Phases) (front : List TcpSeg) {N₁ : List (Nat × List UInt8)}
    (h : TcpInv Q s₀ stream a U N s) (harg : len.toNat ≤ arg.length)
    (hbuf : len.toNat ≤ s.sndBuf.toNat)
    (hsegs : ∀ queue, s.chain arg ph queue = some (front ++ queue))
    (hpos : ph.pos.toNat ≤ len.toNat)
    (hheld : Held (stream ++ arg.take ph.pos.toNat) a s.mssLocal.toNat U N₁)
    (hcarries : List.Forall₂ (Carries Q s₀.sndLbb) front N₁)
    (hqueue : ph.queuelen.toNat = buffers (s.unacked ++ front))
    (hle : ph.queuelen.toNat ≤ 8)
    (hroom : ∀ seg, front.getLast? = some seg →
      seg.len.toNat + ph.oversize.toNat ≤ s.mssLocal.toNat ∧
      ∀ q, seg.p.getLast? = some q → ph.oversize.toNat ≤ q.room)
    (hnil : front = [] → ph.oversize = 0) :
    s.newSegments arg len s.mssLocal more mem (tcpSndQueuelen.toNat + 1)
        ph.used ph.pos ph.oversize ph.queuelen [] = some none ∨
      ∃ queue oversize queuelen s' N',
        s.newSegments arg len s.mssLocal more mem (tcpSndQueuelen.toNat + 1)
          ph.used ph.pos ph.oversize ph.queuelen [] =
            some (some (queue, oversize, queuelen)) ∧
        s.commit arg len more ph queue oversize queuelen = some s' ∧
        TcpInv Q s₀ (stream ++ arg.take len.toNat) a U N' s' := by
  have hfuel : tcpSndQueuelen.toNat + 1 = 9 := rfl
  have hq : Queueing Q s₀ stream arg a s.mssLocal.toNat U N₁
      ph.queuelen.toNat ph.pos ph.oversize ph.queuelen [] [] :=
    ⟨by rwa [List.append_nil], List.Forall₂.nil, rfl, hle, nofun⟩
  rcases Nat.eq_zero_or_pos s.mssLocal.toNat with hzero | hmss
  · -- nothing can be sent, so nothing is queued either
    have hzero' : s.mssLocal = 0 := UInt16.toNat_inj.mp hzero
    by_cases hlt : ph.pos < len
    · left
      rw [hzero']
      exact newSegments_stuck hlt _ _ _ _ _ (by omega) hle
    · rw [UInt16.lt_iff_toNat_lt] at hlt
      have heq : ph.pos = len := UInt16.toNat_inj.mp (by omega)
      rw [heq] at hheld
      have hstop : s.newSegments arg len s.mssLocal more mem
          (tcpSndQueuelen.toNat + 1) ph.used ph.pos ph.oversize ph.queuelen
          [] = some (some ([], ph.oversize, ph.queuelen)) := by
        rw [TcpSender.newSegments, if_neg (by
          rw [UInt16.lt_iff_toNat_lt]
          exact hlt)]
      obtain ⟨s', hs', hinv⟩ := h.commit more hQ harg hbuf (hsegs [])
        hheld (by rwa [List.append_nil])
        (by rwa [List.append_nil]) hle (by rwa [List.append_nil])
        (by rwa [List.append_nil])
      exact Or.inr ⟨_, _, _, s', N₁, hstop, hs', hinv⟩
  · rcases newSegments_spec more mem hQ hmss harg h.sndLbb
      (tcpSndQueuelen.toNat + 1) ph.used ph.pos ph.oversize ph.queuelen [] []
      hpos (by omega) hq with
      hnone | ⟨queue, oversize, queuelen, X, hsome, hq', hempty⟩
    · exact Or.inl hnone
    · have hcounted : queuelen.toNat =
          buffers (s.unacked ++ (front ++ queue)) := by
        rw [hq'.counted, hqueue, ← List.append_assoc,
          buffers_append (s.unacked ++ front)]
      have hlast (seg : TcpSeg)
          (hseg : (front ++ queue).getLast? = some seg) :
          seg.len.toNat + oversize.toNat ≤ s.mssLocal.toNat ∧
            ∀ q, seg.p.getLast? = some q → oversize.toNat ≤ q.room := by
        by_cases hqnil : queue = []
        · rw [hqnil, List.append_nil] at hseg
          rw [(hempty hqnil).2]
          exact hroom seg hseg
        · rw [List.getLast?_append_of_ne_nil _ hqnil] at hseg
          exact hq'.room seg hseg
      obtain ⟨s', hs', hinv⟩ := h.commit more hQ harg hbuf
        (hsegs queue) hq'.held (List.rel_append hcarries hq'.carries)
        hcounted hq'.counted_le hlast (fun hnil' => by
          obtain ⟨hf, hqnil⟩ := List.append_eq_nil_iff.mp hnil'
          rw [(hempty hqnil).2]
          exact hnil hf)
      exact Or.inr ⟨queue, oversize, queuelen, s', _, hsome, hs', hinv⟩

/-- **`tcp_write`** queues all of the data, or nothing. -/
theorem TcpInv.tcpWrite (hQ : Lasting Q) (h : TcpInv Q s₀ stream a U N s)
    (harg : len.toNat ≤ arg.length) (hend : s.AtEnd)
    (hext : ∀ seg, s.extended arg len more mem = some seg → Q seg) :
    (∃ s', s.tcpWrite arg len more mem = ⟨[.refused], some s'⟩ ∧
        TcpInv Q s₀ stream a U N s') ∨
      ∃ s' N', s.tcpWrite arg len more mem =
          ⟨[.accepted (arg.take len.toNat)], some s'⟩ ∧
        TcpInv Q s₀ (stream ++ arg.take len.toNat) a U N' s' := by
  have hrefused : TcpInv Q s₀ stream a U N { s with nagleMemErr := true } :=
    h.same (sameQueues_set s s.rcvNxt s.rcvAnnWnd s.dupacks s.cwnd s.ssthresh
      s.timing s.ackNow true s.inFastRexmit) h.cwnd h.ssthresh
  rw [TcpSender.tcpWrite, if_neg (Nat.not_lt.mpr harg)]
  rcases h.tcpWriteChecks len with ⟨hchk, hbuf, hfull⟩ | hchk
  · simp only [hchk, Traced.ofOption_some, pure_bind, if_true]
    rcases hs : s.unsent.getLast? with - | last
    · -- nothing waits
      have hnil : s.unsent = [] := List.getLast?_eq_none_iff.mp hs
      have hN : N = [] := by
        have hun := h.unsent
        rw [hnil] at hun
        exact List.forall₂_nil_left_iff.mp hun
      have hover := h.noRoom hnil
      rw [if_pos hover]
      simp only [Traced.ofOption_some, pure_bind]
      rcases h.finish more mem hQ ⟨0, 0, 0, none, s.sndQueuelen, 0⟩ [] harg hbuf
        (fun queue => by rw [TcpSender.chain, hs]; rfl) (Nat.zero_le _)
        (by
          have hheld := h.held
          rw [hN] at hheld
          show Held (stream ++ arg.take 0) a _ U []
          rwa [List.take_zero, List.append_nil]) List.Forall₂.nil
        (by
          have hqueue := h.queuelen
          rw [hnil] at hqueue
          exact hqueue) h.queuelen_le nofun (fun _ => rfl) with
        hnone | ⟨queue, oversize, queuelen, s', N', hnew, hcommit, hinv⟩
      · refine Or.inl ⟨_, ?_, hrefused⟩
        dsimp only at hnone ⊢
        rw [hnone]
        rfl
      · refine Or.inr ⟨s', N', ?_, hinv⟩
        dsimp only at hnew ⊢
        rw [hnew]
        simp only [Traced.ofOption_some, pure_bind]
        rw [hcommit]
        rfl
    · -- the last segment is extended
      obtain ⟨front, hfront⟩ := List.getLast?_eq_some_iff.mp hs
      have hun := h.unsent
      rw [hfront] at hun
      obtain ⟨N₁, x, rfl, hN₁, hlast⟩ := forall₂_concat hun
      have hx : x ∈ U ++ (N₁ ++ [x]) := by simp
      obtain ⟨hfit, hroom⟩ := h.room last hs
      dsimp only
      rcases hph : s.extend last arg len s.mssLocal more mem with - | ph
      · exact Or.inl ⟨_, rfl, hrefused⟩
      have hspec := extend_spec hfit h.queuelen_le hph
      obtain ⟨seg, hseg, hcarries, hbufs, hsegroom⟩ := hlast.extend
        (hlast.buffers_pos (h.held.nonempty x hx)) hroom hspec harg
        (fun seg hseg => hext _ (by
          simp only [TcpSender.extended, hs, Option.bind_eq_bind,
            Option.bind_some, hph, hseg]))
      -- it ends with the stream
      have hstop : x.1 + x.2.length = stream.length := by
        have heq := hend last hs
        have hb := h.bounds hx
        rw [hlast.end_eq, h.sndLbb, seqOf_inj (by omega) (by omega)] at heq
        omega
      have htakepos : (arg.take ph.pos.toNat).length = ph.pos.toNat := by
        have := hspec.pos_le
        rw [List.length_take]
        omega
      have hheld : Held (stream ++ arg.take ph.pos.toNat) a s.mssLocal.toNat
          U (N₁ ++ [(x.1, x.2 ++ arg.take ph.pos.toNat)]) := by
        refine Held.extend h.held hstop ?_
        have := hspec.fits
        rw [htakepos, ← hlast.len]
        omega
      have hqueue : ph.queuelen.toNat =
          buffers (s.unacked ++ (front ++ [seg.cat ph.concat])) := by
        rw [hspec.queuelen, h.queuelen, hfront, buffers_append,
          buffers_append, buffers_append, buffers_append, buffers_cons,
          buffers_cons, hbufs]
        omega
      have hle : ph.queuelen.toNat ≤ 8 := by
        have hq := hspec.queuelen
        have hq8 := h.queuelen_le
        rcases hc : ph.concat with - | c
        · rw [hc] at hq
          have : ph.queuelen.toNat = s.sndQueuelen.toNat := hq
          omega
        · rw [hc] at hq
          have hone : ph.queuelen.toNat = s.sndQueuelen.toNat + 1 := hq
          have := hfull (hspec.concat c hc).1
          omega
      rcases h.finish more mem hQ ph (front ++ [seg.cat ph.concat]) harg hbuf
        (fun queue => by
          rw [TcpSender.chain, hs]
          simp only [hseg, Option.bind_eq_bind, Option.bind_some]
          rw [hfront, List.dropLast_concat]) hspec.pos_le hheld
        (List.rel_append hN₁ (List.Forall₂.cons hcarries List.Forall₂.nil))
        hqueue hle
        (fun last' hlast' => by
          rw [List.getLast?_concat] at hlast'
          obtain rfl := Option.some.inj hlast'
          refine ⟨?_, hsegroom⟩
          have hfits := hspec.fits
          have hclen := hcarries.len
          rw [List.length_append, ← hlast.len, htakepos] at hclen
          omega)
        (fun hnil => absurd hnil (by simp)) with
        hnone | ⟨queue, oversize, queuelen, s', N', hnew, hcommit, hinv⟩
      · refine Or.inl ⟨_, ?_, hrefused⟩
        simp only [Traced.ofOption_some, pure_bind, hnone]
        rfl
      · refine Or.inr ⟨s', N', ?_, hinv⟩
        simp only [Traced.ofOption_some, pure_bind, hnew, hcommit]
        rfl
  · simp only [hchk, Traced.ofOption_some, pure_bind]
    exact Or.inl ⟨_, rfl, hrefused⟩

end Write

/-! ### Runs -/

/-- What has been written to the connection. -/
def written : List TcpAct → List UInt8
  | [] => []
  | .accepted data :: o => data ++ written o
  | _ :: o => written o

@[simp] theorem written_append (o o' : List TcpAct) :
    written (o ++ o') = written o ++ written o' := by
  induction o with
  | nil => rfl
  | cons t o ih => cases t <;> simp [written, ih]

/-- A connection that has just been established. -/
structure TcpSender.Established (s : TcpSender) : Prop where
  unsent : s.unsent = []
  unacked : s.unacked = []
  lastack : s.lastack = s.sndLbb
  sndNxt : s.sndNxt = s.sndLbb
  sndBuf : s.sndBuf = tcpSndBuf
  queuelen : s.sndQueuelen = 0
  oversize : s.unsentOversize = 0
  mss_pos : 0 < s.mss.toNat
  mss_le : s.mss.toNat ≤ 1460
  cwnd : 0 < s.cwnd.toNat
  fast : s.inFastRexmit = false

/-- What the sender relies on.  It neither writes nor retransmits everything
while a fast retransmission is held back by the window. -/
def TcpSender.Legal (s : TcpSender) : TcpOp → Prop
  | .write arg len _ _ => len.toNat ≤ arg.length ∧ s.AtEnd
  | .ack _ ackno _ _ => s.Plausible ackno
  | .rexmitRto _ => s.InOrder
  | .output _ _ | .probe _ | .received _ _ _ => True

instance (s : TcpSender) : DecidablePred s.Legal
  | .write _ _ _ _ => inferInstanceAs (Decidable (_ ∧ _))
  | .ack _ _ _ _ => inferInstanceAs (Decidable (s.Plausible _))
  | .rexmitRto _ => inferInstanceAs (Decidable s.InOrder)
  | .output _ _ | .probe _ | .received _ _ _ =>
    inferInstanceAs (Decidable True)

section Runs

variable {Q : TcpSeg → Prop} {s₀ s : TcpSender} {stream : List UInt8}
variable {a : Nat} {U N : List (Nat × List UInt8)} {o : List TcpAct}
variable {ops : List TcpOp}

theorem written_of_sends (h : ∀ t ∈ o, Sends Q s₀ stream t) :
    written o = [] := by
  induction o with
  | nil => rfl
  | cons t o ih =>
    have ht := h t List.mem_cons_self
    have ho := ih fun u hu => h u (List.mem_cons_of_mem t hu)
    cases ht <;> exact ho

/-- What has been sent of the stream is part of the longer stream. -/
theorem Sends.mono {t : TcpAct} (new : List UInt8)
    (h : Sends Q s₀ stream t) : Sends Q s₀ (stream ++ new) t := by
  cases h with
  | segment ips carries sits short sum =>
    exact Sends.segment ips carries (prefix_append_drop sits) short sum
  | plain ips sits short => exact Sends.plain ips (prefix_append_drop sits) short

theorem tcpInv_init (h : s.Established) : TcpInv Q s [] 0 [] [] s where
  held := held_nil _
  unacked := by
    rw [h.unacked]
    exact List.Forall₂.nil
  unsent := by
    rw [h.unsent]
    exact List.Forall₂.nil
  lastack := by rw [h.lastack, seqOf_zero]
  sndLbb := by rw [List.length_nil, seqOf_zero]
  sndNxt := ⟨0, Nat.le_refl 0, Nat.le_refl 0, by rw [h.sndNxt, seqOf_zero]⟩
  sndBuf := by
    rw [h.sndBuf]
    rfl
  queuelen := by
    rw [h.queuelen, h.unacked, h.unsent]
    rfl
  queuelen_le := by
    rw [h.queuelen]
    exact Nat.zero_le 8
  mss_pos := h.mss_pos
  mss_le := h.mss_le
  cwnd := h.cwnd
  ssthresh hfast := by
    rw [h.fast] at hfast
    cases hfast
  room seg hseg := by
    rw [h.unsent] at hseg
    cases hseg
  ips := ⟨rfl, rfl⟩
  noRoom _ := h.oversize

/-- **A legal step** returns and keeps the invariant; what it sends is of the
stream. -/
theorem TcpInv.step (hQ : Lasting Q) (h : TcpInv Q s₀ stream a U N s)
    {op : TcpOp} (hl : s.Legal op)
    (hext : ∀ arg len more mem seg, op = .write arg len more mem →
      s.extended arg len more mem = some seg → Q seg) :
    ∃ o s' a' U' N', tcpStep s op = ⟨o, some s'⟩ ∧
      TcpInv Q s₀ (stream ++ written o) a' U' N' s' ∧
      ∀ hdr p, .sent hdr p ∈ o → Sends Q s₀ stream (.sent hdr p) := by
  have hsent {o : List TcpAct} {s' : TcpSender} {a' : Nat}
      {U' N' : List (Nat × List UInt8)}
      (hstep : tcpStep s op = ⟨o, some s'⟩)
      (hinv : TcpInv Q s₀ stream a' U' N' s')
      (ho : ∀ t ∈ o, Sends Q s₀ stream t) :
      ∃ o s' a' U' N', tcpStep s op = ⟨o, some s'⟩ ∧
        TcpInv Q s₀ (stream ++ written o) a' U' N' s' ∧
        ∀ hdr p, .sent hdr p ∈ o → Sends Q s₀ stream (.sent hdr p) := by
    refine ⟨o, s', a', U', N', hstep, ?_, fun hdr p hp => ho _ hp⟩
    rwa [written_of_sends ho, List.append_nil]
  cases op with
  | write arg len more mem =>
    rcases h.tcpWrite hQ hl.1 hl.2
      (fun seg hseg => hext arg len more mem seg rfl hseg) with
      ⟨s', hstep, hinv⟩ | ⟨s', N', hstep, hinv⟩
    · refine ⟨_, s', a, U, N, hstep, ?_, ?_⟩
      · show TcpInv Q s₀ (stream ++ []) a U N s'
        rwa [List.append_nil]
      · intro hdr p hp
        cases List.mem_singleton.mp hp
    · refine ⟨_, s', a, U, N', hstep, ?_, ?_⟩
      · show TcpInv Q s₀ (stream ++ (arg.take len.toNat ++ [])) a U N' s'
        rwa [List.append_nil]
      · intro hdr p hp
        cases List.mem_singleton.mp hp
  | output input mem =>
    obtain ⟨o, s', U', N', hstep, hinv, ho⟩ := h.tcpOutput hQ input mem
    exact hsent hstep hinv ho
  | ack seqno ackno wnd tcplen =>
    obtain ⟨s', a', U', N', hstep, hinv⟩ :=
      h.tcpReceiveAck seqno wnd tcplen hl
    refine hsent (o := []) ?_ hinv nofun
    rw [tcpStep, hstep]
    rfl
  | rexmitRto mem =>
    obtain ⟨o, s', U', N', hstep, hinv, ho⟩ := h.tcpRexmitRto hQ mem hl
    exact hsent hstep hinv ho
  | probe mem =>
    obtain ⟨o, hstep, ho⟩ := h.tcpZeroWindowProbe mem
    exact hsent hstep h ho
  | received rcvNxt rcvAnnWnd ackNow =>
    exact hsent rfl (h.same (sameQueues_set s rcvNxt rcvAnnWnd s.dupacks
      s.cwnd s.ssthresh s.timing ackNow s.nagleMemErr s.inFastRexmit) h.cwnd
      h.ssthresh) nofun

/-- The last segment that waits carries a piece. -/
theorem TcpInv.last (h : TcpInv Q s₀ stream a U N s) {last : TcpSeg}
    (hs : s.unsent.getLast? = some last) :
    ∃ x ∈ U ++ N, Carries Q s₀.sndLbb last x := by
  obtain ⟨front, hfront⟩ := List.getLast?_eq_some_iff.mp hs
  have hun := h.unsent
  rw [hfront] at hun
  obtain ⟨X, x, rfl, -, hx⟩ := forall₂_concat hun
  exact ⟨x, by simp, hx⟩

/-- The invariant of a run. -/
def TcpRun (Q : TcpSeg → Prop) (s₀ : TcpSender) (o : List TcpAct)
    (s : TcpSender) : Prop :=
  (∃ a U N, TcpInv Q s₀ (written o) a U N s) ∧
    ∀ hdr p, .sent hdr p ∈ o → Sends Q s₀ (written o) (.sent hdr p)

/-- **The runs of a connection.** -/
theorem tcpRun (hQ : Lasting Q) (h₀ : s₀.Established)
    (hl : ∀ o s op, Feeds tcpStep s₀ ops o s op → s.Legal op)
    (hext : ∀ o s arg len more mem seg,
      Feeds tcpStep s₀ ops o s (.write arg len more mem) →
      (∃ stream a U N, TcpInv Q s₀ stream a U N s) →
      s.extended arg len more mem = some seg → Q seg) :
    (∃ o s, run tcpStep s₀ ops = ⟨o, some s⟩) ∧
      ∀ o s, Visits tcpStep s₀ ops o s → TcpRun Q s₀ o s := by
  have hinit : TcpRun Q s₀ [] s₀ := ⟨⟨0, [], [], tcpInv_init h₀⟩, nofun⟩
  have hstep (o : List TcpAct) (s : TcpSender) (op : TcpOp)
      (hf : Feeds tcpStep s₀ ops o s op) (hI : TcpRun Q s₀ o s) :
      ∃ o' s', tcpStep s op = ⟨o', some s'⟩ ∧ TcpRun Q s₀ (o ++ o') s' := by
    obtain ⟨⟨a, U, N, hinv⟩, hsent⟩ := hI
    obtain ⟨o', s', a', U', N', hop, hinv', hsent'⟩ := hinv.step hQ
      (hl o s op hf) fun arg len more mem seg hwrite hseg =>
        hext o s arg len more mem seg (hwrite ▸ hf) ⟨_, a, U, N, hinv⟩ hseg
    refine ⟨o', s', hop, ⟨a', U', N', ?_⟩, fun hdr p hp => ?_⟩
    · rwa [written_append]
    · rw [written_append]
      rcases List.mem_append.mp hp with hp | hp
      · exact (hsent hdr p hp).mono _
      · exact (hsent' hdr p hp).mono _
  constructor
  · obtain ⟨o, s, hrun, -⟩ := run_total (I := TcpRun Q s₀) hinit hstep
    exact ⟨o, s, hrun⟩
  · intro o s hv
    refine visits_inv (I := TcpRun Q s₀) hinit ?_ hv
    intro o s op o' s' hf hI hop
    obtain ⟨o'', s'', hop', hI'⟩ := hstep o s op hf hI
    rw [hop] at hop'
    obtain ⟨rfl, hs⟩ := Traced.mk.inj hop'
    obtain rfl := Option.some.inj hs
    exact hI'

/-! ### The stream -/

/-- The segment holds the bytes of `stream` at the place `n`, and they are not
all in front of the place `a`. -/
structure TcpSeg.SitsAt (iss : UInt32) (stream : List UInt8) (a : Nat)
    (seg : TcpSeg) (n : Nat) : Prop where
  seqno : seg.seqno = seqOf iss n
  data : seg.data <+: stream.drop n
  late : a < n + seg.data.length

/-- What is queued: the `stream` from the place `a` on, which has not been
acknowledged yet, each byte once.  The first segment may begin in front of `a`:
one that is acknowledged in part stays whole. -/
structure TcpSender.Holds (iss : UInt32) (stream : List UInt8) (a : Nat)
    (s : TcpSender) : Prop where
  le : a ≤ stream.length
  lastack : s.lastack = seqOf iss a
  sndLbb : s.sndLbb = seqOf iss stream.length
  sndBuf : s.sndBuf.toNat + (stream.length - a) = tcpSndBuf.toNat
  queuelen : s.sndQueuelen.toNat = buffers (s.unacked ++ s.unsent)
  queuelen_le : s.sndQueuelen.toNat ≤ tcpSndQueuelen.toNat
  sits : ∀ seg ∈ s.unacked ++ s.unsent, ∃ n, seg.SitsAt iss stream a n
  apart : (s.unacked ++ s.unsent).Pairwise fun seg seg' => ∃ n n',
    seg.SitsAt iss stream a n ∧ seg'.SitsAt iss stream a n' ∧
      (n + seg.data.length ≤ n' ∨ n' + seg'.data.length ≤ n)
  covers : ∀ k, a ≤ k → k < stream.length →
    ∃ seg ∈ s.unacked ++ s.unsent, ∃ n, seg.SitsAt iss stream a n ∧
      n ≤ k ∧ k < n + seg.data.length
  done : a = stream.length → s.unacked = [] ∧ s.unsent = []

theorem TcpInv.holds (h : TcpInv Q s₀ stream a U N s) :
    s.Holds s₀.sndLbb stream a := by
  have hall : List.Forall₂ (Carries Q s₀.sndLbb) (s.unacked ++ s.unsent)
      (U ++ N) := List.rel_append h.unacked h.unsent
  have hsits {seg : TcpSeg} {x : Nat × List UInt8} (hx : x ∈ U ++ N)
      (hc : Carries Q s₀.sndLbb seg x) :
      seg.SitsAt s₀.sndLbb stream a x.1 ∧
        x.1 + seg.data.length = stop List.length x := by
    have hstop : x.1 + seg.data.length = stop List.length x := by
      rw [hc.data, stop]
    exact ⟨⟨hc.seqno, hc.data ▸ h.held.sits x hx, hstop ▸ h.held.late x hx⟩,
      hstop⟩
  refine ⟨h.held.le, h.lastack, h.sndLbb, h.sndBuf, h.queuelen,
    h.queuelen_le, fun seg hseg => ?_, ?_, fun k ha hk => ?_, fun hdone => ?_⟩
  · obtain ⟨x, hx, hc⟩ := forall₂_mem_left hall hseg
    exact ⟨x.1, (hsits hx hc).1⟩
  · refine (forall₂_pairwise hall h.held.apart).imp ?_
    rintro seg seg' ⟨x, hx, y, hy, hc, hc', hapart⟩
    obtain ⟨hat, hstop⟩ := hsits hx hc
    obtain ⟨hat', hstop'⟩ := hsits hy hc'
    refine ⟨x.1, y.1, hat, hat', ?_⟩
    rw [hstop, hstop']
    exact hapart
  · obtain ⟨x, hx, hlow, hhigh⟩ := h.held.covers k ha hk
    obtain ⟨seg, hseg, hc⟩ := forall₂_mem_right hall hx
    obtain ⟨hat, hstop⟩ := hsits hx hc
    exact ⟨seg, hseg, x.1, hat, hlow, hstop ▸ hhigh⟩
  · have hheld := h.held
    rw [hdone] at hheld
    obtain ⟨rfl, rfl⟩ := hheld.eq_nil
    exact ⟨List.forall₂_nil_right_iff.mp h.unacked,
      List.forall₂_nil_right_iff.mp h.unsent⟩

theorem lasting_checksummed :
    Lasting fun seg => seg.dataChecksummed = true :=
  ⟨fun _ _ _ => rfl, fun h => h, fun h _ => h, fun h => h⟩

/-- The data of a segment that is extended are still summed. -/
theorem extended_checksummed {arg : List UInt8} {len : UInt16} {more : Bool}
    {mem : Nat → Bool} {seg : TcpSeg}
    (hlast : ∀ last, s.unsent.getLast? = some last →
      last.dataChecksummed = true)
    (h : s.extended arg len more mem = some seg) :
    seg.dataChecksummed = true := by
  simp only [TcpSender.extended, Option.bind_eq_bind,
    Option.bind_eq_some_iff] at h
  obtain ⟨last, hs, ph, -, seg', hfill, hcat⟩ := h
  have hfilled : seg'.dataChecksummed = true := by
    rw [TcpSeg.fill] at hfill
    split at hfill
    · rw [← Option.some.inj hfill]
      exact hlast last hs
    · split at hfill
      · cases hfill
      · split at hfill
        · rw [← Option.some.inj hfill]
        · cases hfill
  rw [← Option.some.inj hcat]
  rcases ph.concat with - | c
  · exact hfilled
  · rfl

/-- **The stream is sent.**  Whatever is written, lost, acknowledged and sent
again, a run of an established connection returns; in each of its states the
queues hold each byte that has been written and not yet acknowledged once, and
of what has been acknowledged at most the beginning of a segment, and the space
in the send buffer is what is left; and each segment that has been sent carries
the data that were written at the place its sequence number says. -/
theorem tcp_stream (h₀ : s₀.Established)
    (hl : ∀ o s op, Feeds tcpStep s₀ ops o s op → s.Legal op) :
    (∃ o s, run tcpStep s₀ ops = ⟨o, some s⟩) ∧
      ∀ o s, Visits tcpStep s₀ ops o s →
        (∃ a, s.Holds s₀.sndLbb (written o) a) ∧
        ∀ hdr p, .sent hdr p ∈ o → ∃ n, hdr.seqno = seqOf s₀.sndLbb n ∧
          p.flatten <+: (written o).drop n := by
  obtain ⟨hrun, hvisits⟩ := tcpRun lasting_checksummed h₀ hl
    fun o s arg len more mem seg _ ⟨stream, a, U, N, hinv⟩ hseg =>
      extended_checksummed (fun last hs => by
        obtain ⟨x, -, hlast⟩ := hinv.last hs
        exact hlast.good) hseg
  refine ⟨hrun, fun o s hv => ?_⟩
  obtain ⟨⟨a, U, N, hinv⟩, hsent⟩ := hvisits o s hv
  refine ⟨⟨a, hinv.holds⟩, fun hdr p hp => ?_⟩
  cases hsent hdr p hp with
  | @segment s seg x chksum ips carries sits short sum =>
    refine ⟨x.1, carries.seqno, ?_⟩
    have hdata : (seg.p.map Pbuf.payload).flatten = x.2 := carries.data
    rwa [hdata]
  | @plain s n p flags ips sits short => exact ⟨n, rfl, sits⟩

end Runs

/-- A connection with a small window. -/
def tcpStart : TcpSender where
  localIp := 0xC901A8C0
  remoteIp := 0x0501A8C0
  localPort := 80
  remotePort := 50000
  rcvNxt := 7000
  rcvAnnWnd := 2920
  mss := 8
  lastack := 0xFFFFFFFA
  dupacks := 0
  cwnd := 16
  ssthresh := 32
  sndNxt := 0xFFFFFFFA
  sndWl1 := 7000
  sndWl2 := 0xFFFFFFFA
  sndLbb := 0xFFFFFFFA
  sndWnd := 40
  sndWndMax := 40
  sndBuf := 2920
  sndQueuelen := 0
  unsentOversize := 0
  unsent := []
  unacked := []
  timing := false
  ackNow := false
  nodelay := false
  nagleMemErr := false
  inFastRexmit := false

/-- Two writes, of which a part is acknowledged and the rest is sent again,
while the sequence numbers come round. -/
def tcpOps : List TcpOp :=
  [.write [1, 2, 3, 4, 5, 6, 7, 8, 9, 10] 10 false fun _ => true,
    .output false true, .ack 7000 2 40 0,
    .write [11, 12, 13] 3 false fun _ => true, .rexmitRto true,
    .output false true]

theorem tcpStart_established : tcpStart.Established :=
  ⟨rfl, rfl, rfl, rfl, rfl, rfl, rfl, by decide, by decide, by decide, rfl⟩

theorem tcpOps_legal (o : List TcpAct) (s : TcpSender) (op : TcpOp)
    (hf : Feeds tcpStep tcpStart tcpOps o s op) : s.Legal op := by
  have hcheck : checkRun tcpStep (fun s op => decide (s.Legal op)) tcpStart
      tcpOps = true := by decide +kernel
  have hok := checkRun_feeds hcheck hf
  exact of_decide_eq_true hok

theorem tcp_stream_talk :
    (∃ o s, run tcpStep tcpStart tcpOps = ⟨o, some s⟩) ∧
      ∀ o s, Visits tcpStep tcpStart tcpOps o s →
        (∃ a, s.Holds 0xFFFFFFFA (written o) a) ∧
        ∀ hdr p, .sent hdr p ∈ o → ∃ n, hdr.seqno = seqOf 0xFFFFFFFA n ∧
          p.flatten <+: (written o).drop n :=
  tcp_stream tcpStart_established tcpOps_legal

end Roip
