/-
Roip/Events.lean

What the scanner of `radio_comm` does on a buffer of any content.

`eventsFrom` lists the events the cursor meets.  Whatever their fields hold,
an event has one of five effects (`Effect`) on the call state, and a scan that
is defined is a sequence of them (`scan_effects`).  The second half follows
the push-to-talk: the converter runs exactly while it is held
(`Effects.tidy`), and its identity is empty while it is not.
-/
import Roip.Accumulator

namespace Roip

/-! ### Effects -/

/-- What an event does, whatever its fields hold. -/
inductive Effect : Event → Call → List RadioAct → Call → Prop
  | getSsi (s : Call) (ssi gssi : CArray UInt8 32) :
    Effect .getSsi s [.update .ssi ssi, .update .gssi gssi]
      { s with ssi, gssi, ser := .activeIncomingCall }
  | callEst (s : Call) :
    Effect .callEst s [] { s with ser := .activeCallEstablished }
  | pttPressed (s : Call) (ssi2 : CArray UInt8 32) :
    Effect .pttPressed s [.update .ssi2 ssi2, .adcStart]
      { s with ssi2, ser := .activePtt }
  | pttReleased (s : Call) :
    Effect .pttReleased s [.update .ssi2 clearIdentity, .adcStop]
      { s with ssi2 := clearIdentity, ser := .activeCallEstablished }
  | callEnd (s : Call) :
    Effect .callEnd s
      [.update .ssi clearIdentity, .update .gssi clearIdentity]
      { s with
        ssi := clearIdentity
        gssi := clearIdentity
        ser := .activeWait }

/-- An event that is handled has its effect. -/
theorem handleEvent_effect {ev : Event} {p : List UInt8} {rest : Nat}
    {len len' : UInt8} {s s' : Call} {o : List RadioAct}
    (h : handleEvent ev p rest len s = ⟨o, some (len', s')⟩) :
    Effect ev s o s' := by
  cases ev with
  | getSsi =>
    simp only [handleEvent, Traced.ofOption_bind_eq_mk_iff,
      Traced.emit_bind_eq_mk_iff, Traced.pure_eq_mk_iff,
      Prod.mk.injEq] at h
    obtain ⟨_, -, ssi, -, _, rfl, _, -, gssi, -, _, rfl, rfl, -, rfl⟩ := h
    exact .getSsi s ssi gssi
  | pttPressed =>
    simp only [handleEvent, Traced.ofOption_bind_eq_mk_iff,
      Traced.emit_bind_eq_mk_iff, Traced.pure_eq_mk_iff,
      Prod.mk.injEq] at h
    obtain ⟨_, -, ssi2, -, _, rfl, _, rfl, rfl, -, rfl⟩ := h
    exact .pttPressed s ssi2
  | callEst =>
    simp only [handleEvent, Traced.pure_eq_mk_iff, Prod.mk.injEq] at h
    obtain ⟨rfl, -, rfl⟩ := h
    exact .callEst s
  | pttReleased =>
    simp only [handleEvent, Traced.emit_bind_eq_mk_iff,
      Traced.pure_eq_mk_iff, Prod.mk.injEq] at h
    obtain ⟨_, rfl, _, rfl, rfl, -, rfl⟩ := h
    exact .pttReleased s
  | callEnd =>
    simp only [handleEvent, Traced.emit_bind_eq_mk_iff,
      Traced.pure_eq_mk_iff, Prod.mk.injEq] at h
    obtain ⟨_, rfl, _, rfl, rfl, -, rfl⟩ := h
    exact .callEnd s

/-- One turn of the loop that is defined: it passes over one character, or
over an event that has its effect. -/
theorem scanBody_effect {buf : List UInt8} {nbytes c c' : Nat}
    {len len' : UInt8} {s s' : Call} {o : List RadioAct}
    (h : scanBody buf nbytes c len s = ⟨o, some (c', len', s')⟩) :
    (recognise (buf.drop c) = some none ∧ c' = c + 1 ∧ o = [] ∧ s' = s) ∨
      ∃ ev, recognise (buf.drop c) = some (some ev) ∧ c' = c + ev.skip ∧
        Effect ev s o s' := by
  unfold scanBody at h
  obtain ⟨- | ev, hrec, hturn⟩ := Traced.ofOption_bind_eq_mk_iff.mp h
  · simp only [Traced.pure_eq_mk_iff, Prod.mk.injEq] at hturn
    obtain ⟨rfl, rfl, -, rfl⟩ := hturn
    exact Or.inl ⟨hrec, rfl, rfl, rfl⟩
  · obtain ⟨⟨len₁, s₁⟩, o₁, hev, hret, rfl⟩ := Traced.bind_eq_mk_iff.mp hturn
    simp only [Traced.pure_eq_mk_iff, Prod.mk.injEq] at hret
    obtain ⟨rfl, rfl, -, rfl⟩ := hret
    refine Or.inr ⟨ev, hrec, rfl, ?_⟩
    rw [List.append_nil]
    exact handleEvent_effect (Traced.eq_mk_of_res hev)

/-- The events the cursor meets. -/
def eventsFrom (buf : List UInt8) (nbytes : Nat) : Nat → Nat → List Event
  | 0, _ => []
  | fuel + 1, c =>
    if c < nbytes then
      match recognise (buf.drop c) with
      | some (some ev) => ev :: eventsFrom buf nbytes fuel (c + ev.skip)
      | _ => eventsFrom buf nbytes fuel (c + 1)
    else []

/-- Effects one after the other. -/
inductive Effects : List Event → Call → List RadioAct → Call → Prop
  | nil (s : Call) : Effects [] s [] s
  | cons {ev : Event} {evs : List Event} {s t u : Call}
    {o o' : List RadioAct} (h : Effect ev s o t) (hs : Effects evs t o' u) :
    Effects (ev :: evs) s (o ++ o') u

theorem Effects.of_nil {s s' : Call} {o : List RadioAct}
    (h : Effects [] s o s') : o = [] ∧ s' = s := by
  generalize hevs : ([] : List Event) = evs at h
  cases h with
  | nil => exact ⟨rfl, rfl⟩
  | cons => cases hevs

/-- **A scan is the effects of the events it meets.** -/
theorem scan_effects {buf : List UInt8} {nbytes : Nat} {fuel c : Nat}
    {len : UInt8} {s s' : Call} {o : List RadioAct}
    (h : scan buf nbytes fuel c len s = ⟨o, some s'⟩) :
    Effects (eventsFrom buf nbytes fuel c) s o s' := by
  induction fuel generalizing c len s o with
  | zero =>
    obtain ⟨rfl, rfl⟩ := Traced.pure_eq_mk_iff.mp h
    exact .nil s
  | succ fuel ih =>
    rw [scan] at h
    rw [eventsFrom]
    by_cases hc : c < nbytes
    · rw [if_pos hc, Traced.bind_eq_mk_iff] at h
      obtain ⟨⟨c', len', t⟩, o', hbody, hrest, rfl⟩ := h
      rw [if_pos hc]
      rcases scanBody_effect (Traced.eq_mk_of_res hbody) with
        ⟨hrec, rfl, ho, rfl⟩ | ⟨ev, hrec, rfl, hev⟩
      · rw [hrec, ho]
        exact ih hrest
      · rw [hrec]
        exact .cons hev (ih hrest)
    · rw [if_neg hc] at h ⊢
      obtain ⟨rfl, rfl⟩ := Traced.pure_eq_mk_iff.mp h
      exact .nil s

/-- The events of the text that a call completes; none if it does not. -/
def eventsOf (r : Radio) (i : RadioIn) : List Event :=
  match accumulate r i.chunk with
  | some t =>
    if t.complete then eventsFrom t.buf.cells t.nbytes t.nbytes 0 else []
  | none => []

/-- **A call is the effects of the events of its text**, after the text has
been forwarded. -/
theorem radioComm_effects {r r' : Radio} {i : RadioIn} {o : List RadioAct}
    (h : radioComm r i = ⟨o, some r'⟩) :
    ∃ fwd o', o = fwd ++ o' ∧ (∀ a ∈ fwd, a.datagram?.isSome) ∧
      Effects (eventsOf r i) r.call o' r'.call := by
  unfold radioComm at h
  obtain ⟨t, hacc, hrest⟩ := Traced.ofOption_bind_eq_mk_iff.mp h
  have hcall : t.call = r.call := by
    obtain ⟨buf, -, rfl⟩ := Option.map_eq_some_iff.mp hacc
    rfl
  rw [eventsOf, hacc]
  by_cases hc : t.complete
  · rw [if_pos hc] at hrest
    obtain ⟨o', rfl, hloop⟩ := Traced.emit_bind_eq_mk_iff.mp hrest
    obtain ⟨call, o₁, hscan, hret, rfl⟩ := Traced.bind_eq_mk_iff.mp hloop
    obtain ⟨rfl, rfl⟩ := Traced.pure_eq_mk_iff.mp hret
    refine ⟨[.stringSend (t.buf.cells.take t.nbytes)],
      (scan t.buf.cells t.nbytes t.nbytes 0 i.len t.call).out,
      by simp, by simp [RadioAct.datagram?], ?_⟩
    simp only [hc, if_true, ← hcall]
    exact scan_effects (Traced.eq_mk_of_res hscan)
  · rw [if_neg hc] at hrest
    obtain ⟨rfl, rfl⟩ := Traced.pure_eq_mk_iff.mp hrest
    refine ⟨[], [], rfl, by simp, ?_⟩
    simp only [hc, hcall]
    exact .nil r.call

/-! ### Push-to-talk -/

/-- Whether the converter runs after some actions. -/
def adcAfter : Bool → List RadioAct → Bool
  | b, [] => b
  | _, .adcStart :: o => adcAfter true o
  | _, .adcStop :: o => adcAfter false o
  | b, _ :: o => adcAfter b o

/-- Whether push-to-talk is held after some events. -/
def pttAfter : Bool → List Event → Bool
  | b, [] => b
  | _, .pttPressed :: evs => pttAfter true evs
  | _, .pttReleased :: evs => pttAfter false evs
  | b, _ :: evs => pttAfter b evs

/-- The serial state an event leaves. -/
def Event.ser : Event → SerialState
  | .getSsi => .activeIncomingCall
  | .callEst => .activeCallEstablished
  | .pttPressed => .activePtt
  | .pttReleased => .activeCallEstablished
  | .callEnd => .activeWait

theorem adcAfter_append (b : Bool) (o o' : List RadioAct) :
    adcAfter b (o ++ o') = adcAfter (adcAfter b o) o' := by
  induction o generalizing b with
  | nil => rfl
  | cons a o ih => cases a <;> exact ih _

/-- Forwarding does not touch the converter. -/
theorem adcAfter_datagrams {b : Bool} {o : List RadioAct}
    (h : ∀ a ∈ o, a.datagram?.isSome) : adcAfter b o = b := by
  induction o with
  | nil => rfl
  | cons a o ih =>
    rw [List.forall_mem_cons] at h
    cases a with
    | stringSend => exact ih h.2
    | adcStart | adcStop | update => cases h.1

/-- What holds of the identities between any two events, `b` saying whether
push-to-talk is held. -/
structure Tidy (b : Bool) (s : Call) : Prop where
  ssi2 : b = false → cstr s.ssi2.cells = []
  wait : s.ser = .activeWait → cstr s.ssi.cells = [] ∧ cstr s.gssi.cells = []

theorem cstr_clearIdentity : cstr clearIdentity.cells = [] := by decide

/-- One event. -/
theorem Effect.tidy {ev : Event} {s s' : Call} {o : List RadioAct} {b : Bool}
    (h : Effect ev s o s') (ht : Tidy b s) :
    adcAfter b o = pttAfter b [ev] ∧ Tidy (pttAfter b [ev]) s' ∧
      s'.ser = ev.ser := by
  cases h with
  | getSsi ssi gssi => exact ⟨rfl, ⟨ht.ssi2, nofun⟩, rfl⟩
  | callEst => exact ⟨rfl, ⟨ht.ssi2, nofun⟩, rfl⟩
  | pttPressed ssi2 => exact ⟨rfl, ⟨nofun, nofun⟩, rfl⟩
  | pttReleased => exact ⟨rfl, ⟨fun _ => cstr_clearIdentity, nofun⟩, rfl⟩
  | callEnd =>
    exact ⟨rfl, ⟨ht.ssi2, fun _ =>
      ⟨cstr_clearIdentity, cstr_clearIdentity⟩⟩, rfl⟩

theorem pttAfter_concat_pressed (b : Bool) (evs : List Event) :
    pttAfter b (evs ++ [.pttPressed]) = true := by
  induction evs generalizing b with
  | nil => rfl
  | cons ev evs ih => cases ev <;> exact ih _

theorem pttAfter_cons (b : Bool) (ev : Event) (evs : List Event) :
    pttAfter b (ev :: evs) = pttAfter (pttAfter b [ev]) evs := by
  cases ev <;> rfl

/-- **A sequence of events**: the converter runs exactly while push-to-talk
is held, its identity is empty otherwise, and the last event decides the
serial state. -/
theorem Effects.tidy {evs : List Event} {s s' : Call} {o : List RadioAct}
    {b : Bool} (h : Effects evs s o s') (ht : Tidy b s) :
    adcAfter b o = pttAfter b evs ∧ Tidy (pttAfter b evs) s' ∧
      s'.ser = (evs.getLast?.map Event.ser).getD s.ser := by
  induction h generalizing b with
  | nil s => exact ⟨rfl, ht, rfl⟩
  | @cons ev evs s t u o o' h hs ih =>
    obtain ⟨hadc, htidy, hser⟩ := h.tidy ht
    obtain ⟨hadc', htidy', hser'⟩ := ih htidy
    rw [pttAfter_cons]
    refine ⟨by rw [adcAfter_append, hadc, hadc'], htidy', ?_⟩
    rw [hser']
    rcases evs with - | ⟨e, evs⟩
    · exact hser
    · rw [List.getLast?_cons_cons, List.getLast?_cons]
      rfl

end Roip
