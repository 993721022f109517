/-
Roip/CallState.lean

Consistency of the call state.

Between two calls of `radio_comm` the converter should run exactly in the
state `ACTIVE_PTT`, the talker's identity `ssi2` should be empty outside it,
and in `ACTIVE_WAIT` all identities should be empty.  Only the release of
push-to-talk stops the converter and clears `ssi2`; the events that end or
replace a call leave both alone.  A call therefore breaks the consistency
exactly when its text ends in such an event while push-to-talk is held
(`call_state_consistent_iff`).
-/
import Roip.Events

namespace Roip

/-- The state between two calls is consistent with the actions so far. -/
structure Consistent (o : List RadioAct) (r : Radio) : Prop where
  adc : adcAfter false o = true ↔ r.call.ser = .activePtt
  ssi2 : cstr r.call.ssi2.cells ≠ [] → r.call.ser = .activePtt
  wait : r.call.ser = .activeWait → cstr r.call.ssi.cells = [] ∧
    cstr r.call.gssi.cells = [] ∧ cstr r.call.ssi2.cells = []

/-- If the events of a call leave push-to-talk held, it is the last of them
that has pressed it. -/
def EndsTidily (r : Radio) (i : RadioIn) : Prop :=
  pttAfter (decide (r.call.ser = .activePtt)) (eventsOf r i) = true →
    eventsOf r i = [] ∨ (eventsOf r i).getLast? = some .pttPressed

theorem consistent_init : Consistent [] radioInit where
  adc := by decide
  ssi2 := by decide +kernel
  wait := by decide +kernel

/-- Only one event leads to `ACTIVE_PTT`. -/
theorem Event.ser_eq_activePtt {ev : Event} :
    ev.ser = .activePtt ↔ ev = .pttPressed := by
  cases ev <;> decide

/-- A consistent state is tidy. -/
theorem Consistent.tidy {o : List RadioAct} {r : Radio}
    (h : Consistent o r) : Tidy (adcAfter false o) r.call where
  ssi2 hb := by
    by_contra hne
    have := h.adc.mpr (h.ssi2 hne)
    rw [hb] at this
    cases this
  wait hw := ⟨(h.wait hw).1, (h.wait hw).2.1⟩

/-- **One call.**  It keeps the consistency exactly when it ends tidily. -/
theorem consistent_step_iff {o o' : List RadioAct} {r r' : Radio}
    {i : RadioIn} (h : Consistent o r) (hcomm : radioComm r i = ⟨o', some r'⟩) :
    Consistent (o ++ o') r' ↔ EndsTidily r i := by
  obtain ⟨fwd, o₁, rfl, hfwd, heff⟩ := radioComm_effects hcomm
  obtain ⟨hadc, htidy, hser⟩ := heff.tidy h.tidy
  have hheld : decide (r.call.ser = .activePtt) = adcAfter false o := by
    rw [Bool.eq_iff_iff, decide_eq_true_eq, h.adc]
  have hadc' : adcAfter false (o ++ (fwd ++ o₁)) =
      pttAfter (adcAfter false o) (eventsOf r i) := by
    rw [adcAfter_append, adcAfter_append, adcAfter_datagrams hfwd, hadc]
  unfold EndsTidily
  rw [hheld]
  generalize eventsOf r i = evs at *
  rcases List.eq_nil_or_concat' evs with rfl | ⟨pre, ev, rfl⟩
  · -- no event: nothing has changed
    have hcall := heff.of_nil.2
    refine ⟨fun _ _ => Or.inl rfl, fun _ => ⟨?_, ?_, ?_⟩⟩
    · rw [hadc', hcall]
      exact h.adc
    · rw [hcall]
      exact h.ssi2
    · rw [hcall]
      exact h.wait
  · rw [List.getLast?_concat, Option.map_some, Option.getD_some] at hser
    rw [List.getLast?_concat, Option.some.injEq]
    constructor
    · intro hcons hptt
      have hlast := hcons.adc.mp (hadc'.trans hptt)
      exact Or.inr (Event.ser_eq_activePtt.mp (hser.symm.trans hlast))
    · intro hend
      have hiff : pttAfter (adcAfter false o) (pre ++ [ev]) = true ↔
          r'.call.ser = .activePtt := by
        rw [hser, Event.ser_eq_activePtt]
        constructor
        · exact fun hptt => (hend hptt).resolve_left (by simp)
        · rintro rfl
          exact pttAfter_concat_pressed _ _
      refine ⟨by rw [hadc', hiff], fun hne => ?_, fun hw => ?_⟩
      · rw [← hiff]
        by_contra hptt
        exact hne (htidy.ssi2 (Bool.eq_false_iff.mpr hptt))
      · refine ⟨(htidy.wait hw).1, (htidy.wait hw).2, htidy.ssi2 ?_⟩
        rw [Bool.eq_false_iff, ne_eq, hiff, hw]
        decide

/-- **The call state is consistent in every run exactly when every call ends
tidily.** -/
theorem call_state_consistent_iff (ins : List RadioIn) :
    (∀ o t, Visits radioComm radioInit ins o t → Consistent o t) ↔
      ∀ o t i o' t', Feeds radioComm radioInit ins o t i →
        radioComm t i = ⟨o', some t'⟩ → EndsTidily t i :=
  visits_inv_iff consistent_init fun _ _ _ _ _ h hcomm =>
    consistent_step_iff h hcomm

/-- A call that ends while push-to-talk is held: the converter keeps running
in `ACTIVE_WAIT`, and the talker's identity stays. -/
theorem call_end_keeps_sampling :
    let ins : List RadioIn := [⟨bytesOf "+CTXG:0,3,0,0,0,255\r\n", 0⟩,
      ⟨bytesOf "+CTCR:0,13\r\n", 0⟩]
    ∃ o t, Visits radioComm radioInit ins o t ∧ adcAfter false o = true ∧
      t.call.ser = .activeWait ∧
      cstr t.call.ssi2.cells = bytesOf "255" ∧ ¬ Consistent o t := by
  intro ins
  have hadc : adcAfter false (run radioComm radioInit ins).out = true := by
    decide +kernel
  have hcall : (run radioComm radioInit ins).res.map (fun t =>
      (t.call.ser, cstr t.call.ssi2.cells)) =
        some (.activeWait, bytesOf "255") := by
    decide +kernel
  obtain ⟨t, hres, ht⟩ := Option.map_eq_some_iff.mp hcall
  obtain ⟨hser, hssi2⟩ := Prod.mk.inj ht
  refine ⟨_, t, .end (Traced.eq_mk_of_res hres), hadc, hser, hssi2, ?_⟩
  intro h
  have := h.adc.mp hadc
  rw [hser] at this
  cases this

end Roip
