/-
Roip/Reset.lean

The reset that `http_recv` schedules.

An accepted configuration stores the time in `sysreset_req`, and the main loop
resets the device when more than 500 ms have passed since.  The variable is at
the same time the flag: zero means that nothing is scheduled.  An acceptance
at a moment when the counter shows zero is therefore lost, and takes an earlier
one with it.

Time is a natural number; the counter is zero when the device boots and shows
the time since then modulo `2 ^ 32`.  As long as less than `2 ^ 31` ms lie
between two polls, an acceptance that has not been lost leads to a reset at the
first poll that finds it due, before the counter can come round (`Armed`).
-/
import Roip.Boot
import Roip.Lib.Clock

namespace Roip

/-! ### The device and its counter -/

/-- The server, and when the device has booted. -/
structure Board where
  httpd : Httpd
  booted : Nat
deriving DecidableEq

/-- `sys_now`, at time `t`. -/
def Board.sysNow (b : Board) (t : Nat) : UInt32 := clk (t - b.booted)

/-- What the main loop does at time `t`. -/
inductive ResetAct
  /-- a segment is handed to `http_recv` -/
  | recv (t : Nat) (x : HttpCall)
  /-- `if(sysreset_req)` -/
  | poll (t : Nat)
deriving DecidableEq

inductive ResetEvent
  /-- a configuration has been accepted, and the reset announced -/
  | accepted (t : Nat)
  /-- `NVIC_SystemReset` -/
  | reset (t : Nat)
deriving DecidableEq

/-- The same call, reading the counter as `now`. -/
def HttpCall.at (x : HttpCall) (now : UInt32) : HttpCall :=
  { x with env := { x.env with now } }

/-- The poll of `sysreset_req`.  After a reset the device boots from the flash;
the time this takes is left out. -/
def pollReset (b : Board) (t : Nat) : Traced ResetEvent Board :=
  if b.httpd.sysresetReq ≠ 0 then
    if b.sysNow t - b.httpd.sysresetReq > 500 then
      ⟨[.reset t], some ⟨.boot b.httpd.flash, t⟩⟩
    else pure b
  else pure b

def resetStep (b : Board) : ResetAct → Traced ResetEvent Board
  | .recv t x =>
    let x := x.at (b.sysNow t)
    ⟨if x.announcesReset b.httpd then [.accepted t] else [],
      (httpStep b.httpd x).res.map fun httpd => { b with httpd }⟩
  | .poll t => pollReset b t

/-! ### What is asked of a run -/

/-- From time `now` on the steps are taken one after the other, and less than
`2 ^ 31` ms lie between a poll and the one before it (or the time `last`). -/
def Polled : Nat → Nat → List ResetAct → Prop
  | _, _, [] => True
  | now, last, .recv t _ :: acts => now ≤ t ∧ Polled t last acts
  | now, last, .poll t :: acts =>
    now ≤ t ∧ t < last + 2 ^ 31 ∧ Polled t t acts

/-- The latest acceptance, if the device has not been reset since. -/
def pending (o : List ResetEvent) : Option Nat :=
  match o.getLast? with
  | some (.accepted a) => some a
  | _ => none

/-- The device is reset by the polls that find an acceptance more than 500 ms
ago, and by no others. -/
def ResetRule (b : Board) (acts : List ResetAct) : Prop :=
  ∀ o u t, Feeds resetStep b acts o u (.poll t) →
    (.reset t ∈ (resetStep u (.poll t)).out ↔
      ∃ a, pending o = some a ∧ 500 < t - a)

/-! ### One step -/

section Steps

variable {o o' : List ResetEvent} {b b' : Board} {now last t : Nat}

@[simp] theorem pending_accepted (o : List ResetEvent) (a : Nat) :
    pending (o ++ [.accepted a]) = some a := by
  rw [pending, List.getLast?_concat]

@[simp] theorem pending_reset (o : List ResetEvent) (t : Nat) :
    pending (o ++ [.reset t]) = none := by
  rw [pending, List.getLast?_concat]

/-- Only an accepted configuration assigns to `sysreset_req`. -/
theorem httpStep_sysresetReq {s t : Httpd} {x : HttpCall}
    (h : (httpStep s x).res = some t) :
    t.sysresetReq =
      if x.announcesReset s then x.env.now else s.sysresetReq := by
  by_cases hacc : x.request = some .ipSet ∧ s.st = .passSent
  · rw [if_pos (announcesReset_iff.mpr hacc)]
    obtain ⟨b, hb, -⟩ := s.flashBuff.storeAddresses_cells x.addresses
    rw [httpStep_of_request hacc.1, answer_ipSet hacc.2 hb] at h
    cases h
    rfl
  · rw [if_neg (mt announcesReset_iff.mp hacc)]
    rcases httpStep_cases s x with ⟨-, -, hres⟩ | ⟨r, o, u, hr, ha, -, hres⟩
    · rw [hres] at h
      cases h
      rfl
    · rw [hres] at h
      cases ha with
      | stored hs _ => exact absurd ⟨hr, hs⟩ hacc
      | overflow => cases h
      | root | loggedIn | loginFailed | refused | changePassForm | changed |
          unsuccessful =>
        cases h
        rfl

/-- At time `now`, the last poll having been at `last`, `sysreset_req` holds
the time of the acceptance that is pending.  A poll has not found it due,
unless the counter showed zero when it was accepted. -/
structure Armed (o : List ResetEvent) (b : Board) (now last : Nat) : Prop where
  booted : b.booted ≤ last
  last_le : last ≤ now
  idle : pending o = none → b.httpd.sysresetReq = 0
  set : ∀ a, pending o = some a → b.booted ≤ a ∧ a ≤ now ∧
    b.httpd.sysresetReq = b.sysNow a ∧ (last ≤ a + 500 ∨ b.sysNow a = 0)

/-- **A poll** resets the device if an acceptance is due and not lost. -/
theorem Armed.resets_iff (h : Armed o b now last) (hnow : now ≤ t)
    (hgap : t < last + 2 ^ 31) :
    .reset t ∈ (pollReset b t).out ↔
      ∃ a, pending o = some a ∧ 500 < t - a ∧ b.sysNow a ≠ 0 := by
  unfold pollReset
  rcases hp : pending o with - | a
  · rw [h.idle hp]
    simp
  · obtain ⟨hboot, ha, hreq, hlast⟩ := h.set a hp
    simp only [Option.some.injEq, exists_eq_left', hreq]
    by_cases hzero : b.sysNow a = 0
    · simp [hzero]
    · -- not due at the poll before, so the counter has not come round
      have hle := hlast.resolve_right hzero
      have hdue : b.sysNow t - b.sysNow a > 500 ↔ 500 < t - a := by
        have hsub : t - b.booted - (a - b.booted) = t - a := by omega
        have hiff := lt_clk_sub_iff (s := a - b.booted) (t := t - b.booted)
          (d := 500) (by omega) (by omega)
        rw [hsub] at hiff
        exact hiff
      rw [if_pos hzero]
      by_cases hd : 500 < t - a
      · rw [if_pos (hdue.mpr hd)]
        simp [hd, hzero]
      · rw [if_neg (mt hdue.mp hd)]
        simp [hd]

/-- A poll that has nothing to do leaves the device as it is. -/
theorem pollReset_cases (b : Board) (t : Nat) :
    pollReset b t = ⟨[.reset t], some ⟨.boot b.httpd.flash, t⟩⟩ ∨
      .reset t ∉ (pollReset b t).out ∧ pollReset b t = pure b := by
  unfold pollReset
  split
  · split
    · exact Or.inl rfl
    · exact Or.inr ⟨List.not_mem_nil, rfl⟩
  · exact Or.inr ⟨List.not_mem_nil, rfl⟩

theorem Armed.poll (h : Armed o b now last) (hnow : now ≤ t)
    (hgap : t < last + 2 ^ 31) (hstep : pollReset b t = ⟨o', some b'⟩) :
    Armed (o ++ o') b' t t := by
  rcases pollReset_cases b t with hreset | ⟨hno, hidle⟩
  · cases hreset.symm.trans hstep
    refine ⟨Nat.le_refl _, Nat.le_refl _, fun _ => rfl, fun a ha => ?_⟩
    rw [pending_reset] at ha
    cases ha
  · obtain ⟨rfl, rfl⟩ := Traced.pure_eq_mk_iff.mp (hidle.symm.trans hstep)
    rw [List.append_nil]
    have hlast := h.last_le
    have hboot := h.booted
    refine ⟨by omega, Nat.le_refl _, h.idle, fun a ha => ?_⟩
    obtain ⟨hboot, hle, hreq, -⟩ := h.set a ha
    refine ⟨hboot, Nat.le_trans hle hnow, hreq, ?_⟩
    -- what is due and not lost would have been found
    by_contra hmissed
    rw [not_or] at hmissed
    exact hno ((h.resets_iff hnow hgap).mpr ⟨a, ha, by omega, hmissed.2⟩)

theorem Armed.recv (h : Armed o b now last) (hnow : now ≤ t) {x : HttpCall}
    (hstep : resetStep b (.recv t x) = ⟨o', some b'⟩) :
    Armed (o ++ o') b' t last := by
  obtain ⟨hout, hres⟩ := Traced.mk.inj hstep
  obtain ⟨u, hu, rfl⟩ := Option.map_eq_some_iff.mp hres
  have hreq := httpStep_sysresetReq hu
  have hlast := Nat.le_trans h.last_le hnow
  by_cases hacc : (x.at (b.sysNow t)).announcesReset b.httpd = true
  · rw [if_pos hacc] at hout hreq
    rw [← hout]
    refine ⟨h.booted, hlast, fun hnone => ?_, fun a ha => ?_⟩
    · rw [pending_accepted] at hnone
      cases hnone
    · rw [pending_accepted] at ha
      obtain rfl := Option.some.inj ha
      exact ⟨Nat.le_trans h.booted hlast, Nat.le_refl _, hreq,
        Or.inl (Nat.le_trans hlast (Nat.le_add_right _ _))⟩
  · rw [if_neg hacc] at hout hreq
    rw [← hout, List.append_nil]
    refine ⟨h.booted, hlast, fun hnone => hreq.trans (h.idle hnone),
      fun a ha => ?_⟩
    obtain ⟨hboot, hle, hset, hdue⟩ := h.set a ha
    exact ⟨hboot, Nat.le_trans hle hnow, hreq.trans hset, hdue⟩

end Steps

/-! ### Whole runs -/

theorem armed_boot (flash : FlashImage) (now : Nat) :
    Armed [] ⟨.boot flash, now⟩ now now where
  booted := Nat.le_refl _
  last_le := Nat.le_refl _
  idle _ := rfl
  set a ha := by cases ha

/-- A poll of a run finds what is pending armed. -/
theorem Armed.run {acts : List ResetAct} {o₀ o : List ResetEvent}
    {b u : Board} {now last t : Nat} (h : Armed o₀ b now last)
    (hpolled : Polled now last acts)
    (hf : Feeds resetStep b acts o u (.poll t)) :
    ∃ now' last', Armed (o₀ ++ o) u now' last' ∧ now' ≤ t ∧
      t < last' + 2 ^ 31 := by
  induction acts generalizing o₀ o b now last with
  | nil => exact absurd hf feeds_nil
  | cons act acts ih =>
    rcases feeds_cons.mp hf with ⟨rfl, rfl, rfl⟩ | ⟨o₁, o₂, v, hstep, hrest, rfl⟩
    · -- this poll
      rw [List.append_nil]
      exact ⟨now, last, h, hpolled.1, hpolled.2.1⟩
    · rw [← List.append_assoc]
      cases act with
      | recv t' x => exact ih (h.recv hpolled.1 hstep) hpolled.2 hrest
      | poll t' =>
        exact ih (h.poll hpolled.1 hpolled.2.1 hstep) hpolled.2.2 hrest

/-- What a poll of a run does. -/
theorem reset_at_poll {flash : FlashImage} {now t : Nat}
    {acts : List ResetAct} (h : Polled now now acts) {o : List ResetEvent}
    {b : Board} (hf : Feeds resetStep ⟨.boot flash, now⟩ acts o b (.poll t)) :
    .reset t ∈ (resetStep b (.poll t)).out ↔
      ∃ a, pending o = some a ∧ 500 < t - a ∧ b.sysNow a ≠ 0 := by
  obtain ⟨now', last', harmed, hnow, hgap⟩ := (armed_boot flash now).run h hf
  exact harmed.resets_iff hnow hgap

/-- **When the reset is neither lost nor spurious.**  In a run from boot, every
acceptance leads to a reset at the first poll that finds it due, and nothing
else does, if and only if no acceptance that a poll finds due was made when the
counter showed zero. -/
theorem reset_iff {flash : FlashImage} {now : Nat} {acts : List ResetAct}
    (h : Polled now now acts) :
    ResetRule ⟨.boot flash, now⟩ acts ↔
      ∀ o u t a, Feeds resetStep ⟨.boot flash, now⟩ acts o u (.poll t) →
        pending o = some a → 500 < t - a → u.sysNow a ≠ 0 := by
  constructor
  · intro hrule o u t a hf hp hdue
    obtain ⟨a', hp', -, hne⟩ := (reset_at_poll h hf).mp
      ((hrule o u t hf).mpr ⟨a, hp, hdue⟩)
    cases hp.symm.trans hp'
    exact hne
  · intro hne o u t hf
    rw [reset_at_poll h hf]
    constructor
    · rintro ⟨a, hp, hdue, -⟩
      exact ⟨a, hp, hdue⟩
    · rintro ⟨a, hp, hdue⟩
      exact ⟨a, hp, hdue, hne o u t a hf hp hdue⟩

/-! ### Two runs -/

/-- A segment is handled as in a run without a clock. -/
theorem resetStep_recv (b : Board) (t : Nat) (x : HttpCall) :
    resetStep b (.recv t x) =
      ⟨(bootStep b.httpd (.call (x.at (b.sysNow t)))).out.map
          fun _ => .accepted t,
        (bootStep b.httpd (.call (x.at (b.sysNow t)))).res.map
          fun httpd => { b with httpd }⟩ := by
  rw [resetStep, bootStep]
  split <;> rfl

/-- The login to an erased device. -/
theorem resetStep_loginErased (booted t : Nat) :
    resetStep ⟨.boot erased, booted⟩ (.recv t loginErased) =
      ⟨[], some ⟨{ Httpd.boot erased with st := .passSent }, booted⟩⟩ := by
  have hok (now : UInt32) : (loginErased.at now).request = some .passSent ∧
      (loginErased.at now).passwordOk (.boot erased) = true := loginErased_ok
  rw [resetStep_recv, bootStep_accepted (hok _)]
  rfl

/-- An accepted configuration takes the time. -/
theorem resetStep_ipSet {b : Board} {t : Nat} {x : HttpCall}
    (hr : x.request = some .ipSet) (h : b.httpd.st = .passSent) :
    ∃ s, resetStep b (.recv t x) = ⟨[.accepted t], some ⟨s, b.booted⟩⟩ ∧
      s.sysresetReq = b.sysNow t := by
  have hr' : (x.at (b.sysNow t)).request = some .ipSet := hr
  obtain ⟨s, hs⟩ := bootStep_ipSet hr' h
  refine ⟨s, ?_, ?_⟩
  · rw [resetStep_recv, hs]
    rfl
  · rw [httpStep_sysresetReq (congrArg Traced.res hs),
      if_pos (announcesReset_iff.mpr ⟨hr', h⟩)]
    rfl

/-- A poll when `sysreset_req` is zero. -/
theorem resetStep_poll_zero {b : Board} (h : b.httpd.sysresetReq = 0)
    (t : Nat) : resetStep b (.poll t) = pure b :=
  if_neg (not_not_intro h)

/-- A login and a configuration, in the first milliseconds. -/
theorem reset_iff_submitShort :
    ResetRule ⟨.boot erased, 0⟩ [.recv 1 loginErased, .recv 2 submitShort,
      .poll 3, .poll 503] := by
  have hpolled : Polled 0 0 [.recv 1 loginErased, .recv 2 submitShort,
      .poll 3, .poll 503] :=
    ⟨by decide, by decide, by decide, by decide, by decide, by decide,
      trivial⟩
  obtain ⟨s, hsubmit, hreq⟩ := resetStep_ipSet (x := submitShort) (t := 2)
    (b := ⟨{ Httpd.boot erased with st := .passSent }, 0⟩) rfl rfl
  have hpoll : resetStep ⟨s, 0⟩ (.poll 3) = pure ⟨s, 0⟩ := by
    have hset : s.sysresetReq = clk 2 := hreq
    show pollReset ⟨s, 0⟩ 3 = _
    rw [pollReset, hset, if_pos (by decide)]
    exact if_neg (show ¬ clk 3 - clk 2 > 500 by decide)
  refine (reset_iff hpolled).mpr ?_
  rintro o u t a ⟨pre, post, hsplit, hr⟩ hp hdue
  rcases pre with - | ⟨x₁, - | ⟨x₂, - | ⟨x₃, - | ⟨x₄, pre⟩⟩⟩⟩ <;>
    simp at hsplit
  · omega
  · obtain ⟨rfl, rfl, rfl, -, -⟩ := hsplit
    rw [run_cons, resetStep_loginErased, Traced.mk_bind, run_cons, hsubmit,
      Traced.mk_bind, run_cons, hpoll, pure_bind, run_nil] at hr
    cases hr
    obtain rfl : 2 = a := Option.some.inj hp
    exact show clk 2 ≠ 0 by decide

/-- A configuration that is accepted when the counter comes round, 2^32 ms
after boot, is lost. -/
theorem not_reset :
    let acts : List ResetAct := [.recv 1 loginErased, .poll (2 ^ 31 - 1),
      .poll (2 ^ 32 - 2), .recv (2 ^ 32) submitShort]
    Polled 0 0 (acts ++ [.poll (2 ^ 32 + 501)]) ∧
      ¬ ResetRule ⟨.boot erased, 0⟩ (acts ++ [.poll (2 ^ 32 + 501)]) := by
  intro acts
  obtain ⟨s, hsubmit, hreq⟩ := resetStep_ipSet (x := submitShort)
    (b := ⟨{ Httpd.boot erased with st := .passSent }, 0⟩) (t := 2 ^ 32)
    rfl rfl
  -- the flag is zero at every poll
  have hidle (t : Nat) := resetStep_poll_zero
    (b := ⟨{ Httpd.boot erased with st := .passSent }, 0⟩) rfl t
  have hzero : s.sysresetReq = 0 := hreq.trans (by decide)
  have hrun : run resetStep ⟨.boot erased, 0⟩ acts =
      ⟨[.accepted (2 ^ 32)], some ⟨s, 0⟩⟩ := by
    rw [run_cons, resetStep_loginErased, Traced.mk_bind, run_cons, hidle,
      pure_bind, run_cons, hidle, pure_bind, run_cons, hsubmit]
    rfl
  refine ⟨⟨by decide, by decide, by decide, by decide, by decide, by decide,
    by decide, by decide, trivial⟩, fun hrule => ?_⟩
  have hreset := (hrule _ ⟨s, 0⟩ (2 ^ 32 + 501) ⟨acts, [], rfl, hrun⟩).mpr
    ⟨2 ^ 32, rfl, by decide⟩
  rw [resetStep_poll_zero hzero] at hreset
  cases hreset

end Roip
