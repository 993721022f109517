/-
Roip/Connection.lean

Facts about runs of the connection manager that its timing results share.

A run is given by its calls with the real times at which they read the counter
(`Chronological`).  `lastHeard` and `lastCall` are the times of the last
control packet and of the last `spudp_control_send`.  The sends of audio and
of text change neither the state nor the timers (`Frame`), and the state is
always one of four values (`ValidSt`).
-/
import Roip.Manager

namespace Roip

variable {β : Type}

/-! ### Time -/

/-- A call begins at or after `now` and reads the counter in order. -/
def SpudpOp.InOrder (now : Nat) : SpudpOp → Prop
  | .input _ t => now ≤ t
  | .controlSend t₁ t₂ t₃ _ => now ≤ t₁ ∧ t₁ ≤ t₂ ∧ t₂ ≤ t₃
  | _ => True

/-- The time after a call. -/
def SpudpOp.tick (now : Nat) : SpudpOp → Nat
  | .input _ t => t
  | .controlSend _ _ t₃ _ => t₃
  | _ => now

/-- The calls take place one after the other, from time `now` on. -/
def Chronological : Nat → List SpudpOp → Prop
  | _, [] => True
  | now, op :: ops => op.InOrder now ∧ Chronological (op.tick now) ops

/-- The time after some calls. -/
def endTime (now : Nat) (ops : List SpudpOp) : Nat :=
  ops.foldl SpudpOp.tick now

theorem chronological_append {now : Nat} {ops ops' : List SpudpOp} :
    Chronological now (ops ++ ops') ↔
      Chronological now ops ∧ Chronological (endTime now ops) ops' := by
  induction ops generalizing now with
  | nil => simp [Chronological, endTime]
  | cons op ops ih =>
    simp [Chronological, ih, endTime, and_assoc]

theorem SpudpOp.le_tick {now : Nat} {op : SpudpOp} (h : op.InOrder now) :
    now ≤ op.tick now := by
  cases op with
  | input => exact h
  | controlSend => exact Nat.le_trans h.1 (Nat.le_trans h.2.1 h.2.2)
  | stringSend | send => exact Nat.le_refl _

/-- Time does not run backwards. -/
theorem le_endTime {now : Nat} {ops : List SpudpOp}
    (h : Chronological now ops) : now ≤ endTime now ops := by
  induction ops generalizing now with
  | nil => exact Nat.le_refl _
  | cons op ops ih => exact Nat.le_trans (SpudpOp.le_tick h.1) (ih h.2)

/-- The time of the last control packet, `t` if there is none. -/
def lastHeard (t : Nat) (ops : List SpudpOp) : Nat :=
  ops.foldl (fun t op => match op with
    | .input _ t' => t'
    | _ => t) t

/-- The beginning of the last `spudp_control_send`, `t` if there is none. -/
def lastCall (t : Nat) (ops : List SpudpOp) : Nat :=
  ops.foldl (fun t op => match op with
    | .controlSend t₁ _ _ _ => t₁
    | _ => t) t

theorem lastHeard_le_endTime {t now : Nat} {ops : List SpudpOp}
    (ht : t ≤ now) (h : Chronological now ops) :
    lastHeard t ops ≤ endTime now ops := by
  induction ops generalizing t now with
  | nil => exact ht
  | cons op ops ih =>
    have hle := SpudpOp.le_tick h.1
    cases op with
    | input => exact ih (Nat.le_refl _) h.2
    | controlSend => exact ih (Nat.le_trans ht hle) h.2
    | stringSend | send => exact ih ht h.2

theorem lastCall_le_endTime {t now : Nat} {ops : List SpudpOp}
    (ht : t ≤ now) (h : Chronological now ops) :
    lastCall t ops ≤ endTime now ops := by
  induction ops generalizing t now with
  | nil => exact ht
  | cons op ops ih =>
    have hle := SpudpOp.le_tick h.1
    cases op with
    | controlSend => exact ih (Nat.le_trans h.1.2.1 h.1.2.2) h.2
    | input => exact ih (Nat.le_trans ht hle) h.2
    | stringSend | send => exact ih ht h.2

/-- Each call of `spudp_control_send` ends less than `d` ms after the previous
one (or the time `l`) began, and takes less than half of that itself. -/
def Paced (d : Nat) : Nat → List SpudpOp → Prop
  | _, [] => True
  | l, .controlSend t₁ _ t₃ _ :: ops =>
    t₃ < l + d ∧ t₃ < t₁ + d / 2 ∧ Paced d t₁ ops
  | l, _ :: ops => Paced d l ops

theorem paced_append {d l : Nat} {ops ops' : List SpudpOp} :
    Paced d l (ops ++ ops') ↔ Paced d l ops ∧ Paced d (lastCall l ops) ops' := by
  induction ops generalizing l with
  | nil => simp [Paced, lastCall]
  | cons op ops ih => cases op <;> simp [Paced, ih, lastCall, and_assoc]

theorem lastHeard_concat (t : Nat) (ops : List SpudpOp) (op : SpudpOp) :
    lastHeard t (ops ++ [op]) = match op with
      | .input _ t' => t'
      | _ => lastHeard t ops := by
  simp [lastHeard]

theorem lastCall_concat (t : Nat) (ops : List SpudpOp) (op : SpudpOp) :
    lastCall t (ops ++ [op]) = match op with
      | .controlSend t₁ _ _ _ => t₁
      | _ => lastCall t ops := by
  simp [lastCall]

theorem endTime_concat (t : Nat) (ops : List SpudpOp) (op : SpudpOp) :
    endTime t (ops ++ [op]) = op.tick (endTime t ops) := by
  simp [endTime]

/-! ### What the other sends leave alone -/

/-- The state and the timers are the same, and so is whether control packets
are received. -/
structure Frame (s s' : Spudp β) : Prop where
  st : s'.dt.st = s.dt.st
  server1 : s'.dt.server1 = s.dt.server1
  server2 : s'.dt.server2 = s.dt.server2
  sent : s'.tmCtlpacketSent = s.tmCtlpacketSent
  received : s'.tmCtlpacketReceived = s.tmCtlpacketReceived
  receives : s'.receives = s.receives

theorem Frame.refl (s : Spudp β) : Frame s s := ⟨rfl, rfl, rfl, rfl, rfl, rfl⟩

theorem Frame.isConnected {s s' : Spudp β} (h : Frame s s') :
    s'.dt.isConnected = s.dt.isConnected := by
  rw [SpudpData.isConnected, SpudpData.isConnected, h.st]

theorem Frame.serverAddr {s s' : Spudp β} (h : Frame s s') :
    s'.dt.serverAddr = s.dt.serverAddr := by
  rw [SpudpData.serverAddr, SpudpData.serverAddr, h.st, h.server1, h.server2]

theorem spudpStringSend_frame {s s' : Spudp β} {buf : List UInt8}
    {len n : Nat} {e : SendEnv} {o : List NetOp}
    (h : spudpStringSend s buf len e = ⟨o, some (n, s')⟩) : Frame s s' := by
  rcases spudpStringSend_cases h with
    ⟨-, -, -, rfl⟩ | ⟨ip, p, -, hp, rfl, -⟩
  · exact .refl s'
  · refine ⟨rfl, rfl, rfl, rfl, rfl, ?_⟩
    rw [Spudp.receives, Spudp.receives, hp]
    rfl

theorem spudpSend_frame {speex : Speex β} {s s' : Spudp β}
    {id gid id2 : List UInt8} {samples : List Int16} {len n : Nat}
    {e : AudioEnv} {o : List NetOp}
    (h : spudpSend speex s id gid id2 samples len e = ⟨o, some (n, s')⟩) :
    Frame s s' := by
  rcases spudpSend_cases speex s id gid id2 samples len e with
    ⟨-, hres⟩ | ⟨p, q, bits, enc, count, -, heq, -⟩
  · obtain ⟨-, bits, rfl⟩ := hres n s' (by rw [h])
    exact ⟨rfl, rfl, rfl, rfl, rfl, rfl⟩
  · rw [h] at heq
    rcases sendAudio_cases { s with encBits := bits } q enc count len
      e.toSendEnv with hs | ⟨-, hs⟩ | ⟨-, hs⟩ <;> cases heq.trans hs <;>
      exact ⟨rfl, rfl, rfl, rfl, rfl, rfl⟩

/-! ### The state -/

/-- The values `dt.st` takes. -/
def ValidSt (st : UInt8) : Prop :=
  st = 1 ∨ st = 2 ∨ st = 0x81 ∨ st = 0x82

/-- The two servers; one of them is selected. -/
theorem ValidSt.serverAddr {dt : SpudpData} (h : ValidSt dt.st) :
    dt.serverAddr = some dt.server1 ∨ dt.serverAddr = some dt.server2 := by
  rcases h with h | h | h | h <;> rw [SpudpData.serverAddr, h]
  · exact Or.inl rfl
  · exact Or.inr rfl
  · exact Or.inl rfl
  · exact Or.inr rfl

/-- **The transition of the periodic check.**  A connected server that has
been heard lately is kept.  Otherwise the other server is selected, and
`SPUDP_CONNECTED` is clear. -/
theorem controlTransition_cases {s : Spudp β} (h : ValidSt s.dt.st)
    (now : UInt32) :
    (s.dt.isConnected = true ∧ ¬ 10000 < now - s.tmCtlpacketReceived ∧
      (controlTransition s now).dt = s.dt) ∨
    ((s.dt.isConnected = true → 10000 < now - s.tmCtlpacketReceived) ∧
      (controlTransition s now).dt.isConnected = false ∧
      ValidSt (controlTransition s now).dt.st ∧
      (controlTransition s now).dt.server1 = s.dt.server1 ∧
      (controlTransition s now).dt.server2 = s.dt.server2 ∧
      ((s.dt.serverAddr = some s.dt.server1 ∧
          (controlTransition s now).dt.serverAddr = some s.dt.server2) ∨
        (s.dt.serverAddr = some s.dt.server2 ∧
          (controlTransition s now).dt.serverAddr = some s.dt.server1))) := by
  rcases hc : s.dt.isConnected with _ | _
  · -- disconnected: the servers take turns
    refine Or.inr ⟨nofun, ?_⟩
    have htr : controlTransition s now =
        { s with dt := { s.dt with st := nextServer s.dt.st } } := by
      rw [controlTransition, hc]
      rfl
    rw [htr]
    rcases h with h | h | h | h <;>
      simp only [SpudpData.isConnected, SpudpData.serverAddr, h] at hc ⊢
    · exact ⟨rfl, Or.inr (Or.inl rfl), trivial, trivial, Or.inl ⟨rfl, rfl⟩⟩
    · exact ⟨rfl, Or.inl rfl, trivial, trivial, Or.inr ⟨rfl, rfl⟩⟩
    · cases hc
    · cases hc
  by_cases ht : 10000 < now - s.tmCtlpacketReceived
  · -- connected, but not heard of
    refine Or.inr ⟨fun _ => ht, ?_⟩
    have htr : controlTransition s now = { s with
        dt := { s.dt with
          st := nextServer (s.dt.st &&& ~~~spudpConnected) } } := by
      rw [controlTransition, hc, if_pos rfl, if_pos ht]
    rw [htr]
    rcases h with h | h | h | h <;>
      simp only [SpudpData.isConnected, SpudpData.serverAddr, h] at hc ⊢
    · cases hc
    · cases hc
    · exact ⟨rfl, Or.inr (Or.inl rfl), trivial, trivial, Or.inl ⟨rfl, rfl⟩⟩
    · exact ⟨rfl, Or.inl rfl, trivial, trivial, Or.inr ⟨rfl, rfl⟩⟩
  · refine Or.inl ⟨rfl, ht, ?_⟩
    rw [controlTransition, hc, if_pos rfl, if_neg ht]

/-- **A control packet.**  It refreshes the timer whoever has sent it, and a
packet of a server selects it. -/
theorem handleControlInput_cases {s s' : Spudp β} {addr now : UInt32}
    {o : List NetOp} (h : handleControlInput s addr now = ⟨o, some s'⟩) :
    s'.tmCtlpacketReceived = now ∧ s'.tmCtlpacketSent = s.tmCtlpacketSent ∧
      s'.receives = s.receives ∧ s'.dt.server1 = s.dt.server1 ∧
      s'.dt.server2 = s.dt.server2 ∧
      (((addr = s.dt.server1 ∨ addr = s.dt.server2) ∧
          s'.dt.isConnected = true ∧ ValidSt s'.dt.st ∧
          s'.dt.serverAddr = some addr) ∨
        (addr ≠ s.dt.server1 ∧ addr ≠ s.dt.server2 ∧
          s'.dt.st = s.dt.st)) := by
  unfold handleControlInput at h
  obtain ⟨_, -, hret⟩ := Traced.emit_bind_eq_mk_iff.mp h
  obtain ⟨-, rfl⟩ := Traced.pure_eq_mk_iff.mp hret
  refine ⟨rfl, rfl, rfl, rfl, rfl, ?_⟩
  by_cases h1 : addr = s.dt.server1
  · refine Or.inl ⟨Or.inl h1, ?_⟩
    simp only [h1, if_true, SpudpData.isConnected, SpudpData.serverAddr]
    exact ⟨rfl, Or.inr (Or.inr (Or.inl rfl)), rfl⟩
  by_cases h2 : addr = s.dt.server2
  · refine Or.inl ⟨Or.inr h2, ?_⟩
    have h21 : ¬ s.dt.server2 = s.dt.server1 := h2 ▸ h1
    simp only [h2, h21, if_true, if_false, SpudpData.isConnected,
      SpudpData.serverAddr]
    exact ⟨rfl, Or.inr (Or.inr (Or.inr rfl)), rfl⟩
  · exact Or.inr ⟨h1, h2, by simp only [h1, h2, if_false]⟩

/-! ### One call -/

/-- **One call, seen from the state and the timers.** -/
theorem spudpStep_cases {speex : Speex β} {s s' : Spudp β} {op : SpudpOp}
    {o : List NetOp} (h : spudpStep speex s op = ⟨o, some s'⟩) :
    Frame s s' ∧ (∀ addr t, op = .input addr t →
      s.receives = false) ∧ (∀ t₁ t₂ t₃ e,
      op = .controlSend t₁ t₂ t₃ e → ¬ s.due (clk t₁) ∧ o = []) ∨
    (∃ addr t, op = .input addr t ∧ s.receives = true ∧
      handleControlInput s addr (clk t) = ⟨o, some s'⟩) ∨
    ∃ t₁ t₂ t₃ e, op = .controlSend t₁ t₂ t₃ e ∧ s.due (clk t₁) ∧
      spudpControlSend s ⟨clk t₁, clk t₂, clk t₃⟩ e = ⟨o, some s'⟩ := by
  cases op with
  | input addr t =>
    simp only [spudpStep] at h
    rcases hrecv : s.receives with _ | _
    · rw [hrecv, if_neg (by decide)] at h
      obtain ⟨rfl, rfl⟩ := Traced.pure_eq_mk_iff.mp h
      exact Or.inl ⟨.refl _, fun _ _ _ => rfl, nofun⟩
    · rw [hrecv, if_pos rfl] at h
      exact Or.inr (Or.inl ⟨addr, t, rfl, rfl, h⟩)
  | controlSend t₁ t₂ t₃ e =>
    rcases spudpControlSend_cases h with ⟨hdue, rfl, rfl⟩ | ⟨hdue, -⟩
    · refine Or.inl ⟨.refl _, nofun, ?_⟩
      intro _ _ _ _ heq
      cases heq
      exact ⟨hdue, rfl⟩
    · exact Or.inr (Or.inr ⟨t₁, t₂, t₃, e, rfl, hdue, h⟩)
  | stringSend buf len e =>
    obtain ⟨⟨n, t⟩, hsend, rfl⟩ := Traced.map_eq_mk_iff.mp h
    exact Or.inl ⟨spudpStringSend_frame hsend, nofun, nofun⟩
  | send id gid id2 samples len e =>
    obtain ⟨⟨n, t⟩, hsend, rfl⟩ := Traced.map_eq_mk_iff.mp h
    exact Or.inl ⟨spudpSend_frame hsend, nofun, nofun⟩

/-! ### Whole runs -/

/-- What `spudp_init` leaves: the first server is selected and not connected,
and if control packets are received both timers have been set. -/
theorem spudpInit_cases {speex : Speex β} {s s₀ : Spudp β}
    {server1 server2 : Option UInt32} {e : InitEnv}
    (hs : s.pctl = none) (h : spudpInit speex s server1 server2 e = some s₀) :
    s₀.dt.st = spudpServer1 ∧ (s₀.receives = true →
      s₀.tmCtlpacketSent = e.now1 ∧ s₀.tmCtlpacketReceived = e.now2) := by
  unfold spudpInit at h
  rcases e with ⟨_ | _, _ | _, _ | _, _ | _, now1, now2⟩ <;> cases h <;>
    refine ⟨rfl, fun hrecv => ?_⟩ <;>
    first | exact ⟨rfl, rfl⟩ | cases hrecv | (rw [Spudp.receives, hs] at hrecv; cases hrecv)

/-- In the run of `ops`, `spudp_control_send` is called after `pre` in the
state `t`, and returns in the state `t'`. -/
structure CallAt (speex : Speex β) (s₀ : Spudp β) (ops pre : List SpudpOp)
    (t₁ t₂ t₃ : Nat) (e : SendEnv) (o' : List NetOp) (t t' : Spudp β) :
    Prop where
  split : ∃ post, ops = pre ++ .controlSend t₁ t₂ t₃ e :: post
  before : ∃ o, run (spudpStep speex) s₀ pre = ⟨o, some t⟩
  step : spudpStep speex t (.controlSend t₁ t₂ t₃ e) = ⟨o', some t'⟩

/-- No control packet arrives. -/
def NoInput (ops : List SpudpOp) : Prop :=
  ∀ op ∈ ops, ∀ addr t, op ≠ .input addr t

/-- Of two positions in a list, the earlier one lies before the later. -/
theorem exists_between {α : Type*} {xs pre post pre' post' : List α}
    {x x' : α} (h : xs = pre ++ x :: post) (h' : xs = pre' ++ x' :: post')
    (hlt : pre.length < pre'.length) : ∃ mid, pre' = pre ++ x :: mid := by
  have hpre : pre ++ [x] <+: xs := ⟨post, by simp [h]⟩
  obtain ⟨mid, rfl⟩ := List.prefix_of_prefix_length_le hpre
    ⟨x' :: post', h'.symm⟩
    (by simpa [Nat.succ_le_iff] using hlt)
  exact ⟨mid, by simp⟩

/-- A call and a later one, and the run between them. -/
theorem CallAt.between {speex : Speex β} {s₀ : Spudp β}
    {ops pre pre' : List SpudpOp} {t₁ t₂ t₃ t₁' t₂' t₃' : Nat}
    {e e' : SendEnv} {o₁ o₂ : List NetOp} {t u t' u' : Spudp β}
    (h : CallAt speex s₀ ops pre t₁ t₂ t₃ e o₁ t u)
    (h' : CallAt speex s₀ ops pre' t₁' t₂' t₃' e' o₂ t' u')
    (hlt : pre.length < pre'.length) :
    ∃ mid post o, pre' = pre ++ .controlSend t₁ t₂ t₃ e :: mid ∧
      ops = pre ++ .controlSend t₁ t₂ t₃ e ::
        (mid ++ .controlSend t₁' t₂' t₃' e' :: post) ∧
      run (spudpStep speex) u mid = ⟨o, some t'⟩ := by
  obtain ⟨post, hops⟩ := h.split
  obtain ⟨post', hops'⟩ := h'.split
  obtain ⟨mid, rfl⟩ := exists_between hops hops' hlt
  obtain ⟨o, hrun⟩ := h.before
  obtain ⟨o', hrun'⟩ := h'.before
  refine ⟨mid, post', ?_⟩
  rw [run_append, hrun, Traced.mk_bind, run_cons, h.step, Traced.mk_bind]
    at hrun'
  exact ⟨_, rfl, by simp [hops'],
    Traced.eq_mk_of_res (congrArg Traced.res hrun')⟩

/-- Among the calls `ops` made from the state `s` there is a first due one, at
a time from `now` to `last`; it returns. -/
def FirstDue (speex : Speex β) (s : Spudp β) (now last : Nat)
    (ops : List SpudpOp) : Prop :=
  ∃ m₁ k₁ k₂ k₃ e m₂ o₁ o₂ v v',
    ops = m₁ ++ .controlSend k₁ k₂ k₃ e :: m₂ ∧
    run (spudpStep speex) s m₁ = ⟨o₁, some v⟩ ∧
    spudpStep speex v (.controlSend k₁ k₂ k₃ e) = ⟨o₂, some v'⟩ ∧
    v.due (clk k₁) ∧ v.tmCtlpacketSent = s.tmCtlpacketSent ∧
    now ≤ k₁ ∧ k₁ ≤ last

theorem FirstDue.cons {speex : Speex β} {s v : Spudp β} {now now' last : Nat}
    {op : SpudpOp} {ops : List SpudpOp} {o : List NetOp}
    (h : FirstDue speex v now' last ops)
    (hstep : spudpStep speex s op = ⟨o, some v⟩)
    (hsent : v.tmCtlpacketSent = s.tmCtlpacketSent) (hle : now ≤ now') :
    FirstDue speex s now last (op :: ops) := by
  obtain ⟨m₁, k₁, k₂, k₃, e, m₂, o₁, o₂, w, w', rfl, hw, hret, hdue, hsent',
    hk, hkt⟩ := h
  refine ⟨op :: m₁, k₁, k₂, k₃, e, m₂, o ++ o₁, o₂, w, w', rfl, ?_, hret,
    hdue, hsent'.trans hsent, Nat.le_trans hle hk, hkt⟩
  rw [run_cons, hstep, Traced.mk_bind, hw]

/-- Up to a due call there is a first due call; until then the time of the
last sync packet stays. -/
theorem first_due {speex : Speex β} {now : Nat} {mid post : List SpudpOp}
    {s u u' : Spudp β} {t₁ t₂ t₃ : Nat} {e : SendEnv} {o o' : List NetOp}
    (hchron : Chronological now (mid ++ .controlSend t₁ t₂ t₃ e :: post))
    (hrun : run (spudpStep speex) s mid = ⟨o, some u⟩)
    (hdue : u.due (clk t₁))
    (hret : spudpStep speex u (.controlSend t₁ t₂ t₃ e) = ⟨o', some u'⟩) :
    FirstDue speex s now t₁ (mid ++ [.controlSend t₁ t₂ t₃ e]) := by
  induction mid generalizing now s o with
  | nil =>
    obtain ⟨-, rfl⟩ := Traced.pure_eq_mk_iff.mp hrun
    exact ⟨[], t₁, t₂, t₃, e, [], [], o', s, u', rfl, rfl, hret, hdue, rfl,
      hchron.1.1, Nat.le_refl _⟩
  | cons op mid ih =>
    rw [run_cons, Traced.bind_eq_mk_iff] at hrun
    obtain ⟨v, o₂, hv, hrest, -⟩ := hrun
    replace hv := Traced.eq_mk_of_res hv
    have hle := SpudpOp.le_tick hchron.1
    rcases spudpStep_cases hv with ⟨hframe, -⟩ | ⟨addr, t, rfl, -, hin⟩ |
      ⟨k₁, k₂, k₃, e', rfl, hk, -⟩
    · exact (ih hchron.2 hrest).cons hv hframe.sent hle
    · exact (ih hchron.2 hrest).cons hv (handleControlInput_cases hin).2.1 hle
    · refine ⟨[], k₁, k₂, k₃, e', _, [], _, s, v, rfl, rfl, hv, hk, rfl,
        hchron.1.1, ?_⟩
      obtain ⟨hmid, hcall⟩ := chronological_append.mp hchron.2
      calc k₁ ≤ k₃ := Nat.le_trans hchron.1.2.1 hchron.1.2.2
        _ ≤ endTime k₃ mid := le_endTime hmid
        _ ≤ t₁ := hcall.1.1

end Roip
