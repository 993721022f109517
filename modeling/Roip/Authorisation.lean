/-
Roip/Authorisation.lean

Who may write the flash.

A login that is accepted sets the state to `PASS_SENT`, and this is the only
way to come to that state.  Every request that needs it either uses it up or
leaves the flash alone.  So a login is good for one write of the flash
(`single_use_authorisation`).

The state is one variable for all connections, and `http_recv` does not look
at the address of a client: a login of one client authorises the next request,
whoever sends it.
-/
import Roip.Lib.Grant
import Roip.Login

namespace Roip

variable {s t : Httpd} {x : HttpCall}

/-! ### What ends an authorisation -/

/-- What ends an authorisation: a rejected login, and the requests that use
it up. -/
def HttpCall.Revokes (x : HttpCall) (s : Httpd) : Prop :=
  x.Rejected s ∨ x.request = some .ipSet ∨ x.request = some .passSet

/-- What revokes is a request of one of the three kinds. -/
theorem HttpCall.Revokes.kind {r : Request} (h : x.Revokes s)
    (hr : x.request = some r) :
    (r = .passSent ∧ x.passwordOk s = false) ∨ r = .ipSet ∨ r = .passSet := by
  rcases h with ⟨hp, hno⟩ | hi | hp
  · exact Or.inl ⟨Option.some.inj (hr.symm.trans hp), hno⟩
  · exact Or.inr (Or.inl (Option.some.inj (hr.symm.trans hi)))
  · exact Or.inr (Or.inr (Option.some.inj (hr.symm.trans hp)))

theorem HttpCall.Revokes.request_ne (h : x.Revokes s) : x.request ≠ none := by
  rcases h with ⟨h, -⟩ | h | h <;> (rw [h]; exact Option.some_ne_none _)

/-- Accepted logins give the authorisation and nothing else does. -/
theorem httpStep_granting :
    Granting httpStep (fun s => s.st = .passSent) (fun s x => x.Accepted s)
      (fun s x => x.Revokes s) where
  granted := by
    intro s x o t hx ht
    rcases httpStep_cases s x with ⟨-, -, hres⟩ | ⟨r, o', u, hr, ha, -, hres⟩
    · rw [hx] at hres
      cases hres
      exact Or.inr ht
    · rw [hx] at hres
      cases ha with
      | loggedIn hok => exact Or.inl ⟨hr, hok⟩
      | root | changePassForm =>
        cases hres
        exact Or.inr ht
      | overflow => cases hres
      -- after all these `st` is not `PASS_SENT`
      | loginFailed | refused | stored | changed | unsuccessful =>
        cases hres
        cases ht
  revoked := by
    intro s x o t hx hrev ht
    rcases httpStep_cases s x with ⟨hr, -, -⟩ | ⟨r, o', u, hr, ha, -, hres⟩
    · exact hrev.request_ne hr
    · have hkind := hrev.kind hr
      rw [hx] at hres
      cases ha with
      | loggedIn hok =>
        rcases hkind with ⟨-, hno⟩ | h | h
        · rw [hok] at hno
          cases hno
        · cases h
        · cases h
      | root | changePassForm => simp at hkind
      | overflow => cases hres
      | loginFailed | refused | stored | changed | unsuccessful =>
        cases hres
        cases ht

/-- A write of the flash, and the authorisation afterwards, are paid for by an
accepted login or by the authorisation before. -/
theorem httpStep_count (s : Httpd) (x : HttpCall) :
    (httpStep s x).out.count .writeFlash +
        ((httpStep s x).res.elim 0 fun t => if t.st = .passSent then 1 else 0) ≤
      (httpStep s x).out.count (.setState .passSent) +
        if s.st = .passSent then 1 else 0 := by
  rw [← count_effects _ (a := .writeFlash) rfl,
    ← count_effects _ (a := .setState .passSent) rfl]
  rcases httpStep_cases s x with ⟨-, ho, hres⟩ | ⟨r, o, u, -, ha, ho, hres⟩
  · rw [ho, hres]
    show 0 + _ ≤ 0 + _
    exact Nat.le_refl _
  · rw [ho, hres]
    cases ha with
    | loggedIn | loginFailed | refused | unsuccessful | root => simp
    -- these ways need the authorisation
    | stored h | changePassForm h | overflow h | changed h => simp [h]

/-- A call writes the flash at most once. -/
theorem writeFlash_count_le_one (s : Httpd) (x : HttpCall) :
    (httpStep s x).out.count .writeFlash ≤ 1 := by
  rw [← count_effects _ rfl]
  rcases httpStep_cases s x with ⟨-, ho, -⟩ | ⟨r, o, u, -, ha, ho, -⟩
  · rw [ho]
    exact Nat.zero_le 1
  · rw [ho]
    cases ha <;> simp

/-- Whether a call changes the configuration of the device: it rewrites the
flash or schedules a reset. -/
def Configures (s : Httpd) (x : HttpCall) : Prop :=
  .writeFlash ∈ (httpStep s x).out ∨ ∃ now, .sysresetReq now ∈ (httpStep s x).out

/-- Only an authorised `ip_set` or `pass_set` does so. -/
theorem Configures.authorised (h : Configures s x) :
    s.st = .passSent ∧ (x.request = some .ipSet ∨ x.request = some .passSet) := by
  have heff : ∃ a ∈ effects (httpStep s x).out,
      a = .writeFlash ∨ ∃ now, a = .sysresetReq now := by
    rcases h with h | ⟨now, h⟩
    · exact ⟨_, (mem_effects rfl).mpr h, Or.inl rfl⟩
    · exact ⟨_, (mem_effects rfl).mpr h, Or.inr ⟨now, rfl⟩⟩
  obtain ⟨a, hmem, ha⟩ := heff
  rcases httpStep_cases s x with ⟨-, ho, -⟩ | ⟨r, o, u, hr, hans, ho, -⟩
  · rw [ho] at hmem
    cases hmem
  · rw [ho] at hmem
    cases hans with
    | stored h _ => exact ⟨h, Or.inl hr⟩
    | changed h _ _ _ => exact ⟨h, Or.inr hr⟩
    | root | changePassForm | overflow => cases hmem
    | loggedIn | loginFailed | refused | unsuccessful =>
      rcases ha with rfl | ⟨now, rfl⟩ <;> simp at hmem

/-! ### Single use -/

/-- **Single-use authorisation.**  The flash is written at most as often as a
login has been accepted.  Each write comes after an accepted login, and
between the two there is no other write, no rejected login and no `ip_set` or
`pass_set` request. -/
theorem single_use_authorisation {s : Httpd} (hs : s.st = .disconnected)
    (xs : List HttpCall) :
    (∀ pre, pre <+: xs →
      (run httpStep s pre).out.count .writeFlash ≤
        (run httpStep s pre).out.count (.setState .passSent)) ∧
    ∀ pre x post o t, xs = pre ++ x :: post →
      run httpStep s pre = ⟨o, some t⟩ → .writeFlash ∈ (httpStep t x).out →
      (httpStep t x).out.count .writeFlash = 1 ∧
      ∃ a y b oa ta, pre = a ++ y :: b ∧ run httpStep s a = ⟨oa, some ta⟩ ∧
        y.Accepted ta ∧ .setState .passSent ∈ (httpStep ta y).out ∧
        ∀ b₁ z b₂ ob tb, b = b₁ ++ z :: b₂ →
          run httpStep s (a ++ y :: b₁) = ⟨ob, some tb⟩ →
          .writeFlash ∉ (httpStep tb z).out ∧ ¬ z.Rejected tb ∧
            z.request ≠ some .ipSet ∧ z.request ≠ some .passSet := by
  have hoff : ¬ s.st = .passSent := by
    rw [hs]
    exact HttpState.noConfusion
  constructor
  · intro pre _
    have h := count_run_le httpStep_count s pre
    rw [if_neg hoff] at h
    exact h
  · intro pre x post o t _ hpre hw
    have hauth := (show Configures t x from Or.inl hw).authorised
    refine ⟨Nat.le_antisymm (writeFlash_count_le_one t x)
      (List.count_pos_iff.mpr hw), ?_⟩
    -- the last login before the write, since which nothing has revoked it
    obtain ⟨a, y, b, oa, ta, hsplit, ha, hacc, hsince⟩ :=
      grantedSince httpStep_granting hoff hpre hauth.1
    refine ⟨a, y, b, oa, ta, hsplit, ha, hacc,
      HttpCall.accepted_iff.mp hacc, ?_⟩
    intro b₁ z b₂ ob tb hb hrun
    have hno : ¬ z.Revokes tb := hsince b₁ z b₂ ob tb hb hrun
    refine ⟨?_, fun h => hno (Or.inl h), fun h => hno (Or.inr (Or.inl h)),
      fun h => hno (Or.inr (Or.inr h))⟩
    intro hz
    exact hno (Or.inr (show Configures tb z from Or.inl hz).authorised.2)

/-- A login and two configurations. -/
def twoSubmissions : List HttpCall := [
  .ofString 1 "GET /pass_sent.cgi?password=pw HTTP/1.0",
  .ofString 1 "GET /ip_set.cgi?ip_local1=10 HTTP/1.0",
  .ofString 1 "GET /ip_set.cgi?ip_local1=11 HTTP/1.0"]

theorem single_use_authorisation_twoSubmissions :
    (run httpStep (.boot flashWithPassword) twoSubmissions).out.count
          .writeFlash ≤
        (run httpStep (.boot flashWithPassword) twoSubmissions).out.count
          (.setState .passSent) ∧
      ∃ pre x post o t, twoSubmissions = pre ++ x :: post ∧
        run httpStep (.boot flashWithPassword) pre = ⟨o, some t⟩ ∧
        (httpStep t x).out.count .writeFlash = 1 ∧
        ∃ a y b oa ta, pre = a ++ y :: b ∧
          run httpStep (.boot flashWithPassword) a = ⟨oa, some ta⟩ ∧
          y.Accepted ta ∧ .setState .passSent ∈ (httpStep ta y).out := by
  obtain ⟨hcount, hwrite⟩ := single_use_authorisation
    (s := .boot flashWithPassword) rfl twoSubmissions
  refine ⟨hcount _ (List.prefix_refl _), ?_⟩
  -- the second call writes
  have hend : (run httpStep (.boot flashWithPassword)
      (twoSubmissions.take 1)).res.map (fun t => decide (.writeFlash ∈
        (httpStep t (.ofString 1
          "GET /ip_set.cgi?ip_local1=10 HTTP/1.0")).out)) = some true := by
    decide +kernel
  obtain ⟨t, hres, hw⟩ := Option.map_eq_some_iff.mp hend
  have hpre := Traced.eq_mk_of_res hres
  obtain ⟨hone, a, y, b, oa, ta, hsplit, ha, hacc, hset, -⟩ :=
    hwrite _ _ _ _ t rfl hpre (of_decide_eq_true hw)
  exact ⟨_, _, _, _, t, rfl, hpre, hone, a, y, b, oa, ta, hsplit, ha, hacc,
    hset⟩

example : (run httpStep (.boot flashWithPassword) twoSubmissions).out.count
    .writeFlash = 1 := by decide +kernel

/-! ### Clients -/

/-- A right for each client: what changes the configuration comes from a
client that has itself logged in, and since then has neither been rejected nor
used the login up. -/
def PerClient (s : Httpd) (xs : List HttpCall) : Prop :=
  ∀ pre x post o t, xs = pre ++ x :: post →
    run httpStep s pre = ⟨o, some t⟩ → Configures t x →
    ∃ a y b oa ta, pre = a ++ y :: b ∧ run httpStep s a = ⟨oa, some ta⟩ ∧
      y.Accepted ta ∧ y.pcb.remoteIp = x.pcb.remoteIp ∧
      ∀ b₁ z b₂ ob tb, b = b₁ ++ z :: b₂ →
        run httpStep s (a ++ y :: b₁) = ⟨ob, some tb⟩ →
        z.pcb.remoteIp = x.pcb.remoteIp → ¬ z.Revokes tb

/-- The login of one client, and a configuration of another. -/
def loginOfAnother : HttpCall :=
  .ofString 1 "GET /pass_sent.cgi?password=pw HTTP/1.0"

def configurationOfAnother : HttpCall :=
  .ofString 2 "GET /ip_set.cgi?ip_local1=10 HTTP/1.0"

/-- The login of the client 1 lets the client 2 write the flash. -/
theorem configurationOfAnother_writes :
    ∃ o t, run httpStep (.boot flashWithPassword) [loginOfAnother] =
      ⟨o, some t⟩ ∧ .writeFlash ∈ (httpStep t configurationOfAnother).out := by
  have hrun : (run httpStep (.boot flashWithPassword) [loginOfAnother]).res.any
      (fun t => .writeFlash ∈ (httpStep t configurationOfAnother).out) =
      true := by
    decide +kernel
  obtain ⟨t, ht, hw⟩ := (Option.any_eq_true _ _).mp hrun
  exact ⟨_, t, Traced.eq_mk_of_res ht, of_decide_eq_true hw⟩

/-- The right is not one for each client. -/
theorem not_perClient :
    ¬ ∀ s xs, s.st = .disconnected → PerClient s xs := by
  intro h
  obtain ⟨o, t, hr, hw⟩ := configurationOfAnother_writes
  obtain ⟨a, y, b, -, -, hsplit, -, -, hip, -⟩ :=
    h (.boot flashWithPassword) [loginOfAnother, configurationOfAnother] rfl
      [loginOfAnother] configurationOfAnother [] o t rfl hr (Or.inl hw)
  have hy : y ∈ [loginOfAnother] := by
    rw [hsplit]
    exact List.mem_append_right a List.mem_cons_self
  rw [List.mem_singleton.mp hy] at hip
  exact absurd hip (by decide)

/-- The connection of a request does not change what it does. -/
theorem httpStep_pcb (s : Httpd) (x : HttpCall) (pcb : TcpPcb) :
    (httpStep s { x with pcb }).res = (httpStep s x).res ∧
      effects (httpStep s { x with pcb }).out = effects (httpStep s x).out := by
  refine ⟨?_, by rw [effects_httpStep, effects_httpStep]; rfl⟩
  rcases h : x.request with - | r
  · have h' : HttpCall.request { x with pcb } = none := h
    rw [(httpStep_of_none h).1, (httpStep_of_none h').1]
  · have h' : HttpCall.request { x with pcb } = some r := h
    rw [httpStep_of_request h, httpStep_of_request h']
    rfl

/-- **One authorisation for all clients.**  What changes the configuration
comes after an accepted login of some client, and between the two no client
has been rejected or has used the login up.  From any other connection the
same request changes the configuration just as well. -/
theorem shared_authorisation {s : Httpd} (hs : s.st = .disconnected)
    {pre : List HttpCall} {x : HttpCall} {o : List HttpAct} {t : Httpd}
    (hr : run httpStep s pre = ⟨o, some t⟩) (hx : Configures t x) :
    (∃ a y b oa ta, pre = a ++ y :: b ∧ run httpStep s a = ⟨oa, some ta⟩ ∧
      y.Accepted ta ∧
      ∀ b₁ z b₂ ob tb, b = b₁ ++ z :: b₂ →
        run httpStep s (a ++ y :: b₁) = ⟨ob, some tb⟩ → ¬ z.Revokes tb) ∧
    ∀ pcb, Configures t { x with pcb } ∧
      (httpStep t { x with pcb }).res = (httpStep t x).res := by
  have hoff : ¬ s.st = .passSent := by
    rw [hs]
    exact HttpState.noConfusion
  refine ⟨grantedSince httpStep_granting hoff hr hx.authorised.1, ?_⟩
  intro pcb
  obtain ⟨hres, heff⟩ := httpStep_pcb t x pcb
  refine ⟨?_, hres⟩
  rcases hx with hx | ⟨now, hx⟩
  · refine Or.inl ?_
    rw [← mem_effects rfl, heff, mem_effects rfl]
    exact hx
  · refine Or.inr ⟨now, ?_⟩
    rw [← mem_effects rfl, heff, mem_effects rfl]
    exact hx

/-- After the login of the client 1, any client may write the flash. -/
theorem shared_authorisation_loginOfAnother :
    ∃ t, ∀ pcb, Configures t { configurationOfAnother with pcb } := by
  obtain ⟨o, t, hr, hw⟩ := configurationOfAnother_writes
  have h := shared_authorisation (s := .boot flashWithPassword) rfl hr
    (Or.inl hw)
  exact ⟨t, fun pcb => (h.2 pcb).1⟩

end Roip
