/-
Roip/Login.lean

What a login accepts.

The scanners of `http_recv` step before they look and test the end late, so
they may run past the end of the payload.  A login is nevertheless accepted
for exactly the payloads that carry the stored password (`login_exact`): if a
scanner leaves the payload, the value it delimits is empty.
-/
import Roip.Requests

namespace Roip

variable {s t : Httpd} {x : HttpCall}

/-! ### Accepted logins -/

/-- A login with the stored password. -/
def HttpCall.Accepted (x : HttpCall) (s : Httpd) : Prop :=
  x.request = some .passSent ∧ x.passwordOk s = true

/-- A login with another password. -/
def HttpCall.Rejected (x : HttpCall) (s : Httpd) : Prop :=
  x.request = some .passSent ∧ x.passwordOk s = false

/-- `st` is set to `PASS_SENT` by accepted logins only. -/
theorem HttpCall.accepted_iff :
    x.Accepted s ↔ .setState .passSent ∈ (httpStep s x).out := by
  rw [← mem_effects rfl]
  constructor
  · intro h
    rw [effects_httpStep, h.1, Option.elim_some, answer_passSent, if_pos h.2]
    exact List.mem_singleton_self _
  · intro h
    rcases httpStep_cases s x with ⟨-, ho, -⟩ | ⟨r, o, u, hr, ha, ho, -⟩
    · rw [ho] at h
      cases h
    · rw [ho] at h
      cases ha with
      | loggedIn hok => exact ⟨hr, hok⟩
      | root | changePassForm | overflow => cases h
      | loginFailed | refused | stored | changed | unsuccessful =>
        simp at h

/-- The state after a login tells whether it has been accepted. -/
theorem login_state (s : Httpd) (h : x.request = some .passSent) :
    ∃ t, (httpStep s x).res = some t ∧
      (t.st = .passSent ↔ x.passwordOk s = true) := by
  rw [httpStep_of_request h, answer_passSent]
  split
  · next hok => exact ⟨_, rfl, iff_of_true rfl hok⟩
  · next hok => exact ⟨_, rfl, iff_of_false HttpState.noConfusion hok⟩

/-! ### The value submitted -/

/-- What a payload submits as password: what stands behind the first `=` from
index 19 on, up to the next space or the end. -/
def loginValue (payload : List UInt8) : Option (List UInt8) :=
  match (payload.drop 19).dropWhile (· ≠ 61) with
  | [] => none
  | _ :: v => some (v.takeWhile (· ≠ 32))

theorem loginValue_of_not_mem {payload : List UInt8}
    (h : 61 ∉ payload.drop 19) : loginValue payload = none := by
  have hdrop : (payload.drop 19).dropWhile (· ≠ 61) = [] := by
    rw [List.dropWhile_eq_nil_iff]
    intro c hc
    exact decide_eq_true fun h61 => h (h61 ▸ hc)
  rw [loginValue, hdrop]

theorem length_of_loginValue {payload v : List UInt8}
    (h : loginValue payload = some v) : 18 < payload.length := by
  by_contra hlen
  rw [loginValue, List.drop_of_length_le (by omega)] at h
  cases h

theorem loginValue_of_split {payload xs v : List UInt8}
    (h : payload.drop 19 = xs ++ 61 :: v) (hxs : 61 ∉ xs) :
    loginValue payload = some (v.takeWhile (· ≠ 32)) := by
  have hdrop : (payload.drop 19).dropWhile (· ≠ 61) = 61 :: v := by
    have hpos : ∀ c ∈ xs, decide (c ≠ 61) = true := by
      intro c hc
      exact decide_eq_true fun h61 => hxs (h61 ▸ hc)
    rw [h, List.dropWhile_append_of_pos hpos,
      List.dropWhile_cons_of_neg (by simp)]
  rw [loginValue, hdrop]

/-- The comparison with a stored password. -/
theorem passwordOk_iff {rq pass rest : List UInt8} {n : Nat} (h0 : 0 ∉ pass) :
    passwordOk rq n (pass ++ 0 :: rest) = true ↔
      pass <+: rq.drop (findEquals rq n 18 + 1) ∧
        findSpace rq n (findEquals rq n 18) - (findEquals rq n 18 + 1) =
          pass.length := by
  have hlen : strlen0 (pass ++ 0 :: rest) = pass.length := by
    rw [strlen0, cstr_append_zero h0]
  rw [passwordOk]
  simp only [hlen]
  rw [Bool.and_eq_true, strncmpEq0_iff h0, beq_iff_eq]

/-- The value the scanners delimit is the one submitted. -/
theorem passwordOk_payload {payload behind pass rest : List UInt8}
    (h0 : 0 ∉ pass) (hne : pass ≠ []) :
    passwordOk (payload ++ behind) payload.length (pass ++ 0 :: rest) = true ↔
      loginValue payload = some pass := by
  rw [passwordOk_iff h0, findSpace, findEquals, find_payload, find_payload,
    Nat.add_sub_cancel_left]
  show pass <+: (payload ++ behind).drop (19 + _ + 1) ∧
    ((payload.drop (19 + _ + 1)).takeWhile _).length = _ ↔ _
  by_cases h61 : 61 ∈ payload.drop 19
  · obtain ⟨xs, v, hsplit, hxs⟩ := List.eq_append_cons_of_mem h61
    have hv : payload.drop (19 + xs.length + 1) = v := by
      rw [Nat.add_assoc, ← List.drop_drop, hsplit, ← List.drop_drop,
        List.drop_left]
      rfl
    have hle : 19 + xs.length + 1 ≤ payload.length := by
      have hlen := congrArg List.length hsplit
      rw [List.length_drop, List.length_append, List.length_cons] at hlen
      omega
    rw [loginValue_of_split hsplit hxs, takeWhile_ne_of_split hsplit hxs,
      List.drop_append_of_le_length hle, hv, Option.some.injEq]
    -- only the length can tell a longer value that begins with the password
    have hw : v.takeWhile (· ≠ 32) <+: v ++ behind :=
      (List.takeWhile_prefix _).trans (List.prefix_append v behind)
    constructor
    · rintro ⟨hpre, hlen⟩
      exact (List.prefix_of_prefix_length_le hw hpre
        (Nat.le_of_eq hlen)).eq_of_length hlen
    · rintro rfl
      exact ⟨hw, rfl⟩
  · -- without an `=` both scanners have left the payload
    rw [takeWhile_ne_of_not_mem h61, loginValue_of_not_mem h61]
    have hnil : payload.drop (19 + (payload.drop 19).length + 1) = [] := by
      rw [List.length_drop]
      exact List.drop_of_length_le (by omega)
    rw [hnil]
    constructor
    · rintro ⟨-, hlen⟩
      exact absurd (List.length_eq_zero_iff.mp hlen.symm) hne
    · rintro ⟨⟩

/-- The check of a login, the stored password being `pass`. -/
theorem HttpCall.passwordOk_iff {payload pass rest : List UInt8}
    (hp : x.p = some payload) (hne : pass ≠ []) (h0 : 0 ∉ pass)
    (hpass : s.flash.password ++ x.env.behindBuff = pass ++ 0 :: rest) :
    x.passwordOk s = true ↔ loginValue payload = some pass := by
  rw [HttpCall.passwordOk, HttpCall.rq, HttpCall.payload, hp, hpass]
  exact passwordOk_payload h0 hne

/-- **A login is exact.**  Whatever lies behind the payload, `st` is set to
`PASS_SENT` if and only if the payload is a login that carries the stored
password. -/
theorem login_exact {s : Httpd} {x : HttpCall} {payload pass rest : List UInt8}
    (hp : x.p = some payload) (hne : pass ≠ []) (h0 : 0 ∉ pass)
    (hpass : s.flash.password ++ x.env.behindBuff = pass ++ 0 :: rest) :
    .setState .passSent ∈ (httpStep s x).out ↔
      bytesOf "GET /pass_sent.cgi" <+: payload ∧
        loginValue payload = some pass := by
  have hrq : x.request = requestOf (payload ++ x.env.behind) := by
    rw [HttpCall.request, hp, Option.bind_some]
  rw [← HttpCall.accepted_iff, HttpCall.Accepted, hrq, requestOf_eq_some_iff,
    HttpCall.passwordOk_iff hp hne h0 hpass]
  show bytesOf "GET /pass_sent.cgi" <+: _ ∧ _ ↔ _
  refine and_congr_left fun hv => ?_
  constructor
  · intro hline
    exact List.prefix_of_prefix_length_le hline (List.prefix_append _ _)
      (Nat.le_of_lt (length_of_loginValue hv))
  · intro hline
    exact hline.trans (List.prefix_append _ _)

/-- The password `pw` opens the device. -/
theorem login_exact_pw :
    .setState .passSent ∈ (httpStep (.boot flashWithPassword)
      (.ofString 1 "GET /pass_sent.cgi?password=pw HTTP/1.0")).out := by
  have hpass : flashWithPassword.password ++ [] =
      bytesOf "pw" ++ 0 :: List.replicate 227 0xFF := by
    decide +kernel
  exact (login_exact rfl (by decide) (by decide) hpass).mpr
    ⟨by decide, by decide⟩

end Roip
