/-
Roip/PasswordChange.lean

Changing the password and logging in with it.

The three values of a password change are copied out of the payload one after
the other; each is ended by a search that begins behind its first byte.  The
new password is put over the old one, whose tail stays in the flash behind the
zero.  A later login compares in place, and accepts the new password and
nothing else (`password_change_round_trip`).
-/
import Roip.Login

namespace Roip

/-! ### The values -/

/-- The search for the end of a value that is not empty. -/
theorem find_value {w b v y : List UInt8} {c : UInt8} {p : Nat}
    (hw : w.drop p = v ++ c :: y) (hne : v ≠ []) (hc : c ∉ v) :
    find (w ++ b) c w.length p = p + v.length := by
  rcases v with - | ⟨d, v⟩
  · exact absurd rfl hne
  · have htail : w.drop (p + 1) = v ++ c :: y := by
      rw [← List.drop_drop, hw]
      rfl
    rw [find_payload, takeWhile_ne_of_split htail
      fun hmem => hc (List.mem_cons_of_mem d hmem), List.length_cons]
    omega

/-- What is in the buffer after up to 15 bytes have been copied. -/
theorem copyField_cells (buf : CArray UInt8 16) (rq : List UInt8) {p q : Nat}
    (h : q - p ≤ 15) :
    ∃ a rest, copyField buf rq p q = some a ∧
      a.cells = bytesAt rq p (q - p) ++ 0 :: rest := by
  have hlen : (bytesAt rq p (q - p)).length = q - p := bytesAt_length _ _ _
  have hsize := buf.size
  have hbuf : buf.cells ≠ [] := by
    intro hnil
    rw [hnil] at hsize
    cases hsize
  obtain ⟨a₁, h₁, hc₁⟩ := CArray.set_append (i := 0) (v := (0 : UInt8))
    (List.nil_append buf.cells).symm rfl hbuf
  have hroom : (bytesAt rq p (q - p)).length < a₁.cells.length := by
    rw [a₁.size, hlen]
    omega
  obtain ⟨a₂, h₂, hc₂⟩ := CArray.memcpy_append (i := 0)
    (x := bytesAt rq p (q - p)) (List.nil_append a₁.cells).symm rfl
    (Nat.le_of_lt hroom)
  obtain ⟨a₃, h₃, hc₃⟩ := CArray.set_append (i := q - p) (v := (0 : UInt8)) hc₂
    hlen
    (fun hnil => absurd (List.drop_eq_nil_iff.mp hnil) (Nat.not_le_of_lt hroom))
  refine ⟨a₃, _, ?_, hc₃⟩
  rw [copyField]
  simp only [Option.bind_eq_bind, h₁, Option.bind_some, h₂]
  exact h₃

/-- A value of up to 15 bytes in its buffer. -/
theorem copyField_value {w b v y : List UInt8} {p : Nat}
    (buf : CArray UInt8 16) (hw : w.drop p = v ++ y) (hne : v ≠ [])
    (hlen : v.length ≤ 15) :
    ∃ a rest, copyField buf (w ++ b) p (p + v.length) = some a ∧
      a.cells = v ++ 0 :: rest := by
  have hp : p ≤ w.length := by
    by_contra hlt
    rw [List.drop_of_length_le (by omega)] at hw
    exact hne (List.append_eq_nil_iff.mp hw.symm).1
  have hdrop : (w ++ b).drop p = v ++ (y ++ b) := by
    rw [List.drop_append_of_le_length hp, hw, List.append_assoc]
  have h := copyField_cells buf (w ++ b) (p := p) (q := p + v.length)
    (by omega)
  rwa [Nat.add_sub_cancel_left, bytesAt_of_drop hdrop] at h

/-- The value that begins at `p`, ended by a search for `c`. -/
theorem copyField_find {w b v y : List UInt8} {c : UInt8} {p : Nat}
    (buf : CArray UInt8 16) (hw : w.drop p = v ++ c :: y) (hne : v ≠ [])
    (hc : c ∉ v) (hlen : v.length ≤ 15) :
    ∃ a rest, copyField buf (w ++ b) p (find (w ++ b) c w.length p) = some a ∧
      a.cells = v ++ 0 :: rest := by
  rw [find_value hw hne hc]
  exact copyField_value buf hw hne hlen

/-- The value behind the next `=`. -/
theorem drop_findEquals {w b v y : List UInt8} {p : Nat}
    (hw : w.drop p = v ++ 61 :: y) (hne : v ≠ []) (hv : 61 ∉ v) :
    w.drop (findEquals (w ++ b) w.length p + 1) = y := by
  rw [findEquals, find_value hw hne hv]
  exact drop_of_append (x := [61]) (drop_of_append hw)

/-! ### The request -/

/-- A password a browser sends as it is: 1 to 15 bytes, without `=`, `&`,
space and zero. -/
structure Plain (v : List UInt8) : Prop where
  pos : v ≠ []
  length_le : v.length ≤ 15
  no_equals : 61 ∉ v
  no_ampersand : 38 ∉ v
  no_space : 32 ∉ v
  no_zero : 0 ∉ v

instance (v : List UInt8) : Decidable (Plain v) :=
  decidable_of_iff (v ≠ [] ∧ v.length ≤ 15 ∧ 61 ∉ v ∧ 38 ∉ v ∧ 32 ∉ v ∧ 0 ∉ v)
    ⟨fun ⟨h, hl, he, ha, hs, hz⟩ => ⟨h, hl, he, ha, hs, hz⟩,
      fun h => ⟨h.pos, h.length_le, h.no_equals, h.no_ampersand, h.no_space,
        h.no_zero⟩⟩

/-- The password change as a browser sends it. -/
def changeRequest (old new confirm z : List UInt8) : List UInt8 :=
  bytesOf "GET /pass_set.cgi?old_password=" ++ (old ++
    (bytesOf "&new_password=" ++ (new ++
      (bytesOf "&confirm_password=" ++ (confirm ++ (bytesOf " HTTP/" ++ z))))))

/-- A client that has logged in, and changes a password of the device. -/
def changeCall (old new confirm : String) : HttpCall :=
  { HttpCall.ofString 1 "" with
    p := some (changeRequest (bytesOf old) (bytesOf new) (bytesOf confirm)
      (bytesOf "1.0")) }

/-- What is behind the index the search for the first value begins at. -/
theorem changeRequest_drop (old new confirm z : List UInt8) :
    (changeRequest old new confirm z).drop 17 =
      bytesOf "?old_password" ++ 61 :: (old ++ 38 :: (bytesOf "new_password" ++
        61 :: (new ++ 38 :: (bytesOf "confirm_password" ++
          61 :: (confirm ++ 32 :: (bytesOf "HTTP/" ++ z)))))) := rfl

/-- A value that is followed by the name of the next one. -/
theorem value_step {w b v name y : List UInt8} {p : Nat}
    (buf : CArray UInt8 16) (hv : Plain v) (hname : 61 ∉ name)
    (hw : w.drop p = v ++ 38 :: (name ++ 61 :: y)) :
    (∃ a rest,
      copyField buf (w ++ b) p (findAmpersand (w ++ b) w.length p) = some a ∧
        a.cells = v ++ 0 :: rest) ∧
    w.drop (findEquals (w ++ b) w.length p + 1) = y := by
  refine ⟨copyField_find buf hw hv.pos hv.no_ampersand hv.length_le, ?_⟩
  have hw' : w.drop p = (v ++ 38 :: name) ++ 61 :: y := by
    rw [hw, List.append_assoc]
    rfl
  -- behind a value the search for `=` passes the value and the next name
  refine drop_findEquals hw' (by simp) ?_
  rw [List.mem_append, List.mem_cons, not_or, not_or]
  exact ⟨hv.no_equals, by decide, hname⟩

/-- **The three values are read as they are submitted.** -/
theorem readPasswords_changeRequest {old new confirm : List UInt8}
    (ho : Plain old) (hn : Plain new) (hc : Plain confirm)
    (z b : List UInt8) (l : Passwords) :
    ∃ l' r₁ r₂ r₃,
      readPasswords (changeRequest old new confirm z ++ b)
        (changeRequest old new confirm z).length l = some l' ∧
      l'.old.cells = old ++ 0 :: r₁ ∧ l'.new.cells = new ++ 0 :: r₂ ∧
      l'.confirm.cells = confirm ++ 0 :: r₃ := by
  have hline := changeRequest_drop old new confirm z
  simp only [readPasswords, findSpace, Option.bind_eq_bind]
  generalize changeRequest old new confirm z = w at hline ⊢
  -- `p₁`, `p₂` and `p₃` are the places of the three values
  have hold := drop_findEquals (b := b) hline (by decide) (by decide)
  generalize findEquals (w ++ b) w.length 17 + 1 = p₁ at hold ⊢
  obtain ⟨⟨a₁, r₁, h₁, hc₁⟩, hnew⟩ :=
    value_step (b := b) l.old ho (by decide) hold
  generalize findEquals (w ++ b) w.length p₁ + 1 = p₂ at hnew ⊢
  obtain ⟨⟨a₂, r₂, h₂, hc₂⟩, hconfirm⟩ :=
    value_step (b := b) l.new hn (by decide) hnew
  generalize findEquals (w ++ b) w.length p₂ + 1 = p₃ at hconfirm ⊢
  obtain ⟨a₃, r₃, h₃, hc₃⟩ :=
    copyField_find (b := b) l.confirm hconfirm hc.pos hc.no_space hc.length_le
  refine ⟨⟨a₁, a₂, a₃⟩, r₁, r₂, r₃, ?_, hc₁, hc₂, hc₃⟩
  rw [h₁, Option.bind_some, h₂, Option.bind_some, h₃, Option.bind_some]

/-- **The comparison asks for a prefix**: the new password is compared with as
many bytes of its confirmation as it has itself. -/
theorem changeOk_iff (l : Passwords) : l.changeOk = true ↔
    cstr l.new.cells ≠ [] ∧ cstr l.new.cells <+: cstr l.confirm.cells := by
  rw [Passwords.changeOk, Bool.and_eq_true, strncmpEq0_cstr, bne_iff_ne,
    strlen0, ne_eq, List.length_eq_zero_iff, and_comm]

section Step

variable {s : Httpd} {x : HttpCall} {old new confirm z : List UInt8}

theorem request_changeRequest
    (hx : x.p = some (changeRequest old new confirm z)) :
    x.request = some .passSet := by
  have hline : Request.passSet.line <+:
      bytesOf "GET /pass_set.cgi?old_password=" := by decide
  exact HttpCall.request_of_prefix hx (hline.trans (List.prefix_append _ _))

/-- The values of a change, the new one being compared with its
confirmation. -/
theorem passwords_changeRequest (ho : Plain old) (hn : Plain new)
    (hc : Plain confirm) (hx : x.p = some (changeRequest old new confirm z)) :
    ∃ l, x.passwords = some l ∧ cstr l.new.cells = new ∧
      (l.changeOk = true ↔ new <+: confirm) := by
  obtain ⟨l, r₁, r₂, r₃, hl, -, hnew, hconfirm⟩ :=
    readPasswords_changeRequest ho hn hc z x.env.behind x.env.locals
  have hnew' : cstr l.new.cells = new := by
    rw [hnew, cstr_append_zero hn.no_zero]
  have hconfirm' : cstr l.confirm.cells = confirm := by
    rw [hconfirm, cstr_append_zero hc.no_zero]
  refine ⟨l, ?_, hnew', ?_⟩
  · rw [HttpCall.passwords, HttpCall.rq, HttpCall.payload, hx]
    exact hl
  · rw [changeOk_iff, hnew', hconfirm', and_iff_right hn.pos]

/-- A change that is accepted: the new password is put over the old one. -/
theorem step_changeRequest (ho : Plain old) (hn : Plain new)
    (hc : Plain confirm) (hs : s.st = .passSent)
    (hx : x.p = some (changeRequest old new confirm z))
    (hpre : new <+: confirm) :
    ∃ b : FlashImage, b.cells = s.flashBuff.cells.take 26 ++
        (new ++ 0 :: s.flashBuff.cells.drop (27 + new.length)) ∧
      httpStep s x =
        ⟨.recved x.pcb x.payload.length :: .writeFlash ::
          .setState .disconnected :: closing x .changedPassword,
        some { s with
          st := .disconnected
          flashBuff := b
          flash := (writeFlash b s.flash x.env.iap).2 }⟩ := by
  obtain ⟨l, hl, hcstr, hok⟩ := passwords_changeRequest ho hn hc hx
  have hlen := hn.length_le
  obtain ⟨b, hb, hcells⟩ := s.flashBuff.storePassword_cells (s := new)
    (by omega)
  refine ⟨b, hcells, ?_⟩
  rw [httpStep_of_request (request_changeRequest hx),
    answer_changed hs hl (hok.mpr hpre) (by rw [hcstr]; exact hb)]
  rfl

/-- A change that is rejected. -/
theorem step_changeRequest_rejected (ho : Plain old) (hn : Plain new)
    (hc : Plain confirm) (hs : s.st = .passSent)
    (hx : x.p = some (changeRequest old new confirm z))
    (hpre : ¬ new <+: confirm) :
    httpStep s x =
      ⟨.recved x.pcb x.payload.length :: .setState .disconnected ::
        closing x .changePasswordUnsuccessful,
      some { s with st := .disconnected }⟩ := by
  obtain ⟨l, hl, -, hok⟩ := passwords_changeRequest ho hn hc hx
  have hno : l.changeOk = false :=
    Bool.not_eq_true _ ▸ fun h => hpre (hok.mp h)
  rw [httpStep_of_request (request_changeRequest hx),
    answer_unsuccessful hs hl hno]
  rfl

end Step

/-! ### The round trip -/

/-- A login as a browser sends it. -/
def loginRequest (q z : List UInt8) : List UInt8 :=
  bytesOf "GET /pass_sent.cgi?password=" ++ (q ++ (bytesOf " HTTP/" ++ z))

theorem loginValue_loginRequest {q : List UInt8} (hq : 32 ∉ q)
    (z : List UInt8) : loginValue (loginRequest q z) = some q := by
  have hdrop : (loginRequest q z).drop 19 = bytesOf "password" ++ 61 ::
      (q ++ 32 :: (bytesOf "HTTP/" ++ z)) := rfl
  rw [loginValue_of_split hdrop (by decide), takeWhile_ne_of_split rfl hq]

/-- A change that the IAP commands carry out: the page, and the flash with
the new password. -/
theorem changeRequest_stored {s : Httpd} {x : HttpCall} {old p z : List UInt8}
    (ho : Plain old) (hp : Plain p) (hs : s.st = .passSent)
    (hbuff : s.flashBuff = s.flash)
    (hx : x.p = some (changeRequest old p p z))
    (herase : x.env.iap.erase = 0) (hcopy : x.env.iap.copy = 0) :
    .write x.pcb .changedPassword ∈ (httpStep s x).out ∧
    ∃ t, (httpStep s x).res = some t ∧ t.flash.cells =
      s.flash.cells.take 26 ++
        (p ++ 0 :: s.flash.cells.drop (27 + p.length)) := by
  obtain ⟨b, hcells, hstep⟩ :=
    step_changeRequest ho hp hp hs hx ⟨[], List.append_nil p⟩
  rw [hstep]
  refine ⟨by simp [closing], _, rfl, ?_⟩
  show (writeFlash b s.flash x.env.iap).2.cells = _
  rw [writeFlash_success herase hcopy b s.flash, hcells, hbuff]

/-- A login is accepted if and only if it carries the password in the
flash. -/
theorem loginRequest_iff {u : Httpd} {y : HttpCall} {p q z rest : List UInt8}
    (hp : Plain p) (hq : 32 ∉ q) (hy : y.p = some (loginRequest q z))
    (hpass : u.flash.password = p ++ 0 :: rest) :
    ∃ v, (httpStep u y).res = some v ∧ (v.st = .passSent ↔ q = p) := by
  have hline : Request.passSent.line <+:
      bytesOf "GET /pass_sent.cgi?password=" := by decide
  have hreq : y.request = some .passSent :=
    HttpCall.request_of_prefix hy (hline.trans (List.prefix_append _ _))
  have hmem : u.flash.password ++ y.env.behindBuff =
      p ++ 0 :: (rest ++ y.env.behindBuff) := by
    rw [hpass, List.append_assoc]
    rfl
  obtain ⟨v, hv, hstate⟩ := login_state u hreq
  refine ⟨v, hv, ?_⟩
  rw [hstate, HttpCall.passwordOk_iff hy hp.pos hp.no_zero hmem,
    loginValue_loginRequest hq, Option.some.injEq]

/-- **The password change makes the round trip.**  In the state `PASS_SENT`, a
change to `p` that the IAP commands carry out is answered as changed and
leaves the addresses and the MAC address in the flash as they are; from then
on, as long as the flash is not written, a login with `q` is accepted if and
only if `q` is `p`, whatever the password was before. -/
theorem password_change_round_trip {s : Httpd} {x : HttpCall}
    {old p z : List UInt8} (ho : Plain old) (hp : Plain p)
    (hs : s.st = .passSent) (hbuff : s.flashBuff = s.flash)
    (hx : x.p = some (changeRequest old p p z))
    (herase : x.env.iap.erase = 0) (hcopy : x.env.iap.copy = 0) :
    .write x.pcb .changedPassword ∈ (httpStep s x).out ∧
    ∃ t, (httpStep s x).res = some t ∧ t.flash.addresses = s.flash.addresses ∧
      t.flash.macAddress = s.flash.macAddress ∧
      ∀ (u : Httpd) (y : HttpCall) (q z' : List UInt8), u.flash = t.flash →
        32 ∉ q → y.p = some (loginRequest q z') →
        ∃ v, (httpStep u y).res = some v ∧ (v.st = .passSent ↔ q = p) := by
  obtain ⟨hpage, t, ht, hcells⟩ :=
    changeRequest_stored ho hp hs hbuff hx herase hcopy
  obtain ⟨haddr, hmac, hpassword⟩ := FlashImage.layout_of_storePassword hcells
  refine ⟨hpage, t, ht, haddr, hmac, ?_⟩
  intro u y q z' hu hq hy
  rw [← hu] at hpassword
  exact loginRequest_iff hp hq hy hpassword

/-- From `pw` to `new`. -/
theorem password_change_round_trip_pw :
    ∃ t, (httpStep { Httpd.boot flashWithPassword with st := .passSent }
        { HttpCall.ofString 1 "" with
          p := some (changeRequest (bytesOf "pw") (bytesOf "new")
            (bytesOf "new") (bytesOf "1.0")) }).res = some t ∧
      t.flash.addresses = flashWithPassword.addresses :=
  (password_change_round_trip (p := bytesOf "new")
    (s := { Httpd.boot flashWithPassword with st := .passSent })
    (by decide) (by decide) rfl rfl rfl rfl rfl).2.imp fun _ h => ⟨h.1, h.2.1⟩

end Roip
